import DbcSnark.Model.Gpuec.RunDBC
import DbcSnark.Proofs.DBCTest.Greedy
import DbcSnark.Proofs.Gpuec.BasePoint
import DbcSnark.Proofs.Gpuec.Point
import DbcSnark.ToMathlib.DoubleBase

/-! # `run_DBC_v2` on points of the curve

The copies of `run_DBC_v2` write the last coordinate over the first one and leave the last coordinate of the target as
it was. Where the locals `base` and `tmp` happen to hold zero, their last coordinates are zero in every turn, and the
result represents no finite point, whatever the chain.
-/

namespace DbcSnark.Gpuec

open DBCTest.Greedy
open WeierstrassCurve.Affine (Point)

/-- What the functions on Jacobian coordinates leave in the words of their results. -/
def jacobianOps : PointOps Jpoint where
  copy source target := ⟨source.z, source.y, target.z⟩
  double := Jpoint.double
  add := Jpoint.add
  subY base tmp := { tmp with y := dh_mybig_sub_64 modP.Pa base.y }

theorem Ram.jpoint_dh_my_point_copy (m : Ram) {pt1 pt2 : ℕ} (apart : Separate pt1 pt2) :
    (dh_my_point_copy m pt1 pt2).jpoint pt2 = jacobianOps.copy (m.jpoint pt1) (m.jpoint pt2) := by
  rw [Separate] at apart
  simp (disch := omega) only [jpoint, dh_my_point_copy, jacobianOps, big_putBig, big_putBig_of_apart]

/-! ## Zero coordinates -/

section Ops

variable {J K : Jpoint}

theorem copy_x : (jacobianOps.copy J K).x = J.z := rfl

theorem copy_z : (jacobianOps.copy J K).z = K.z := rfl

private theorem with_y_z (v : Big) : Jpoint.z { K with y := v } = K.z := rfl

theorem subY_z : (jacobianOps.subY J K).z = K.z := with_y_z _

theorem double_z_eq_zero (zero : J.z = 0) : (jacobianOps.double J).z = 0 := by
  rw [jacobianOps, Jpoint.double_z, zero]
  exact modP.monmult_eq_zero (.inl rfl)

theorem add_z_eq_zero (zero : J.z = 0 ∨ K.z = 0) : (jacobianOps.add J K).z = 0 := by
  obtain ⟨l, product⟩ := J.add_z K
  rw [jacobianOps, product, modP.monmult_eq_zero zero]
  exact modP.monmult_eq_zero (.inl rfl)

end Ops

/-- No point has a coordinate zero. -/
theorem Jpoint.Represents.ne_zero {J : Jpoint} {P : curve.Point} (represents : J.Represents P) (finite : P ≠ 0) :
    J.x ≠ 0 ∧ J.z ≠ 0 := by
  cases P with
  | zero => exact absurd rfl finite
  | some x y h =>
    obtain ⟨X, Y, Z, residues, nonzero, hX, hY⟩ := represents
    have abscissa : X ≠ 0 := by
      rw [hX]
      exact mul_ne_zero (abscissa_ne_zero h) (pow_ne_zero 2 nonzero)
    constructor
    · intro zero
      exact abscissa (residues.x.iszero_iff.mp ((Big.iszero_iff _).mpr (by rw [zero, Big.toNat_zero])))
    · intro zero
      exact nonzero (residues.z.iszero_iff.mp ((Big.iszero_iff _).mpr (by rw [zero, Big.toNat_zero])))

namespace RunDBC

/-- The last coordinates of both locals are zero. -/
structure Dead (st : RunDBC Jpoint) : Prop where
  base : st.base.z = 0
  tmp : st.tmp.z = 0

variable {st : RunDBC Jpoint}

private theorem Dead.climbStep (dead : Dead st) (dbl tpl : ℕ) : Dead (climbStep jacobianOps dbl tpl st) := by
  have double := double_z_eq_zero dead.base
  rw [RunDBC.climbStep]
  split
  · constructor
    · exact copy_z.trans dead.base
    · exact double
  · split
    · constructor
      · exact add_z_eq_zero (.inl dead.base)
      · exact double
    · exact dead

private theorem Dead.climb (dead : Dead st) (dbl tpl : ℕ) : Dead (climb jacobianOps dbl tpl st) := by
  rw [RunDBC.climb]
  generalize dbl - st.now_dbl + (tpl - st.now_tpl) = n
  induction n generalizing st with
  | zero => exact dead
  | succ n ih => exact ih (dead.climbStep dbl tpl)

/-- A row leaves the locals dead and a result that represents no finite point. -/
private theorem Dead.step (dead : Dead st) (r : ℤ × ℕ × ℕ) :
    Dead (row jacobianOps st r) ∧ ((row jacobianOps st r).res.x = 0 ∨ (row jacobianOps st r).res.z = 0) := by
  have climbed := dead.climb r.2.1 r.2.2
  rw [row]
  generalize RunDBC.climb jacobianOps r.2.1 r.2.2 st = st' at climbed
  have tmp : (if r.1 = -1 then jacobianOps.subY st'.base (jacobianOps.copy st'.base st'.tmp)
      else jacobianOps.copy st'.base st'.tmp).z = 0 := by
    split
    · exact subY_z.trans (copy_z.trans climbed.tmp)
    · exact copy_z.trans climbed.tmp
  refine ⟨⟨climbed.base, tmp⟩, ?_⟩
  dsimp only
  split
  · exact .inl (copy_x.trans tmp)
  · exact .inr (add_z_eq_zero (.inr tmp))

private theorem Dead.run (rows : List (ℤ × ℕ × ℕ)) (nonempty : rows ≠ []) (dead : Dead st) :
    (rows.foldl (row jacobianOps) st).res.x = 0 ∨ (rows.foldl (row jacobianOps) st).res.z = 0 := by
  induction rows generalizing st with
  | nil => exact absurd rfl nonempty
  | cons r rows ih =>
    rw [List.foldl_cons]
    cases rows with
    | nil => exact (dead.step r).2
    | cons r' rows => exact ih (List.cons_ne_nil _ _) (dead.step r).1

end RunDBC

/-! ## Stored chains -/

/-- Signed power products, the leading one first, each strictly dividing the one before it. -/
structure StoredChain (rows : List (ℤ × ℕ × ℕ)) : Prop where
  nonempty : rows ≠ []
  signs : ∀ r ∈ rows, r.1 = 1 ∨ r.1 = -1
  dividing : rows.Pairwise fun r r' => r'.2.1 ≤ r.2.1 ∧ r'.2.2 ≤ r.2.2 ∧ r'.2.1 + r'.2.2 < r.2.1 + r.2.2

/-- A row as a signed power product. -/
private def term (r : ℤ × ℕ × ℕ) : DoubleBase.Term := ⟨r.2.1, r.2.2, r.1 = -1⟩

private theorem value_term {rows : List (ℤ × ℕ × ℕ)} (signs : ∀ r ∈ rows, r.1 = 1 ∨ r.1 = -1) :
    DoubleBase.value (rows.map term) = total rows := by
  induction rows with
  | nil => rfl
  | cons r rows ih =>
    have rest := ih fun r' member => signs r' (List.mem_cons_of_mem _ member)
    have head : (term r).value = r.1 * 2 ^ r.2.1 * 3 ^ r.2.2 := by
      rcases signs r List.mem_cons_self with plus | minus
      · rw [plus, one_mul]
        exact if_neg (by simp [term, plus])
      · rw [minus, neg_one_mul, neg_mul]
        exact if_pos (by simp [term, minus])
    rw [List.map_cons, DoubleBase.value_cons, head, rest]
    rfl

private theorem below_term {r : ℤ × ℕ × ℕ} {rows : List (ℤ × ℕ × ℕ)}
    (dividing : (r :: rows).Pairwise fun r r' => r'.2.1 ≤ r.2.1 ∧ r'.2.2 ≤ r.2.2 ∧ r'.2.1 + r'.2.2 < r.2.1 + r.2.2) :
    DoubleBase.Below r.2.1 r.2.2 (rows.map term) := by
  induction rows generalizing r with
  | nil => trivial
  | cons r' rows ih =>
    obtain ⟨above, rest⟩ := List.pairwise_cons.mp dividing
    exact ⟨above r' List.mem_cons_self, ih rest⟩

/-- The terms behind the leading one do not cancel it. -/
theorem StoredChain.total_ne_zero {rows : List (ℤ × ℕ × ℕ)} (chain : StoredChain rows) : total rows ≠ 0 := by
  cases rows with
  | nil => exact absurd rfl chain.nonempty
  | cons r rows =>
    have tail := (below_term chain.dividing).abs_value_lt
    have head := (term r).abs_value
    rw [← value_term chain.signs, List.map_cons, DoubleBase.value_cons]
    intro cancel
    rw [eq_neg_of_add_eq_zero_left cancel, abs_neg] at head
    exact absurd head tail.ne

/-! ## The run -/

/-- The coordinates zero. -/
def Jpoint.cleared : Jpoint := ⟨0, 0, 0⟩

private theorem dead_of_cleared (pt1 res : Jpoint) (DBC : List (ℤ × ℕ × ℕ)) (nonempty : DBC ≠ []) :
    (run_DBC_v2 jacobianOps Jpoint.cleared Jpoint.cleared pt1 res DBC).res.x = 0 ∨
      (run_DBC_v2 jacobianOps Jpoint.cleared Jpoint.cleared pt1 res DBC).res.z = 0 := by
  apply RunDBC.Dead.run DBC.reverse (List.reverse_ne_nil_iff.mpr nonempty)
  exact ⟨rfl, rfl⟩

private theorem multiple_finite {P : curve.Point} {DBC : List (ℤ × ℕ × ℕ)} (chain : StoredChain DBC)
    (below : (total DBC).natAbs < addOrderOf P) : total DBC • P ≠ 0 := by
  intro zero
  have divides := Int.natAbs_dvd_natAbs.mpr (addOrderOf_dvd_iff_zsmul_eq_zero.mpr zero)
  rw [Int.natAbs_natCast] at divides
  have positive : 0 < (total DBC).natAbs := Int.natAbs_pos.mpr chain.total_ne_zero
  exact absurd (Nat.le_of_dvd positive divides) (not_le.mpr below)

/-- Whatever the point, the chain and the old result, there are contents of the uninitialised locals for which
`run_DBC_v2` does not find the multiple of the point. -/
theorem run_DBC_v2_never (pt1 res : Jpoint) (P : curve.Point) (DBC : List (ℤ × ℕ × ℕ)) (chain : StoredChain DBC)
    (below : (total DBC).natAbs < addOrderOf P) :
    ¬∀ base tmp, (run_DBC_v2 jacobianOps base tmp pt1 res DBC).res.Represents (total DBC • P) := by
  intro claim
  have nonzero := (claim Jpoint.cleared Jpoint.cleared).ne_zero (multiple_finite chain below)
  rcases dead_of_cleared pt1 res DBC chain.nonempty with x | z
  · exact nonzero.1 x
  · exact nonzero.2 z

private theorem storedChain_one : StoredChain [(1, 0, 0)] :=
  ⟨List.cons_ne_nil _ _, fun _ member => .inl (by rw [List.mem_singleton.mp member]), List.pairwise_singleton _ _⟩

private theorem one_below_order : (total [(1, 0, 0)]).natAbs < addOrderOf basePoint := by
  rw [addOrderOf_basePoint]
  decide

theorem run_DBC_v2_never_one :
    ¬∀ base tmp, (run_DBC_v2 jacobianOps base tmp ⟨baseWords.x, baseWords.y, dc_mon_ONE⟩ Jpoint.cleared
      [(1, 0, 0)]).res.Represents (total [(1, 0, 0)] • basePoint) :=
  run_DBC_v2_never _ _ basePoint [(1, 0, 0)] storedChain_one one_below_order

/-- The base point times the chain of the number one, with all the locals and the result zero. -/
theorem run_DBC_v2_one_wrong :
    (run_DBC_v2 jacobianOps Jpoint.cleared Jpoint.cleared ⟨baseWords.x, baseWords.y, dc_mon_ONE⟩ Jpoint.cleared
      [(1, 0, 0)]).res = ⟨0, baseWords.y, 0⟩ ∧
    ¬∀ (pt1 res base tmp : Jpoint) (P : curve.Point) (DBC : List (ℤ × ℕ × ℕ)), StoredChain DBC →
      (addOrderOf P).Prime → (total DBC).natAbs < addOrderOf P → pt1.Represents P →
      (run_DBC_v2 jacobianOps base tmp pt1 res DBC).res.Represents (total DBC • P) := by
  have result : (run_DBC_v2 jacobianOps Jpoint.cleared Jpoint.cleared ⟨baseWords.x, baseWords.y, dc_mon_ONE⟩
      Jpoint.cleared [(1, 0, 0)]).res = ⟨0, baseWords.y, 0⟩ := by
    decide +kernel
  refine ⟨result, fun claim => ?_⟩
  have order : (addOrderOf basePoint).Prime := by
    rw [addOrderOf_basePoint]
    exact Fact.out
  have represents := claim ⟨baseWords.x, baseWords.y, dc_mon_ONE⟩ Jpoint.cleared Jpoint.cleared Jpoint.cleared basePoint
    [(1, 0, 0)] storedChain_one order one_below_order (represents_basePoint.toJpoint basePoint_ne_zero)
  rw [result] at represents
  exact (represents.ne_zero (multiple_finite storedChain_one one_below_order)).2 rfl

end DbcSnark.Gpuec
