import DbcSnark.Proofs.Gpuec.Point

/-! # The mixed addition

The five paths of `dh_ellipticSumEqual_AJ` are told apart by the two points: either is at infinity, they are equal,
they are opposite, or they differ in their abscissas. Every path but one stores the sum in the words of the first
point and nothing else. For opposite points `dh_setzero_J` clears eight words from `z` on, of which the point has four.
-/

namespace DbcSnark.Gpuec

open WeierstrassCurve.Affine (Point)

/-! ## The values -/

/-- `u1` when the paths part. -/
def Jpoint.crossX (J : Jpoint) (A : Apoint) : Big :=
  modP.modsub (modP.monmult A.x (modP.monmult J.z J.z)) J.x

/-- `u2` when the paths part. -/
def Jpoint.crossY (J : Jpoint) (A : Apoint) : Big :=
  modP.modsub (modP.monmult A.y (modP.monmult J.z (modP.monmult J.z J.z))) J.y

/-- The coordinates that the generic path stores. -/
def Jpoint.addAffine (J : Jpoint) (A : Apoint) : Jpoint :=
  let u1 := J.crossX A
  let u2 := J.crossY A
  let d := modP.monmult u1 u1
  let u1' := modP.monmult u1 d
  let u3 := modP.monmult d J.x
  let x := modP.modsub (modP.modsub (modP.modsub (modP.monmult u2 u2) u3) u3) u1'
  let y := modP.modsub (modP.monmult (modP.modsub u3 x) u2) (modP.monmult u1' J.y)
  ⟨x, y, modP.monmult J.z u1⟩

/-! ## The paths -/

namespace Ram

/-- A point at address `pt1` and an affine point at address `pt2` that share no word. -/
def Beside (pt1 pt2 : ℕ) : Prop := pt1 + 12 ≤ pt2 ∨ pt2 + 8 ≤ pt1

variable {m : Ram} {pt1 pt2 i : ℕ}

theorem apoint_congr {m m' : Ram} (same : ∀ i, pt2 ≤ i → i < pt2 + 8 → m' i = m i) : m'.apoint pt2 = m.apoint pt2 := by
  simp (disch := omega) only [apoint, big, same]

theorem jpoint_put (m : Ram) (v : UInt64) (outside : i < pt1 ∨ pt1 + 12 ≤ i) : (m.put i v).jpoint pt1 = m.jpoint pt1 :=
  jpoint_congr fun _ _ _ => Function.update_of_ne (by omega) _ _

theorem apoint_put (m : Ram) (v : UInt64) (outside : i < pt2 ∨ pt2 + 8 ≤ i) : (m.put i v).apoint pt2 = m.apoint pt2 :=
  apoint_congr fun _ _ _ => Function.update_of_ne (by omega) _ _

/-- The words that `dh_setzero_J` clears. -/
theorem dh_setzero_J_inside (above : pt1 + 8 ≤ i) (below : i < pt1 + 16) : dh_setzero_J m pt1 i = 0 := by
  obtain ⟨k, rfl⟩ := Nat.exists_eq_add_of_le above
  have bound : k < 8 := by omega
  interval_cases k
  all_goals
    rw [dh_setzero_J, show List.range 8 = [0, 1, 2, 3, 4, 5, 6, 7] from rfl]
    simp (disch := omega) only [List.foldl_cons, List.foldl_nil, put, Function.update_self, Function.update_of_ne]

theorem dh_ellipticSumEqual_AJ_second (infinite : dh_iszero_A m pt2 = true) :
    dh_ellipticSumEqual_AJ m pt1 pt2 = m :=
  if_pos infinite

section Finite

variable (second : ¬dh_iszero_A m pt2 = true)
include second

theorem dh_ellipticSumEqual_AJ_first (infinite : dh_iszero_J m pt1 = true) (apart : Beside pt1 pt2) :
    (dh_ellipticSumEqual_AJ m pt1 pt2).jpoint pt1 = ⟨(m.apoint pt2).x, (m.apoint pt2).y, dc_mon_ONE⟩ ∧
      ∀ i, i < pt1 ∨ pt1 + 12 ≤ i → dh_ellipticSumEqual_AJ m pt1 pt2 i = m i := by
  rw [Beside] at apart
  rw [dh_ellipticSumEqual_AJ, if_neg second, if_pos infinite]
  refine ⟨?_, fun i outside => ?_⟩
  · simp (disch := omega) only [jpoint, apoint, big_putBig, big_putBig_of_apart]
  · simp (disch := omega) only [putBig_of_outside]

variable (first : ¬dh_iszero_J m pt1 = true)
include first

theorem dh_ellipticSumEqual_AJ_equal (abscissa : ((m.jpoint pt1).crossX (m.apoint pt2)).iszero = true)
    (ordinate : ((m.jpoint pt1).crossY (m.apoint pt2)).iszero = true) :
    dh_ellipticSumEqual_AJ m pt1 pt2 = ppoint_double m pt1 pt1 := by
  rw [dh_ellipticSumEqual_AJ, if_neg second, if_neg first]
  exact (if_pos abscissa).trans (if_pos ordinate)

theorem dh_ellipticSumEqual_AJ_opposite (abscissa : ((m.jpoint pt1).crossX (m.apoint pt2)).iszero = true)
    (ordinate : ¬((m.jpoint pt1).crossY (m.apoint pt2)).iszero = true) :
    dh_ellipticSumEqual_AJ m pt1 pt2 = dh_setzero_J m pt1 := by
  rw [dh_ellipticSumEqual_AJ, if_neg second, if_neg first]
  exact (if_pos abscissa).trans (if_neg ordinate)

theorem dh_ellipticSumEqual_AJ_generic (abscissa : ¬((m.jpoint pt1).crossX (m.apoint pt2)).iszero = true) :
    (dh_ellipticSumEqual_AJ m pt1 pt2).jpoint pt1 = (m.jpoint pt1).addAffine (m.apoint pt2) ∧
      ∀ i, i < pt1 ∨ pt1 + 12 ≤ i → dh_ellipticSumEqual_AJ m pt1 pt2 i = m i := by
  rw [dh_ellipticSumEqual_AJ, if_neg second, if_neg first]
  refine ⟨(congrArg (fun m => jpoint m pt1) (if_neg abscissa)).trans ?_,
    fun i outside => (congrFun (if_neg abscissa) i).trans ?_⟩
  · simp (disch := omega) only [jpoint, big_putBig, big_putBig_of_apart]
    rfl
  · simp (disch := omega) only [putBig_of_outside]

end Finite

end Ram

/-! ## The residues -/

namespace Jpoint

variable {J : Jpoint} {A : Apoint} {x₁ y₁ x₂ y₂ : modP.Residue} {h₁ : curve.Nonsingular x₁ y₁}
  {h₂ : curve.Nonsingular x₂ y₂}

theorem Represents.crossX_iff (left : J.Represents (.some x₁ y₁ h₁)) (right : A.Represents (.some x₂ y₂ h₂)) :
    (J.crossX A).iszero = true ↔ x₁ = x₂ := by
  obtain ⟨X, Y, Z, left, finite, hX, hY⟩ := left
  have cross := (right.1.mul (left.z.mul left.z)).sub left.x
  have factors : x₂ * (Z * Z) - X = (x₂ - x₁) * Z ^ 2 := by
    rw [hX]
    ring
  rw [crossX, cross.iszero_iff, factors, mul_eq_zero_iff_right (pow_ne_zero 2 finite), sub_eq_zero, eq_comm]

theorem Represents.crossY_iff (left : J.Represents (.some x₁ y₁ h₁)) (right : A.Represents (.some x₂ y₂ h₂)) :
    (J.crossY A).iszero = true ↔ y₁ = y₂ := by
  obtain ⟨X, Y, Z, left, finite, hX, hY⟩ := left
  have cross := (right.2.mul (left.z.mul (left.z.mul left.z))).sub left.y
  have factors : y₂ * (Z * (Z * Z)) - Y = (y₂ - y₁) * Z ^ 3 := by
    rw [hY]
    ring
  rw [crossY, cross.iszero_iff, factors, mul_eq_zero_iff_right (pow_ne_zero 3 finite), sub_eq_zero, eq_comm]

theorem Represents.addAffine (left : J.Represents (.some x₁ y₁ h₁)) (right : A.Represents (.some x₂ y₂ h₂))
    (apart : x₁ ≠ x₂) : (J.addAffine A).Represents (.some x₁ y₁ h₁ + .some x₂ y₂ h₂) := by
  obtain ⟨X, Y, Z, left, holds⟩ := left
  have u1 := (right.1.mul (left.z.mul left.z)).sub left.x
  have u2 := (right.2.mul (left.z.mul (left.z.mul left.z))).sub left.y
  have d := u1.mul u1
  have u1' := u1.mul d
  have u3 := d.mul left.x
  have x := (((u2.mul u2).sub u3).sub u3).sub u1'
  have y := ((u3.sub x).mul u2).sub (u1'.mul left.y)
  have z := left.z.mul u1
  exact (Residues.of_mont x y z).represents ((holds.add_affine apart).of_eq (by ring) (by ring) (by ring))

end Jpoint

/-! ## The function on memory -/

namespace Ram

variable {m : Ram} {pt1 pt2 : ℕ} {P Q : curve.Point}

/-- Away from opposite points the sum is stored in the words of the first point. -/
theorem dh_ellipticSumEqual_AJ_stores (apart : Beside pt1 pt2) (left : (m.jpoint pt1).Represents P)
    (right : (m.apoint pt2).Represents Q) (unlike : ¬(P ≠ 0 ∧ Q = -P)) :
    ((dh_ellipticSumEqual_AJ m pt1 pt2).jpoint pt1).Represents (P + Q) ∧
      ∀ i, i < pt1 ∨ pt1 + 12 ≤ i → dh_ellipticSumEqual_AJ m pt1 pt2 i = m i := by
  by_cases second : dh_iszero_A m pt2 = true
  · rw [dh_ellipticSumEqual_AJ_second second, right.iszero_iff.mp second, add_zero]
    exact ⟨left, fun _ _ => rfl⟩
  · have right_finite : Q ≠ 0 := fun zero => second (right.iszero_iff.mpr zero)
    by_cases first : dh_iszero_J m pt1 = true
    · obtain ⟨stored, outside⟩ := dh_ellipticSumEqual_AJ_first second first apart
      rw [stored, left.iszero_iff.mp first, zero_add]
      exact ⟨right.toJpoint right_finite, outside⟩
    · have left_finite : P ≠ 0 := fun zero => first (left.iszero_iff.mpr zero)
      cases P with
      | zero => exact absurd rfl left_finite
      | some x₁ y₁ h₁ =>
        cases Q with
        | zero => exact absurd rfl right_finite
        | some x₂ y₂ h₂ =>
          by_cases abscissa : x₁ = x₂
          · have equal : Point.some x₁ y₁ h₁ = Point.some x₂ y₂ h₂ := by
              rcases Point.X_eq_iff.mp abscissa with equal | opposite
              · exact equal
              · exact absurd ⟨left_finite, (neg_eq_iff_eq_neg.mpr opposite).symm⟩ unlike
            have ordinate : y₁ = y₂ := (Point.some.inj equal).2
            rw [dh_ellipticSumEqual_AJ_equal second first ((left.crossX_iff right).mpr abscissa)
              ((left.crossY_iff right).mpr ordinate), ← equal, jpoint_ppoint_double m (.inl rfl)]
            exact ⟨left.double left_finite, fun i outside => ppoint_double_of_outside m outside⟩
          · have cross := (left.crossX_iff right).not.mpr abscissa
            obtain ⟨stored, outside⟩ := dh_ellipticSumEqual_AJ_generic second first cross
            rw [stored]
            exact ⟨left.addAffine right abscissa, outside⟩

/-- For opposite points eight words are cleared. -/
theorem dh_ellipticSumEqual_AJ_clears (left : (m.jpoint pt1).Represents P) (right : (m.apoint pt2).Represents (-P))
    (finite : P ≠ 0) : dh_ellipticSumEqual_AJ m pt1 pt2 = dh_setzero_J m pt1 := by
  have second : ¬dh_iszero_A m pt2 = true := fun zero => finite (neg_eq_zero.mp (right.iszero_iff.mp zero))
  have first : ¬dh_iszero_J m pt1 = true := fun zero => finite (left.iszero_iff.mp zero)
  cases P with
  | zero => exact absurd rfl finite
  | some x y h =>
    rw [Point.neg_some] at right
    apply dh_ellipticSumEqual_AJ_opposite second first ((left.crossX_iff right).mpr rfl)
    rw [left.crossY_iff right, Jacobian.negY_eq]
    exact ordinate_ne_neg h

/-- The call leaves `pt1 = pt1 + pt2` and the words of `pt2` as they were, and it writes no other word: whatever such
a word holds before the call, it holds afterwards. -/
structure Sums (m : Ram) (pt1 pt2 : ℕ) (S : curve.Point) : Prop where
  sum : ((dh_ellipticSumEqual_AJ m pt1 pt2).jpoint pt1).Represents S
  kept : (dh_ellipticSumEqual_AJ m pt1 pt2).apoint pt2 = m.apoint pt2
  inside : ∀ i, i < pt1 ∨ pt1 + 12 ≤ i → i < pt2 ∨ pt2 + 8 ≤ i → ∀ v,
    dh_ellipticSumEqual_AJ (m.put i v) pt1 pt2 i = v

/-- The four words behind the point are cleared as well: either they belong to the other point, or they held anything. -/
private theorem not_sums_of_opposite (apart : Beside pt1 pt2) (left : (m.jpoint pt1).Represents P)
    (right : (m.apoint pt2).Represents (-P)) (finite : P ≠ 0) : ¬Sums m pt1 pt2 (P + -P) := by
  intro sums
  by_cases behind : pt2 = pt1 + 12
  · subst behind
    have cleared : (dh_setzero_J m pt1).big (pt1 + 12) = 0 := by
      simp (disch := omega) only [big, dh_setzero_J_inside]
      rfl
    have zero : (m.apoint (pt1 + 12)).x.iszero = true := by
      rw [← sums.kept, dh_ellipticSumEqual_AJ_clears left right finite, apoint, cleared]
      exact (Big.iszero_iff 0).mpr rfl
    exact finite (neg_eq_zero.mp (right.iszero_iff.mp zero))
  · rw [Beside] at apart
    have word := sums.inside (pt1 + 12) (by omega) (by omega) 1
    rw [← jpoint_put m 1 (i := pt1 + 12) (by omega)] at left
    rw [← apoint_put m 1 (i := pt1 + 12) (by omega)] at right
    rw [dh_ellipticSumEqual_AJ_clears left right finite, dh_setzero_J_inside (by omega) (by omega)] at word
    exact absurd word (by decide)

/-- The mixed addition is complete and local but for opposite finite points, where the four words behind the point
are cleared too. -/
theorem mixed_addition_iff (m : Ram) (pt1 pt2 : ℕ) (P Q : curve.Point) (apart : Beside pt1 pt2)
    (left : (m.jpoint pt1).Represents P) (right : (m.apoint pt2).Represents Q) :
    Sums m pt1 pt2 (P + Q) ↔ ¬(P ≠ 0 ∧ Q = -P) := by
  constructor
  · rintro sums ⟨finite, rfl⟩
    exact not_sums_of_opposite apart left right finite sums
  · intro unlike
    obtain ⟨sum, outside⟩ := dh_ellipticSumEqual_AJ_stores apart left right unlike
    refine ⟨sum, apoint_congr fun i above below => outside i ?_, fun i beside beyond v => ?_⟩
    · rw [Beside] at apart
      omega
    · rw [← jpoint_put m v beside] at left
      rw [← apoint_put m v beyond] at right
      rw [(dh_ellipticSumEqual_AJ_stores apart left right unlike).2 i beside, put, Function.update_self]

/-- A point at address 0, a word behind it, and the opposite affine point at address 16. -/
def opposites : Ram := fun i =>
  [0x1000003d1, 0, 0, 0, 0xfb478aabe40e6105, 0x831028337c7124c6, 0x707c52c483cce0b8, 0x27fa024e1e8f3b00,
    0x1000003d1, 0, 0, 0, 7, 0, 0, 0, 0x1000003d1, 0, 0, 0, 0x4b875531bf19b2a, 0x7cefd7cc838edb39,
    0x8f83ad3b7c331f47, 0xd805fdb1e170c4ff].getD i 0

theorem mixed_addition_iff_infinity : ∃ P : curve.Point, P ≠ 0 ∧ Sums opposites 0 24 (P + 0) := by
  obtain ⟨h, left⟩ := Apoint.exists_represents (A := opposites.apoint 0) 1
    29896722852569046015560700294576055776214335159245303116488692907525646231534 (by decide) (by decide) (by decide)
  have finite := Point.some_ne_zero h
  have infinite : (opposites.apoint 24).Represents 0 := (by decide : (opposites.apoint 24).x.iszero = true)
  refine ⟨_, finite, (mixed_addition_iff opposites 0 24 _ 0 (.inl (by decide)) (left.toJpoint finite) infinite).mpr ?_⟩
  rintro ⟨-, opposite⟩
  exact finite (neg_eq_zero.mp opposite.symm)

theorem mixed_addition_overruns : (opposites 12 = 7 ∧ dh_ellipticSumEqual_AJ opposites 0 16 12 = 0) ∧
    ¬∀ (m : Ram) (pt1 pt2 : ℕ) (P Q : curve.Point), Beside pt1 pt2 → (m.jpoint pt1).Represents P →
      (m.apoint pt2).Represents Q → Sums m pt1 pt2 (P + Q) := by
  have cleared : dh_ellipticSumEqual_AJ opposites 0 16 12 = 0 := by decide +kernel
  refine ⟨⟨rfl, cleared⟩, fun claim => ?_⟩
  obtain ⟨h₁, left⟩ := Apoint.exists_represents (A := opposites.apoint 0) 1
    29896722852569046015560700294576055776214335159245303116488692907525646231534 (by decide) (by decide) (by decide)
  obtain ⟨h₂, right⟩ := Apoint.exists_represents (A := opposites.apoint 16) 1
    85895366384747149408010284714111852077055649506395260922968891100383188440129 (by decide) (by decide) (by decide)
  have sums := claim opposites 0 16 _ _ (.inl (by decide)) (left.toJpoint (Point.some_ne_zero h₁)) right
  have word := sums.inside 12 (.inr le_rfl) (.inl (by decide)) 7
  have same : opposites.put 12 7 = opposites := Function.update_eq_self 12 opposites
  rw [same, cleared] at word
  exact absurd word (by decide)

end Ram

end DbcSnark.Gpuec
