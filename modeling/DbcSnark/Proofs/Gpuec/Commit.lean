import DbcSnark.Model.Gpuec.Commit
import DbcSnark.Proofs.Gpuec.Normalise
import DbcSnark.Proofs.Gpuec.PointMult

/-! # Correctness of the commitments

A commitment to a positive value is the sum of two multiples. For the value zero the search for the leading word runs
off the front of `value`, and `value[-1]` is read.
-/

namespace DbcSnark.Gpuec

open WeierstrassCurve.Affine (Point)

theorem represents_pG_mon : pG_mon.Represents basePoint := represents_basePoint.toJpoint basePoint_ne_zero

private theorem toNat_value {v : Int32} (nonneg : 0 ≤ v) :
    Big.toNat ⟨v.toInt64.toUInt64, 0, 0, 0⟩ = v.toNatClampNeg := by
  have wide : 0 ≤ v.toInt64 := by
    rw [Int64.le_iff_toInt_le, Int32.toInt_toInt64]
    exact Int32.le_iff_toInt_le.mp nonneg
  have word : v.toInt64.toUInt64.toNat = v.toNatClampNeg := by
    rw [Int64.toNat_toUInt64_of_le wide]
    exact congrArg Int.toNat (Int32.toInt_toInt64 v)
  simp only [Big.toNat, word, UInt64.toNat_zero, Nat.mul_zero, Nat.add_zero]

namespace Ram

/-- The arguments of a commitment: a value and a blinding in range, a point of the order of the group, multiples that can
be added, and objects of their own for all pointers, globals and locals. -/
structure Commits (s : Ram) (G value tp local_tp ret : ℕ) (v : Int32) (r h : ℕ) (H : curve.Point) : Prop where
  base : s.jpoint G = pG_mon
  nonneg : 0 ≤ v
  positive : 0 < (s.big r).toNat
  below : (s.big r).toNat < modN.Pa.toNat
  order : addOrderOf H = modN.Pa.toNat
  point : (s.jpoint h).Represents H
  distinct : v.toNatClampNeg • basePoint ≠ (s.big r).toNat • H
  unopposed : v.toNatClampNeg • basePoint ≠ -((s.big r).toNat • H)
  objects : Objects [(G, 12), (ret, 12), (h, 12), (tp, 12), (local_tp, 12), (value, 4), (r, 4)]

variable {s m' : Ram} {G value tp local_tp ret r h : ℕ} {v : Int32} {H : curve.Point}

/-- The pairs of objects that the calls need apart. -/
private theorem Commits.apart (commits : Commits s G value tp local_tp ret v r h H) :
    (Separate G ret ∧ Separate G local_tp ∧ Separate ret h ∧ Separate ret tp ∧ Separate ret local_tp ∧
      Separate h tp ∧ Separate h local_tp ∧ Separate tp local_tp) ∧
      (Aside value G ∧ Aside value h ∧ Aside value local_tp ∧ Aside r ret ∧ Aside r local_tp) ∧ Apart r value := by
  have objects := commits.objects
  simp only [Objects, List.pairwise_cons, List.mem_cons, List.not_mem_nil, or_false, forall_eq_or_imp, forall_eq,
    List.Pairwise.nil, and_true] at objects
  obtain ⟨⟨G_ret, -, -, G_local, G_value, -⟩, ⟨ret_h, ret_tp, ret_local, -, ret_r⟩, ⟨h_tp, h_local, h_value, -⟩,
    ⟨tp_local, -⟩, ⟨local_value, local_r⟩, value_r, -⟩ := objects
  exact ⟨⟨G_ret, G_local, ret_h, ret_tp, ret_local, h_tp, h_local, tp_local⟩,
    ⟨G_value.symm, h_value.symm, local_value.symm, ret_r.symm, local_r.symm⟩, value_r.symm⟩

private theorem value_below (v : Int32) : v.toNatClampNeg < modN.Pa.toNat := by
  have small : v.toInt < 2 ^ 31 := v.toInt_lt
  have word : v.toNatClampNeg = v.toInt.toNat := rfl
  have order := modN_toNat
  omega

/-- The sum of the multiples is stored for every positive value. -/
private theorem commitG1_stores (commits : Commits s G value tp local_tp ret v r h H) (positive : 0 < v.toNatClampNeg) :
    ∃ m', commitG1 G value tp local_tp s ret v r h = some m' ∧ ∃ X Y Z, (m'.jpoint ret).PlainResidues X Y Z ∧
      Jacobian.Holds X Y Z (v.toNatClampNeg • basePoint + (s.big r).toNat • H) := by
  obtain ⟨⟨G_ret, G_local, ret_h, ret_tp, ret_local, h_tp, h_local, tp_local⟩,
    ⟨value_G, value_h, value_local, r_ret, r_local⟩,
    r_value⟩ := commits.apart
  have in_range := value_below v
  obtain ⟨s₁, store⟩ : ∃ s₁, s₁ = s.putBig value ⟨v.toInt64.toUInt64, 0, 0, 0⟩ := ⟨_, rfl⟩
  have untouched {i : ℕ} (outside : i < value ∨ value + 4 ≤ i) : s₁ i = s i := by
    rw [store, putBig_of_outside s value _ outside]
  -- the multiple of the base point
  have scalar : (s₁.big value).toNat = v.toNatClampNeg := by
    rw [store, big_putBig, toNat_value commits.nonneg]
  have base : (s₁.jpoint G).Represents basePoint := by
    rw [Aside] at value_G
    rw [jpoint_congr fun i _ _ => untouched (by omega), commits.base]
    exact represents_pG_mon
  obtain ⟨s₂, first, multiple⟩ := dh_point_mult_finalversion_other addOrderOf_basePoint base (scalar ▸ positive)
    (scalar ▸ in_range) G_local ret_local.symm value_local (by rw [Separate] at G_ret; omega)
  rw [scalar] at multiple
  -- the multiple of the other point
  have point : (s₂.jpoint h).Represents H := by
    rw [multiple.jpoint ret_h.symm h_local]
    rw [Aside] at value_h
    rw [jpoint_congr fun i _ _ => untouched (by omega)]
    exact commits.point
  have blinding : s₂.big r = s.big r := by
    rw [Aside] at r_ret r_local
    rw [Apart] at r_value
    exact big_congr fun i _ _ => (multiple.frame i (by omega) (by omega)).trans (untouched (by omega))
  obtain ⟨s₃, second, other⟩ := dh_point_mult_finalversion_other commits.order point (blinding ▸ commits.positive)
    (blinding ▸ commits.below) h_local tp_local.symm r_local (by rw [Separate] at h_tp; omega)
  rw [blinding] at other
  -- the sum
  have kept : (s₃.jpoint ret).Represents (v.toNatClampNeg • basePoint) := by
    rw [other.jpoint ret_tp ret_local]
    exact multiple.point
  have finite := nsmul_ne_zero_of_lt addOrderOf_basePoint positive in_range
  have finite' := nsmul_ne_zero_of_lt commits.order commits.positive commits.below
  have sum := kept.add_of_ne other.point finite finite' commits.distinct commits.unopposed
  rw [← jpoint_dh_ellipticAdd_JJ s₃ (.inl rfl) (.inr ret_tp.symm)] at sum
  have proper : v.toNatClampNeg • basePoint + (s.big r).toNat • H ≠ 0 := fun zero =>
    commits.unopposed (eq_neg_of_add_eq_zero_left zero)
  obtain ⟨X, Y, Z, residues, holds⟩ := sum.residues proper
  have same := first dh_ellipticAdd_JJ agrees_dh_ellipticAdd_JJ
  have same' := second dh_ellipticAdd_JJ agrees_dh_ellipticAdd_JJ
  rw [store] at same
  refine ⟨(s₃.dh_ellipticAdd_JJ ret tp ret).d_mon2normal_J ret, ?_, X, Y, Z, d_mon2normal_J_spec residues, holds⟩
  rw [commitG1, dh_point_mult_finalversion, same]
  simp only [Option.bind_eq_bind, Option.bind_some, same']
  rfl

/-- The multiplication by the words of zero reads in front of them, and so does the commitment. -/
private theorem commitG1_zero (s : Ram) (G value tp local_tp ret r h : ℕ) :
    commitG1 G value tp local_tp s ret 0 r h = none := by
  have none_leads : leadingWord ⟨0, 0, 0, 0⟩ = none := by decide
  have words : (s.putBig value ⟨0, 0, 0, 0⟩).big value = ⟨0, 0, 0, 0⟩ := big_putBig s value _
  have read : dh_point_mult_finalversion local_tp (s.putBig value ⟨0, 0, 0, 0⟩) G value ret = none := by
    rw [dh_point_mult_finalversion, point_mult_finalversion, words, none_leads]
    rfl
  rw [commitG1, show (0 : Int32).toInt64.toUInt64 = 0 from rfl, read]
  rfl

/-- A commitment reads its own words only and stores plain coordinates of the sum exactly for the values other than zero. -/
theorem commitG1_iff (commits : Commits s G value tp local_tp ret v r h H) :
    (∃ m', commitG1 G value tp local_tp s ret v r h = some m' ∧ ∃ X Y Z, (m'.jpoint ret).PlainResidues X Y Z ∧
      Jacobian.Holds X Y Z (v.toNatClampNeg • basePoint + (s.big r).toNat • H)) ↔ v ≠ 0 := by
  constructor
  · rintro ⟨m', ends, -⟩ rfl
    rw [commitG1_zero] at ends
    exact absurd ends (Option.some_ne_none m').symm
  · intro nonzero
    refine commitG1_stores commits (Nat.pos_of_ne_zero fun zero => nonzero ?_)
    have nonneg := Int32.le_iff_toInt_le.mp commits.nonneg
    have word : v.toNatClampNeg = v.toInt.toNat := rfl
    apply Int32.toInt_inj.mp
    rw [Int32.toInt_zero] at nonneg ⊢
    omega

/-- The base point at addresses 0 and 24 and the blinding at address 76. -/
def baseAgain (blinding : UInt64) : Ram := fun i =>
  if i < 12 then [0xd7362e5a487e2097, 0x231e295329bc66db, 0x979f48c033fd129c, 0x9981e643e9089f48, 0xb15ea6d2d3dbabe2,
    0x8dfc5d5d1f1dc64d, 0x70b6b59aac19c136, 0xcf3f851fd4a582d6, 0x1000003d1, 0, 0, 0].getD i 0
  else if 24 ≤ i ∧ i < 36 then [0xd7362e5a487e2097, 0x231e295329bc66db, 0x979f48c033fd129c, 0x9981e643e9089f48,
    0xb15ea6d2d3dbabe2, 0x8dfc5d5d1f1dc64d, 0x70b6b59aac19c136, 0xcf3f851fd4a582d6, 0x1000003d1, 0, 0, 0].getD (i - 24) 0
  else if i = 76 then blinding else 0

private theorem baseAgain_commits {v : Int32} {blinding : UInt64} (nonneg : 0 ≤ v)
    (less : v.toNatClampNeg < blinding.toNat) : Commits (baseAgain blinding) 0 72 36 48 12 v 76 24 basePoint := by
  have words : (baseAgain blinding).big 76 = ⟨blinding, 0, 0, 0⟩ := rfl
  have scalar : ((baseAgain blinding).big 76).toNat = blinding.toNat := by
    simp only [words, Big.toNat, UInt64.toNat_zero, Nat.mul_zero, Nat.add_zero]
  have order := modN_toNat
  have word := blinding.toNat_lt
  refine ⟨rfl, nonneg, ?_, ?_, addOrderOf_basePoint, represents_pG_mon, ?_, ?_, by decide⟩
  · rw [scalar]
    omega
  · rw [scalar]
    omega
  · rw [scalar]
    exact nsmul_ne_nsmul addOrderOf_basePoint less (by omega)
  · rw [scalar]
    exact nsmul_ne_neg_nsmul addOrderOf_basePoint (by omega) (by omega)

theorem commitG1_iff_one :
    (∃ m', commitG1 0 72 36 48 (baseAgain 2) 12 1 76 24 = some m' ∧ ∃ X Y Z, (m'.jpoint 12).PlainResidues X Y Z ∧
      Jacobian.Holds X Y Z ((1 : Int32).toNatClampNeg • basePoint + ((baseAgain 2).big 76).toNat • basePoint)) ↔
        (1 : Int32) ≠ 0 :=
  commitG1_iff (baseAgain_commits (by decide) (by decide))

/-- The value zero with the blinding one. -/
theorem commitG1_zero_reads_outside : commitG1 0 72 36 48 (baseAgain 1) 12 0 76 24 = none ∧
    ¬∀ (s : Ram) (G value tp local_tp ret r h : ℕ) (v : Int32) (H : curve.Point),
      Commits s G value tp local_tp ret v r h H → ∃ m', commitG1 G value tp local_tp s ret v r h = some m' ∧
        ∃ X Y Z, (m'.jpoint ret).PlainResidues X Y Z ∧
          Jacobian.Holds X Y Z (v.toNatClampNeg • basePoint + (s.big r).toNat • H) := by
  have ends := commitG1_zero (baseAgain 1) 0 72 36 48 12 76 24
  refine ⟨ends, fun claim => ?_⟩
  obtain ⟨m', body, -⟩ := claim (baseAgain 1) 0 72 36 48 12 76 24 0 basePoint
    (baseAgain_commits (by decide) (by decide))
  rw [ends] at body
  exact absurd body (Option.some_ne_none m').symm

end Ram

end DbcSnark.Gpuec
