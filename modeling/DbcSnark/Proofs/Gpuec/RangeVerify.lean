import DbcSnark.Model.Gpuec.RangeVerify
import DbcSnark.Proofs.Gpuec.BasePoint
import DbcSnark.Proofs.Gpuec.RangeProof

/-! # Completeness of a range proof

The verifier's kernels evaluate both sides of the equations 65 to 68. On an honest proof the sides are the same element of
the group, by the identities on the vectors of polynomials.
-/

namespace DbcSnark.Gpuec

open Modulus (Mont Plain)

namespace RangeVerify

open RangeArgument RangeProof

variable {J : Type} {A : Type*} [AddCommGroup A] [Module modN.Residue A] {ops : JpointOps J} {mon plain : J → A → Prop}
  {G H : A} {x y z : modN.Residue} {xyz : ℕ → Big} {prove : BPProve J}

private theorem mont_R2modN' (v : Big) : modN.Mont (dh_mybig_monmult_64_modN v dc_R2modN) v.toNat := mont_R2modN v

/-! ## Equation 65 -/

theorem kernel_commitG1_spec (points : ops.Interprets mon plain G) {res : ℕ → J} {param : ℕ → BPSetupParams J}
    {proves : ℕ → BPProve J} {N idx : ℕ} {taux tprime : modN.Residue} (inside : idx < N) (blind : mon (param idx).H H)
    (Taux : modN.Plain (proves idx).Taux taux) (Tprime : modN.Plain (proves idx).Tprime tprime) :
    mon (kernel_commitG1 ops res param proves N idx) (taux • H + tprime • G) := by
  rw [kernel_commitG1, Lanes.store_first inside, ← nsmul_plain Taux, ← nsmul_plain Tprime]
  exact points.add (points.mult _ blind) (points.base_mul _)

private theorem mersenne_residue : ((Big.mk 0xffffffff 0 0 0).toNat : modN.Residue) = 2 ^ 32 - 1 := by
  have value : (Big.mk 0xffffffff 0 0 0).toNat + 1 = 2 ^ 32 := by decide
  have cast := congrArg (Nat.cast : ℕ → modN.Residue) value
  push_cast at cast
  exact eq_sub_of_add_eq cast

/-- The four factors: the first three in Montgomery form, `delta` as a plain number. -/
private theorem rhs65Numbers_spec (challenges : Challenges xyz x y z) {inv : modN.Residue} (inverse : modN.Mont (xyz 3) inv)
    (unit : inv * (y - 1) = 1) :
    ∃ z2 x₁ x2 delta₁, rhs65Numbers xyz 32 = some (laneNumbers z2 x₁ x2 delta₁) ∧ modN.Mont z2 (z ^ 2) ∧
      modN.Mont x₁ x ∧ modN.Mont x2 (x ^ 2) ∧ modN.Plain delta₁ (delta 32 y z) := by
  obtain ⟨yn, raised, power⟩ := Ram.mont_ONE_modN.modexp_ui32 challenges.y (.ofNat 32)
  rw [show (UInt32.ofNat 32).toNat = 32 from rfl] at power
  unfold rhs65Numbers
  extract_lets z₁ y₁ x₁ curk z3 z₂ t1 t1' y₂ z3' x2
  rw [raised, Option.bind_eq_bind, Option.bind_some]
  extract_lets yn₁ yn₂ yn₃ yn₄ delta₁
  have square : modN.Mont curk (z * z) := challenges.z.mul challenges.z
  have difference : modN.Mont z₂ (z - z * z) := challenges.z.sub square
  have cube : modN.Mont z3' (z * (z * z) * t1.toNat) := (challenges.z.mul square).mul (mont_R2modN' t1)
  have unity : modN.Mont yn₁ (y ^ 32 - 1) := power.sub Ram.mont_ONE_modN
  have quotient : modN.Mont yn₃ ((y ^ 32 - 1) * inv * (z - z * z)) := (unity.mul inverse).mul difference
  have mersenne : (t1.toNat : modN.Residue) = 2 ^ 32 - 1 := mersenne_residue
  have closed : modN.Plain delta₁ (delta 32 y z) := by
    rw [delta_eq z unit, show z ^ 2 = z * z from sq z, show z ^ 3 = z * (z * z) by ring, ← mersenne]
    exact (quotient.sub cube).toPlain
  rw [sq, sq]
  exact ⟨_, _, _, _, rfl, square, challenges.x, challenges.x.mul challenges.x, closed⟩

/-- The four lanes of a block add up the right side of the equation. -/
theorem rhs65Block_spec (points : ops.Interprets mon plain G) {param : BPSetupParams J} {V T1 T2 : A} (size : param.N = 32)
    (challenges : Challenges xyz x y z) {inv : modN.Residue} (inverse : modN.Mont (xyz 3) inv) (unit : inv * (y - 1) = 1)
    (V_point : mon prove.V V) (T1_point : mon prove.T1 T1) (T2_point : mon prove.T2 T2) (sh : ℕ → J) :
    ∃ R, rhs65Block ops xyz prove param sh = some R ∧ mon R (z ^ 2 • V + x • T1 + (x ^ 2 • T2 + delta 32 y z • G)) := by
  obtain ⟨z2, x₁, x2, delta₁, ends, square, linear, quadratic, closed⟩ := rhs65Numbers_spec challenges inverse unit
  obtain ⟨lanes, start⟩ : ∃ lanes : ℕ → J, lanes = Lanes.store 4 0 (fun tx =>
      if tx = 3 then ops.d_base_point_mul (laneNumbers z2 x₁ x2 delta₁ 3)
      else ops.dh_point_mult_finalversion (fromV prove tx)
        (dh_mybig_monmult_64_modN (laneNumbers z2 x₁ x2 delta₁ tx) dc_ONE)) sh := ⟨_, rfl⟩
  have last : mon (ops.d_base_point_mul delta₁) (delta 32 y z • G) := by
    rw [← nsmul_plain closed]
    exact points.base_mul delta₁
  have values : ∀ tx < 4, mon (lanes tx) (if tx = 0 then z ^ 2 • V else if tx = 1 then x • T1
      else if tx = 2 then x ^ 2 • T2 else delta 32 y z • G) := by
    intro tx inside
    rw [start, Lanes.store_first inside]
    interval_cases tx
    · exact points.mult_mont V_point square
    · exact points.mult_mont T1_point linear
    · exact points.mult_mont T2_point quadratic
    · exact last
  have sums : ∀ p q P Q, mon p P → mon q Q → mon (ops.dh_ellipticAdd_JJ p q) (P + Q) :=
    fun _ _ _ _ left right => points.add left right
  have tree := Reduction.foldl_merge sums 2 lanes _ values
  have four : ∑ tx ∈ Finset.range (2 ^ 2), (if tx = 0 then z ^ 2 • V else if tx = 1 then x • T1
      else if tx = 2 then x ^ 2 • T2 else delta 32 y z • G) = z ^ 2 • V + x • T1 + (x ^ 2 • T2 + delta 32 y z • G) := by
    rw [show 2 ^ 2 = 4 from rfl]
    simp [Finset.sum_range_succ, add_assoc]
  rw [four] at tree
  refine ⟨_, by rw [rhs65Block, size, ends]; rfl, ?_⟩
  rw [← start]
  exact tree

/-- A kernel with a value for each block stores what a block computes. -/
theorem storeM_block {J : Type} {nB idx : ℕ} {val : ℕ → Option J} {res : ℕ → J} {R : J} (inside : idx < nB)
    (all : ∀ bx < nB, ∃ v, val bx = some v) (block : val idx = some R) :
    ∃ out, Lanes.storeM nB 0 val res = some out ∧ out idx = R := by
  have values : ∀ bx < nB, ∃ v, val bx = some v ∧ val bx = some v := fun bx below => by
    obtain ⟨v, value⟩ := all bx below
    exact ⟨v, value, value⟩
  obtain ⟨out, stored, cells, -⟩ := @Lanes.storeM_spec _ nB 0 res val (fun bx v => val bx = some v) values
  refine ⟨out, stored, ?_⟩
  have cell := cells idx inside
  rw [block, Nat.zero_add] at cell
  exact (Option.some.inj cell).symm

theorem rhs65Block_total (xyz : ℕ → Big) (prove : BPProve J) (param : BPSetupParams J) (sh : ℕ → J) :
    ∃ v, rhs65Block ops xyz prove param sh = some v := by
  obtain ⟨yn, raised⟩ := modN.modexp_ui32_total dc_mon_ONE_modN (xyz 1) (.ofNat param.N)
  have numbers : ∃ curk, rhs65Numbers xyz param.N = some curk := by
    rw [rhs65Numbers, raised]
    exact ⟨_, rfl⟩
  obtain ⟨curk, ends⟩ := numbers
  rw [rhs65Block, ends]
  exact ⟨_, rfl⟩



/-- The challenges of the proof `idx` of a batch, with the inverse of `y - 1`. -/
structure BatchChallenges (d_xyz : ℕ → Big) (idx : ℕ) (x y z : modN.Residue) : Prop where
  challenges : Challenges (fun i => d_xyz (idx * 4 + i)) x y z
  inverse : modN.Mont (d_xyz (idx * 4 + 3)) (y - 1)⁻¹

section Completeness

variable {setup : BPSetupParams J} {g g' : ℕ → A} {rand : InitParamR} {rounds m : ℕ} {VLR : ℕ → Big}
  {params : ℕ → BPSetupParams J}
  {proves : ℕ → BPProve J} {d_xyz : ℕ → Big} {idx nB : ℕ}

/-- The points of a proof that has been taken into Montgomery form. -/
theorem received (points : ops.Interprets mon plain G) (honest : Honest plain G H g g' rand rounds m x y z prove VLR) :
    Honest mon G H g g' rand rounds m x y z (BPProve_to_mon ops prove) VLR where
  V := points.to_mon honest.V
  A := points.to_mon honest.A
  S := points.to_mon honest.S
  T1 := points.to_mon honest.T1
  T2 := points.to_mon honest.T2
  Taux := honest.Taux
  Mu := honest.Mu
  Tprime := honest.Tprime
  lefts := honest.lefts
  rights := honest.rights

/-- Both sides of the equation 65 stand for the same element. -/
theorem equation65 (points : ops.Interprets mon plain G) (blind : mon (params idx).H H) (small : m < 2 ^ 31)
    (generic : y ≠ 1) (honest : Honest mon G H g g' rand rounds m x y z (proves idx) VLR)
    (challenges : BatchChallenges d_xyz idx x y z) (inside : idx < nB) (size : (params idx).N = 32) (res res' : ℕ → J)
    (sh : ℕ → ℕ → J) :
    ∃ out X, kernel_rhs65 ops res' d_xyz proves params nB sh = some out ∧ mon (out idx) X ∧
      mon (kernel_commitG1 ops res params proves nB idx) X := by
  have unit : (y - 1)⁻¹ * (y - 1) = 1 := inv_mul_cancel₀ (sub_ne_zero.mpr generic)
  obtain ⟨R, block, right⟩ := rhs65Block_spec points size challenges.challenges challenges.inverse unit honest.V honest.T1
    honest.T2 (sh idx)
  obtain ⟨out, stored, cell⟩ := @storeM_block _ _ _ _ res' _ inside
    (fun bx _ => rhs65Block_total (fun i => d_xyz (bx * 4 + i)) (proves bx) (params bx) (sh bx)) block
  refine ⟨out, _, stored, cell ▸ right, ?_⟩
  convert kernel_commitG1_spec points inside blind honest.Taux honest.Tprime using 1
  have value : ∑ i ∈ Finset.range 32, bitsL m i * 2 ^ i = m := sum_bits_residue (by omega)
  rw [(bitsL_spec m 32).inner_product, value]
  module

end Completeness

/-- A point, if there is one, is the given element. There is none once an addition was incomplete or a scalar zero. -/
def Settles {A : Type*} (p : Option A) (a : A) : Prop := ∀ b, p = some b → b = a

private theorem settles_getD {A : Type*} (p : Option A) (a : A) : Settles p (p.getD a) := by
  rintro b rfl
  rfl

/-- Where no addition is incomplete and no scalar zero, the verifier's kernels find the same point on both sides of the
equation 65 for the proof of any number, whatever the randomness, the challenges and the pace of the warps. -/
theorem range_polynomial_check {A : Type} [AddCommGroup A] (order : Nat.card A = modN.Pa.toNat) {G : A}
    {ops : JpointOps (Option A)} (points : ops.Interprets Settles Settles G) (setup : BPSetupParams (Option A))
    (rand : InitParamR) {v : ℤ} (nonnegative : 0 ≤ v) (int : v < 2 ^ 31) {x y z : modN.Residue} (generic : y ≠ 1)
    {xyz : ℕ → Big} (challenges : Challenges xyz x y z) (pace : Warps.Order 2 6) (old : Garbage (Option A)) :
    ∃ prove VLR, RangeProof.main ops pace setup rand v xyz old = some (prove, VLR) ∧
      ∀ (params : ℕ → BPSetupParams (Option A)) (proves : ℕ → BPProve (Option A)) (d_xyz : ℕ → Big) (idx nB : ℕ)
        (res res' : ℕ → Option A) (sh : ℕ → ℕ → Option A), idx < nB → (params idx).N = 32 → (params idx).H = setup.H →
        proves idx = BPProve_to_mon ops prove → BatchChallenges d_xyz idx x y z →
          ∃ out, kernel_rhs65 ops res' d_xyz proves params nB sh = some out ∧
            ∀ L R, kernel_commitG1 ops res params proves nB idx = some L → out idx = some R → L = R := by
  obtain ⟨m, rfl⟩ := Int.eq_ofNat_of_zero_le nonnegative
  let _ : Module modN.Residue A := AddCommGroup.zmodModule fun a => by
    rw [← order]
    exact card_nsmul_eq_zero'
  have small : m < 2 ^ 31 := by omega
  have generators : Setup Settles setup (setup.H.getD 0) (fun i => (setup.Gg i).getD 0) (fun i => (setup.Hh i).getD 0) :=
    ⟨settles_getD _ _, fun i _ => settles_getD _ _, fun i _ => settles_getD _ _⟩
  obtain ⟨prove, VLR, made, honest⟩ := main_spec points generators small challenges pace old
  refine ⟨prove, VLR, made, fun params proves d_xyz idx nB res res' sh inside size same sent batch => ?_⟩
  have blind : Settles (params idx).H (setup.H.getD 0) := by
    rw [same]
    exact settles_getD _ _
  have taken := received points honest
  rw [← sent] at taken
  obtain ⟨out, X, ends, right, left⟩ := equation65 points blind small generic taken batch inside size res res' sh
  refine ⟨out, ends, fun L R first second => ?_⟩
  exact (left L first).trans (right R second).symm

/-- The operations of the residues, with a value for every addition and every scalar. -/
def residueOps : JpointOps (Option modN.Residue) where
  pG_mon := some 1
  dh_ellipticAdd_JJ p q := do return (← p) + (← q)
  dh_point_mult_finalversion p k := p.map (k.toNat • ·)
  d_base_point_mul k := some (k.toNat • 1)
  cal_minus_Jpoint p := p.map (-·)
  jpoint_to_mon := id
  jpoint_from_mon := id
  Jpoint2Apoint := id
  device_hashBP _ _ := (0, 0)

private theorem residueOps_settles : residueOps.Interprets Settles Settles 1 := by
  refine ⟨?_, ?_, ?_, ?_, ?_, fun point => point, fun point => point⟩
  all_goals simp only [residueOps, Settles]
  · simp
  · rintro (_ | p) (_ | q) a b left right c sum
    all_goals simp_all
  · rintro (_ | p) a k point c
    all_goals simp_all
  · simp
  · rintro (_ | p) a point c
    all_goals simp_all

private theorem residueOps_some : residueOps.Interprets (fun p a => p = some a) (fun p a => p = some a) 1 := by
  refine ⟨rfl, ?_, ?_, fun _ => rfl, ?_, fun point => point, fun point => point⟩
  · rintro _ _ a b rfl rfl
    rfl
  · rintro _ a k rfl
    rfl
  · rintro _ a rfl
    rfl

private def unitSetup : BPSetupParams (Option modN.Residue) :=
  ⟨some 1, some 1, 32, fun _ => some 1, fun _ => some 1, 0, 0, some 1, some 1⟩

/-- Both warps take each round together. -/
def inStep : Warps.Order 2 6 := .inStep 2 6

def unitRandom : InitParamR := ⟨dc_ONE, dc_ONE, dc_ONE, dc_ONE, dc_ONE, fun _ => dc_ONE, fun _ => dc_ONE⟩

/-- The challenges `1`, `2` and `1`, and the inverse of `2 - 1`. -/
def unitXyz (i : ℕ) : Big := if i = 1 then dc_mon_TWO_modN else dc_mon_ONE_modN

private def unitGarbage : Garbage (Option modN.Residue) :=
  ⟨fun _ => 0, fun _ => 0, fun _ => 0, fun _ => 0, fun _ => 0, fun _ => none⟩

theorem unitXyz_challenges : Challenges unitXyz 1 2 1 := ⟨Ram.mont_ONE_modN, mont_TWO_modN, Ram.mont_ONE_modN⟩

private theorem unitXyz_batch : BatchChallenges unitXyz 0 1 2 1 := by
  refine ⟨⟨Ram.mont_ONE_modN, mont_TWO_modN, Ram.mont_ONE_modN⟩, ?_⟩
  rw [show (2 - 1 : modN.Residue) = 1 by norm_num, inv_one]
  exact Ram.mont_ONE_modN

private theorem two_ne_one : (2 : modN.Residue) ≠ 1 := by
  intro same
  have zero : (1 : modN.Residue) = 0 := by linear_combination same
  exact one_ne_zero zero

theorem range_polynomial_check_one : ∃ prove VLR out L,
    RangeProof.main residueOps inStep unitSetup unitRandom 1 unitXyz unitGarbage = some (prove, VLR) ∧
      kernel_rhs65 residueOps (fun _ => none) unitXyz (fun _ => BPProve_to_mon residueOps prove) (fun _ => unitSetup) 1
        (fun _ _ => none) = some out ∧
      kernel_commitG1 residueOps (fun _ => none) (fun _ => unitSetup) (fun _ => BPProve_to_mon residueOps prove) 1 0 =
        some L ∧
      out 0 = some L := by
  obtain ⟨prove, VLR, made, check⟩ := range_polynomial_check (Nat.card_zmod _) residueOps_settles unitSetup unitRandom
    zero_le_one (by norm_num) two_ne_one unitXyz_challenges inStep unitGarbage
  obtain ⟨out, ends, agree⟩ := check (fun _ => unitSetup) (fun _ => BPProve_to_mon residueOps prove) unitXyz 0 1
    (fun _ => none) (fun _ => none) (fun _ _ => none) one_pos rfl rfl rfl unitXyz_batch
  have generators : Setup (fun p a => p = some a) unitSetup 1 (fun _ => 1) (fun _ => 1) :=
    ⟨rfl, fun _ _ => rfl, fun _ _ => rfl⟩
  have small : 1 < 2 ^ 31 := by norm_num
  obtain ⟨prove', VLR', made', honest⟩ := @main_spec _ _ _ _ _ _ _ _ _ _ _ _ _ _ _ unitRandom _ _ residueOps_some generators
    small unitXyz_challenges inStep unitGarbage
  rw [Nat.cast_one, made] at made'
  obtain ⟨rfl, rfl⟩ := Prod.mk.inj (Option.some.inj made')
  have taken := received residueOps_some honest
  obtain ⟨out', X, ends', right, left⟩ := @equation65 _ _ _ _ residueOps (fun p a => p = some a) _ _ _ _ _ _ _ _ _ _ _ _
    (fun _ => unitSetup) (fun _ => BPProve_to_mon residueOps prove) unitXyz 0 1 residueOps_some rfl small two_ne_one taken
    unitXyz_batch one_pos rfl (fun _ => none) (fun _ => none) (fun _ _ => none)
  rw [ends] at ends'
  obtain rfl := Option.some.inj ends'
  obtain ⟨R, right⟩ : ∃ R, out 0 = some R := ⟨X, right⟩
  obtain rfl := agree X R left right
  exact ⟨prove, VLR, out, X, made, ends, left, right⟩

end RangeVerify

end DbcSnark.Gpuec
