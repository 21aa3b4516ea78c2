import DbcSnark.Model.Gpuec.RangeSystem
import DbcSnark.Proofs.Gpuec.VectorCommit
import DbcSnark.ToMathlib.RangeSoundness

/-! # The verifier as a whole

The results of `main` for a position of the batch are the sides of the equations that a range argument is checked by, for
the challenges hashed from the points at this position, whatever stands at the others.
-/

namespace DbcSnark.Gpuec

open Modulus (Mont Plain)

namespace RangeVerify

open RangeArgument RangeProof

variable {J : Type} {ops : JpointOps J} {batch : Batch J} {N_DATA : ℕ}

/-! ## The challenges -/

/-- The number that `y` is hashed to. -/
def hashedY (ops : JpointOps J) (prove : BPProve J) : Big := (ops.device_hashBP prove.A prove.S).1

/-- The number that `z` is hashed to. -/
def hashedZ (ops : JpointOps J) (prove : BPProve J) : Big := (ops.device_hashBP prove.A prove.S).2

/-- The number that `x` is hashed to. -/
def hashedX (ops : JpointOps J) (prove : BPProve J) : Big := (ops.device_hashBP prove.T1 prove.T2).1

/-- The hash is a number that `y` and `y - 1` can be inverted for. -/
structure Usable (y : Big) : Prop where
  large : 1 < y.toNat
  small : y.toNat < modN.Pa.toNat

theorem Usable.ne_zero {y : Big} (usable : Usable y) : (y.toNat : modN.Residue) ≠ 0 := by
  rw [Ne, ZMod.natCast_eq_zero_iff]
  exact Nat.not_dvd_of_pos_of_lt (by have := usable.large; omega) usable.small

theorem Usable.ne_one {y : Big} (usable : Usable y) : (y.toNat : modN.Residue) ≠ 1 := by
  have large := usable.large
  have small := usable.small
  intro same
  have cast : ((y.toNat : ℕ) : modN.Residue) = (1 : ℕ) := by rw [same, Nat.cast_one]
  rw [ZMod.natCast_eq_natCast_iff', Nat.mod_eq_of_lt small, Nat.mod_eq_of_lt (by omega)] at cast
  omega

private theorem plain_modsub_one {M : Modulus} {y : Big} (small : y.toNat < M.Pa.toNat) :
    M.Plain (M.modsub_ui32 y 1) ((y.toNat : M.Residue) - 1) := by
  have value := M.toNat_modsub_ui32 small 1
  rw [show (1 : UInt32).toNat = 1 from rfl] at value
  refine ⟨?_, ?_⟩
  · rw [value]
    exact Nat.mod_lt _ M.positive
  · rw [value, ZMod.natCast_mod, Nat.cast_add, Nat.cast_sub M.positive, ZMod.natCast_self, Nat.cast_one, zero_sub,
      ← sub_eq_add_neg]

private theorem hashXyz_spec {prove : BPProve J} (usable : Usable (hashedY ops prove)) :
    ∃ inv, hashXyz ops prove = some (laneNumbers (hashedX ops prove) (hashedY ops prove) (hashedZ ops prove) inv) ∧
      modN.Mont inv ((hashedY ops prove).toNat - 1)⁻¹ := by
  obtain ⟨inv, found, form⟩ := (plain_modsub_one usable.small).moninv (sub_ne_zero.mpr usable.ne_one)
  refine ⟨inv, ?_, form⟩
  have same : dh_mybig_moninv_modN (dh_mybig_modsub_64_ui32_modN (ops.device_hashBP prove.A prove.S).1 1) = some inv := found
  rw [hashXyz, same]
  rfl

/-- The challenges of the position `idx` as `xyz_to_monN` leaves them. -/
private theorem hashAll_spec (usable : ∀ idx < N_DATA, Usable (hashedY ops (batch.h_prove idx))) (h_xyz : ℕ → Big) :
    ∃ xyz, hashAll ops batch.h_prove N_DATA h_xyz = some xyz ∧ ∀ idx < N_DATA,
      BatchChallenges (xyz_to_monN N_DATA xyz) idx (hashedX ops (batch.h_prove idx)).toNat
        (hashedY ops (batch.h_prove idx)).toNat (hashedZ ops (batch.h_prove idx)).toNat := by
  obtain ⟨xyz, hashed, blocks⟩ := @Lanes.foldlM_store_spec _ N_DATA h_xyz 4 (fun i => hashXyz ops (batch.h_prove i))
    (fun i cur => ∃ inv, cur = laneNumbers (hashedX ops (batch.h_prove i)) (hashedY ops (batch.h_prove i))
      (hashedZ ops (batch.h_prove i)) inv ∧ modN.Mont inv ((hashedY ops (batch.h_prove i)).toNat - 1)⁻¹)
    fun i inside => by
      obtain ⟨inv, value, form⟩ := hashXyz_spec (usable i inside)
      exact ⟨_, value, inv, rfl, form⟩
  refine ⟨xyz, hashed, fun idx inside => ?_⟩
  obtain ⟨cur, ⟨inv, rfl, form⟩, cells⟩ := blocks idx inside
  have cell {k : ℕ} (below : k < 4) : xyz_to_monN N_DATA xyz (idx * 4 + k) = if k < 3
      then dh_mybig_monmult_64_modN (xyz (idx * 4 + k)) h_R2modN else xyz (idx * 4 + k) :=
    have sizes : ∀ i < N_DATA, (fun _ => 3) i ≤ 4 := fun _ _ => Nat.le_succ 3
    Lanes.foldl_store_block (f := fun v => dh_mybig_monmult_64_modN v h_R2modN) sizes inside below
  refine ⟨⟨?_, ?_, ?_⟩, ?_⟩
  · rw [cell (by decide), if_pos (by decide), cells 0 (by decide)]
    exact mont_R2modN _
  · rw [cell (by decide), if_pos (by decide), cells 1 (by decide)]
    exact mont_R2modN _
  · rw [cell (by decide), if_pos (by decide), cells 2 (by decide)]
    exact mont_R2modN _
  · rw [cell (by decide), if_neg (by decide), cells 3 (by decide)]
    exact form

end RangeVerify

/-! ## The prover -/

namespace RangeProof

open RangeArgument RangeVerify

variable {J : Type} {ops : JpointOps J} {xyz al ar sl sr tau12 z22nyn sh_ip : ℕ → Big} {h : J} {t : CalT12 J}

private theorem kernel_cal_t12_xyz (ends : kernel_cal_t12 ops h xyz al ar sl sr tau12 z22nyn sh_ip = some t) :
    t.xyz = Function.update xyz 0 (dh_mybig_monmult_64_modN
      (ops.device_hashBP (ops.Jpoint2Apoint t.T1) (ops.Jpoint2Apoint t.T2)).1 dc_R2modN) := by
  unfold kernel_cal_t12 at ends
  extract_lets at ends
  obtain ⟨sh₂, -, rest⟩ := Option.bind_eq_some_iff.mp ends
  extract_lets at rest
  obtain ⟨sh₈, -, rest'⟩ := Option.bind_eq_some_iff.mp rest
  extract_lets at rest'
  obtain rfl := Option.some.inj rest'
  rfl

/-- The kernel hashes the points that the program sends. -/
private theorem gpu_cal_S_xyz (ops : JpointOps J) (order : Warps.Order 2 6) (params : BPSetupParams J) (rand : InitParamR)
    (xyz : ℕ → Big) (A : J) (tp : ℕ → J) :
    let S_xyz := gpu_cal_S ops order params rand xyz A tp
    modN.Mont (S_xyz.2 1) (ops.device_hashBP (ops.Jpoint2Apoint A) (ops.Jpoint2Apoint S_xyz.1)).1.toNat ∧
      modN.Mont (S_xyz.2 2) (ops.device_hashBP (ops.Jpoint2Apoint A) (ops.Jpoint2Apoint S_xyz.1)).2.toNat := by
  unfold gpu_cal_S kernel_cal_S
  extract_lets tp₁ tp₂ tp₃ tp₄ tp₅ S tp₆ tp₇ yz xyz₁ S_xyz
  have second : tp₇ 0 = ops.Jpoint2Apoint S := (Function.update_of_ne (by decide) _ _).trans (Function.update_self ..)
  have first : tp₇ 1 = ops.Jpoint2Apoint A := Function.update_self ..
  have hashed : yz = ops.device_hashBP (ops.Jpoint2Apoint A) (ops.Jpoint2Apoint S) := by
    rw [← first, ← second]
  have cells : S_xyz.2 = Function.update xyz₁ 2 (dh_mybig_monmult_64_modN yz.2 dc_R2modN) := rfl
  have y_cell : xyz₁ 1 = dh_mybig_monmult_64_modN yz.1 dc_R2modN := Function.update_self ..
  rw [cells, Function.update_of_ne (by decide), Function.update_self, y_cell, hashed]
  exact ⟨mont_R2modN _, mont_R2modN _⟩

/-- The lower bits of a number are those of its remainder. -/
private theorem bitOf_emod (v : ℤ) {i : ℕ} (inside : i < 32) : bitOf v i = bitOf ((v % 2 ^ 32).toNat : ℕ) i := by
  have remainder : ((v % 2 ^ 32).toNat : ℤ) = v % 2 ^ 32 := Int.toNat_of_nonneg (Int.emod_nonneg v (by norm_num))
  have power : (2 : ℤ) ^ 32 = 2 ^ i * 2 ^ (31 - i) * 2 := by
    rw [← pow_add, ← pow_succ]
    congr 1
    omega
  have split : v = v % 2 ^ 32 + 2 ^ i * (2 ^ (31 - i) * 2 * (v / 2 ^ 32)) := by
    have divided := Int.emod_add_mul_ediv v (2 ^ 32)
    linear_combination -divided + v / 2 ^ 32 * power
  have quotient : v / 2 ^ i = v % 2 ^ 32 / 2 ^ i + 2 ^ (31 - i) * (v / 2 ^ 32) * 2 := by
    nth_rewrite 1 [split]
    rw [Int.add_mul_ediv_left _ _ (by positivity)]
    ring
  rw [bitOf, bitOf, Int.shiftRight_eq_div_pow, Int.shiftRight_eq_div_pow, remainder]
  rw [Nat.cast_pow, Nat.cast_ofNat, quotient, Int.add_mul_emod_self_right]

private theorem compute_al_ar_emod (v : ℤ) (al ar : ℕ → Big) :
    compute_al_ar v al ar 32 = compute_al_ar ((v % 2 ^ 32).toNat : ℕ) al ar 32 := by
  rw [compute_al_ar, compute_al_ar]
  refine congrArg₂ Prod.mk (Lanes.store_congr fun i inside => ?_) (Lanes.store_congr fun i inside => ?_)
  · rw [bitOf_emod v inside]
  · rw [bitOf_emod v inside]

section Elements

variable {A : Type*} [AddCommGroup A] [Module modN.Residue A] {mon plain : J → A → Prop} {G H : A} {g g' : ℕ → A}
  {params : BPSetupParams J} {rand : InitParamR}

omit [Module modN.Residue A] in
private theorem trans_to_mon_spec (points : ops.Interprets mon plain G) (setup : Setup plain params H g g') :
    Setup mon (trans_to_mon ops params) H g g' where
  H := points.to_mon setup.H
  Gg i inside := by
    change mon (Lanes.store 32 0 (fun i => ops.jpoint_to_mon (params.Gg i)) params.Gg i) _
    rw [Lanes.store_first inside]
    exact points.to_mon (setup.Gg i inside)
  Hh i inside := by
    change mon (Lanes.store 32 0 (fun i => ops.jpoint_to_mon (params.Hh i)) params.Hh i) _
    rw [Lanes.store_first inside]
    exact points.to_mon (setup.Hh i inside)

/-- Only the lowest word of `value` is set. -/
private theorem commitG1_int (points : ops.Interprets mon plain G) (blind : mon h H) (v : ℤ) (r : Big) :
    plain (commitG1 ops v r h) (((v % 2 ^ 64).toNat : modN.Residue) • G + (r.toNat : modN.Residue) • H) := by
  have value : (Big.mk (.ofInt v) 0 0 0).toNat = (v % 2 ^ 64).toNat := by
    have small : (v % 2 ^ 64).toNat < 2 ^ 64 := by omega
    rw [Big.toNat, UInt64.ofInt, UInt64.toNat_ofNat_of_lt' small]
    simp
  have sum := points.from_mon (points.add (points.mult (Big.mk (.ofInt v) 0 0 0) points.base) (points.mult r blind))
  rw [value] at sum
  rw [Nat.cast_smul_eq_nsmul, Nat.cast_smul_eq_nsmul]
  exact sum

/-- The program makes a proof of the lower 32 bits of the number, for the challenges that the verifier hashes from what is
sent. Only the commitment `V` is to its lower 64 bits. -/
theorem hashedMain_spec (points : ops.Interprets mon plain G) (affine : ∀ p a, plain p a → plain (ops.Jpoint2Apoint p) a)
    (setup : Setup plain params H g g') (order : Warps.Order 2 6) (v : ℤ) (xyz : ℕ → Big) (old : Garbage J) :
    ∃ prove VLR xyz', hashedMain ops order params rand v xyz old = some (prove, VLR, xyz') ∧
      plain prove.V (((v % 2 ^ 64).toNat : modN.Residue) • G + (rand.gamma.toNat : modN.Residue) • H) ∧
      ∀ V, plain V (((v % 2 ^ 32).toNat : modN.Residue) • G + (rand.gamma.toNat : modN.Residue) • H) →
        Honest plain G H g g' rand (roundsRead order) (v % 2 ^ 32).toNat (hashedX ops (sentProve ops prove)).toNat
          (hashedY ops (sentProve ops prove)).toNat (hashedZ ops (sentProve ops prove)).toNat
          { sentProve ops prove with V := V } VLR := by
  have generators := trans_to_mon_spec points setup
  unfold hashedMain
  rw [compute_al_ar_emod]
  extract_lets aLR params' V P S_xyz aLR'
  obtain ⟨al_form, ar_form⟩ := @trans_to_mon_N_spec (v % 2 ^ 32).toNat old.al old.ar
  obtain ⟨y_form, z_form⟩ : modN.Mont (S_xyz.2 1)
        (ops.device_hashBP (ops.Jpoint2Apoint P) (ops.Jpoint2Apoint S_xyz.1)).1.toNat ∧
      modN.Mont (S_xyz.2 2) (ops.device_hashBP (ops.Jpoint2Apoint P) (ops.Jpoint2Apoint S_xyz.1)).2.toNat :=
    gpu_cal_S_xyz ops order _ rand xyz P old.tp
  obtain ⟨t, ends, sl_form, sr_form, twos, powers, T1, T2⟩ := @kernel_cal_t12_spec J A _ _ ops mon plain G
    (ops.device_hashBP (ops.Jpoint2Apoint P) (ops.Jpoint2Apoint S_xyz.1)).1.toNat
    (ops.device_hashBP (ops.Jpoint2Apoint P) (ops.Jpoint2Apoint S_xyz.1)).2.toNat
    (bitsL (v % 2 ^ 32).toNat) (bitsR (v % 2 ^ 32).toNat) (residues rand.SL) (residues rand.SR) S_xyz.2 _ _ rand.SL rand.SR
    rand.tau12 old.z22nyn old.sh_ip params'.H H points generators.H y_form z_form al_form ar_form (fun _ => rfl)
      (fun _ => rfl)
  rw [← Nat.cast_smul_eq_nsmul modN.Residue] at T1 T2
  rw [ends, Option.bind_eq_bind, Option.bind_some]
  extract_lets w
  have hashed := kernel_cal_t12_xyz ends
  have x_form : modN.Mont (t.xyz 0) (ops.device_hashBP (ops.Jpoint2Apoint t.T1) (ops.Jpoint2Apoint t.T2)).1.toNat := by
    rw [hashed, Function.update_self]
    exact mont_R2modN _
  have z_form' : modN.Mont (t.xyz 2) (ops.device_hashBP (ops.Jpoint2Apoint P) (ops.Jpoint2Apoint S_xyz.1)).2.toNat := by
    rw [hashed, Function.update_of_ne (by decide)]
    exact z_form
  obtain ⟨lefts, rights, Tprime, Taux, Mu⟩ : Holds w.VLR 0 _ ∧ Holds w.VLR 32 _ ∧ modN.Plain w.tprime _ ∧
      modN.Plain w.taux _ ∧ modN.Plain w.mu _ :=
    kernel_cal_vlr_spec x_form z_form' al_form ar_form sl_form sr_form twos powers
  clear_value w
  refine ⟨_, _, _, rfl, commitG1_int points generators.H v _, fun V' sent => ?_⟩
  exact ⟨sent, affine _ _ (cal_A_spec points generators), affine _ _ (gpu_cal_S_spec points generators order xyz P old.tp),
    affine _ _ T1, affine _ _ T2, Taux, Mu, Tprime, lefts, rights⟩

end Elements

end RangeProof

namespace RangeVerify

open RangeArgument RangeProof

variable {J : Type} {ops : JpointOps J} {batch : Batch J} {N_DATA : ℕ}

/-! ## The results -/

section Elements

variable {A : Type*} [AddCommGroup A] [Module modN.Residue A] {mon plain : J → A → Prop} {G : A}

/-- The lanes of a block rescale the generators of eight proofs, and there is a lane for every generator. -/
private theorem gpu_updateGen_spec (points : ops.Interprets mon plain G) {params : ℕ → BPSetupParams J} {xyz : ℕ → Big}
    {y : ℕ → modN.Residue} (sizes : ∀ idx < N_DATA, (params idx).N = 32)
    (form : ∀ idx < N_DATA, modN.Mont (xyz (idx * 4 + 1)) (y idx))
    (nonzero : ∀ idx < N_DATA, y idx ≠ 0) (d_hprime : ℕ → J) :
    ∃ hprime, gpu_updateGen ops params xyz N_DATA d_hprime = some hprime ∧ ∀ idx < N_DATA, ∀ i < 32, ∀ a,
      plain ((params idx).Hh i) a → mon (hprime (idx * 32 + i)) ((y idx ^ i)⁻¹ • a) := by
  rcases Nat.eq_zero_or_pos N_DATA with rfl | positive
  · obtain ⟨hprime, stored, -, -⟩ := @Lanes.storeIfM_spec _ (Ram.updateGenBlocks (params 0).N 0 * 256) 0 d_hprime
      (fun c => c / (params 0).N < 0) _ (updateGenLane ops params xyz (params 0).N) (fun _ _ => True)
      fun c _ inside => absurd inside (Nat.not_lt_zero _)
    exact ⟨hprime, stored, fun idx inside => absurd inside (Nat.not_lt_zero idx)⟩
  have enough : N_DATA * 32 ≤ Ram.updateGenBlocks 32 N_DATA * 256 := by
    rw [Ram.updateGenBlocks]
    omega
  obtain ⟨hprime, stored, cells, -⟩ := @Lanes.storeIfM_spec _ (Ram.updateGenBlocks 32 N_DATA * 256) 0 d_hprime
    (fun c => c / 32 < N_DATA) _ (updateGenLane ops params xyz 32)
    (fun c p => ∀ a, plain ((params (c / 32)).Hh (c % 32)) a → mon p ((y (c / 32) ^ (c % 32))⁻¹ • a)) fun c _ inside => by
      obtain ⟨power, raised, powerForm⟩ := Ram.mont_ONE_modN.modexp_ui32 (form (c / 32) inside) (.ofNat (c % 32))
      rw [UInt32.toNat_ofNat_of_lt' (by rw [UInt32.size]; omega)] at powerForm
      obtain ⟨inv, found, scalar⟩ := powerForm.moninv (pow_ne_zero _ (nonzero (c / 32) inside))
      have same : dh_mybig_moninv_modN power = some inv := found
      refine ⟨ops.dh_point_mult_finalversion (ops.jpoint_to_mon ((params (c / 32)).Hh (c % 32))) inv, ?_, fun a point => ?_⟩
      · rw [updateGenLane, raised, Option.bind_eq_bind, Option.bind_some, same]
        rfl
      · rw [← nsmul_plain scalar]
        exact points.mult inv (points.to_mon point)
  refine ⟨hprime, by rw [gpu_updateGen, sizes 0 positive]; exact stored, fun idx inside i below a point => ?_⟩
  have cell := cells (idx * 32 + i) (by omega) (by omega) a
  have quotient : (idx * 32 + i) / 32 = idx := by omega
  have remainder : (idx * 32 + i) % 32 = i := by omega
  rw [quotient, remainder, Nat.zero_add] at cell
  exact cell point

/-- The elements that the points of the batch at the position `idx` stand for. -/
structure Stands (plain : J → A → Prop) (batch : Batch J) (idx : ℕ) (gens : Generators A) (V P Q T1 T2 C : A) : Prop where
  H : plain (batch.h_params idx).H gens.H
  Gg : ∀ i < 32, plain ((batch.h_params idx).Gg i) (gens.g i)
  Hh : ∀ i < 32, plain ((batch.h_params idx).Hh i) (gens.h i)
  V : plain (batch.h_prove idx).V V
  A : plain (batch.h_prove idx).A P
  S : plain (batch.h_prove idx).S Q
  T1 : plain (batch.h_prove idx).T1 T1
  T2 : plain (batch.h_prove idx).T2 T2
  ipcommit : plain (batch.h_ipcommit idx) C

/-- The numbers of the batch at the position `idx`. -/
def answer (batch : Batch J) (idx : ℕ) : Answer modN.Residue where
  taux := (batch.h_prove idx).Taux.toNat
  mu := (batch.h_prove idx).Mu.toNat
  t := (batch.h_prove idx).Tprime.toNat
  l i := (batch.h_bLR (idx * 64 + i)).toNat
  r i := (batch.h_bLR (idx * 64 + (32 + i))).toNat

/-- The results at the position `idx` for elements, challenges and an answer. -/
structure Sides (mon plain : J → A → Prop) (results : Results J) (N_DATA idx : ℕ) (gens : Generators A)
    (x y z : modN.Residue) (answer : Answer modN.Residue) (V P Q T1 T2 C : A) : Prop where
  commitG1 : mon (results.d_tmpJ idx) (answer.taux • gens.H + answer.t • gens.G)
  rhs65 : mon (results.d_tmpJ (N_DATA + idx)) (z ^ 2 • V + x • T1 + (x ^ 2 • T2 + delta 32 y z • gens.G))
  calP : plain (results.d_tmpJ (2 * N_DATA + idx)) (∑ i ∈ Finset.range 32, (-z) • gens.g i +
    ∑ i ∈ Finset.range 32, (z * y ^ i + z ^ 2 * 2 ^ i) • (y ^ i)⁻¹ • gens.h i + P + x • Q)
  calP67 : plain (results.d_tmpJ (3 * N_DATA + idx)) (answer.mu • gens.H + C)
  calip68 : modN.Mont (results.d_bLR (idx * 64)) (∑ i ∈ Finset.range 32, answer.l i * answer.r i)

/-- The vectors of a position in Montgomery form. -/
private theorem blr_to_mon_spec (sizes : ∀ idx < N_DATA, (batch.h_params idx).N = 32) {idx : ℕ} (inside : idx < N_DATA) :
    Holds (fun c => blr_to_mon batch.h_params N_DATA batch.h_bLR (idx * 64 + c)) 0 (answer batch idx).l ∧
      Holds (fun c => blr_to_mon batch.h_params N_DATA batch.h_bLR (idx * 64 + c)) 32 (answer batch idx).r := by
  have cell {k : ℕ} (below : k < 64) : modN.Mont (blr_to_mon batch.h_params N_DATA batch.h_bLR (idx * 64 + k))
      (batch.h_bLR (idx * 64 + k)).toNat := by
    have value := @Lanes.foldl_store_block _ N_DATA batch.h_bLR 64 (fun j => (batch.h_params j).N * 2)
      (fun v => dh_mybig_monmult_64_modN v h_R2modN) (fun i less => by rw [sizes i less]) idx k inside below
    rw [sizes idx inside, if_pos below] at value
    rw [blr_to_mon, value]
    exact mont_R2modN _
  refine ⟨fun i below => ?_, fun i below => ?_⟩
  · rw [Nat.zero_add]
    exact cell (by omega)
  · exact cell (by omega)

omit [AddCommGroup A] [Module modN.Residue A] in
/-- A kernel with a value for each block. -/
private theorem storeM_total {n : ℕ} {val : ℕ → Option J} (all : ∀ bx < n, ∃ v, val bx = some v) (res : ℕ → J) :
    ∃ out, Lanes.storeM n 0 val res = some out ∧ ∀ bx < n, val bx = some (out bx) := by
  obtain ⟨out, stored, cells, -⟩ := @Lanes.storeM_spec _ n 0 res val (fun bx v => val bx = some v) fun bx below => by
    obtain ⟨v, value⟩ := all bx below
    exact ⟨v, value, value⟩
  exact ⟨out, stored, fun bx below => by simpa using cells bx below⟩

/-- Every run of the verifier on usable challenges ends, and its results at a position are the sides of the equations for
what stands there. -/
theorem main_spec (points : ops.Interprets mon plain G) (sizes : ∀ idx < N_DATA, (batch.h_params idx).N = 32)
    (usable : ∀ idx < N_DATA, Usable (hashedY ops (batch.h_prove idx))) (old : Unwritten J) :
    ∃ results, main ops batch N_DATA old = some results ∧ ∀ idx < N_DATA, ∀ gens V P Q T1 T2 C, gens.G = G →
      Stands plain batch idx gens V P Q T1 T2 C →
        Sides mon plain results N_DATA idx gens (hashedX ops (batch.h_prove idx)).toNat
          (hashedY ops (batch.h_prove idx)).toNat (hashedZ ops (batch.h_prove idx)).toNat
            (answer batch idx) V P Q T1 T2 C := by
  obtain ⟨h_xyz, hashed, challenges⟩ := hashAll_spec usable old.h_xyz
  unfold main
  rw [hashed, Option.bind_eq_bind, Option.bind_some]
  extract_lets prove xyz params₀ ipcommit bLR params tmpJ
  have setup {idx : ℕ} (inside : idx < N_DATA) : params idx =
      { param_to_mon ops (batch.h_params idx) with H := ops.jpoint_to_mon (batch.h_params idx).H } := by
    simp only [params, params₀, Lanes.store_first inside]
    rfl
  have taken {idx : ℕ} (inside : idx < N_DATA) : prove idx = BPProve_to_mon ops (batch.h_prove idx) :=
    Lanes.store_first inside
  obtain ⟨hprime, rescaled, generators⟩ := @gpu_updateGen_spec _ ops N_DATA _ _ _ mon plain G points params xyz
    (fun idx => (hashedY ops (batch.h_prove idx)).toNat) (fun idx inside => by rw [setup inside]; exact sizes idx inside)
    (fun idx inside => (challenges idx inside).challenges.y) (fun idx inside => (usable idx inside).ne_zero) old.d_hprime
  rw [rescaled, Option.bind_eq_bind, Option.bind_some]
  obtain ⟨rhs, right, sums⟩ := storeM_total (fun bx _ => rhs65Block_total (fun i => xyz (bx * 4 + i)) (prove bx) (params bx)
    (old.rhs65 bx)) (Lanes.shift N_DATA tmpJ)
  rw [kernel_rhs65, right, Option.bind_some]
  extract_lets tmpJ₁
  obtain ⟨vectors, left, sums'⟩ := storeM_total (fun bx _ => calPBlock_total (params bx) (fun i => xyz (bx * 4 + i))
    (fun i => hprime (bx * 32 + i)) (prove bx) (old.calP bx)) (Lanes.shift (2 * N_DATA) tmpJ₁)
  rw [kernel_calP, left, Option.bind_some]
  extract_lets tmpJ₂ res tmpJ₃
  refine ⟨_, rfl, fun idx inside gens V P Q T1 T2 C base stands => ?_⟩
  have unit : ((hashedY ops (batch.h_prove idx)).toNat - 1 : modN.Residue)⁻¹ *
      ((hashedY ops (batch.h_prove idx)).toNat - 1) = 1 :=
    inv_mul_cancel₀ (sub_ne_zero.mpr (usable idx inside).ne_one)
  have size : (params idx).N = 32 := by
    rw [setup inside]
    exact sizes idx inside
  have blind : mon (params idx).H gens.H := by
    rw [setup inside]
    exact points.to_mon stands.H
  have Gg : ∀ i < 32, mon ((params idx).Gg i) (gens.g i) := by
    intro i below
    rw [setup inside]
    change mon (Lanes.store (batch.h_params idx).N 0 (fun i => ops.jpoint_to_mon ((batch.h_params idx).Gg i)) _ i) _
    rw [sizes idx inside, Lanes.store_first below]
    exact points.to_mon (stands.Gg i below)
  have Hh : ∀ i < 32, mon (hprime (idx * 32 + i))
    (((hashedY ops (batch.h_prove idx)).toNat ^ i : modN.Residue)⁻¹ • gens.h i) := by
    intro i below
    refine generators idx inside i below (gens.h i) ?_
    rw [setup inside]
    exact stands.Hh i below
  have point {p : J} {a : A} (stand : plain p a) : mon (ops.jpoint_to_mon p) a := points.to_mon stand
  have proof := taken inside
  have V_point : mon (prove idx).V V := proof ▸ point stands.V
  have A_point : mon (prove idx).A P := proof ▸ point stands.A
  have S_point : mon (prove idx).S Q := proof ▸ point stands.S
  have T1_point : mon (prove idx).T1 T1 := proof ▸ point stands.T1
  have T2_point : mon (prove idx).T2 T2 := proof ▸ point stands.T2
  have side {k : ℕ} (below : k < 3 * N_DATA) : tmpJ₃ k = tmpJ₂ k := Lanes.splice_before below
  have side' {k : ℕ} (below : k < 2 * N_DATA) : tmpJ₂ k = tmpJ₁ k := Lanes.splice_before below
  refine ⟨?_, ?_, ?_, ?_, ?_⟩
  · have cell : tmpJ₃ idx = ops.dh_ellipticAdd_JJ (ops.dh_point_mult_finalversion (params idx).H (prove idx).Taux)
        (ops.d_base_point_mul (prove idx).Tprime) := by
      rw [side (by omega), side' (by omega), show tmpJ₁ idx = tmpJ idx from Lanes.splice_before inside]
      exact Lanes.store_first inside
    have sum := points.add (points.mult (prove idx).Taux blind) (points.base_mul (prove idx).Tprime)
    rw [proof] at cell sum
    dsimp only [answer]
    rw [cell, base, Nat.cast_smul_eq_nsmul, Nat.cast_smul_eq_nsmul]
    exact sum
  · have cell : tmpJ₃ (N_DATA + idx) = rhs idx := by
      rw [side (by omega), side' (by omega)]
      exact Lanes.splice_shift
    obtain ⟨R, block, form⟩ := rhs65Block_spec points size (challenges idx inside).challenges (challenges idx inside).inverse
      unit V_point T1_point T2_point (old.rhs65 idx)
    rw [sums idx inside] at block
    dsimp only
    rw [cell, Option.some.inj block, base]
    exact form
  · have cell : tmpJ₃ (2 * N_DATA + idx) = vectors idx := by
      rw [side (by omega)]
      exact Lanes.splice_shift
    obtain ⟨R, block, form⟩ := calPBlock_spec points (challenges idx inside).challenges Gg Hh A_point S_point
      (old.calP idx)
    rw [sums' idx inside] at block
    dsimp only
    rw [cell, Option.some.inj block]
    exact form
  · have cell : tmpJ₃ (3 * N_DATA + idx) = ops.jpoint_from_mon (ops.dh_ellipticAdd_JJ
        (ops.dh_point_mult_finalversion (params idx).H (prove idx).Mu) (ipcommit idx)) :=
      Lanes.splice_shift.trans (Lanes.store_first inside)
    have commitment : mon (ipcommit idx) C := by
      rw [show ipcommit idx = ops.jpoint_to_mon (batch.h_ipcommit idx) from Lanes.store_first inside]
      exact point stands.ipcommit
    have sum := points.from_mon (points.add (points.mult (prove idx).Mu blind) commitment)
    rw [proof] at cell sum
    dsimp only [answer]
    rw [cell, Nat.cast_smul_eq_nsmul]
    exact sum
  · obtain ⟨lefts, rights⟩ := blr_to_mon_spec sizes inside
    exact kernel_calip68_spec lefts rights inside

/-! ## Acceptance -/

/-- The comparisons that the results of a position are made for: the two sides of the equation 65 and of the equations 66 and
67 stand for the same element, and the inner product is the number `t`. The program leaves the results in its arrays and
compares nothing, so this is a predicate of the specification. -/
structure Passes (mon plain : J → A → Prop) (results : Results J) (N_DATA idx : ℕ) (t : modN.Residue) : Prop where
  equation65 : ∃ X, mon (results.d_tmpJ idx) X ∧ mon (results.d_tmpJ (N_DATA + idx)) X
  equation67 : ∃ X, plain (results.d_tmpJ (2 * N_DATA + idx)) X ∧ plain (results.d_tmpJ (3 * N_DATA + idx)) X
  equation68 : modN.Mont (results.d_bLR (idx * 64)) t

section Acceptance

variable {results : Results J} {idx : ℕ} {gens : Generators A} {x y z : modN.Residue} {reply : Answer modN.Residue}
  {V P Q T1 T2 C : A} (sides : Sides mon plain results N_DATA idx gens x y z reply V P Q T1 T2 C)

include sides

theorem Sides.passes (checks : Checks gens 32 V P Q T1 T2 C x y z reply) : Passes mon plain results N_DATA idx reply.t := by
  obtain ⟨number, vectors, inner⟩ := checks_iff.mp checks
  refine ⟨⟨_, sides.commitG1, ?_⟩, ⟨_, sides.calP, ?_⟩, inner ▸ sides.calip68⟩
  · rw [number]
    exact sides.rhs65
  · rw [vectors]
    exact sides.calP67

/-- Where a point stands for one element only, nothing else passes. -/
theorem Sides.checks (mon_unique : ∀ p a b, mon p a → mon p b → a = b)
    (plain_unique : ∀ p a b, plain p a → plain p b → a = b)
    (passes : Passes mon plain results N_DATA idx reply.t) : Checks gens 32 V P Q T1 T2 C x y z reply := by
  obtain ⟨⟨X, left, right⟩, ⟨Y, left', right'⟩, inner⟩ := passes
  rw [checks_iff]
  refine ⟨?_, ?_, sides.calip68.unique inner⟩
  · rw [mon_unique _ _ _ sides.commitG1 left, mon_unique _ _ _ sides.rhs65 right]
  · rw [plain_unique _ _ _ sides.calP left', plain_unique _ _ _ sides.calP67 right']

end Acceptance

/-- The position `idx` of the batch holds what the program of the prover sends for the number `v`, where the lane 0 of
`kernel_cal_S` has found the whole sum of the second warp. -/
def FromProver (ops : JpointOps J) (batch : Batch J) (idx : ℕ) (rand : InitParamR) (v : ℤ) : Prop :=
  ∃ order xyz old prove VLR xyz', roundsRead order = 5 ∧
    hashedMain ops order (batch.h_params idx) rand v xyz old = some (prove, VLR, xyz') ∧
    batch.h_prove idx = sentProve ops prove ∧ ∀ i < 64, batch.h_bLR (idx * 64 + i) = sentVLR VLR i

/-- The numbers of an honest proof, and its vectors as they are sent. -/
private theorem answer_agrees {H : A} {g g' : ℕ → A} {rand : InitParamR} {rounds m idx : ℕ} {x y z : modN.Residue}
    {V : J} {VLR : ℕ → Big} (honest : Honest plain G H g g' rand rounds m x y z { batch.h_prove idx with V := V } VLR)
    (vectors : ∀ i < 64, batch.h_bLR (idx * 64 + i) = sentVLR VLR i) :
    (answer batch idx).Agrees 32 (.honest 32 (bitsL m) (bitsR m) (residues rand.SL) (residues rand.SR) rand.alpha.toNat
      rand.rho.toNat rand.tau1.toNat rand.tau2.toNat rand.gamma.toNat x y z) where
  taux := honest.Taux.value
  mu := honest.Mu.value
  t := honest.Tprime.value
  l i inside := by
    have number := (honest.lefts.lane inside).toPlain
    change ((batch.h_bLR (idx * 64 + i)).toNat : modN.Residue) = _
    rw [vectors i (by omega)]
    exact number.value
  r i inside := by
    have number := (honest.rights i inside).toPlain
    change ((batch.h_bLR (idx * 64 + (32 + i))).toNat : modN.Residue) = _
    rw [vectors (32 + i) (by omega)]
    exact number.value

/-- The elements of a proof that the prover's program has made, and whether the verifier accepts its numbers. -/
theorem FromProver.stands_and_accepts_iff (points : ops.Interprets mon plain G)
    (affine : ∀ p a, plain p a → plain (ops.Jpoint2Apoint p) a) {idx : ℕ} {gens : Generators A} (base : gens.G = G)
    (setup : Setup plain (batch.h_params idx) gens.H gens.g gens.h) {rand : InitParamR} {v : ℤ}
    (made : FromProver ops batch idx rand v) (usable : Usable (hashedY ops (batch.h_prove idx))) {C : A}
    (commitment : plain (batch.h_ipcommit idx) C) :
    ∃ V P Q T1 T2, Stands plain batch idx gens V P Q T1 T2 C ∧
      (Accepts gens 32 V P Q T1 T2 ((hashedX ops (batch.h_prove idx)).toNat : modN.Residue)
          (hashedY ops (batch.h_prove idx)).toNat (hashedZ ops (batch.h_prove idx)).toNat (answer batch idx) ↔
        ((hashedZ ops (batch.h_prove idx)).toNat ^ 2 *
          ((v % 2 ^ 64).toNat - (v % 2 ^ 32).toNat : modN.Residue)) • G = 0) := by
  obtain rfl := base
  obtain ⟨order, xyz, old, prove, VLR, xyz', settled, ran, sent, vectors⟩ := made
  obtain ⟨prove', VLR', xyz'', ran', value, honest⟩ := @hashedMain_spec _ ops _ _ _ mon plain gens.G gens.H gens.g gens.h
    (batch.h_params idx) rand points affine setup order v xyz old
  rw [ran] at ran'
  obtain ⟨rfl, rfl, -⟩ : prove = prove' ∧ VLR = VLR' ∧ xyz' = xyz'' := by simpa using ran'
  obtain ⟨m, bits⟩ : ∃ m, m = (v % 2 ^ 32).toNat := ⟨_, rfl⟩
  have small : m < 2 ^ 32 := by omega
  have low : ((m : ℤ) % 2 ^ 64).toNat = m := by omega
  have other := commitG1_int points (trans_to_mon_spec points setup).H m rand.gamma
  rw [low, bits] at other
  have proof := honest _ other
  rw [← sent, ← bits] at proof
  have agrees := answer_agrees proof vectors
  have complete := proof.S
  rw [settled, commit_gathered_five] at complete
  have number : ∑ i ∈ Finset.range 32, bitsL m i * 2 ^ i + ((v % 2 ^ 64).toNat - (v % 2 ^ 32).toNat : modN.Residue) =
      (v % 2 ^ 64).toNat := by
    rw [sum_bits_residue small, bits]
    ring
  refine ⟨((v % 2 ^ 64).toNat : modN.Residue) • gens.G + (rand.gamma.toNat : modN.Residue) • gens.H, _, _, _, _,
    ⟨setup.H, setup.Gg, setup.Hh, ?_, proof.A, complete, proof.T1, proof.T2, commitment⟩, ?_⟩
  · rw [sent]
    exact affine _ _ value
  · have honestly := @accepts_honest_iff _ _ _ _ _ gens 32 (bitsL m) (bitsR m) (residues rand.SL) (residues rand.SR)
      rand.alpha.toNat rand.rho.toNat rand.tau1.toNat rand.tau2.toNat rand.gamma.toNat
      (hashedX ops (batch.h_prove idx)).toNat (hashedY ops (batch.h_prove idx)).toNat
      (hashedZ ops (batch.h_prove idx)).toNat (bitsL_spec m 32) usable.ne_zero
      ((v % 2 ^ 64).toNat - (v % 2 ^ 32).toNat)
    rw [number] at honestly
    exact ⟨fun accepts => honestly.mp (accepts.congr agrees.symm), fun zero => (honestly.mpr zero).congr agrees⟩

/-- For any batch with usable challenges, the results of a position pass if and only if the equations of a range argument
hold for the elements, the numbers and the hashed challenges of this position, with what stands in `h_ipcommit` in place of
the commitment to the vectors. -/
theorem main_passes_iff (points : ops.Interprets mon plain G) (mon_unique : ∀ p a b, mon p a → mon p b → a = b)
    (plain_unique : ∀ p a b, plain p a → plain p b → a = b) (sizes : ∀ idx < N_DATA, (batch.h_params idx).N = 32)
    (usable : ∀ idx < N_DATA, Usable (hashedY ops (batch.h_prove idx))) (old : Unwritten J) :
    ∃ results, main ops batch N_DATA old = some results ∧ ∀ idx < N_DATA, ∀ gens V P Q T1 T2 C, gens.G = G →
      Stands plain batch idx gens V P Q T1 T2 C →
        (Passes mon plain results N_DATA idx (batch.h_prove idx).Tprime.toNat ↔
          Checks gens 32 V P Q T1 T2 C ((hashedX ops (batch.h_prove idx)).toNat : modN.Residue)
            (hashedY ops (batch.h_prove idx)).toNat (hashedZ ops (batch.h_prove idx)).toNat (answer batch idx)) := by
  obtain ⟨results, ends, sides⟩ := main_spec points sizes usable old
  refine ⟨results, ends, fun idx inside gens V P Q T1 T2 C base stands => ⟨fun passes => ?_, fun checks => ?_⟩⟩
  · exact (sides idx inside gens V P Q T1 T2 C base stands).checks mon_unique plain_unique passes
  · exact (sides idx inside gens V P Q T1 T2 C base stands).passes checks

/-- The residues with a hash that gives `2` and `1`. -/
def residueJpoints : JpointOps modN.Residue := groupJpoints 1 fun _ _ => (⟨2, 0, 0, 0⟩, ⟨1, 0, 0, 0⟩)

private def residueParams : BPSetupParams modN.Residue := ⟨1, 1, 32, fun _ => 1, fun _ => 1, 0, 0, 1, 1⟩

private theorem residueJpoints_interprets : residueJpoints.Interprets Eq Eq 1 := groupJpoints_interprets _ _

private theorem residueJpoints_usable (prove : BPProve modN.Residue) : Usable (hashedY residueJpoints prove) := by
  constructor
  · change 1 < (Big.mk 2 0 0 0).toNat
    decide
  · change (Big.mk 2 0 0 0).toNat < modN.Pa.toNat
    decide

private def residueUnwritten : Unwritten modN.Residue := ⟨fun _ => 0, fun _ => 0, fun _ => 0, fun _ _ => 0, fun _ _ => 0⟩

private def residueGenerators : Generators modN.Residue := ⟨1, 1, fun _ => 1, fun _ => 1⟩

/-- A batch of one proof with zeros for its points and its numbers. -/
private def zeroBatch : Batch modN.Residue :=
  ⟨fun _ => residueParams, fun _ => ⟨0, 0, 0, 0, 0, 0, 0, 0⟩, fun _ => 0, fun _ => 0⟩

theorem main_passes_iff_zero : ∃ results, main residueJpoints zeroBatch 1 residueUnwritten = some results ∧
    (Passes Eq Eq results 1 0 ((0 : Big).toNat : modN.Residue) ↔
      Checks residueGenerators 32 (0 : modN.Residue) 0 0 0 0 0 ((Big.mk 2 0 0 0).toNat : modN.Residue)
        (Big.mk 2 0 0 0).toNat (Big.mk 1 0 0 0).toNat (answer zeroBatch 0)) := by
  obtain ⟨results, ends, passes⟩ := @main_passes_iff _ residueJpoints zeroBatch 1 _ _ _ Eq Eq 1 residueJpoints_interprets
    (fun _ _ _ left right => left.symm.trans right) (fun _ _ _ left right => left.symm.trans right) (fun _ _ => rfl)
    (fun _ _ => residueJpoints_usable _) residueUnwritten
  exact ⟨results, ends, passes 0 one_pos residueGenerators 0 0 0 0 0 0 rfl
    ⟨rfl, fun _ _ => rfl, fun _ _ => rfl, rfl, rfl, rfl, rfl, rfl, rfl⟩⟩

/-- A batch of proofs that the prover's program has made. -/
structure Made (ops : JpointOps J) (plain : J → A → Prop) (G : A) (batch : Batch J) (N_DATA : ℕ) (gens : ℕ → Generators A)
    (rand : ℕ → InitParamR) (v : ℕ → ℤ) : Prop where
  size : ∀ idx < N_DATA, (batch.h_params idx).N = 32
  base : ∀ idx < N_DATA, (gens idx).G = G
  setup : ∀ idx < N_DATA, Setup plain (batch.h_params idx) (gens idx).H (gens idx).g (gens idx).h
  prove : ∀ idx < N_DATA, FromProver ops batch idx (rand idx) (v idx)
  ipcommit : ∀ idx < N_DATA, plain (batch.h_ipcommit idx)
    ((answer batch idx).commitment (gens idx) 32 ((hashedY ops (batch.h_prove idx)).toNat : modN.Residue))

section Programs

variable {gens : ℕ → Generators A} {rand : ℕ → InitParamR} {v : ℕ → ℤ}

/-- The two programs fit together: every proof of a batch that the prover's program has made of nonnegative numbers passes,
whatever the hash, as long as its challenges are usable. -/
theorem main_complete (points : ops.Interprets mon plain G) (affine : ∀ p a, plain p a → plain (ops.Jpoint2Apoint p) a)
    (made : Made ops plain G batch N_DATA gens rand v)
    (usable : ∀ idx < N_DATA, Usable (hashedY ops (batch.h_prove idx)))
    (nonnegative : ∀ idx < N_DATA, 0 ≤ v idx) (int : ∀ idx < N_DATA, v idx < 2 ^ 31) (old : Unwritten J) :
    ∃ results, main ops batch N_DATA old = some results ∧
      ∀ idx < N_DATA, Passes mon plain results N_DATA idx (batch.h_prove idx).Tprime.toNat := by
  obtain ⟨results, ends, sides⟩ := main_spec points made.size usable old
  refine ⟨results, ends, fun idx inside => ?_⟩
  obtain ⟨V, P, Q, T1, T2, stands, accepts⟩ := (made.prove idx inside).stands_and_accepts_iff points affine
    (made.base idx inside) (made.setup idx inside) (usable idx inside) (made.ipcommit idx inside)
  have low : v idx % 2 ^ 64 = v idx % 2 ^ 32 := by
    have := nonnegative idx inside
    have := int idx inside
    omega
  rw [low, sub_self, mul_zero, zero_smul] at accepts
  exact (sides idx inside _ V P Q T1 T2 _ (made.base idx inside) stands).passes (accepts_iff_checks.mp (accepts.mpr rfl))

private theorem exists_made (v : ℤ) : ∃ batch : Batch modN.Residue,
    Made residueJpoints Eq 1 batch 1 (fun _ => residueGenerators) (fun _ => unitRandom) (fun _ => v) := by
  have setup : Setup Eq residueParams 1 (fun _ => 1) (fun _ => 1) := ⟨rfl, fun _ _ => rfl, fun _ _ => rfl⟩
  obtain ⟨prove, VLR, xyz, ran, -, -⟩ := @hashedMain_spec _ residueJpoints _ _ _ Eq Eq 1 1 (fun _ => 1) (fun _ => 1)
    residueParams unitRandom residueJpoints_interprets (fun _ _ same => same) setup inStep v (fun _ => 0)
    ⟨fun _ => 0, fun _ => 0, fun _ => 0, fun _ => 0, fun _ => 0, fun _ => 0⟩
  let sent (C : modN.Residue) : Batch modN.Residue :=
    ⟨fun _ => residueParams, fun _ => sentProve residueJpoints prove, fun _ => C, sentVLR VLR⟩
  have same (C : modN.Residue) : answer (sent C) 0 = answer (sent 0) 0 := rfl
  obtain ⟨C, opened⟩ : ∃ C, C = (answer (sent 0) 0).commitment residueGenerators 32
    ((hashedY residueJpoints (sentProve residueJpoints prove)).toNat : modN.Residue) := ⟨_, rfl⟩
  refine ⟨sent C, fun _ _ => rfl, fun _ _ => rfl, fun _ _ => setup, fun idx inside => ?_, fun idx inside => ?_⟩
  · refine ⟨inStep, _, _, prove, VLR, xyz, by decide, ran, rfl, fun i _ => ?_⟩
    rw [Nat.lt_one_iff.mp inside, Nat.zero_mul, Nat.zero_add]
  · rw [Nat.lt_one_iff.mp inside, same C]
    exact opened

theorem main_complete_one : ∃ batch results,
    Made residueJpoints Eq 1 batch 1 (fun _ => residueGenerators) (fun _ => unitRandom) (fun _ => 5) ∧
      main residueJpoints batch 1 residueUnwritten = some results ∧
      Passes Eq Eq results 1 0 ((batch.h_prove 0).Tprime.toNat : modN.Residue) := by
  obtain ⟨batch, made⟩ := exists_made 5
  obtain ⟨results, ends, passes⟩ := main_complete residueJpoints_interprets (fun _ _ same => same) made
    (fun _ _ => residueJpoints_usable _) (fun _ _ => by norm_num) (fun _ _ => by norm_num) residueUnwritten
  exact ⟨batch, results, made, ends, passes 0 one_pos⟩

/-- The prover's program makes a proof of every `int`, but the one of a negative number does not pass: the bits are those of
its lower 32 bits and the commitment is to its lower 64 bits. -/
theorem main_passes_int_iff (points : ops.Interprets mon plain G) (mon_unique : ∀ p a b, mon p a → mon p b → a = b)
    (plain_unique : ∀ p a b, plain p a → plain p b → a = b) (affine : ∀ p a, plain p a → plain (ops.Jpoint2Apoint p) a)
    (nontrivial : G ≠ 0) (made : Made ops plain G batch N_DATA gens rand v)
    (usable : ∀ idx < N_DATA, Usable (hashedY ops (batch.h_prove idx)))
    (nonzero : ∀ idx < N_DATA, ((hashedZ ops (batch.h_prove idx)).toNat : modN.Residue) ≠ 0)
    (int : ∀ idx < N_DATA, -2 ^ 31 ≤ v idx ∧ v idx < 2 ^ 31) (old : Unwritten J) :
    ∃ results, main ops batch N_DATA old = some results ∧
      ∀ idx < N_DATA, (Passes mon plain results N_DATA idx (batch.h_prove idx).Tprime.toNat ↔ 0 ≤ v idx) := by
  obtain ⟨results, ends, sides⟩ := main_spec points made.size usable old
  refine ⟨results, ends, fun idx inside => ?_⟩
  obtain ⟨V, P, Q, T1, T2, stands, accepts⟩ := (made.prove idx inside).stands_and_accepts_iff points affine
    (made.base idx inside) (made.setup idx inside) (usable idx inside) (made.ipcommit idx inside)
  have side := sides idx inside _ V P Q T1 T2 _ (made.base idx inside) stands
  obtain ⟨low, high⟩ := int idx inside
  have passes : Passes mon plain results N_DATA idx (batch.h_prove idx).Tprime.toNat ↔
      ((v idx % 2 ^ 64).toNat - (v idx % 2 ^ 32).toNat : modN.Residue) = 0 := by
    have square := pow_ne_zero 2 (nonzero idx inside)
    rw [smul_eq_zero_iff_left nontrivial, mul_eq_zero_iff_left square] at accepts
    rw [← accepts, accepts_iff_checks]
    exact ⟨side.checks mon_unique plain_unique, side.passes⟩
  rw [passes]
  constructor
  · intro zero
    by_contra negative
    have value : (v idx % 2 ^ 64).toNat = (v idx % 2 ^ 32).toNat + (2 ^ 64 - 2 ^ 32) := by omega
    rw [value, Nat.cast_add, add_sub_cancel_left, ZMod.natCast_eq_zero_iff] at zero
    exact absurd (Nat.le_of_dvd (by decide) zero) (by decide)
  · intro nonnegative
    have same : v idx % 2 ^ 64 = v idx % 2 ^ 32 := by omega
    rw [same, sub_self]

theorem main_passes_int_iff_minus_one : ∃ batch results,
    Made residueJpoints Eq 1 batch 1 (fun _ => residueGenerators) (fun _ => unitRandom) (fun _ => -1) ∧
      main residueJpoints batch 1 residueUnwritten = some results ∧
      ¬ Passes Eq Eq results 1 0 ((batch.h_prove 0).Tprime.toNat : modN.Residue) := by
  obtain ⟨batch, made⟩ := exists_made (-1)
  have one : ((Big.mk 1 0 0 0).toNat : modN.Residue) ≠ 0 := by
    rw [show (Big.mk 1 0 0 0).toNat = 1 by decide, Nat.cast_one]
    exact one_ne_zero
  obtain ⟨results, ends, passes⟩ := main_passes_int_iff residueJpoints_interprets
    (fun _ _ _ left right => left.symm.trans right) (fun _ _ _ left right => left.symm.trans right) (fun _ _ same => same)
    one_ne_zero made (fun _ _ => residueJpoints_usable _) (fun _ _ => one) (fun _ _ => by norm_num) residueUnwritten
  exact ⟨batch, results, made, ends, fun accepted => absurd ((passes 0 one_pos).mp accepted) (by norm_num)⟩

end Programs

end Elements

end RangeVerify

end DbcSnark.Gpuec
