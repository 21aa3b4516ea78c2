import DbcSnark.Model.Gpuec.RangeProof
import DbcSnark.Proofs.Gpuec.ModExp
import DbcSnark.Proofs.Gpuec.UpdateGen
import DbcSnark.ToMathlib.RangeArgument

/-! # What the prover computes

The numbers in the arrays are residues in Montgomery form, those of `VLR` too, and the results are plain. The points are
described by relations to the elements of a group, so that the results hold for every representation of points on which
the functions act as the operations of the group.
-/

namespace DbcSnark.Gpuec

open Modulus (Mont Plain)

/-! ## Numbers -/

/-- The cells of `s` from `off` on hold the residues `f`. -/
def Holds (s : ℕ → Big) (off : ℕ) (f : ℕ → modN.Residue) : Prop := ∀ i < 32, modN.Mont (s (off + i)) (f i)

namespace Holds

variable {s : ℕ → Big} {off off' n : ℕ} {f g : ℕ → modN.Residue} {val : ℕ → Big} {v : Big}

theorem lane (holds : Holds s 0 f) {i : ℕ} (inside : i < 32) : modN.Mont (s i) (f i) := by
  simpa using holds i inside

theorem stored (values : ∀ i < 32, modN.Mont (val i) (f i)) : Holds (Lanes.store 32 off val s) off f := by
  intro i inside
  rw [Lanes.store_lane inside]
  exact values i inside

theorem store (holds : Holds s off f) (apart : off + 32 ≤ off' ∨ off' + 32 ≤ off) :
    Holds (Lanes.store 32 off' val s) off f := by
  intro i inside
  rw [Lanes.store_outside (by omega)]
  exact holds i inside

theorem frame {s' : ℕ → Big} (holds : Holds s off f) (same : ∀ c, c < off' ∨ off' + 32 ≤ c → s' c = s c)
    (apart : off + 32 ≤ off' ∨ off' + 32 ≤ off) : Holds s' off f := by
  intro i inside
  rw [same _ (by omega)]
  exact holds i inside

theorem update (holds : Holds s off f) {c : ℕ} (outside : c < off ∨ off + 32 ≤ c) : Holds (Function.update s c v) off f := by
  intro i inside
  rw [Function.update_of_ne (by omega)]
  exact holds i inside

/-- The tree over the lanes leaves the sum in the first cell and changes none behind it. -/
theorem reduce_sum (holds : Holds s 0 f) :
    modN.Mont (Reduction.reduce dh_mybig_modadd_64_modN 16 s 0) (∑ i ∈ Finset.range 32, f i) := by
  have sums : ∀ v w a b, modN.Mont v a → modN.Mont w b → modN.Mont (dh_mybig_modadd_64_modN v w) (a + b) :=
    fun _ _ _ _ left right => left.add right
  exact Reduction.reduce_pow sums 4 s f fun _ inside => holds.lane inside

theorem reduce (holds : Holds s off f) (behind : 16 ≤ off) :
    Holds (Reduction.reduce dh_mybig_modadd_64_modN 16 s) off f := by
  intro i inside
  rw [Reduction.reduce_of_le _ (by omega)]
  exact holds i inside

end Holds

theorem mont_TWO_modN : modN.Mont dc_mon_TWO_modN 2 := by
  have form : modN.Mont dc_mon_TWO_modN (2 : ℕ) := Modulus.mont_natCast_iff.mpr (by decide)
  exact_mod_cast form

/-- The lanes raise a number to their own indices. -/
theorem powers_spec {b : Big} {a : modN.Residue} (base : modN.Mont b a) (off : ℕ) (s : ℕ → Big) :
    ∃ s', Lanes.storeM 32 off (fun tx => modN.modexp_ui32 dc_mon_ONE_modN b (.ofNat tx)) s = some s' ∧
      Holds s' off (fun i => a ^ i) ∧ ∀ c, c < off ∨ off + 32 ≤ c → s' c = s c := by
  refine @Lanes.storeM_spec _ 32 off s _ (fun i v => modN.Mont v (a ^ i)) fun i inside => ?_
  obtain ⟨c, raised, power⟩ := Ram.mont_ONE_modN.modexp_ui32 base (.ofNat i)
  rw [UInt32.toNat_ofNat_of_lt' (by rw [UInt32.size]; omega)] at power
  exact ⟨c, raised, power⟩

/-! ## Points -/

section Points

variable {J : Type} {A : Type*} [AddCommGroup A]

/-- The functions act as the operations of a group with the base point `G`, where `mon` tells which element a point stands
for in Montgomery form and `plain` which one out of it. -/
structure JpointOps.Interprets (ops : JpointOps J) (mon plain : J → A → Prop) (G : A) : Prop where
  base : mon ops.pG_mon G
  add : ∀ {p q a b}, mon p a → mon q b → mon (ops.dh_ellipticAdd_JJ p q) (a + b)
  mult : ∀ {p a} (k : Big), mon p a → mon (ops.dh_point_mult_finalversion p k) (k.toNat • a)
  base_mul : ∀ k : Big, mon (ops.d_base_point_mul k) (k.toNat • G)
  minus : ∀ {p a}, mon p a → mon (ops.cal_minus_Jpoint p) (-a)
  to_mon : ∀ {p a}, plain p a → mon (ops.jpoint_to_mon p) a
  from_mon : ∀ {p a}, mon p a → plain (ops.jpoint_from_mon p) a

theorem nsmul_plain [Module modN.Residue A] {k : Big} {a : modN.Residue} (plain : modN.Plain k a) (P : A) :
    k.toNat • P = a • P := by
  rw [← plain.value, Nat.cast_smul_eq_nsmul]

theorem val_nsmul [Module modN.Residue A] (a : modN.Residue) (P : A) : a.val • P = a • P := by
  rw [← Nat.cast_smul_eq_nsmul modN.Residue, ZMod.natCast_zmod_val]

/-- A multiplication by a number that has just been taken out of Montgomery form. -/
theorem JpointOps.Interprets.mult_mont [Module modN.Residue A] {ops : JpointOps J} {mon plain : J → A → Prop} {G P : A}
    (points : ops.Interprets mon plain G) {p : J} {v : Big} {a : modN.Residue} (point : mon p P) (factor : modN.Mont v a) :
    mon (ops.dh_point_mult_finalversion p (dh_mybig_monmult_64_modN v dc_ONE)) (a • P) := by
  have scalar : modN.Plain (dh_mybig_monmult_64_modN v dc_ONE) a := factor.toPlain
  rw [← nsmul_plain scalar]
  exact points.mult _ point

end Points

namespace RangeProof

open RangeArgument

variable {J : Type} {A : Type*} [AddCommGroup A] [Module modN.Residue A] {ops : JpointOps J} {mon plain : J → A → Prop}
  {G : A} {x y z : modN.Residue} {aL aR sL sR : ℕ → modN.Residue} {xyz al ar sl sr tau12 z22nyn sh_ip : ℕ → Big} {h : J}
  {H : A}

theorem kernel_cal_t12_spec (points : ops.Interprets mon plain G) (blind : mon h H) (y_form : modN.Mont (xyz 1) y)
    (z_form : modN.Mont (xyz 2) z) (al_form : Holds al 0 aL) (ar_form : Holds ar 0 aR) 
    (sL_value : ∀ i, sL i = (sl i).toNat) (sR_value : ∀ i, sR i = (sr i).toNat) :
    ∃ t, kernel_cal_t12 ops h xyz al ar sl sr tau12 z22nyn sh_ip = some t ∧ Holds t.sl 0 sL ∧ Holds t.sr 0 sR ∧
      Holds t.z22nyn 0 (fun i => z ^ 2 * 2 ^ i) ∧ Holds t.z22nyn 32 (fun i => y ^ i) ∧
      plain t.T1 (t1 32 aL aR sL sR y z • G + (tau12 0).toNat • H) ∧
        plain t.T2 (t2 32 sL sR y • G + (tau12 1).toNat • H) := by
  unfold kernel_cal_t12
  extract_lets sl₁ sr₁ sh₁ rh
  obtain ⟨sh₂, stored, y_powers, same⟩ := powers_spec y_form 64 sh₁
  rw [stored, Option.bind_eq_bind, Option.bind_some]
  extract_lets sh₃ sh₄ sh₅ lh sh₆ sh₇
  obtain ⟨sh₈, stored', two_powers, same'⟩ := powers_spec mont_TWO_modN 32 sh₇
  rw [stored', Option.bind_some]
  extract_lets sh₉ z22nyn₁ z22nyn₂ sh₁₀ sh₁₁ sh₁₂ rh' sh₁₃ sh₁₄ sh₁₅ sh₁₆ sh₁₇ sh₁₈ sh₁₉ T12 lh' xyz'
  have left : Holds sl₁ 0 sL := Holds.stored fun i _ => sL_value i ▸ mont_R2modN (sl i)
  have right : Holds sr₁ 0 sR := Holds.stored fun i _ => sR_value i ▸ mont_R2modN (sr i)
  -- the inner product of `aL - z` with the blinding of the right vector
  have aL_z : Holds sh₂ 0 (fun i => aL i - z) :=
    Holds.frame (Holds.stored fun i inside => (al_form.lane inside).sub z_form) same (by omega)
  have y_sR : Holds sh₃ 32 (fun i => y ^ i * sR i) :=
    Holds.stored fun i inside => (y_powers i inside).mul (right.lane inside)
  have first : Holds sh₄ 0 (fun i => (aL i - z) * (y ^ i * sR i)) :=
    Holds.stored fun i inside => ((aL_z.store (by omega)).lane inside).mul (y_sR i inside)
  have powers : Holds sh₅ 64 (fun i => y ^ i) := ((y_powers.store (by omega)).store (by omega)).reduce (by omega)
  -- the inner product of the constant term of the right vector with the blinding of the left one
  have aR_z : Holds sh₆ 0 (fun i => aR i + z) := Holds.stored fun i inside => (ar_form.lane inside).add z_form
  have aR_z_y : Holds sh₈ 0 (fun i => (aR i + z) * y ^ i) :=
    Holds.frame (Holds.stored fun i inside => (aR_z.lane inside).mul (powers.store (by omega) i inside)) same' (by omega)
  have powers' : Holds sh₉ 64 (fun i => y ^ i) :=
    (Holds.frame ((powers.store (by omega)).store (by omega)) same' (by omega)).store (by omega)
  have twos : Holds sh₉ 32 (fun i => 2 ^ i * (z * z)) :=
    Holds.stored fun i inside => (two_powers i inside).mul (z_form.mul z_form)
  have constant : Holds sh₁₀ 0 (fun i => (aR i + z) * y ^ i + 2 ^ i * (z * z)) :=
    Holds.stored fun i inside => ((aR_z_y.store (by omega)).lane inside).add (twos i inside)
  have second : Holds sh₁₁ 0 (fun i => ((aR i + z) * y ^ i + 2 ^ i * (z * z)) * sL i) :=
    Holds.stored fun i inside => (constant.lane inside).mul (left.lane inside)
  -- the inner product of both blindings
  have powers'' : Holds sh₁₄ 64 (fun i => y ^ i) :=
    ((((powers'.store (by omega)).store (by omega)).reduce (by omega)).update (by omega)).update (by omega)
  have y_sR' : Holds sh₁₅ 0 (fun i => y ^ i * sR i) :=
    Holds.stored fun i inside => (powers'' i inside).mul (right.lane inside)
  have third : Holds sh₁₆ 0 (fun i => y ^ i * sR i * sL i) :=
    Holds.stored fun i inside => (y_sR'.lane inside).mul (left.lane inside)
  have linear : modN.Plain (sh₁₉ 32) (t1 32 aL aR sL sR y z) := by
    have cell : sh₁₉ 32 = dh_mybig_monmult_64_modN (dh_mybig_modadd_64_modN lh rh') dc_ONE :=
      calc sh₁₉ 32
        _ = sh₁₈ 32 := Function.update_of_ne (by decide) _ _
        _ = sh₁₇ 32 := Function.update_of_ne (by decide) _ _
        _ = sh₁₆ 32 := Reduction.reduce_of_le _ (by decide) _
        _ = sh₁₅ 32 := Lanes.store_outside (by decide)
        _ = sh₁₄ 32 := Lanes.store_outside (by decide)
        _ = dh_mybig_monmult_64_modN (sh₁₃ 32) dc_ONE := Function.update_self ..
        _ = dh_mybig_monmult_64_modN (dh_mybig_modadd_64_modN lh rh') dc_ONE :=
          congrArg (dh_mybig_monmult_64_modN · dc_ONE) (Function.update_self ..)
    have sum : t1 32 aL aR sL sR y z = ∑ i ∈ Finset.range 32, (aL i - z) * (y ^ i * sR i) +
        ∑ i ∈ Finset.range 32, ((aR i + z) * y ^ i + 2 ^ i * (z * z)) * sL i := by
      rw [t1_eq, ← Finset.sum_add_distrib]
      exact Finset.sum_congr rfl fun i _ => by ring
    rw [cell, sum]
    exact (first.reduce_sum.add second.reduce_sum).toPlain
  have quadratic : modN.Plain (sh₁₉ 33) (t2 32 sL sR y) := by
    have cell : sh₁₉ 33 = dh_mybig_monmult_64_modN (sh₁₇ 0) dc_ONE :=
      calc sh₁₉ 33
        _ = dh_mybig_monmult_64_modN (sh₁₈ 33) dc_ONE := Function.update_self ..
        _ = dh_mybig_monmult_64_modN (sh₁₇ 0) dc_ONE :=
          congrArg (dh_mybig_monmult_64_modN · dc_ONE) (Function.update_self ..)
    rw [cell]
    exact third.reduce_sum.toPlain
  have lane {tx : ℕ} {t : modN.Residue} (scalar : modN.Plain (sh₁₉ (32 + tx)) t) :
      plain (T12 tx) (t • G + (tau12 tx).toNat • H) := by
    rw [← nsmul_plain scalar]
    exact points.from_mon (points.add (points.base_mul _) (points.mult _ blind))
  refine ⟨_, rfl, left, right, ?_, ?_, lane linear, lane quadratic⟩
  · have values : Holds z22nyn₁ 0 (fun i => z ^ 2 * 2 ^ i) := by
      refine Holds.stored fun i inside => ?_
      rw [sq, mul_comm]
      exact twos i inside
    have kept : Holds z22nyn₂ 0 (fun i => z ^ 2 * 2 ^ i) := values.store (by omega)
    exact kept
  · exact Holds.stored powers'

/-- `kernel_cal_vlr` leaves both vectors in Montgomery form, and their inner product and the blindings of the commitments as
plain numbers. -/
theorem kernel_cal_vlr_spec {VLR : ℕ → Big} {gamma alpha rho tau1 tau2 : Big} (x_form : modN.Mont (xyz 0) x)
    (z_form : modN.Mont (xyz 2) z) (al_form : Holds al 0 aL) (ar_form : Holds ar 0 aR) (sl_form : Holds sl 0 sL)
    (sr_form : Holds sr 0 sR) (twos : Holds z22nyn 0 (fun i => z ^ 2 * 2 ^ i)) (powers : Holds z22nyn 32 (fun i => y ^ i)) :
    let w := kernel_cal_vlr VLR xyz al ar sl sr z22nyn gamma alpha rho tau1 tau2 sh_ip
    Holds w.VLR 0 (left aL sL x z) ∧ Holds w.VLR 32 (right aR sR x y z) ∧
      modN.Plain w.tprime (∑ i ∈ Finset.range 32, left aL sL x z i * right aR sR x y z i) ∧
      modN.Plain w.taux (x ^ 2 * tau2.toNat + (tau1.toNat * x + z ^ 2 * gamma.toNat)) ∧
      modN.Plain w.mu (rho.toNat * x + alpha.toNat) := by
  unfold kernel_cal_vlr
  extract_lets sh₁ sh₂ sh₃ sh₄ sh₅ sh₆ sh₇ sh₈ VLR₁ VLR₂ sh₉ sh₁₀ tprime x2 tau2' x2_tau2 z2 tau1' tau1_x gamma' z2_gamma
    sh1 sh0 taux rho' alpha' rho_x sh0' mu w
  have aL_z : Holds sh₁ 0 (fun i => aL i - z) := Holds.stored fun i inside => (al_form.lane inside).sub z_form
  have sL_x : Holds sh₂ 32 (fun i => sL i * x) := Holds.stored fun i inside => (sl_form.lane inside).mul x_form
  have lefts : Holds sh₃ 0 (left aL sL x z) :=
    Holds.stored fun i inside => ((aL_z.store (by omega)).lane inside).add (sL_x i inside)
  have sR_x : Holds sh₄ 32 (fun i => sR i * x) := Holds.stored fun i inside => (sr_form.lane inside).mul x_form
  have sR_x_z : Holds sh₅ 32 (fun i => sR i * x + z) := Holds.stored fun i inside => (sR_x i inside).add z_form
  have sum : Holds sh₆ 32 (fun i => sR i * x + z + aR i) :=
    Holds.stored fun i inside => (sR_x_z i inside).add (ar_form.lane inside)
  have scaled : Holds sh₇ 32 (fun i => (sR i * x + z + aR i) * y ^ i) :=
    Holds.stored fun i inside => (sum i inside).mul (powers i inside)
  have rights : Holds sh₈ 32 (right aR sR x y z) := by
    refine Holds.stored fun i inside => ?_
    rw [show right aR sR x y z i = (sR i * x + z + aR i) * y ^ i + z ^ 2 * 2 ^ i by rw [right_eq]; ring]
    exact (scaled i inside).add (twos.lane inside)
  have lefts' : Holds sh₈ 0 (left aL sL x z) :=
    ((((lefts.store (by omega)).store (by omega)).store (by omega)).store (by omega)).store (by omega)
  have products : Holds sh₉ 0 (fun i => left aL sL x z i * right aR sR x y z i) :=
    Holds.stored fun i inside => (lefts'.lane inside).mul (rights i inside)
  have stored : Holds VLR₁ 0 (left aL sL x z) := Holds.stored fun i inside => lefts'.lane inside
  have lefts'' : Holds VLR₂ 0 (left aL sL x z) := stored.store (by omega)
  have rights' : Holds VLR₂ 32 (right aR sR x y z) := Holds.stored rights
  have inner : modN.Mont (sh₁₀ 0) (∑ i ∈ Finset.range 32, left aL sL x z i * right aR sR x y z i) := products.reduce_sum
  have inner' : modN.Plain tprime (∑ i ∈ Finset.range 32, left aL sL x z i * right aR sR x y z i) := inner.toPlain
  have square : modN.Mont x2_tau2 (x * x * tau2.toNat) := (x_form.mul x_form).mul (mont_R2modN tau2)
  have linear : modN.Mont tau1_x (tau1.toNat * x) := (mont_R2modN tau1).mul x_form
  have value : modN.Mont z2_gamma (z * z * gamma.toNat) := (z_form.mul z_form).mul (mont_R2modN gamma)
  have blinding : modN.Plain taux (x * x * tau2.toNat + (tau1.toNat * x + z * z * gamma.toNat)) :=
    (square.add (linear.add value)).toPlain
  have product : modN.Mont rho_x (rho.toNat * x) := (mont_R2modN rho).mul x_form
  have blinding' : modN.Plain mu (rho.toNat * x + alpha.toNat) := (product.add (mont_R2modN alpha)).toPlain
  rw [sq, sq]
  dsimp only [w]
  exact ⟨lefts'', rights', inner', blinding, blinding'⟩

/-! ## The bits of the number -/

/-- The bits of a number as residues. -/
def bitsL (m i : ℕ) : modN.Residue := (m / 2 ^ i % 2 : ℕ)

/-- The bits less one. -/
def bitsR (m i : ℕ) : modN.Residue := bitsL m i - 1

theorem bitsL_spec (m n : ℕ) : Bits n (bitsL m) (bitsR m) := by
  refine ⟨fun i _ => rfl, fun i _ => ?_⟩
  rw [bitsR, bitsL]
  rcases Nat.mod_two_eq_zero_or_one (m / 2 ^ i) with zero | one
  · simp [zero]
  · simp [one]

theorem sum_bits_residue {m n : ℕ} (small : m < 2 ^ n) : ∑ i ∈ Finset.range n, bitsL m i * 2 ^ i = m := by
  have sum := congrArg (Nat.cast : ℕ → modN.Residue) (sum_bits n m)
  rw [Nat.mod_eq_of_lt small] at sum
  push_cast at sum
  simpa [bitsL] using sum

private theorem ofInt_natCast {k : ℕ} (word : k < 2 ^ 64) : UInt64.ofInt k = .ofNat k := by
  have same : ((k : ℤ) % 2 ^ 64).toNat = k := by omega
  rw [UInt64.ofInt, same]

private theorem bitOf_cases (m i : ℕ) : bitOf m i = 0 ∧ bitsL m i = 0 ∨ bitOf m i = 1 ∧ bitsL m i = 1 := by
  have word : bitOf m i = .ofNat (m / 2 ^ i % 2) := by
    have small : m / 2 ^ i % 2 < 2 ^ 64 := by omega
    rw [← ofInt_natCast small, bitOf, Int.shiftRight_eq_div_pow]
    norm_cast
  rw [word, bitsL]
  rcases Nat.mod_two_eq_zero_or_one (m / 2 ^ i) with zero | one
  · simp [zero]
  · simp [one]

variable {m : ℕ} {al₀ ar₀ : ℕ → Big}

/-- What `compute_al_ar` stores, as residues. -/
theorem compute_al_ar_spec {i : ℕ} (inside : i < 32) :
    (((compute_al_ar m al₀ ar₀ 32).1 i).toNat : modN.Residue) = bitsL m i ∧
      (((compute_al_ar m al₀ ar₀ 32).2 i).toNat : modN.Residue) = bitsR m i := by
  simp only [compute_al_ar, Lanes.store_first inside, bitsR]
  rcases bitOf_cases m i with ⟨word, value⟩ | ⟨word, value⟩
  · have last : (Big.mk (0xBFD25E8CD0364141 - 1) 0xBAAEDCE6AF48A03B 0xFFFFFFFFFFFFFFFE 0xFFFFFFFFFFFFFFFF).toNat + 1 =
        modN.Pa.toNat := by decide
    have minus := congrArg (Nat.cast : ℕ → modN.Residue) last
    rw [Nat.cast_add, ZMod.natCast_self, Nat.cast_one] at minus
    rw [word, value, if_neg (by decide), zero_sub, eq_neg_of_add_eq_zero_left minus]
    exact ⟨by simp [Big.toNat], rfl⟩
  · rw [word, value, if_pos (by decide), sub_self]
    exact ⟨by simp [Big.toNat], by simp [Big.toNat]⟩

theorem trans_to_mon_N_spec :
    Holds (trans_to_mon_N (compute_al_ar m al₀ ar₀ 32)).1 0 (bitsL m) ∧
      Holds (trans_to_mon_N (compute_al_ar m al₀ ar₀ 32)).2 0 (bitsR m) := by
  rw [trans_to_mon_N]
  dsimp only
  refine ⟨Holds.stored fun i inside => ?_, Holds.stored fun i inside => ?_⟩
  · have form := mont_R2modN ((compute_al_ar m al₀ ar₀ 32).1 i)
    rw [(compute_al_ar_spec inside).1] at form
    exact form
  · have form := mont_R2modN ((compute_al_ar m al₀ ar₀ 32).2 i)
    rw [(compute_al_ar_spec inside).2] at form
    exact form

/-- What the flags of the words say about the bit. -/
private theorem compute_al_ar_flags {i : ℕ} (inside : i < 32) :
    ((compute_al_ar m al₀ ar₀ 32).1 i).w0 = 1 ∧ ((compute_al_ar m al₀ ar₀ 32).2 i).w0 = 0 ∧ bitsL m i = 1 ∨
      ((compute_al_ar m al₀ ar₀ 32).1 i).w0 ≠ 1 ∧ ((compute_al_ar m al₀ ar₀ 32).2 i).w0 ≠ 0 ∧ bitsL m i = 0 := by
  simp only [compute_al_ar, Lanes.store_first inside]
  rcases bitOf_cases m i with ⟨word, value⟩ | ⟨word, value⟩
  · refine .inr ⟨?_, ?_, value⟩
    · rw [word]
      decide
    · rw [word, if_neg (by decide)]
      decide
  · refine .inl ⟨word, ?_, value⟩
    rw [word, if_pos (by decide)]

/-! ## The commitments -/

section Commitments

variable {params : BPSetupParams J} {rand : InitParamR} {g g' : ℕ → A}

/-- The generators of a setup in Montgomery form. -/
structure Setup (mon : J → A → Prop) (params : BPSetupParams J) (H : A) (g g' : ℕ → A) : Prop where
  H : mon params.H H
  Gg : ∀ i < 32, mon (params.Gg i) (g i)
  Hh : ∀ i < 32, mon (params.Hh i) (g' i)

theorem commitG1_spec (points : ops.Interprets mon plain G) (blind : mon h H) (small : m < 2 ^ 31) (r : Big) :
    plain (commitG1 ops m r h) ((m : modN.Residue) • G + (r.toNat : modN.Residue) • H) := by
  have value : (Big.mk (.ofInt m) 0 0 0).toNat = m := by
    rw [ofInt_natCast (by omega), Big.toNat, UInt64.toNat_ofNat_of_lt' (by rw [UInt64.size]; omega)]
    simp
  have sum := points.from_mon (points.add (points.mult (Big.mk (.ofInt m) 0 0 0) points.base) (points.mult r blind))
  rw [value] at sum
  rw [Nat.cast_smul_eq_nsmul, Nat.cast_smul_eq_nsmul]
  exact sum

/-- The loop of `cal_A` adds `Gg i` where the bit is set and subtracts `Hh i` where it is not. -/
private theorem foldl_calAStep (points : ops.Interprets mon plain G) (setup : Setup mon params H g g') {ret : J} {P : A}
    (start : mon ret P) {n : ℕ} (inside : n ≤ 32) :
    mon ((List.range n).foldl (calAStep ops params (compute_al_ar m al₀ ar₀ 32).1 (compute_al_ar m al₀ ar₀ 32).2) ret)
      (P + ∑ i ∈ Finset.range n, bitsL m i • g i + ∑ i ∈ Finset.range n, bitsR m i • g' i) := by
  induction n with
  | zero => simpa using start
  | succ n ih =>
    have before := ih (by omega)
    rw [List.range_succ, List.foldl_append, List.foldl_cons, List.foldl_nil, Finset.sum_range_succ, Finset.sum_range_succ,
      calAStep]
    have lane : n < 32 := by omega
    rcases @compute_al_ar_flags m al₀ ar₀ n lane with ⟨set, zero, bit⟩ | ⟨unset, nonzero, bit⟩
    · have after := points.add before (setup.Gg n lane)
      rw [if_pos set, if_neg (not_not.mpr zero), bitsR, bit, sub_self, zero_smul, one_smul, add_zero]
      convert after using 1
      abel
    · have after := points.add before (points.minus (setup.Hh n lane))
      rw [if_neg unset, if_pos nonzero, bitsR, bit, zero_sub, neg_one_smul, zero_smul, add_zero]
      convert after using 1
      abel

theorem cal_A_spec (points : ops.Interprets mon plain G) (setup : Setup mon params H g g') :
    plain (cal_A ops params rand (compute_al_ar m al₀ ar₀ 32).1 (compute_al_ar m al₀ ar₀ 32).2)
      (commit 32 (rand.alpha.toNat : modN.Residue) H (bitsL m) (bitsR m) g g') := by
  have start := points.mult rand.alpha setup.H
  rw [commit, Nat.cast_smul_eq_nsmul]
  exact points.from_mon (foldl_calAStep points setup start le_rfl)

/-- The blinding vectors as residues. -/
def residues (s : ℕ → Big) (i : ℕ) : modN.Residue := (s i).toNat

omit [Module modN.Residue A] in
/-- The second half of the cells starts anew. -/
theorem sum_halves (n : ℕ) (f f' : ℕ → A) : ∑ i ∈ Finset.range (n + n), (if i < n then f i else f' (i - n)) =
    ∑ i ∈ Finset.range n, f i + ∑ i ∈ Finset.range n, f' i := by
  rw [Finset.sum_range_add]
  refine congrArg₂ (· + ·) ?_ ?_
  · exact Finset.sum_congr rfl fun i member => if_pos (Finset.mem_range.mp member)
  · refine Finset.sum_congr rfl fun i _ => ?_
    rw [if_neg (by omega), Nat.add_sub_cancel_left]

/-- The rounds that the second warp has behind it when the lane 0 takes in its sum, of the five in which it adds. -/
def roundsRead (order : Warps.Order 2 6) : ℕ := min 5 (Warps.ahead 0 5 1 order.history)

theorem roundsRead_le (order : Warps.Order 2 6) : roundsRead order ≤ 5 := min_le_left _ _

/-- The terms that are in a sum after some rounds. -/
def gathered (rounds : ℕ) (f : ℕ → modN.Residue) (i : ℕ) : modN.Residue := if i < 2 ^ rounds then f i else 0

/-- A sum over all lanes of the gathered terms, and the terms left out. -/
theorem sum_gathered {rounds : ℕ} (inside : rounds ≤ 5) (f : ℕ → modN.Residue) (P : ℕ → A) :
    ∑ i ∈ Finset.range 32, gathered rounds f i • P i = ∑ i ∈ Finset.range (2 ^ rounds), f i • P i := by
  have fewer : 2 ^ rounds ≤ 32 := Nat.pow_le_pow_right two_pos inside
  rw [← Finset.sum_subset (Finset.range_subset_range.mpr fewer)]
  · refine Finset.sum_congr rfl fun i member => ?_
    rw [gathered, if_pos (Finset.mem_range.mp member)]
  · intro i _ outside
    rw [gathered, if_neg fun below => outside (Finset.mem_range.mpr below), zero_smul]

/-- But for the last round of the first warp, a warp reads its own cells only. -/
private theorem merge_reads {k w : ℕ} (inside : k < 5 ∨ k = 5 ∧ w = 1) :
    Warps.Reads (Warps.cellsOf 32) ∅ w fun _ => Reduction.merge ops.dh_ellipticAdd_JJ 64 (2 ^ k) := by
  intro s s' same c mine
  have agree {c : ℕ} (mine : c / 32 = w) : s c = s' c := same c (.inl mine)
  change c / 32 = w at mine
  simp only [Reduction.merge, agree mine]
  refine if_ctx_congr Iff.rfl ?_ fun _ => rfl
  rintro ⟨below, aligned⟩
  have near : (c + 2 ^ k) / 32 = w := by
    rcases inside with early | ⟨rfl, rfl⟩
    · interval_cases k <;> omega
    · omega
  rw [agree near]

private theorem calSRounds_frames : ∀ statement ∈ calSRounds ops, Warps.Frames (Warps.cellsOf 32) statement := by
  intro statement member
  obtain ⟨_, -, rfl⟩ := List.mem_map.mp member
  exact Warps.part_frames

private theorem calSRounds_getD {k : ℕ} (inside : k < 6) : (calSRounds ops).getD k (fun _ s => s) =
    Warps.part 32 (Reduction.merge ops.dh_ellipticAdd_JJ 64 (2 ^ k)) := by
  interval_cases k <;> rfl

/-- A warp that has taken `n` rounds has its own part of what all lanes have after them in step. -/
private theorem run_calSRounds_turns {history : List ℕ} {w c n : ℕ} (count : history.count w = n)
    (inside : n ≤ 5 ∨ n = 6 ∧ w = 1) (mine : c / 32 = w) (tp : ℕ → J) : Warps.run (calSRounds ops) history tp c =
      (Reduction.doublings n).foldl (fun s i => Reduction.merge ops.dh_ellipticAdd_JJ (2 ^ 6) i s) tp c := by
  have rounds : calSRounds ops = ((Reduction.doublings 6).map fun i =>
      Reduction.merge ops.dh_ellipticAdd_JJ 64 i).map (Warps.part 32) := rfl
  have own {k : ℕ} (less : k < n) := @merge_reads _ ops k w (by omega)
  rw [Warps.run_eq_alone Warps.apart_cellsOf calSRounds_frames _ tp (.inl mine), count, rounds, ← List.map_take,
    ← List.map_take, Reduction.doublings, ← List.map_take, List.take_range, Nat.min_eq_left (by omega),
    Warps.alone_part _ tp mine, List.foldl_map, Reduction.doublings]
  · rfl
  · intro merge member
    simp only [List.map_map, List.mem_map, List.mem_range] at member
    obtain ⟨k, less, rfl⟩ := member
    exact own less
  · intro k less
    rw [calSRounds_getD (by omega)]
    intro s s' same c mine
    rw [Warps.part_own mine, Warps.part_own mine]
    exact own (count ▸ less) s s' same c mine

omit [Module modN.Residue A] in
/-- What the lane 0 finds in its cell: all terms of the first warp, and those that the second one has added up by then. -/
private theorem run_calSRounds (points : ops.Interprets mon plain G) (order : Warps.Order 2 6) {tp : ℕ → J} {f : ℕ → A}
    (lanes : ∀ tx < 64, mon (tp tx) (f tx)) : mon (Warps.run (calSRounds ops) order.history tp 0)
      (∑ i ∈ Finset.range 32, f i + ∑ i ∈ Finset.range (2 ^ roundsRead order), f (32 + i)) := by
  have sums : ∀ p q P Q, mon p P → mon q Q → mon (ops.dh_ellipticAdd_JJ p q) (P + Q) :=
    fun _ _ _ _ left right => points.add left right
  obtain ⟨before, five, others, fewer, cells⟩ :=
    Warps.run_last Warps.apart_cellsOf (@calSRounds_frames _ ops) (order.complete 0 (by norm_num)) tp
  have bound : before.count 1 ≤ 6 := (fewer 1).trans_eq (order.complete 1 (by norm_num))
  have first : mon (Warps.run (calSRounds ops) before tp 0) (∑ i ∈ Finset.range 32, f i) := by
    have tree := Reduction.foldl_merge_aligned sums tp f lanes (Nat.le_succ 5) (Nat.two_pow_pos 6) (Nat.zero_mod _)
    simp only [Nat.zero_add] at tree
    rw [run_calSRounds_turns five (.inl le_rfl) (Nat.zero_div 32)]
    exact tree
  have second : mon (Warps.run (calSRounds ops) before tp 32) (∑ i ∈ Finset.range (2 ^ roundsRead order), f (32 + i)) := by
    have tree := @Reduction.foldl_merge_aligned _ _ _ _ _ sums 6 (roundsRead order) 32 tp f lanes
      ((roundsRead_le order).trans (Nat.le_succ 5)) (by norm_num)
        (Nat.mod_eq_zero_of_dvd (pow_dvd_pow 2 (roundsRead_le order)))
    have same : roundsRead order = min 5 (before.count 1) := by rw [roundsRead, others]
    rw [@run_calSRounds_turns _ ops before 1 32 _ rfl (by omega) rfl]
    rcases Nat.lt_or_ge 5 (before.count 1) with all | some
    · -- in its last round the second warp stores nothing
      have six : before.count 1 = 6 := by omega
      rw [show roundsRead order = 5 by rw [same, six]; rfl] at tree ⊢
      rw [six]
      exact tree
    · rwa [same, Nat.min_eq_right some] at tree ⊢
  rw [cells 0 rfl, calSRounds_getD (by norm_num)]
  exact points.add first second

/-- The second half of the lanes finds `Hh` behind `Gg`. -/
theorem gpu_cal_S_spec (points : ops.Interprets mon plain G) (setup : Setup mon params H g g') (order : Warps.Order 2 6)
    (xyz : ℕ → Big) (a : J) (tp : ℕ → J) : plain (gpu_cal_S ops order params rand xyz a tp).1
      (commit 32 (rand.rho.toNat : modN.Residue) H (residues rand.SL)
        (gathered (roundsRead order) (residues rand.SR)) g g') := by
  obtain ⟨products, start⟩ : ∃ products : ℕ → J, products = Lanes.store 64 0 (fun tx =>
      if tx < 32 then ops.dh_point_mult_finalversion (params.fromGg tx) (rand.SL tx)
      else ops.dh_point_mult_finalversion (params.fromGg tx) (rand.SR (tx - 32))) tp := ⟨_, rfl⟩
  have lanes : ∀ tx < 64, mon (products tx)
      (if tx < 32 then residues rand.SL tx • g tx else residues rand.SR (tx - 32) • g' (tx - 32)) := by
    intro tx inside
    rw [start, Lanes.store_first inside]
    simp only [residues, Nat.cast_smul_eq_nsmul, BPSetupParams.fromGg]
    split
    · exact points.mult _ (setup.Gg tx ‹_›)
    · exact points.mult _ (setup.Hh _ (by omega))
  have tree := run_calSRounds points order lanes
  have blinded := points.from_mon (points.add tree (points.mult rand.rho setup.H))
  rw [commit, add_assoc, add_comm, Nat.cast_smul_eq_nsmul]
  convert blinded using 1
  · simp only [gpu_cal_S, kernel_cal_S, ← start]
    rw [Function.update_self, Function.update_self, Function.update_self, Function.update_of_ne (by decide)]
  · refine congrArg (· + _) (congrArg₂ (· + ·) ?_ ?_)
    · exact Finset.sum_congr rfl fun i member => (if_pos (Finset.mem_range.mp member)).symm
    · rw [sum_gathered (roundsRead_le order)]
      refine Finset.sum_congr rfl fun i _ => ?_
      rw [if_neg (by omega), Nat.add_sub_cancel_left]

/-- What an honest prover sends, and the vectors behind it: points out of Montgomery form, plain numbers, and vectors in
Montgomery form. In the commitment `S` is what the given rounds of the second warp have gathered of `SR`. -/
structure Honest (plain : J → A → Prop) (G H : A) (g g' : ℕ → A) (rand : InitParamR) (rounds m : ℕ) (x y z : modN.Residue)
    (prove : BPProve J) (VLR : ℕ → Big) : Prop where
  V : plain prove.V ((m : modN.Residue) • G + (rand.gamma.toNat : modN.Residue) • H)
  A : plain prove.A (commit 32 (rand.alpha.toNat : modN.Residue) H (bitsL m) (bitsR m) g g')
  S : plain prove.S (commit 32 (rand.rho.toNat : modN.Residue) H (residues rand.SL)
    (gathered rounds (residues rand.SR)) g g')
  T1 : plain prove.T1 (t1 32 (bitsL m) (bitsR m) (residues rand.SL) (residues rand.SR) y z • G +
    (rand.tau1.toNat : modN.Residue) • H)
  T2 : plain prove.T2 (t2 32 (residues rand.SL) (residues rand.SR) y • G + (rand.tau2.toNat : modN.Residue) • H)
  Taux : modN.Plain prove.Taux (x ^ 2 * rand.tau2.toNat + (rand.tau1.toNat * x + z ^ 2 * rand.gamma.toNat))
  Mu : modN.Plain prove.Mu (rand.rho.toNat * x + rand.alpha.toNat)
  Tprime : modN.Plain prove.Tprime (∑ i ∈ Finset.range 32,
    left (bitsL m) (residues rand.SL) x z i * right (bitsR m) (residues rand.SR) x y z i)
  lefts : Holds VLR 0 (left (bitsL m) (residues rand.SL) x z)
  rights : Holds VLR 32 (right (bitsR m) (residues rand.SR) x y z)

/-- The challenges in the first three numbers of `xyz`, in Montgomery form. -/
structure Challenges (xyz : ℕ → Big) (x y z : modN.Residue) : Prop where
  x : modN.Mont (xyz 0) x
  y : modN.Mont (xyz 1) y
  z : modN.Mont (xyz 2) z

/-- The prover's functions make up an honest proof. -/
theorem main_spec (points : ops.Interprets mon plain G) (setup : Setup mon params H g g') (small : m < 2 ^ 31)
    (challenges : Challenges xyz x y z) (order : Warps.Order 2 6) (old : Garbage J) :
    ∃ prove VLR, main ops order params rand m xyz old = some (prove, VLR) ∧
      Honest plain G H g g' rand (roundsRead order) m x y z prove VLR := by
  obtain ⟨al_form, ar_form⟩ := @trans_to_mon_N_spec m old.al old.ar
  obtain ⟨t, ends, sl_form, sr_form, twos, powers, T1, T2⟩ := @kernel_cal_t12_spec J A _ _ ops mon plain G y z
    (bitsL m) (bitsR m) (residues rand.SL) (residues rand.SR) xyz _ _ rand.SL rand.SR rand.tau12 old.z22nyn old.sh_ip
    params.H H points setup.H challenges.y challenges.z al_form ar_form (fun _ => rfl) (fun _ => rfl)
  rw [← Nat.cast_smul_eq_nsmul modN.Residue] at T1 T2
  unfold main
  extract_lets aLR V a S aLR'
  rw [ends, Option.bind_eq_bind, Option.bind_some]
  extract_lets w
  obtain ⟨lefts, rights, Tprime, Taux, Mu⟩ : Holds w.VLR 0 _ ∧ Holds w.VLR 32 _ ∧ modN.Plain w.tprime _ ∧
      modN.Plain w.taux _ ∧ modN.Plain w.mu _ :=
    kernel_cal_vlr_spec challenges.x challenges.z al_form ar_form sl_form sr_form twos powers
  clear_value w
  exact ⟨_, _, rfl, commitG1_spec points setup.H small _, cal_A_spec points setup,
    gpu_cal_S_spec points setup order xyz a old.tp,
    T1, T2, Taux, Mu, Tprime, lefts, rights⟩

end Commitments

end RangeProof

end DbcSnark.Gpuec
