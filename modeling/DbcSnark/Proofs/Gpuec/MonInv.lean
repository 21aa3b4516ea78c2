import DbcSnark.Model.Gpuec.MonInv
import DbcSnark.Proofs.Gpuec.MonMult
import DbcSnark.Proofs.Gpuec.Montgomery
import DbcSnark.ToMathlib.AlmostInverse

/-! # Correctness of the Montgomery inverse

The rounds of the first phase compute the almost inverse on words. A positive `V` keeps both cofactors below the
modulus, so only the last round, which doubles `R`, can lose a bit, and that bit is in `cr`. The second phase divides
the surplus power of two out.
-/

namespace DbcSnark.Gpuec

namespace Wide

/-! ## The functions on words -/

private theorem toNat_halfWord (c a : UInt64) (small : c.toNat ≤ 1) :
    (c <<< 63 ||| a >>> 1).toNat = c.toNat * 2 ^ 63 + a.toNat / 2 := by
  have := a.toNat_lt
  have high : (c <<< 63).toNat = 2 ^ 63 * c.toNat := by
    rw [UInt64.toNat_shiftLeft, show (63 : UInt64).toNat % 64 = 63 from rfl, Nat.shiftLeft_eq]
    omega
  have low : (a >>> 1).toNat = a.toNat / 2 := by
    rw [UInt64.toNat_shiftRight, show (1 : UInt64).toNat % 64 = 1 from rfl, Nat.shiftRight_eq_div_pow, pow_one]
  rw [UInt64.toNat_or, high, low, ← Nat.two_pow_add_eq_or_of_lt (by omega), Nat.mul_comm]

private theorem toNat_lowBit (a : UInt64) : (a &&& 1).toNat = a.toNat % 2 := by
  rw [UInt64.toNat_and, show (1 : UInt64).toNat = 1 from rfl, Nat.and_one_is_mod]

theorem halfRow_spec (A : List UInt64) : (halfRow A).1.length = A.length ∧ (halfRow A).2.toNat = value A % 2 ∧
    value (halfRow A).1 = value A / 2 := by
  induction A with
  | nil => exact ⟨rfl, rfl, rfl⟩
  | cons a A ih =>
    obtain ⟨same, bit, half⟩ := ih
    have word := toNat_halfWord (halfRow A).2 a (by omega)
    rw [halfRow]
    refine ⟨congrArg Nat.succ same, ?_, ?_⟩
    · rw [toNat_lowBit, value]
      omega
    · rw [value, value, word, half, bit]
      have := a.toNat_lt
      omega

private theorem toNat_doubleWord (a c : UInt64) (small : c.toNat ≤ 1) :
    (a <<< 1 ||| c).toNat + 2 ^ 64 * (a >>> 63).toNat = 2 * a.toNat + c.toNat := by
  have := a.toNat_lt
  have high : (a <<< 1).toNat = 2 ^ 1 * (a.toNat % 2 ^ 63) := by
    rw [UInt64.toNat_shiftLeft, show (1 : UInt64).toNat % 64 = 1 from rfl, Nat.shiftLeft_eq]
    omega
  rw [UInt64.toNat_or, high, ← Nat.two_pow_add_eq_or_of_lt (by omega), UInt64.toNat_shiftRight,
    show (63 : UInt64).toNat % 64 = 63 from rfl, Nat.shiftRight_eq_div_pow]
  omega

theorem doubleRow_spec (c : UInt64) (A : List UInt64) (small : c.toNat ≤ 1) :
    (doubleRow c A).1.length = A.length ∧ (doubleRow c A).2.toNat ≤ 1 ∧
      value (doubleRow c A).1 + radix A.length * (doubleRow c A).2.toNat = 2 * value A + c.toNat := by
  induction A generalizing c with
  | nil => exact ⟨rfl, small, by simp [doubleRow, value, radix]⟩
  | cons a A ih =>
    have carry : (a >>> 63).toNat ≤ 1 := by
      have := a.toNat_lt
      rw [UInt64.toNat_shiftRight, show (63 : UInt64).toNat % 64 = 63 from rfl, Nat.shiftRight_eq_div_pow]
      omega
    obtain ⟨same, last, rest⟩ := ih (a >>> 63) carry
    have word := toNat_doubleWord a c small
    rw [doubleRow]
    refine ⟨congrArg Nat.succ same, last, ?_⟩
    rw [value, value, List.length_cons, radix_succ]
    linear_combination 2 ^ 64 * rest + word

theorem addRow_spec (c : UInt64) {A B : List UInt64} (length : A.length = B.length) (small : c.toNat ≤ 1) :
    (addRow c A B).1.length = A.length ∧ (addRow c A B).2.toNat ≤ 1 ∧
      value (addRow c A B).1 + radix A.length * (addRow c A B).2.toNat = value A + value B + c.toNat := by
  induction A generalizing B c with
  | nil =>
    cases List.eq_nil_of_length_eq_zero length.symm
    exact ⟨rfl, small, by simp [addRow, value, radix]⟩
  | cons a A ih =>
    cases B with
    | nil => cases length
    | cons b B =>
      obtain ⟨line, carry⟩ := addCarry_spec a b c small
      obtain ⟨same, last, rest⟩ := ih (addCarry a b c).2 (Nat.succ.inj length) carry
      rw [addRow]
      refine ⟨congrArg Nat.succ same, last, ?_⟩
      rw [value, value, value, List.length_cons, radix_succ]
      linear_combination 2 ^ 64 * rest + line

/-- The comparison of the numbers. -/
theorem compare_spec {A B : List UInt64} (length : A.length = B.length) :
    (dh_mybig_compare_64 A B = 1 ∧ value B < value A) ∨ (dh_mybig_compare_64 A B = 0 ∧ value A = value B) ∨
      (dh_mybig_compare_64 A B = -1 ∧ value A < value B) := by
  induction A generalizing B with
  | nil =>
    cases List.eq_nil_of_length_eq_zero length.symm
    exact .inr (.inl ⟨rfl, rfl⟩)
  | cons a A ih =>
    cases B with
    | nil => cases length
    | cons b B =>
      have := a.toNat_lt
      have := b.toNat_lt
      rw [dh_mybig_compare_64, value, value]
      rcases ih (Nat.succ.inj length) with ⟨flag, less⟩ | ⟨flag, same⟩ | ⟨flag, less⟩
      · rw [flag, if_pos one_ne_zero]
        exact .inl ⟨rfl, by omega⟩
      · rw [flag, if_neg (not_not.mpr rfl), same]
        split_ifs with above below
        · exact .inl ⟨rfl, Nat.add_lt_add_right (UInt64.lt_iff_toNat_lt.mp above) _⟩
        · exact .inr (.inr ⟨rfl, Nat.add_lt_add_right (UInt64.lt_iff_toNat_lt.mp below) _⟩)
        · rw [gt_iff_lt, UInt64.lt_iff_toNat_lt] at above
          rw [UInt64.lt_iff_toNat_lt] at below
          exact .inr (.inl ⟨rfl, by omega⟩)
      · rw [flag, if_pos (by decide)]
        exact .inr (.inr ⟨rfl, by omega⟩)

theorem iszero_64_iff (A : List UInt64) : dh_mybig_iszero_64 A = true ↔ value A = 0 := by
  induction A with
  | nil => exact iff_of_true rfl rfl
  | cons a A ih =>
    rw [dh_mybig_iszero_64, List.all_cons, Bool.and_eq_true, beq_iff_eq, ← UInt64.toNat_inj, UInt64.toNat_zero, value]
    rw [dh_mybig_iszero_64] at ih
    rw [ih]
    omega

theorem lowBit_iff (A : List UInt64) : A.headD 0 &&& 1 = 0 ↔ value A % 2 = 0 := by
  cases A with
  | nil => exact iff_of_true rfl rfl
  | cons a A =>
    rw [List.headD_cons, ← UInt64.toNat_inj, toNat_lowBit, value, UInt64.toNat_zero]
    omega

private theorem exact_of_lt {w c t n : ℕ} (sum : w + radix n * c = t) (fits : t < radix n) : w = t := by
  rcases Nat.eq_zero_or_pos c with rfl | some
  · exact sum
  · have := Nat.le_mul_of_pos_right (radix n) some
    omega

section Sizes

variable {A B : List UInt64} {n : ℕ} (sizeA : A.length = n) (sizeB : B.length = n)
include sizeA

theorem half_spec : (dh_mybig_half_64 A).length = n ∧ value (dh_mybig_half_64 A) = value A / 2 :=
  ⟨(halfRow_spec A).1.trans sizeA, (halfRow_spec A).2.2⟩

theorem double_spec : (dh_mybig_double_64 A).1.length = n ∧ (dh_mybig_double_64 A).2.toNat ≤ 1 ∧
    value (dh_mybig_double_64 A).1 + radix n * (dh_mybig_double_64 A).2.toNat = 2 * value A := by
  have spec := doubleRow_spec 0 A (by decide)
  rwa [sizeA] at spec

theorem double_exact (fits : 2 * value A < radix n) : value (dh_mybig_double_64 A).1 = 2 * value A :=
  exact_of_lt (double_spec sizeA).2.2 fits

include sizeB

theorem add_spec : (dh_mybig_add_64 A B).1.length = n ∧
    (value A + value B < radix n → value (dh_mybig_add_64 A B).1 = value A + value B) := by
  obtain ⟨same, -, sum⟩ := addRow_spec 0 (sizeA.trans sizeB.symm) (by decide)
  rw [sizeA] at sum
  exact ⟨same.trans sizeA, fun fits => exact_of_lt sum fits⟩

theorem sub_spec : (dh_mybig_sub_64 A B).length = n ∧
    (value B ≤ value A → value (dh_mybig_sub_64 A B) = value A - value B) := by
  have difference := value_sub_64 (sizeA.trans sizeB.symm)
  have bound := value_lt A
  rw [sizeA] at difference bound
  refine ⟨(subRow_spec 1 (sizeA.trans sizeB.symm) (by decide)).1.trans sizeA, fun fits => ?_⟩
  rw [difference, Nat.sub_add_comm fits, Nat.add_mod_right, Nat.mod_eq_of_lt (by omega)]

end Sizes

/-! ## The first phase -/

open AlmostInverse (Inv)

/-- The variables hold the numbers of the almost inverse after `k` rounds; the bit that `R` may lack is in `cr`. -/
structure Inversion.Holds (n : ℕ) (x : Inversion) (y : AlmostInverse.State) : Prop where
  sizeU : x.U.length = n
  sizeV : x.V.length = n
  sizeR : x.R.length = n
  sizeS : x.S.length = n
  u : value x.U = y.u
  v : value x.V = y.v
  s : value x.S = y.s
  r : 0 < y.v → value x.R = y.r
  last : y.v = 0 → ∃ c, x.cr = some c ∧ c.toNat ≤ 1 ∧ value x.R + radix n * c.toNat = y.r

namespace Inversion

variable {n P A k : ℕ} {x : Inversion} {y : AlmostInverse.State}

/-- A round computes a round of the almost inverse. -/
theorem Holds.round (holds : x.Holds n y) (fits : P < radix n) (inv : Inv P A k y) (right : 0 < y.v) :
    x.round.Holds n (AlmostInverse.step y) := by
  obtain ⟨sizeU, sizeV, sizeR, sizeS, u, v, s, r, -⟩ := holds
  have next := inv.step right
  have first : 0 < (AlmostInverse.step y).v → (AlmostInverse.step y).r < radix n :=
    fun pos => lt_of_le_of_lt (next.first_le pos) fits
  have second : (AlmostInverse.step y).s < radix n := lt_of_le_of_lt next.second_le fits
  have evenU := lowBit_iff x.U
  have evenV := lowBit_iff x.V
  have compare := compare_spec (sizeU.trans sizeV.symm)
  rw [u] at evenU compare
  rw [v] at evenV compare
  have r := r right
  rw [Inversion.round]
  rcases AlmostInverse.step_cases inv.left_pos right with ⟨h, pos, even, step⟩ | ⟨h, pos, odd, even, step⟩ |
    ⟨h, pos, odd, odd', above, step⟩ | ⟨h, odd, odd', below, step⟩
  · rw [step] at first second ⊢
    rw [if_pos (evenU.mpr (by omega))]
    refine ⟨(half_spec sizeU).1, sizeV, sizeR, (double_spec sizeS).1, ?_, v, ?_, fun _ => r, fun zero => ?_⟩
    · rw [(half_spec sizeU).2, u, even]
      exact Nat.mul_div_cancel_left h Nat.two_pos
    · rw [double_exact sizeS (by rwa [s]), s]
    · exact absurd zero right.ne'
  · rw [step] at first second ⊢
    rw [if_neg (mt evenU.mp (by omega)), if_pos (evenV.mpr (by omega))]
    refine ⟨sizeU, (half_spec sizeV).1, (double_spec sizeR).1, sizeS, u, ?_, s, fun _ => ?_, fun zero => ?_⟩
    · rw [(half_spec sizeV).2, v, even]
      exact Nat.mul_div_cancel_left h Nat.two_pos
    · rw [double_exact sizeR (by rw [r]; exact first pos), r]
    · exact absurd zero pos.ne'
  · rw [step] at first second ⊢
    have cp : dh_mybig_compare_64 x.U x.V = 1 := by omega
    have sub := sub_spec sizeU sizeV
    have difference := sub.2 (by omega)
    have add := add_spec sizeR sizeS
    rw [if_neg (mt evenU.mp (by omega)), if_neg (mt evenV.mp (by omega)), if_pos cp]
    refine ⟨(half_spec sub.1).1, sizeV, add.1, (double_spec sizeS).1, ?_, v, ?_, fun _ => ?_, fun zero => ?_⟩
    · rw [(half_spec sub.1).2, difference, u, v, above, Nat.add_sub_cancel_left]
      exact Nat.mul_div_cancel_left h Nat.two_pos
    · rw [double_exact sizeS (by rwa [s]), s]
    · rw [add.2 (by rw [r, s]; exact first right), r, s]
    · exact absurd zero right.ne'
  · rw [step] at first second ⊢
    have cp : dh_mybig_compare_64 x.U x.V ≠ 1 := by omega
    have sub := sub_spec sizeV sizeU
    have difference := sub.2 (by omega)
    have add := add_spec sizeS sizeR
    have double := double_spec sizeR
    rw [if_neg (mt evenU.mp (by omega)), if_neg (mt evenV.mp (by omega)), if_neg cp]
    refine ⟨sizeU, (half_spec sub.1).1, double.1, add.1, u, ?_, ?_, fun pos => ?_, fun _ => ⟨_, rfl, double.2.1, ?_⟩⟩
    · rw [(half_spec sub.1).2, difference, u, v, below, Nat.add_sub_cancel_left]
      exact Nat.mul_div_cancel_left h Nat.two_pos
    · rw [add.2 (by rw [r, s]; exact second), r, s]
    · rw [double_exact sizeR (by rw [r]; exact first pos), r]
    · rw [double.2.2, r]

theorem round_k (x : Inversion) : x.round.k = x.k + 1 := by
  rw [Inversion.round]
  split_ifs <;> rfl

theorem iterate_round_k (x : Inversion) (k : ℕ) : (Inversion.round^[k] x).k = x.k + k := by
  induction k with
  | zero => rfl
  | succ k ih => rw [Function.iterate_succ_apply', round_k, ih, Nat.add_assoc]

/-- The loop stops after the first rounds that leave `V` zero. -/
theorem phaseI_eq {fuel k : ℕ} (enough : k ≤ fuel)
    (before : ∀ j < k, dh_mybig_iszero_64 (Inversion.round^[j] x).V = false)
    (zero : dh_mybig_iszero_64 (Inversion.round^[k] x).V = true) :
    phaseI fuel x = some (Inversion.round^[k] x) := by
  induction fuel generalizing x k with
  | zero =>
    obtain rfl := Nat.le_zero.mp enough
    exact if_pos zero
  | succ fuel ih =>
    cases k with
    | zero => exact if_pos zero
    | succ k =>
      have first := before 0 (Nat.succ_pos k)
      rw [Function.iterate_zero_apply] at first
      rw [phaseI, first, if_neg Bool.false_ne_true]
      refine ih (Nat.le_of_succ_le_succ enough) (fun j below => ?_) zero
      exact before (j + 1) (Nat.succ_lt_succ below)

end Inversion

/-! ## The whole function -/

theorem value_single (n i : ℕ) (w : UInt64) (inside : i < n) :
    value ((List.replicate n 0).set i w) = radix i * w.toNat := by
  induction n generalizing i with
  | zero => exact absurd inside (Nat.not_lt_zero i)
  | succ n ih =>
    rw [List.replicate_succ]
    cases i with
    | zero =>
      rw [List.set_cons_zero, value, value_replicate_zero, radix, Nat.mul_zero, Nat.mul_zero, Nat.pow_zero, Nat.one_mul,
        Nat.add_zero]
    | succ i =>
      rw [List.set_cons_succ, value, ih i (Nat.lt_of_succ_lt_succ inside), radix_succ, UInt64.toNat_zero, Nat.zero_add,
        Nat.mul_assoc]

/-- The power of two that the second phase writes. -/
theorem value_power {n e : ℕ} (inside : e < 64 * n) :
    value ((List.replicate n (0 : UInt64)).set (e / 64) (1 <<< UInt64.ofNat (e % 64))) = 2 ^ e := by
  have amount : (UInt64.ofNat (e % 64)).toNat % 64 = e % 64 := by
    rw [UInt64.toNat_ofNat']
    omega
  have small : 2 ^ (e % 64) < 2 ^ 64 := Nat.pow_lt_pow_right (by decide) (Nat.mod_lt e (by decide))
  rw [value_single _ _ _ (by omega), UInt64.toNat_shiftLeft, amount, UInt64.toNat_one, Nat.shiftLeft_eq, Nat.one_mul,
    Nat.mod_eq_of_lt small, radix, ← Nat.pow_add, Nat.div_add_mod]

section Inverse

variable {P A : List UInt64}

/-- What the Montgomery inversion of words is to find: the one number whose product is the weight of the words. -/
structure IsInverse (R P a c : ℕ) : Prop where
  reduced : c < P
  product : a * c ≡ R [MOD P]

variable (length : A.length = P.length) (small : value A < value P) (coprime : (value P).Coprime (value A))
  (odd : Nat.Coprime 2 (value P)) (large : 1 < value P)
include length coprime large

private theorem initial_holds :
    (Inversion.initial P A).Holds P.length (AlmostInverse.start (value P) (value A)) where
  sizeU := rfl
  sizeV := length
  sizeR := List.length_replicate
  sizeS := by
    cases P with
    | nil => exact absurd large (Nat.not_lt_zero 1)
    | cons p P => rw [Inversion.initial, List.length_cons, List.length_replicate, List.length_cons, Nat.add_sub_cancel]
  u := rfl
  v := rfl
  s := by rw [Inversion.initial, value, value_replicate_zero]; rfl
  r _ := value_replicate_zero _
  last zero := by
    change value A = 0 at zero
    rw [zero, Nat.coprime_zero_right] at coprime
    omega

/-- Before the `k`-th round the variables hold the numbers of the almost inverse. -/
theorem holds_iterate {k : ℕ} (before : ∀ j < k, 0 < (AlmostInverse.step^[j] (AlmostInverse.start (value P) (value A))).v) :
    (Inversion.round^[k] (.initial P A)).Holds P.length
      (AlmostInverse.step^[k] (AlmostInverse.start (value P) (value A))) := by
  induction k with
  | zero => exact initial_holds length coprime large
  | succ k ih =>
    have earlier : ∀ j < k, 0 < (AlmostInverse.step^[j] (AlmostInverse.start (value P) (value A))).v :=
      fun j below => before j (Nat.lt_succ_of_lt below)
    rw [Function.iterate_succ_apply', Function.iterate_succ_apply']
    exact (ih earlier).round (value_lt P) (AlmostInverse.inv_iterate (by omega) coprime earlier)
      (before k (Nat.lt_succ_self k))

include small

/-- The first phase ends after `k` rounds, where `2 ^ k` lies between the modulus and the square of the weight. -/
theorem phaseI_spec : ∃ k ≤ 2 * (64 * P.length),
    (∀ j < k, 0 < (AlmostInverse.step^[j] (AlmostInverse.start (value P) (value A))).v) ∧
    (AlmostInverse.step^[k] (AlmostInverse.start (value P) (value A))).v = 0 ∧
    Inversion.phaseI (2 * (64 * P.length)) (.initial P A) = some (Inversion.round^[k] (.initial P A)) ∧
    (Inversion.round^[k] (.initial P A)).k = k ∧ value P < 2 ^ k := by
  have bound := value_lt P
  have bits : value P * value A < 2 ^ (2 * (64 * P.length)) := by
    rw [Nat.mul_comm 2, pow_mul, sq]
    exact Nat.mul_lt_mul'' bound (small.trans bound)
  obtain ⟨k, enough, before, zero⟩ := AlmostInverse.exists_last (by omega) coprime bits
  have inv := AlmostInverse.inv_iterate (by omega) coprime before
  refine ⟨k, enough, before, zero, ?_, ?_, ?_⟩
  · refine Inversion.phaseI_eq enough (fun j below => ?_) ?_
    · have earlier := holds_iterate length coprime large fun i less => before i (less.trans below)
      rw [← Bool.not_eq_true, iszero_64_iff, earlier.v]
      exact (before j below).ne'
    · rw [iszero_64_iff, (holds_iterate length coprime large before).v, zero]
  · rw [Inversion.iterate_round_k, Inversion.initial, Nat.zero_add]
  · have kept := (inv.last zero).1
    have positive : 0 < value A := by
      refine Nat.pos_of_ne_zero fun none => ?_
      rw [none, Nat.coprime_zero_right] at coprime
      omega
    omega

end Inverse

/-- The lines behind the loop take the modulus off where it fits, also when `cr` holds the top bit. -/
theorem reduce_eq {P : List UInt64} {x : Inversion} {y : AlmostInverse.State} (holds : x.Holds P.length y)
    (zero : y.v = 0) (below : y.r < 2 * value P) :
    ∃ R, x.reduce P = some R ∧ R.length = P.length ∧ value R = value P - y.r % value P := by
  obtain ⟨c, cr, bit, last⟩ := holds.last zero
  have bound := value_lt P
  have words := value_lt x.R
  rw [holds.sizeR] at words
  have carried : c = 1 ↔ c.toNat = 1 := UInt64.toNat_inj.symm
  have whole : c = 1 ∧ y.r = value x.R + radix P.length ∨ c ≠ 1 ∧ y.r = value x.R := by
    obtain none | one : c.toNat = 0 ∨ c.toNat = 1 := by omega
    · exact .inr ⟨fun same => absurd (carried.mp same) (by omega), by rw [← last, none, Nat.mul_zero, Nat.add_zero]⟩
    · exact .inl ⟨carried.mpr one, by rw [← last, one, Nat.mul_one]⟩
  have kept : value x.R ≤ y.r := last ▸ Nat.le_add_right _ _
  clear last
  have decision : (if dh_mybig_compare_64 x.R P = 1 ∨ dh_mybig_compare_64 x.R P = 0 then some true
      else x.cr.map fun c => decide (c = 1)) = some (decide (value P ≤ y.r)) := by
    rcases compare_spec holds.sizeR with ⟨flag, above⟩ | ⟨flag, same⟩ | ⟨flag, less⟩
    · rw [flag, if_pos (.inl rfl), decide_eq_true (by omega)]
    · rw [flag, if_pos (.inr rfl), decide_eq_true (by omega)]
    · rw [flag, if_neg (by decide), cr, Option.map_some]
      rcases whole with ⟨one, sum⟩ | ⟨none, same⟩
      · rw [decide_eq_true one, decide_eq_true (by omega)]
      · rw [decide_eq_false none, decide_eq_false (by omega)]
  have difference := value_sub_64 (A := x.R) (B := P) holds.sizeR
  rw [holds.sizeR] at difference
  have taken := sub_spec holds.sizeR (B := P) rfl
  have body : x.reduce P = some (dh_mybig_sub_64 P (if value P ≤ y.r then dh_mybig_sub_64 x.R P else x.R)) := by
    rw [Inversion.reduce]
    simp only [decision, Option.bind_eq_bind, Option.bind_some, decide_eq_true_eq]
    rfl
  have reduced : (if value P ≤ y.r then dh_mybig_sub_64 x.R P else x.R).length = P.length ∧
      value (if value P ≤ y.r then dh_mybig_sub_64 x.R P else x.R) = y.r % value P := by
    split
    · refine ⟨taken.1, ?_⟩
      rw [Nat.mod_eq_sub_mod (by omega), Nat.mod_eq_of_lt (by omega), difference]
      rcases whole with ⟨-, sum⟩ | ⟨-, same⟩
      · rw [← sum, Nat.mod_eq_of_lt (by omega)]
      · rw [← same, Nat.sub_add_comm (by omega), Nat.add_mod_right, Nat.mod_eq_of_lt (by omega)]
    · refine ⟨holds.sizeR, ?_⟩
      rw [Nat.mod_eq_of_lt (by omega)]
      omega
  have negated := sub_spec (A := P) rfl reduced.1
  refine ⟨_, body, negated.1, ?_⟩
  rw [negated.2 (by rw [reduced.2]; exact (Nat.mod_lt _ (by omega)).le), reduced.2]

section Inverse

variable {P A : List UInt64} {minv : UInt64} {even : List UInt64 → List UInt64}
  (inverse : minv * P.headD 0 + 1 = 0) (large : 1 < value P) (high : radix P.length ≤ 2 * value P)
  (same : ∀ R : List UInt64, R.length = P.length → value R < value P → even R = R)
  (length : A.length = P.length) (small : value A < value P) (coprime : (value P).Coprime (value A))
include inverse large high same length small coprime

/-- The Montgomery inverse of a number that has an inverse. -/
theorem moninv_spec : ∃ C, moninv P minv even A = some C ∧ C.length = P.length ∧
    IsInverse (radix P.length) (value P) (value A) (value C) := by
  have odd : Nat.Coprime 2 (value P) := Nat.coprime_two_left.mpr (Nat.odd_iff.mpr (odd inverse))
  obtain ⟨k, enough, before, zero, loop, count, lower⟩ := phaseI_spec length small coprime large
  have inv := AlmostInverse.inv_iterate (by omega) coprime before
  have holds := holds_iterate length coprime large before
  obtain ⟨R, reduced, size, number⟩ := reduce_eq holds zero inv.below
  obtain ⟨nonzero, product⟩ := inv.result zero odd large
  rw [← number] at product
  have below : value R < value P := by
    have := Nat.mod_lt (AlmostInverse.step^[k] (AlmostInverse.start (value P) (value A))).r (Nat.lt_of_succ_lt large)
    omega
  have bits : 64 * P.length ≤ k := by
    have : radix P.length < 2 ^ (k + 1) := by
      rw [pow_succ]
      omega
    have := (Nat.pow_lt_pow_iff_right (by decide)).mp this
    omega
  have body : moninv P minv even A = phaseII P minv even R k := by
    rw [moninv, loop]
    simp only [Option.bind_eq_bind, Option.bind_some, reduced, count]
  rw [body, phaseII]
  rcases Nat.lt_or_eq_of_le bits with more | exactly
  · have power := value_power (n := P.length) (e := 2 * (64 * P.length) - k) (by omega)
    have sizeV : ((List.replicate P.length (0 : UInt64)).set ((2 * (64 * P.length) - k) / 64)
        (1 <<< UInt64.ofNat ((2 * (64 * P.length) - k) % 64))).length = P.length := by
      rw [List.length_set, List.length_replicate]
    have quotient := isQuotient inverse size sizeV (.inl below)
    rw [if_pos more, if_pos enough]
    refine ⟨_, rfl, length_quotientWords inverse size, quotient.reduced, ?_⟩
    have cancel := quotient.product
    rw [power, ← ZMod.natCast_eq_natCast_iff] at cancel
    refine Nat.ModEq.cancel_right_of_coprime (c := radix P.length) (Nat.Coprime.pow_right _ odd.symm) ?_
    rw [← ZMod.natCast_eq_natCast_iff]
    have powers : (2 : ZMod (value P)) ^ k * 2 ^ (2 * (64 * P.length) - k) = 2 ^ (64 * P.length) * 2 ^ (64 * P.length) := by
      rw [← pow_add, ← pow_add]
      congr 1
      omega
    push_cast at cancel ⊢
    linear_combination (value A : ZMod (value P)) * cancel + 2 ^ (2 * (64 * P.length) - k) * product + powers
  · rw [if_neg (by omega), if_pos exactly.symm, same R size below]
    refine ⟨R, rfl, size, below, ?_⟩
    rw [← ZMod.natCast_eq_natCast_iff]
    push_cast
    rw [product, ← exactly]

end Inverse

end Wide

/-! ## Four words -/

theorem Big.words_ofWords {X : List UInt64} (length : X.length = 4) : (ofWords X).words = X := by
  obtain ⟨w0, w1, w2, w3, rfl⟩ := List.length_eq_four.mp length
  rfl

namespace Modulus

variable {M : Modulus}

theorem toNat_moninv (A : Big) (small : A.toNat < M.Pa.toNat) (coprime : M.Pa.toNat.Coprime A.toNat) :
    ∃ C, M.moninv A = some C ∧ Wide.IsInverse (2 ^ 256) M.Pa.toNat A.toNat C.toNat := by
  have high := M.high
  have same (R : List UInt64) (_ : R.length = M.Pa.words.length) (_ : Wide.value R < Wide.value M.Pa.words) : id R = R := rfl
  obtain ⟨X, found, length, inverse⟩ := Wide.moninv_spec (P := M.Pa.words) (A := A.words) M.inverse
    (by rw [Big.value_words]; omega) (by rw [Big.value_words]; change 2 ^ 256 ≤ _; omega) same rfl small coprime
  refine ⟨.ofWords X, by rw [moninv, found, Option.map_some], ?_⟩
  rwa [← Big.value_words (Big.ofWords X), Big.words_ofWords length]

section Prime

variable [prime : Fact M.Pa.toNat.Prime] {v : Big} {a : M.Residue}

private theorem exists_moninv (small : v.toNat < M.Pa.toNat) (nonzero : (v.toNat : M.Residue) ≠ 0) :
    ∃ C, M.moninv v = some C ∧ C.toNat < M.Pa.toNat ∧ (v.toNat * C.toNat : M.Residue) = 2 ^ 256 := by
  have coprime : M.Pa.toNat.Coprime v.toNat := by
    rw [prime.out.coprime_iff_not_dvd, ← ZMod.natCast_eq_zero_iff]
    exact nonzero
  obtain ⟨C, found, reduced, product⟩ := toNat_moninv v small coprime
  have cast := (ZMod.natCast_eq_natCast_iff _ _ _).mpr product
  rw [Nat.cast_mul, Nat.cast_pow, Nat.cast_ofNat] at cast
  exact ⟨C, found, reduced, cast⟩

/-- The inverse of a plain number comes out in Montgomery form. -/
theorem Plain.moninv (holds : M.Plain v a) (nonzero : a ≠ 0) : ∃ C, M.moninv v = some C ∧ M.Mont C a⁻¹ := by
  obtain ⟨C, found, reduced, product⟩ := exists_moninv holds.reduced (holds.value ▸ nonzero)
  rw [holds.value] at product
  refine ⟨C, found, reduced, ?_⟩
  rw [← product, inv_mul_cancel_left₀ nonzero]

/-- The inverse of a number in Montgomery form comes out plain. -/
theorem Mont.moninv (holds : M.Mont v a) (nonzero : a ≠ 0) : ∃ C, M.moninv v = some C ∧ M.Plain C a⁻¹ := by
  have radix := M.isUnit_radix.ne_zero
  obtain ⟨C, found, reduced, product⟩ := exists_moninv holds.reduced (holds.value ▸ mul_ne_zero nonzero radix)
  rw [holds.value] at product
  refine ⟨C, found, reduced, eq_inv_of_mul_eq_one_right ?_⟩
  exact mul_right_cancel₀ radix (by linear_combination product)

end Prime

end Modulus

end DbcSnark.Gpuec
