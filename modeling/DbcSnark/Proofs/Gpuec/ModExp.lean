import DbcSnark.Model.Gpuec.ModExp
import DbcSnark.Proofs.Gpuec.InPlace
import DbcSnark.Proofs.Gpuec.Montgomery
import DbcSnark.ToMathlib.Loops

/-! # Correctness of the Montgomery exponentiation

The local array holds the power of the base for the bits of the exponent read so far: squaring and multiplying
appends a bit, the loop over the bits of a word appends the word, and the leading one is appended before the loops
start.
-/

namespace DbcSnark.Gpuec

/-! ## The bits of an exponent -/

theorem toNat_bitAt (w : UInt64) {j : ℕ} (inside : j < 64) : (bitAt w j).toNat = w.toNat / 2 ^ j % 2 := by
  have shift : (UInt64.ofNat j).toNat % 64 = j := by
    rw [UInt64.toNat_ofNat']
    omega
  rw [bitAt, UInt64.toNat_and, UInt64.toNat_shiftRight, shift, show (1 : UInt64).toNat = 1 from rfl,
    Nat.and_one_is_mod, Nat.shiftRight_eq_div_pow]

theorem bitAt_eq_one_iff (w : UInt64) {j : ℕ} (inside : j < 64) : bitAt w j = 1 ↔ w.toNat / 2 ^ j % 2 = 1 := by
  rw [← UInt64.toNat_inj, toNat_bitAt w inside, show (1 : UInt64).toNat = 1 from rfl]

theorem bitAt_ne_zero_iff (w : UInt64) {j : ℕ} (inside : j < 64) : bitAt w j ≠ 0 ↔ w.toNat.testBit j = true := by
  rw [ne_eq, ← UInt64.toNat_inj, toNat_bitAt w inside, show (0 : UInt64).toNat = 0 from rfl,
    Nat.testBit_eq_decide_div_mod_eq, decide_eq_true_eq]
  omega

/-- The search from the top finds the last index with the property. -/
private theorem find_reverse_range (test : ℕ → Bool) (n : ℕ) :
    (∃ i < n, (List.range n).reverse.find? test = some i ∧ test i = true ∧ ∀ j < n, i < j → test j = false) ∨
      ∀ j < n, test j = false := by
  induction n with
  | zero => exact .inr fun j bound => absurd bound (Nat.not_lt_zero j)
  | succ n ih =>
    rw [List.range_succ, List.reverse_append, List.reverse_singleton, List.singleton_append, List.find?_cons]
    cases top : test n with
    | true => exact .inl ⟨n, Nat.lt_succ_self n, rfl, top, fun j bound above => by omega⟩
    | false =>
      rcases ih with ⟨i, bound, found, hit, above⟩ | none
      · refine .inl ⟨i, by omega, found, hit, fun j inside later => ?_⟩
        rcases Nat.lt_succ_iff_lt_or_eq.mp inside with lower | rfl
        · exact above j lower later
        · exact top
      · refine .inr fun j inside => ?_
        rcases Nat.lt_succ_iff_lt_or_eq.mp inside with lower | rfl
        · exact none j lower
        · exact top

/-- The leading bit of a nonzero word. -/
theorem leadingBit_spec {w : UInt64} {width : ℕ} (narrow : width ≤ 64) (bound : w.toNat < 2 ^ width)
    (nonzero : 0 < w.toNat) : ∃ j < width, leadingBit w width = some j ∧ w.toNat / 2 ^ j = 1 := by
  have below : ∀ n, (∀ j < width, n ≤ j → decide (bitAt w j ≠ 0) = false) → w.toNat < 2 ^ n := by
    intro n clear
    apply Nat.lt_pow_two_of_testBit
    intro j above
    rcases Nat.lt_or_ge j width with inside | outside
    · have zero := clear j inside above
      rwa [decide_eq_false_iff_not, bitAt_ne_zero_iff w (inside.trans_le narrow), Bool.not_eq_true] at zero
    · exact Nat.testBit_lt_two_pow (bound.trans_le (Nat.pow_le_pow_right (by norm_num) outside))
  rcases find_reverse_range (fun j => decide (bitAt w j ≠ 0)) width with ⟨j, inside, found, hit, above⟩ | none
  · refine ⟨j, inside, found, ?_⟩
    have small := below (j + 1) fun i bound later => above i bound later
    rw [decide_eq_true_eq, bitAt_ne_zero_iff w (inside.trans_le narrow), Nat.testBit_eq_decide_div_mod_eq,
      decide_eq_true_eq] at hit
    rw [pow_succ] at small
    have quotient : w.toNat / 2 ^ j < 2 := Nat.div_lt_of_lt_mul small
    generalize w.toNat / 2 ^ j = q at quotient hit ⊢
    omega
  · have small := below 0 fun j inside _ => none j inside
    omega

/-! ## The words of an exponent -/

/-- The number in the words `i - 1, ..., 0`. -/
def Big.low (k : Big) (i : ℕ) : ℕ := ∑ l ∈ Finset.range i, (k.word l).toNat * (2 ^ 64) ^ l

private theorem low_four (k : Big) : k.low 4 = k.toNat := by
  simp only [Big.low, Finset.sum_range_succ, Finset.sum_range_zero, Big.word, Big.toNat]
  ring

theorem low_succ (k : Big) (i : ℕ) : k.low (i + 1) = k.low i + (k.word i).toNat * (2 ^ 64) ^ i :=
  Finset.sum_range_succ _ i

/-- The leading word of a nonzero exponent. -/
theorem leadingWord_spec {k : Big} (nonzero : 0 < k.toNat) :
    ∃ i, leadingWord k = some i ∧ 0 < (k.word i).toNat ∧ k.low (i + 1) = k.toNat := by
  have clear : ∀ n ≤ 4, (∀ i < 4, n ≤ i → decide (k.word i ≠ 0) = false) → k.low n = k.toNat := by
    intro n bound zero
    rw [← low_four]
    apply Finset.sum_subset (Finset.range_subset_range.mpr bound)
    intro i inside outside
    rw [Finset.mem_range] at inside outside
    have word := zero i inside (not_lt.mp outside)
    rw [decide_eq_false_iff_not, not_not] at word
    rw [word, show (0 : UInt64).toNat = 0 from rfl, Nat.zero_mul]
  rcases find_reverse_range (fun i => decide (k.word i ≠ 0)) 4 with ⟨i, inside, found, hit, above⟩ | none
  · refine ⟨i, found, ?_, clear (i + 1) inside fun j bound later => above j bound later⟩
    rw [decide_eq_true_eq, ne_eq, ← UInt64.toNat_inj, show (0 : UInt64).toNat = 0 from rfl] at hit
    exact Nat.pos_of_ne_zero hit
  · have zero : k.low 0 = k.toNat := clear 0 (Nat.zero_le _) fun i inside _ => none i inside
    rw [← zero] at nonzero
    exact absurd nonzero (lt_irrefl 0)

/-! ## The loops -/

namespace Modulus

variable {M : Modulus} {a tbn : Big} {x : M.Residue} {e : ℕ}

/-- A turn appends a bit to the exponent. -/
theorem Mont.expStep (base : M.Mont a x) (holds : M.Mont tbn (x ^ e)) (w : UInt64) {j : ℕ} (inside : j < 64) :
    M.Mont (expStep M a w tbn j) (x ^ (2 * e + w.toNat / 2 ^ j % 2)) := by
  have square := holds.mul holds
  rw [← pow_add, ← two_mul] at square
  rw [Gpuec.expStep]
  by_cases set : bitAt w j = 1
  · rw [if_pos set, (bitAt_eq_one_iff w inside).mp set, pow_succ]
    exact square.mul base
  · have bit : w.toNat / 2 ^ j % 2 = 0 := by
      rw [bitAt_eq_one_iff w inside] at set
      omega
    rw [if_neg set, bit, Nat.add_zero]
    exact square

/-- The loop over the low bits of a word appends them. -/
theorem Mont.expBits (base : M.Mont a x) (holds : M.Mont tbn (x ^ e)) (w : UInt64) {n : ℕ} (inside : n ≤ 64) :
    M.Mont (expBits M a w n tbn) (x ^ (e * 2 ^ n + w.toNat % 2 ^ n)) := by
  induction n generalizing tbn e with
  | zero => rwa [pow_zero, mul_one, Nat.mod_one, Nat.add_zero]
  | succ n ih =>
    have rest := ih (base.expStep holds w (j := n) (by omega)) (by omega)
    have split : e * 2 ^ (n + 1) + w.toNat % 2 ^ (n + 1) =
        (2 * e + w.toNat / 2 ^ n % 2) * 2 ^ n + w.toNat % 2 ^ n := by
      rw [pow_succ, Nat.mod_mul]
      ring
    rw [Gpuec.expBits, Loops.foldl_reverse_range_succ, split]
    exact rest

/-- The loop over the words appends them. -/
theorem Mont.expWords (base : M.Mont a x) (holds : M.Mont tbn (x ^ e)) (k : Big) (i : ℕ) :
    M.Mont (expWords M a k i tbn) (x ^ (e * (2 ^ 64) ^ i + k.low i)) := by
  induction i generalizing tbn e with
  | zero => rwa [pow_zero, mul_one, Big.low, Finset.sum_range_zero, Nat.add_zero]
  | succ i ih =>
    have word := base.expBits holds (k.word i) le_rfl
    rw [Nat.mod_eq_of_lt (k.word i).toNat_lt] at word
    have split : e * (2 ^ 64) ^ (i + 1) + k.low (i + 1) =
        (e * 2 ^ 64 + (k.word i).toNat) * (2 ^ 64) ^ i + k.low i := by
      rw [low_succ, pow_succ]
      ring
    rw [Gpuec.expWords, Loops.foldl_reverse_range_succ, split]
    exact ih word

/-- The bits below the leading one complete the leading word. -/
private theorem Mont.leading (base : M.Mont a x) (w : UInt64) {j : ℕ} (inside : j < 64) (one : w.toNat / 2 ^ j = 1) :
    M.Mont (Gpuec.expBits M a w j a) (x ^ w.toNat) := by
  have first : M.Mont a (x ^ 1) := by rwa [pow_one]
  have rest := base.expBits first w inside.le
  have whole : 1 * 2 ^ j + w.toNat % 2 ^ j = w.toNat := by
    rw [← one, Nat.mul_comm, Nat.div_add_mod]
  rwa [whole] at rest

/-- `dh_mybig_modexp` raises the base to any nonzero exponent. -/
theorem Mont.modexp (base : M.Mont a x) {k : Big} (nonzero : 0 < k.toNat) :
    ∃ c, M.modexp a k = some c ∧ M.Mont c (x ^ k.toNat) := by
  obtain ⟨i, word, positive, whole⟩ := leadingWord_spec nonzero
  obtain ⟨j, inside, bit, one⟩ := leadingBit_spec le_rfl (k.word i).toNat_lt positive
  have leading := base.leading (k.word i) inside one
  have rest := base.expWords leading k i
  rw [Nat.add_comm, ← low_succ, whole] at rest
  refine ⟨_, ?_, rest⟩
  rw [Modulus.modexp, word]
  simp only [Option.bind_eq_bind, Option.bind_some, bit]
  rfl

/-- The leading bit of an exponent of one word. -/
private theorem leadingBit_ui32 {k : UInt32} (nonzero : k ≠ 0) :
    ∃ j < 32, leadingBit k.toUInt64 32 = some j ∧ k.toUInt64.toNat / 2 ^ j = 1 := by
  have bound := k.toNat_lt
  rw [ne_eq, ← UInt32.toNat_inj, show (0 : UInt32).toNat = 0 from rfl] at nonzero
  rw [← UInt32.toNat_toUInt64] at nonzero bound
  obtain ⟨j, inside, bit, one⟩ := leadingBit_spec (by norm_num) bound (Nat.pos_of_ne_zero nonzero)
  exact ⟨j, inside, bit, one⟩

/-- `dh_mybig_modexp_ui32_modN` returns for all words and any exponent. -/
theorem modexp_ui32_total (mon_ONE a : Big) (k : UInt32) : ∃ c, M.modexp_ui32 mon_ONE a k = some c := by
  rw [Modulus.modexp_ui32]
  by_cases zero : k = 0
  · exact ⟨mon_ONE, if_pos zero⟩
  · obtain ⟨j, -, bit, -⟩ := leadingBit_ui32 zero
    rw [if_neg zero, bit]
    exact ⟨_, rfl⟩

/-- `dh_mybig_modexp_ui32_modN` raises the base to any exponent. -/
theorem Mont.modexp_ui32 {mon_ONE : Big} (unit : M.Mont mon_ONE 1) (base : M.Mont a x) (k : UInt32) :
    ∃ c, M.modexp_ui32 mon_ONE a k = some c ∧ M.Mont c (x ^ k.toNat) := by
  rw [Modulus.modexp_ui32]
  by_cases zero : k = 0
  · refine ⟨mon_ONE, if_pos zero, ?_⟩
    rwa [zero, show (0 : UInt32).toNat = 0 from rfl, pow_zero]
  · obtain ⟨j, inside, bit, one⟩ := leadingBit_ui32 zero
    have leading := base.leading k.toUInt64 (by omega) one
    rw [UInt32.toNat_toUInt64] at leading
    refine ⟨_, ?_, leading⟩
    rw [if_neg zero, bit]
    rfl

end Modulus

/-! ## The functions on memory -/

namespace Ram

private theorem stored {M : Modulus} {m : Ram} {x : ℕ} {result : Option Big} {e : ℕ} (c : ℕ)
    (raised : ∃ v, result = some v ∧ M.Mont v ((x : M.Residue) ^ e)) :
    ∃ m', result.map (m.putBig c) = some m' ∧ (m'.big c).toNat = x ^ e * 2 ^ 256 % M.Pa.toNat ∧
      ∀ i, i < c ∨ c + 4 ≤ i → m' i = m i := by
  obtain ⟨v, rfl, holds⟩ := raised
  rw [← Nat.cast_pow, Modulus.mont_natCast_iff] at holds
  refine ⟨m.putBig c v, rfl, ?_, fun i outside => putBig_of_outside m c v outside⟩
  rw [big_putBig, holds]

theorem mont_ONE_modN : modN.Mont dc_mon_ONE_modN 1 := by
  rw [← Nat.cast_one, Modulus.mont_natCast_iff]
  decide

/-- The three exponentiations raise a base in Montgomery form to any exponent, the first two to any but zero. The
output may be anywhere, also over the base. -/
theorem montgomery_exponentiation (m : Ram) (a k c x : ℕ) (n : UInt32) :
    ((m.big a).toNat = x * 2 ^ 256 % modP.Pa.toNat → 0 < (m.big k).toNat →
      ∃ m', dh_mybig_modexp m a k c = some m' ∧
        (m'.big c).toNat = x ^ (m.big k).toNat * 2 ^ 256 % modP.Pa.toNat ∧ ∀ i, i < c ∨ c + 4 ≤ i → m' i = m i) ∧
    ((m.big a).toNat = x * 2 ^ 256 % modN.Pa.toNat → 0 < (m.big k).toNat →
      ∃ m', dh_mybig_modexp_modN m a k c = some m' ∧
        (m'.big c).toNat = x ^ (m.big k).toNat * 2 ^ 256 % modN.Pa.toNat ∧ ∀ i, i < c ∨ c + 4 ≤ i → m' i = m i) ∧
    ((m.big a).toNat = x * 2 ^ 256 % modN.Pa.toNat →
      ∃ m', dh_mybig_modexp_ui32_modN m a n c = some m' ∧
        (m'.big c).toNat = x ^ n.toNat * 2 ^ 256 % modN.Pa.toNat ∧ ∀ i, i < c ∨ c + 4 ≤ i → m' i = m i) := by
  refine ⟨fun base nonzero => ?_, fun base nonzero => ?_, fun base => ?_⟩
  · exact stored c ((Modulus.mont_natCast_iff.mpr base).modexp nonzero)
  · exact stored c ((Modulus.mont_natCast_iff.mpr base).modexp nonzero)
  · exact stored c (mont_ONE_modN.modexp_ui32 (Modulus.mont_natCast_iff.mpr base) n)

/-- The base `2 * 2 ^ 256 mod N` at address 0 and the exponent 5 at address 4. -/
def twoFive : Ram := fun i =>
  if i = 0 then 0x805b42e65f937d7e else if i = 1 then 0x8aa24632a16ebf88 else if i = 2 then 2
  else if i = 4 then 5 else 0

theorem montgomery_exponentiation_two_five :
    (∃ m', dh_mybig_modexp_modN twoFive 0 4 0 = some m' ∧ (m'.big 0).toNat = 2 ^ 5 * 2 ^ 256 % modN.Pa.toNat) ∧
      ∃ m', dh_mybig_modexp_ui32_modN twoFive 0 7 0 = some m' ∧
        (m'.big 0).toNat = 2 ^ 7 * 2 ^ 256 % modN.Pa.toNat := by
  have base : (twoFive.big 0).toNat = 2 * 2 ^ 256 % modN.Pa.toNat := by decide
  have five : (twoFive.big 4).toNat = 5 := rfl
  obtain ⟨-, full, short⟩ := montgomery_exponentiation twoFive 0 4 0 2 7
  obtain ⟨m, ends, value, -⟩ := full base (by decide)
  obtain ⟨m', ends', value', -⟩ := short base
  rw [five] at value
  exact ⟨⟨m, ends, value⟩, ⟨m', ends', value'⟩⟩

end Ram

end DbcSnark.Gpuec
