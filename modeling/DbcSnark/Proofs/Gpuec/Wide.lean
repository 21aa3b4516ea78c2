import DbcSnark.Model.Gpuec.MonMult
import DbcSnark.Proofs.Gpuec.MyBig

/-! # Correctness of the Montgomery multiplication on lists of words

One pass over the words adds a multiple of a factor exactly, with one word carried out. The two halves of a round are
exact on the words and the two words above them; the rounds keep the number in the words below the sum of the first
factor and the modulus, so that the word above them is a bit.
-/

namespace DbcSnark.Gpuec

namespace Wide

/-- The weight above `n` words. -/
abbrev radix (n : ℕ) : ℕ := 2 ^ (64 * n)

theorem radix_succ (n : ℕ) : radix (n + 1) = 2 ^ 64 * radix n := by
  rw [radix, radix, Nat.mul_succ, Nat.pow_add, Nat.mul_comm]

theorem radix_add (m n : ℕ) : radix (m + n) = radix m * radix n := by
  rw [radix, Nat.mul_add, Nat.pow_add]

theorem value_lt (X : List UInt64) : value X < radix X.length := by
  induction X with
  | nil => exact Nat.one_pos
  | cons x X ih =>
    have := x.toNat_lt
    rw [value, List.length_cons, radix_succ]
    omega

theorem value_append (X Y : List UInt64) : value (X ++ Y) = value X + radix X.length * value Y := by
  induction X with
  | nil => rw [List.nil_append, value, List.length_nil, radix, Nat.mul_zero, pow_zero, Nat.one_mul, Nat.zero_add]
  | cons x X ih =>
    rw [List.cons_append, value, value, ih, List.length_cons, radix_succ]
    ring

theorem value_replicate_zero (n : ℕ) : value (List.replicate n 0) = 0 := by
  induction n with
  | zero => rfl
  | succ n ih =>
    rw [List.replicate_succ, value, ih]
    rfl

theorem value_injective {X Y : List UInt64} (length : X.length = Y.length) (same : value X = value Y) : X = Y := by
  induction X generalizing Y with
  | nil => exact (List.eq_nil_of_length_eq_zero length.symm).symm
  | cons x X ih =>
    cases Y with
    | nil => cases length
    | cons y Y =>
      have := x.toNat_lt
      have := y.toNat_lt
      rw [value, value] at same
      rw [UInt64.toNat_inj.mp (by omega : x.toNat = y.toNat), ih (Nat.succ.inj length) (by omega)]

/-! ## Passes over the words -/

/-- A pass adds `m * A` and the carry in exactly. -/
theorem mulAddRow_spec (m c : UInt64) {A T : List UInt64} (length : A.length = T.length) :
    (mulAddRow m c A T).1.length = T.length ∧
      value (mulAddRow m c A T).1 + radix T.length * (mulAddRow m c A T).2.toNat =
        m.toNat * value A + value T + c.toNat := by
  induction A generalizing T c with
  | nil =>
    cases List.eq_nil_of_length_eq_zero length.symm
    exact ⟨rfl, by simp [mulAddRow, value, radix]⟩
  | cons a A ih =>
    cases T with
    | nil => cases length
    | cons t T =>
      obtain ⟨same, rest⟩ := ih (mulAdd m a t c).2 (Nat.succ.inj length)
      have line := mulAdd_spec m a t c
      rw [mulAddRow]
      refine ⟨congrArg Nat.succ same, ?_⟩
      rw [value, value, value, List.length_cons, radix_succ]
      linear_combination 2 ^ 64 * rest + line

/-- The subtraction adds the complement of the subtrahend. -/
theorem subRow_spec (c : UInt64) {A B : List UInt64} (length : A.length = B.length) (small : c.toNat ≤ 1) :
    (subRow c A B).1.length = A.length ∧ (subRow c A B).2.toNat ≤ 1 ∧
      value (subRow c A B).1 + radix A.length * (subRow c A B).2.toNat + value B + 1 =
        value A + radix A.length + c.toNat := by
  induction A generalizing B c with
  | nil =>
    cases List.eq_nil_of_length_eq_zero length.symm
    refine ⟨rfl, small, ?_⟩
    simp only [subRow, value, List.length_nil, radix]
    omega
  | cons a A ih =>
    cases B with
    | nil => cases length
    | cons b B =>
      obtain ⟨line, carry⟩ := addNot_spec a b c small
      obtain ⟨same, last, rest⟩ := ih (addNot a b c).2 (Nat.succ.inj length) carry
      rw [subRow]
      refine ⟨congrArg Nat.succ same, last, ?_⟩
      rw [value, value, value, List.length_cons, radix_succ]
      linear_combination 2 ^ 64 * rest + line

theorem value_sub_64 {A B : List UInt64} (length : A.length = B.length) :
    value (dh_mybig_sub_64 A B) = (value A + radix A.length - value B) % radix A.length := by
  obtain ⟨same, carry, rest⟩ := subRow_spec 1 length (by decide)
  have bound := value_lt (subRow 1 A B).1
  have := value_lt A
  have small := value_lt B
  rw [← length] at small
  rw [same] at bound
  rw [UInt64.toNat_one] at rest
  rw [dh_mybig_sub_64]
  generalize (subRow 1 A B).2.toNat = k at *
  obtain rfl | rfl : k = 0 ∨ k = 1 := by omega
  · rw [Nat.mod_eq_of_lt (by omega)]
    omega
  · rw [Nat.mod_eq_sub_mod (by omega), Nat.mod_eq_of_lt (by omega)]
    omega

/-- The comparison loop decides `>=`. -/
theorem geq_iff {Z P : List UInt64} (length : Z.length = P.length) : geq Z P = true ↔ value P ≤ value Z := by
  induction Z generalizing P with
  | nil =>
    cases List.eq_nil_of_length_eq_zero length.symm
    exact iff_of_true rfl le_rfl
  | cons z Z ih =>
    cases P with
    | nil => cases length
    | cons p P =>
      have := z.toNat_lt
      have := p.toNat_lt
      have upper := ih (Nat.succ.inj length)
      rw [geq, value, value]
      split
      · next same =>
        rw [same, decide_eq_true_iff, ge_iff_le, UInt64.le_iff_toNat_le]
        omega
      · next differ =>
        have apart : value Z ≠ value P := fun same => differ (value_injective (Nat.succ.inj length) same)
        rw [upper]
        omega

/-! ## Rounds -/

/-- The number in the words between two rounds. -/
def Cios.value (t : Cios) : ℕ := Wide.value t.t + radix t.t.length * t.t8.toNat

/-- The number in the words between the halves of a round, where both words above count. -/
def Cios.total (t : Cios) : ℕ := Wide.value t.t + radix t.t.length * (t.t8.toNat + 2 ^ 64 * t.t9.toNat)

private theorem carry_spec (u v : UInt64) :
    (u + v).toNat + 2 ^ 64 * (bit (u + v < v)).toNat = u.toNat + v.toNat ∧ (bit (u + v < v)).toNat ≤ 1 := by
  have := u.toNat_lt
  have := v.toNat_lt
  simp only [UInt64.toNat_add, toNat_bit, UInt64.lt_iff_toNat_lt]
  split <;> omega

/-- The first half adds `m * A`. -/
theorem accumulate_spec {A : List UInt64} {t : Cios} (m : UInt64) (length : A.length = t.t.length) :
    (accumulate A t m).t.length = t.t.length ∧ (accumulate A t m).t9.toNat ≤ 1 ∧
      (accumulate A t m).total = t.value + m.toNat * value A := by
  obtain ⟨same, row⟩ := mulAddRow_spec m 0 length
  obtain ⟨top, small⟩ := carry_spec t.t8 (mulAddRow m 0 A t.t).2
  refine ⟨same, small, ?_⟩
  rw [UInt64.toNat_zero] at row
  simp only [Cios.total, Cios.value, accumulate, same]
  linear_combination row + radix t.t.length * top

/-- The second half adds a multiple of the modulus and drops a zero word. -/
theorem reduce_spec {P : List UInt64} {minv : UInt64} {t : Cios} (inverse : minv * P.headD 0 + 1 = 0)
    (length : P.length = t.t.length) (small : t.t9.toNat ≤ 1) :
    (reduce P minv t).t.length = t.t.length ∧
      ∃ q < 2 ^ 64, 2 ^ 64 * (reduce P minv t).value = t.total + q * value P := by
  obtain ⟨T, t8, t9⟩ := t
  cases P with
  | nil => simp at inverse
  | cons p P =>
    cases T with
    | nil => cases length
    | cons t0 T =>
      change minv * p + 1 = 0 at inverse
      change t9.toNat ≤ 1 at small
      obtain ⟨same, row⟩ := mulAddRow_spec (minv * t0) (hi64 (minv * t0) p + bit (minv * t0 * p + t0 < t0))
        (Nat.succ.inj length : P.length = T.length)
      have clear := clear_word inverse t0
      have shape : reduce (p :: P) minv ⟨t0 :: T, t8, t9⟩ =
          let r := mulAddRow (minv * t0) (hi64 (minv * t0) p + bit (minv * t0 * p + t0 < t0)) P T
          ⟨r.1 ++ [t8 + r.2], t9 + bit (t8 + r.2 < r.2), t9⟩ := rfl
      rw [shape]
      generalize mulAddRow (minv * t0) _ P T = r at *
      obtain ⟨top, flag⟩ := carry_spec t8 r.2
      generalize hi64 _ _ + _ = c at *
      have head : (t9 + bit (t8 + r.2 < r.2)).toNat = t9.toNat + (bit (t8 + r.2 < r.2)).toNat := by
        rw [UInt64.toNat_add, Nat.mod_eq_of_lt (by omega)]
      refine ⟨by rw [List.length_append, same, List.length_singleton, List.length_cons], _, (minv * t0).toNat_lt, ?_⟩
      simp only [Cios.value, Cios.total, value_append, List.length_append, List.length_cons, List.length_nil, same, head,
        value, radix_succ, Nat.zero_add]
      linear_combination clear + 2 ^ 64 * row + 2 ^ 64 * radix T.length * top

section Rounds

variable {P : List UInt64} {minv : UInt64} {A : List UInt64}

theorem odd (inverse : minv * P.headD 0 + 1 = 0) : value P % 2 = 1 := by
  cases P with
  | nil => simp at inverse
  | cons p P =>
    have word : p.toNat % 2 = 1 := odd_of_inverse inverse
    rw [value]
    omega

theorem rounds_append (ms : List UInt64) (m : UInt64) :
    rounds P minv A (ms ++ [m]) = reduce P minv (accumulate A (rounds P minv A ms) m) := List.foldl_append

variable (inverse : minv * P.headD 0 + 1 = 0) (length : A.length = P.length)
include inverse length

theorem round_spec (m : UInt64) {t : Cios} (same : t.t.length = P.length) :
    (reduce P minv (accumulate A t m)).t.length = P.length ∧
      ∃ q < 2 ^ 64, 2 ^ 64 * (reduce P minv (accumulate A t m)).value = (accumulate A t m).total + q * value P := by
  obtain ⟨kept, small, -⟩ := accumulate_spec m (length.trans same.symm)
  obtain ⟨kept', reduced⟩ := reduce_spec inverse (same.symm.trans kept.symm) small
  exact ⟨kept'.trans (kept.trans same), reduced⟩

/-- After some rounds the words hold the product with the words of the second factor so far and a multiple of the
modulus, divided by the weight of these words. -/
theorem rounds_spec (ms : List UInt64) :
    (rounds P minv A ms).t.length = P.length ∧ ∃ q < radix ms.length,
      (rounds P minv A ms).value * radix ms.length = value A * value ms + q * value P := by
  induction ms using List.reverseRecOn with
  | nil =>
    refine ⟨List.length_replicate, 0, Nat.one_pos, ?_⟩
    simp [rounds, Cios.value, value_replicate_zero, value]
  | append_singleton ms m ih =>
    obtain ⟨same, q, small, sofar⟩ := ih
    obtain ⟨kept, q', small', reduced⟩ := round_spec inverse length m same
    have exact := (accumulate_spec m (length.trans same.symm)).2.2
    rw [rounds_append, List.length_append, List.length_singleton, radix_succ, value_append]
    refine ⟨kept, q + radix ms.length * q', ?_, ?_⟩
    · have : radix ms.length * (q' + 1) ≤ radix ms.length * 2 ^ 64 := Nat.mul_le_mul_left _ small'
      linarith
    · rw [value, value]
      linear_combination radix ms.length * reduced + sofar + radix ms.length * exact

theorem rounds_lt (ms : List UInt64) : (rounds P minv A ms).value < value A + value P := by
  obtain ⟨-, q, small, total⟩ := rounds_spec inverse length ms
  have bound := value_lt ms
  have positive : 0 < value P := by
    have := odd inverse
    omega
  have left : value A * value ms ≤ value A * radix ms.length := Nat.mul_le_mul_left _ bound.le
  have right : q * value P < radix ms.length * value P := Nat.mul_lt_mul_of_pos_right small positive
  refine Nat.lt_of_mul_lt_mul_right (a := radix ms.length) ?_
  linarith

/-- The word above the number is a bit between two rounds. -/
theorem rounds_top (ms : List UInt64) : (rounds P minv A ms).t8.toNat ≤ 1 := by
  have same := (rounds_spec inverse length ms).1
  have bound := rounds_lt inverse length ms
  have first := value_lt A
  have second := value_lt P
  rw [length] at first
  rw [Cios.value, same] at bound
  by_contra more
  have : radix P.length * 2 ≤ radix P.length * (rounds P minv A ms).t8.toNat := Nat.mul_le_mul_left _ (by omega)
  omega

end Rounds

end Wide

end DbcSnark.Gpuec
