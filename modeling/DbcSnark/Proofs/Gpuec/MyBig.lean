import DbcSnark.Model.Gpuec.MyBig
import Mathlib.Data.ZMod.Basic
import Mathlib.Tactic

/-! # Correctness of the 256-bit modular arithmetic

Every carry idiom computes a sum of words exactly, so the four-word operations are exact up to their last
carry. A round of the Montgomery multiplication adds a multiple of the modulus that clears the lowest word and
drops that word; after four rounds the accumulator is below twice the modulus.
-/

namespace DbcSnark.Gpuec

/-! ## Words -/

theorem toNat_bit (p : Prop) [Decidable p] : (bit p).toNat = if p then 1 else 0 := by
  by_cases holds : p <;> simp [bit, holds]

theorem addCarry_spec (x y f : UInt64) (small : f.toNat ≤ 1) :
    (addCarry x y f).1.toNat + 2 ^ 64 * (addCarry x y f).2.toNat = x.toNat + y.toNat + f.toNat ∧
      (addCarry x y f).2.toNat ≤ 1 := by
  have xSmall := x.toNat_lt
  have ySmall := y.toNat_lt
  simp only [addCarry, UInt64.toNat_add, toNat_bit, UInt64.lt_iff_toNat_lt]
  split <;> split <;> omega

theorem subBorrow_spec (x y f : UInt64) (small : f.toNat ≤ 1) :
    (subBorrow x y f).1.toNat + y.toNat + f.toNat = x.toNat + 2 ^ 64 * (subBorrow x y f).2.toNat ∧
      (subBorrow x y f).2.toNat ≤ 1 := by
  have xSmall := x.toNat_lt
  have ySmall := y.toNat_lt
  simp only [subBorrow, UInt64.toNat_add, UInt64.toNat_sub, toNat_bit, UInt64.lt_iff_toNat_lt]
  split <;> split <;> omega

theorem addNot_spec (a b c : UInt64) (small : c.toNat ≤ 1) :
    (addNot a b c).1.toNat + 2 ^ 64 * (addNot a b c).2.toNat + b.toNat + 1 = a.toNat + 2 ^ 64 + c.toNat ∧
      (addNot a b c).2.toNat ≤ 1 := by
  have aSmall := a.toNat_lt
  have bSmall := b.toNat_lt
  simp only [addNot, UInt64.toNat_add, UInt64.toNat_not, toNat_bit, UInt64.lt_iff_toNat_lt, UInt64.size]
  split <;> split <;> omega

theorem mulAdd_spec (m a t c : UInt64) :
    (mulAdd m a t c).1.toNat + 2 ^ 64 * (mulAdd m a t c).2.toNat = m.toNat * a.toNat + t.toNat + c.toNat := by
  have mSmall := m.toNat_lt
  have aSmall := a.toNat_lt
  have tSmall := t.toNat_lt
  have cSmall := c.toNat_lt
  have product : m.toNat * a.toNat ≤ (2 ^ 64 - 1) * (2 ^ 64 - 1) := Nat.mul_le_mul (by omega) (by omega)
  simp only [mulAdd, hi64, UInt64.toNat_add, UInt64.toNat_mul, UInt64.toNat_ofNat', toNat_bit,
    UInt64.lt_iff_toNat_lt]
  generalize m.toNat * a.toNat = p at *
  split <;> split <;> omega

/-! ## Four words -/

namespace Big

theorem toNat_lt (x : Big) : x.toNat < 2 ^ 256 := by
  have := x.w0.toNat_lt
  have := x.w1.toNat_lt
  have := x.w2.toNat_lt
  have := x.w3.toNat_lt
  simp only [toNat]
  omega

theorem toNat_injective {x y : Big} (same : x.toNat = y.toNat) : x = y := by
  have := x.w0.toNat_lt
  have := x.w1.toNat_lt
  have := x.w2.toNat_lt
  have := x.w3.toNat_lt
  have := y.w0.toNat_lt
  have := y.w1.toNat_lt
  have := y.w2.toNat_lt
  have := y.w3.toNat_lt
  simp only [toNat] at same
  ext <;> omega

@[simp] theorem toNat_zero : (0 : Big).toNat = 0 := rfl

theorem toNat_ofNat (n : ℕ) : (ofNat n).toNat = n % 2 ^ 256 := by
  simp only [ofNat, toNat, UInt64.toNat_ofNat']
  omega

end Big

theorem addWords_spec (x y : Big) :
    (addWords x y).1.toNat + 2 ^ 256 * (addWords x y).2.toNat = x.toNat + y.toNat ∧ (addWords x y).2.toNat ≤ 1 := by
  have first : (x.w0 + y.w0).toNat + 2 ^ 64 * (bit (x.w0 + y.w0 < y.w0)).toNat = x.w0.toNat + y.w0.toNat ∧
      (bit (x.w0 + y.w0 < y.w0)).toNat ≤ 1 := by
    have := x.w0.toNat_lt
    have := y.w0.toNat_lt
    simp only [UInt64.toNat_add, toNat_bit, UInt64.lt_iff_toNat_lt]
    split <;> omega
  simp only [addWords, Big.toNat]
  have second := addCarry_spec x.w1 y.w1 _ first.2
  have third := addCarry_spec x.w2 y.w2 _ second.2
  have fourth := addCarry_spec x.w3 y.w3 _ third.2
  omega

theorem subWords_spec (x y : Big) :
    (subWords x y).1.toNat + y.toNat = x.toNat + 2 ^ 256 * (subWords x y).2.toNat ∧ (subWords x y).2.toNat ≤ 1 := by
  have first : (x.w0 - y.w0).toNat + y.w0.toNat = x.w0.toNat + 2 ^ 64 * (bit (x.w0 < y.w0)).toNat ∧
      (bit (x.w0 < y.w0)).toNat ≤ 1 := by
    have := x.w0.toNat_lt
    have := y.w0.toNat_lt
    simp only [UInt64.toNat_sub, toNat_bit, UInt64.lt_iff_toNat_lt]
    split <;> omega
  simp only [subWords, Big.toNat]
  have second := subBorrow_spec x.w1 y.w1 _ first.2
  have third := subBorrow_spec x.w2 y.w2 _ second.2
  have fourth := subBorrow_spec x.w3 y.w3 _ third.2
  omega

/-- `dh_mybig_sub_64` subtracts modulo `2 ^ 256`. -/
theorem toNat_sub_64 (A B : Big) : (dh_mybig_sub_64 A B).toNat = (A.toNat + 2 ^ 256 - B.toNat) % 2 ^ 256 := by
  have first := addNot_spec A.w0 B.w0 1 (by decide)
  have second := addNot_spec A.w1 B.w1 _ first.2
  have third := addNot_spec A.w2 B.w2 _ second.2
  have fourth := addNot_spec A.w3 B.w3 _ third.2
  have bound := (dh_mybig_sub_64 A B).toNat_lt
  have aSmall := A.toNat_lt
  have bSmall := B.toNat_lt
  have one : (1 : UInt64).toNat = 1 := rfl
  simp only [dh_mybig_sub_64, Big.toNat, one] at *
  omega

/-- The comparison loop decides `>=`. -/
theorem geq_iff (z Pa : Big) : geq z Pa = true ↔ Pa.toNat ≤ z.toNat := by
  have := z.w0.toNat_lt
  have := z.w1.toNat_lt
  have := z.w2.toNat_lt
  have := Pa.w0.toNat_lt
  have := Pa.w1.toNat_lt
  have := Pa.w2.toNat_lt
  simp only [geq, bne_iff_ne, ne_eq, ← UInt64.toNat_inj, Big.toNat]
  split
  · simp only [gt_iff_lt, decide_eq_true_eq, UInt64.lt_iff_toNat_lt]
    omega
  · split
    · simp only [gt_iff_lt, decide_eq_true_eq, UInt64.lt_iff_toNat_lt]
      omega
    · split
      · simp only [gt_iff_lt, decide_eq_true_eq, UInt64.lt_iff_toNat_lt]
        omega
      · split
        · simp only [gt_iff_lt, decide_eq_true_eq, UInt64.lt_iff_toNat_lt]
          omega
        · simp only [true_iff]
          omega

private theorem toNat_topBit (v : UInt64) : (v >>> 63 &&& 1).toNat = v.toNat / 2 ^ 63 := by
  have := v.toNat_lt
  rw [UInt64.toNat_and, UInt64.toNat_shiftRight, show (63 : UInt64).toNat % 64 = 63 from rfl,
    show (1 : UInt64).toNat = 1 from rfl, Nat.and_one_is_mod, Nat.shiftRight_eq_div_pow]
  omega

private theorem toNat_shiftIn (w v : UInt64) :
    (w <<< 1 ||| v >>> 63 &&& 1).toNat = 2 * w.toNat % 2 ^ 64 + v.toNat / 2 ^ 63 := by
  have := v.toNat_lt
  have even : 2 * w.toNat % 2 ^ 64 = 2 ^ 1 * (w.toNat % 2 ^ 63) := by omega
  rw [UInt64.toNat_or, toNat_topBit, UInt64.toNat_shiftLeft, show (1 : UInt64).toNat % 64 = 1 from rfl,
    Nat.shiftLeft_eq, pow_one, Nat.mul_comm, even, ← Nat.two_pow_add_eq_or_of_lt (by omega)]

theorem doubleWords_spec (A : Big) :
    (doubleWords A).1.toNat + 2 ^ 256 * (doubleWords A).2.toNat = 2 * A.toNat ∧ (doubleWords A).2.toNat ≤ 1 := by
  have := A.w0.toNat_lt
  have := A.w1.toNat_lt
  have := A.w2.toNat_lt
  have := A.w3.toNat_lt
  have lowest : (A.w0 <<< 1).toNat = 2 * A.w0.toNat % 2 ^ 64 := by
    rw [UInt64.toNat_shiftLeft, show (1 : UInt64).toNat % 64 = 1 from rfl, Nat.shiftLeft_eq, pow_one, Nat.mul_comm]
  simp only [doubleWords, Big.toNat, toNat_shiftIn, toNat_topBit, lowest]
  omega

/-! ## Modular arithmetic -/

namespace Modulus

variable (M : Modulus)

/-- Taking the modulus off once reduces what is below twice the modulus. -/
private theorem toNat_reduce {s : ℕ} (z : Big) (carry : UInt64) (r : Big) (sum : z.toNat + 2 ^ 256 * carry.toNat = s)
    (small : s < 2 * M.Pa.toNat) (low : ¬ (carry ≠ 0 ∨ geq z M.Pa) → r = z)
    (high : carry ≠ 0 ∨ geq z M.Pa → r.toNat = (z.toNat + 2 ^ 256 - M.Pa.toNat) % 2 ^ 256) :
    r.toNat = s % M.Pa.toNat := by
  have zSmall := z.toNat_lt
  have pSmall := M.Pa.toNat_lt
  have pHigh := M.high
  have nonzero : carry ≠ 0 ↔ 0 < carry.toNat := by
    rw [ne_eq, ← UInt64.toNat_inj, show (0 : UInt64).toNat = 0 from rfl]
    omega
  rw [nonzero, geq_iff] at low high
  by_cases reduce : 0 < carry.toNat ∨ M.Pa.toNat ≤ z.toNat
  · have value := high reduce
    rw [Nat.mod_eq_sub_mod (by omega), Nat.mod_eq_of_lt (by omega)]
    omega
  · have value := congrArg Big.toNat (low reduce)
    rw [Nat.mod_eq_of_lt (by omega)]
    omega

theorem toNat_modadd {x y : Big} (left : x.toNat < M.Pa.toNat) (right : y.toNat < M.Pa.toNat) :
    (M.modadd x y).toNat = (x.toNat + y.toNat) % M.Pa.toNat := by
  obtain ⟨sum, -⟩ := addWords_spec x y
  apply M.toNat_reduce _ _ _ sum (by omega)
  · intro small
    rw [modadd, if_neg small]
  · intro reduce
    obtain ⟨difference, -⟩ := subWords_spec (addWords x y).1 M.Pa
    have := (addWords x y).1.toNat_lt
    have := (subWords (addWords x y).1 M.Pa).1.toNat_lt
    have := M.Pa.toNat_lt
    rw [modadd, if_pos reduce]
    omega

theorem toNat_moddouble {A : Big} (small : A.toNat < M.Pa.toNat) : (M.moddouble A).toNat = 2 * A.toNat % M.Pa.toNat := by
  obtain ⟨double, carry⟩ := doubleWords_spec A
  have one : (doubleWords A).2 = 1 ↔ (doubleWords A).2 ≠ 0 := by
    rw [ne_eq, ← UInt64.toNat_inj, ← UInt64.toNat_inj, show (0 : UInt64).toNat = 0 from rfl,
      show (1 : UInt64).toNat = 1 from rfl]
    omega
  apply M.toNat_reduce _ _ _ double (by omega)
  · intro low
    rw [moddouble, if_neg fun hit => low (hit.imp_left one.mp)]
  · intro reduce
    rw [moddouble, if_pos (reduce.imp_left one.mpr), toNat_sub_64]

/-- A borrow brings the modulus back in. -/
private theorem toNat_restore {x n : ℕ} {z : Big} (borrow : UInt64) (left : x < M.Pa.toNat) (right : n ≤ M.Pa.toNat)
    (difference : z.toNat + n = x + 2 ^ 256 * borrow.toNat) {r : Big} (low : borrow = 0 → r = z)
    (high : borrow ≠ 0 → r = (addWords z M.Pa).1) : r.toNat = (x + (M.Pa.toNat - n)) % M.Pa.toNat := by
  have zSmall := z.toNat_lt
  have pSmall := M.Pa.toNat_lt
  by_cases none : borrow = 0
  · have value := congrArg Big.toNat (low none)
    rw [none, show (0 : UInt64).toNat = 0 from rfl] at difference
    rw [show x + (M.Pa.toNat - n) = x - n + M.Pa.toNat by omega, Nat.add_mod_right, Nat.mod_eq_of_lt (by omega)]
    omega
  · have value := congrArg Big.toNat (high none)
    obtain ⟨sum, -⟩ := addWords_spec z M.Pa
    have := (addWords z M.Pa).1.toNat_lt
    have positive : 0 < borrow.toNat := by
      rw [← UInt64.toNat_inj, show (0 : UInt64).toNat = 0 from rfl] at none
      omega
    rw [Nat.mod_eq_of_lt (by omega)]
    omega

theorem toNat_modsub {x y : Big} (left : x.toNat < M.Pa.toNat) (right : y.toNat < M.Pa.toNat) :
    (M.modsub x y).toNat = (x.toNat + (M.Pa.toNat - y.toNat)) % M.Pa.toNat := by
  apply M.toNat_restore _ left right.le (subWords_spec x y).1
  · intro none
    rw [modsub, if_neg (by simpa using none)]
  · intro borrow
    rw [modsub, if_pos borrow]

theorem toNat_neg {y : Big} (small : y.toNat < M.Pa.toNat) :
    (M.neg y).toNat = (M.Pa.toNat - y.toNat) % M.Pa.toNat := by
  rw [neg, M.toNat_modsub (by simp; omega) small, Big.toNat_zero, Nat.zero_add]

theorem toNat_modsub_ui32 {x : Big} (left : x.toNat < M.Pa.toNat) (y : UInt32) :
    (M.modsub_ui32 x y).toNat = (x.toNat + (M.Pa.toNat - y.toNat)) % M.Pa.toNat := by
  have := x.w0.toNat_lt
  have := x.w1.toNat_lt
  have := x.w2.toNat_lt
  have := x.w3.toNat_lt
  have := y.toNat_lt
  have high := M.high
  have borrow : ∀ u v : UInt64, v.toNat ≤ 1 →
      (u - v).toNat + v.toNat = u.toNat + 2 ^ 64 * (bit (u < v)).toNat ∧ (bit (u < v)).toNat ≤ 1 := by
    intro u v small
    have := u.toNat_lt
    simp only [UInt64.toNat_sub, toNat_bit, UInt64.lt_iff_toNat_lt]
    split <;> omega
  have first : (x.w0 - y.toUInt64).toNat + y.toNat = x.w0.toNat + 2 ^ 64 * (bit (x.w0 < y.toUInt64)).toNat ∧
      (bit (x.w0 < y.toUInt64)).toNat ≤ 1 := by
    simp only [UInt64.toNat_sub, toNat_bit, UInt64.lt_iff_toNat_lt, UInt32.toNat_toUInt64]
    split <;> omega
  have second := borrow x.w1 _ first.2
  have third := borrow x.w2 _ second.2
  have fourth := borrow x.w3 _ third.2
  apply M.toNat_restore (bit (x.w3 < _)) left (n := y.toNat) (by omega) _
  · intro none
    rw [modsub_ui32, if_neg (by simpa using none)]
  · intro hit
    rw [modsub_ui32, if_pos hit]
  · simp only [Big.toNat]
    omega

end Modulus

/-! ## Montgomery multiplication -/

open scoped UInt64.CommRing in
/-- The multiple of the modulus that a round adds clears the lowest word. -/
theorem clear_word {minv p : UInt64} (inverse : minv * p + 1 = 0) (t : UInt64) :
    2 ^ 64 * (hi64 (minv * t) p + bit (minv * t * p + t < t)).toNat = (minv * t).toNat * p.toNat + t.toNat := by
  have cancel : minv * t * p + t = 0 := by
    calc minv * t * p + t = (minv * p + 1) * t := by ring
      _ = 0 := by rw [inverse, zero_mul]
  have low := congrArg UInt64.toNat cancel
  have tSmall := t.toNat_lt
  have mSmall := (minv * t).toNat_lt
  have pSmall := p.toNat_lt
  have product : (minv * t).toNat * p.toNat ≤ (2 ^ 64 - 1) * (2 ^ 64 - 1) := Nat.mul_le_mul (by omega) (by omega)
  rw [cancel]
  rw [UInt64.toNat_add, UInt64.toNat_mul] at low
  simp only [hi64, UInt64.toNat_add, UInt64.toNat_ofNat', toNat_bit, UInt64.lt_iff_toNat_lt,
    UInt64.toNat_zero] at low ⊢
  generalize (minv * t).toNat * p.toNat = product at *
  split <;> omega

/-- A modulus with such a constant is odd. -/
theorem odd_of_inverse {minv p : UInt64} (inverse : minv * p + 1 = 0) : p.toNat % 2 = 1 := by
  have low := congrArg UInt64.toNat inverse
  rw [UInt64.toNat_add, UInt64.toNat_mul, UInt64.toNat_one, UInt64.toNat_zero] at low
  by_contra even
  obtain ⟨half, double⟩ := Nat.dvd_of_mod_eq_zero (by omega : p.toNat % 2 = 0)
  rw [double, Nat.mul_left_comm] at low
  omega

/-- The number in the accumulator. -/
def Cios.value (t : Cios) : ℕ := t.t.toNat + 2 ^ 256 * t.t4.toNat

namespace Modulus

variable (M : Modulus)

/-- A round adds `m * A` and a multiple of the modulus and drops a zero word. -/
theorem monRound_spec (A : Big) (t : Cios) (m : UInt64) :
    ∃ q < 2 ^ 64, 2 ^ 64 * (M.monRound A t m).value = t.value + m.toNat * A.toNat + q * M.Pa.toNat := by
  have add0 := mulAdd_spec m A.w0 t.t.w0 0
  have add1 := mulAdd_spec m A.w1 t.t.w1 (mulAdd m A.w0 t.t.w0 0).2
  have add2 := mulAdd_spec m A.w2 t.t.w2 (mulAdd m A.w1 t.t.w1 (mulAdd m A.w0 t.t.w0 0).2).2
  have add3 := mulAdd_spec m A.w3 t.t.w3 (mulAdd m A.w2 t.t.w2 (mulAdd m A.w1 t.t.w1 (mulAdd m A.w0 t.t.w0 0).2).2).2
  simp only [monRound, Cios.value, Big.toNat]
  generalize mulAdd m A.w0 t.t.w0 0 = r0 at *
  generalize mulAdd m A.w1 t.t.w1 r0.2 = r1 at *
  generalize mulAdd m A.w2 t.t.w2 r1.2 = r2 at *
  generalize mulAdd m A.w3 t.t.w3 r2.2 = r3 at *
  have carry : ∀ u v : UInt64, (u + v).toNat + 2 ^ 64 * (bit (u + v < v)).toNat = u.toNat + v.toNat ∧
      (bit (u + v < v)).toNat ≤ 1 := by
    intro u v
    have := u.toNat_lt
    have := v.toNat_lt
    simp only [UInt64.toNat_add, toNat_bit, UInt64.lt_iff_toNat_lt]
    split <;> omega
  have top := carry t.t4 r3.2
  have clear := clear_word M.inverse r0.1
  generalize hi64 (M.minv * r0.1) M.Pa.w0 + bit (M.minv * r0.1 * M.Pa.w0 + r0.1 < r0.1) = c at *
  generalize M.minv * r0.1 = q at *
  have red1 := mulAdd_spec q M.Pa.w1 r1.1 c
  generalize mulAdd q M.Pa.w1 r1.1 c = s1 at *
  have red2 := mulAdd_spec q M.Pa.w2 r2.1 s1.2
  generalize mulAdd q M.Pa.w2 r2.1 s1.2 = s2 at *
  have red3 := mulAdd_spec q M.Pa.w3 r3.1 s2.2
  generalize mulAdd q M.Pa.w3 r3.1 s2.2 = s3 at *
  have last := carry (t.t4 + r3.2) s3.2
  have head : (bit (t.t4 + r3.2 < r3.2) + bit (t.t4 + r3.2 + s3.2 < s3.2)).toNat =
      (bit (t.t4 + r3.2 < r3.2)).toNat + (bit (t.t4 + r3.2 + s3.2 < s3.2)).toNat := by
    rw [UInt64.toNat_add, Nat.mod_eq_of_lt (by omega)]
  refine ⟨q.toNat, q.toNat_lt, ?_⟩
  rw [head]
  rw [show (0 : UInt64).toNat = 0 from rfl] at add0
  linear_combination add0 + 2 ^ 64 * add1 + 2 ^ 128 * add2 + 2 ^ 192 * add3 + 2 ^ 256 * top.1 + clear + 2 ^ 64 * red1 +
    2 ^ 128 * red2 + 2 ^ 192 * red3 + 2 ^ 256 * last.1

private theorem four_rounds {v1 v2 v3 v4 a p b0 b1 b2 b3 q0 q1 q2 q3 : ℕ} (round0 : 2 ^ 64 * v1 = b0 * a + q0 * p)
    (round1 : 2 ^ 64 * v2 = v1 + b1 * a + q1 * p) (round2 : 2 ^ 64 * v3 = v2 + b2 * a + q2 * p)
    (round3 : 2 ^ 64 * v4 = v3 + b3 * a + q3 * p) :
    v4 * 2 ^ 256 = a * (b0 + 2 ^ 64 * (b1 + 2 ^ 64 * (b2 + 2 ^ 64 * b3))) +
      (q0 + 2 ^ 64 * q1 + 2 ^ 128 * q2 + 2 ^ 192 * q3) * p := by
  linear_combination round0 + 2 ^ 64 * round1 + 2 ^ 128 * round2 + 2 ^ 192 * round3

/-- Four rounds add up the product and a multiple of the modulus below `2 ^ 256` times it. -/
theorem foldl_monRound (A B : Big) :
    ∃ q < 2 ^ 256, ([B.w0, B.w1, B.w2, B.w3].foldl (M.monRound A) ⟨0, 0⟩).value * 2 ^ 256 =
      A.toNat * B.toNat + q * M.Pa.toNat := by
  have empty : Cios.value ⟨0, 0⟩ = 0 := rfl
  obtain ⟨q0, small0, round0⟩ := M.monRound_spec A ⟨0, 0⟩ B.w0
  rw [empty, Nat.zero_add] at round0
  obtain ⟨q1, small1, round1⟩ := M.monRound_spec A (M.monRound A ⟨0, 0⟩ B.w0) B.w1
  obtain ⟨q2, small2, round2⟩ := M.monRound_spec A (M.monRound A (M.monRound A ⟨0, 0⟩ B.w0) B.w1) B.w2
  obtain ⟨q3, small3, round3⟩ :=
    M.monRound_spec A (M.monRound A (M.monRound A (M.monRound A ⟨0, 0⟩ B.w0) B.w1) B.w2) B.w3
  exact ⟨q0 + 2 ^ 64 * q1 + 2 ^ 128 * q2 + 2 ^ 192 * q3, by omega, four_rounds round0 round1 round2 round3⟩

/-- Montgomery multiplication divides the product by `2 ^ 256` modulo the modulus, if one factor is reduced. -/
theorem toNat_monmult {A B : Big} (reduced : A.toNat < M.Pa.toNat ∨ B.toNat < M.Pa.toNat) :
    (M.monmult A B).toNat < M.Pa.toNat ∧
      (M.monmult A B).toNat * 2 ^ 256 ≡ A.toNat * B.toNat [MOD M.Pa.toNat] := by
  have positive : 0 < M.Pa.toNat := lt_of_lt_of_le (by norm_num) M.high
  obtain ⟨q, bound, total⟩ := M.foldl_monRound A B
  unfold monmult
  generalize [B.w0, B.w1, B.w2, B.w3].foldl (M.monRound A) ⟨0, 0⟩ = t at *
  have small : t.value < 2 * M.Pa.toNat := by
    have multiple : q * M.Pa.toNat < 2 ^ 256 * M.Pa.toNat := Nat.mul_lt_mul_of_pos_right bound positive
    have product : A.toNat * B.toNat ≤ 2 ^ 256 * M.Pa.toNat := by
      rcases reduced with left | right
      · rw [Nat.mul_comm]
        exact Nat.mul_le_mul B.toNat_lt.le left.le
      · exact Nat.mul_le_mul A.toNat_lt.le right.le
    omega
  have value := M.toNat_reduce t.t t.t4 (if t.t4 ≠ 0 ∨ geq t.t M.Pa then dh_mybig_sub_64 t.t M.Pa else t.t) rfl
    small (fun low => if_neg low) fun high => by rw [if_pos high, toNat_sub_64]
  rw [value]
  refine ⟨Nat.mod_lt _ positive, ?_⟩
  calc t.value % M.Pa.toNat * 2 ^ 256 ≡ t.value * 2 ^ 256 [MOD M.Pa.toNat] := (Nat.mod_modEq _ _).mul_right _
    _ ≡ A.toNat * B.toNat [MOD M.Pa.toNat] := by
      rw [total]
      exact (Nat.modEq_iff_dvd' (Nat.le_add_right _ _)).mpr (by simp) |>.symm

end Modulus

end DbcSnark.Gpuec
