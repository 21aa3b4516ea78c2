import Mathlib.Data.Nat.Log
import Mathlib.Tactic

/-! # Big-endian numerals

The value of a list of digits with the most significant digit first, in an arbitrary base. The
operations on fixed-width words recurse from the head, so this order keeps their correctness proofs
structural; `value_eq_ofDigits` is the bridge to `Nat.ofDigits`.
-/

namespace BigEndian

variable {B : ℕ}

/-- The number denoted by digits in base `B`, most significant first. -/
def value (B : ℕ) : List ℕ → ℕ
  | [] => 0
  | d :: ds => d * B ^ ds.length + value B ds

@[simp] theorem value_nil : value B [] = 0 := rfl

@[simp] theorem value_cons (d : ℕ) (ds : List ℕ) :
    value B (d :: ds) = d * B ^ ds.length + value B ds := rfl

theorem value_append (xs ys : List ℕ) : value B (xs ++ ys) = value B xs * B ^ ys.length + value B ys := by
  induction xs with
  | nil => simp
  | cons x xs ih => simp only [List.cons_append, value_cons, ih, List.length_append, pow_add]; ring

theorem value_eq_ofDigits (ds : List ℕ) : value B ds = Nat.ofDigits B ds.reverse := by
  induction ds with
  | nil => rfl
  | cons d ds ih => simp [Nat.ofDigits_append, ih]; ring

theorem value_lt (ds : List ℕ) (bound : ∀ d ∈ ds, d < B) : value B ds < B ^ ds.length := by
  induction ds with
  | nil => simp
  | cons d ds ih =>
    have head : d < B := bound d List.mem_cons_self
    have tail := ih fun e member => bound e (List.mem_cons_of_mem _ member)
    calc value B (d :: ds) < d * B ^ ds.length + B ^ ds.length := by simp only [value_cons]; omega
      _ = (d + 1) * B ^ ds.length := by ring
      _ ≤ B * B ^ ds.length := by gcongr; omega
      _ = B ^ (d :: ds).length := by rw [List.length_cons, pow_succ]; ring

/-- The digits of `n` at `k` positions, most significant first. -/
def digits (B : ℕ) : ℕ → ℕ → List ℕ
  | 0, _ => []
  | k + 1, n => n / B ^ k % B :: digits B k n

@[simp] theorem length_digits (k n : ℕ) : (digits B k n).length = k := by
  induction k with
  | zero => rfl
  | succ k ih => simp [digits, ih]

theorem digits_lt (positive : 0 < B) (k n : ℕ) : ∀ d ∈ digits B k n, d < B := by
  induction k with
  | zero => simp [digits]
  | succ k ih =>
    intro d member
    rcases List.mem_cons.mp member with rfl | member
    · exact Nat.mod_lt _ positive
    · exact ih d member

@[simp] theorem value_digits (k n : ℕ) : value B (digits B k n) = n % B ^ k := by
  induction k with
  | zero => simp [digits, Nat.mod_one]
  | succ k ih =>
    simp only [digits, value_cons, length_digits, ih]
    rw [pow_succ, Nat.mod_mul]
    ring

theorem digits_eq_map (k n : ℕ) : digits B k n = (List.range k).map fun j => n / B ^ (k - 1 - j) % B := by
  induction k with
  | zero => rfl
  | succ k ih =>
    rw [digits, ih, List.range_succ_eq_map, List.map_cons, List.map_map]
    congr 1
    apply List.map_congr_left
    intro j _
    rw [Function.comp_apply, Nat.succ_sub_one, Nat.succ_eq_add_one, show k - (j + 1) = k - 1 - j by omega]

private theorem digits_mul_add (positive : 0 < B) (k c n : ℕ) : digits B k (c * B ^ k + n) = digits B k n := by
  induction k generalizing c with
  | zero => rfl
  | succ k ih =>
    have split : c * B ^ (k + 1) + n = c * B * B ^ k + n := by rw [pow_succ', ← Nat.mul_assoc]
    rw [digits, digits, split, ih, Nat.mul_comm (c * B), Nat.mul_add_div (Nat.pow_pos positive), Nat.mul_comm c,
      Nat.mul_add_mod]

/-- The digits of a numeral are its digits. -/
theorem digits_value (ds : List ℕ) (bound : ∀ d ∈ ds, d < B) : digits B ds.length (value B ds) = ds := by
  induction ds with
  | nil => rfl
  | cons d ds ih =>
    have head : d < B := bound d List.mem_cons_self
    have rest : ∀ e ∈ ds, e < B := fun e member => bound e (List.mem_cons_of_mem _ member)
    have tail := value_lt ds rest
    have first : (d * B ^ ds.length + value B ds) / B ^ ds.length = d := by
      rw [Nat.mul_comm, Nat.mul_add_div (by omega), Nat.div_eq_of_lt tail, Nat.add_zero]
    rw [List.length_cons, digits, value_cons, first, Nat.mod_eq_of_lt head, digits_mul_add (by omega), ih rest]

/-- Two digits determine which of two numerals of one length is larger before their tails do. -/
theorem value_lt_value_of_lt {x y : ℕ} {xs ys : List ℕ} (less : x < y) (size : xs.length = ys.length)
    (bound : ∀ d ∈ xs, d < B) : value B (x :: xs) < value B (y :: ys) := by
  have tail := value_lt xs bound
  calc value B (x :: xs) < (x + 1) * B ^ xs.length := by simp only [value_cons]; nlinarith
    _ ≤ y * B ^ xs.length := by gcongr; omega
    _ ≤ value B (y :: ys) := by simp only [value_cons, size]; omega

/-- A numeral vanishes exactly when every digit does. -/
theorem value_eq_zero (positive : 0 < B) (ds : List ℕ) : value B ds = 0 ↔ ∀ d ∈ ds, d = 0 := by
  induction ds with
  | nil => simp
  | cons d ds ih => simp [ih, positive.ne']

/-- The digit at position `k`, counted from the least significant end. -/
theorem getD_reverse (ds : List ℕ) (bound : ∀ d ∈ ds, d < B) (k : ℕ) :
    ds.reverse.getD k 0 = value B ds / B ^ k % B := by
  induction ds using List.reverseRecOn generalizing k with
  | nil => simp
  | append_singleton ds d ih =>
    have last : d < B := bound d (by simp)
    rw [List.reverse_append, value_append]
    cases k with
    | zero => simp [Nat.mod_eq_of_lt last]
    | succ k =>
      have front := ih (fun e member => bound e (by simp [member])) k
      simp only [List.reverse_singleton, List.singleton_append, List.getD_cons_succ, front, List.length_singleton,
        value_cons, List.length_nil, pow_zero, mul_one, value_nil, add_zero, pow_succ']
      rw [← Nat.div_div_eq_div_mul, Nat.add_comm, Nat.add_mul_div_right _ _ (by omega), Nat.div_eq_of_lt last,
        Nat.zero_add]

end BigEndian
