import DbcSnark.ToMathlib.SignedBinary
import DbcSnark.Proofs.DBCTest.PointMul

/-! # The non-adjacent form

A digit 1 or -1 leaves an even number, so the digit after it is zero. The number grows when the digit is -1, but
it is halved in the same turn and stays below the power of two that bounded it.
-/

namespace DbcSnark.DBCTest

open SignedBinary

private theorem even_head {m : ℕ} (even : m % 2 = 0) : ∀ d ∈ (nafDigits m).head?, d = 0 := by
  rw [nafDigits]
  by_cases zero : m = 0
  · simp [zero]
  · simp [zero, even]

private theorem nafDigits_odd {n : ℕ} (odd : n % 2 ≠ 0) :
    ∃ m, m % 2 = 0 ∧ m < n ∧ 2 * m ≤ n + 1 ∧ nafDigits n = (2 - (n % 4 : ℕ) : ℤ) :: nafDigits m ∧
      ∀ naf, nafTurn (n, naf) = (m, naf ++ [(2 - (n % 4 : ℕ) : ℤ)]) := by
  have positive : n ≠ 0 := by omega
  by_cases low : (2 - (n % 4 : ℕ) : ℤ) > 0
  · refine ⟨(n - 1) / 2, by omega, by omega, by omega, ?_, fun naf => ?_⟩
    · rw [nafDigits, if_neg positive, if_neg odd]
      simp only [low, if_true]
    · simp only [nafTurn, odd, if_false, low, if_true]
  · refine ⟨(n + 1) / 2, by omega, by omega, by omega, ?_, fun naf => ?_⟩
    · rw [nafDigits, if_neg positive, if_neg odd]
      simp only [low, if_false]
    · simp only [nafTurn, odd, if_false, low]

private theorem nafDigits_even {n : ℕ} (positive : n ≠ 0) (even : n % 2 = 0) : nafDigits n = 0 :: nafDigits (n / 2) := by
  rw [nafDigits, if_neg positive, if_pos even]

theorem nafDigits_nonAdjacent (n : ℕ) : NonAdjacent (nafDigits n) := by
  induction n using Nat.strong_induction_on with
  | _ n ih =>
    by_cases positive : n = 0
    · rw [positive, nafDigits]
      exact .nil
    by_cases even : n % 2 = 0
    · rw [nafDigits_even positive even]
      exact List.isChain_cons.mpr ⟨fun _ _ => .inl rfl, ih _ (by omega)⟩
    · obtain ⟨m, halved, smaller, -, digits, -⟩ := nafDigits_odd even
      rw [digits]
      exact List.isChain_cons.mpr ⟨fun d member => .inr (even_head halved d member), ih m smaller⟩

/-- The recoding of a number up to `2 ^ k` has at most `k + 1` digits. -/
theorem length_nafDigits_le {n k : ℕ} (bound : n ≤ 2 ^ k) : (nafDigits n).length ≤ k + 1 := by
  induction n using Nat.strong_induction_on generalizing k with
  | _ n ih =>
    by_cases positive : n = 0
    · rw [positive, nafDigits]
      exact Nat.zero_le _
    by_cases one : n = 1
    · have single : nafDigits 1 = [1] := by simp [nafDigits]
      rw [one, single]
      exact Nat.le_add_left _ _
    obtain ⟨k, rfl⟩ : ∃ j, k = j + 1 := Nat.exists_eq_succ_of_ne_zero fun none => by
      rw [none, pow_zero] at bound
      omega
    rw [pow_succ] at bound
    by_cases even : n % 2 = 0
    · rw [nafDigits_even positive even, List.length_cons]
      exact Nat.succ_le_succ (ih (n / 2) (by omega) (by omega))
    · obtain ⟨m, -, smaller, half, digits, -⟩ := nafDigits_odd even
      rw [digits, List.length_cons]
      exact Nat.succ_le_succ (ih m smaller (by omega))

/-- The loop pushes the digits one by one and ends when the last one is pushed. -/
theorem nafTurn_run (n : ℕ) (naf : List ℤ) :
    nafTurn^[(nafDigits n).length] (n, naf) = (0, naf ++ nafDigits n) ∧
      ∀ k < (nafDigits n).length, (nafTurn^[k] (n, naf)).1 ≠ 0 := by
  induction n using Nat.strong_induction_on generalizing naf with
  | _ n ih =>
    by_cases positive : n = 0
    · rw [positive, nafDigits]
      simp
    obtain ⟨m, d, smaller, digits, turn⟩ : ∃ m d, m < n ∧ nafDigits n = d :: nafDigits m ∧
        nafTurn (n, naf) = (m, naf ++ [d]) := by
      by_cases even : n % 2 = 0
      · exact ⟨n / 2, 0, by omega, nafDigits_even positive even, by simp only [nafTurn, even, if_true]⟩
      · obtain ⟨m, -, smaller, -, digits, turn⟩ := nafDigits_odd even
        exact ⟨m, _, smaller, digits, turn naf⟩
    obtain ⟨ends, running⟩ := ih m smaller (naf ++ [d])
    rw [digits, List.length_cons]
    constructor
    · rw [Function.iterate_succ_apply, turn, ends, List.append_assoc, List.singleton_append]
    · intro k short
      cases k with
      | zero => exact positive
      | succ k =>
        rw [Function.iterate_succ_apply, turn]
        exact running k (by omega)

theorem value_leading (low : List ℤ) : value (low ++ [1]) = underOne low := by
  induction low with
  | nil => rfl
  | cons d low ih =>
    rw [List.cons_append, value, ih, Int.add_comm]
    rfl

/-- The number that digits stand for, the highest first. -/
def evaluate (digits : List ℤ) : ℤ := digits.foldl (fun sum d => 2 * sum + d) 0

/-- `int_to_naf` gives the non-adjacent form of a positive number: signed bits with a leading one, no two
neighbours nonzero, of the value `n` and of the least weight. Its loop ends after one turn for each digit. -/
theorem int_to_naf_spec {n : ℕ} (positive : 1 ≤ n) :
    Signed (int_to_naf n) ∧ (int_to_naf n).head? = some 1 ∧ NonAdjacent (int_to_naf n) ∧
      evaluate (int_to_naf n) = n ∧
      (∀ digits, Signed digits → evaluate digits = n → weight (int_to_naf n) ≤ weight digits) ∧
      ∃ turns ≤ Nat.clog 2 n + 1, nafTurn^[turns] (n, []) = (0, (int_to_naf n).reverse) ∧
        ∀ k < turns, (nafTurn^[k] (n, [])).1 ≠ 0 := by
  have nonzero : n ≠ 0 := by omega
  obtain ⟨low, digits, bits, sum⟩ := nafDigits_spec n nonzero
  have signed : Signed (nafDigits n) := by
    intro d member
    rw [digits, List.mem_append, List.mem_singleton] at member
    rcases member with below | rfl
    · rcases bits d below with zero | one | minus
      · exact .inr (.inl zero)
      · exact .inr (.inr one)
      · exact .inl minus
    · exact .inr (.inr rfl)
  have value : value (nafDigits n) = n := by rw [digits, value_leading, sum]
  have sparse := nafDigits_nonAdjacent n
  rw [int_to_naf, if_neg nonzero]
  refine ⟨?_, ?_, sparse.reverse, ?_, ?_, _, length_nafDigits_le (Nat.le_pow_clog (by norm_num) n), ?_⟩
  · intro d member
    exact signed d (List.mem_reverse.mp member)
  · rw [digits, List.reverse_append]
    rfl
  · rw [evaluate, ← value_reverse, List.reverse_reverse, value]
  · intro other otherSigned otherValue
    rw [weight_reverse, ← weight_reverse other]
    apply weight_le_of_nonAdjacent signed sparse
    · intro d member
      exact otherSigned d (List.mem_reverse.mp member)
    · rw [value, value_reverse, ← otherValue, evaluate]
  · rw [List.reverse_reverse]
    exact nafTurn_run n []

theorem int_to_naf_spec_seven :
    Signed [1, 0, 0, -1] ∧ [1, 0, 0, -1].head? = some (1 : ℤ) ∧ NonAdjacent [1, 0, 0, -1] ∧
      evaluate [1, 0, 0, -1] = 7 ∧
      (∀ digits, Signed digits → evaluate digits = 7 → weight [1, 0, 0, -1] ≤ weight digits) ∧
      ∃ turns ≤ Nat.clog 2 7 + 1, nafTurn^[turns] (7, []) = (0, [1, 0, 0, -1].reverse) ∧
        ∀ k < turns, (nafTurn^[k] (7, [])).1 ≠ 0 := by
  have digits : int_to_naf 7 = [1, 0, 0, -1] := by simp [int_to_naf, nafDigits]
  rw [← digits]
  exact int_to_naf_spec (by decide)

end DbcSnark.DBCTest
