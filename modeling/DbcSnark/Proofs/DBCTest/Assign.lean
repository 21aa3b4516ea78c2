import DbcSnark.Model.DBCTest.Assign
import DbcSnark.Proofs.DBCTest.StoredChain
import Mathlib.Data.Nat.Bitwise

/-! # The two assignments of a basic value

The loops over words and masks are one loop over the bits of the number, which leaves the positions of the ones in
`now_DBC`. The loop over an `int` has no way out of it once it is entered, so zero is all that both can assign.
-/

namespace DbcSnark.DBCTest

namespace Assign

/-! ## The loop over the bits -/

/-- The loop over `bit` from zero, `set` being the test. -/
def scan (set : ℕ → Bool) (k : ℕ) (x : Scan) : Scan := (List.range k).foldl (fun x bit => x.turn (set bit)) x

/-- The positions of the ones below `k`. -/
def ones (set : ℕ → Bool) (k : ℕ) : List ℕ := (List.range k).filter set

/-- Memory with these positions stored in `now_DBC` from its start on. -/
def stored (positions : List ℕ) (memory : ℤ → Chain) (i : ℤ) : Chain :=
  if 0 ≤ i ∧ i < positions.length then ⟨positions.getD i.toNat 0 % 2 ^ 16, 0, false⟩ else memory i

theorem stored_nil (memory : ℤ → Chain) : stored [] memory = memory := by
  funext i
  rw [stored, if_neg (by rw [List.length_nil]; omega)]

theorem stored_append (positions : List ℕ) (bit : ℕ) (memory : ℤ → Chain) :
    stored (positions ++ [bit]) memory =
      Function.update (stored positions memory) positions.length ⟨bit % 2 ^ 16, 0, false⟩ := by
  funext i
  rw [stored, List.length_append, List.length_singleton]
  rcases eq_or_ne i positions.length with rfl | other
  · rw [Function.update_self, if_pos (by omega), Int.toNat_natCast, List.getD_append_right _ _ _ _ le_rfl,
      Nat.sub_self, List.getD_cons_zero]
  · rw [Function.update_of_ne other, stored]
    by_cases inside : 0 ≤ i ∧ i < positions.length
    · rw [if_pos (by omega), if_pos inside, List.getD_append _ _ _ _ (by omega)]
    · rw [if_neg (by omega), if_neg inside]

section Loop

variable (set : ℕ → Bool) (k : ℕ)

theorem scan_succ (x : Scan) : scan set (k + 1) x = (scan set k x).turn (set k) := by
  rw [scan, scan, List.range_succ, List.foldl_append, List.foldl_cons, List.foldl_nil]

theorem ones_succ : ones set (k + 1) = if set k then ones set k ++ [k] else ones set k := by
  rw [ones, ones, List.range_succ, List.filter_append, List.filter_singleton]
  cases set k
  · exact List.append_nil _
  · rfl

/-- The loop stores the positions of the ones in turn. -/
theorem scan_spec (memory : ℤ → Chain) :
    scan set k ⟨memory, 0, 0⟩ = ⟨stored (ones set k) memory, (ones set k).length, k⟩ := by
  induction k with
  | zero => exact congrArg (Scan.mk · 0 0) (stored_nil memory).symm
  | succ k ih =>
    rw [scan_succ, ih, Scan.turn, ones_succ]
    cases set k with
    | false => rfl
    | true => rw [if_pos rfl, if_pos rfl, stored_append, List.length_append, List.length_singleton]

theorem scan_add (j : ℕ) (x : Scan) : scan set (k + j) x = scan (fun i => set (k + i)) j (scan set k x) := by
  rw [scan, scan, scan, List.range_add, List.foldl_append, List.foldl_map]

theorem scan_congr {set set' : ℕ → Bool} (same : ∀ i < k, set' i = set i) (x : Scan) : scan set' k x = scan set k x := by
  induction k with
  | zero => rfl
  | succ k ih =>
    rw [scan_succ, scan_succ, same k (Nat.lt_succ_self k), ih fun i small => same i (Nat.lt_succ_of_lt small)]

end Loop

/-! ## The loops over the words -/

private theorem mask_iff (word k : ℕ) : word &&& 1 <<< k ≠ 0 ↔ (word >>> k) % 2 = 1 := by
  rw [Nat.one_shiftLeft, Nat.and_two_pow, Nat.testBit_eq_decide_div_mod_eq, Nat.shiftRight_eq_div_pow]
  have positive := Nat.two_pow_pos k
  by_cases bit : word / 2 ^ k % 2 = 1
  · rw [decide_eq_true bit, Bool.toNat_true, Nat.one_mul]
    exact iff_of_true positive.ne' bit
  · rw [decide_eq_false bit, Bool.toNat_false, Nat.zero_mul]
    exact iff_of_false (not_not.mpr rfl) bit

private theorem scanWord_eq (x : Scan) (word : ℕ) : scanWord x word = scan (fun k => (word >>> k) % 2 = 1) 32 x := by
  simp only [scanWord, scan, mask_iff]

/-- Whether the bit is one in the words from the least significant on. -/
def bitOf (words : List ℕ) (bit : ℕ) : Bool := (words.getD (bit / 32) 0 >>> (bit % 32)) % 2 = 1

theorem foldl_scanWord (words : List ℕ) (x : Scan) :
    words.foldl scanWord x = scan (bitOf words) (32 * words.length) x := by
  induction words using List.reverseRecOn with
  | nil => rfl
  | append_singleton words word ih =>
    have before : ∀ i < 32 * words.length, bitOf words i = bitOf (words ++ [word]) i := fun i small => by
      rw [bitOf, bitOf, List.getD_append _ _ _ _ (by omega)]
    have last : ∀ i < 32, decide ((word >>> i) % 2 = 1) = bitOf (words ++ [word]) (32 * words.length + i) :=
      fun i small => by
        have index : (32 * words.length + i) / 32 = words.length := by omega
        have shift : (32 * words.length + i) % 32 = i := by omega
        rw [bitOf, index, shift, List.getD_append_right _ _ _ _ le_rfl, Nat.sub_self, List.getD_cons_zero]
    rw [List.foldl_append, ih, List.length_append, List.length_singleton, Nat.mul_succ, scan_add, List.foldl_cons,
      List.foldl_nil, scanWord_eq, scan_congr _ before, scan_congr _ last]

/-! ## The assignments -/

variable (m : Macros)

/-- What the assignment of a big integer leaves: the terms of its ones. -/
theorem assignBigInt_eq (n : MyBigInt m.INTS) (s : State) : assignBigInt m n s =
    finish m ⟨stored (bits n) s.now_DBC, (bits n).length, 32 * m.INTS⟩ s.chain := by
  rw [assignBigInt, foldl_scanWord, scan_spec, List.length_reverse, n.size]
  rfl

private theorem bits_lt (n : MyBigInt m.INTS) {i : ℕ} (inside : i < (bits n).length) :
    (bits n).getD i 0 < 2 ^ 16 := by
  have covered := m.covered
  rw [List.getD_eq_getElem _ _ inside]
  have position := List.mem_range.mp (List.mem_of_mem_filter (List.getElem_mem inside))
  omega

private theorem stored_bits (n : MyBigInt m.INTS) (memory : ℤ → Chain) (i : ℕ) : stored (bits n) memory i =
    if i < (bits n).length then ⟨(bits n).getD i 0, 0, false⟩ else memory i := by
  rw [stored]
  by_cases inside : i < (bits n).length
  · rw [if_pos (by omega), if_pos inside, Int.toNat_natCast, Nat.mod_eq_of_lt (bits_lt m n inside)]
  · rw [if_neg (by omega), if_neg inside]

/-- On a positive number the assignment is the one that starts the search for an optimal chain. -/
theorem assignBigInt_binary {n : MyBigInt m.INTS} (positive : 0 < n.toNat) (s : DBCTest.State) {memory : ℤ → Chain}
    (same : ∀ i : ℕ, memory i = s.now_DBC i) :
    (assignBigInt m n ⟨memory, s.w_min⟩).chain = (assignBinary m n s).w_min ∧
      ∀ i : ℕ, (assignBigInt m n ⟨memory, s.w_min⟩).now_DBC i = (assignBinary m n s).now_DBC i := by
  have nonempty := bits_length_pos n positive
  have terms : ∀ i : ℕ, stored (bits n) memory i = (assignBinary m n s).now_DBC i := fun i => by
    rw [stored_bits, same, assignBinary]
  have last : ((bits n).length : ℤ) - 1 = ((bits n).length - 1 : ℕ) := by omega
  rw [assignBigInt_eq]
  refine ⟨?_, terms⟩
  simp only [finish, last, terms]
  rw [← last]
  rfl

theorem scanInt_of_pos {n : ℤ} (positive : 0 < n) (fuel : ℕ) (x : Scan) : scanInt n fuel x = none := by
  induction fuel generalizing x with
  | zero => exact if_pos positive
  | succ fuel ih => rw [scanInt, if_pos positive, ih]

/-- The assignment of a positive `int` never returns. -/
theorem assignInt_of_pos {n : ℤ} (positive : 0 < n) (fuel : ℕ) (s : State) : assignInt m fuel n s = none := by
  rw [assignInt, if_neg positive.ne', scanInt_of_pos positive, Option.map_none]

theorem assignInt_zero (fuel : ℕ) (s : State) : assignInt m fuel 0 s =
    some ⟨s.now_DBC, { s.chain with isNULL := false, length := 0, isBasic := true }⟩ := if_pos rfl

/-- The big integer zero leaves the empty expansion, at the price of the term before `now_DBC` less an addition. -/
theorem assignBigInt_zero {n : MyBigInt m.INTS} (zero : n.toNat = 0) (s : State) : assignBigInt m n s =
    ⟨s.now_DBC, { s.chain with
      length := 0, basic_value := (s.now_DBC (-1)).dbl * m.DBL_COST - m.ADD_COST, isBasic := true }⟩ := by
  rw [assignBigInt_eq, bits_eq_nil n zero, stored_nil, finish, List.length_nil, Nat.cast_zero, zero_sub, mul_neg_one,
    ← sub_eq_add_neg]

/-- The two assignments end with the same length, terms and price. -/
def Agree (n : ℤ) (big : MyBigInt m.INTS) (s : State) : Prop :=
  ∃ fuel r, assignInt m fuel n s = some r ∧ r.chain.length = (assignBigInt m big s).chain.length ∧
    (∀ i : ℕ, i < r.chain.length → r.now_DBC i = (assignBigInt m big s).now_DBC i) ∧
    r.chain.basic_value = (assignBigInt m big s).chain.basic_value

/-- The assignments agree on zero alone, and there only where the chain already has the price that the assignment of
a big integer computes from the memory before `now_DBC`. -/
theorem basic_assignment_iff (n : ℤ) (big : MyBigInt m.INTS) (same : (big.toNat : ℤ) = n) (s : State) :
    Agree m n big s ↔ n = 0 ∧ s.chain.basic_value = (s.now_DBC (-1)).dbl * m.DBL_COST - m.ADD_COST := by
  constructor
  · rintro ⟨fuel, r, returns, -, -, price⟩
    have zero : n = 0 := by
      by_contra nonzero
      rw [assignInt_of_pos m (by omega)] at returns
      cases returns
    rw [zero, assignInt_zero, Option.some.injEq] at returns
    rw [assignBigInt_zero m (by omega), ← returns] at price
    exact ⟨zero, price⟩
  · rintro ⟨rfl, price⟩
    refine ⟨0, _, assignInt_zero m 0 s, ?_⟩
    rw [assignBigInt_zero m (by omega)]
    exact ⟨rfl, fun _ _ => rfl, price⟩

theorem basic_assignment_iff_zero :
    Agree .secp256k1 0 (.ofNat 9 0) ⟨fun _ => ⟨0, 0, false⟩, { basic_value := -150 }⟩ :=
  (basic_assignment_iff .secp256k1 0 (.ofNat 9 0) (by decide) _).mpr ⟨rfl, by decide⟩

/-- The assignment of one does not return. -/
theorem assignInt_one : ¬ ∀ (m : Macros) (n : ℤ) (big : MyBigInt m.INTS) (s : State), 0 ≤ n → (big.toNat : ℤ) = n →
    Agree m n big s := by
  intro agree
  obtain ⟨fuel, r, returns, -⟩ := agree .secp256k1 1 (.ofNat 9 1) ⟨fun _ => ⟨0, 0, false⟩, {}⟩ (by decide) (by decide)
  rw [assignInt_of_pos _ (by decide)] at returns
  cases returns

end Assign

end DbcSnark.DBCTest
