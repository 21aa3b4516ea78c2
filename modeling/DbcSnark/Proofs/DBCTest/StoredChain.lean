import DbcSnark.Proofs.DBCTest.OptimalCells
import Mathlib.Data.List.GetD

/-! # The chain in `w_min` and its way into the result arrays

`w_min` holds either the binary expansion of `n`, whose terms stand in `now_DBC`, or a cell whose parent
pointers spell a chain. In both cases `simDBC` and the copying loop leave the terms of that chain,
leading term first, in slot 0 of `DBC_store`.
-/

namespace DbcSnark.DBCTest

open DoubleBase

/-! ## The binary expansion -/

private theorem value_testBit {INTS : ℕ} (n : MyBigInt INTS) (bit : ℕ) :
    (n.data.reverse.getD (bit / 32) 0 >>> (bit % 32)) % 2 = n.toNat / 2 ^ bit % 2 := by
  rw [BigEndian.getD_reverse n.data n.word, Nat.shiftRight_eq_div_pow]
  have word : (2 ^ 32) ^ (bit / 32) * 2 ^ (bit % 32) = 2 ^ bit := by
    rw [← pow_mul, ← pow_add]
    congr 1
    omega
  obtain ⟨k, room⟩ : ∃ k, 2 ^ 32 = 2 ^ (bit % 32) * (2 * k) := by
    refine ⟨2 ^ (31 - bit % 32), ?_⟩
    rw [← pow_succ', ← pow_add]
    congr 1
    omega
  change n.toNat / (2 ^ 32) ^ (bit / 32) % 2 ^ 32 / 2 ^ (bit % 32) % 2 = _
  rw [← word, ← Nat.div_div_eq_div_mul, room, Nat.mod_mul_right_div_self, Nat.mod_mul_right_mod]

/-- The chain of the bits of `v` below position `k`, leading bit first. -/
def binary (v k : ℕ) : List Chain :=
  (((List.range k).filter fun bit => v / 2 ^ bit % 2 = 1).reverse).map fun bit => ⟨bit, 0, false⟩

theorem binary_succ (v k : ℕ) :
    binary v (k + 1) = if v / 2 ^ k % 2 = 1 then ⟨k, 0, false⟩ :: binary v k else binary v k := by
  unfold binary
  rw [List.range_succ, List.filter_append]
  split <;> simp_all

theorem bits_eq {INTS : ℕ} (n : MyBigInt INTS) :
    (bits n).reverse.map (fun bit => (⟨bit, 0, false⟩ : Chain)) = binary n.toNat (32 * INTS) := by
  simp only [bits, binary, value_testBit]

theorem below_binary (v k : ℕ) : Below k 0 (binary v k) := by
  induction k with
  | zero => exact trivial
  | succ k ih =>
    rw [binary_succ]
    split
    · exact ⟨by simp, ih⟩
    · exact ih.mono (Nat.le_succ k) le_rfl

theorem value_binary (v k : ℕ) : value (binary v k) = (v % 2 ^ k : ℕ) := by
  induction k with
  | zero => simp [binary, Nat.mod_one]
  | succ k ih =>
    rw [binary_succ, pow_succ, Nat.mod_mul]
    split <;> rename_i bit
    · rw [value_cons, ih, bit]
      simp [Term.value, Term.weight, pow23]
      ring
    · rw [ih, show v / 2 ^ k % 2 = 0 by omega]
      simp

theorem length_bits {INTS : ℕ} (n : MyBigInt INTS) : (bits n).length = (binary n.toNat (32 * INTS)).length := by
  rw [← bits_eq, List.length_map, List.length_reverse]

theorem bits_eq_nil {INTS : ℕ} (n : MyBigInt INTS) (zero : n.toNat = 0) : bits n = [] := by
  rw [← List.length_eq_zero_iff, length_bits, zero, binary]
  simp

theorem bits_length_pos {INTS : ℕ} (n : MyBigInt INTS) (positive : 0 < n.toNat) : 0 < (bits n).length := by
  rw [length_bits, List.length_pos_iff]
  intro empty
  have sum := value_binary n.toNat (32 * INTS)
  rw [empty, Nat.mod_eq_of_lt (by have := n.toNat_lt; rwa [pow_mul]), value_nil] at sum
  omega

/-! ## Chains in `w_min` -/

/-- The chain `w_min` stands for: binary terms in `now_DBC`, or a chain through filled cells. -/
def Holds (m : Macros) (done : Set (ℕ × ℕ)) (s : State) (c : List Chain) : Prop :=
  (s.w_min.isBasic = true ∧ s.w_min.length = c.length ∧
    s.w_min.basic_value = cost m.DBL_COST m.TPL_COST m.ADD_COST c ∧
    ∀ i < c.length, s.now_DBC i = c.reverse.getD i ⟨0, 0, false⟩) ∨
  (c ≠ [] ∧ Represents s.cells done s.w_min c)

section WMin

variable {m : Macros} {done done' : Set (ℕ × ℕ)} {s s' : State} {c : List Chain}

theorem Holds.getV (holds : Holds m done s c) : s.w_min.getV m = cost m.DBL_COST m.TPL_COST m.ADD_COST c := by
  obtain ⟨basic, -, value, -⟩ | ⟨-, represents⟩ := holds
  · rw [OptimalDBC.getV, basic, if_pos rfl, value]
  · exact represents.getV m

theorem Holds.length (holds : Holds m done s c) : s.w_min.length = c.length := by
  obtain ⟨-, length, -⟩ | ⟨-, represents⟩ := holds
  · exact length
  · exact represents.length

theorem Holds.frame (holds : Holds m done s c) (same : SameOn done s s') (grown : done ⊆ done') :
    Holds m done' s' c := by
  unfold Holds
  rw [same.w_min, same.now_DBC]
  exact holds.imp_right fun represents => ⟨represents.1, represents.2.frame same.cells grown⟩

/-- After `w_min = n` the binary expansion is held. -/
theorem holds_assignBinary (n : MyBigInt m.INTS) (positive : 0 < n.toNat) (s : State) :
    Holds m done (assignBinary m n s) (binary n.toNat (32 * m.INTS)) := by
  have expand := bits_eq n
  have size := length_bits n
  have term : ∀ i < (bits n).length, (binary n.toNat (32 * m.INTS)).reverse.getD i ⟨0, 0, false⟩ =
      ⟨(bits n).getD i 0, 0, false⟩ := by
    intro i small
    rw [← expand, ← List.map_reverse, List.reverse_reverse, List.getD_eq_getElem _ _ (by simpa using small),
      List.getD_eq_getElem _ _ small, List.getElem_map]
  have nonempty := bits_length_pos n positive
  refine .inl ⟨rfl, size, ?_, fun i small => ?_⟩
  · cases chain : binary n.toNat (32 * m.INTS) with
    | nil =>
      rw [chain, List.length_nil] at size
      omega
    | cons x d =>
      have last := term ((bits n).length - 1) (by omega)
      rw [chain] at last size
      rw [size, List.getD_eq_getElem _ _ (by simp), List.getElem_reverse] at last
      simp only [List.length_cons, Nat.add_sub_cancel, Nat.sub_self, List.getElem_cons_zero] at last size
      change (((if (bits n).length - 1 < (bits n).length then (⟨(bits n).getD ((bits n).length - 1) 0, 0, false⟩ : Chain)
        else s.now_DBC ((bits n).length - 1)).dbl : ℤ) * m.DBL_COST + m.ADD_COST * (((bits n).length : ℤ) - 1)) = _
      rw [if_pos (by omega), size]
      simp only [Nat.add_sub_cancel, cost, last]
      push_cast
      ring
  · rw [← size] at small
    change (if i < (bits n).length then _ else _) = _
    rw [if_pos small, term i small]

end WMin

/-! ## Copying the chain out -/

private theorem simDBCFrom_of_le (cells : Loc → OptimalDBC) {k j : ℕ} (outside : k ≤ j) (present : OptimalDBC)
    (now_DBC : ℕ → Chain) : simDBCFrom cells k present now_DBC j = now_DBC j := by
  induction k generalizing present now_DBC with
  | zero => rfl
  | succ k ih =>
    rw [simDBCFrom, ih (by omega), Function.update_of_ne (by omega)]

/-- Following the parents fills `now_DBC` from its end. -/
theorem Represents.simDBCFrom {cells : Loc → OptimalDBC} {done : Set (ℕ × ℕ)} {cell : OptimalDBC} {c : List Chain}
    (represents : Represents cells done cell c) (now_DBC : ℕ → Chain) (i : ℕ) (small : i < c.length) :
    DBCTest.simDBCFrom cells c.length cell now_DBC i = c.reverse.getD i ⟨0, 0, false⟩ := by
  induction c generalizing cell now_DBC with
  | nil => simp at small
  | cons x c ih =>
    obtain ⟨⟨-, -, -, node⟩, table, p, -, pointer, rest⟩ := represents
    rw [List.length_cons, DBCTest.simDBCFrom, pointer, Option.elim_some, List.reverse_cons]
    rcases Nat.lt_or_eq_of_le (Nat.le_of_lt_succ small) with less | rfl
    · rw [ih rest _ less, List.getD_append _ _ _ _ (by simpa using less)]
    · rw [simDBCFrom_of_le cells le_rfl, Function.update_self, node,
        List.getD_append_right _ _ _ _ (by simp)]
      simp

private theorem store_loop (len : ℕ) (now_DBC : ℕ → Chain) (DBC_store : ℕ → ℤ × ℕ × ℕ) {k j : ℕ}
    (turns : k ≤ len) (small : j < len) :
    (List.range k).foldl (fun DBC_store i => Function.update DBC_store (len - i - 1) (row (now_DBC i))) DBC_store j =
      if len - k ≤ j then row (now_DBC (len - 1 - j)) else DBC_store j := by
  induction k with
  | zero => rw [List.range_zero, List.foldl_nil, if_neg (by omega)]
  | succ k ih =>
    rw [List.range_succ, List.foldl_append, List.foldl_cons, List.foldl_nil]
    by_cases here : j = len - k - 1
    · subst here
      rw [Function.update_self, if_pos (by omega), show len - 1 - (len - k - 1) = k by omega]
    · rw [Function.update_of_ne here, ih (by omega)]
      exact if_congr (by omega) rfl rfl

section Copied

variable {m : Macros} {done : Set (ℕ × ℕ)} {s : State} {c : List Chain}

/-- `simDBC` keeps `w_min` and writes the terms of its chain, leading term last. -/
theorem Holds.terms (holds : Holds m done s c) :
    (simDBC s).w_min = s.w_min ∧ ∀ i < c.length, (simDBC s).now_DBC i = c.reverse.getD i ⟨0, 0, false⟩ := by
  obtain ⟨basic, -, -, terms⟩ | ⟨nonempty, represents⟩ := holds
  · rw [simDBC, if_pos basic]
    exact ⟨rfl, terms⟩
  · have basic : s.w_min.isBasic = false := by
      cases c with
      | nil => contradiction
      | cons x c => exact represents.1.2.1
    rw [simDBC, basic, if_neg (by simp), represents.length]
    exact ⟨rfl, fun i small => represents.simDBCFrom s.now_DBC i small⟩

theorem Holds.after_simDBC (holds : Holds m done s c) : Holds m done (simDBC s) c := by
  obtain ⟨basic, expansion⟩ | ⟨nonempty, represents⟩ := holds
  · rw [simDBC, if_pos basic]
    exact .inl ⟨basic, expansion⟩
  · refine .inr ⟨nonempty, ?_⟩
    rw [simDBC]
    split_ifs <;> exact represents

theorem Holds.map_now_DBC (holds : Holds m done s c) :
    (List.range (simDBC s).w_min.length).map (simDBC s).now_DBC = c.reverse := by
  obtain ⟨same, terms⟩ := holds.terms
  refine List.ext_getElem (by rw [same, holds.length, List.length_map, List.length_range, List.length_reverse])
    fun i inside inside' => ?_
  rw [List.getElem_map, List.getElem_range, terms i (by rwa [List.length_reverse] at inside'),
    List.getD_eq_getElem _ _ inside']

/-- The stored rows are the terms of the chain `w_min` stands for, leading term first. -/
theorem Holds.chain_store (holds : Holds m done s c) : (store (simDBC s)).chain = c.map row := by
  have length := holds.length
  have terms := holds.terms
  apply List.ext_getElem
  · simp [State.chain, store, terms.1, length]
  · intro k left right
    have small : k < c.length := by simpa using right
    simp only [State.chain, store, terms.1, length, List.getElem_map, List.getElem_range]
    rw [store_loop c.length _ _ le_rfl small, if_pos (by omega), terms.2 _ (by omega),
      List.getD_eq_getElem _ _ (by rw [List.length_reverse]; omega), List.getElem_reverse]
    congr 2
    omega

end Copied

end DbcSnark.DBCTest
