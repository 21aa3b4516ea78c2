import DbcSnark.Model.DBCTest.Variables
import DbcSnark.Proofs.DBCTest.MyBigInt

/-! # Small multiples and the table of powers

Doubling is exact. Tripling drops a carry at two pairs of adjacent words and is exact elsewhere; the carry out of the
most significant word does not count. The entries of `pow23_all` are exact as long as no entry that is tripled has
such a pair.
-/

namespace DbcSnark.DBCTest

open BigEndian (value)

namespace MyBigInt

variable {INTS : ℕ}

/-! ## When a carry is dropped -/

/-- Two adjacent words at which the carry out of the second one overflows the first one. -/
def Overflows (d next : ℕ) : Prop :=
  d = 0x55555555 ∧ 0x55555556 ≤ next ∨ d = 0xAAAAAAAA ∧ 0xAAAAAAAB ≤ next

instance (d next : ℕ) : Decidable (Overflows d next) := inferInstanceAs (Decidable (_ ∨ _))

/-- No two adjacent words below the most significant one overflow. -/
def CarriesKept (x : MyBigInt INTS) : Prop := x.data.tail.IsChain fun d next => ¬Overflows d next

instance (x : MyBigInt INTS) : Decidable (CarriesKept x) := inferInstanceAs (Decidable (List.IsChain _ _))

private theorem overflows_iff {d next : ℕ} (left : d < 2 ^ 32) (right : next < 2 ^ 32) :
    ((next * 3) >>> 32 + d * 3 % 2 ^ 32) / 2 ^ 32 = 0 ↔ ¬Overflows d next := by
  rw [Nat.shiftRight_eq_div_pow, Overflows]
  obtain ⟨carry, equal⟩ : ∃ carry, carry = next * 3 / 2 ^ 32 := ⟨_, rfl⟩
  have low : d * 3 % 2 ^ 32 = d * 3 - 2 ^ 32 * (d * 3 / 2 ^ 32) := by omega
  obtain none | one | two : d * 3 / 2 ^ 32 = 0 ∨ d * 3 / 2 ^ 32 = 1 ∨ d * 3 / 2 ^ 32 = 2 := by omega
  all_goals
    rw [← equal]
    obtain rfl | rfl | rfl : carry = 0 ∨ carry = 1 ∨ carry = 2 := by omega
    all_goals omega

theorem lostCarries_eq_zero_iff {ds : List ℕ} (word : ∀ d ∈ ds, d < 2 ^ 32) :
    lostCarries ds = 0 ↔ ds.IsChain fun d next => ¬Overflows d next := by
  induction ds with
  | nil => exact iff_of_true rfl .nil
  | cons d ds ih =>
    have rest := ih fun e member => word e (List.mem_cons_of_mem _ member)
    have small := word d List.mem_cons_self
    have positive : 0 < (2 ^ 32) ^ (ds.length + 1) := by positivity
    rw [lostCarries, Nat.add_eq_zero_iff, rest, mul_eq_zero_iff_right positive.ne']
    cases ds with
    | nil =>
      refine iff_of_true ⟨?_, .nil⟩ (.singleton d)
      simp only [List.headD_nil, Nat.zero_mul, Nat.shiftRight_eq_div_pow]
      omega
    | cons next ds =>
      rw [List.isChain_cons_cons, List.headD_cons,
        overflows_iff small (word next (List.mem_cons_of_mem _ List.mem_cons_self))]

private theorem lostCarries_le (ds : List ℕ) (word : ∀ d ∈ ds, d < 2 ^ 32) :
    lostCarries ds ≤ 2 * (2 ^ 32) ^ ds.length := by
  induction ds with
  | nil => exact Nat.zero_le _
  | cons d ds ih =>
    have rest := ih fun e member => word e (List.mem_cons_of_mem _ member)
    have next : ds.headD 0 < 2 ^ 32 := by
      cases ds with
      | nil => exact Nat.two_pow_pos 32
      | cons e es => exact word e (List.mem_cons_of_mem _ List.mem_cons_self)
    have carry : ((ds.headD 0 * 3) >>> 32 + d * 3 % 2 ^ 32) / 2 ^ 32 ≤ 1 := by
      rw [Nat.shiftRight_eq_div_pow]
      omega
    calc lostCarries (d :: ds) ≤ 1 * (2 ^ 32) ^ (ds.length + 1) + 2 * (2 ^ 32) ^ ds.length :=
        Nat.add_le_add (Nat.mul_le_mul_right _ carry) rest
      _ ≤ 2 * (2 ^ 32) ^ (d :: ds).length := by
        rw [List.length_cons, pow_succ]
        omega

/-- `mul_3` triples modulo the width of the record exactly when no carry below the most significant word is dropped. -/
theorem toNat_mul3_iff (x : MyBigInt INTS) :
    (mul3 x).toNat = 3 * x.toNat % (2 ^ 32) ^ INTS ↔ CarriesKept x := by
  have bound := toNat_lt (mul3 x)
  have words := value_mul3Words x.data
  have kept := lostCarries_eq_zero_iff (fun d member => x.word d (List.mem_of_mem_tail member) :
    ∀ d ∈ x.data.tail, d < 2 ^ 32)
  have small := lostCarries_le x.data.tail fun d member => x.word d (List.mem_of_mem_tail member)
  have size := x.size
  rw [CarriesKept, ← kept]
  change value (2 ^ 32) (mul3Words x.data) = 3 * value (2 ^ 32) x.data % _ ↔ _
  change value (2 ^ 32) (mul3Words x.data) < _ at bound
  generalize x.data = ds at *
  cases ds with
  | nil =>
    cases size
    exact iff_of_true (Nat.lt_one_iff.mp bound) rfl
  | cons d ds =>
    rw [List.tail_cons] at small ⊢
    obtain rfl : ds.length + 1 = INTS := size
    have below : lostCarries ds < (2 ^ 32) ^ (ds.length + 1) := by
      have positive : 0 < (2 ^ 32) ^ ds.length := by positivity
      rw [pow_succ]
      omega
    -- the carries out of the most significant word are multiples of the modulus
    have split : 3 * value (2 ^ 32) (d :: ds) % (2 ^ 32) ^ (ds.length + 1) =
        (value (2 ^ 32) (mul3Words (d :: ds)) + lostCarries ds) % (2 ^ 32) ^ (ds.length + 1) := by
      rw [← words, lostCarries, List.length_cons, ← Nat.add_mul_mod_self_right (value _ _ + _)
        ((d * 3) >>> 32 + ((ds.headD 0 * 3) >>> 32 + d * 3 % 2 ^ 32) / 2 ^ 32), List.headD_cons]
      congr 1
      ring
    rw [split]
    constructor
    · intro equal
      have residue : value (2 ^ 32) (mul3Words (d :: ds)) + lostCarries ds ≡ value (2 ^ 32) (mul3Words (d :: ds)) + 0
          [MOD (2 ^ 32) ^ (ds.length + 1)] := (equal.symm.trans (Nat.mod_eq_of_lt bound).symm)
      exact Nat.eq_zero_of_dvd_of_lt (Nat.modEq_zero_iff_dvd.mp residue.add_left_cancel') below
    · intro none
      rw [none, Nat.add_zero, Nat.mod_eq_of_lt bound]

end MyBigInt

open MyBigInt

/-! ## The table -/

namespace Powers

variable {INTS : ℕ} (T : Powers INTS) (i j : ℕ)

@[simp] theorem set_self (v : MyBigInt INTS) : T.set i j v i j = v := by
  rw [set, Function.update_self, Function.update_self]

theorem set_of_row_ne {r : ℕ} (v : MyBigInt INTS) (apart : r ≠ i) (c : ℕ) : T.set i j v r c = T r c := by
  rw [set, Function.update_of_ne apart]

theorem set_of_column_ne {c : ℕ} (v : MyBigInt INTS) (apart : c ≠ j) : T.set i j v i c = T i c := by
  rw [set, Function.update_self, Function.update_of_ne apart]

theorem fillRow_of_row_ne {r : ℕ} (apart : r ≠ i) (rounds : ℕ) (c : ℕ) : fillRow i rounds j T r c = T r c := by
  induction rounds generalizing j T with
  | zero => rfl
  | succ rounds ih =>
    rw [fillRow]
    split
    · rfl
    · rw [ih, set_of_row_ne _ _ _ _ apart]

theorem fillRow_of_column_lt {c : ℕ} (before : c < j) (rounds : ℕ) : fillRow i rounds j T i c = T i c := by
  induction rounds generalizing j T with
  | zero => rfl
  | succ rounds ih =>
    rw [fillRow]
    split
    · rfl
    · rw [ih _ _ (by omega), set_of_column_ne _ _ _ _ (by omega)]

/-- The loop over `j` triples the entry in front of it, up to the entry that the test leaves out. -/
theorem fillRow_apply (rounds : ℕ) (positive : 0 < j) {k : ℕ} (reached : k < rounds)
    (fits : 2 ^ i * 3 ^ (j + k) ≤ 2 ^ (32 * INTS)) :
    fillRow i rounds j T i (j + k) = MyBigInt.mul3^[k + 1] (T i (j - 1)) := by
  induction rounds generalizing j T k with
  | zero => cases reached
  | succ rounds ih =>
    have here : 2 ^ i * 3 ^ j ≤ 2 ^ (32 * INTS) :=
      le_trans (Nat.mul_le_mul_left _ (Nat.pow_le_pow_right (by decide) (Nat.le_add_right j k))) fits
    rw [fillRow, if_neg here.not_gt]
    cases k with
    | zero =>
      change fillRow i rounds (j + 1) _ i j = _
      rw [fillRow_of_column_lt _ _ _ (Nat.lt_add_one j), set_self, Nat.zero_add, Function.iterate_one]
    | succ k =>
      rw [show j + (k + 1) = j + 1 + k by omega] at fits ⊢
      rw [ih _ (j + 1) (Nat.succ_pos j) (by omega) fits, Nat.add_sub_cancel, set_self, ← Function.iterate_succ_apply]

/-- The loop over `j` leaves the entries alone that its test or its bound keeps out. -/
theorem fillRow_of_left_out (rounds : ℕ) {c : ℕ} (out : j + rounds ≤ c ∨ 2 ^ (32 * INTS) < 2 ^ i * 3 ^ c) :
    fillRow i rounds j T i c = T i c := by
  induction rounds generalizing j T with
  | zero => rfl
  | succ rounds ih =>
    rw [fillRow]
    split
    · rfl
    · next inside =>
      have other : c ≠ j := by
        rintro rfl
        omega
      rw [ih _ _ (by omega), set_of_column_ne _ _ _ _ other]

/-- What the rounds of the loop over `i` leave in the first rows. -/
private theorem foldl_fill (rows : ℕ) (r : ℕ) (done : r < rows) (c : ℕ) (column : c < MAX_3 INTS)
    (fits : 2 ^ r * 3 ^ c ≤ 2 ^ (32 * INTS)) (first : T 0 0 = .ofNat INTS 1) :
    (List.range rows).foldl fill T r c = MyBigInt.mul3^[c] (MyBigInt.mul2^[r] (.ofNat INTS 1)) := by
  induction rows generalizing r c with
  | zero => cases done
  | succ rows ih =>
    rw [List.range_succ, List.foldl_append, List.foldl_cons, List.foldl_nil, fill]
    rcases Nat.lt_succ_iff_lt_or_eq.mp done with before | rfl
    · rw [fillRow_of_row_ne _ _ _ before.ne]
      split
      · rw [set_of_row_ne _ _ _ _ before.ne, ih r before c column fits]
      · exact ih r before c column fits
    · have start : (if 0 < r then ((List.range r).foldl fill T).set r 0 ((List.range r).foldl fill T (r - 1) 0).mul2
          else (List.range r).foldl fill T) r 0 = MyBigInt.mul2^[r] (.ofNat INTS 1) := by
        cases r with
        | zero => exact first
        | succ r =>
          have above : 2 ^ r * 3 ^ 0 ≤ 2 ^ (32 * INTS) :=
            le_trans (Nat.mul_le_mul (Nat.pow_le_pow_right (by decide) (Nat.le_succ r))
              (Nat.pow_le_pow_right (by decide) (Nat.zero_le c))) fits
          rw [if_pos (Nat.succ_pos r), set_self, Nat.add_sub_cancel, ih r (Nat.lt_succ_self r) 0 (by omega) above,
            Function.iterate_zero_apply, Function.iterate_succ_apply']
      cases c with
      | zero => rw [fillRow_of_column_lt _ _ _ Nat.one_pos, start, Function.iterate_zero_apply]
      | succ c =>
        have entry := fillRow_apply (if 0 < r then ((List.range r).foldl fill T).set r 0
          ((List.range r).foldl fill T (r - 1) 0).mul2 else (List.range r).foldl fill T) r 1 (MAX_3 INTS - 1) Nat.one_pos
          (k := c) (by omega) (by rwa [Nat.add_comm])
        rw [Nat.add_comm c 1, entry, Nat.sub_self, start, Nat.add_comm]

/-- The rounds of the loop over `i` leave the entries alone behind the columns they reach. -/
private theorem foldl_fill_of_left_out (rows : ℕ) {r c : ℕ} (behind : 0 < c)
    (out : MAX_3 INTS ≤ c ∨ 2 ^ (32 * INTS) < 2 ^ r * 3 ^ c) : (List.range rows).foldl fill T r c = T r c := by
  induction rows with
  | zero => rfl
  | succ rows ih =>
    rw [List.range_succ, List.foldl_append, List.foldl_cons, List.foldl_nil, fill]
    rcases eq_or_ne r rows with rfl | other
    · rw [fillRow_of_left_out _ _ _ _ (by omega)]
      split
      · rw [set_of_column_ne _ _ _ _ behind.ne', ih]
      · exact ih
    · rw [fillRow_of_row_ne _ _ _ other]
      split
      · rw [set_of_row_ne _ _ _ _ other, ih]
      · exact ih

end Powers

variable {INTS : ℕ}

/-- The entries that `init` writes. -/
def Powers.Written (INTS i j : ℕ) : Prop := i < 32 * INTS ∧ j < MAX_3 INTS ∧ 2 ^ i * 3 ^ j ≤ 2 ^ (32 * INTS)

/-- `init` leaves the other entries of its rows zero. -/
theorem init_of_not_written {i j : ℕ} (row : i < 32 * INTS) (behind : 0 < j) (out : ¬ Powers.Written INTS i j) :
    init INTS i j = .ofNat INTS 0 := by
  have left : MAX_3 INTS ≤ j ∨ 2 ^ (32 * INTS) < 2 ^ i * 3 ^ j := by
    by_contra inside
    exact out ⟨row, by omega, by omega⟩
  rw [init, Powers.foldl_fill_of_left_out _ _ behind left]
  rcases eq_or_ne i 0 with rfl | other
  · rw [Powers.set_of_column_ne _ _ _ _ behind.ne']
  · rw [Powers.set_of_row_ne _ _ _ _ other]

/-- The entries of the table that fit are what the recurrences make of one. -/
theorem init_apply {i j : ℕ} (row : i < 32 * INTS) (column : j < MAX_3 INTS) (fits : 2 ^ i * 3 ^ j ≤ 2 ^ (32 * INTS)) :
    init INTS i j = MyBigInt.mul3^[j] (MyBigInt.mul2^[i] (.ofNat INTS 1)) :=
  Powers.foldl_fill _ _ i row j column fits (Powers.set_self _ _ _ _)

/-- The entries below the width of the record are the powers. -/
def PowersExact (INTS : ℕ) : Prop :=
  ∀ i < 32 * INTS, ∀ j < MAX_3 INTS, 2 ^ i * 3 ^ j < (2 ^ 32) ^ INTS → (init INTS i j).toNat = 2 ^ i * 3 ^ j

/-- No entry that is tripled into another one drops a carry. -/
def EntriesKept (INTS : ℕ) : Prop :=
  ∀ i < 32 * INTS, ∀ j, j + 1 < MAX_3 INTS → 2 ^ i * 3 ^ (j + 1) < (2 ^ 32) ^ INTS →
    CarriesKept (.ofNat INTS (2 ^ i * 3 ^ j))

private theorem toNat_iterate_mul2 (i : ℕ) (fits : 2 ^ i < (2 ^ 32) ^ INTS) :
    (MyBigInt.mul2^[i] (.ofNat INTS 1)).toNat = 2 ^ i := by
  induction i with
  | zero =>
    rw [pow_zero] at fits ⊢
    rw [Function.iterate_zero_apply, toNat_ofNat, Nat.mod_eq_of_lt fits]
  | succ i ih =>
    have half : 2 ^ (i + 1) = 2 * 2 ^ i := pow_succ' 2 i
    rw [Function.iterate_succ_apply', toNat_mul2, ih (by omega), ← half, Nat.mod_eq_of_lt fits]

/-- The entry behind an exact entry is exact when tripling it drops no carry. -/
private theorem init_succ_iff {i j : ℕ} (row : i < 32 * INTS) (column : j + 1 < MAX_3 INTS)
    (fits : 2 ^ i * 3 ^ (j + 1) < (2 ^ 32) ^ INTS) (entry : (init INTS i j).toNat = 2 ^ i * 3 ^ j) :
    (init INTS i (j + 1)).toNat = 2 ^ i * 3 ^ (j + 1) ↔ CarriesKept (.ofNat INTS (2 ^ i * 3 ^ j)) := by
  have triple : 2 ^ i * 3 ^ (j + 1) = 3 * (2 ^ i * 3 ^ j) := by rw [pow_succ, ← Nat.mul_assoc, Nat.mul_comm]
  have same : init INTS i j = .ofNat INTS (2 ^ i * 3 ^ j) := by rw [← entry, ofNat_toNat]
  have next : init INTS i (j + 1) = (init INTS i j).mul3 := by
    rw [init_apply row column (by rw [pow_mul]; exact fits.le),
      init_apply row (by omega) (by rw [pow_mul]; omega), Function.iterate_succ_apply']
  rw [← same, ← toNat_mul3_iff, ← next, entry, ← triple, Nat.mod_eq_of_lt fits]

theorem powersExact_iff : PowersExact INTS ↔ EntriesKept INTS := by
  constructor
  · intro exact_entries i row j column fits
    have smaller : 2 ^ i * 3 ^ j ≤ 2 ^ i * 3 ^ (j + 1) :=
      Nat.mul_le_mul_left _ (Nat.pow_le_pow_right (by decide) (Nat.le_succ j))
    exact (init_succ_iff row column fits (exact_entries i row j (by omega) (by omega))).mp
      (exact_entries i row (j + 1) column fits)
  · intro kept i row j column fits
    induction j with
    | zero =>
      rw [pow_zero, Nat.mul_one] at fits ⊢
      have start := init_apply row column (by rw [pow_mul, pow_zero, Nat.mul_one]; exact fits.le)
      rw [start, Function.iterate_zero_apply, toNat_iterate_mul2 i fits]
    | succ j ih =>
      have smaller : 2 ^ i * 3 ^ j ≤ 2 ^ i * 3 ^ (j + 1) :=
        Nat.mul_le_mul_left _ (Nat.pow_le_pow_right (by decide) (Nat.le_succ j))
      exact (init_succ_iff row column fits (ih (by omega) (by omega))).mpr (kept i row j column fits)

/-! ## The entries of the four widths -/

/-- The positions from which each of 31 adjacent bits differs from the next higher one. -/
def alternations (n : ℕ) : ℕ :=
  let differ := n ^^^ n >>> 1
  let differ := differ &&& differ >>> 1
  let differ := differ &&& differ >>> 2
  let differ := differ &&& differ >>> 4
  let differ := differ &&& differ >>> 8
  differ &&& differ >>> 15

private theorem testBit_and_shiftRight {y q m : ℕ} (s : ℕ) (run : ∀ t < m + s, y.testBit (q + t) = true) :
    ∀ t < m, (y &&& y >>> s).testBit (q + t) = true := by
  intro t less
  rw [Nat.testBit_and, Nat.testBit_shiftRight, run t (by omega), show s + (q + t) = q + (t + s) by omega,
    run (t + s) (by omega), Bool.and_self]

private theorem testBit_alternations {n q : ℕ} (differ : ∀ t < 31, n.testBit (q + t) ≠ n.testBit (q + t + 1)) :
    (alternations n).testBit q = true := by
  have single : ∀ t < 31, (n ^^^ n >>> 1).testBit (q + t) = true := by
    intro t less
    rw [Nat.testBit_xor, Nat.testBit_shiftRight, Nat.add_comm 1, bne_iff_ne]
    exact differ t less
  exact testBit_and_shiftRight 15 (testBit_and_shiftRight 8 (testBit_and_shiftRight 4 (testBit_and_shiftRight 2
    (testBit_and_shiftRight 1 single)))) 0 Nat.one_pos

/-- No power of three in the tables, shifted by one bit, has so many alternating bits. -/
private theorem alternations_pow : ∀ j < 344, alternations (2 * 3 ^ j) = 0 := by decide +kernel

/-- A word of an entry has two equal bits next to each other: its bits are those of the power of three, with zeros below. -/
private theorem word_ne {i j k c : ℕ} (column : j < 344) (alternating : ∀ t < 31, c.testBit t ≠ c.testBit (t + 1)) :
    2 ^ i * 3 ^ j / (2 ^ 32) ^ k % 2 ^ 32 ≠ c := by
  rintro rfl
  have bits : ∀ t < 32, (2 ^ i * 3 ^ j / (2 ^ 32) ^ k % 2 ^ 32).testBit t =
      (decide (i ≤ 32 * k + t) && (3 ^ j).testBit (32 * k + t - i)) := by
    intro t less
    rw [Nat.testBit_mod_two_pow, ← pow_mul, Nat.testBit_div_two_pow, Nat.testBit_two_pow_mul, Nat.add_comm t]
    simp [less]
  rcases Nat.lt_or_ge (32 * k + 1) i with low | high
  · apply alternating 0 (by decide)
    rw [bits 0 (by decide), bits 1 (by decide)]
    simp [show ¬ i ≤ 32 * k by omega, show ¬ i ≤ 32 * k + 1 by omega]
  · have run := @testBit_alternations (2 * 3 ^ j) (32 * k + 1 - i) fun t less => by
      have shifted (t : ℕ) : (2 * 3 ^ j).testBit (32 * k + 1 - i + t) =
          (decide (i ≤ 32 * k + t) && (3 ^ j).testBit (32 * k + t - i)) := by
        have product := @Nat.testBit_two_pow_mul 1 (3 ^ j) (32 * k + 1 - i + t)
        rw [pow_one] at product
        rw [product, show 32 * k + 1 - i + t - 1 = 32 * k + t - i by omega]
        congr 1
        exact decide_eq_decide.mpr (by omega)
      have other := alternating t less
      rw [bits t (by omega), bits (t + 1) (by omega)] at other
      rw [Nat.add_assoc, shifted, shifted]
      exact other
    rw [alternations_pow j column, Nat.zero_testBit] at run
    cases run

/-- Up to 344 columns of the table no tripled entry drops a carry. -/
theorem entriesKept_of_le (columns : MAX_3 INTS ≤ 344) : EntriesKept INTS := by
  intro i _ j column _
  have few : j < 344 := by omega
  have first : ∀ t < 31, (0x55555555 : ℕ).testBit t ≠ (0x55555555 : ℕ).testBit (t + 1) := by decide
  have second : ∀ t < 31, (0xAAAAAAAA : ℕ).testBit t ≠ (0xAAAAAAAA : ℕ).testBit (t + 1) := by decide
  have words : ∀ d ∈ (MyBigInt.ofNat INTS (2 ^ i * 3 ^ j)).data.tail, ∀ next, ¬ Overflows d next := by
    intro d member next
    have digit : d ∈ BigEndian.digits (2 ^ 32) INTS (2 ^ i * 3 ^ j) := List.mem_of_mem_tail member
    rw [BigEndian.digits_eq_map, List.mem_map] at digit
    obtain ⟨k, -, rfl⟩ := digit
    rintro (⟨same, -⟩ | ⟨same, -⟩)
    · exact word_ne few first same
    · exact word_ne few second same
  have chain : ∀ ds : List ℕ, (∀ d ∈ ds, ∀ next, ¬ Overflows d next) → ds.IsChain fun d next => ¬ Overflows d next := by
    intro ds kept
    induction ds with
    | nil => exact .nil
    | cons d ds ih =>
      cases ds with
      | nil => exact .singleton d
      | cons next ds =>
        exact List.isChain_cons_cons.mpr ⟨kept d List.mem_cons_self next,
          ih fun e member => kept e (List.mem_cons_of_mem d member)⟩
  exact chain _ words

/-- The four widths of the header are such. -/
theorem entriesKept : EntriesKept 5 ∧ EntriesKept 9 ∧ EntriesKept 13 ∧ EntriesKept 17 :=
  ⟨entriesKept_of_le (by decide), entriesKept_of_le (by decide), entriesKept_of_le (by decide),
    entriesKept_of_le (by decide)⟩

/-- Doubling and tripling are exact on the numbers without a pair of words that overflows, and the table of powers is
exact when all numbers that it triples are such. -/
theorem small_multiples_iff (INTS : ℕ) :
    (∀ x : MyBigInt INTS, (x.mul2.toNat = 2 * x.toNat % (2 ^ 32) ^ INTS ∧
      x.mul3.toNat = 3 * x.toNat % (2 ^ 32) ^ INTS) ↔ CarriesKept x) ∧
    (∀ x : UInt288, ((UInt288.mul2 x).toNat = 2 * x.toNat % (2 ^ 32) ^ 9 ∧
      (UInt288.mul3 x).toNat = 3 * x.toNat % (2 ^ 32) ^ 9) ↔ CarriesKept x) ∧
    (PowersExact INTS ↔ EntriesKept INTS) := by
  have multiples : ∀ INTS (x : MyBigInt INTS), (x.mul2.toNat = 2 * x.toNat % (2 ^ 32) ^ INTS ∧
      x.mul3.toNat = 3 * x.toNat % (2 ^ 32) ^ INTS) ↔ CarriesKept x := fun _ x =>
    (and_iff_right (toNat_mul2 x)).trans (toNat_mul3_iff x)
  exact ⟨multiples INTS, multiples 9, powersExact_iff⟩

/-- The triple of a number of three words is too small by `2 ^ 64`. -/
theorem small_multiples_lost_carry : ¬ ∀ (INTS : ℕ) (x : MyBigInt INTS),
    x.mul2.toNat = 2 * x.toNat % (2 ^ 32) ^ INTS ∧ x.mul3.toNat = 3 * x.toNat % (2 ^ 32) ^ INTS := by
  intro claim
  exact absurd (claim 3 (.ofNat 3 0x5555555555555556)).2 (by decide +kernel)

end DbcSnark.DBCTest
