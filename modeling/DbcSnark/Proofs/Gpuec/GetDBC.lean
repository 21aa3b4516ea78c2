import DbcSnark.Model.Gpuec.GetDBC
import DbcSnark.Proofs.DBCTest.Greedy

/-! # `get_DBC` fills the slot it returns

A candidate with a nonnegative `RBound` starts from a power product of at most `3 * n`, so every index stays
inside the tables; when its subtractions lose no borrow the search follows the greedy expansion of `n`, which
ends, and up to `DBC_MAXLENGTH` rows fit the slot. The comparison of prices then always leaves `1 - DBC_index`
naming a slot that was filled. The code checks none of these conditions, and for each of them a scalar breaks it.
-/

namespace DbcSnark.Gpuec

open DBCTest DBCTest.MyBigInt DBCTest.Greedy DoubleBase

variable {u_pow23 : ℕ → ℕ → UInt288}

/-! ## The store -/

private def widen (r : ℤ × ℕ × ℕ) : ℤ × ℤ × ℤ := (r.1, r.2.1, r.2.2)

private theorem readRow_writeRow_same (store : ℕ → ℤ) (x y : ℕ) (row : ℤ × ℕ × ℕ) :
    readRow (writeRow store x y row) x y = widen row := by
  simp [readRow, writeRow, widen, storeIndex]

private theorem readRow_writeRow_of_ne (store : ℕ → ℤ) {x y x' y' : ℕ} (row : ℤ × ℕ × ℕ) (bound : y < DBC_MAXLENGTH)
    (bound' : y' < DBC_MAXLENGTH) (differ : x ≠ x' ∨ y ≠ y') :
    readRow (writeRow store x y row) x' y' = readRow store x' y' := by
  have apart : ∀ k < 3, ∀ k' < 3, storeIndex x' y' k' ≠ storeIndex x y k := by
    intro k small k' small'
    unfold storeIndex DBC_MAXLENGTH at *
    omega
  simp only [readRow, writeRow]
  rw [Function.update_of_ne, Function.update_of_ne, Function.update_of_ne, Function.update_of_ne,
    Function.update_of_ne, Function.update_of_ne, Function.update_of_ne, Function.update_of_ne,
    Function.update_of_ne] <;> exact apart _ (by norm_num) _ (by norm_num)

/-- The first rows of chain `x` in the store. -/
def Stores (store : ℕ → ℤ) (x : ℕ) (rows : List (ℤ × ℕ × ℕ)) : Prop :=
  (List.range rows.length).map (readRow store x) = rows.map fun r => (r.1, (r.2.1 : ℤ), (r.2.2 : ℤ))

private theorem Stores.append {store : ℕ → ℤ} {x : ℕ} {rows : List (ℤ × ℕ × ℕ)} (stores : Stores store x rows)
    (bound : rows.length < DBC_MAXLENGTH) (row : ℤ × ℕ × ℕ) :
    Stores (writeRow store x rows.length row) x (rows ++ [row]) := by
  unfold Stores at *
  rw [List.length_append, List.length_singleton, List.range_succ, List.map_append, List.map_append, ← stores]
  congr 1
  · apply List.map_congr_left
    intro y member
    rw [List.mem_range] at member
    exact readRow_writeRow_of_ne store row bound (by omega) (.inr (by omega))
  · simp only [List.map_cons, List.map_nil, readRow_writeRow_same, widen]

/-- Rows `y < DBC_MAXLENGTH` of the other chain are the same in both stores. -/
def SameElsewhere (x : ℕ) (store store' : ℕ → ℤ) : Prop :=
  ∀ x' y, x' ≠ x → y < DBC_MAXLENGTH → readRow store' x' y = readRow store x' y

/-! ## Accepted candidates -/

/-- The code accepts the candidate `b`. -/
abbrev Accepted (n b : ℕ) : Prop := LBound n b = RBound n b

private theorem truncLog2_of_ge {num den a : ℕ} (positive : 0 < den) (low : 2 ^ a * den ≤ num)
    (high : num < 2 ^ (a + 1) * den) : truncLog2 num den = a := by
  have reach : den ≤ num := (Nat.le_mul_of_pos_left _ (by positivity)).trans low
  rw [truncLog2, if_pos reach, Nat.log_eq_of_pow_le_of_lt_pow]
  · rwa [Nat.le_div_iff_mul_le positive]
  · rwa [Nat.div_lt_iff_lt_mul positive]

private theorem truncLog2_of_lt {num den c : ℕ} (positive : 0 < num) (low : 2 ^ c * num < den)
    (high : den < 2 ^ (c + 1) * num) : truncLog2 num den = -c := by
  have below : num < den := (Nat.le_mul_of_pos_left _ (by positivity)).trans_lt low
  rw [truncLog2, if_neg (not_le.mpr below), Nat.log_eq_of_pow_le_of_lt_pow]
  · rw [Nat.le_div_iff_mul_le positive]
    exact low.le
  · rwa [Nat.div_lt_iff_lt_mul positive]

/-- A power product strictly between `B1` and `B2` makes its exponent of 3 acceptable. -/
theorem accepted_of_between {n b : ℕ} {a : ℤ} (low : (9091372900969896 * n : ℚ) < 10 ^ 16 * (2 ^ a * 3 ^ b))
    (high : (10 ^ 16 * (2 ^ a * 3 ^ b) : ℚ) < 10774960475223583 * n) : Accepted n b := by
  have positive : 0 < n := by
    by_contra none
    have zero : n = 0 := by omega
    subst zero
    have : (0 : ℚ) < 10 ^ 16 * (2 ^ a * 3 ^ b) := by positivity
    norm_num at high
    linarith
  obtain ⟨k, rfl⟩ | ⟨k, rfl⟩ : (∃ k : ℕ, a = k) ∨ ∃ k : ℕ, a = -(k + 1) := by
    rcases Int.lt_or_le a 0 with negative | nonneg
    · exact .inr ⟨(-a - 1).toNat, by omega⟩
    · exact .inl ⟨a.toNat, by omega⟩
  · rw [zpow_natCast] at low high
    norm_cast at low high
    have scale : 2 ^ k * (10 ^ 16 * 3 ^ b) = 10 ^ 16 * (2 ^ k * 3 ^ b) := by ring
    have twice : 2 ^ (k + 1) * (10 ^ 16 * 3 ^ b) = 2 * (10 ^ 16 * (2 ^ k * 3 ^ b)) := by ring
    rw [Accepted, LBound, RBound, truncLog2_of_ge (a := k) (by positivity) (by omega) (by omega),
      truncLog2_of_ge (a := k) (by positivity) (by omega) (by omega)]
  · have power : (2 : ℚ) ^ (-(k + 1 : ℤ)) = 1 / 2 ^ (k + 1) := by
      rw [zpow_neg, one_div]
      norm_cast
    have low' : 9091372900969896 * n * 2 ^ (k + 1) < 10 ^ 16 * 3 ^ b := by
      rw [power, ← mul_assoc, mul_one_div, div_mul_eq_mul_div, lt_div_iff₀ (by positivity)] at low
      exact_mod_cast low
    have high' : 10 ^ 16 * 3 ^ b < 10774960475223583 * n * 2 ^ (k + 1) := by
      rw [power, ← mul_assoc, mul_one_div, div_mul_eq_mul_div, div_lt_iff₀ (by positivity)] at high
      exact_mod_cast high
    have low'' : 2 * (9091372900969896 * (2 ^ k * n)) < 10 ^ 16 * 3 ^ b := by
      calc _ = 9091372900969896 * n * 2 ^ (k + 1) := by ring
        _ < _ := low'
    have high'' : 10 ^ 16 * 3 ^ b < 2 * (10774960475223583 * (2 ^ k * n)) := by
      calc _ < 10774960475223583 * n * 2 ^ (k + 1) := high'
        _ = _ := by ring
    have scale : ∀ m, 2 ^ k * (m * n) = m * (2 ^ k * n) := fun m => by ring
    have twice : ∀ m, 2 ^ (k + 1) * (m * n) = 2 * (m * (2 ^ k * n)) := fun m => by ring
    have some : 0 < 2 ^ k * n := by positivity
    rw [Accepted, LBound, RBound, truncLog2_of_lt (c := k) (by positivity) (by rw [scale]; omega) (by rw [twice]; omega),
      truncLog2_of_lt (c := k) (by positivity) (by rw [scale]; omega) (by rw [twice]; omega)]

/-- The powers of 3 that are tried first lie so densely among the powers of 2 that one is always accepted. -/
theorem exists_accepted {n : ℕ} (positive : 0 < n) : ∃ b ∈ b_try.take DBC_COEF, Accepted n b := by
  have ratio : (0 : ℚ) < 9091372900969896 * n / (10 ^ 16 * 3 ^ 72) := by positivity
  obtain ⟨e, low, high⟩ := exists_mem_Ico_zpow ratio (one_lt_two : (1 : ℚ) < 2)
  rw [le_div_iff₀ (by positivity)] at low
  rw [div_lt_iff₀ (by positivity)] at high
  have unit : (0 : ℚ) < 2 ^ e := by positivity
  have shift : ∀ s : ℤ, (2 : ℚ) ^ (e + s) = 2 ^ e * 2 ^ s := fun s => zpow_add₀ two_ne_zero e s
  rw [zpow_add_one₀ two_ne_zero] at high
  have accept : ∀ b (s : ℤ), b ∈ b_try.take DBC_COEF →
      (9091372900969896 * n : ℚ) < 10 ^ 16 * (2 ^ e * 2 ^ s * 3 ^ b) →
      (10 ^ 16 * (2 ^ e * 2 ^ s * 3 ^ b) : ℚ) < 10774960475223583 * n → ∃ b ∈ b_try.take DBC_COEF, Accepted n b := by
    intro b s member less more
    rw [← shift] at less more
    exact ⟨b, member, accepted_of_between less more⟩
  generalize (2 : ℚ) ^ e = u at *
  -- the first of these products to exceed `B1` is still below `B2`
  rcases lt_or_ge (9091372900969896 * n : ℚ) (10 ^ 16 * (u * 2 ^ (-3 : ℤ) * 3 ^ 74)) with less | above
  · exact accept 74 (-3) (by decide) less (by norm_num at *; linarith)
  rcases lt_or_ge (9091372900969896 * n : ℚ) (10 ^ 16 * (u * 2 ^ (-6 : ℤ) * 3 ^ 76)) with less | above
  · exact accept 76 (-6) (by decide) less (by norm_num at *; linarith)
  rcases lt_or_ge (9091372900969896 * n : ℚ) (10 ^ 16 * (u * 2 ^ (2 : ℤ) * 3 ^ 71)) with less | above
  · exact accept 71 2 (by decide) less (by norm_num at *; linarith)
  rcases lt_or_ge (9091372900969896 * n : ℚ) (10 ^ 16 * (u * 2 ^ (-1 : ℤ) * 3 ^ 73)) with less | above
  · exact accept 73 (-1) (by decide) less (by norm_num at *; linarith)
  rcases lt_or_ge (9091372900969896 * n : ℚ) (10 ^ 16 * (u * 2 ^ (-4 : ℤ) * 3 ^ 75)) with less | above
  · exact accept 75 (-4) (by decide) less (by norm_num at *; linarith)
  rcases lt_or_ge (9091372900969896 * n : ℚ) (10 ^ 16 * (u * 2 ^ (4 : ℤ) * 3 ^ 70)) with less | above
  · exact accept 70 4 (by decide) less (by norm_num at *; linarith)
  · exact accept 72 1 (by decide) (by norm_num at *; linarith) (by norm_num at *; linarith)

/-! ## The remainder -/

/-- `operator-` of `uint288` is exact just when no borrow is lost. Along turns that lose none, the stored rows and
`s * t` add up to `n`, and the next turn keeps this just when it loses none either. -/
theorem remainder_iff (tables : Exact u_pow23) {n : UInt288} {a b : ℕ} (fits : 2 ^ a * 3 ^ b < (2 ^ 32) ^ 9)
    {x : Greedy 9} (run : Relation.ReflTransGen
      (fun u v => Step 6 UInt288.sub u_pow23 u v ∧ Subtracts NoLostBorrow u_pow23 u v) (start n a b) x)
    {alpha beta : ℕ} (left : alpha ≤ x.a) (right : beta ≤ x.b_temp) {u v : UInt288} (less : v.toNat ≤ u.toNat) :
    ((UInt288.sub u v).toNat = u.toNat - v.toNat ↔ NoLostBorrow u v) ∧
      (n.toNat : ℤ) = total x.stored + x.s * x.t.toNat ∧
      let y := x.next UInt288.sub u_pow23 alpha beta
      ((n.toNat : ℤ) = total y.stored + y.s * y.t.toNat ↔
        NoLostBorrow (x.operands u_pow23 alpha beta).1 (x.operands u_pow23 alpha beta).2) := by
  have balanced := (Balanced.start (n := n) fits).run toNat_uint288_sub tables run
  have smaller : 2 ^ alpha * 3 ^ beta < (2 ^ 32) ^ 9 := by
    apply lt_of_le_of_lt _ balanced.fits
    gcongr <;> norm_num
  obtain ⟨ordered, sum⟩ := next_sum_iff UInt288.sub tables smaller balanced
  exact ⟨uint288_sub_iff u v less, balanced.sum, sum.trans (uint288_sub_iff _ _ ordered)⟩

/-- The search for `13` after the turn that stored `12`. -/
def thirteenLessTwelve : Greedy 9 := (start (.ofNat 9 13) 3 1).next UInt288.sub (powTable 9) 2 1

theorem remainder_iff_thirteen :
    ((UInt288.sub (.ofNat 9 5) (.ofNat 9 4)).toNat = (MyBigInt.ofNat 9 5).toNat - (MyBigInt.ofNat 9 4).toNat ↔
        NoLostBorrow (MyBigInt.ofNat 9 5) (.ofNat 9 4)) ∧
      ((MyBigInt.ofNat 9 13).toNat : ℤ) =
        total thirteenLessTwelve.stored + thirteenLessTwelve.s * thirteenLessTwelve.t.toNat ∧
      let y := thirteenLessTwelve.next UInt288.sub (powTable 9) 0 0
      (((MyBigInt.ofNat 9 13).toNat : ℤ) = total y.stored + y.s * y.t.toNat ↔
        NoLostBorrow (thirteenLessTwelve.operands (powTable 9) 0 0).1 (thirteenLessTwelve.operands (powTable 9) 0 0).2) := by
  have turn : Step 6 UInt288.sub (powTable 9) (start (.ofNat 9 13) 3 1) thirteenLessTwelve :=
    ⟨by decide, 2, 1, by decide, by decide, by decide, rfl⟩
  have clean : Subtracts NoLostBorrow (powTable 9) (start (.ofNat 9 13) 3 1) thirteenLessTwelve := by
    unfold Subtracts
    decide
  exact remainder_iff (powTable_exact 9) (by decide) (.single ⟨turn, clean⟩) (Nat.zero_le _) (Nat.zero_le _) (by decide)

/-- A zero word swallows the borrow of the words behind it. -/
theorem subtraction_lost_borrow :
    ¬ ∀ a b : UInt288, b.toNat ≤ a.toNat → (UInt288.sub a b).toNat = a.toNat - b.toNat := by
  intro exact
  exact absurd (exact (.ofNat 9 (2 ^ 64)) (.ofNat 9 1) (by decide)) (by decide)

/-! ## One candidate -/

/-- A search that ends within the slot meets no fault and stores its rows. -/
theorem search_run {x : ℕ} (slot : x < 2) {y z : Greedy 9}
    (run : Relation.ReflTransGen (Turn 6 UInt288.sub u_pow23) y z) (finished : z.t.iszero = true)
    (short : z.stored.length ≤ DBC_MAXLENGTH) (left : y.a < MAX_2) (right : y.b_temp < MAX_3) (fuel : ℕ)
    (enough : z.stored.length ≤ y.stored.length + fuel) (store : ℕ → ℤ) (stores : Stores store x y.stored) :
    ∃ store', search u_pow23 x fuel y store = .ok (z.stored.length, store') ∧ Stores store' x z.stored ∧
      SameElsewhere x store store' := by
  induction run using Relation.ReflTransGen.head_induction_on generalizing fuel store with
  | refl =>
    refine ⟨store, ?_, stores, fun _ _ _ _ => rfl⟩
    cases fuel <;> simp [search, finished]
  | @head y y' turn rest ih =>
    obtain ⟨nonzero, rfl⟩ := turn
    have longer := stored_length_le rest
    have inside := pick_window (.exact 9) 6 y.a y.b_temp y.t
    have grows := stored_length_after 6 UInt288.sub u_pow23 y
    have index : storeIndex x y.stored.length 2 < storeSize := by
      unfold storeIndex storeSize DBC_MAXLENGTH at *
      omega
    cases fuel with
    | zero => omega
    | succ fuel =>
      have room : y.stored.length < DBC_MAXLENGTH := by omega
      obtain ⟨store', ends, stores', same⟩ := ih (inside.1.trans_lt left) (inside.2.1.trans_lt right)
        fuel (by omega) _ (stores.append room (y.s, (picked 6 y).1, (picked 6 y).2))
      refine ⟨store', ?_, stores', fun x' y' differs bound => ?_⟩
      · simp only [search, nonzero, Bool.false_eq_true, if_false, left, right, index, and_self, if_true]
        exact ends
      · rw [same x' y' differs bound]
        exact readRow_writeRow_of_ne store _ room bound (.inl differs.symm)

/-- A nonnegative `RBound` keeps the leading power product below `3 * n`. -/
theorem pow_rBound_le {n b : ℕ} (positive : 0 < n) (nonneg : 0 ≤ RBound n b) :
    2 ^ (RBound n b).toNat * 3 ^ b ≤ 3 * n := by
  unfold RBound truncLog2 at *
  split at nonneg <;> rename_i reach
  · rw [if_pos reach, Int.toNat_natCast]
    have quotient : 0 < 10774960475223583 * n / (10 ^ 16 * 3 ^ b) := Nat.div_pos reach (by positivity)
    have power := Nat.pow_log_le_self 2 quotient.ne'
    rw [Nat.le_div_iff_mul_le (by positivity)] at power
    have scaled : 10 ^ 16 * (2 ^ Nat.log 2 (10774960475223583 * n / (10 ^ 16 * 3 ^ b)) * 3 ^ b) ≤
        10774960475223583 * n := by
      calc _ = 2 ^ Nat.log 2 (10774960475223583 * n / (10 ^ 16 * 3 ^ b)) * (10 ^ 16 * 3 ^ b) := by ring
        _ ≤ _ := power
    omega
  · have flat : Nat.log 2 (10 ^ 16 * 3 ^ b / (10774960475223583 * n)) = 0 := by omega
    rw [if_neg reach, flat]
    rw [Nat.log_eq_zero_iff] at flat
    have small : 10 ^ 16 * 3 ^ b / (10774960475223583 * n) < 2 := by omega
    rw [Nat.div_lt_iff_lt_mul (by positivity)] at small
    simp only [CharP.cast_eq_zero, neg_zero, Int.toNat_zero, pow_zero, one_mul]
    omega

/-- Equal bounds bring `n` next to the power product that the search starts from. -/
theorem near_of_equal {n b : ℕ} (equal : LBound n b = RBound n b) :
    2 * n ≤ 3 * (2 ^ (RBound n b).toNat * 3 ^ b) := by
  rw [← equal, LBound, truncLog2]
  have positive : 0 < 10 ^ 16 * 3 ^ b := by positivity
  split
  · next reach =>
    rw [Int.toNat_natCast]
    have bound := Nat.lt_pow_succ_log_self (by decide : 1 < 2) (2 * 9091372900969896 * n / (10 ^ 16 * 3 ^ b))
    rw [Nat.div_lt_iff_lt_mul positive] at bound
    generalize Nat.log 2 (2 * 9091372900969896 * n / (10 ^ 16 * 3 ^ b)) = a at bound ⊢
    have scale : 2 ^ a.succ * (10 ^ 16 * 3 ^ b) = 2 * 10 ^ 16 * (2 ^ a * 3 ^ b) := by rw [pow_succ]; ring
    omega
  · next small =>
    have one : 1 ≤ 2 ^ (-(Nat.log 2 (10 ^ 16 * 3 ^ b / (2 * 9091372900969896 * n)) : ℤ)).toNat := Nat.one_le_two_pow
    have power := Nat.le_mul_of_pos_left (3 ^ b) one
    omega

/-- The state in which the search for the candidate `b` starts. -/
def initial (n : UInt288) (b : ℕ) : Greedy 9 := .start n (RBound n.toNat b).toNat b

/-- What the number `n` must be like for the candidate `b`: the exponent of 2 to start from is not negative, and the greedy
expansion of `n` from there has room in a slot and takes no borrow through a zero word. -/
structure Searchable (n b : ℕ) : Prop where
  rBound : 0 ≤ RBound n b
  short : ∀ terms, Expansion 6 (RBound n b).toNat b n terms → terms.length ≤ DBC_MAXLENGTH
  lends : ∀ terms, Expansion 6 (RBound n b).toNat b n terms →
    ∀ u ∈ subtractions n terms, NoLostBorrow (.ofNat 9 u.1) (.ofNat 9 u.2)

/-- Slot `x` holds what the search for some accepted candidate of this call stored, a chain of `n`. -/
structure Filled (u_pow23 : ℕ → ℕ → UInt288) (n : UInt288) (memory : Memory) (x : ℕ) (y : Greedy 9) : Prop where
  searched : ∃ b ∈ b_try.take DBC_COEF, Accepted n.toNat b ∧
    Relation.ReflTransGen (Turn 6 UInt288.sub u_pow23) (initial n b) y
  finished : y.t.iszero = true
  len : memory.DBC_len x = y.stored.length
  short : y.stored.length ≤ DBC_MAXLENGTH
  stores : Stores memory.DBC_store x y.stored
  chain : IsDoubleBaseChain n.toNat y.stored

private theorem fits_of_le {n a b : ℕ} (bound : n < 2 ^ 256) (power : 2 ^ a * 3 ^ b ≤ 3 * n) :
    2 ^ a * 3 ^ b < (2 ^ 32) ^ 9 :=
  calc 2 ^ a * 3 ^ b < 3 * 2 ^ 256 := by omega
    _ < (2 ^ 32) ^ 9 := by decide

private theorem exponents_of_le {n a b : ℕ} (bound : n < 2 ^ 256) (power : 2 ^ a * 3 ^ b ≤ 3 * n) :
    a < MAX_2 ∧ b < MAX_3 := by
  have small : 2 ^ a * 3 ^ b < 2 ^ 2 * 2 ^ 256 := by omega
  constructor
  · have left : 2 ^ a < 2 ^ (2 + 256) := by
      rw [pow_add]
      exact lt_of_le_of_lt (Nat.le_mul_of_pos_right _ (by positivity)) small
    have := (Nat.pow_lt_pow_iff_right (by norm_num)).mp left
    unfold MAX_2
    omega
  · have right : 3 ^ b < 3 ^ 180 := by
      calc 3 ^ b ≤ 2 ^ a * 3 ^ b := Nat.le_mul_of_pos_left _ (by positivity)
        _ < 2 ^ 2 * 2 ^ 256 := small
        _ < 3 ^ 180 := by decide
    exact (Nat.pow_lt_pow_iff_right (by norm_num)).mp right

/-- Where no borrow is lost, the search for a candidate takes one turn for each term of the expansion. -/
theorem candidate_run (tables : Exact u_pow23) {n : UInt288} (positive : 0 < n.toNat) (bound : n.toNat < 2 ^ 256)
    {b : ℕ} (rBound : 0 ≤ RBound n.toNat b) {terms : List (ℕ × ℕ)}
    (expansion : Expansion 6 (RBound n.toNat b).toNat b n.toNat terms)
    (lends : ∀ u ∈ subtractions n.toNat terms, NoLostBorrow (.ofNat 9 u.1) (.ofNat 9 u.2)) :
    Clean NoLostBorrow 6 UInt288.sub u_pow23 (initial n b) ∧
      ∃ y, Relation.ReflTransGen (Turn 6 UInt288.sub u_pow23) (initial n b) y ∧ y.t.iszero = true ∧
        y.stored.length = terms.length := by
  obtain ⟨clean, y, run, finished, length⟩ := run_of_expansion (x := initial n b) toNat_uint288_sub tables
    (fits_of_le bound (pow_rBound_le positive rBound)) expansion lends
  exact ⟨clean, y, run, finished, length.trans (Nat.zero_add _)⟩

/-- An accepted candidate has an expansion of at most `l + 1 + 2 * (b / 6)` terms when `n` is at most `3 ^ l`. -/
theorem expansion_length_le {n b l : ℕ} (accepted : Accepted n b) (above : n ≤ 3 ^ l) {terms : List (ℕ × ℕ)}
    (expansion : Expansion 6 (RBound n b).toNat b n terms) : terms.length ≤ l + 1 + 2 * (b / 6) :=
  expansion.length_le (by decide) ⟨near_of_equal accepted, .inr (.inl ⟨l, above, le_rfl⟩)⟩

/-- A searchable candidate fills its slot with a chain of `n` and leaves the other slot alone. -/
theorem candidate_fills (tables : Exact u_pow23) {n : UInt288} (positive : 0 < n.toNat) (bound : n.toNat < 2 ^ 256)
    {b : ℕ} (searchable : Searchable n.toNat b) {x : ℕ} (slot : x < 2) (store : ℕ → ℤ) :
    ∃ y store', candidate u_pow23 DBC_MAXLENGTH n x b store = .ok (y.stored.length, store') ∧
      Relation.ReflTransGen (Turn 6 UInt288.sub u_pow23) (initial n b) y ∧ y.t.iszero = true ∧
      y.stored.length ≤ DBC_MAXLENGTH ∧ Stores store' x y.stored ∧ SameElsewhere x store store' ∧
      IsDoubleBaseChain n.toNat y.stored ∧ ∀ r ∈ y.stored, r.2.1 < MAX_2 ∧ r.2.2 < MAX_3 := by
  have power := pow_rBound_le positive searchable.rBound
  have inside := exponents_of_le bound power
  obtain ⟨terms, expansion⟩ := exists_expansion (by norm_num : 0 < 6) (RBound n.toNat b).toNat b n.toNat
  obtain ⟨clean, y, run, finished, length⟩ := candidate_run tables positive bound searchable.rBound expansion
    (searchable.lends terms expansion)
  have short : y.stored.length ≤ DBC_MAXLENGTH := length.trans_le (searchable.short terms expansion)
  obtain ⟨store', ends, stores, same⟩ := search_run slot run finished short inside.1 inside.2
    DBC_MAXLENGTH (by omega) store rfl
  have balanced := (Balanced.start (n := n) (fits_of_le bound power)).run toNat_uint288_sub tables (clean.run run)
  have below := rows_le (steps_of_turns run) le_rfl le_rfl (by simp [initial, Greedy.start])
  refine ⟨y, store', ?_, run, finished, short, stores, same, balanced.chain positive finished, fun r member =>
    ⟨(below.2.2 r member).1.trans_lt inside.1, (below.2.2 r member).2.trans_lt inside.2⟩⟩
  obtain ⟨a, value⟩ := Int.eq_ofNat_of_zero_le searchable.rBound
  rw [initial, value, Int.toNat_natCast] at ends
  simp only [candidate, value]
  exact ends

/-- A search that meets no fault returns the number of its rows. -/
private theorem search_length {x : ℕ} {y z : Greedy 9} (run : Relation.ReflTransGen (Turn 6 UInt288.sub u_pow23) y z)
    (finished : z.t.iszero = true) {fuel i : ℕ} {store store' : ℕ → ℤ}
    (ends : search u_pow23 x fuel y store = .ok (i, store')) : i = z.stored.length := by
  induction run using Relation.ReflTransGen.head_induction_on generalizing fuel store with
  | refl => cases fuel <;> simp_all [search]
  | @head y y' turn rest ih =>
    obtain ⟨running, rfl⟩ := turn
    cases fuel with
    | zero => simp [search, running] at ends
    | succ fuel =>
      rw [search, running, if_neg (by decide)] at ends
      split at ends
      · exact ih ends
      · cases ends

/-- Where the bound is not negative and no borrow is lost, a slot has room for the search just when it has room for the
expansion. -/
theorem candidate_fits_iff (tables : Exact u_pow23) {n : UInt288} (positive : 0 < n.toNat) (bound : n.toNat < 2 ^ 256)
    {b : ℕ} (rBound : 0 ≤ RBound n.toNat b)
    (lends : ∀ terms, Expansion 6 (RBound n.toNat b).toNat b n.toNat terms →
      ∀ u ∈ subtractions n.toNat terms, NoLostBorrow (.ofNat 9 u.1) (.ofNat 9 u.2))
    {x : ℕ} (slot : x < 2) (store : ℕ → ℤ) :
    (∃ fuel i store', candidate u_pow23 fuel n x b store = .ok (i, store') ∧ i ≤ DBC_MAXLENGTH) ↔
      ∀ terms, Expansion 6 (RBound n.toNat b).toNat b n.toNat terms → terms.length ≤ DBC_MAXLENGTH := by
  constructor
  · rintro ⟨fuel, i, store', ends, short⟩ terms expansion
    obtain ⟨-, y, run, finished, length⟩ := candidate_run tables positive bound rBound expansion (lends terms expansion)
    obtain ⟨a, value⟩ := Int.eq_ofNat_of_zero_le rBound
    rw [initial, value, Int.toNat_natCast] at run
    simp only [candidate, value] at ends
    rw [← length, ← search_length run finished ends]
    exact short
  · intro short
    obtain ⟨y, store', ends, -, -, fits, -⟩ :=
      candidate_fills tables positive bound ⟨rBound, short, lends⟩ slot store
    exact ⟨_, _, store', ends, fits⟩

/-! ## The tournament -/

private theorem Filled.elsewhere {n : UInt288} {memory : Memory} {x x' : ℕ} {y : Greedy 9}
    (filled : Filled u_pow23 n memory x y) {store : ℕ → ℤ} (same : SameElsewhere x' memory.DBC_store store)
    (other : x ≠ x') (i : ℤ) : Filled u_pow23 n ⟨store, Function.update memory.DBC_len x' i⟩ x y := by
  refine { filled with len := ?_, stores := ?_ }
  · exact (Function.update_of_ne other _ _).trans filled.len
  · refine Eq.trans (List.map_congr_left fun i member => ?_) filled.stores
    rw [List.mem_range] at member
    exact same x i other (member.trans_le filled.short)

/-- The most that a chain of `DBC_MAXLENGTH` rows inside the tables can cost. -/
def maxPrice : ℤ := DBC_MAXLENGTH * ADD_COST + MAX_2 * DBL_COST + MAX_3 * TPL_COST

/-- The price of a filled slot. -/
theorem Filled.price_le {n : UInt288} {memory : Memory} {x : ℕ} {y : Greedy 9} (filled : Filled u_pow23 n memory x y)
    (inside : ∀ r ∈ y.stored, r.2.1 < MAX_2 ∧ r.2.2 < MAX_3) : price memory x ≤ maxPrice := by
  obtain ⟨dbl, tpl, rest, stored⟩ := filled.chain.leading
  have first : readRow memory.DBC_store x 0 = (1, (dbl : ℤ), (tpl : ℤ)) := by
    have rows := filled.stores
    rw [Stores, stored, List.length_cons, List.range_succ_eq_map, List.map_cons, List.map_cons] at rows
    exact (List.cons.inj rows).1
  have exponents : dbl < MAX_2 ∧ tpl < MAX_3 := inside (1, dbl, tpl) (by simp [stored])
  have length := filled.short
  simp only [readRow, Prod.mk.injEq] at first
  unfold price maxPrice MAX_2 MAX_3 DBC_MAXLENGTH ADD_COST DBL_COST TPL_COST at *
  rw [first.2.1, first.2.2, filled.len, Int.bmod_eq_of_le] <;> omega

/-- What the call needs of the scalar and of the memory it finds. -/
structure Ready (n : UInt288) (memory : Memory) : Prop where
  searchable : ∀ b ∈ b_try.take DBC_COEF, Accepted n.toNat b → Searchable n.toNat b
  stale : maxPrice < price (opened memory) 1

/-- Slot `1 - DBC_index` is filled as soon as one candidate was accepted; before that nothing has changed. -/
structure Tournament (u_pow23 : ℕ → ℕ → UInt288) (n : UInt288) (memory : Memory) (visited : List ℕ)
    (state : ℕ × Memory) : Prop where
  untouched : (∀ b ∈ visited, ¬ Accepted n.toNat b) → state = (0, opened memory)
  won : (∃ b ∈ visited, Accepted n.toNat b) → state.1 < 2 ∧ ∃ y, Filled u_pow23 n state.2 (1 - state.1) y

theorem Tournament.slot {n : UInt288} {memory : Memory} {visited : List ℕ} {state : ℕ × Memory}
    (tournament : Tournament u_pow23 n memory visited state) : state.1 < 2 := by
  by_cases some : ∃ b ∈ visited, Accepted n.toNat b
  · exact (tournament.won some).1
  · push Not at some
    rw [tournament.untouched some]
    norm_num

/-- One candidate keeps the tournament going. -/
theorem Tournament.step (tables : Exact u_pow23) {n : UInt288} (positive : 0 < n.toNat) (bound : n.toNat < 2 ^ 256)
    {memory : Memory} (ready : Ready n memory) {visited : List ℕ} {state : ℕ × Memory}
    (tournament : Tournament u_pow23 n memory visited state) {b : ℕ} (member : b ∈ b_try.take DBC_COEF) :
    ∃ state', tryCandidate u_pow23 DBC_MAXLENGTH n state b = .ok state' ∧
      Tournament u_pow23 n memory (visited ++ [b]) state' := by
  obtain ⟨x, current⟩ := state
  have slot : x < 2 := tournament.slot
  by_cases accepted : Accepted n.toNat b
  swap
  · refine ⟨(x, current), by simp [tryCandidate, accepted, pure, Except.pure], fun none => ?_, fun some => ?_⟩
    · exact tournament.untouched fun b' present => none b' (by simp [present])
    · obtain ⟨b', present, hit⟩ := some
      rcases List.mem_append.mp present with earlier | here
      · exact tournament.won ⟨b', earlier, hit⟩
      · exact absurd (List.mem_singleton.mp here ▸ hit) accepted
  · have searchable := ready.searchable b member accepted
    obtain ⟨y, store, ends, run, finished, short, stores, same, chain, inside⟩ :=
      candidate_fills tables positive bound searchable slot current.DBC_store
    have filled : Filled u_pow23 n ⟨store, Function.update current.DBC_len x y.stored.length⟩ x y :=
      ⟨⟨b, member, accepted, run⟩, finished, Function.update_self .., short, stores, chain⟩
    refine ⟨_, by simp [tryCandidate, accepted, ends, pure, Except.pure, bind, Except.bind]; rfl,
      fun none => absurd accepted (none b (by simp)), fun _ => ⟨by dsimp only; split <;> norm_num, ?_⟩⟩
    by_cases some : ∃ b ∈ visited, Accepted n.toNat b
    · -- both slots are filled, whichever the prices choose
      obtain ⟨-, y', filled'⟩ := tournament.won some
      have filled' := filled'.elsewhere same (by dsimp only; omega) y.stored.length
      dsimp only at filled' ⊢
      split
      · rcases Nat.lt_succ_iff_lt_or_eq.mp slot with low | rfl
        · obtain rfl : x = 0 := by omega
          exact ⟨y, filled⟩
        · exact ⟨y', filled'⟩
      · rcases Nat.lt_succ_iff_lt_or_eq.mp slot with low | rfl
        · obtain rfl : x = 0 := by omega
          exact ⟨y', filled'⟩
        · exact ⟨y, filled⟩
    · -- slot 0 was filled and slot 1 still has its opening price
      push Not at some
      obtain ⟨rfl, rfl⟩ := Prod.mk.inj (tournament.untouched some)
      have cheap := filled.price_le inside
      have opening : price ⟨store, Function.update (opened memory).DBC_len 0 y.stored.length⟩ 1 =
          price (opened memory) 1 := by
        have row := same 1 0 (by norm_num) (by decide)
        simp only [readRow, Prod.mk.injEq] at row
        simp [price, row.2.1, row.2.2]
      have stale := ready.stale
      refine ⟨y, ?_⟩
      dsimp only
      rw [if_pos (by omega)]
      exact filled

/-- A call that meets `Ready` ends without a fault and returns a slot that it filled with a chain of `n`. -/
theorem get_DBC_fills (tables : Exact u_pow23) {n : UInt288} (positive : 0 < n.toNat) (bound : n.toNat < 2 ^ 256)
    {memory : Memory} (ready : Ready n memory) :
    ∃ fuel slot after y, get_DBC u_pow23 fuel n memory = .ok (slot, after) ∧ slot < 2 ∧
      Filled u_pow23 n after slot y := by
  obtain ⟨⟨x, current⟩, ends, tournament⟩ := Loops.foldlM_induction (Tournament u_pow23 n memory)
    (tryCandidate u_pow23 DBC_MAXLENGTH n) (b_try.take DBC_COEF) (0, opened memory)
    ⟨fun _ => rfl, fun none => by simp at none⟩
    fun visited b later state split holds => holds.step tables positive bound ready (by rw [split]; simp)
  obtain ⟨slot, y, filled⟩ := tournament.won (exists_accepted positive)
  refine ⟨DBC_MAXLENGTH, 1 - x, current, y, ?_, by omega, filled⟩
  simp [get_DBC, ends, bind, Except.bind, pure, Except.pure]

/-- A memory of zeros. -/
def zeroed : Memory := ⟨fun _ => 0, fun _ => 0⟩

private theorem expansion_checked {n : UInt288} (positive : 0 < n.toNat) (bound : n.toNat < 2 ^ 256) {b fuel : ℕ}
    (nonneg : 0 ≤ RBound n.toNat b)
    (passed : survey NoLostBorrow 6 UInt288.sub (powTable 9) fuel (initial n b) = true) {terms : List (ℕ × ℕ)}
    (expansion : Expansion 6 (RBound n.toNat b).toNat b n.toNat terms) :
    terms.length ≤ fuel ∧ ∀ u ∈ subtractions n.toNat terms, NoLostBorrow (.ofNat 9 u.1) (.ofNat 9 u.2) :=
  expansion_of_survey (x := initial n b) toNat_uint288_sub (powTable_exact 9)
    (fits_of_le bound (pow_rBound_le positive nonneg)) passed expansion

/-- A power product, to which every accepted candidate has a short expansion. -/
theorem searchable_pow23 : 0 < (MyBigInt.ofNat 9 (2 ^ 100 * 3 ^ 60)).toNat ∧
    (MyBigInt.ofNat 9 (2 ^ 100 * 3 ^ 60)).toNat < 2 ^ 256 ∧
    ∀ b ∈ b_try.take DBC_COEF, Accepted (MyBigInt.ofNat 9 (2 ^ 100 * 3 ^ 60)).toNat b →
      Searchable (MyBigInt.ofNat 9 (2 ^ 100 * 3 ^ 60)).toNat b := by
  have positive : 0 < (MyBigInt.ofNat 9 (2 ^ 100 * 3 ^ 60)).toNat := by decide +kernel
  have bound : (MyBigInt.ofNat 9 (2 ^ 100 * 3 ^ 60)).toNat < 2 ^ 256 := by decide +kernel
  have surveyed : ∀ b ∈ b_try.take DBC_COEF, Accepted (MyBigInt.ofNat 9 (2 ^ 100 * 3 ^ 60)).toNat b →
      0 ≤ RBound (MyBigInt.ofNat 9 (2 ^ 100 * 3 ^ 60)).toNat b ∧
        survey NoLostBorrow 6 UInt288.sub (powTable 9) 20 (initial (.ofNat 9 (2 ^ 100 * 3 ^ 60)) b) = true := by
    decide +kernel
  refine ⟨positive, bound, fun b member accepted => ?_⟩
  obtain ⟨rBound, passed⟩ := surveyed b member accepted
  refine ⟨rBound, fun terms expansion => ?_, fun terms expansion => ?_⟩
  · exact (expansion_checked positive bound rBound passed expansion).1.trans (by decide)
  · exact (expansion_checked positive bound rBound passed expansion).2

theorem get_DBC_fills_pow23 : ∃ fuel slot after y,
    get_DBC (powTable 9) fuel (.ofNat 9 (2 ^ 100 * 3 ^ 60)) zeroed = .ok (slot, after) ∧ slot < 2 ∧
      Filled (powTable 9) (.ofNat 9 (2 ^ 100 * 3 ^ 60)) after slot y := by
  obtain ⟨positive, bound, searchable⟩ := searchable_pow23
  exact get_DBC_fills (powTable_exact 9) positive bound ⟨searchable, by decide +kernel⟩

private theorem foldlM_rejected {n : UInt288} {fuel : ℕ} (state : ℕ × Memory) (visited : List ℕ)
    (rejected : ∀ b ∈ visited, ¬ Accepted n.toNat b) :
    visited.foldlM (tryCandidate u_pow23 fuel n) state = .ok state := by
  induction visited with
  | nil => rfl
  | cons b visited ih =>
    have here := rejected b (by simp)
    have turn : tryCandidate u_pow23 fuel n state b = .ok state := by simp [tryCandidate, here, pure, Except.pure]
    rw [List.foldlM_cons, turn]
    exact ih fun b' member => rejected b' (by simp [member])

/-- A negative bound of the first candidate accepted is used as an index, whatever the memory holds. -/
theorem get_DBC_outOfRange {n : UInt288} (positive : 0 < n.toNat) (visited later : List ℕ) (b : ℕ)
    (split : b_try.take DBC_COEF = visited ++ b :: later) (rejected : ∀ b' ∈ visited, ¬ Accepted n.toNat b')
    (accepted : Accepted n.toNat b) (negative : RBound n.toNat b < 0) (fuel : ℕ) (memory : Memory) :
    get_DBC u_pow23 fuel n memory = .error .outOfRange := by
  have nonzero : n.iszero = false := by
    rw [← Bool.not_eq_true, iszero_iff]
    omega
  have fault : ∀ x store, candidate u_pow23 fuel n x b store = .error .outOfRange := by
    intro x store
    obtain ⟨k, value⟩ := Int.eq_negSucc_of_lt_zero negative
    simp only [candidate, value, nonzero, Bool.false_eq_true, if_false]
  have turn : tryCandidate u_pow23 fuel n (0, opened memory) b = .error .outOfRange := by
    simp [tryCandidate, accepted, fault, bind, Except.bind]
  unfold get_DBC
  rw [split, List.foldlM_append, foldlM_rejected _ _ rejected]
  simp [turn, bind, Except.bind]

/-- For the scalar 1 the first candidate accepted is `b = 70`, with `RBound = -110`. -/
theorem get_DBC_one : Exact (powTable 9) ∧ 1 ≤ (MyBigInt.ofNat 9 1).toNat ∧ (MyBigInt.ofNat 9 1).toNat < 2 ^ 256 ∧
    ∀ fuel, get_DBC (powTable 9) fuel (.ofNat 9 1) zeroed = .error .outOfRange := by
  refine ⟨powTable_exact 9, by decide +kernel, by decide +kernel, fun fuel => ?_⟩
  exact get_DBC_outOfRange (by decide +kernel) [72, 71, 73, 74] [69, 75, 68, 76, 67] 70 rfl (by decide +kernel)
    (by decide +kernel) (by decide +kernel) fuel zeroed

/-- A scalar whose search from `b = 71` stores 55 rows, and that from `b = 76` one more than there is room for. -/
def longScalar : ℕ := 4727246302804731753484900835683587267771925454720451857718997

/-- The slots are too short for some scalars: here no bound is negative and no borrow is lost, and the last row of the
second search is written behind the store. -/
theorem get_DBC_overflow :
    (∀ b ∈ b_try.take DBC_COEF, Accepted longScalar b → 0 ≤ RBound longScalar b ∧
      ∀ terms, Expansion 6 (RBound longScalar b).toNat b longScalar terms →
        ∀ u ∈ subtractions longScalar terms, NoLostBorrow (.ofNat 9 u.1) (.ofNat 9 u.2)) ∧
      (get_DBC (powTable 9) 101 (.ofNat 9 longScalar) zeroed).map (fun _ => ()) = .error .outOfRange := by
  have value : (MyBigInt.ofNat 9 longScalar).toNat = longScalar := by decide +kernel
  have surveyed : ∀ b ∈ b_try.take DBC_COEF, Accepted longScalar b → 0 ≤ RBound longScalar b ∧
      survey NoLostBorrow 6 UInt288.sub (powTable 9) 101 (initial (.ofNat 9 longScalar) b) = true := by
    decide +kernel
  refine ⟨fun b member accepted => ?_, by decide +kernel⟩
  obtain ⟨nonneg, passed⟩ := surveyed b member accepted
  refine ⟨nonneg, fun terms expansion => ?_⟩
  rw [← value] at nonneg expansion ⊢
  exact (expansion_checked (by decide +kernel) (by decide +kernel) nonneg passed expansion).2

/-- The number that the rows of slot `x` stand for. -/
def slotTotal (memory : Memory) (x : ℕ) : ℤ :=
  ((List.range (memory.DBC_len x).toNat).map fun y =>
    let r := readRow memory.DBC_store x y
    r.1 * 2 ^ r.2.1.toNat * 3 ^ r.2.2.toNat).sum

/-- A power product ends in zero words, so taking a remainder off it loses a borrow: the call for `2 ^ 255`
returns a chain of another number. -/
theorem get_DBC_lost_borrow :
    (get_DBC (powTable 9) DBC_MAXLENGTH (.ofNat 9 (2 ^ 255)) zeroed).toOption.map
      (fun r => decide (slotTotal r.2 r.1 = 2 ^ 255)) = some false := by
  decide +kernel

end DbcSnark.Gpuec
