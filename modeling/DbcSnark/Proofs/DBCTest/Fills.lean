import DbcSnark.Proofs.DBCTest.SubOptimal
import DbcSnark.Proofs.Gpuec.GetDBC

/-! # When `getSubOptimalDBC` fills the slot it returns

A candidate is searched from when its bounds agree before any bound is negative. With exact logarithms the power product
a search starts from is next to `n`, so a search that lends nothing falsely ends with a chain that fits its slot, and the
slot returned holds such a chain. A call without a candidate returns slot 1 with the length it was opened with.
-/

namespace DbcSnark.DBCTest

open MyBigInt Greedy DoubleBase

variable {INTS : ℕ}

/-- Logarithms decided exactly; `get_DBC` has the same bounds. -/
def Bounds.exact (INTS : ℕ) : Bounds INTS := ⟨fun n b => Gpuec.LBound n.toNat b, fun n b => Gpuec.RBound n.toNat b⟩

/-! ## Candidates -/

section Candidates

variable {bounds : Bounds INTS} {n : MyBigInt INTS}

/-- Some exponent has equal bounds, and no bound up to it is negative. -/
def Opens (bounds : Bounds INTS) (n : MyBigInt INTS) (bs : List ℕ) : Prop :=
  ∃ earlier b later, bs = earlier ++ b :: later ∧ bounds.LBound n b = bounds.RBound n b ∧
    ∀ c ∈ earlier ++ [b], 0 ≤ bounds.LBound n c ∧ 0 ≤ bounds.RBound n c

private theorem opens_cons_iff (b : ℕ) (bs : List ℕ) : Opens bounds n (b :: bs) ↔
    (0 ≤ bounds.LBound n b ∧ 0 ≤ bounds.RBound n b) ∧ (bounds.LBound n b = bounds.RBound n b ∨ Opens bounds n bs) := by
  constructor
  · rintro ⟨earlier, c, later, split, equal, nonneg⟩
    cases earlier with
    | nil =>
      obtain ⟨rfl, rfl⟩ := List.cons.inj split
      exact ⟨nonneg b List.mem_cons_self, .inl equal⟩
    | cons d earlier =>
      obtain ⟨rfl, rfl⟩ := List.cons.inj split
      exact ⟨nonneg b List.mem_cons_self,
        .inr ⟨earlier, c, later, rfl, equal, fun e member => nonneg e (List.mem_cons_of_mem _ member)⟩⟩
  · rintro ⟨first, equal | ⟨earlier, c, later, rfl, equal, nonneg⟩⟩
    · exact ⟨[], b, bs, rfl, equal, List.forall_mem_singleton.mpr first⟩
    · exact ⟨b :: earlier, c, later, rfl, equal, List.forall_mem_cons.mpr ⟨first, nonneg⟩⟩

/-- A call searches from some exponent just when one opens it. -/
theorem accepted_ne_nil_iff (dbc_coef : Option ℤ) (bs : List ℕ) (count_DBC : ℤ) :
    accepted bounds dbc_coef n bs count_DBC ≠ [] ↔ Opens bounds n bs := by
  induction bs generalizing count_DBC with
  | nil =>
    refine iff_of_false (fun some => some rfl) ?_
    rintro ⟨earlier, b, later, split, -⟩
    exact absurd split.symm (by simp)
  | cons b bs ih =>
    rw [accepted, opens_cons_iff]
    by_cases negative : bounds.LBound n b < 0 ∨ bounds.RBound n b < 0
    · rw [if_pos negative]
      refine iff_of_false (fun some => some rfl) ?_
      rintro ⟨nonneg, -⟩
      omega
    rw [if_neg negative]
    have nonneg : 0 ≤ bounds.LBound n b ∧ 0 ≤ bounds.RBound n b := by omega
    by_cases equal : bounds.LBound n b = bounds.RBound n b
    · rw [if_pos equal]
      exact iff_of_true (List.cons_ne_nil _ _) ⟨nonneg, .inl equal⟩
    · rw [if_neg equal, ih, and_iff_right nonneg, or_iff_right equal]

theorem accepted_spec {dbc_coef : Option ℤ} {bs : List ℕ} {count_DBC : ℤ} {b : ℕ}
    (member : b ∈ accepted bounds dbc_coef n bs count_DBC) :
    bounds.LBound n b = bounds.RBound n b ∧ 0 ≤ bounds.RBound n b := by
  induction bs generalizing count_DBC with
  | nil => exact absurd member List.not_mem_nil
  | cons c bs ih =>
    rw [accepted] at member
    split at member
    · exact absurd member List.not_mem_nil
    · next nonneg =>
      split at member
      · next equal =>
        rcases List.mem_cons.mp member with rfl | later
        · exact ⟨equal, by omega⟩
        · split at later
          · exact absurd later List.not_mem_nil
          · exact ih later
      · exact ih member

end Candidates

/-! ## A search that lends nothing falsely -/

section Search

variable {pow23_all : ℕ → ℕ → MyBigInt INTS} {n : MyBigInt INTS} {b : ℕ}

/-- The state in which the search for the candidate `b` starts. -/
def initial (n : MyBigInt INTS) (b : ℕ) : Greedy INTS := .start n ((Bounds.exact INTS).RBound n b).toNat b

/-- What the search for an accepted exponent stores. -/
theorem search_spec {window : ℕ} (deep : 4 ≤ window) (tables : Exact pow23_all) (positive : 0 < n.toNat)
    (top : n.toNat < 2 ^ (32 * (INTS - 1)))
    (equal : (Bounds.exact INTS).LBound n b = (Bounds.exact INTS).RBound n b) (nonneg : 0 ≤ (Bounds.exact INTS).RBound n b)
    (clean : Clean NoFalseBorrow window MyBigInt.sub pow23_all (initial n b)) :
    ∃ y, Relation.ReflTransGen (Turn window MyBigInt.sub pow23_all) (initial n b) y ∧ y.t.iszero = true ∧
      y.stored.length ≤ 32 * (INTS - 1) + 1 ∧ ∀ r ∈ y.stored, r.2.1 ≤ 32 * INTS ∧ r.2.2 ≤ 21 * INTS := by
  have power : 2 ^ (initial n b).a * 3 ^ b ≤ 3 * n.toNat := Gpuec.pow_rBound_le positive nonneg
  have fits := start_fits top power
  obtain ⟨y, run, finished⟩ := clean.ends toNat_sub tables (by omega) fits
  have words : 0 < INTS := by
    by_contra none
    rw [show INTS - 1 = 0 by omega, Nat.mul_zero, pow_zero] at top
    omega
  -- the exponents, by the size of `n`
  have three : n.toNat < 3 ^ (21 * (INTS - 1)) := by
    calc n.toNat < 2 ^ (32 * (INTS - 1)) := top
      _ = (2 ^ 32) ^ (INTS - 1) := pow_mul 2 32 _
      _ ≤ (3 ^ 21) ^ (INTS - 1) := Nat.pow_le_pow_left (by decide) _
      _ = 3 ^ (21 * (INTS - 1)) := (pow_mul 3 21 _).symm
  have right : b ≤ 21 * (INTS - 1) := by
    have small : 3 ^ b < 3 ^ (21 * (INTS - 1) + 1) := by
      calc 3 ^ b ≤ 2 ^ (initial n b).a * 3 ^ b := Nat.le_mul_of_pos_left _ (by positivity)
        _ ≤ 3 * n.toNat := power
        _ < 3 ^ (21 * (INTS - 1) + 1) := by rw [pow_succ']; omega
    have := (Nat.pow_lt_pow_iff_right (by decide)).mp small
    omega
  have left : (initial n b).a ≤ 32 * INTS := by
    have small : 2 ^ (initial n b).a < 2 ^ (32 * INTS) := by
      calc 2 ^ (initial n b).a ≤ 2 ^ (initial n b).a * 3 ^ b := Nat.le_mul_of_pos_right _ (by positivity)
        _ < (2 ^ 32) ^ INTS := fits
        _ = 2 ^ (32 * INTS) := (pow_mul 2 32 _).symm
    exact ((Nat.pow_lt_pow_iff_right (by decide)).mp small).le
  refine ⟨y, run, finished, ?_, ?_⟩
  · have fewer : b / window ≤ b / 4 := Nat.div_le_div_left deep (by decide)
    have within : Within window (initial n b).a b n.toNat (32 * (INTS - 1) + 1) := by
      refine ⟨Gpuec.near_of_equal equal, .inr (.inl ⟨21 * (INTS - 1), three.le, ?_⟩)⟩
      omega
    have short := stored_length_of_within (by omega) within
      (fun u v before turn => clean.remainder toNat_sub tables fits before turn) run
    exact short.trans (Nat.zero_add _).le
  · intro r member
    have inside := (rows_le (steps_of_turns run) le_rfl le_rfl (fun r none => absurd none List.not_mem_nil)).2.2 r member
    exact ⟨inside.1.trans left, inside.2.trans (right.trans (by omega))⟩

/-- An accepted exponent gives a chain that fits its slot and costs less than the opening price. -/
theorem chainOf_clean (size : INTS ∈ [5, 9, 13, 17]) {window : ℕ} (deep : 4 ≤ window) (tables : Exact pow23_all)
    (positive : 0 < n.toNat) (top : n.toNat < 2 ^ (32 * (INTS - 1)))
    (equal : (Bounds.exact INTS).LBound n b = (Bounds.exact INTS).RBound n b) (nonneg : 0 ≤ (Bounds.exact INTS).RBound n b)
    (clean : Clean NoFalseBorrow window MyBigInt.sub pow23_all (initial n b)) {fuel : ℕ} (enough : 32 * INTS ≤ fuel) :
    ∃ y, Relation.ReflTransGen (Turn window MyBigInt.sub pow23_all) (initial n b) y ∧ y.t.iszero = true ∧
      chainOf (.exact INTS) (.exact INTS) pow23_all fuel window n b = some y.stored ∧
        (cpu INTS).cost y.stored < 2 ^ 20 * (cpu INTS).ADD_COST := by
  obtain ⟨y, run, finished, short, inside⟩ := search_spec deep tables positive top equal nonneg clean
  have bound : 0 < INTS ∧ INTS ≤ 17 := by
    simp only [List.mem_cons, List.not_mem_nil, or_false] at size
    omega
  have fits : y.stored.length ≤ (cpu INTS).rows := by
    change _ ≤ 32 * INTS
    omega
  have ends := loopWith_of_run run finished ((by omega : y.stored.length ≤ fuel).trans (Nat.le_add_left _ _))
  refine ⟨y, run, finished, ?_, ?_⟩
  · rw [chainOf]
    change (loopWith MyBigInt.sub _ window pow23_all fuel (initial n b)).bind _ = _
    rw [ends]
    exact if_pos fits
  · have leading : (y.stored.headD (0, 0, 0)).2.1 ≤ 32 * INTS ∧ (y.stored.headD (0, 0, 0)).2.2 ≤ 21 * INTS := by
      cases first : y.stored with
      | nil => exact ⟨Nat.zero_le _, Nat.zero_le _⟩
      | cons r rows => exact inside r (first ▸ List.mem_cons_self)
    change (y.stored.length : ℤ) * 150 + (y.stored.headD (0, 0, 0)).2.1 * 70 + (y.stored.headD (0, 0, 0)).2.2 * 126 <
      2 ^ 20 * 150
    omega

private theorem chainOf_spec (size : INTS ∈ [5, 9, 13, 17]) (tables : Exact pow23_all) (positive : 0 < n.toNat)
    (top : n.toNat < 2 ^ (32 * (INTS - 1)))
    (equal : (Bounds.exact INTS).LBound n b = (Bounds.exact INTS).RBound n b) (nonneg : 0 ≤ (Bounds.exact INTS).RBound n b)
    (clean : Clean NoFalseBorrow 6 MyBigInt.sub pow23_all (initial n b)) {fuel : ℕ} (enough : 32 * INTS ≤ fuel) :
    ∃ rows, chainOf (.exact INTS) (.exact INTS) pow23_all fuel 6 n b = some rows ∧
      (cpu INTS).cost rows < 2 ^ 20 * (cpu INTS).ADD_COST := by
  obtain ⟨y, -, -, ends, low⟩ := chainOf_clean size (by decide) tables positive top equal nonneg clean enough
  exact ⟨y.stored, ends, low⟩

end Search

/-! ## The call -/

/-- The slot holds one of the chains that the call found, with a length inside `DBC_store`. -/
def FilledByCall (pow23_all : ℕ → ℕ → MyBigInt INTS) (fuel : ℕ) (bs : List ℕ) (n : MyBigInt INTS) (dbc_coef : ℤ) (slot : ℕ)
    (after : Slots) : Prop :=
  after.DBC_len slot ≤ 32 * INTS ∧ ∃ chains,
    candidates (.exact INTS) (.exact INTS) pow23_all fuel 6 (some dbc_coef) n bs 0 = some chains ∧
      ∃ rows ∈ chains, (cpu INTS).Holds after slot rows

section Call

variable {pow23_all : ℕ → ℕ → MyBigInt INTS} {n : MyBigInt INTS} {bs : List ℕ} {dbc_coef : ℤ} {slots : Slots} {fuel : ℕ}

private theorem candidates_of_not_opens (closed : ¬ Opens (.exact INTS) n bs) :
    candidates (.exact INTS) (.exact INTS) pow23_all fuel 6 (some dbc_coef) n bs 0 = some [] := by
  have none : accepted (.exact INTS) (some dbc_coef) n bs 0 = [] :=
    not_not.mp fun some => closed ((accepted_ne_nil_iff _ _ _).mp some)
  rw [candidates, none]
  rfl

/-- Without a candidate the call returns slot 1, with the length it was opened with. -/
theorem getSubOptimalDBC_of_not_opens (slots : Slots) (closed : ¬ Opens (.exact INTS) n bs) :
    getSubOptimalDBC (.exact INTS) (.exact INTS) pow23_all fuel bs n dbc_coef slots = some (1, slots.opened) ∧
      slots.opened.DBC_len 1 = 2 ^ 20 := by
  constructor
  · rw [getSubOptimalDBC, tryAll_eq, candidates_of_not_opens closed]
    rfl
  · exact Function.update_self 1 (2 ^ 20) slots.DBC_len

/-- When no search of the call lends falsely, the call returns a slot it filled exactly when some exponent has equal
bounds before any bound is negative. -/
theorem getSubOptimalDBC_fills_iff (size : INTS ∈ [5, 9, 13, 17]) (tables : Exact pow23_all) (positive : 0 < n.toNat)
    (top : n.toNat < 2 ^ (32 * (INTS - 1))) (left : (cpu INTS).Left slots) (enough : 32 * INTS ≤ fuel)
    (clean : ∀ b ∈ accepted (.exact INTS) (some dbc_coef) n bs 0,
      Clean NoFalseBorrow 6 MyBigInt.sub pow23_all (initial n b)) :
    (∃ slot after, getSubOptimalDBC (.exact INTS) (.exact INTS) pow23_all fuel bs n dbc_coef slots = some (slot, after) ∧
      FilledByCall pow23_all fuel bs n dbc_coef slot after) ↔ Opens (.exact INTS) n bs := by
  constructor
  · rintro ⟨slot, after, -, -, chains, produced, rows, member, -⟩
    by_contra closed
    obtain rfl : chains = [] := Option.some.inj (produced.symm.trans (candidates_of_not_opens closed))
    exact absurd member List.not_mem_nil
  · intro opens
    have found : ∀ b ∈ accepted (.exact INTS) (some dbc_coef) n bs 0,
        ∃ rows, chainOf (.exact INTS) (.exact INTS) pow23_all fuel 6 n b = some rows ∧
          (cpu INTS).cost rows < 2 ^ 20 * (cpu INTS).ADD_COST := by
      intro b member
      obtain ⟨equal, nonneg⟩ := accepted_spec member
      exact chainOf_spec size tables positive top equal nonneg (clean b member) enough
    obtain ⟨chains, produced, count⟩ := Loops.exists_mapM fun b member => (found b member).imp fun rows ends => ends.1
    have cheap : ∀ rows ∈ chains, (cpu INTS).cost rows < 2 ^ 20 * (cpu INTS).ADD_COST := by
      intro rows member
      obtain ⟨b, inside, ends⟩ := Loops.exists_of_mem_mapM produced rows member
      obtain ⟨rows', ends', low⟩ := found b inside
      rwa [Option.some.inj (ends.symm.trans ends')]
    have nonempty : chains ≠ [] := by
      rintro rfl
      exact (accepted_ne_nil_iff _ _ _).mpr opens (List.length_eq_zero_iff.mp count.symm)
    obtain ⟨slot, after, ends⟩ := getSubOptimalDBC_ends slots produced
    obtain ⟨-, rows, member, holds, -⟩ := getSubOptimalDBC_returns positive left produced nonempty cheap ends
    refine ⟨slot, after, ends, ?_, chains, produced, rows, member, holds⟩
    rw [holds.len]
    exact_mod_cast (candidates_good positive produced cheap rows member).fits

end Call

/-- For `3 ^ 72` the search from the first exponent ends after one turn. -/
private theorem clean_power : ∀ b ∈ accepted (.exact 9) (some 1) (.ofNat 9 (3 ^ 72)) b_try 0,
    Clean NoFalseBorrow 6 MyBigInt.sub (powTable 9) (initial (.ofNat 9 (3 ^ 72)) b) := by
  have only : accepted (.exact 9) (some 1) (.ofNat 9 (3 ^ 72)) b_try 0 = [72] := by decide +kernel
  rw [only]
  intro b member
  obtain rfl := List.mem_singleton.mp member
  have passed : survey NoFalseBorrow 6 MyBigInt.sub (powTable 9) 1 (initial (.ofNat 9 (3 ^ 72)) 72) = true := by
    decide +kernel
  exact clean_of_survey passed

private theorem left_zero : (cpu 9).Left ⟨fun _ => 0, fun _ => 0⟩ := ⟨le_rfl, le_rfl, by decide⟩

theorem getSubOptimalDBC_fills_iff_power :
    (∃ slot after, getSubOptimalDBC (.exact 9) (.exact 9) (powTable 9) 288 b_try (.ofNat 9 (3 ^ 72)) 1
        ⟨fun _ => 0, fun _ => 0⟩ = some (slot, after) ∧
      FilledByCall (powTable 9) 288 b_try (.ofNat 9 (3 ^ 72)) 1 slot after) ↔
        Opens (.exact 9) (.ofNat 9 (3 ^ 72)) b_try :=
  getSubOptimalDBC_fills_iff (by decide) (powTable_exact 9) (by decide +kernel) (by decide +kernel) left_zero le_rfl
    clean_power

/-- For `n = 1` the first exponent has a negative bound, and slot 1 is returned with the length `2 ^ 20`. -/
theorem getSubOptimalDBC_one : ¬ ∀ (n : MyBigInt 9) (dbc_coef : ℤ) (slots : Slots), 1 ≤ n.toNat →
    n.toNat < 2 ^ (32 * (9 - 1)) → 1 ≤ dbc_coef → (cpu 9).Left slots → ∃ fuel slot after,
      getSubOptimalDBC (.exact 9) (.exact 9) (powTable 9) fuel b_try n dbc_coef slots = some (slot, after) ∧
        FilledByCall (powTable 9) fuel b_try n dbc_coef slot after := by
  intro claim
  obtain ⟨fuel, slot, after, ends, short, -⟩ := claim (.ofNat 9 1) 1 ⟨fun _ => 0, fun _ => 0⟩ (by decide) (by decide)
    le_rfl left_zero
  have closed : ¬ Opens (.exact 9) (.ofNat 9 1) b_try := by
    have none : accepted (.exact 9) (some 1) (.ofNat 9 1) b_try 0 = [] := by decide +kernel
    exact fun opens => (accepted_ne_nil_iff (some 1) b_try 0).mpr opens none
  obtain ⟨result, length⟩ := getSubOptimalDBC_of_not_opens ⟨fun _ => 0, fun _ => 0⟩ closed
  obtain ⟨rfl, rfl⟩ := Prod.mk.inj (Option.some.inj (ends.symm.trans result))
  rw [length] at short
  exact absurd short (by decide)

end DbcSnark.DBCTest
