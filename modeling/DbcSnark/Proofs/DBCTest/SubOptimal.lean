import DbcSnark.ToMathlib.TwoSlots
import DbcSnark.Model.DBCTest.SubOptimal
import DbcSnark.Proofs.DBCTest.Greedy

/-! # The cheapest of the candidate chains

The two slots of `DBC_store` are a board for a tournament of the candidates: a search writes the rows of its chain
to one slot and leaves the other one alone, and the price of a slot is the price of the chain it holds. The slot
compared with the first candidate has a price above that of every chain, whatever leading exponents an earlier call
left there.
-/

namespace DbcSnark.DBCTest

open Greedy

namespace Layout

variable (S : Layout)

/-! ## Rows in memory -/

def readRow (store : ℕ → ℤ) (x y : ℕ) : ℤ × ℤ × ℤ :=
  (store (S.index x y 0), store (S.index x y 1), store (S.index x y 2))

private theorem readRow_writeRow_same (store : ℕ → ℤ) (x y : ℕ) (row : ℤ × ℕ × ℕ) :
    S.readRow (S.writeRow store x y row) x y = (row.1, (row.2.1 : ℤ), (row.2.2 : ℤ)) := by
  simp [readRow, writeRow, index]

private theorem readRow_writeRow_of_ne (store : ℕ → ℤ) {x y x' y' : ℕ} (row : ℤ × ℕ × ℕ) (bound : y < S.rows)
    (bound' : y' < S.rows) (differ : x ≠ x' ∨ y ≠ y') :
    S.readRow (S.writeRow store x y row) x' y' = S.readRow store x' y' := by
  have apart : ∀ k < 3, ∀ k' < 3, S.index x' y' k' ≠ S.index x y k := by
    intro k small k' small' same
    unfold index at same
    rcases lt_trichotomy x x' with less | rfl | more
    · have := Nat.mul_le_mul_right (3 * S.rows) (Nat.succ_le_of_lt less)
      rw [Nat.succ_mul] at this
      omega
    · omega
    · have := Nat.mul_le_mul_right (3 * S.rows) (Nat.succ_le_of_lt more)
      rw [Nat.succ_mul] at this
      omega
  simp only [readRow, writeRow]
  rw [Function.update_of_ne, Function.update_of_ne, Function.update_of_ne, Function.update_of_ne,
    Function.update_of_ne, Function.update_of_ne, Function.update_of_ne, Function.update_of_ne,
    Function.update_of_ne] <;> exact apart _ (by norm_num) _ (by norm_num)

private theorem readRow_writeRows_of_ne {x x' y y' : ℕ} {rows : List (ℤ × ℕ × ℕ)} (room : y + rows.length ≤ S.rows)
    (bound' : y' < S.rows) (differ : x ≠ x' ∨ y' < y) (store : ℕ → ℤ) :
    S.readRow (S.writeRows x y rows store) x' y' = S.readRow store x' y' := by
  induction rows generalizing y store with
  | nil => rfl
  | cons row rows ih =>
    rw [List.length_cons] at room
    rw [writeRows, ih (by omega) (differ.imp_right Nat.lt_succ_of_lt)]
    exact S.readRow_writeRow_of_ne store row (by omega) bound' (differ.imp_right Nat.ne_of_gt)

private theorem readRow_writeRows {x y : ℕ} {rows : List (ℤ × ℕ × ℕ)} (room : y + rows.length ≤ S.rows)
    (store : ℕ → ℤ) {k : ℕ} {row : ℤ × ℕ × ℕ} (here : rows[k]? = some row) :
    S.readRow (S.writeRows x y rows store) x (y + k) = (row.1, (row.2.1 : ℤ), (row.2.2 : ℤ)) := by
  induction rows generalizing y k store with
  | nil => simp at here
  | cons first rows ih =>
    rw [List.length_cons] at room
    rw [writeRows]
    cases k with
    | zero =>
      rw [List.getElem?_cons_zero, Option.some.injEq] at here
      have kept : S.readRow (S.writeRows x (y + 1) rows (S.writeRow store x y first)) x y = _ :=
        S.readRow_writeRows_of_ne (by omega) (by omega) (.inr (Nat.lt_succ_self y)) _
      change S.readRow _ x y = _
      rw [kept, here]
      exact S.readRow_writeRow_same store x y row
    | succ k =>
      have later := ih (y := y + 1) (by omega) (S.writeRow store x y first) here
      rwa [show y + (k + 1) = y + 1 + k by omega]

/-! ## The board -/

/-- The price of a chain. -/
def cost (rows : List (ℤ × ℕ × ℕ)) : ℤ :=
  rows.length * S.ADD_COST + (rows.headD (0, 0, 0)).2.1 * S.DBL_COST + (rows.headD (0, 0, 0)).2.2 * S.TPL_COST

/-- Slot `x` holds the chain `rows`, with its length. -/
structure Holds (slots : Slots) (x : ℕ) (rows : List (ℤ × ℕ × ℕ)) : Prop where
  len : slots.DBC_len x = rows.length
  stored : ∀ y row, rows[y]? = some row →
    S.readRow slots.DBC_store x y = (row.1, (row.2.1 : ℤ), (row.2.2 : ℤ))

/-- A chain that has a leading term, fits a slot and costs less than the opening price. -/
structure Good (rows : List (ℤ × ℕ × ℕ)) : Prop where
  nonempty : rows ≠ []
  fits : rows.length ≤ S.rows
  cheap : S.cost rows < 2 ^ 20 * S.ADD_COST

private theorem Holds.leading {slots : Slots} {x : ℕ} {rows : List (ℤ × ℕ × ℕ)} (holds : S.Holds slots x rows)
    (nonempty : rows ≠ []) : slots.DBC_store (S.index x 0 1) = (rows.headD (0, 0, 0)).2.1 ∧
      slots.DBC_store (S.index x 0 2) = (rows.headD (0, 0, 0)).2.2 := by
  obtain ⟨row, rest, rfl⟩ := List.exists_cons_of_ne_nil nonempty
  have first := holds.stored 0 row rfl
  simp only [readRow, Prod.mk.injEq] at first
  exact first.2

/-- The price of a slot is that of the chain it holds. -/
theorem price_of_holds {slots : Slots} {x : ℕ} {rows : List (ℤ × ℕ × ℕ)} (good : S.Good rows)
    (holds : S.Holds slots x rows) : S.price slots x = S.cost rows := by
  obtain ⟨dbl, tpl⟩ := holds.leading S good.nonempty
  have cheap := good.cheap
  have affordable := S.affordable
  have positive : 0 ≤ S.cost rows := by
    unfold cost
    positivity
  rw [price, dbl, tpl, holds.len, ← cost, Int.bmod_eq_of_le] <;> omega

/-- The two slots as a board. -/
def board : TwoSlots.Board Slots (List (ℤ × ℕ × ℕ)) ℤ where
  write slots x rows := ⟨S.writeRows x 0 rows slots.DBC_store, Function.update slots.DBC_len x rows.length⟩
  priceAt := S.price
  Holds := S.Holds
  price := S.cost
  Good := S.Good
  priceAt_of_holds := S.price_of_holds
  holds_write := by
    intro slots x rows good
    refine ⟨Function.update_self .., fun y row here => ?_⟩
    have written := S.readRow_writeRows (x := x) (y := 0) (by rw [Nat.zero_add]; exact good.fits) slots.DBC_store here
    rwa [Nat.zero_add] at written
  holds_write_of_ne := by
    intro slots x y rows rows' good good' slot slot' differ holds
    refine ⟨(Function.update_of_ne differ _ _).trans holds.len, fun k row here => ?_⟩
    have bound : k < rows'.length := (List.getElem?_eq_some_iff.mp here).1
    rw [S.readRow_writeRows_of_ne (by rw [Nat.zero_add]; exact good.fits) (bound.trans_le good'.fits)
      (.inl differ.symm)]
    exact holds.stored k row here
  priceAt_write_of_ne := by
    intro slots x y rows good slot slot' differ
    have room : 0 < S.rows := (List.length_pos_of_ne_nil good.nonempty).trans_le good.fits
    have first := S.readRow_writeRows_of_ne (y := 0) (by rw [Nat.zero_add]; exact good.fits) room
      (.inl differ.symm) slots.DBC_store
    simp only [readRow, Prod.mk.injEq] at first
    simp only [price, first.2.1, first.2.2, Function.update_of_ne differ]

/-- What an earlier call leaves in the leading row of slot 1: no exponents, or those of a chain below the opening
price. -/
structure Left (slots : Slots) : Prop where
  dbl : 0 ≤ slots.DBC_store (S.index 1 0 1)
  tpl : 0 ≤ slots.DBC_store (S.index 1 0 2)
  cheap : slots.DBC_store (S.index 1 0 1) * S.DBL_COST + slots.DBC_store (S.index 1 0 2) * S.TPL_COST <
    2 ^ 20 * S.ADD_COST

private theorem opening_price {slots : Slots} (left : S.Left slots) : 2 ^ 20 * S.ADD_COST ≤ S.price slots.opened 1 := by
  have dbl := mul_nonneg left.dbl (Int.natCast_nonneg S.DBL_COST)
  have tpl := mul_nonneg left.tpl (Int.natCast_nonneg S.TPL_COST)
  have cheap := left.cheap
  have affordable := S.affordable
  have opening : slots.opened.DBC_len 1 = 2 ^ 20 := by simp [Slots.opened]
  have same : slots.opened.DBC_store = slots.DBC_store := rfl
  rw [price, opening, same, Int.bmod_eq_of_le] <;> omega

/-- After the candidates of a call, the slot that is not in turn holds a cheapest one. -/
theorem leads_foldl_record {slots : Slots} (left : S.Left slots) {chains : List (List (ℤ × ℕ × ℕ))}
    (nonempty : chains ≠ []) (good : ∀ rows ∈ chains, S.Good rows) :
    S.board.Leads chains (chains.foldl S.record (0, slots.opened)) := by
  apply S.board.leads_foldl slots.opened nonempty good
  intro rows member
  exact (good rows member).cheap.trans_le (S.opening_price left)

private theorem Left.record {slots : Slots} (left : S.Left slots) {rows : List (ℤ × ℕ × ℕ)} (good : S.Good rows) (i : ℕ) :
    S.Left (S.record (i, slots) rows).2 := by
  by_cases overwritten : i = 1
  · have holds : S.Holds (S.record (i, slots) rows).2 1 rows := overwritten ▸ S.board.holds_write good
    obtain ⟨dbl, tpl⟩ := holds.leading S good.nonempty
    have cheap := good.cheap
    have length : 0 ≤ (rows.length : ℤ) * S.ADD_COST := by positivity
    unfold cost at cheap
    constructor
    · rw [dbl]
      exact Int.natCast_nonneg _
    · rw [tpl]
      exact Int.natCast_nonneg _
    · rw [dbl, tpl]
      omega
  · have room : 0 < S.rows := (List.length_pos_of_ne_nil good.nonempty).trans_le good.fits
    have kept : S.readRow (S.record (i, slots) rows).2.DBC_store 1 0 = S.readRow slots.DBC_store 1 0 :=
      S.readRow_writeRows_of_ne (by rw [Nat.zero_add]; exact good.fits) room (.inl overwritten) slots.DBC_store
    simp only [readRow, Prod.mk.injEq] at kept
    obtain ⟨-, dbl, tpl⟩ := kept
    constructor
    · rw [dbl]
      exact left.dbl
    · rw [tpl]
      exact left.tpl
    · rw [dbl, tpl]
      exact left.cheap

/-- Slot `slot` holds a cheapest of the chains, unmodified and complete with its length. -/
def Returns (chains : List (List (ℤ × ℕ × ℕ))) (slot : ℕ) (after : Slots) : Prop :=
  slot < 2 ∧ ∃ rows ∈ chains, S.Holds after slot rows ∧ ∀ rows' ∈ chains, S.cost rows ≤ S.cost rows'

/-- After the candidates of a call, the slot that is returned holds a cheapest one. -/
theorem returns_foldl_record {slots : Slots} (left : S.Left slots) {chains : List (List (ℤ × ℕ × ℕ))}
    (nonempty : chains ≠ []) (good : ∀ rows ∈ chains, S.Good rows) :
    S.Returns chains (1 - (chains.foldl S.record (0, slots.opened)).1) (chains.foldl S.record (0, slots.opened)).2 := by
  have leads := S.leads_foldl_record left nonempty good
  exact ⟨by omega, leads.least⟩

/-- The price of the slot returned is at most that of every candidate. -/
theorem Returns.price_le {chains : List (List (ℤ × ℕ × ℕ))} {slot : ℕ} {after : Slots}
    (returns : S.Returns chains slot after) (good : ∀ rows ∈ chains, S.Good rows) :
    (∃ rows ∈ chains, S.price after slot = S.cost rows) ∧ ∀ rows ∈ chains, S.price after slot ≤ S.cost rows := by
  obtain ⟨-, best, member, holds, least⟩ := returns
  have price := S.price_of_holds (good best member) holds
  exact ⟨⟨best, member, price⟩, fun rows present => price ▸ least rows present⟩

/-- A call leaves in slot 1 what the next call allows for. -/
theorem Left.foldl_record {slots : Slots} (left : S.Left slots) (chains : List (List (ℤ × ℕ × ℕ)))
    (good : ∀ rows ∈ chains, S.Good rows) (i : ℕ) : S.Left (chains.foldl S.record (i, slots)).2 := by
  induction chains generalizing i slots with
  | nil => exact left
  | cons rows chains ih =>
    have here := left.record S (good rows List.mem_cons_self) i
    exact ih here (fun rows' member => good rows' (List.mem_cons_of_mem _ member)) _

end Layout

/-! ## The candidates of a call -/

section Candidates

variable {INTS : ℕ} (bounds : Bounds INTS) (floats : Floats INTS) (pow23_all : ℕ → ℕ → MyBigInt INTS) (fuel : ℕ)

/-- The exponents that a call searches from, in order. -/
def accepted (dbc_coef : Option ℤ) (n : MyBigInt INTS) : List ℕ → ℤ → List ℕ
  | [], _ => []
  | b :: bs, count_DBC =>
    if bounds.LBound n b < 0 ∨ bounds.RBound n b < 0 then []
    else if bounds.LBound n b = bounds.RBound n b then
      b :: if dbc_coef.any (count_DBC + 1 > ·) then [] else accepted dbc_coef n bs (count_DBC + 1)
    else accepted dbc_coef n bs count_DBC

/-- The candidate chains of a call, in order. -/
def candidates (window : ℕ) (dbc_coef : Option ℤ) (n : MyBigInt INTS) (bs : List ℕ) (count_DBC : ℤ) :
    Option (List (List (ℤ × ℕ × ℕ))) :=
  (accepted bounds dbc_coef n bs count_DBC).mapM (chainOf bounds floats pow23_all fuel window n)

variable {bounds floats pow23_all fuel}

/-- The loop over the exponents records the candidate chains one after the other. -/
theorem tryAll_eq (window : ℕ) (dbc_coef : Option ℤ) (n : MyBigInt INTS) (bs : List ℕ) (count_DBC : ℤ)
    (st : ℕ × Slots) : tryAll bounds floats pow23_all fuel window dbc_coef n bs count_DBC st =
      (candidates bounds floats pow23_all fuel window dbc_coef n bs count_DBC).map fun chains =>
        chains.foldl (cpu INTS).record st := by
  induction bs generalizing count_DBC st with
  | nil => rfl
  | cons b bs ih =>
    unfold candidates at ih ⊢
    rw [tryAll, accepted]
    by_cases negative : bounds.LBound n b < 0 ∨ bounds.RBound n b < 0
    · rw [if_pos negative, if_pos negative]
      rfl
    rw [if_neg negative, if_neg negative]
    by_cases equal : bounds.LBound n b = bounds.RBound n b
    · rw [if_pos equal, if_pos equal, List.mapM_cons]
      cases chainOf bounds floats pow23_all fuel window n b with
      | none => rfl
      | some rows =>
        simp only [Option.bind_eq_bind, Option.bind_some]
        split
        · rfl
        · rw [ih]
          cases (accepted bounds dbc_coef n bs (count_DBC + 1)).mapM (chainOf bounds floats pow23_all fuel window n) <;>
            rfl
    · rw [if_neg equal, if_neg equal]
      exact ih count_DBC st

private theorem stored_ne_nil {window : ℕ} {minus : MyBigInt INTS → MyBigInt INTS → MyBigInt INTS} {x y : Greedy INTS}
    (run : Relation.ReflTransGen (Step window minus pow23_all) x y) (running : x.t.iszero = false)
    (finished : y.t.iszero = true) : y.stored ≠ [] := by
  cases run with
  | refl => simp [running] at finished
  | tail _ last =>
    obtain ⟨-, alpha, beta, -, -, -, rfl⟩ := last
    simp [next]

/-- A candidate chain of a positive number has a leading term and fits its slot. -/
theorem chainOf_fits {window : ℕ} {n : MyBigInt INTS} (positive : 0 < n.toNat) {b : ℕ} {rows : List (ℤ × ℕ × ℕ)}
    (ends : chainOf bounds floats pow23_all fuel window n b = some rows) : rows ≠ [] ∧ rows.length ≤ (cpu INTS).rows := by
  simp only [chainOf, Option.bind_eq_bind, Option.bind_eq_some_iff] at ends
  obtain ⟨y, search, fits⟩ := ends
  obtain ⟨run, finished⟩ := loopWith_run _ _ _ _ _ _ _ search
  split at fits
  · rename_i short
    obtain rfl := Option.some.inj fits
    refine ⟨stored_ne_nil run ?_ finished, short⟩
    rw [← Bool.not_eq_true, MyBigInt.iszero_iff]
    exact positive.ne'
  · cases fits

/-- The candidates of a call are chains that a slot can hold, if they are below the opening price. -/
theorem candidates_good {window : ℕ} {dbc_coef : Option ℤ} {n : MyBigInt INTS} (positive : 0 < n.toNat) {bs : List ℕ}
    {count_DBC : ℤ} {chains : List (List (ℤ × ℕ × ℕ))}
    (produced : candidates bounds floats pow23_all fuel window dbc_coef n bs count_DBC = some chains)
    (cheap : ∀ rows ∈ chains, (cpu INTS).cost rows < 2 ^ 20 * (cpu INTS).ADD_COST) :
    ∀ rows ∈ chains, (cpu INTS).Good rows := by
  intro rows member
  obtain ⟨b, -, ends⟩ := Loops.exists_of_mem_mapM produced rows member
  obtain ⟨nonempty, fits⟩ := chainOf_fits positive ends
  exact ⟨nonempty, fits, cheap rows member⟩

/-- A larger limit adds candidates at the end. -/
theorem accepted_grows {coef coef' : ℤ} (larger : coef ≤ coef') (n : MyBigInt INTS) (bs : List ℕ) (count_DBC : ℤ) :
    accepted bounds (some coef) n bs count_DBC <+: accepted bounds (some coef') n bs count_DBC := by
  induction bs generalizing count_DBC with
  | nil => exact List.prefix_rfl
  | cons b bs ih =>
    simp only [accepted, Option.any_some, decide_eq_true_eq]
    split
    · exact List.prefix_rfl
    · split
      · apply (List.prefix_cons_inj b).mpr
        split
        · exact List.nil_prefix
        · rw [if_neg (by omega)]
          exact ih (count_DBC + 1)
      · exact ih count_DBC

variable {n : MyBigInt INTS} {bs : List ℕ} {dbc_coef : ℤ} {slots after : Slots} {slot : ℕ}
  {chains : List (List (ℤ × ℕ × ℕ))}

/-- `getSubOptimalDBC` returns when all its candidates are found. -/
theorem getSubOptimalDBC_ends (slots : Slots)
    (produced : candidates bounds floats pow23_all fuel 6 (some dbc_coef) n bs 0 = some chains) :
    ∃ slot after, getSubOptimalDBC bounds floats pow23_all fuel bs n dbc_coef slots = some (slot, after) := by
  rw [getSubOptimalDBC, tryAll_eq, produced]
  exact ⟨_, _, rfl⟩

/-- `getEOSDBC` returns when all its candidates are found. -/
theorem getEOSDBC_ends (slots : Slots)
    (produced : candidates bounds floats pow23_all fuel 4 none n (List.range (MAX_3 INTS)) 0 = some chains) :
    ∃ slot after, getEOSDBC bounds floats pow23_all fuel n slots = some (slot, after) := by
  rw [getEOSDBC, tryAll_eq, produced]
  exact ⟨_, _, rfl⟩

/-- `getSubOptimalDBC` returns a cheapest of its candidates. -/
theorem getSubOptimalDBC_returns (positive : 0 < n.toNat) (left : (cpu INTS).Left slots)
    (produced : candidates bounds floats pow23_all fuel 6 (some dbc_coef) n bs 0 = some chains)
    (nonempty : chains ≠ []) (cheap : ∀ rows ∈ chains, (cpu INTS).cost rows < 2 ^ 20 * (cpu INTS).ADD_COST)
    (ends : getSubOptimalDBC bounds floats pow23_all fuel bs n dbc_coef slots = some (slot, after)) :
    (cpu INTS).Returns chains slot after := by
  rw [getSubOptimalDBC, tryAll_eq, produced] at ends
  cases ends
  exact (cpu INTS).returns_foldl_record left nonempty (candidates_good positive produced cheap)

/-- `getEOSDBC` returns a cheapest of its candidates. -/
theorem getEOSDBC_returns (positive : 0 < n.toNat) (left : (cpu INTS).Left slots)
    (produced : candidates bounds floats pow23_all fuel 4 none n (List.range (MAX_3 INTS)) 0 = some chains)
    (nonempty : chains ≠ []) (cheap : ∀ rows ∈ chains, (cpu INTS).cost rows < 2 ^ 20 * (cpu INTS).ADD_COST)
    (ends : getEOSDBC bounds floats pow23_all fuel n slots = some (slot, after)) :
    (cpu INTS).Returns chains slot after := by
  rw [getEOSDBC, tryAll_eq, produced] at ends
  cases ends
  exact (cpu INTS).returns_foldl_record left nonempty (candidates_good positive produced cheap)

/-- A larger limit never raises the cost of the chain that `getSubOptimalDBC` returns. -/
theorem getSubOptimalDBC_antitone {dbc_coef' : ℤ} (larger : dbc_coef ≤ dbc_coef') {slots' after' : Slots} {slot' : ℕ}
    {chains' : List (List (ℤ × ℕ × ℕ))} (positive : 0 < n.toNat) (left : (cpu INTS).Left slots)
    (left' : (cpu INTS).Left slots')
    (produced : candidates bounds floats pow23_all fuel 6 (some dbc_coef) n bs 0 = some chains)
    (produced' : candidates bounds floats pow23_all fuel 6 (some dbc_coef') n bs 0 = some chains')
    (nonempty : chains ≠ []) (cheap : ∀ rows ∈ chains', (cpu INTS).cost rows < 2 ^ 20 * (cpu INTS).ADD_COST)
    (ends : getSubOptimalDBC bounds floats pow23_all fuel bs n dbc_coef slots = some (slot, after))
    (ends' : getSubOptimalDBC bounds floats pow23_all fuel bs n dbc_coef' slots' = some (slot', after')) :
    (cpu INTS).price after' slot' ≤ (cpu INTS).price after slot := by
  have more : chains <+: chains' := Loops.mapM_initial (accepted_grows larger n bs 0) produced produced'
  have inside : ∀ rows ∈ chains, rows ∈ chains' := fun rows member => more.subset member
  have fewer := getSubOptimalDBC_returns positive left produced nonempty
    (fun rows member => cheap rows (inside rows member)) ends
  have all := getSubOptimalDBC_returns positive left' produced'
    (fun none => nonempty (List.prefix_nil.mp (none ▸ more))) cheap ends'
  have good := candidates_good positive produced' cheap
  obtain ⟨⟨best, member, price⟩, -⟩ :=
    fewer.price_le (cpu INTS) fun rows present => good rows (inside rows present)
  rw [price]
  exact (all.price_le (cpu INTS) good).2 best (inside best member)

end Candidates

end DbcSnark.DBCTest
