import DbcSnark.Model.DBCTest.Greedy

/-! # The candidate loops of the greedy searches

`getSubOptimalDBC` and `getEOSDBC` run the greedy search from one exponent of 3 after the other and keep two chains
in `DBC_store`: the cheapest so far and the one that is overwritten next. The logarithms that decide about a
candidate are gathered in `Bounds`. `Layout` holds what the GPU search has different, the room for a chain and the
prices.
-/

namespace DbcSnark.DBCTest

/-- The outcomes of the floating-point logarithms for the scalar `n` and the exponent `b`, as integers. -/
structure Bounds (INTS : ℕ) where
  /-- `log(B1 / d_pow23_all[0][b]) / log(2) + 1` -/
  LBound : MyBigInt INTS → ℕ → ℤ
  /-- `log(B2 / d_pow23_all[0][b]) / log(2)` -/
  RBound : MyBigInt INTS → ℕ → ℤ

/-- The two chains that a search keeps: the arrays `DBC_store` and `DBC_len`. -/
structure Slots where
  DBC_store : ℕ → ℤ
  DBC_len : ℕ → ℤ

/-- The number of rows a chain has room for, and the prices; `2 ^ 21` additions fit an `int`. -/
structure Layout where
  rows : ℕ
  DBL_COST : ℕ
  ADD_COST : ℕ
  TPL_COST : ℕ
  affordable : ADD_COST ≤ 1024

namespace Layout

variable (S : Layout)

/-- The position of `DBC_store[x][y][z]`. -/
def index (x y z : ℕ) : ℕ := x * (3 * S.rows) + y * 3 + z

/-- The three writes to row `y` of chain `x`. -/
def writeRow (store : ℕ → ℤ) (x y : ℕ) (row : ℤ × ℕ × ℕ) : ℕ → ℤ :=
  Function.update (Function.update (Function.update store (S.index x y 0) row.1)
    (S.index x y 1) row.2.1) (S.index x y 2) row.2.2

/-- The rows of a search, written to chain `x` from row `y` on. -/
def writeRows (x : ℕ) : ℕ → List (ℤ × ℕ × ℕ) → (ℕ → ℤ) → ℕ → ℤ
  | _, [], store => store
  | y, row :: rows, store => writeRows x (y + 1) rows (S.writeRow store x y row)

/-- `temp0` and `temp1`, in the 32 bits of an `int`. -/
def price (slots : Slots) (x : ℕ) : ℤ :=
  (slots.DBC_len x * S.ADD_COST + slots.DBC_store (S.index x 0 1) * S.DBL_COST +
    slots.DBC_store (S.index x 0 2) * S.TPL_COST).bmod (2 ^ 32)

/-- A candidate with the chain `rows`: its rows and its length are written to the slot `DBC_index`, and the prices
of the two slots decide the next `DBC_index`. -/
def record (st : ℕ × Slots) (rows : List (ℤ × ℕ × ℕ)) : ℕ × Slots :=
  let slots : Slots := ⟨S.writeRows st.1 0 rows st.2.DBC_store, Function.update st.2.DBC_len st.1 rows.length⟩
  (if S.price slots 0 < S.price slots 1 then 1 else 0, slots)

end Layout

/-- The memory after `DBC_len[1] = 1 << 20`. -/
def Slots.opened (slots : Slots) : Slots := { slots with DBC_len := Function.update slots.DBC_len 1 (2 ^ 20) }

/-- `DBC_store[2][MAX_2][3]` of the CPU, with `MAX_2 = 32 * INTS`. -/
def cpu (INTS : ℕ) : Layout := ⟨32 * INTS, 70, 150, 126, by decide⟩

/-- `MAX_3 = int(20.19 * INTS)`. -/
def MAX_3 (INTS : ℕ) : ℕ := 2019 * INTS / 100

section Candidates

variable {INTS : ℕ} (bounds : Bounds INTS) (floats : Floats INTS) (pow23_all : ℕ → ℕ → MyBigInt INTS) (fuel : ℕ)

/-- The chain that the search for the candidate `b` stores; `none` where it does not end within `fuel` turns or
does not fit `DBC_store`. -/
def chainOf (window : ℕ) (n : MyBigInt INTS) (b : ℕ) : Option (List (ℤ × ℕ × ℕ)) := do
  let y ← Greedy.loop floats window pow23_all fuel (.start n (bounds.RBound n b).toNat b)
  if y.stored.length ≤ (cpu INTS).rows then some y.stored else none

/-- The loop over the candidates, with `count_DBC` and the limit to it, if there is one. -/
def tryAll (window : ℕ) (dbc_coef : Option ℤ) (n : MyBigInt INTS) :
    List ℕ → ℤ → ℕ × Slots → Option (ℕ × Slots)
  | [], _, st => some st
  | b :: bs, count_DBC, st =>
    if bounds.LBound n b < 0 ∨ bounds.RBound n b < 0 then some st
    else if bounds.LBound n b = bounds.RBound n b then do
      let rows ← chainOf bounds floats pow23_all fuel window n b
      let st := (cpu INTS).record st rows
      if dbc_coef.any (count_DBC + 1 > ·) then some st else tryAll window dbc_coef n bs (count_DBC + 1) st
    else tryAll window dbc_coef n bs count_DBC st

/-- `getSubOptimalDBC`: the slot returned and the memory left behind. -/
def getSubOptimalDBC (b_try : List ℕ) (n : MyBigInt INTS) (dbc_coef : ℤ) (slots : Slots) : Option (ℕ × Slots) := do
  let (DBC_index, slots) ← tryAll bounds floats pow23_all fuel 6 (some dbc_coef) n b_try 0 (0, slots.opened)
  return (1 - DBC_index, slots)

/-- `getEOSDBC`: the slot returned and the memory left behind. -/
def getEOSDBC (n : MyBigInt INTS) (slots : Slots) : Option (ℕ × Slots) := do
  let (DBC_index, slots) ← tryAll bounds floats pow23_all fuel 4 none n (List.range (MAX_3 INTS)) 0 (0, slots.opened)
  return (1 - DBC_index, slots)

end Candidates

/-- `b_try` for the curve `secp256k1`, where `INTS` is 9. -/
def b_try : List ℕ :=
  [72, 73, 71, 74, 70, 75, 69, 68, 76, 67, 77, 66, 78, 65, 79, 64, 63, 80, 62, 81, 61, 60, 82, 59, 83, 58, 57, 84,
    56, 55, 85, 54, 53, 86, 52, 51, 87, 50, 49, 88, 48, 47, 89, 46, 45, 90, 44, 43, 91, 42, 41, 92, 40, 39, 38, 93,
    37, 36, 94, 35, 34, 95, 33, 32, 96, 31, 30, 29, 97, 28, 27, 98, 26, 25, 99, 24, 23, 100, 22, 21, 20, 101, 19,
    18, 102, 17, 16, 103, 15, 14, 104, 13, 12, 11, 105, 10, 9, 106, 8, 7]

end DbcSnark.DBCTest
