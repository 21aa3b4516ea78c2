import DbcSnark.Model.DBCTest.Greedy

/-! # The chain search on the GPU

`get_DBC` runs the greedy search from at most `DBC_COEF` exponents of 3 and keeps the cheaper of two chains
in the caller's store. Logarithms and distances are decided exactly; an index outside the tables
`d_pow23`, `u_pow23` or outside the store is an error, and so is running out of turns.
-/

namespace DbcSnark.Gpuec

open DBCTest (UInt288 Greedy Floats pick)

def MAX_2 : ℕ := 270
def MAX_3 : ℕ := 180
def DBL_COST : ℤ := 7
def ADD_COST : ℤ := 15
def TPL_COST : ℤ := 22
def DBC_COEF : ℕ := 10
def DBC_MAXLENGTH : ℕ := 100

def b_try : List ℕ :=
  [72, 71, 73, 74, 70, 69, 75, 68, 76, 67,
    77, 66, 65, 78, 64, 79, 63, 80, 62, 61,
    81, 60, 82, 59, 58, 83, 57, 84, 56, 55,
    85, 54, 53, 86, 52, 51, 87, 50, 88, 49,
    48, 89, 47, 46, 90, 45, 44, 91, 43, 42,
    92, 41, 40, 93, 39, 38, 94, 37, 36, 95,
    35, 34, 96, 33, 32, 97, 31, 30, 98, 29,
    28, 27, 99, 26, 25, 100, 24, 23, 101, 22,
    21, 102, 20, 19, 103, 18, 17, 104, 16, 15,
    105, 14, 13, 106, 12, 11, 107, 10, 9, 108,
    8, 7, 6, 109, 5, 4, 110, 3, 2, 111,
    1, 112, 0, 113, 114, 115, 116, 117, 118, 119]

/-- What can go wrong in a call. -/
inductive Fault where
  | outOfRange
  | outOfTurns
deriving DecidableEq, Repr

/-- The memory the caller hands over: `DBC_store` of `2 * DBC_MAXLENGTH * 3` integers and `DBC_len`. -/
structure Memory where
  DBC_store : ℕ → ℤ
  DBC_len : ℕ → ℤ

/-- The index that the macro `DBC_store(x, y, z)` computes. -/
def storeIndex (x y z : ℕ) : ℕ := x * (3 * DBC_MAXLENGTH) + y * 3 + z

def storeSize : ℕ := 2 * DBC_MAXLENGTH * 3

/-- The three writes to row `y` of chain `x`. -/
def writeRow (store : ℕ → ℤ) (x y : ℕ) (row : ℤ × ℕ × ℕ) : ℕ → ℤ :=
  Function.update (Function.update (Function.update store (storeIndex x y 0) row.1)
    (storeIndex x y 1) row.2.1) (storeIndex x y 2) row.2.2

def readRow (store : ℕ → ℤ) (x y : ℕ) : ℤ × ℤ × ℤ :=
  (store (storeIndex x y 0), store (storeIndex x y 1), store (storeIndex x y 2))

/-- `int(log2(num / den))`; the conversion drops the fraction, so negative logarithms round up. -/
def truncLog2 (num den : ℕ) : ℤ := if den ≤ num then Nat.log 2 (num / den) else -Nat.log 2 (den / num)

/-- `log2(B1 / d_pow23[0][b]) + 1` with `B1 = 0.9091372900969896 * n`. -/
def LBound (n b : ℕ) : ℤ := truncLog2 (2 * 9091372900969896 * n) (10 ^ 16 * 3 ^ b)

/-- `log2(B2 / d_pow23[0][b])` with `B2 = 1.0774960475223583 * n`. -/
def RBound (n b : ℕ) : ℤ := truncLog2 (10774960475223583 * n) (10 ^ 16 * 3 ^ b)

/-- The loop `while (!t.iszero())` for chain `x`; every turn reads the tables at `(a, b_temp)`, the largest
exponents it uses, and writes row `i`. -/
def search (u_pow23 : ℕ → ℕ → UInt288) (x : ℕ) : ℕ → Greedy 9 → (ℕ → ℤ) → Except Fault (ℕ × (ℕ → ℤ))
  | 0, y, store => if y.t.iszero then .ok (y.stored.length, store) else .error .outOfTurns
  | fuel + 1, y, store =>
    if y.t.iszero then .ok (y.stored.length, store)
    else if y.a < MAX_2 ∧ y.b_temp < MAX_3 ∧ storeIndex x y.stored.length 2 < storeSize then
      let (alpha, beta) := pick (.exact 9) 6 y.a y.b_temp y.t
      search u_pow23 x fuel (y.next UInt288.sub u_pow23 alpha beta)
        (writeRow store x y.stored.length (y.s, alpha, beta))
    else .error .outOfRange

/-- The search for one candidate `b`. With a negative `RBound` the first turn already reads
`d_pow23[alpha][beta]` with a negative index. -/
def candidate (u_pow23 : ℕ → ℕ → UInt288) (fuel : ℕ) (n : UInt288) (x b : ℕ) (store : ℕ → ℤ) :
    Except Fault (ℕ × (ℕ → ℤ)) :=
  match RBound n.toNat b with
  | .ofNat a => search u_pow23 x fuel (.start n a b) store
  | .negSucc _ => if n.iszero then .ok (0, store) else .error .outOfRange

/-- The price of chain `x`, in the 32 bits of an `int`. -/
def price (memory : Memory) (x : ℕ) : ℤ :=
  (memory.DBC_len x * ADD_COST + memory.DBC_store (storeIndex x 0 1) * DBL_COST +
    memory.DBC_store (storeIndex x 0 2) * TPL_COST).bmod (2 ^ 32)

/-- The loop body for the candidate `b`, the state being `DBC_index` and the memory. -/
def tryCandidate (u_pow23 : ℕ → ℕ → UInt288) (fuel : ℕ) (n : UInt288) (state : ℕ × Memory) (b : ℕ) :
    Except Fault (ℕ × Memory) :=
  let (DBC_index, memory) := state
  if LBound n.toNat b = RBound n.toNat b then do
    let (i, store) ← candidate u_pow23 fuel n DBC_index b memory.DBC_store
    let memory : Memory := ⟨store, Function.update memory.DBC_len DBC_index i⟩
    return (if price memory 0 < price memory 1 then 1 else 0, memory)
  else return (DBC_index, memory)

/-- The memory after `DBC_len[1] = 1 << 20`. -/
def opened (memory : Memory) : Memory := { memory with DBC_len := Function.update memory.DBC_len 1 (2 ^ 20) }

/-- `get_DBC`: the slot returned and the memory left behind. -/
def get_DBC (u_pow23 : ℕ → ℕ → UInt288) (fuel : ℕ) (n : UInt288) (memory : Memory) : Except Fault (ℕ × Memory) := do
  let (DBC_index, memory) ← (b_try.take DBC_COEF).foldlM (tryCandidate u_pow23 fuel n) (0, opened memory)
  return (1 - DBC_index, memory)

end DbcSnark.Gpuec
