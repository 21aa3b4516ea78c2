import DbcSnark.Model.DBCTest.SubOptimal
import Mathlib.Logic.Function.Basic

/-! # The table of powers

`init` of `variables.cpp` fills `pow23_all` row by row: the first entry of a row is twice the one above it, every
further entry three times the one before it, until the test on the logarithms leaves the row. The logarithm of three
is exact.
-/

namespace DbcSnark.DBCTest

/-- `pow23_all`, all of whose entries are zero at the start. -/
abbrev Powers (INTS : ℕ) := ℕ → ℕ → MyBigInt INTS

namespace Powers

variable {INTS : ℕ}

/-- `pow23_all[i][j] = v`. -/
def set (pow23_all : Powers INTS) (i j : ℕ) (v : MyBigInt INTS) : Powers INTS :=
  Function.update pow23_all i (Function.update (pow23_all i) j v)

/-- The loop over `j` in row `i`, from `j` on and for the given number of rounds; `i + j * log2(3) > MAX_2` leaves it. -/
def fillRow (i : ℕ) : ℕ → ℕ → Powers INTS → Powers INTS
  | 0, _, pow23_all => pow23_all
  | rounds + 1, j, pow23_all =>
    if 2 ^ (32 * INTS) < 2 ^ i * 3 ^ j then pow23_all
    else fillRow i rounds (j + 1) (pow23_all.set i j (pow23_all i (j - 1)).mul3)

/-- One round of the loop over `i`. -/
def fill (pow23_all : Powers INTS) (i : ℕ) : Powers INTS :=
  fillRow i (MAX_3 INTS - 1) 1 (if 0 < i then pow23_all.set i 0 (pow23_all (i - 1) 0).mul2 else pow23_all)

end Powers

/-- The part of `init` that fills `pow23_all`. -/
def init (INTS : ℕ) : Powers INTS :=
  (List.range (32 * INTS)).foldl Powers.fill (Powers.set (fun _ _ => .ofNat INTS 0) 0 0 (.ofNat INTS 1))

end DbcSnark.DBCTest
