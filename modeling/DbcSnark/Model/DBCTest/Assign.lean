import DbcSnark.Model.DBCTest.OptimalDBC

/-! # The two assignments of a basic value

`optimal_DBC::operator=` of `DBC.h` takes an `int` or a `myBigInt`, stores the terms of its binary expansion in
`now_DBC` and sets the length and the price of the chain. Both read `now_DBC[length-1]`, which for the empty expansion
lies before the array, so `now_DBC` is given with the memory around it.
-/

namespace DbcSnark.DBCTest

namespace Assign

/-- `now_DBC` and the chain that is assigned to. -/
structure State where
  now_DBC : ℤ → Chain
  chain : OptimalDBC

/-- The variables of the two loops; `bit` is the `i` of the first. -/
structure Scan where
  now_DBC : ℤ → Chain
  flag : ℕ
  bit : ℕ

/-- `if (set) now_DBC[flag++].setdata(bit, 0, false); bit++`; a term has exponents of type `ushort`. -/
def Scan.turn (x : Scan) (set : Bool) : Scan :=
  if set then ⟨Function.update x.now_DBC x.flag ⟨x.bit % 2 ^ 16, 0, false⟩, x.flag + 1, x.bit + 1⟩
  else { x with bit := x.bit + 1 }

/-- The lines behind both loops. -/
def finish (m : Macros) (x : Scan) (chain : OptimalDBC) : State :=
  let length := x.flag
  let last := x.now_DBC ((length : ℤ) - 1)
  ⟨x.now_DBC, { chain with
    length := length
    basic_value := last.dbl * m.DBL_COST + m.ADD_COST * ((length : ℤ) - 1)
    isBasic := true }⟩

/-- `for (int i = 0; n > 0; i++) if ((n & 1) == 1) ...`, for so many turns at most. Nothing in it assigns to `n`. -/
def scanInt (n : ℤ) : ℕ → Scan → Option Scan
  | 0, x => if n > 0 then none else some x
  | fuel + 1, x => if n > 0 then scanInt n fuel (x.turn (n % 2 = 1)) else some x

/-- `operator=(int n)`. -/
def assignInt (m : Macros) (fuel : ℕ) (n : ℤ) (s : State) : Option State :=
  if n = 0 then some ⟨s.now_DBC, { s.chain with isNULL := false, length := 0, isBasic := true }⟩
  else (scanInt n fuel ⟨s.now_DBC, 0, 0⟩).map fun x => finish m x s.chain

/-- `for (uint64 j = 1; j <= (uint64)1 << 31; j <<= 1) if ((n.data[i] & j) != 0) ...`. -/
def scanWord (x : Scan) (word : ℕ) : Scan := (List.range 32).foldl (fun x k => x.turn (word &&& 1 <<< k ≠ 0)) x

/-- `operator=(myBigInt n)`, whose outer loop runs from the last word to the first. -/
def assignBigInt (m : Macros) (n : MyBigInt m.INTS) (s : State) : State :=
  finish m (n.data.reverse.foldl scanWord ⟨s.now_DBC, 0, 0⟩) s.chain

end Assign

end DbcSnark.DBCTest
