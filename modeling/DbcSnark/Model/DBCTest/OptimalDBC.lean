import DbcSnark.Model.DBCTest.MyBigInt
import DbcSnark.ToMathlib.DoubleBase

/-! # The dynamic programme for optimal double-base chains

`getOptimalDBC` of `optimal_DBC.cpp` fills two tables of cells linked by parent pointers, `w` for the
residues of `n` and `w_` for the residues less the modulus, and keeps in `w_min` the cheapest chain
met on the frontier `bBound`. Cells live in an explicit memory and a pointer is a location in it.
Variables the call writes before it reads them are local; the tables, `w_min`, `now_DBC`, `bBound`
and the result arrays persist. The two float logarithms are arguments.
-/

namespace DbcSnark.DBCTest

/-- `struct Chain`: one stored term. -/
abbrev Chain := DoubleBase.Term

/-- The compile-time constants. `mul_num` covers 21 words, and no cost reaches the value that stands
for a missing chain. -/
structure Macros where
  INTS : ℕ
  DBL_COST : ℕ
  TPL_COST : ℕ
  ADD_COST : ℕ
  covered : INTS ≤ 21
  affordable : (DBL_COST + TPL_COST + ADD_COST) * (64 * INTS) < 99999999

namespace Macros

/-- The costs of `myBigInt.h`. -/
def default (INTS : ℕ) (covered : INTS ≤ 21) : Macros := ⟨INTS, 70, 126, 150, covered, by omega⟩

/-- The nine words used for `NID_secp256k1`. -/
abbrev secp256k1 : Macros := default 9 (by decide)

def MAX_2 (m : Macros) : ℕ := 32 * m.INTS

/-- `int(20.19 * INTS)`. -/
def MAX_3 (m : Macros) : ℕ := 2019 * m.INTS / 100

end Macros

inductive Table
  | w
  | w_
deriving DecidableEq

/-- The cell `w(dbl, tri)` or `w_(dbl, tri)`; `DBCGroup` shifts its indices so that `-1` is valid. -/
structure Loc where
  table : Table
  dbl : ℤ
  tri : ℤ
deriving DecidableEq

/-- `struct optimal_DBC`. -/
structure OptimalDBC where
  isNULL : Bool := false
  isBasic : Bool := false
  length : ℕ := 0
  addNode : Chain := ⟨0, 0, false⟩
  basic_value : ℤ := 0
  parent : Option Loc := none

namespace OptimalDBC

def setNULL (c : OptimalDBC) : OptimalDBC := { c with isNULL := true, length := 0 }

/-- `operator=(int n)` at `n = 0`, the only value it is called with. -/
def assignZero (c : OptimalDBC) : OptimalDBC := { c with isNULL := false, length := 0, isBasic := true }

def getL (c : OptimalDBC) : ℕ := if c.isNULL then 99999999 else c.length

def getV (m : Macros) (c : OptimalDBC) : ℤ :=
  if c.isBasic then c.basic_value
  else if c.isNULL then 99999999
  else m.DBL_COST * c.addNode.dbl + m.TPL_COST * c.addNode.tpl + m.ADD_COST * ((c.length : ℤ) - 1)

/-- `add`, called on the cell stored at `this`. -/
def add (this : Loc) (c : OptimalDBC) (dbl tpl : ℕ) (coef : ℤ) : OptimalDBC :=
  if c.isNULL then c
  else { parent := some this, addNode := ⟨dbl, tpl, coef != 1⟩, length := c.length + 1 }

/-- `minL` of three: the last argument wins ties. -/
def minL (a b c : OptimalDBC) : OptimalDBC :=
  if a.getL < b.getL then
    if a.getL < c.getL then a else c
  else
    if b.getL < c.getL then b else c

/-- `minV` of two. -/
def minV₂ (m : Macros) (a b : OptimalDBC) : OptimalDBC :=
  if a.getV m < b.getV m then a else b

/-- `minV` of three. -/
def minV (m : Macros) (a b c : OptimalDBC) : OptimalDBC :=
  if a.getV m < b.getV m then
    if a.getV m < c.getV m then a else c
  else
    if b.getV m < c.getV m then b else c

end OptimalDBC

/-- The globals that outlive a call; of the result arrays only slot 0 is written. -/
structure State where
  cells : Loc → OptimalDBC
  w_min : OptimalDBC
  now_DBC : ℕ → Chain
  bBound : ℕ → ℕ
  DBC_store : ℕ → ℤ × ℕ × ℕ
  DBC_len : ℕ

namespace State

def w (s : State) (b t : ℤ) : OptimalDBC := s.cells ⟨.w, b, t⟩

def w_ (s : State) (b t : ℤ) : OptimalDBC := s.cells ⟨.w_, b, t⟩

/-- `w(b, t).add(dbl, tpl, coef)` and `w_(b, t).add(dbl, tpl, coef)`. -/
def addTo (s : State) (table : Table) (b t : ℤ) (dbl tpl : ℕ) (coef : ℤ) : OptimalDBC :=
  (s.cells ⟨table, b, t⟩).add ⟨table, b, t⟩ dbl tpl coef

def set (s : State) (table : Table) (b t : ℤ) (c : OptimalDBC) : State :=
  { s with cells := Function.update s.cells ⟨table, b, t⟩ c }

/-- The part of `init` that prepares the tables: the cells at `-1` are null and `w(0, 0)` is the empty
chain. -/
def init (m : Macros) (s : State) : State :=
  let s := s.set .w 0 0 (s.w 0 0).assignZero
  let s := s.set .w_ 0 0 (s.w_ 0 0).setNULL
  { s with cells := fun l =>
      if (l.tri = -1 ∧ 0 ≤ l.dbl ∧ l.dbl < m.MAX_2) ∨ (l.dbl = -1 ∧ 0 ≤ l.tri ∧ l.tri < m.MAX_3) then
        (s.cells l).setNULL
      else s.cells l }

/-- The zero-initialised globals after their default constructors. -/
def start : State := ⟨fun _ => {}, {}, fun _ => ⟨0, 0, false⟩, fun _ => 0, fun _ => (0, 0, 0), 0⟩

end State

section Steps

variable (m : Macros)

/-- The positions of the set bits, low words first, as the two loops of `operator=` count them. -/
def bits {INTS : ℕ} (n : MyBigInt INTS) : List ℕ :=
  (List.range (32 * INTS)).filter fun bit => (n.data.reverse.getD (bit / 32) 0 >>> (bit % 32)) % 2 = 1

/-- `w_min = n`: the binary expansion, written to `now_DBC`. `isNULL` and `parent` keep their values. -/
def assignBinary {INTS : ℕ} (n : MyBigInt INTS) (s : State) : State :=
  let flag := (bits n).length
  let now_DBC := fun i => if i < flag then ⟨(bits n).getD i 0, 0, false⟩ else s.now_DBC i
  { s with
    now_DBC := now_DBC
    w_min := { s.w_min with
      length := flag
      basic_value := (now_DBC (flag - 1)).dbl * m.DBL_COST + m.ADD_COST * ((flag : ℤ) - 1)
      isBasic := true } }

/-- The search `for (; i >= 0; i--) if (B >= pow23_all[i][t]) break;`, started at `i - 1`. -/
def findBound (reaches : ℕ → Bool) : ℕ → Option ℕ
  | 0 => none
  | i + 1 => if reaches i then some i else findBound reaches i

/-- One turn of the frontier loop at `t = t' + 1`; the counter is one more than the `i` of the code. -/
def boundStep {INTS : ℕ} (pow23_all : ℕ → ℕ → MyBigInt INTS) (B : MyBigInt INTS)
    (state : (ℕ → ℕ) × ℕ) (t' : ℕ) : (ℕ → ℕ) × ℕ :=
  match findBound (fun i => B.ge (pow23_all i (t' + 1))) state.2 with
  | some i => (Function.update state.1 (t' + 1) i, i)
  | none => (state.1, 0)

/-- `bBound[0] = log2B` and the loop over `t = 1, ..., log3B`. -/
def frontier {INTS : ℕ} (pow23_all : ℕ → ℕ → MyBigInt INTS) (B : MyBigInt INTS) (log2B log3B : ℕ)
    (bBound : ℕ → ℕ) : ℕ → ℕ :=
  ((List.range log3B).foldl (boundStep pow23_all B) (Function.update bBound 0 log2B, log2B + 1)).1

/-- The four cases of the recurrence at cell `(b, t)`. -/
def fillCell (b t quot : ℕ) (s : State) : State :=
  if quot < 2 then
    let s := s.set .w b t (.minL (s.w (b - 1) t) (s.w b (t - 1)) (s.addTo .w_ b (t - 1) b (t - 1) 1))
    s.set .w_ b t (s.addTo .w_ (b - 1) t (b - 1) t (-1))
  else if quot = 2 then
    let s := s.set .w b t
      (.minL (s.w (b - 1) t) (s.addTo .w_ (b - 1) t (b - 1) t 1) (s.addTo .w b (t - 1) b (t - 1) 1))
    s.set .w_ b t (s.addTo .w_ (b - 1) t (b - 1) t (-1))
  else if quot = 3 then
    let s := s.set .w b t (s.addTo .w (b - 1) t (b - 1) t 1)
    s.set .w_ b t
      (.minL (s.addTo .w (b - 1) t (b - 1) t (-1)) (s.w_ (b - 1) t) (s.addTo .w_ b (t - 1) b (t - 1) (-1)))
  else
    let s := s.set .w b t (s.addTo .w (b - 1) t (b - 1) t 1)
    s.set .w_ b t
      (.minL (s.w_ (b - 1) t) (s.addTo .w b (t - 1) b (t - 1) (-1)) (s.w_ b (t - 1)))

/-- The comparison with `w_min` at a frontier cell. -/
def closeCell (pow23_all : ℕ → ℕ → MyBigInt m.INTS) (n : MyBigInt m.INTS) (b t : ℕ) (s : State) : State :=
  if n.ge (pow23_all b t) then
    { s with w_min := .minV₂ m (s.addTo .w b t b t 1) s.w_min }
  else
    { s with w_min := .minV m (s.w b t) (s.addTo .w_ b t b t 1) s.w_min }

/-- The body of the innermost loop. -/
def visit (pow23_all : ℕ → ℕ → MyBigInt m.INTS) (n : MyBigInt m.INTS) (b t quot : ℕ) (s : State) : State :=
  let s := if b + t > 0 ∧ b ≤ s.bBound t then fillCell b t quot s else s
  if b = s.bBound t then closeCell m pow23_all n b t s else s

def pow23_1 (i j : ℕ) : ℕ := 2 ^ i * 3 ^ j

/-- The two inner loops over one block of 18 rows and 32 columns. Both `break` conditions stand at the
top of their loop, so a loop runs over the leading indices that pass. -/
def block (pow23_all : ℕ → ℕ → MyBigInt m.INTS) (n : MyBigInt m.INTS) (log2B log3B j_outer i_outer n0 : ℕ)
    (s : State) : State :=
  ((List.range 18).takeWhile fun j_inner => j_outer * 18 + j_inner ≤ log3B).foldl (fun s j_inner =>
    ((List.range 32).takeWhile fun i_inner => i_outer * 32 + i_inner ≤ log2B).foldl (fun s i_inner =>
      visit m pow23_all n (i_outer * 32 + i_inner) (j_outer * 18 + j_inner)
        (n0 / pow23_1 i_inner j_inner % 6) s) s) s

/-- The loop over `i_outer`, with the pending `temp_outer`. -/
def blockRow (pow23_all : ℕ → ℕ → MyBigInt m.INTS) (n : MyBigInt m.INTS) (log2B log3B j_outer : ℕ)
    (record_outer : MyBigInt m.INTS) (s : State) : State :=
  ((List.range (s.bBound (j_outer * 18) / 32 + 1 + 1)).foldl (fun acc i_outer =>
    (block m pow23_all n log2B log3B j_outer i_outer acc.2.mod2_33_3_19 acc.1, acc.2.rshift32))
    (s, record_outer)).1

/-- The loop over `j_outer`, with the pending `record_outer`. -/
def fillTables (pow23_all : ℕ → ℕ → MyBigInt m.INTS) (n six_n : MyBigInt m.INTS) (log2B log3B : ℕ)
    (s : State) : State :=
  ((List.range (log3B / 18 + 1 + 1)).foldl (fun acc j_outer =>
    (blockRow m pow23_all n log2B log3B j_outer acc.2 acc.1, acc.2.div3_18)) (s, six_n)).1

/-- The loop of `simDBC`, with `i` one more than in the code. -/
def simDBCFrom (cells : Loc → OptimalDBC) : ℕ → OptimalDBC → (ℕ → Chain) → ℕ → Chain
  | 0, _, now_DBC => now_DBC
  | i + 1, present, now_DBC =>
    simDBCFrom cells i (present.parent.elim {} cells) (Function.update now_DBC i present.addNode)

/-- `w_min.simDBC()`. -/
def simDBC (s : State) : State :=
  if s.w_min.isBasic then s
  else { s with now_DBC := simDBCFrom s.cells s.w_min.length s.w_min s.now_DBC }

/-- A stored row: sign, exponent of 2, exponent of 3. -/
def row (c : Chain) : ℤ × ℕ × ℕ := (1 - 2 * if c.minus then 1 else 0, c.dbl, c.tpl)

/-- The final loop that copies `now_DBC` in reverse. -/
def store (s : State) : State :=
  { s with
    DBC_store := (List.range s.w_min.length).foldl (fun DBC_store i =>
      Function.update DBC_store (s.w_min.length - i - 1) (row (s.now_DBC i))) s.DBC_store
    DBC_len := s.w_min.length }

/-- `getOptimalDBC`. -/
def getOptimalDBC (pow23_all : ℕ → ℕ → MyBigInt m.INTS) (log2B log3B : ℕ) (n : MyBigInt m.INTS)
    (s : State) : State :=
  let s := assignBinary m n s
  let B := n.mul2
  let six_n := B.mul3
  let s := { s with bBound := frontier pow23_all B log2B log3B s.bBound }
  store (simDBC (fillTables m pow23_all n six_n log2B log3B s))

end Steps

/-- The stored chain `DBC_store[0][0 .. DBC_len[0] - 1]`. -/
def State.chain (s : State) : List (ℤ × ℕ × ℕ) := (List.range s.DBC_len).map s.DBC_store

end DbcSnark.DBCTest
