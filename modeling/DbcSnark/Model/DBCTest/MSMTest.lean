import DbcSnark.Model.DBCTest.Decode
import DbcSnark.Model.DBCTest.EcPointMul
import DbcSnark.Model.DBCTest.SubOptimal
import DbcSnark.Model.Ec.Ladder

/-! # `MSMTest.cpp`

The program multiplies the point of a fresh key by every scalar in six ways and counts the results that differ from those
of `EC_POINT_mul`. Its clocks and its output are left out. The floating-point logarithms and the random numbers are
parameters.
-/

namespace DbcSnark.DBCTest.MSMTest

open Ec

/-! ## The shared arrays -/

/-- Row `y` of chain `x`, as `DBC_POINT_mul` reads it. -/
def rows (S : Layout) (slots : Slots) (x y : ℕ) : ℤ × ℕ × ℕ :=
  (slots.DBC_store (S.index x y 0), (slots.DBC_store (S.index x y 1)).toNat, (slots.DBC_store (S.index x y 2)).toNat)

def len (slots : Slots) (x : ℕ) : ℕ := (slots.DBC_len x).toNat

/-- `DBC_store` and `DBC_len` after calls of `getOptimalDBC` only: chain 0 is theirs, and chain 1 is still zero. -/
def arrays (INTS : ℕ) (s : State) : Slots where
  DBC_store i :=
    if i < 3 * (32 * INTS) then
      if i % 3 = 0 then (s.DBC_store (i / 3)).1
      else if i % 3 = 1 then (s.DBC_store (i / 3)).2.1
      else (s.DBC_store (i / 3)).2.2
    else 0
  DBC_len x := if x = 0 then s.DBC_len else 0

/-! ## The points -/

section Points

variable {p : ℕ} [Fact p.Prime]

/-- The points and the address of the next one to allocate. -/
structure Heap (p : ℕ) where
  m : Points (ZMod p)
  next : ℕ

/-- `EC_POINT_new(group)`. -/
def EC_POINT_new (h : Heap p) : Heap p × ℕ := (⟨ossl_ec_GFp_simple_point_init h.m h.next, h.next + 1⟩, h.next)

/-- `EC_KEY_generate_key` by `ec_generate_key`, with the private key it draws: the address of the public key. -/
def ec_generate_key (group : CurveGroup p) (blinds : Blinds p) (priv_key : ℕ) (h : Heap p) : Option (Heap p × ℕ) := do
  let (h, pub_key) := EC_POINT_new h
  let m ← EC_POINT_mul group blinds h.m pub_key priv_key none
  return (⟨m, h.next⟩, pub_key)

/-- The loop that allocates `r1[i]`, ..., `r6[i]`, here `r i 0`, ..., `r i 5`. -/
def allocate (TEST_TIMES : ℕ) (h : Heap p) : Heap p × (ℕ → ℕ → ℕ) :=
  (List.range TEST_TIMES).foldl (fun st i => (List.range 6).foldl (fun st k =>
    let (h, address) := EC_POINT_new st.1
    (h, Function.update st.2 i (Function.update (st.2 i) k address))) st) (h, fun _ _ => 0)

/-- A call of an evaluator, which allocates one point. -/
def Heap.call (h : Heap p) (evaluate : Points (ZMod p) → ℕ → Points (ZMod p)) : Heap p := ⟨evaluate h.m h.next, h.next + 1⟩

end Points

/-! ## The program -/

/-- What the program is compiled with and links to: the macros, the tables and logarithms, the exponents of
`getSubOptimalDBC` and the curve; and what it draws: the private key, which is positive and below the order, and the
blinding factors of the calls of `EC_POINT_mul`. -/
structure Setting (p : ℕ) [Fact p.Prime] where
  macros : Macros
  pow23_all : ℕ → ℕ → MyBigInt macros.INTS
  log2B : MyBigInt macros.INTS → ℕ
  log3B : MyBigInt macros.INTS → ℕ
  bounds : Bounds macros.INTS
  floats : Floats macros.INTS
  fuel : ℕ
  b_try : List ℕ
  group : CurveGroup p
  priv_key : ℕ
  positive : 0 < priv_key
  inside : priv_key < group.order
  keyBlinds : Blinds p
  blinds : ℕ → Blinds p

section Program

variable {p : ℕ} [Fact p.Prime] (c : Setting p) (TEST_TIMES : ℕ) (hexwords : ℕ → String) (a : ℕ) (r : ℕ → ℕ → ℕ)

/-- `myBigInt<INTS> u(hexwords[i])` -/
def u (i : ℕ) : MyBigInt c.macros.INTS := .ofString c.macros.INTS (hexwords i).toList

/-- The loop that calls `getOptimalDBC`, which returns 0. -/
def optimalLoop (st : State × Heap p) : State × Heap p :=
  (List.range TEST_TIMES).foldl (fun st i =>
    let u := u c hexwords i
    let s := getOptimalDBC c.macros c.pow23_all (c.log2B u) (c.log3B u) u st.1
    (s, st.2.call fun m invert_a =>
      OnPoints.DBC_POINT_mul c.group.toSimpleGroup (fun _ => s.DBC_store) (fun _ => s.DBC_len) m invert_a (r i 0) a 0)) st

/-- The loops that call a greedy search. -/
def greedyLoop (search : MyBigInt c.macros.INTS → Slots → Option (ℕ × Slots)) (k : ℕ) (st : Slots × Heap p) :
    Option (Slots × Heap p) :=
  (List.range TEST_TIMES).foldlM (fun st i => do
    let (min_index, slots) ← search (u c hexwords i) st.1
    return (slots, st.2.call fun m invert_a =>
      OnPoints.DBC_POINT_mul c.group.toSimpleGroup (rows (cpu c.macros.INTS) slots) (len slots) m invert_a (r i k) a
        min_index)) st

/-- The loop that calls `binary_POINT_mul`. -/
def binaryLoop (h : Heap p) : Heap p :=
  (List.range TEST_TIMES).foldl (fun h i => h.call fun m mult_points =>
    (OnPoints.binary_POINT_mul c.group.toSimpleGroup m mult_points (r i 3) a (hexwords i)).1) h

/-- The loop that calls `NAF_POINT_mul`. -/
def nafLoop (h : Heap p) : Option (Heap p) :=
  (List.range TEST_TIMES).foldlM (fun h i => do
    let (m, _) ← OnPoints.NAF_POINT_mul c.group.toSimpleGroup h.m h.next (r i 4) a (hexwords i)
    return ⟨m, h.next + 1⟩) h

/-- The loop that calls `EC_POINT_mul`. -/
def directLoop (h : Heap p) : Option (Heap p) :=
  (List.range TEST_TIMES).foldlM (fun h i => do
    let m ← EC_POINT_mul c.group (c.blinds i) h.m (r i 5) (BN_hex2bn (hexwords i)) (some a)
    return ⟨m, h.next⟩) h

/-- The comparisons of the first five results with the sixth. -/
def compareLoop (h : Heap p) : ℕ :=
  (List.range TEST_TIMES).foldl (fun error i => (List.range 5).foldl (fun error k =>
    if ossl_ec_GFp_simple_cmp c.group.toSimpleGroup (h.m (r i k)) (h.m (r i 5)) = 1 then error + 1 else error) error) 0

end Program

/-- `main`: the number of errors it prints; `none` where a search or `NAF_POINT_mul` does not return or `EC_POINT_mul`
fails. -/
def main {p : ℕ} [Fact p.Prime] (c : Setting p) (TEST_TIMES : ℕ) (hexwords : ℕ → String) : Option ℕ := do
  let (h, a) ← ec_generate_key c.group c.keyBlinds c.priv_key ⟨fun _ => ⟨0, 0, 0, false⟩, 0⟩
  let (h, r) := allocate TEST_TIMES h
  let (s, h) := optimalLoop c TEST_TIMES hexwords a r (State.start.init c.macros, h)
  let (slots, h) ← greedyLoop c TEST_TIMES hexwords a r (getEOSDBC c.bounds c.floats c.pow23_all c.fuel) 1
    (arrays c.macros.INTS s, h)
  let (_, h) ← greedyLoop c TEST_TIMES hexwords a r
    (fun u slots => getSubOptimalDBC c.bounds c.floats c.pow23_all c.fuel c.b_try u 1 slots) 2 (slots, h)
  let h := binaryLoop c TEST_TIMES hexwords a r h
  let h ← nafLoop c TEST_TIMES hexwords a r h
  let h ← directLoop c TEST_TIMES hexwords a r h
  return compareLoop c TEST_TIMES r h

end DbcSnark.DBCTest.MSMTest
