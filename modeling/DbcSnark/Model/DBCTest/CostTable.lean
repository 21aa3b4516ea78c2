import DbcSnark.Model.DBCTest.MSMTest

/-! # `DBC.cpp`

The program of `MSMTest.cpp` with a second loop for each method, which adds up the estimates of its chains, and with more
candidates for `getSubOptimalDBC`. The estimates are exact numbers of tenths. The clocks are left out, and of the printed
means the sums are kept.
-/

namespace DbcSnark.DBCTest.CostTable

open Ec MSMTest

/-- `compute_TTV(min_index)`, in tenths. -/
def compute_TTV (DBC_store : ℕ → ℕ → ℤ × ℕ × ℕ) (DBC_len : ℕ → ℕ) (min_index : ℕ) : ℤ :=
  (DBC_len min_index - 1) * 150 + (DBC_store min_index 0).2.1 * 70 + (DBC_store min_index 0).2.2 * 126

/-- The sums of the estimates. -/
structure Table where
  optimal : ℤ
  EOS : ℤ
  subOptimal1 : ℤ
  subOptimal2 : ℤ
  subOptimal3 : ℤ
  subOptimal10 : ℤ
  subOptimal20 : ℤ
  binary : ℤ
  NAF : ℤ

section Program

variable {p : ℕ} [Fact p.Prime] (c : Setting p) (TEST_TIMES : ℕ) (hexwords : ℕ → String) (a : ℕ) (r : ℕ → ℕ → ℕ)

/-- The second loop that calls `getOptimalDBC`. -/
def optimalTTV (s : State) : ℤ × State :=
  (List.range TEST_TIMES).foldl (fun st i =>
    let u := u c hexwords i
    let s := getOptimalDBC c.macros c.pow23_all (c.log2B u) (c.log3B u) u st.2
    (st.1 + compute_TTV (fun _ => s.DBC_store) (fun _ => s.DBC_len) 0, s)) (0, s)

/-- The second loop that calls a greedy search. -/
def greedyTTV (search : MyBigInt c.macros.INTS → Slots → Option (ℕ × Slots)) (slots : Slots) : Option (ℤ × Slots) :=
  (List.range TEST_TIMES).foldlM (fun st i => do
    let (min_index, slots) ← search (u c hexwords i) st.2
    return (st.1 + compute_TTV (rows (cpu c.macros.INTS) slots) (len slots) min_index, slots)) (0, slots)

/-- The two loops of a greedy search, the first one with the results `r i k`. -/
def greedyLoops (search : MyBigInt c.macros.INTS → Slots → Option (ℕ × Slots)) (k : ℕ) (st : Slots × Heap p) :
    Option (ℤ × Slots × Heap p) := do
  let (slots, h) ← greedyLoop c TEST_TIMES hexwords a r search k st
  let (TTV, slots) ← greedyTTV c TEST_TIMES hexwords search slots
  return (TTV, slots, h)

/-- The loops with the limit `dbc_coef`, which all write the same results. -/
def subOptimalLoops (dbc_coef : ℤ) (st : Slots × Heap p) : Option (ℤ × Slots × Heap p) :=
  greedyLoops c TEST_TIMES hexwords a r
    (fun u slots => getSubOptimalDBC c.bounds c.floats c.pow23_all c.fuel c.b_try u dbc_coef slots) 2 st

/-- The loop that calls `binary_POINT_mul` and adds up what it returns. -/
def binaryTTV (h : Heap p) : ℤ × Heap p :=
  (List.range TEST_TIMES).foldl (fun st i =>
    let (m, TTV) := OnPoints.binary_POINT_mul c.group.toSimpleGroup st.2.m st.2.next (r i 3) a (hexwords i)
    (st.1 + 10 * TTV, ⟨m, st.2.next + 1⟩)) (0, h)

/-- The loop that calls `NAF_POINT_mul` and adds up what it returns. -/
def nafTTV (h : Heap p) : Option (ℤ × Heap p) :=
  (List.range TEST_TIMES).foldlM (fun st i => do
    let (m, TTV) ← OnPoints.NAF_POINT_mul c.group.toSimpleGroup st.2.m st.2.next (r i 4) a (hexwords i)
    return (st.1 + 10 * TTV, ⟨m, st.2.next + 1⟩)) (0, h)

end Program

/-- `main`: the sums of the estimates and the number of errors; `none` as for the program of `MSMTest.cpp`. -/
def main {p : ℕ} [Fact p.Prime] (c : Setting p) (TEST_TIMES : ℕ) (hexwords : ℕ → String) : Option (Table × ℕ) := do
  let (h, a) ← ec_generate_key c.group c.keyBlinds c.priv_key ⟨fun _ => ⟨0, 0, 0, false⟩, 0⟩
  let (h, r) := allocate TEST_TIMES h
  let (s, h) := optimalLoop c TEST_TIMES hexwords a r (State.start.init c.macros, h)
  let (optimal, s) := optimalTTV c TEST_TIMES hexwords s
  let (EOS, slots, h) ← greedyLoops c TEST_TIMES hexwords a r (getEOSDBC c.bounds c.floats c.pow23_all c.fuel) 1
    (arrays c.macros.INTS s, h)
  let (subOptimal1, slots, h) ← subOptimalLoops c TEST_TIMES hexwords a r 1 (slots, h)
  let (subOptimal2, slots, h) ← subOptimalLoops c TEST_TIMES hexwords a r 2 (slots, h)
  let (subOptimal3, slots, h) ← subOptimalLoops c TEST_TIMES hexwords a r 3 (slots, h)
  let (subOptimal10, slots, h) ← subOptimalLoops c TEST_TIMES hexwords a r 10 (slots, h)
  let (subOptimal20, _, h) ← subOptimalLoops c TEST_TIMES hexwords a r 20 (slots, h)
  let (binary, h) := binaryTTV c TEST_TIMES hexwords a r h
  let (NAF, h) ← nafTTV c TEST_TIMES hexwords a r h
  let h ← directLoop c TEST_TIMES hexwords a r h
  return (⟨optimal, EOS, subOptimal1, subOptimal2, subOptimal3, subOptimal10, subOptimal20, binary, NAF⟩,
    compareLoop c TEST_TIMES r h)

end DbcSnark.DBCTest.CostTable
