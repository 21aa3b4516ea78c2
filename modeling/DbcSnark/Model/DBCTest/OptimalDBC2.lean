import DbcSnark.Model.DBCTest.MSMTest
import DbcSnark.Model.Ec.Affine

/-! # `optimal_DBC2.cpp`

The program prints the triple of the point of a fresh key, once by `EC_POINT_tpl` and once by `EC_POINT_mul`, and for every
scalar the chain of `getOptimalDBC` and the two multiples. Its evaluator reads the chain from `now_DBC`, so the search
leaves out the loop that stores rows. The call `DBC_POINT_mul(r1[i], a[i])` is taken to mean this evaluator, the function
of two arguments that the file defines, and not the one of `functions.h` with its third argument left out. A printed chain
is the list of its terms, and a printed point its coordinates.
-/

namespace DbcSnark.DBCTest.OptimalDBC2

open Ec MSMTest

/-- `getOptimalDBC` of this file. -/
def getOptimalDBC (m : Macros) (pow23_all : ℕ → ℕ → MyBigInt m.INTS) (log2B log3B : ℕ) (n : MyBigInt m.INTS)
    (s : State) : State :=
  let s := assignBinary m n s
  let B := n.mul2
  let six_n := B.mul3
  let s := { s with bBound := frontier pow23_all B log2B log3B s.bBound }
  simDBC (fillTables m pow23_all n six_n log2B log3B s)

/-- `w_min.print(type)`: the terms it prints, and `none` where it prints `NULL`. -/
def print (s : State) : State × Option (List Chain) :=
  if s.w_min.isNULL && !s.w_min.isBasic then (s, none)
  else
    let s := simDBC s
    (s, some ((List.range s.w_min.length).map s.now_DBC))

/-- What is printed for a scalar: its digits, the chain, and the coordinates of `r1[i]` and `r2[i]`, where they are
finite. -/
structure Line (p : ℕ) where
  hexwords : String
  w_min : Option (List Chain)
  r1 : Option (ZMod p × ZMod p)
  r2 : Option (ZMod p × ZMod p)

/-- What the program prints, first the two triples. -/
structure Output (p : ℕ) where
  tpl : Option (ZMod p × ZMod p)
  mul : Option (ZMod p × ZMod p)
  lines : List (Line p)

section Program

variable {p : ℕ} [Fact p.Prime]

/-- `print_point(a)` -/
def print_point (group : CurveGroup p) (m : Points (ZMod p)) (a : ℕ) : Option (ZMod p × ZMod p) :=
  EC_POINT_get_affine_coordinates group.toSimpleGroup (m a)

/-- The loop that allocates `r1[i]` and `r2[i]`. -/
def allocate (TEST_TIMES : ℕ) (h : Heap p) : Heap p × (ℕ → ℕ) × (ℕ → ℕ) :=
  (List.range TEST_TIMES).foldl (fun st i =>
    let (h, address1) := EC_POINT_new st.1
    let (h, address2) := EC_POINT_new h
    (h, Function.update st.2.1 i address1, Function.update st.2.2 i address2)) (h, fun _ => 0, fun _ => 0)

variable (c : Setting p) (hexwords : ℕ → String) (a : ℕ) (r1 r2 : ℕ → ℕ)

/-- The globals, the points and the lines printed so far. -/
structure Printed (p : ℕ) where
  s : State
  h : Heap p
  lines : List (Line p)

/-- The body of the loop over the scalars. -/
def turn (st : Printed p) (i : ℕ) : Option (Printed p) := do
  let u := u c hexwords i
  let s := getOptimalDBC c.macros c.pow23_all (c.log2B u) (c.log3B u) u st.s
  let h := st.h.call fun m mult_points =>
    OnPoints.DBC2_POINT_mul c.group.toSimpleGroup s.w_min s.now_DBC m mult_points (r1 i) a
  let m ← EC_POINT_mul c.group (c.blinds (i + 1)) h.m (r2 i) (BN_hex2bn (hexwords i)) (some a)
  let w_min := print s
  return ⟨w_min.1, ⟨m, h.next⟩,
    st.lines ++ [⟨hexwords i, w_min.2, print_point c.group m (r1 i), print_point c.group m (r2 i)⟩]⟩

end Program

/-- `main`: what it prints; `none` where `EC_POINT_mul` fails. The first blinding factors are those of the triple. -/
def main {p : ℕ} [Fact p.Prime] (c : Setting p) (TEST_TIMES : ℕ) (hexwords : ℕ → String) : Option (Output p) := do
  let (h, a) ← ec_generate_key c.group c.keyBlinds c.priv_key ⟨fun _ => ⟨0, 0, 0, false⟩, 0⟩
  let (h, r1, r2) := allocate TEST_TIMES h
  let (h, r3) := EC_POINT_new h
  let m := ossl_ec_GFp_simple_tpl c.group.toEC_GROUP h.m r3 a
  let tpl := print_point c.group m r3
  let m ← EC_POINT_mul c.group (c.blinds 0) m r3 (BN_hex2bn "3") (some a)
  let mul := print_point c.group m r3
  let st ← (List.range TEST_TIMES).foldlM (turn c hexwords a r1 r2) ⟨State.start.init c.macros, ⟨m, h.next⟩, []⟩
  return ⟨tpl, mul, st.lines⟩

end DbcSnark.DBCTest.OptimalDBC2
