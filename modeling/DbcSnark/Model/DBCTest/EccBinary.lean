import DbcSnark.Model.DBCTest.OptimalDBC2

/-! # `ECC_binary.cpp`

The program multiplies the point of a fresh key by every scalar, bit by bit and by `EC_POINT_mul`, and compares the
results. Its clocks, and the operations at its end that it only times, are left out. Both loops read into one number `n`,
which the first one shifts out. A word is taken to fit its row of `hexwords`; a longer one would run into the next row.
-/

namespace DbcSnark.DBCTest.EccBinary

open Ec MSMTest

/-- `BN_hex2bn` finds digits, and not too many. -/
def reads (a : String) : Bool :=
  let digits := (if a.toList.head? = some '-' then a.toList.tail else a.toList).takeWhile isxdigit
  digits.length != 0 && digits.length ≤ maxDigits

/-- `BN_hex2bn(&n, a)`, which returns early where it finds no digits. -/
def hex2bn (n : ℤ) (a : String) : ℤ := if reads a then BN_hex2bn a else n

section Program

variable {p : ℕ} [Fact p.Prime]

/-- The loop of `DBC_POINT_mul` on the magnitude of `n`. -/
def loop (group : SimpleGroup p) (r mult_points n : ℕ) (m : Points (ZMod p)) : Points (ZMod p) :=
  if n = 0 then m
  else
    let m := if n % 2 = 1 then ossl_ec_GFp_simple_add group m r r mult_points else m
    loop group r mult_points (n / 2) (ossl_ec_GFp_simple_dbl group m mult_points mult_points)
termination_by n

/-- `DBC_POINT_mul(r, a, n)`, with the address of its point `mult_points`. -/
def DBC_POINT_mul (group : SimpleGroup p) (m : Points (ZMod p)) (mult_points r a : ℕ) (n : ℤ) : Points (ZMod p) :=
  let m := ossl_ec_GFp_simple_point_init m mult_points
  let m := EC_POINT_copy m mult_points a
  loop group r mult_points n.natAbs m

variable (c : Setting p) (TEST_TIMES : ℕ) (hexwords : ℕ → String) (a : ℕ) (r1 r2 : ℕ → ℕ)

/-- The loop that calls `DBC_POINT_mul`, with the number `n`. -/
def binaryLoop (h : Heap p) : Heap p × ℤ :=
  (List.range TEST_TIMES).foldl (fun st i =>
    let n := hex2bn st.2 (hexwords i)
    (st.1.call fun m mult_points => DBC_POINT_mul c.group.toSimpleGroup m mult_points (r1 i) a n, 0)) (h, 0)

/-- The loop that calls `EC_POINT_mul`. -/
def directLoop (st : Points (ZMod p) × ℤ) : Option (Points (ZMod p) × ℤ) :=
  (List.range TEST_TIMES).foldlM (fun st i => do
    let n := hex2bn st.2 (hexwords i)
    let m ← EC_POINT_mul c.group (c.blinds i) st.1 (r2 i) n (some a)
    return (m, n)) st

/-- The loop that stops at the first pair of different results. -/
def compareLoop (m : Points (ZMod p)) : Option ℕ :=
  (List.range TEST_TIMES).find? fun i => ossl_ec_GFp_simple_cmp c.group.toSimpleGroup (m (r1 i)) (m (r2 i)) = 1

end Program

/-- `main`: the pair that it reports, if there is one; `none` where `EC_POINT_mul` fails. -/
def main {p : ℕ} [Fact p.Prime] (c : Setting p) (TEST_TIMES : ℕ) (hexwords : ℕ → String) : Option (Option ℕ) := do
  let (h, a) ← ec_generate_key c.group c.keyBlinds c.priv_key ⟨fun _ => ⟨0, 0, 0, false⟩, 0⟩
  let (h, r1, r2) := OptimalDBC2.allocate TEST_TIMES h
  let (h, n) := binaryLoop c TEST_TIMES hexwords a r1 h
  let (m, _) ← directLoop c TEST_TIMES hexwords a r2 (h.m, n)
  return compareLoop c TEST_TIMES r1 r2 m

end DbcSnark.DBCTest.EccBinary
