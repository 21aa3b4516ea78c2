import DbcSnark.Model.DBCTest.PointMul
import DbcSnark.Model.Ec.PointOps

/-! # The scalar multiplications of the benchmark on stored points

The evaluators of `functions.h` and the one of `optimal_DBC2.cpp` as they call the library: a point is an address, and
the addresses of the points that a function allocates are parameters.
-/

namespace DbcSnark.DBCTest.OnPoints

open Ec

variable {p : ℕ} [Fact p.Prime] (group : SimpleGroup p)

/-- The points while `DBC_POINT_mul` runs, and the exponents `r` still has to be raised by. -/
structure Descent (p : ℕ) where
  m : Points (ZMod p)
  now_dbl : ℕ
  now_tpl : ℕ

namespace Descent

/-- One turn of the loop `while (1)` before the term with exponents `dbl` and `tpl`. -/
def step (r dbl tpl : ℕ) (st : Descent p) : Descent p :=
  if st.now_dbl > dbl then { st with m := ossl_ec_GFp_simple_dbl group st.m r r, now_dbl := st.now_dbl - 1 }
  else if st.now_tpl > tpl then
    { st with m := ossl_ec_GFp_simple_tpl group.toEC_GROUP st.m r r, now_tpl := st.now_tpl - 1 }
  else st

/-- The loop `while (1)`. -/
def descend (r dbl tpl : ℕ) (st : Descent p) : Descent p :=
  (step group r dbl tpl)^[(st.now_dbl - dbl) + (st.now_tpl - tpl)] st

/-- The body of the loop over the terms after the leading one. -/
def term (r a invert_a : ℕ) (st : Descent p) (row : ℤ × ℕ × ℕ) : Descent p :=
  let st := descend group r row.2.1 row.2.2 st
  if row.1 = -1 then { st with m := ossl_ec_GFp_simple_add group st.m r r invert_a }
  else { st with m := ossl_ec_GFp_simple_add group st.m r r a }

/-- The two loops after the last term. -/
def finish (r : ℕ) (st : Descent p) : Points (ZMod p) :=
  (fun m => ossl_ec_GFp_simple_tpl group.toEC_GROUP m r r)^[st.now_tpl]
    ((fun m => ossl_ec_GFp_simple_dbl group m r r)^[st.now_dbl] st.m)

end Descent

/-- `DBC_POINT_mul(r, a, min_index)` of `functions.h`, with the address of its point `invert_a`. -/
def DBC_POINT_mul (DBC_store : ℕ → ℕ → ℤ × ℕ × ℕ) (DBC_len : ℕ → ℕ) (m : Points (ZMod p)) (invert_a r a min_index : ℕ) :
    Points (ZMod p) :=
  let m := ossl_ec_GFp_simple_point_init m invert_a
  let m := EC_POINT_copy m invert_a a
  let m := ossl_ec_GFp_simple_invert m invert_a
  let m := ossl_ec_GFp_simple_add group m r a a
  let m := ossl_ec_GFp_simple_add group m r r invert_a
  Descent.finish group r <| (List.range (DBC_len min_index - 1)).foldl
    (fun st i => Descent.term group r a invert_a st (DBC_store min_index (i + 1)))
    ⟨m, (DBC_store min_index 0).2.1, (DBC_store min_index 0).2.2⟩

/-- The points while `DBC_POINT_mul` of `optimal_DBC2.cpp` runs, and the exponents of `mult_points`. -/
structure Ascent (p : ℕ) where
  m : Points (ZMod p)
  now_dbl : ℕ
  now_tpl : ℕ
  first : Bool

namespace Ascent

/-- One turn of the loop `while (1)` before the term with exponents `dbl` and `tpl`. -/
def step (mult_points dbl tpl : ℕ) (st : Ascent p) : Ascent p :=
  if st.now_dbl < dbl then
    { st with m := ossl_ec_GFp_simple_dbl group st.m mult_points mult_points, now_dbl := st.now_dbl + 1 }
  else if st.now_tpl < tpl then
    { st with
      m := ossl_ec_GFp_simple_tpl group.toEC_GROUP st.m mult_points mult_points
      now_tpl := st.now_tpl + 1 }
  else st

/-- The loop `while (1)`. -/
def climb (mult_points dbl tpl : ℕ) (st : Ascent p) : Ascent p :=
  (step group mult_points dbl tpl)^[(dbl - st.now_dbl) + (tpl - st.now_tpl)] st

/-- The body of the loop over `now_DBC`. -/
def term (r mult_points : ℕ) (st : Ascent p) (c : Chain) : Ascent p :=
  let st := climb group mult_points c.dbl c.tpl st
  let st := if c.minus then { st with m := ossl_ec_GFp_simple_invert st.m mult_points } else st
  let st :=
    if st.first then { st with m := EC_POINT_copy st.m r mult_points, first := false }
    else { st with m := ossl_ec_GFp_simple_add group st.m r r mult_points }
  if c.minus then { st with m := ossl_ec_GFp_simple_invert st.m mult_points } else st

end Ascent

/-- `DBC_POINT_mul(r, a)` of `optimal_DBC2.cpp`, with the address of its point `mult_points`. -/
def DBC2_POINT_mul (w_min : OptimalDBC) (now_DBC : ℕ → Chain) (m : Points (ZMod p)) (mult_points r a : ℕ) :
    Points (ZMod p) :=
  let m := ossl_ec_GFp_simple_point_init m mult_points
  let m := ossl_ec_GFp_simple_add group m mult_points a a
  let m := ossl_ec_GFp_simple_invert m mult_points
  let m := ossl_ec_GFp_simple_add group m mult_points mult_points a
  let m := ossl_ec_GFp_simple_invert m mult_points
  if w_min.isNULL ∨ w_min.length = 0 then m
  else ((List.range w_min.length).foldl (fun st i => Ascent.term group r mult_points st (now_DBC i)) ⟨m, 0, 0, true⟩).m

/-- The loop of `binary_POINT_mul` on the magnitude of `n`: the points and the running `TTV`. -/
def binaryLoop (r mult_points n : ℕ) (m : Points (ZMod p)) (TTV : ℕ) : Points (ZMod p) × ℕ :=
  if n = 0 then (m, TTV)
  else if n % 2 = 0 then
    binaryLoop r mult_points (n / 2) (ossl_ec_GFp_simple_dbl group m mult_points mult_points) (TTV + 7)
  else
    let m := ossl_ec_GFp_simple_add group m r r mult_points
    binaryLoop r mult_points (n / 2) (ossl_ec_GFp_simple_dbl group m mult_points mult_points) (TTV + 15 + 7)
termination_by n

/-- `binary_POINT_mul(r, a, hexwords)`, with the address of its point `mult_points`. -/
def binary_POINT_mul (m : Points (ZMod p)) (mult_points r a : ℕ) (hexwords : String) : Points (ZMod p) × ℕ :=
  let m := ossl_ec_GFp_simple_point_init m mult_points
  let m := EC_POINT_copy m mult_points a
  binaryLoop group r mult_points (BN_hex2bn hexwords).natAbs m 0

/-- The body of the loop of `NAF_POINT_mul` at the digit `d`, on the points and `TTV`. -/
def nafStep (R G invert_G : ℕ) (st : Points (ZMod p) × ℕ) (d : ℤ) : Points (ZMod p) × ℕ :=
  let st := (ossl_ec_GFp_simple_dbl group st.1 R R, st.2 + 7)
  let st := if d = 1 then (ossl_ec_GFp_simple_add group st.1 R R G, st.2 + 15) else st
  if d = -1 then (ossl_ec_GFp_simple_add group st.1 R R invert_G, st.2 + 15) else st

/-- `NAF_POINT_mul(R, G, hexwords)`, with the address of its point `invert_G`; `none` where the call does not return. -/
def NAF_POINT_mul (m : Points (ZMod p)) (invert_G R G : ℕ) (hexwords : String) : Option (Points (ZMod p) × ℕ) :=
  match BN_hex2bn hexwords with
  | .ofNat k =>
    let m := ossl_ec_GFp_simple_point_init m invert_G
    let m := EC_POINT_copy m invert_G G
    let m := ossl_ec_GFp_simple_invert m invert_G
    let m := EC_POINT_copy m R G
    some ((int_to_naf k).tail.foldl (nafStep group R G invert_G) (m, 0))
  | .negSucc _ => none

end DbcSnark.DBCTest.OnPoints
