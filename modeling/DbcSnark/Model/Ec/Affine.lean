import DbcSnark.Model.Ec.PointOps

/-! # Affine coordinates in `ecp_smpl.c`

A number is encoded by the factor `R`. The inversion takes and returns decoded numbers, and it is the one call that can
fail for what it is given.
-/

namespace DbcSnark.Ec

variable {p : ℕ} [Fact p.Prime]

namespace EC_GROUP

variable (group : EC_GROUP (ZMod p))

def field_encode (x : ZMod p) : ZMod p := x * group.R

def field_decode (x : ZMod p) : ZMod p := x * ↑group.R⁻¹

end EC_GROUP

/-- `field_inv`, which refuses zero. -/
def field_inv (a : ZMod p) : Option (ZMod p) := if a = 0 then none else some a⁻¹

/-- `ossl_ec_GFp_simple_point_set_to_infinity`. -/
def EC_POINT_set_to_infinity (point : EC_POINT (ZMod p)) : EC_POINT (ZMod p) := { point with Z_is_one := false, Z := 0 }

/-- `ossl_ec_GFp_simple_set_Jprojective_coordinates_GFp`, where `none` is a null pointer. -/
def ossl_ec_GFp_simple_set_Jprojective_coordinates_GFp (group : SimpleGroup p) (point : EC_POINT (ZMod p))
    (x y z : Option (ZMod p)) : EC_POINT (ZMod p) :=
  let point := match x with
    | some x => { point with X := group.field_encode x }
    | none => point
  let point := match y with
    | some y => { point with Y := group.field_encode y }
    | none => point
  match z with
    | some z => { point with Z := group.field_encode z, Z_is_one := z = 1 }
    | none => point

/-- `EC_POINT_set_affine_coordinates`, which refuses a point that is not on the curve. -/
def EC_POINT_set_affine_coordinates (group : SimpleGroup p) (point : EC_POINT (ZMod p)) (x y : ZMod p) :
    Option (EC_POINT (ZMod p)) :=
  let point := ossl_ec_GFp_simple_set_Jprojective_coordinates_GFp group point (some x) (some y) (some 1)
  if ossl_ec_GFp_simple_is_on_curve group point then some point else none

/-- `EC_POINT_get_affine_coordinates` by `ossl_ec_GFp_simple_point_get_affine_coordinates`. -/
def EC_POINT_get_affine_coordinates (group : SimpleGroup p) (point : EC_POINT (ZMod p)) : Option (ZMod p × ZMod p) :=
  if point.Z = 0 then none
  else
    let Z := group.field_decode point.Z
    if Z = 1 then some (group.field_decode point.X, group.field_decode point.Y)
    else do
      let Z_1 ← field_inv Z
      let Z_2 := Z_1 * Z_1
      let x := group.field_mul point.X Z_2
      let Z_3 := Z_2 * Z_1
      let y := group.field_mul point.Y Z_3
      return (x, y)

/-- `ossl_ec_GFp_simple_make_affine`. -/
def ossl_ec_GFp_simple_make_affine (group : SimpleGroup p) (point : EC_POINT (ZMod p)) : Option (EC_POINT (ZMod p)) :=
  if point.Z_is_one ∨ point.Z = 0 then some point
  else do
    let (x, y) ← EC_POINT_get_affine_coordinates group point
    let point ← EC_POINT_set_affine_coordinates group point x y
    if !point.Z_is_one then none else some point

/-! ## Many points -/

section Batch

variable (group : SimpleGroup p) (points : ℕ → ℕ)

/-- The loop that multiplies the nonzero `Z` coordinates, with `prod_Z[0]` set. -/
def prodLoop (m : Points (ZMod p)) (num : ℕ) (prod_Z : ℕ → ZMod p) : ℕ → ZMod p :=
  (List.range' 1 (num - 1)).foldl (fun prod_Z i =>
    if (m (points i)).Z ≠ 0 then Function.update prod_Z i (group.field_mul (prod_Z (i - 1)) (m (points i)).Z)
    else Function.update prod_Z i (prod_Z (i - 1))) prod_Z

/-- The loop that replaces the nonzero `Z` coordinates but the first by their inverses: the points and `tmp`. -/
def inverseLoop (prod_Z : ℕ → ZMod p) (num : ℕ) (st : Points (ZMod p) × ZMod p) : Points (ZMod p) × ZMod p :=
  (List.range' 1 (num - 1)).reverse.foldl (fun st i =>
    if (st.1 (points i)).Z ≠ 0 then
      let tmp_Z := group.field_mul (prod_Z (i - 1)) st.2
      let tmp := group.field_mul st.2 (st.1 (points i)).Z
      (st.1.setZ (points i) tmp_Z, tmp)
    else st) st

/-- The loop that fixes up the other coordinates. -/
def fixLoop (num : ℕ) (m : Points (ZMod p)) : Points (ZMod p) :=
  (List.range num).foldl (fun m i =>
    let pt := points i
    if (m pt).Z ≠ 0 then
      let tmp := group.field_sqr (m pt).Z
      let m := m.setX pt (group.field_mul (m pt).X tmp)
      let tmp := group.field_mul tmp (m pt).Z
      let m := m.setY pt (group.field_mul (m pt).Y tmp)
      let m := m.setZ pt (group.field_encode 1)
      m.setFlag pt true
    else m) m

/-- `ossl_ec_GFp_simple_points_make_affine` on the points at the addresses `points[0]`, ..., `points[num - 1]`. -/
def ossl_ec_GFp_simple_points_make_affine (num : ℕ) (m : Points (ZMod p)) : Option (Points (ZMod p)) :=
  if num = 0 then some m
  else do
    let first := if (m (points 0)).Z ≠ 0 then (m (points 0)).Z else group.field_encode 1
    let prod_Z := prodLoop group points m num (Function.update (fun _ => 0) 0 first)
    let tmp ← field_inv (prod_Z (num - 1))
    let tmp := group.field_encode tmp
    let tmp := group.field_encode tmp
    let (m, tmp) := inverseLoop group points prod_Z num (m, tmp)
    let m := if (m (points 0)).Z ≠ 0 then m.setZ (points 0) tmp else m
    return fixLoop group points num m

end Batch

end DbcSnark.Ec
