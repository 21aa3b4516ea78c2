import Mathlib.Logic.Function.Iterate
import Mathlib.Algebra.Group.Basic

/-! # Evaluating a chain on a point

`run_DBC_v2` over any representation of points. `copy` and `subY` receive the old contents of the point they
write to, since they may leave some of its coordinates as they are.
-/

namespace DbcSnark.Gpuec

/-- The point operations that `run_DBC_v2` calls. -/
structure PointOps (J : Type*) where
  /-- `dh_my_point_copy(from, to)`: what `to` holds afterwards -/
  copy : J → J → J
  /-- `ppoint_double(pt1, pt2)`: what `pt2` holds afterwards -/
  double : J → J
  /-- `dh_ellipticAdd_JJ(pt1, pt2, pt3)`: what `pt3` holds afterwards -/
  add : J → J → J
  /-- `dh_mybig_sub_64(Pa, base.y, tmp.y)`: what `tmp` holds afterwards -/
  subY : J → J → J

/-- The points of an abelian group with its own operations. -/
def groupOps (A : Type*) [AddCommGroup A] : PointOps A where
  copy := fun source _ => source
  double := fun x => x + x
  add := fun x y => x + y
  subY := fun base _ => -base

/-- The local variables of `run_DBC_v2` and its result. -/
structure RunDBC (J : Type*) where
  base : J
  tmp : J
  res : J
  now_dbl : ℕ
  now_tpl : ℕ
  first : Bool
  cnt : ℕ

namespace RunDBC

variable {J : Type*} (ops : PointOps J)

/-- One turn of the loop `while (1)` for a row with exponents `dbl` and `tpl`, before its `break`. -/
def climbStep (dbl tpl : ℕ) (st : RunDBC J) : RunDBC J :=
  if st.now_dbl < dbl then
    let tmp := ops.double st.base
    { st with tmp := tmp, base := ops.copy tmp st.base, now_dbl := st.now_dbl + 1, cnt := st.cnt + 1 }
  else if st.now_tpl < tpl then
    let tmp := ops.double st.base
    { st with tmp := tmp, base := ops.add st.base tmp, now_tpl := st.now_tpl + 1, cnt := st.cnt + 1 }
  else st

/-- The loop `while (1)`: every turn but the last raises one of the two exponents by one. -/
def climb (dbl tpl : ℕ) (st : RunDBC J) : RunDBC J :=
  (climbStep ops dbl tpl)^[(dbl - st.now_dbl) + (tpl - st.now_tpl)] st

/-- The body of the loop over the rows. -/
def row (st : RunDBC J) (r : ℤ × ℕ × ℕ) : RunDBC J :=
  let st := climb ops r.2.1 r.2.2 st
  let tmp := ops.copy st.base st.tmp
  let tmp := if r.1 = -1 then ops.subY st.base tmp else tmp
  { st with
    tmp := tmp
    res := if st.first then ops.copy tmp st.res else ops.add st.res tmp
    first := false
    cnt := st.cnt + 1 }

end RunDBC

/-- `run_DBC_v2(pt1, res, DBC, len)` with the `len` rows of `DBC`; `base` and `tmp` are the contents of the
uninitialised locals. -/
def run_DBC_v2 {J : Type*} (ops : PointOps J) (base tmp pt1 res : J) (DBC : List (ℤ × ℕ × ℕ)) : RunDBC J :=
  DBC.reverse.foldl (RunDBC.row ops)
    { base := ops.copy pt1 base, tmp := tmp, res := res, now_dbl := 0, now_tpl := 0, first := true, cnt := 0 }

end DbcSnark.Gpuec
