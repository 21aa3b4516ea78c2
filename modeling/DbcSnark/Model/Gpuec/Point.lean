import DbcSnark.Model.Gpuec.InPlace

/-! # Points in Jacobian coordinates

A `Jpoint` at address `pt` has its coordinates `x`, `y`, `z` at `pt`, `pt + 4` and `pt + 8`, an `Apoint` the first two
of them. The arrays `u1`, `u2`, ... are local. Every call stores its result as soon as it is computed, over coordinates
that later lines may read: no call overlaps a result with an operand other than the first, apart from the Montgomery
multiplication, which works on its array `t` and copies the result at its end.
-/

namespace DbcSnark.Gpuec

structure Jpoint where
  x : Big
  y : Big
  z : Big
deriving DecidableEq

structure Apoint where
  x : Big
  y : Big
deriving DecidableEq

/-- `dc_mon_ONE`. -/
def dc_mon_ONE : Big := ⟨0x1000003d1, 0, 0, 0⟩

/-- `dc_mon_inv_two`. -/
def dc_mon_inv_two : Big := ⟨0, 0, 0, 0x8000000000000000⟩

namespace Ram

/-- The words of the point at address `pt`. -/
def jpoint (m : Ram) (pt : ℕ) : Jpoint := ⟨m.big pt, m.big (pt + 4), m.big (pt + 8)⟩

/-- The words of the affine point at address `pt`. -/
def apoint (m : Ram) (pt : ℕ) : Apoint := ⟨m.big pt, m.big (pt + 4)⟩

/-- `dh_iszero_J`. -/
def dh_iszero_J (m : Ram) (pt : ℕ) : Bool := (m.big (pt + 8)).iszero

/-- `dh_iszero_A`. -/
def dh_iszero_A (m : Ram) (pt : ℕ) : Bool := (m.big pt).iszero

/-- `dh_setzero_J`: `for(i=0;i<8;i++) pt->z[i]=0UL`. -/
def dh_setzero_J (m : Ram) (pt : ℕ) : Ram := (List.range 8).foldl (fun m i => m.put (pt + 8 + i) 0) m

/-- `ppoint_double(pt1, pt2)`. -/
def ppoint_double (m : Ram) (pt1 pt2 : ℕ) : Ram :=
  let u1 := dh_mybig_moddouble_64 (m.big (pt1 + 4))
  let m := m.putBig (pt2 + 8) (dh_mybig_monmult_64 (m.big (pt1 + 8)) u1)
  let u2 := dh_mybig_monmult_64 (m.big pt1) (m.big pt1)
  let u3 := dh_mybig_moddouble_64 u2
  let u3 := dh_mybig_modadd_64 u3 u2
  let u1 := dh_mybig_monmult_64 u1 (m.big (pt1 + 4))
  let u2 := dh_mybig_monmult_64 u1 (m.big pt1)
  let u2 := dh_mybig_moddouble_64 u2
  let m := m.putBig pt2 (dh_mybig_monmult_64 u3 u3)
  let m := m.putBig (pt2 + 4) (dh_mybig_moddouble_64 u2)
  let m := m.putBig pt2 (dh_mybig_modsub_64 (m.big pt2) (m.big (pt2 + 4)))
  let u1 := dh_mybig_monmult_64 u1 u1
  let u1 := dh_mybig_moddouble_64 u1
  let u2 := dh_mybig_modsub_64 u2 (m.big pt2)
  let m := m.putBig (pt2 + 4) (dh_mybig_monmult_64 u3 u2)
  m.putBig (pt2 + 4) (dh_mybig_modsub_64 (m.big (pt2 + 4)) u1)

/-- `ppoint_triple(pt1, pt2)`. -/
def ppoint_triple (m : Ram) (pt1 pt2 : ℕ) : Ram :=
  let m := m.putBig (pt2 + 8) (dh_mybig_monmult_64 (m.big (pt1 + 8)) (m.big (pt1 + 8)))
  let m := m.putBig (pt2 + 4) (dh_mybig_monmult_64 (m.big (pt1 + 4)) (m.big (pt1 + 4)))
  let c := dh_mybig_moddouble_64 (m.big (pt2 + 4))
  let m := m.putBig pt2 (dh_mybig_monmult_64 (m.big pt1) (m.big pt1))
  let m' := dh_mybig_moddouble_64 (m.big pt2)
  let m' := dh_mybig_modadd_64 m' (m.big pt2)
  let foo := dh_mybig_monmult_64 (m.big pt1) c
  let wtf := dh_mybig_monmult_64 m' m'
  let e := dh_mybig_moddouble_64 foo
  let foo := dh_mybig_modadd_64 foo e
  let e := dh_mybig_moddouble_64 foo
  let e := dh_mybig_modsub_64 e wtf
  let wtf := dh_mybig_monmult_64 c c
  let t := dh_mybig_moddouble_64 wtf
  let u := dh_mybig_monmult_64 m' e
  let u := dh_mybig_modsub_64 u t
  let wtf := dh_mybig_monmult_64 e e
  let foo := dh_mybig_moddouble_64 u
  let foo := dh_mybig_moddouble_64 foo
  let m := m.putBig pt2 (dh_mybig_monmult_64 (m.big pt1) wtf)
  let c := dh_mybig_monmult_64 c foo
  let m := m.putBig pt2 (dh_mybig_modsub_64 (m.big pt2) c)
  let t := dh_mybig_modsub_64 t u
  let u := dh_mybig_monmult_64 foo t
  let foo := dh_mybig_monmult_64 e wtf
  let wtf := dh_mybig_modsub_64 u foo
  let m := m.putBig (pt2 + 4) (dh_mybig_monmult_64 (m.big (pt1 + 4)) wtf)
  m.putBig (pt2 + 8) (dh_mybig_monmult_64 (m.big (pt1 + 8)) e)

/-- `dh_ellipticAdd_JJ(pt1, pt2, pt3)`. -/
def dh_ellipticAdd_JJ (m : Ram) (pt1 pt2 pt3 : ℕ) : Ram :=
  let u1 := dh_mybig_monmult_64 (m.big (pt2 + 8)) (m.big (pt2 + 8))
  let u2 := dh_mybig_monmult_64 (m.big (pt1 + 8)) (m.big (pt1 + 8))
  let u3 := dh_mybig_monmult_64 (m.big pt1) u1
  let u4 := dh_mybig_monmult_64 (m.big pt2) u2
  let u1 := dh_mybig_monmult_64 u1 (m.big (pt2 + 8))
  let u2 := dh_mybig_monmult_64 u2 (m.big (pt1 + 8))
  let u1 := dh_mybig_monmult_64 u1 (m.big (pt1 + 4))
  let u2 := dh_mybig_monmult_64 u2 (m.big (pt2 + 4))
  let m := m.putBig (pt3 + 4) (dh_mybig_modsub_64 u3 u4)
  let u3 := dh_mybig_modadd_64 u3 u4
  let u4 := dh_mybig_modsub_64 u1 u2
  let u1 := dh_mybig_modadd_64 u1 u2
  let m := m.putBig (pt3 + 8) (dh_mybig_monmult_64 (m.big (pt1 + 8)) (m.big (pt2 + 8)))
  let m := m.putBig (pt3 + 8) (dh_mybig_monmult_64 (m.big (pt3 + 8)) (m.big (pt3 + 4)))
  let m := m.putBig pt3 (dh_mybig_monmult_64 u4 u4)
  let u2 := dh_mybig_monmult_64 (m.big (pt3 + 4)) (m.big (pt3 + 4))
  let m := m.putBig (pt3 + 4) (dh_mybig_monmult_64 (m.big (pt3 + 4)) u2)
  let u2 := dh_mybig_monmult_64 u2 u3
  let m := m.putBig pt3 (dh_mybig_modsub_64 (m.big pt3) u2)
  let u3 := dh_mybig_moddouble_64 (m.big pt3)
  let u2 := dh_mybig_modsub_64 u2 u3
  let u1 := dh_mybig_monmult_64 u1 (m.big (pt3 + 4))
  let m := m.putBig (pt3 + 4) (dh_mybig_monmult_64 u2 u4)
  let m := m.putBig (pt3 + 4) (dh_mybig_modsub_64 (m.big (pt3 + 4)) u1)
  m.putBig (pt3 + 4) (dh_mybig_monmult_64 (m.big (pt3 + 4)) dc_mon_inv_two)

/-- `dh_ellipticSumEqual_AJ(pt1, pt2)`. -/
def dh_ellipticSumEqual_AJ (m : Ram) (pt1 pt2 : ℕ) : Ram :=
  if dh_iszero_A m pt2 then m
  else if dh_iszero_J m pt1 then
    let m := m.putBig pt1 (m.big pt2)
    let m := m.putBig (pt1 + 4) (m.big (pt2 + 4))
    m.putBig (pt1 + 8) dc_mon_ONE
  else
    let u1 := dh_mybig_monmult_64 (m.big (pt1 + 8)) (m.big (pt1 + 8))
    let u2 := dh_mybig_monmult_64 (m.big (pt1 + 8)) u1
    let u1 := dh_mybig_monmult_64 (m.big pt2) u1
    let u2 := dh_mybig_monmult_64 (m.big (pt2 + 4)) u2
    let u1 := dh_mybig_modsub_64 u1 (m.big pt1)
    let u2 := dh_mybig_modsub_64 u2 (m.big (pt1 + 4))
    if u1.iszero then
      if u2.iszero then ppoint_double m pt1 pt1
      else dh_setzero_J m pt1
    else
      let m := m.putBig (pt1 + 8) (dh_mybig_monmult_64 (m.big (pt1 + 8)) u1)
      let u3 := dh_mybig_monmult_64 u1 u1
      let u1 := dh_mybig_monmult_64 u1 u3
      let u3 := dh_mybig_monmult_64 u3 (m.big pt1)
      let m := m.putBig pt1 (dh_mybig_monmult_64 u2 u2)
      let m := m.putBig pt1 (dh_mybig_modsub_64 (m.big pt1) u3)
      let m := m.putBig pt1 (dh_mybig_modsub_64 (m.big pt1) u3)
      let m := m.putBig pt1 (dh_mybig_modsub_64 (m.big pt1) u1)
      let u3 := dh_mybig_modsub_64 u3 (m.big pt1)
      let u3 := dh_mybig_monmult_64 u3 u2
      let u1 := dh_mybig_monmult_64 u1 (m.big (pt1 + 4))
      m.putBig (pt1 + 4) (dh_mybig_modsub_64 u3 u1)

/-- `dh_my_point_copy(from, to)`; its third line reads `dh_mybig_copy(to->x, from->z)`. -/
def dh_my_point_copy (m : Ram) (pt1 pt2 : ℕ) : Ram :=
  let m := m.putBig pt2 (m.big pt1)
  let m := m.putBig (pt2 + 4) (m.big (pt1 + 4))
  m.putBig pt2 (m.big (pt1 + 8))

end Ram

end DbcSnark.Gpuec
