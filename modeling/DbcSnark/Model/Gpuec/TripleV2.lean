import DbcSnark.Model.Gpuec.Point

/-! # The second tripling

`ppoint_triple_v2` of `gpuec256.cu`. Its arrays other than those of `pt2` are local.
-/

namespace DbcSnark.Gpuec

/-- `h_mon_a`. -/
def h_mon_a : Big := ⟨0xfffffffffffffffc, 0xfffffffc00000003, 0xffffffffffffffff, 0xfffffffbffffffff⟩

namespace Ram

/-- `ppoint_triple_v2(pt1, pt2)`. -/
def ppoint_triple_v2 (m : Ram) (pt1 pt2 : ℕ) : Ram :=
  let dy := dh_mybig_monmult_64 (m.big (pt1 + 4)) (m.big (pt1 + 4))
  let dz := dh_mybig_monmult_64 (m.big (pt1 + 8)) (m.big (pt1 + 8))
  let qy := dh_mybig_monmult_64 dy dy
  let m' := dh_mybig_monmult_64 (m.big pt1) (m.big pt1)
  let wtf := dh_mybig_moddouble_64 m'
  let m' := dh_mybig_modadd_64 m' wtf
  let wtf := dh_mybig_monmult_64 dz dz
  let wtf := dh_mybig_monmult_64 wtf h_mon_a
  let m' := dh_mybig_modadd_64 m' wtf
  let dm := dh_mybig_monmult_64 m' m'
  let wtf := dh_mybig_monmult_64 (m.big pt1) dy
  let e := dh_mybig_moddouble_64 wtf
  let e := dh_mybig_modadd_64 e wtf
  let wtf := dh_mybig_moddouble_64 e
  let e := dh_mybig_moddouble_64 wtf
  let e := dh_mybig_modsub_64 e dm
  let de := dh_mybig_monmult_64 e e
  let wtf := dh_mybig_moddouble_64 qy
  let t := dh_mybig_moddouble_64 wtf
  let wtf := dh_mybig_moddouble_64 t
  let t := dh_mybig_moddouble_64 wtf
  let wtf := dh_mybig_modadd_64 m' e
  let u := dh_mybig_monmult_64 wtf wtf
  let t := dh_mybig_modadd_64 t dm
  let t := dh_mybig_modadd_64 t de
  let u := dh_mybig_modsub_64 u t
  let wtf := dh_mybig_monmult_64 dy u
  let m := m.putBig pt2 (dh_mybig_moddouble_64 wtf)
  let wtf := dh_mybig_moddouble_64 (m.big pt2)
  let m := m.putBig pt2 (dh_mybig_monmult_64 (m.big pt1) de)
  let m := m.putBig pt2 (dh_mybig_modsub_64 (m.big pt2) wtf)
  let wtf := dh_mybig_moddouble_64 (m.big pt2)
  let m := m.putBig pt2 (dh_mybig_moddouble_64 wtf)
  let wtf := dh_mybig_modsub_64 t u
  let m := m.putBig (pt2 + 4) (dh_mybig_monmult_64 wtf u)
  let wtf := dh_mybig_monmult_64 e de
  let m := m.putBig (pt2 + 4) (dh_mybig_modsub_64 (m.big (pt2 + 4)) wtf)
  let wtf := dh_mybig_monmult_64 (m.big (pt2 + 4)) (m.big (pt1 + 4))
  let m := m.putBig (pt2 + 4) (dh_mybig_moddouble_64 wtf)
  let wtf := dh_mybig_moddouble_64 (m.big (pt2 + 4))
  let m := m.putBig (pt2 + 4) (dh_mybig_moddouble_64 wtf)
  let wtf := dh_mybig_modadd_64 (m.big (pt1 + 8)) e
  let m := m.putBig (pt2 + 8) (dh_mybig_monmult_64 wtf wtf)
  let de := dh_mybig_modadd_64 de dz
  m.putBig (pt2 + 8) (dh_mybig_modsub_64 (m.big (pt2 + 8)) de)

end Ram

end DbcSnark.Gpuec
