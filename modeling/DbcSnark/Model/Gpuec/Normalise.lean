import DbcSnark.Model.Gpuec.MonInv
import DbcSnark.Model.Gpuec.Point

/-! # Normalisation of points

`dh_normlize_J` works in place on coordinates in Montgomery form, `Jpoint2Apoint` of `rp.cu` on plain ones, for a result
that may be the argument. The arrays `tmp`, `invtmp`, `t1` and `t2` are local. Both have no value only where the
inversion has none.
-/

namespace DbcSnark.Gpuec

/-- `dc_ONE` and `h_ONE`. -/
def dc_ONE : Big := ⟨1, 0, 0, 0⟩

/-- `dc_R2` and `h_R2`. -/
def dc_R2 : Big := ⟨0x000007a2000e90a1, 0x1, 0x0, 0x0⟩

namespace Ram

/-- `dh_normlize_J(pt)`. -/
def dh_normlize_J (m : Ram) (pt : ℕ) : Option Ram :=
  if dh_iszero_J m pt then some m
  else do
    let tmp := dc_ONE
    let invtmp := Gpuec.dh_mybig_monmult_64 (m.big (pt + 8)) tmp
    let invtmp ← Gpuec.dh_mybig_moninv invtmp
    let tmp := Gpuec.dh_mybig_monmult_64 invtmp invtmp
    let m := m.putBig pt (Gpuec.dh_mybig_monmult_64 (m.big pt) tmp)
    let tmp := Gpuec.dh_mybig_monmult_64 tmp invtmp
    let m := m.putBig (pt + 4) (Gpuec.dh_mybig_monmult_64 (m.big (pt + 4)) tmp)
    return m.putBig (pt + 8) dc_mon_ONE

/-- `d_mon2normal_J(pt)`. -/
def d_mon2normal_J (m : Ram) (pt : ℕ) : Ram :=
  let m := m.putBig pt (Gpuec.dh_mybig_monmult_64 (m.big pt) dc_ONE)
  let m := m.putBig (pt + 4) (Gpuec.dh_mybig_monmult_64 (m.big (pt + 4)) dc_ONE)
  m.putBig (pt + 8) (Gpuec.dh_mybig_monmult_64 (m.big (pt + 8)) dc_ONE)

/-- `Jpoint2Apoint(A, ret)`. -/
def Jpoint2Apoint (m : Ram) (A ret : ℕ) : Option Ram := do
  let t1 ← Gpuec.dh_mybig_moninv (m.big (A + 8))
  let t2 := Gpuec.dh_mybig_monmult_64 t1 t1
  let t1 := Gpuec.dh_mybig_monmult_64 t1 t2
  let m := m.putBig ret (Gpuec.dh_mybig_monmult_64 (m.big A) dc_R2)
  let m := m.putBig (ret + 4) (Gpuec.dh_mybig_monmult_64 (m.big (A + 4)) dc_R2)
  let m := m.putBig ret (Gpuec.dh_mybig_monmult_64 (m.big ret) t2)
  let m := m.putBig (ret + 4) (Gpuec.dh_mybig_monmult_64 (m.big (ret + 4)) t1)
  let m := m.putBig ret (Gpuec.dh_mybig_monmult_64 (m.big ret) dc_ONE)
  let m := m.putBig (ret + 4) (Gpuec.dh_mybig_monmult_64 (m.big (ret + 4)) dc_ONE)
  return m.putBig (ret + 8) ⟨1, 0, 0, 0⟩

end Ram

end DbcSnark.Gpuec
