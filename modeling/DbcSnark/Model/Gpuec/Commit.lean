import DbcSnark.Model.Gpuec.Normalise
import DbcSnark.Model.Gpuec.PointMult

/-! # Commitments

`commitG1` of `rp.cu`. The arrays `value` and `tp` are local, and so is the point `local_tp` of the multiplications; they
are given by their addresses, as is the global `pG_mon`.
-/

namespace DbcSnark.Gpuec

/-- The initial words of `pG_mon`. -/
def pG_mon : Jpoint where
  x := ⟨0xd7362e5a487e2097, 0x231e295329bc66db, 0x979f48c033fd129c, 0x9981e643e9089f48⟩
  y := ⟨0xb15ea6d2d3dbabe2, 0x8dfc5d5d1f1dc64d, 0x70b6b59aac19c136, 0xcf3f851fd4a582d6⟩
  z := ⟨0x1000003d1, 0, 0, 0⟩

namespace Ram

/-- `commitG1(ret, v, r, h)`; its last three lines are those of `d_mon2normal_J`. -/
def commitG1 (pG_mon value tp local_tp : ℕ) (m : Ram) (ret : ℕ) (v : Int32) (r h : ℕ) : Option Ram := do
  let m := m.putBig value ⟨v.toInt64.toUInt64, 0, 0, 0⟩
  let m ← m.dh_point_mult_finalversion local_tp pG_mon value ret
  let m ← m.dh_point_mult_finalversion local_tp h r tp
  let m := m.dh_ellipticAdd_JJ ret tp ret
  return m.d_mon2normal_J ret

end Ram

end DbcSnark.Gpuec
