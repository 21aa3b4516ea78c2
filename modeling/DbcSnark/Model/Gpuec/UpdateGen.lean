import DbcSnark.Model.Gpuec.Normalise
import DbcSnark.Model.Gpuec.PointMult

/-! # Rescaled generators

`updateGen` of `cuverify.cu` on the host multiplies each generator by the inverse of one more power of `y`, and
`kernel_updateGen` on the device one generator a thread. The array `yinv` and the point `tp` of the multiplication are
local and given by their addresses; `mony` and `expy` are local too.
-/

namespace DbcSnark.Gpuec

/-- `h_R2modN`. -/
def h_R2modN : Big := ⟨0x896cf21467d7d140, 0x741496c20e7cf878, 0xe697f5e45bcd07c6, 0x9d671cd581c69bc5⟩

namespace Ram

/-- `dh_mybig_monmult_64` of the three coordinates with `h_R2` or `dc_R2`. -/
def pointToMon (m : Ram) (pt1 pt2 : ℕ) : Ram :=
  let m := m.putBig pt2 (Gpuec.dh_mybig_monmult_64 (m.big pt1) dc_R2)
  let m := m.putBig (pt2 + 4) (Gpuec.dh_mybig_monmult_64 (m.big (pt1 + 4)) dc_R2)
  m.putBig (pt2 + 8) (Gpuec.dh_mybig_monmult_64 (m.big (pt1 + 8)) dc_R2)

/-- `JpointCpy(des, src)`. -/
def JpointCpy (m : Ram) (des src : ℕ) : Ram := m.copyPoint src des

section Host

variable (yinv tp hprime Hh : ℕ) (mony : Big)

/-- The body of the loop of `updateGen`, with `expy` beside the memory. -/
def updateGenStep (s : Ram × Big) (i : ℕ) : Option (Ram × Big) := do
  let expy := s.2
  let inv ← Gpuec.dh_mybig_moninv_modN expy
  let m := s.1.putBig yinv inv
  let m := m.pointToMon (Hh + 12 * i) (hprime + 12 * i)
  let m ← m.dh_point_mult_finalversion tp (hprime + 12 * i) yinv (hprime + 12 * i)
  return (m, Gpuec.dh_mybig_monmult_64_modN expy mony)

/-- `updateGen(hprime, Hh, y, N)`. -/
def updateGen (m : Ram) (y N : ℕ) : Option Ram := do
  let m := m.JpointCpy hprime Hh
  let mony := Gpuec.dh_mybig_monmult_64_modN (m.big y) h_R2modN
  let expy := mony
  let inv ← Gpuec.dh_mybig_moninv_modN expy
  let m := m.putBig yinv inv
  let m := m.pointToMon hprime hprime
  let s ← (List.range' 1 (N - 1)).foldlM (updateGenStep yinv tp hprime Hh mony) (m, expy)
  return s.1

end Host

section Device

/-- The words of a `BPSetupParams`. -/
def sizeofParams : ℕ := 825

/-- The words in front of `Hh` in a `BPSetupParams`: `G`, `H`, `N` with its padding, and `Gg`. -/
def offsetHh : ℕ := 409

variable (yinv tp hprime params xyz : ℕ)

/-- The thread `idx` of `kernel_updateGen(hprime, params, xyz, N, totalN)`. -/
def kernel_updateGen_thread (N totalN : ℕ) (m : Ram) (idx : ℕ) : Option Ram :=
  let curp := idx / N
  if curp ≥ totalN then some m
  else do
    let laneid := idx % N
    let Hh := params + sizeofParams * curp + offsetHh
    let y := xyz + curp * 16 + 4
    let curhprime := hprime + 12 * idx
    let mony := m.big y
    let m := m.pointToMon (Hh + 12 * laneid) curhprime
    let mony ← modN.modexp_ui32 dc_mon_ONE_modN mony (.ofNat laneid)
    let inv ← Gpuec.dh_mybig_moninv_modN mony
    let m := m.putBig yinv inv
    m.dh_point_mult_finalversion tp curhprime yinv curhprime

/-- `kernel_updateGen`, with its threads `(bx, tx)` in the given order, in blocks of `blockDim`. -/
def kernel_updateGen (N totalN blockDim : ℕ) (threads : List (ℕ × ℕ)) (m : Ram) : Option Ram :=
  threads.foldlM (fun m thread =>
    kernel_updateGen_thread yinv tp hprime params xyz N totalN m (thread.1 * blockDim + thread.2)) m

/-- The blocks of `gpu_updateGen`. -/
def updateGenBlocks (n N_DATA : ℕ) : ℕ := (N_DATA + 256 / n - 1) / (256 / n)

/-- `gpu_updateGen`, which launches so many blocks of 256 threads. -/
def gpu_updateGen (n N_DATA : ℕ) (threads : List (ℕ × ℕ)) (m : Ram) : Option Ram :=
  kernel_updateGen yinv tp hprime params xyz n N_DATA 256 threads m

end Device

end Ram

end DbcSnark.Gpuec
