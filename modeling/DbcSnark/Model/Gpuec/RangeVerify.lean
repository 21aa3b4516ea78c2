import DbcSnark.Model.Gpuec.RangeProof

/-! # The verifier of a batch of range proofs

The kernels of `cuverify.cu` for the equations 65 to 68. A block or a thread takes the proof of its own number. The
challenges of a proof are four numbers from `xyz + idx * 16` on: `x`, `y`, `z` and the inverse of `y - 1`. The last
argument of a kernel is what the shared array of each block holds before it is written.
-/

namespace DbcSnark.Gpuec

namespace RangeVerify

variable {J : Type} (ops : JpointOps J)

/-- `Jpoint_to_mon` for the points of a proof, as in `BPProve_to_mon`. -/
def BPProve_to_mon (prove : BPProve J) : BPProve J :=
  { prove with
    V := ops.jpoint_to_mon prove.V
    A := ops.jpoint_to_mon prove.A
    S := ops.jpoint_to_mon prove.S
    T1 := ops.jpoint_to_mon prove.T1
    T2 := ops.jpoint_to_mon prove.T2 }

/-- `kernel_commitG1(res, param, prove, N)`, with `res` afterwards. -/
def kernel_commitG1 (res : ℕ → J) (param : ℕ → BPSetupParams J) (prove : ℕ → BPProve J) (N : ℕ) : ℕ → J :=
  Lanes.store N 0 (fun idx =>
    let tmp := ops.dh_point_mult_finalversion (param idx).H (prove idx).Taux
    let tmp2 := ops.d_base_point_mul (prove idx).Tprime
    ops.dh_ellipticAdd_JJ tmp tmp2) res

/-- The points from `V` on: `T1` and `T2` follow it. -/
def fromV (prove : BPProve J) : ℕ → J
  | 0 => prove.V
  | 1 => prove.T1
  | _ => prove.T2

/-- The coordinates of `sh_tmp[0]` and the first one of `sh_tmp[1]`, as the numbers of the four lanes. -/
def laneNumbers (x0 y0 z0 x1 : Big) : ℕ → Big
  | 0 => x0
  | 1 => y0
  | 2 => z0
  | _ => x1

/-- The numbers that lane 0 of `kernel_rhs65` leaves for the four lanes. -/
def rhs65Numbers (xyz : ℕ → Big) (n : ℕ) : Option (ℕ → Big) := do
  let z := xyz 2
  let y := xyz 1
  let x := xyz 0
  let curk := dh_mybig_monmult_64_modN z z
  let z3 := dh_mybig_monmult_64_modN z curk
  let z := dh_mybig_modsub_64_modN z curk
  let t1 : Big := ⟨0xffffffff, 0, 0, 0⟩
  let t1 := dh_mybig_monmult_64_modN t1 dc_R2modN
  let yn ← modN.modexp_ui32 dc_mon_ONE_modN y (.ofNat n)
  let yn := dh_mybig_modsub_64_modN yn dc_mon_ONE_modN
  let y := xyz 3
  let yn := dh_mybig_monmult_64_modN yn y
  let yn := dh_mybig_monmult_64_modN yn z
  let z3 := dh_mybig_monmult_64_modN z3 t1
  let yn := dh_mybig_modsub_64_modN yn z3
  let delta := dh_mybig_monmult_64_modN yn dc_ONE
  let x2 := dh_mybig_monmult_64_modN x x
  return laneNumbers curk x x2 delta

/-- A block of `kernel_rhs65`: what it stores. The cell `tx` of `sh` is `sh_tmp[tx + 2]`. -/
def rhs65Block (xyz : ℕ → Big) (prove : BPProve J) (param : BPSetupParams J) (sh : ℕ → J) : Option J := do
  let curk ← rhs65Numbers xyz param.N
  let sh := Lanes.store 4 0 (fun tx =>
    if tx = 3 then ops.d_base_point_mul (curk 3)
    else
      let curk := dh_mybig_monmult_64_modN (curk tx) dc_ONE
      ops.dh_point_mult_finalversion (fromV prove tx) curk) sh
  let sh := [1, 2].foldl (fun sh i => Reduction.merge ops.dh_ellipticAdd_JJ 4 i sh) sh
  return sh 0

/-- `kernel_rhs65(res, d_xyz, prove, param)` in `nB` blocks, with `res` afterwards. -/
def kernel_rhs65 (res : ℕ → J) (d_xyz : ℕ → Big) (prove : ℕ → BPProve J) (param : ℕ → BPSetupParams J) (nB : ℕ)
    (sh : ℕ → ℕ → J) : Option (ℕ → J) :=
  Lanes.storeM nB 0 (fun bx => rhs65Block ops (fun i => d_xyz (bx * 4 + i)) (prove bx) (param bx) (sh bx)) res

/-- The round with stride `i` of `kernel_calP`: the lane `tx` works on the cell `tx * 2`. -/
def calPRound (i : ℕ) (sh_jp : ℕ → J) : ℕ → J := fun c =>
  if c % 2 = 0 ∧ c / 2 < 32 ∧ c / 2 % i = 0 then ops.dh_ellipticAdd_JJ (sh_jp c) (sh_jp (c + i)) else sh_jp c

/-- What the lane `tx` of `kernel_calP` stores to `sh_jp[tx + 32]`. -/
def calPLane (xyz : ℕ → Big) (curhprime : ℕ → J) (z z2 : Big) (tx : ℕ) : Option J := do
  let t1 := xyz 1
  let t2 := dc_mon_TWO_modN
  let t1 ← modN.modexp_ui32 dc_mon_ONE_modN t1 (.ofNat tx)
  let t2 ← modN.modexp_ui32 dc_mon_ONE_modN t2 (.ofNat tx)
  let t1 := dh_mybig_monmult_64_modN t1 z
  let t2 := dh_mybig_monmult_64_modN t2 z2
  let t1 := dh_mybig_modadd_64_modN t1 t2
  let t1 := dh_mybig_monmult_64_modN t1 dc_ONE
  return ops.dh_point_mult_finalversion (curhprime tx) t1

/-- A block of `kernel_calP` with 32 threads: what it stores. -/
def calPBlock (param : BPSetupParams J) (xyz : ℕ → Big) (curhprime : ℕ → J) (prove : BPProve J) (sh_jp : ℕ → J) :
    Option J := do
  let x := xyz 0
  let z := xyz 2
  let mz := dh_mybig_neg_modN z
  let mz := dh_mybig_monmult_64_modN mz dc_ONE
  let z2 := dh_mybig_monmult_64_modN z z
  let sh_jp := Lanes.store 32 0 (fun tx => ops.dh_point_mult_finalversion (param.Gg tx) mz) sh_jp
  let sh_jp ← Lanes.storeM 32 32 (calPLane ops xyz curhprime z z2) sh_jp
  let sh_jp := [1, 2, 4, 8, 16, 32].foldl (fun sh_jp i => calPRound ops i sh_jp) sh_jp
  let sh0 := ops.dh_ellipticAdd_JJ (sh_jp 0) prove.A
  let x := dh_mybig_monmult_64_modN x dc_ONE
  let sh1 := ops.dh_point_mult_finalversion prove.S x
  let sh0 := ops.dh_ellipticAdd_JJ sh0 sh1
  return ops.jpoint_from_mon sh0

/-- `kernel_calP(res, params, xyz, hprime, prove, n)` in `nB` blocks, with `res` afterwards. -/
def kernel_calP (res : ℕ → J) (params : ℕ → BPSetupParams J) (xyz : ℕ → Big) (hprime : ℕ → J) (prove : ℕ → BPProve J)
    (nB : ℕ) (sh_jp : ℕ → ℕ → J) : Option (ℕ → J) :=
  Lanes.storeM nB 0 (fun bx =>
    calPBlock ops (params bx) (fun i => xyz (bx * 4 + i)) (fun i => hprime (bx * 32 + i)) (prove bx) (sh_jp bx)) res

/-- `kernel_calP67(res, commit, params, prove)` in `nB` blocks, with `res` afterwards. -/
def kernel_calP67 (res commit : ℕ → J) (params : ℕ → BPSetupParams J) (prove : ℕ → BPProve J) (nB : ℕ) : ℕ → J :=
  Lanes.store nB 0 (fun bx =>
    let curres := ops.dh_point_mult_finalversion (params bx).H (prove bx).Mu
    let curres := ops.dh_ellipticAdd_JJ curres (commit bx)
    ops.jpoint_from_mon curres) res

/-- A block of `kernel_calip68(blr, n)` with 32 threads and `n = 32`: its 64 numbers afterwards. -/
def calip68Block (curblr : ℕ → Big) : ℕ → Big :=
  let curblr := Lanes.store 32 0 (fun tx => dh_mybig_monmult_64_modN (curblr tx) (curblr (tx + 32))) curblr
  Reduction.reduce dh_mybig_modadd_64_modN 16 curblr

/-- `kernel_calip68(blr, n)` in `nB` blocks. -/
def kernel_calip68 (blr : ℕ → Big) (nB : ℕ) : ℕ → Big := fun c =>
  if c / 64 < nB then calip68Block (fun i => blr (c / 64 * 64 + i)) (c % 64) else blr c

end RangeVerify

end DbcSnark.Gpuec
