import DbcSnark.Model.Gpuec.RangeVerify

/-! # The range proof as a system

`main` of `rp.cu` makes a proof of one number and hashes its own challenges, and `main` of `cuverify.cu` takes a batch of
proofs, hashes the challenges of each of them anew and evaluates both sides of the equations. In between a proof consists
of points in affine coordinates and plain numbers. Points are over any representation, and the host hashes as the device
does. `gpu_ipverify` is not among the calls: it writes to an array of its own.
-/

namespace DbcSnark.Gpuec

variable {J : Type} (ops : JpointOps J)

namespace RangeProof

/-- `trans_to_mon()`. -/
def trans_to_mon (params : BPSetupParams J) : BPSetupParams J :=
  { params with
    G := ops.jpoint_to_mon params.G
    H := ops.jpoint_to_mon params.H
    Gg := Lanes.store 32 0 (fun i => ops.jpoint_to_mon (params.Gg i)) params.Gg
    Hh := Lanes.store 32 0 (fun i => ops.jpoint_to_mon (params.Hh i)) params.Hh }

/-- `main` of `rp.cu` behind `init_random_param()`: the proof of `v`, `VLR` and the challenges. -/
def hashedMain (order : Warps.Order 2 6) (params : BPSetupParams J) (rand : InitParamR) (v : ℤ) (xyz : ℕ → Big)
    (old : Garbage J) : Option (BPProve J × (ℕ → Big) × (ℕ → Big)) := do
  let aLR := compute_al_ar v old.al old.ar 32
  let params := trans_to_mon ops params
  let V := commitG1 ops v rand.gamma params.H
  let A := cal_A ops params rand aLR.1 aLR.2
  let S_xyz := gpu_cal_S ops order params rand xyz A old.tp
  let aLR := trans_to_mon_N aLR
  let t ← kernel_cal_t12 ops params.H S_xyz.2 aLR.1 aLR.2 rand.SL rand.SR rand.tau12 old.z22nyn old.sh_ip
  let w := kernel_cal_vlr old.VLR t.xyz aLR.1 aLR.2 t.sl t.sr t.z22nyn rand.gamma rand.alpha rand.rho rand.tau1 rand.tau2
    old.sh_ip
  return ({ A, S := S_xyz.1, V, T1 := t.T1, T2 := t.T2, Taux := w.taux, Mu := w.mu, Tprime := w.tprime }, w.VLR, t.xyz)

/-- The points of a proof in affine coordinates, as `Jpoint2Apoint` in front of `h_print_pointJ` leaves them. -/
def sentProve (prove : BPProve J) : BPProve J :=
  { prove with
    A := ops.Jpoint2Apoint prove.A
    S := ops.Jpoint2Apoint prove.S
    V := ops.Jpoint2Apoint prove.V
    T1 := ops.Jpoint2Apoint prove.T1
    T2 := ops.Jpoint2Apoint prove.T2 }

/-- The vectors as plain numbers. -/
def sentVLR (VLR : ℕ → Big) (i : ℕ) : Big := dh_mybig_monmult_64_modN (VLR i) dc_ONE

end RangeProof

namespace RangeVerify

/-- What `init` and `initPoint` leave for a batch of proofs. -/
structure Batch (J : Type) where
  h_params : ℕ → BPSetupParams J
  h_prove : ℕ → BPProve J
  h_ipcommit : ℕ → J
  h_bLR : ℕ → Big

/-- What the other arrays hold before they are written. -/
structure Unwritten (J : Type) where
  h_xyz : ℕ → Big
  d_hprime : ℕ → J
  d_tmpJ : ℕ → J
  rhs65 : ℕ → ℕ → J
  calP : ℕ → ℕ → J

/-! ## The host -/

/-- The body of the loop of `main` over the proofs: the numbers at `curhxyz`. -/
def hashXyz (prove : BPProve J) : Option (ℕ → Big) := do
  let yz := ops.device_hashBP prove.A prove.S
  let x := (ops.device_hashBP prove.T1 prove.T2).1
  let ym1 := dh_mybig_modsub_64_ui32_modN yz.1 1
  let inv ← dh_mybig_moninv_modN ym1
  return laneNumbers x yz.1 yz.2 inv

/-- The loop of `main` over the proofs. -/
def hashAll (h_prove : ℕ → BPProve J) (N_DATA : ℕ) (h_xyz : ℕ → Big) : Option (ℕ → Big) :=
  (List.range N_DATA).foldlM (fun h_xyz i => (hashXyz ops (h_prove i)).map fun cur => Lanes.store 4 (i * 4) cur h_xyz) h_xyz

/-- `xyz_to_monN()`. -/
def xyz_to_monN (N_DATA : ℕ) (h_xyz : ℕ → Big) : ℕ → Big :=
  (List.range N_DATA).foldl (fun h_xyz i =>
    Lanes.store 3 (i * 4) (fun k => dh_mybig_monmult_64_modN (h_xyz (i * 4 + k)) h_R2modN) h_xyz) h_xyz

/-- The setup of one proof as `param_to_mon()` leaves it. -/
def param_to_mon (params : BPSetupParams J) : BPSetupParams J :=
  { params with
    Gg := Lanes.store params.N 0 (fun i => ops.jpoint_to_mon (params.Gg i)) params.Gg
    ipU := ops.jpoint_to_mon params.ipU
    ipP := ops.jpoint_to_mon params.ipP
    ipA := dh_mybig_monmult_64_modN params.ipA h_R2modN
    ipB := dh_mybig_monmult_64_modN params.ipB h_R2modN }

/-- `blr_to_mon()`. -/
def blr_to_mon (h_params : ℕ → BPSetupParams J) (N_DATA : ℕ) (h_bLR : ℕ → Big) : ℕ → Big :=
  (List.range N_DATA).foldl (fun h_bLR j =>
    Lanes.store ((h_params j).N * 2) (j * 64) (fun i => dh_mybig_monmult_64_modN (h_bLR (j * 64 + i)) h_R2modN) h_bLR) h_bLR

/-! ## The device -/

/-- What the thread `idx` of `kernel_updateGen` stores to `hprime[idx]`. -/
def updateGenLane (params : ℕ → BPSetupParams J) (xyz : ℕ → Big) (N idx : ℕ) : Option J := do
  let curhprime := ops.jpoint_to_mon ((params (idx / N)).Hh (idx % N))
  let mony := xyz (idx / N * 4 + 1)
  let mony ← modN.modexp_ui32 dc_mon_ONE_modN mony (.ofNat (idx % N))
  let yinv ← dh_mybig_moninv_modN mony
  return ops.dh_point_mult_finalversion curhprime yinv

/-- `gpu_updateGen()`, with `d_hprime` afterwards. -/
def gpu_updateGen (d_params : ℕ → BPSetupParams J) (d_xyz : ℕ → Big) (N_DATA : ℕ) (d_hprime : ℕ → J) : Option (ℕ → J) :=
  let n := (d_params 0).N
  Lanes.storeIfM (fun idx => idx / n < N_DATA) (Ram.updateGenBlocks n N_DATA * 256) 0 (updateGenLane ops d_params d_xyz n)
    d_hprime

/-- What the verifier leaves: both sides of each equation between points, and the inner products. -/
structure Results (J : Type) where
  d_tmpJ : ℕ → J
  d_bLR : ℕ → Big

/-- `main` of `cuverify.cu` from the loop over the proofs on. -/
def main (batch : Batch J) (N_DATA : ℕ) (old : Unwritten J) : Option (Results J) := do
  let h_xyz ← hashAll ops batch.h_prove N_DATA old.h_xyz
  -- `var2mon()` and the loop over `H` behind it
  let prove := Lanes.store N_DATA 0 (fun i => BPProve_to_mon ops (batch.h_prove i)) batch.h_prove
  let xyz := xyz_to_monN N_DATA h_xyz
  let params := Lanes.store N_DATA 0 (fun j => param_to_mon ops (batch.h_params j)) batch.h_params
  let ipcommit := Lanes.store N_DATA 0 (fun j => ops.jpoint_to_mon (batch.h_ipcommit j)) batch.h_ipcommit
  let bLR := blr_to_mon batch.h_params N_DATA batch.h_bLR
  let params := Lanes.store N_DATA 0 (fun i => { params i with H := ops.jpoint_to_mon (params i).H }) params
  -- the kernels; the sides of both equations between points lie `N_DATA` points apart
  let hprime ← gpu_updateGen ops params xyz N_DATA old.d_hprime
  let tmpJ := kernel_commitG1 ops old.d_tmpJ params prove N_DATA
  let res ← kernel_rhs65 ops (Lanes.shift N_DATA tmpJ) xyz prove params N_DATA old.rhs65
  let tmpJ := Lanes.splice N_DATA res tmpJ
  let res ← kernel_calP ops (Lanes.shift (2 * N_DATA) tmpJ) params xyz hprime prove N_DATA old.calP
  let tmpJ := Lanes.splice (2 * N_DATA) res tmpJ
  let res := kernel_calP67 ops (Lanes.shift (3 * N_DATA) tmpJ) ipcommit params prove N_DATA
  let tmpJ := Lanes.splice (3 * N_DATA) res tmpJ
  return { d_tmpJ := tmpJ, d_bLR := kernel_calip68 bLR N_DATA }

end RangeVerify

end DbcSnark.Gpuec
