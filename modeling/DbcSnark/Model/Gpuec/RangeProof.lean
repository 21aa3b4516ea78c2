import DbcSnark.Model.Gpuec.ModExp
import DbcSnark.Model.Gpuec.Normalise
import DbcSnark.Model.Gpuec.UpdateGen
import DbcSnark.ToMathlib.Lanes
import DbcSnark.ToMathlib.Reduction
import DbcSnark.ToMathlib.Warps
import Mathlib.Algebra.Group.Basic

/-! # The prover of a range proof

The functions of `rp.cu` that make up a proof for one number, over any representation of points. An array of numbers or
of points is a function of the index, so `xyz + 4` is `xyz 1`. All lanes of a warp take each statement together, and so do
the warps of a block up to a barrier. Behind the last barrier of `kernel_cal_S` each of its two warps has its own pace.
-/

namespace DbcSnark.Gpuec

/-- `dc_R2modN`. -/
def dc_R2modN : Big := ⟨0x896cf21467d7d140, 0x741496c20e7cf878, 0xe697f5e45bcd07c6, 0x9d671cd581c69bc5⟩

/-- `dc_mon_TWO_modN`. -/
def dc_mon_TWO_modN : Big := ⟨0x805b42e65f937d7e, 0x8aa24632a16ebf88, 0x2, 0x0⟩

/-- The functions on points that the provers and the verifiers call, by what they store. -/
structure JpointOps (J : Type) where
  pG_mon : J
  dh_ellipticAdd_JJ : J → J → J
  dh_point_mult_finalversion : J → Big → J
  d_base_point_mul : Big → J
  cal_minus_Jpoint : J → J
  /-- `dh_mybig_monmult_64` of the three coordinates with `h_R2` or `dc_R2` -/
  jpoint_to_mon : J → J
  /-- `dh_mybig_monmult_64` of the three coordinates with `h_ONE` or `dc_ONE` -/
  jpoint_from_mon : J → J
  Jpoint2Apoint : J → J
  /-- both outputs; a caller without an address for the second one has no use for it -/
  device_hashBP : J → J → Big × Big

/-- The points of an abelian group with its own operations, under any hash. -/
def groupJpoints {A : Type} [AddCommGroup A] (G : A) (device_hashBP : A → A → Big × Big) : JpointOps A where
  pG_mon := G
  dh_ellipticAdd_JJ p q := p + q
  dh_point_mult_finalversion p k := k.toNat • p
  d_base_point_mul k := k.toNat • G
  cal_minus_Jpoint p := -p
  jpoint_to_mon p := p
  jpoint_from_mon p := p
  Jpoint2Apoint p := p
  device_hashBP := device_hashBP

/-- `BulletProofSetupParams`. -/
structure BPSetupParams (J : Type) where
  G : J
  H : J
  N : ℕ
  Gg : ℕ → J
  Hh : ℕ → J
  ipA : Big
  ipB : Big
  ipU : J
  ipP : J

/-- The memory from `Gg` on: `Hh` follows the 32 points of `Gg`. -/
def BPSetupParams.fromGg {J : Type} (params : BPSetupParams J) (i : ℕ) : J :=
  if i < 32 then params.Gg i else params.Hh (i - 32)

/-- `BulletProofProve` up to its numbers. -/
structure BPProve (J : Type) where
  A : J
  S : J
  V : J
  T1 : J
  T2 : J
  Taux : Big
  Mu : Big
  Tprime : Big

/-- `initParamRandom`. -/
structure InitParamR where
  gamma : Big
  alpha : Big
  rho : Big
  tau1 : Big
  tau2 : Big
  SL : ℕ → Big
  SR : ℕ → Big

/-- The numbers from `tau1` on: `tau2` follows it. -/
def InitParamR.tau12 (rand : InitParamR) : ℕ → Big
  | 0 => rand.tau1
  | _ => rand.tau2

namespace RangeProof

/-! ## The host -/

/-- `(v>>i) & 0x1`. -/
def bitOf (v : ℤ) (i : ℕ) : UInt64 := .ofInt (v >>> i % 2)

/-- `compute_al_ar(v, al, ar, n)`, with both arrays afterwards. -/
def compute_al_ar (v : ℤ) (al ar : ℕ → Big) (n : ℕ) : (ℕ → Big) × (ℕ → Big) :=
  (Lanes.store n 0 (fun i => ⟨bitOf v i, 0, 0, 0⟩) al,
    Lanes.store n 0 (fun i => if bitOf v i ≠ 0 then ⟨0, 0, 0, 0⟩
      else ⟨0xBFD25E8CD0364141 - 1, 0xBAAEDCE6AF48A03B, 0xFFFFFFFFFFFFFFFE, 0xFFFFFFFFFFFFFFFF⟩) ar)

/-- `trans_to_mon_N()` on the two halves of `h_aLR`. -/
def trans_to_mon_N (aLR : (ℕ → Big) × (ℕ → Big)) : (ℕ → Big) × (ℕ → Big) :=
  (Lanes.store 32 0 (fun i => dh_mybig_monmult_64_modN (aLR.1 i) h_R2modN) aLR.1,
    Lanes.store 32 0 (fun i => dh_mybig_monmult_64_modN (aLR.2 i) h_R2modN) aLR.2)

variable {J : Type} (ops : JpointOps J)

/-- `commitG1(ret, v, r, h)`. -/
def commitG1 (v : ℤ) (r : Big) (h : J) : J :=
  let value : Big := ⟨.ofInt v, 0, 0, 0⟩
  let ret := ops.dh_point_mult_finalversion ops.pG_mon value
  let tp := ops.dh_point_mult_finalversion h r
  let ret := ops.dh_ellipticAdd_JJ ret tp
  ops.jpoint_from_mon ret

/-- The body of the loop of `cal_A`. -/
def calAStep (params : BPSetupParams J) (al ar : ℕ → Big) (ret : J) (i : ℕ) : J :=
  let ret := if (al i).w0 = 1 then ops.dh_ellipticAdd_JJ ret (params.Gg i) else ret
  if (ar i).w0 ≠ 0 then
    let tp := ops.cal_minus_Jpoint (params.Hh i)
    ops.dh_ellipticAdd_JJ ret tp
  else ret

/-- `cal_A(al, ar, ret)`. -/
def cal_A (params : BPSetupParams J) (rand : InitParamR) (al ar : ℕ → Big) : J :=
  let ret := ops.dh_point_mult_finalversion params.H rand.alpha
  ops.jpoint_from_mon ((List.range 32).foldl (calAStep ops params al ar) ret)

/-! ## The device -/

/-- The rounds of the tree in `kernel_cal_S`, for a warp of 32 lanes. -/
def calSRounds : List (ℕ → (ℕ → J) → ℕ → J) :=
  [1, 2, 4, 8, 16, 32].map fun i => Warps.part 32 (Reduction.merge ops.dh_ellipticAdd_JJ 64 i)

/-- `kernel_cal_S` with 64 threads: what `ret` and `xyz` hold afterwards. There is no barrier between the rounds of the tree,
and what follows it is done by the lane 0 in cells of its own warp. -/
def kernel_cal_S (order : Warps.Order 2 6) (rho : Big) (sl sr : ℕ → Big) (H : J) (Gg Hh : ℕ → J) (xyz : ℕ → Big) (A : J)
    (tp : ℕ → J) : J × (ℕ → Big) :=
  let tp := Lanes.store 64 0 (fun tx =>
    if tx < 32 then ops.dh_point_mult_finalversion (Gg tx) (sl tx)
    else ops.dh_point_mult_finalversion (Hh tx) (sr (tx - 32))) tp
  let tp := Warps.run (calSRounds ops) order.history tp
  let tp := Function.update tp 1 (ops.dh_point_mult_finalversion H rho)
  let tp := Function.update tp 0 (ops.dh_ellipticAdd_JJ (tp 0) (tp 1))
  let tp := Function.update tp 0 (ops.jpoint_from_mon (tp 0))
  let ret := tp 0
  let tp := Function.update tp 0 (ops.Jpoint2Apoint (tp 0))
  let tp := Function.update tp 1 (ops.Jpoint2Apoint A)
  let yz := ops.device_hashBP (tp 1) (tp 0)
  let xyz := Function.update xyz 1 (dh_mybig_monmult_64_modN yz.1 dc_R2modN)
  (ret, Function.update xyz 2 (dh_mybig_monmult_64_modN yz.2 dc_R2modN))

/-- `gpu_cal_S()`, which passes `Gg` for both vectors of generators. -/
def gpu_cal_S (order : Warps.Order 2 6) (params : BPSetupParams J) (rand : InitParamR) (xyz : ℕ → Big) (A : J)
    (tp : ℕ → J) : J × (ℕ → Big) :=
  kernel_cal_S ops order rand.rho rand.SL rand.SR params.H params.fromGg params.fromGg xyz A tp

/-- What `kernel_cal_t12` leaves in memory. -/
structure CalT12 (J : Type) where
  T1 : J
  T2 : J
  sl : ℕ → Big
  sr : ℕ → Big
  z22nyn : ℕ → Big
  xyz : ℕ → Big

/-- `kernel_cal_t12` with 32 threads. -/
def kernel_cal_t12 (H : J) (xyz al ar sl sr tau12 z22nyn sh_ip : ℕ → Big) : Option (CalT12 J) := do
  let sl := Lanes.store 32 0 (fun tx => dh_mybig_monmult_64_modN (sl tx) dc_R2modN) sl
  let sr := Lanes.store 32 0 (fun tx => dh_mybig_monmult_64_modN (sr tx) dc_R2modN) sr
  let sh_ip := Lanes.store 32 0 (fun tx => dh_mybig_modsub_64_modN (al tx) (xyz 2)) sh_ip
  let sh_ip ← Lanes.storeM 32 64 (fun tx => modN.modexp_ui32 dc_mon_ONE_modN (xyz 1) (.ofNat tx)) sh_ip
  let sh_ip := Lanes.store 32 32 (fun tx => dh_mybig_monmult_64_modN (sh_ip (64 + tx)) (sr tx)) sh_ip
  let sh_ip := Lanes.store 32 0 (fun tx => dh_mybig_monmult_64_modN (sh_ip tx) (sh_ip (32 + tx))) sh_ip
  let sh_ip := Reduction.reduce dh_mybig_modadd_64_modN 16 sh_ip
  let lh := sh_ip 0
  let sh_ip := Lanes.store 32 0 (fun tx => dh_mybig_modadd_64_modN (ar tx) (xyz 2)) sh_ip
  let sh_ip := Lanes.store 32 0 (fun tx => dh_mybig_monmult_64_modN (sh_ip tx) (sh_ip (64 + tx))) sh_ip
  let sh_ip ← Lanes.storeM 32 32 (fun tx => modN.modexp_ui32 dc_mon_ONE_modN dc_mon_TWO_modN (.ofNat tx)) sh_ip
  let rh := dh_mybig_monmult_64_modN (xyz 2) (xyz 2)
  let sh_ip := Lanes.store 32 32 (fun tx => dh_mybig_monmult_64_modN (sh_ip (32 + tx)) rh) sh_ip
  let z22nyn := Lanes.store 32 0 (fun tx => sh_ip (32 + tx)) z22nyn
  let z22nyn := Lanes.store 32 32 (fun tx => sh_ip (64 + tx)) z22nyn
  let sh_ip := Lanes.store 32 0 (fun tx => dh_mybig_modadd_64_modN (sh_ip tx) (sh_ip (32 + tx))) sh_ip
  let sh_ip := Lanes.store 32 0 (fun tx => dh_mybig_monmult_64_modN (sh_ip tx) (sl tx)) sh_ip
  let sh_ip := Reduction.reduce dh_mybig_modadd_64_modN 16 sh_ip
  let rh := sh_ip 0
  let sh_ip := Function.update sh_ip 32 (dh_mybig_modadd_64_modN lh rh)
  let sh_ip := Function.update sh_ip 32 (dh_mybig_monmult_64_modN (sh_ip 32) dc_ONE)
  let sh_ip := Lanes.store 32 0 (fun tx => dh_mybig_monmult_64_modN (sh_ip (64 + tx)) (sr tx)) sh_ip
  let sh_ip := Lanes.store 32 0 (fun tx => dh_mybig_monmult_64_modN (sh_ip tx) (sl tx)) sh_ip
  let sh_ip := Reduction.reduce dh_mybig_modadd_64_modN 16 sh_ip
  let sh_ip := Function.update sh_ip 33 (sh_ip 0)
  let sh_ip := Function.update sh_ip 33 (dh_mybig_monmult_64_modN (sh_ip 33) dc_ONE)
  -- the lanes 0 and 1 store to `T12` and `T12 + 1`
  let T12 := fun tx =>
    let tmpx := ops.d_base_point_mul (sh_ip (32 + tx))
    let tmpy := ops.dh_point_mult_finalversion H (tau12 tx)
    let tmpx := ops.dh_ellipticAdd_JJ tmpx tmpy
    ops.jpoint_from_mon tmpx
  let lh := (ops.device_hashBP (ops.Jpoint2Apoint (T12 0)) (ops.Jpoint2Apoint (T12 1))).1
  let xyz := Function.update xyz 0 (dh_mybig_monmult_64_modN lh dc_R2modN)
  return { T1 := T12 0, T2 := T12 1, sl, sr, z22nyn, xyz }

/-- What `kernel_cal_vlr` leaves in memory. -/
structure CalVlr where
  tprime : Big
  VLR : ℕ → Big
  taux : Big
  mu : Big

/-- `kernel_cal_vlr` with 32 threads and `N = 32`. -/
def kernel_cal_vlr (VLR xyz al ar sl sr z22nyn : ℕ → Big) (gamma alpha rho tau1 tau2 : Big) (sh_ip : ℕ → Big) : CalVlr :=
  let sh_ip := Lanes.store 32 0 (fun tx => dh_mybig_modsub_64_modN (al tx) (xyz 2)) sh_ip
  let sh_ip := Lanes.store 32 32 (fun tx => dh_mybig_monmult_64_modN (sl tx) (xyz 0)) sh_ip
  let sh_ip := Lanes.store 32 0 (fun tx => dh_mybig_modadd_64_modN (sh_ip tx) (sh_ip (32 + tx))) sh_ip
  let sh_ip := Lanes.store 32 32 (fun tx => dh_mybig_monmult_64_modN (sr tx) (xyz 0)) sh_ip
  let sh_ip := Lanes.store 32 32 (fun tx => dh_mybig_modadd_64_modN (sh_ip (32 + tx)) (xyz 2)) sh_ip
  let sh_ip := Lanes.store 32 32 (fun tx => dh_mybig_modadd_64_modN (sh_ip (32 + tx)) (ar tx)) sh_ip
  let sh_ip := Lanes.store 32 32 (fun tx => dh_mybig_monmult_64_modN (sh_ip (32 + tx)) (z22nyn (32 + tx))) sh_ip
  let sh_ip := Lanes.store 32 32 (fun tx => dh_mybig_modadd_64_modN (sh_ip (32 + tx)) (z22nyn tx)) sh_ip
  let VLR := Lanes.store 32 0 (fun tx => sh_ip tx) VLR
  let VLR := Lanes.store 32 32 (fun tx => sh_ip (32 + tx)) VLR
  let sh_ip := Lanes.store 32 0 (fun tx => dh_mybig_monmult_64_modN (sh_ip tx) (sh_ip (32 + tx))) sh_ip
  let sh_ip := Reduction.reduce dh_mybig_modadd_64_modN 16 sh_ip
  let tprime := dh_mybig_monmult_64_modN (sh_ip 0) dc_ONE
  let sh0 := dh_mybig_monmult_64_modN (xyz 0) (xyz 0)
  let sh1 := dh_mybig_monmult_64_modN tau2 dc_R2modN
  let sh0 := dh_mybig_monmult_64_modN sh0 sh1
  let sh2 := dh_mybig_monmult_64_modN (xyz 2) (xyz 2)
  let sh1 := dh_mybig_monmult_64_modN tau1 dc_R2modN
  let sh1 := dh_mybig_monmult_64_modN sh1 (xyz 0)
  let sh3 := dh_mybig_monmult_64_modN gamma dc_R2modN
  let sh2 := dh_mybig_monmult_64_modN sh2 sh3
  let sh1 := dh_mybig_modadd_64_modN sh1 sh2
  let sh0 := dh_mybig_modadd_64_modN sh0 sh1
  let taux := dh_mybig_monmult_64_modN sh0 dc_ONE
  let sh0 := dh_mybig_monmult_64_modN rho dc_R2modN
  let sh1 := dh_mybig_monmult_64_modN alpha dc_R2modN
  let sh0 := dh_mybig_monmult_64_modN sh0 (xyz 0)
  let sh0 := dh_mybig_modadd_64_modN sh0 sh1
  let mu := dh_mybig_monmult_64_modN sh0 dc_ONE
  { tprime, VLR, taux, mu }

/-- What the arrays of the prover hold before they are written. -/
structure Garbage (J : Type) where
  al : ℕ → Big
  ar : ℕ → Big
  z22nyn : ℕ → Big
  VLR : ℕ → Big
  sh_ip : ℕ → Big
  tp : ℕ → J

/-- The calls of `main` that make up a proof of `v`, and `VLR`, where the kernels find the challenges in `xyz`, whatever
points these were hashed from. -/
def main (order : Warps.Order 2 6) (params : BPSetupParams J) (rand : InitParamR) (v : ℤ) (xyz : ℕ → Big)
    (old : Garbage J) : Option (BPProve J × (ℕ → Big)) := do
  let aLR := compute_al_ar v old.al old.ar 32
  let V := commitG1 ops v rand.gamma params.H
  let A := cal_A ops params rand aLR.1 aLR.2
  let S := (gpu_cal_S ops order params rand xyz A old.tp).1
  let aLR := trans_to_mon_N aLR
  let t ← kernel_cal_t12 ops params.H xyz aLR.1 aLR.2 rand.SL rand.SR rand.tau12 old.z22nyn old.sh_ip
  let w := kernel_cal_vlr old.VLR xyz aLR.1 aLR.2 t.sl t.sr t.z22nyn rand.gamma rand.alpha rand.rho rand.tau1 rand.tau2
    old.sh_ip
  return ({ A, S, V, T1 := t.T1, T2 := t.T2, Taux := w.taux, Mu := w.mu, Tprime := w.tprime }, w.VLR)

end RangeProof

end DbcSnark.Gpuec
