import DbcSnark.Model.Gpuec.RangeProof

/-! # The generators of a batch of inner-product arguments

`kernel_ipverify` of `cuverify.cu` folds the generators of each proof under its challenges. A proof has a group of
`2 * N` lanes, the first half for `Gg` and the second one for the rescaled `Hh`, and a block the proofs of as many groups
as it holds. The shared array of a block is an array of numbers, and a point is three of them in a row; the challenges
and their inverses are behind the points of all lanes. Up to the barrier in the last turn of the loop over `L` and `R` the
lanes of a block take each statement together. From there to the barrier in front of the results only the 32 lanes of a
warp do, and each warp has its own pace. The lines behind the first `return` are never reached.
-/

namespace DbcSnark.Gpuec

/-- The numbers of a point in memory. -/
def Jpoint.number (p : Jpoint) : ℕ → Big
  | 0 => p.x
  | 1 => p.y
  | _ => p.z

/-- The arguments of `kernel_ipverify` but the results, with `N_DATA` and the number of lanes of a block. -/
structure IpVerify where
  LsRs : ℕ → Jpoint
  params : ℕ → BPSetupParams Jpoint
  hprime : ℕ → Jpoint
  N : ℕ
  logN : ℕ
  totalN : ℕ
  N_DATA : ℕ
  blockDim : ℕ

namespace IpVerify

/-! ## The shared array -/

/-- `sh[k]`. -/
def point (sh : ℕ → Big) (k : ℕ) : Jpoint := ⟨sh (3 * k), sh (3 * k + 1), sh (3 * k + 2)⟩

/-- The active lanes below `n` store points from `sh + off` on. -/
def storePoints (active : ℕ → Prop) [DecidablePred active] (n off : ℕ) (val : ℕ → Jpoint) (sh : ℕ → Big) : ℕ → Big :=
  Lanes.storeIf (fun c => active (c / 3)) (3 * n) (3 * off) (fun c => (val (c / 3)).number (c % 3)) sh

variable (ops : JpointOps Jpoint) (v : IpVerify) (bx : ℕ)

def NperGroup : ℕ := v.N * 2

def groupPerBlock : ℕ := v.blockDim / v.NperGroup

def curp (tx : ℕ) : ℕ := (bx * v.blockDim + tx) / v.NperGroup

def laneid (tx : ℕ) : ℕ := (bx * v.blockDim + tx) % v.NperGroup

/-- The lane exists and has not returned at its first lines. -/
def Alive (tx : ℕ) : Prop := tx < v.blockDim ∧ v.curp bx tx < v.totalN

instance (tx : ℕ) : Decidable (v.Alive bx tx) := inferInstanceAs (Decidable (_ ∧ _))

/-- The number at `&shuint64[blockDim.x*3*4]`. -/
def curx : ℕ := v.blockDim * 3

def curxinv : ℕ := v.curx + v.logN * v.groupPerBlock

/-! ## The statements -/

/-- The lines in front of the first barrier: the lane `tx` hashes `curLs[tx]` and `curRs[tx]`. -/
def challenges (sh : ℕ → Big) : Option (ℕ → Big) :=
  let lanes := v.logN * v.groupPerBlock
  let sh := Lanes.storeIf (v.Alive bx) lanes v.curx (fun tx =>
    (ops.device_hashBP (v.LsRs (v.curp bx tx * v.logN + tx)) (v.LsRs ((v.totalN + v.curp bx tx) * v.logN + tx))).1) sh
  let sh := Lanes.storeIf (v.Alive bx) lanes v.curxinv (fun tx =>
    dh_mybig_monmult_64_modN (sh (v.curx + tx)) dc_R2modN) sh
  Lanes.storeIfM (v.Alive bx) lanes v.curxinv (fun tx => dh_mybig_moninv_modN (sh (v.curxinv + tx))) sh

/-- The sum over `L` and `R` in `tmpshJ`. -/
def sumLR (sh : ℕ → Big) : ℕ → Big :=
  let lanes := v.logN * v.groupPerBlock
  let sh := Lanes.storeIf (v.Alive bx) (lanes * 2) 0 (fun tx => dh_mybig_monmult_64_modN (sh (v.curx + tx)) dc_R2modN) sh
  let sh := Lanes.storeIf (v.Alive bx) (lanes * 2) 0 (fun tx => dh_mybig_monmult_64_modN (sh tx) (sh tx)) sh
  let sh := Lanes.storeIf (v.Alive bx) (lanes * 2) 0 (fun tx => dh_mybig_monmult_64_modN (sh tx) dc_ONE) sh
  let sh := storePoints (v.Alive bx) (lanes * 2) lanes (fun tx =>
    let curmonLs := v.N_DATA * v.logN * 2 + v.curp bx tx * v.logN
    let curmonRs := v.N_DATA * v.logN * 2 + (v.totalN + v.curp bx tx) * v.logN
    if tx < lanes then ops.dh_point_mult_finalversion (v.LsRs (curmonLs + tx)) (sh tx)
    else ops.dh_point_mult_finalversion (v.LsRs (curmonRs + (tx - lanes))) (sh tx)) sh
  [8, 4, 2, 1].foldl (fun sh i =>
    storePoints (fun tx => v.Alive bx tx ∧ tx % 10 + i < 10 ∧ tx % 10 < i) (lanes * 2) lanes
      (fun tx => ops.dh_ellipticAdd_JJ (point sh (lanes + tx)) (point sh (lanes + tx + i))) sh) sh

/-! Behind the last of these barriers the statements are those of the warp `w`. -/

/-- The lane has not returned, and it is one of the warp. -/
def Active (w tx : ℕ) : Prop := v.Alive bx tx ∧ tx / 32 = w

instance (w tx : ℕ) : Decidable (v.Active bx w tx) := inferInstanceAs (Decidable (_ ∧ _))

/-- The addition of `ipP` in `tmpshJ`, over which the generators are copied. -/
def addIpP (w : ℕ) (sh : ℕ → Big) : ℕ → Big :=
  let lanes := v.logN * v.groupPerBlock
  storePoints (fun tx => v.Active bx w tx ∧ tx % 10 = 0) (lanes * 2) lanes
    (fun tx => ops.dh_ellipticAdd_JJ (point sh (lanes + tx)) (v.params (v.curp bx tx)).ipP) sh

/-- The copies of `Gg` and `curhprime`. -/
def load (w : ℕ) (sh : ℕ → Big) : ℕ → Big :=
  storePoints (v.Active bx w) v.blockDim 0 (fun tx =>
    if v.laneid bx tx < v.N then (v.params (v.curp bx tx)).Gg (v.laneid bx tx)
    else v.hprime (v.curp bx tx * v.N + v.laneid bx tx)) sh

/-- The turn `k` of the loop over the challenges. -/
def scale (k w : ℕ) (sh : ℕ → Big) : ℕ → Big :=
  storePoints (v.Active bx w) v.blockDim 0 (fun tx =>
    let curx := v.curx + tx / v.NperGroup * v.logN
    let curxinv := v.curxinv + tx / v.NperGroup * v.logN
    if v.laneid bx tx >>> k &&& 1 = 1 then
      if v.laneid bx tx < v.N then ops.dh_point_mult_finalversion (point sh tx) (sh (curx + (v.logN - 1 - k)))
      else ops.dh_point_mult_finalversion (point sh tx) (sh (curxinv + (v.logN - 1 - k)))
    else
      if v.laneid bx tx < v.N then ops.dh_point_mult_finalversion (point sh tx) (sh (curxinv + (v.logN - 1 - k)))
      else ops.dh_point_mult_finalversion (point sh tx) (sh (curx + (v.logN - 1 - k)))) sh

/-- The turn of the loop over the strides with the stride `i`. -/
def addUp (i w : ℕ) (sh : ℕ → Big) : ℕ → Big :=
  storePoints (fun tx => v.Active bx w tx ∧ v.laneid bx tx % v.N < i) v.blockDim 0
    (fun tx => ops.dh_ellipticAdd_JJ (point sh tx) (point sh (tx + i))) sh

/-- What a warp does from the copies on. -/
def folds : List (ℕ → (ℕ → Big) → ℕ → Big) :=
  v.load bx :: ((List.range v.logN).reverse.map (v.scale ops bx) ++ (Reduction.strides (v.N / 2)).map (v.addUp ops bx))

def warps : ℕ := (v.blockDim + 31) / 32

/-- The number of statements between the two barriers. -/
def statements : ℕ := 2 + v.logN + (Reduction.strides (v.N / 2)).length

/-- The block `bx`, with `tmpgphp` afterwards. -/
def block (order : Warps.Order v.warps v.statements) (tmpgphp : ℕ → Jpoint) (sh : ℕ → Big) : Option (ℕ → Jpoint) := do
  let sh ← v.challenges ops bx sh
  let sh := v.sumLR ops bx sh
  let sh := Warps.run (v.addIpP ops bx :: v.folds ops bx) order.history sh
  return Lanes.scatter (fun tx => v.Alive bx tx ∧ v.laneid bx tx < 2) v.blockDim
    (fun tx => v.curp bx tx * 2 + v.laneid bx tx) (fun tx => point sh (tx + v.laneid bx tx * v.N)) tmpgphp

/-- `kernel_ipverify`, with its blocks and their warps in the given orders and `sh` what the shared arrays hold before they
are written. -/
def kernel_ipverify (tmpgphp : ℕ → Jpoint) (blocks : List ℕ) (orders : ℕ → Warps.Order v.warps v.statements)
    (sh : ℕ → ℕ → Big) : Option (ℕ → Jpoint) :=
  blocks.foldlM (fun tmpgphp bx => v.block ops bx (orders bx) tmpgphp (sh bx)) tmpgphp

/-- The arguments in `gpu_ipverify()`. -/
def launched (d_lsrs : ℕ → Jpoint) (d_params : ℕ → BPSetupParams Jpoint) (d_hprime : ℕ → Jpoint) (N_DATA : ℕ) :
    IpVerify where
  LsRs := d_lsrs
  params := d_params
  hprime := d_hprime
  N := (d_params 0).N
  logN := Nat.log2 (d_params 0).N
  totalN := N_DATA
  N_DATA := N_DATA
  blockDim := 256

/-- The number of blocks in `gpu_ipverify()`. -/
def ipverifyBlocks (n N_DATA : ℕ) : ℕ := (N_DATA + 256 / n / 2 - 1) / (256 / n / 2)

/-- `gpu_ipverify()`, with its blocks and their warps in the given orders. -/
def gpu_ipverify (d_tmpgphp d_lsrs : ℕ → Jpoint) (d_params : ℕ → BPSetupParams Jpoint) (d_hprime : ℕ → Jpoint) (N_DATA : ℕ)
    (blocks : List ℕ) (orders : ℕ → Warps.Order (launched d_lsrs d_params d_hprime N_DATA).warps
      (launched d_lsrs d_params d_hprime N_DATA).statements) (sh : ℕ → ℕ → Big) : Option (ℕ → Jpoint) :=
  (launched d_lsrs d_params d_hprime N_DATA).kernel_ipverify ops d_tmpgphp blocks orders sh

end IpVerify

end DbcSnark.Gpuec
