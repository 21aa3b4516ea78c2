import DbcSnark.ToMathlib.Reduction

/-! # The tree of the chain test

`accumulate_sum` of `DBCTest.cu`. The lanes of a round run in lock step between two barriers; every lane writes its own
cell.
-/

namespace DbcSnark.Gpuec.ChainTest

variable {J : Type*} (dh_ellipticAdd_JJ : J → J → J)

/-- Lane `tx` of the round with the counter `i`: `if (tx < i) dh_ellipticAdd_JJ(&in[tx*2], &in[tx*2 + 1], &in[tx*2])`. -/
def lane (i : ℕ) (s : ℕ → J) (tx : ℕ) : ℕ → J :=
  if tx < i then Function.update s (tx * 2) (dh_ellipticAdd_JJ (s (tx * 2)) (s (tx * 2 + 1))) else s

/-- `accumulate_sum` in a block of `nthread` threads, with the lanes of the round `i` in the order `lanes i`. -/
def accumulate_sum (nthread : ℕ) (lanes : ℕ → List ℕ) (s : ℕ → J) : ℕ → J :=
  (Reduction.strides (nthread / 2)).foldl (fun s i => (lanes i).foldl (lane dh_ellipticAdd_JJ i) s) s

end DbcSnark.Gpuec.ChainTest
