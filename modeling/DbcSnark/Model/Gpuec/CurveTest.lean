import DbcSnark.Model.Gpuec.RunDBC
import DbcSnark.ToMathlib.Reduction

/-! # The two kernels of the curve test

`dbc_main` evaluates one chain a thread and `accumulate_sum` adds up the results in a tree, as `main` launches
them for `CONST_SCALE <= 17`. Threads write cells of their own, and the rounds of the tree are separated by
barriers, so a kernel is a fold over its threads in some order.
-/

namespace DbcSnark.Gpuec.CurveTest

def CONST_THREAD_PER_BLOCK : ℕ := 256

/-- `BATCHSIZE` for the value `scale` of `CONST_SCALE`. -/
def BATCHSIZE (scale : ℕ) : ℕ := 2 ^ scale

/-- `N_BLOCK`, and equally `CONST_BLOCK`. -/
def N_BLOCK (scale : ℕ) : ℕ := (BATCHSIZE scale + CONST_THREAD_PER_BLOCK - 1) / CONST_THREAD_PER_BLOCK

variable {J : Type*} (ops : PointOps J)

/-- The thread `(bx, tx)` of `dbc_main`: `chains` are the slots returned by `get_DBC` and `uninit` the
uninitialised locals, both for each `dbc_id`. -/
def dbc_main_thread (scale : ℕ) (chains : ℕ → List (ℤ × ℕ × ℕ)) (uninit : ℕ → J × J) (points : ℕ → J)
    (out : ℕ → J) (thread : ℕ × ℕ) : ℕ → J :=
  let dbc_id := CONST_THREAD_PER_BLOCK * thread.1 + thread.2
  if thread.1 < N_BLOCK scale - 1 then
    Function.update out dbc_id
      (run_DBC_v2 ops (uninit dbc_id).1 (uninit dbc_id).2 (points dbc_id) (out dbc_id) (chains dbc_id)).res
  else out

/-- `dbc_main`, with its threads in the given order. -/
def dbc_main (scale : ℕ) (threads : List (ℕ × ℕ)) (chains : ℕ → List (ℤ × ℕ × ℕ)) (uninit : ℕ → J × J)
    (points out : ℕ → J) : ℕ → J :=
  threads.foldl (dbc_main_thread ops scale chains uninit points) out

/-- `accumulate_sum` in one block, with the lanes of the round with stride `i` in the order `lanes i`. -/
def accumulate_sum (nthread : ℕ) (lanes : ℕ → List ℕ) (s : ℕ → J) : ℕ → J :=
  (Reduction.strides nthread).foldl (fun s i => (lanes i).foldl (Reduction.turn ops.add i) s) s

/-- An order of the threads `(bx, tx)` of `dbc_main<<<N_BLOCK, N_THREAD_PER_BLOCK>>>`. -/
def Grid (scale : ℕ) (threads : List (ℕ × ℕ)) : Prop :=
  threads.Nodup ∧ ∀ thread, thread ∈ threads ↔ thread.1 < N_BLOCK scale ∧ thread.2 < CONST_THREAD_PER_BLOCK

/-- Orders of the threads of `<<<1, nthread>>>` in every round. -/
def Lanes (nthread : ℕ) (lanes : ℕ → List ℕ) : Prop := ∀ i, (lanes i).Perm (List.range nthread)

/-- The contents of `d_p2` after both kernels. -/
def pipeline (scale : ℕ) (threads : List (ℕ × ℕ)) (lanes : ℕ → List ℕ) (chains : ℕ → List (ℤ × ℕ × ℕ))
    (uninit : ℕ → J × J) (d_p1 d_p2 : ℕ → J) : ℕ → J :=
  accumulate_sum ops (N_BLOCK scale / 2) lanes (dbc_main ops scale threads chains uninit d_p1 d_p2)

end DbcSnark.Gpuec.CurveTest
