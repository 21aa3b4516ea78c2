import DbcSnark.Model.Gpuec.CurveTest
import DbcSnark.Proofs.Gpuec.RunDBC

/-! # What the curve test computes

`dbc_main` leaves out its last block and `accumulate_sum` reaches the first `N_BLOCK` cells only, so the first
cell ends up with the sum of the first `N_BLOCK` products. With one block no product is computed at all and
the tree is launched with no threads.
-/

namespace DbcSnark.Gpuec.CurveTest

open DBCTest DBCTest.Greedy Finset

variable {A : Type*} [AddCommGroup A]

/-! ## The two kernels -/

section Kernels

variable {scale : ℕ} {n : ℕ → ℕ} {chains : ℕ → List (ℤ × ℕ × ℕ)} {uninit : ℕ → A × A} {points : ℕ → A}

private theorem dbc_main_thread_apply (valid : ∀ i < BATCHSIZE scale, IsDoubleBaseChain (n i) (chains i))
    {thread : ℕ × ℕ} (inside : thread.1 < N_BLOCK scale ∧ thread.2 < CONST_THREAD_PER_BLOCK) (out : ℕ → A) (i : ℕ) :
    dbc_main_thread (groupOps A) scale chains uninit points out thread i =
      if i = CONST_THREAD_PER_BLOCK * thread.1 + thread.2 ∧ thread.1 < N_BLOCK scale - 1 then n i • points i
      else out i := by
  simp only [dbc_main_thread]
  by_cases active : thread.1 < N_BLOCK scale - 1
  · by_cases own : i = CONST_THREAD_PER_BLOCK * thread.1 + thread.2
    · have batch : i < BATCHSIZE scale := by
        rw [own]
        unfold N_BLOCK CONST_THREAD_PER_BLOCK at *
        omega
      rw [if_pos active, if_pos ⟨own, active⟩, ← own, Function.update_self]
      exact run_DBC_v2_group (valid i batch) _ _ _ _
    · rw [if_pos active, if_neg (by simp [own]), Function.update_of_ne own]
  · rw [if_neg active, if_neg (by simp [active])]

private theorem foldl_dbc_main_thread (valid : ∀ i < BATCHSIZE scale, IsDoubleBaseChain (n i) (chains i))
    (threads : List (ℕ × ℕ)) (inside : ∀ thread ∈ threads, thread.1 < N_BLOCK scale ∧ thread.2 < CONST_THREAD_PER_BLOCK)
    (out : ℕ → A) (i : ℕ) :
    threads.foldl (dbc_main_thread (groupOps A) scale chains uninit points) out i =
      if (i / CONST_THREAD_PER_BLOCK, i % CONST_THREAD_PER_BLOCK) ∈ threads ∧ i / CONST_THREAD_PER_BLOCK < N_BLOCK scale - 1
      then n i • points i else out i := by
  induction threads generalizing out with
  | nil => simp
  | cons thread threads ih =>
    have bound := inside thread (by simp)
    have own : i = CONST_THREAD_PER_BLOCK * thread.1 + thread.2 ↔
        (i / CONST_THREAD_PER_BLOCK, i % CONST_THREAD_PER_BLOCK) = thread := by
      rcases thread with ⟨bx, tx⟩
      simp only [Prod.mk.injEq, CONST_THREAD_PER_BLOCK] at *
      omega
    rw [List.foldl_cons, ih (fun t member => inside t (by simp [member])), dbc_main_thread_apply valid bound]
    simp only [own, List.mem_cons]
    by_cases here : (i / CONST_THREAD_PER_BLOCK, i % CONST_THREAD_PER_BLOCK) = thread
    · rw [← here]
      simp only [true_or, true_and]
      split
      · rw [if_pos (And.right ‹_›)]
      · rfl
    · simp only [here, false_or, false_and, if_false]

/-- `dbc_main` computes the products of all blocks but the last and keeps the other cells. -/
theorem dbc_main_apply (valid : ∀ i < BATCHSIZE scale, IsDoubleBaseChain (n i) (chains i)) {threads : List (ℕ × ℕ)}
    (grid : Grid scale threads) (out : ℕ → A) (i : ℕ) :
    dbc_main (groupOps A) scale threads chains uninit points out i =
      if i < CONST_THREAD_PER_BLOCK * (N_BLOCK scale - 1) then n i • points i else out i := by
  rw [dbc_main, foldl_dbc_main_thread valid threads fun thread member => (grid.2 thread).mp member]
  apply if_congr _ rfl rfl
  rw [grid.2, CONST_THREAD_PER_BLOCK]
  dsimp only
  omega

end Kernels

/-- Any order of the lanes gives the rounds of the tree. -/
theorem accumulate_sum_eq {J : Type*} (ops : PointOps J) {nthread : ℕ} {lanes : ℕ → List ℕ} (order : Lanes nthread lanes)
    (s : ℕ → J) : accumulate_sum ops nthread lanes s = Reduction.reduce ops.add nthread s := by
  have round : ∀ i ≤ nthread, ∀ s : ℕ → J,
      (lanes i).foldl (Reduction.turn ops.add i) s = Reduction.round ops.add i s := by
    intro i bound s
    apply Reduction.foldl_turn
    · exact (order i).nodup_iff.mpr List.nodup_range
    · intro k below
      rw [(order i).mem_iff, List.mem_range]
      omega
  have general : ∀ strides : List ℕ, (∀ i ∈ strides, i ≤ nthread) → ∀ s : ℕ → J,
      strides.foldl (fun s i => (lanes i).foldl (Reduction.turn ops.add i) s) s =
        strides.foldl (fun s i => Reduction.round ops.add i s) s := by
    intro strides bound
    induction strides with
    | nil => exact fun _ => rfl
    | cons i strides ih =>
      intro s
      rw [List.foldl_cons, List.foldl_cons, round i (bound i (by simp))]
      exact ih (fun j member => bound j (by simp [member])) _
  exact general _ (fun i member => Reduction.le_of_mem_strides member) s

/-- The tree adds up the cells below `N_BLOCK`. -/
theorem accumulate_sum_apply {scale : ℕ} (blocks : 9 ≤ scale) {lanes : ℕ → List ℕ}
    (order : Lanes (N_BLOCK scale / 2) lanes) (s : ℕ → A) :
    accumulate_sum (groupOps A) (N_BLOCK scale / 2) lanes s 0 = ∑ i ∈ range (N_BLOCK scale), s i := by
  obtain ⟨k, rfl⟩ : ∃ k, scale = k + 9 := ⟨scale - 9, by omega⟩
  have whole : N_BLOCK (k + 9) = 2 ^ (k + 1) := by
    have size : 2 ^ (k + 9) = 2 ^ (k + 1) * 256 := by rw [show k + 9 = k + 1 + 8 by ring, pow_add]; rfl
    rw [N_BLOCK, BATCHSIZE, CONST_THREAD_PER_BLOCK, size]
    omega
  have half : N_BLOCK (k + 9) / 2 = 2 ^ k := by rw [whole, pow_succ, Nat.mul_div_cancel _ (by norm_num)]
  rw [accumulate_sum_eq _ order, half, whole]
  have sums : ∀ a b x y : A, a = x → b = y → (groupOps A).add a b = x + y := by
    rintro a b _ _ rfl rfl
    rfl
  exact Reduction.reduce_pow sums k s s fun _ _ => rfl

/-! ## The pipeline -/

section Pipeline

variable {scale : ℕ} {n : ℕ → ℕ} {chains : ℕ → List (ℤ × ℕ × ℕ)} {threads : List (ℕ × ℕ)} {lanes : ℕ → List ℕ}

/-- From 512 scalars on the first cell receives the products of the first `N_BLOCK` of them. -/
theorem pipeline_apply (blocks : 9 ≤ scale) (valid : ∀ i < BATCHSIZE scale, IsDoubleBaseChain (n i) (chains i))
    (grid : Grid scale threads) (order : Lanes (N_BLOCK scale / 2) lanes) (uninit : ℕ → A × A) (d_p1 d_p2 : ℕ → A) :
    pipeline (groupOps A) scale threads lanes chains uninit d_p1 d_p2 0 =
      ∑ i ∈ range (N_BLOCK scale), n i • d_p1 i := by
  have several : 2 ≤ N_BLOCK scale := by
    have size : 2 ^ 9 ≤ 2 ^ scale := Nat.pow_le_pow_right (by norm_num) blocks
    rw [N_BLOCK, BATCHSIZE, CONST_THREAD_PER_BLOCK]
    omega
  rw [pipeline, accumulate_sum_apply blocks order]
  apply sum_congr rfl
  intro i member
  rw [mem_range] at member
  rw [dbc_main_apply valid grid, if_pos]
  rw [CONST_THREAD_PER_BLOCK]
  omega

/-- Up to 256 scalars the first cell keeps what it held. -/
theorem pipeline_single (block : scale ≤ 8) (valid : ∀ i < BATCHSIZE scale, IsDoubleBaseChain (n i) (chains i))
    (grid : Grid scale threads) (order : Lanes (N_BLOCK scale / 2) lanes) (uninit : ℕ → A × A) (d_p1 d_p2 : ℕ → A) :
    pipeline (groupOps A) scale threads lanes chains uninit d_p1 d_p2 0 = d_p2 0 := by
  have one : N_BLOCK scale = 1 := by
    have size : 2 ^ scale ≤ 2 ^ 8 := Nat.pow_le_pow_right (by norm_num) block
    have positive : 0 < 2 ^ scale := by positivity
    rw [N_BLOCK, BATCHSIZE, CONST_THREAD_PER_BLOCK]
    omega
  rw [pipeline, accumulate_sum_eq _ order, one, Reduction.reduce, Reduction.strides_zero, List.foldl_nil,
    dbc_main_apply valid grid, if_neg (by rw [one]; omega)]

/-- The first cell holds the sum over the whole batch exactly when the products from `N_BLOCK` on cancel; with
a single block, exactly when it held that sum before. -/
theorem pipeline_sum_iff (valid : ∀ i < BATCHSIZE scale, IsDoubleBaseChain (n i) (chains i))
    (grid : Grid scale threads) (order : Lanes (N_BLOCK scale / 2) lanes) (uninit : ℕ → A × A) (d_p1 d_p2 : ℕ → A) :
    pipeline (groupOps A) scale threads lanes chains uninit d_p1 d_p2 0 = ∑ i ∈ range (BATCHSIZE scale), n i • d_p1 i ↔
      if scale ≤ 8 then d_p2 0 = ∑ i ∈ range (BATCHSIZE scale), n i • d_p1 i
      else ∑ i ∈ Ico (N_BLOCK scale) (BATCHSIZE scale), n i • d_p1 i = 0 := by
  split
  · rw [pipeline_single ‹_› valid grid order]
  · have fewer : N_BLOCK scale ≤ BATCHSIZE scale := by
      have positive : 0 < BATCHSIZE scale := by unfold BATCHSIZE; positivity
      rw [N_BLOCK, CONST_THREAD_PER_BLOCK]
      omega
    rw [pipeline_apply (by omega) valid grid order, ← sum_range_add_sum_Ico _ fewer]
    exact left_eq_add

private theorem one_chain : IsDoubleBaseChain 1 [(1, 0, 0)] :=
  ⟨⟨0, 0, [], rfl⟩, by simp, List.pairwise_singleton _ _, by simp⟩

private theorem grid_product (scale : ℕ) :
    Grid scale ((List.range (N_BLOCK scale)).product (List.range CONST_THREAD_PER_BLOCK)) := by
  constructor
  · exact List.nodup_range.product List.nodup_range
  · rintro ⟨bx, tx⟩
    simp [List.mem_range]

/-- With every scalar and every point equal to one the pipeline counts the scalars it reaches. -/
theorem pipeline_ones :
    (∀ i < BATCHSIZE 13, IsDoubleBaseChain 1 [(1, 0, 0)]) ∧
      Grid 13 ((List.range (N_BLOCK 13)).product (List.range CONST_THREAD_PER_BLOCK)) ∧
        Lanes (N_BLOCK 13 / 2) (fun _ => List.range (N_BLOCK 13 / 2)) ∧
          pipeline (groupOps ℤ) 13 ((List.range (N_BLOCK 13)).product (List.range CONST_THREAD_PER_BLOCK))
              (fun _ => List.range (N_BLOCK 13 / 2)) (fun _ => [(1, 0, 0)]) (fun _ => (0, 0)) (fun _ => 1) (fun _ => 0) 0 ≠
            ∑ _i ∈ range (BATCHSIZE 13), (1 : ℕ) • (1 : ℤ) := by
  refine ⟨fun _ _ => one_chain, grid_product 13, fun _ => .refl _, ?_⟩
  rw [pipeline_apply (by norm_num) (fun _ _ => one_chain) (grid_product 13) (fun _ => .refl _)]
  simp only [one_smul, sum_const, card_range]
  decide

/-- The points from `N_BLOCK` on are zero, but for two that cancel. -/
def cancelling (i : ℕ) : ℤ :=
  (if i < N_BLOCK 13 then 1 else 0) + (if i = N_BLOCK 13 then 5 else 0) - if i = N_BLOCK 13 + 1 then 5 else 0

theorem pipeline_sum_iff_cancelling :
    pipeline (groupOps ℤ) 13 ((List.range (N_BLOCK 13)).product (List.range CONST_THREAD_PER_BLOCK))
        (fun _ => List.range (N_BLOCK 13 / 2)) (fun _ => [(1, 0, 0)]) (fun _ => (0, 0)) cancelling (fun _ => 0) 0 =
      ∑ i ∈ range (BATCHSIZE 13), 1 • cancelling i := by
  have below : ∑ i ∈ Ico (N_BLOCK 13) (BATCHSIZE 13), (if i < N_BLOCK 13 then (1 : ℤ) else 0) = 0 :=
    sum_eq_zero fun i member => if_neg (Nat.not_lt.mpr (mem_Ico.mp member).1)
  have first : N_BLOCK 13 ∈ Ico (N_BLOCK 13) (BATCHSIZE 13) := mem_Ico.mpr (by decide)
  have second : N_BLOCK 13 + 1 ∈ Ico (N_BLOCK 13) (BATCHSIZE 13) := mem_Ico.mpr (by decide)
  refine (pipeline_sum_iff (fun _ _ => one_chain) (grid_product 13) (fun _ => .refl _) (fun _ => (0, 0)) cancelling
    fun _ => 0).mpr ?_
  rw [if_neg (by norm_num)]
  simp only [one_smul, cancelling, sum_sub_distrib, sum_add_distrib, below, sum_ite_eq', first, second, if_true]
  norm_num

end Pipeline

end DbcSnark.Gpuec.CurveTest
