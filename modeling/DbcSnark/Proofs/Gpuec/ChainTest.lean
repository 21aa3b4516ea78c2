import DbcSnark.Model.Gpuec.ChainTest

/-! # What the tree of the chain test adds up

Every round combines the same pairs of cells again, since the indices do not depend on the counter. No round writes a
cell with an odd index, so the first cell gains the second one once for each round and nothing else.
-/

namespace DbcSnark.Gpuec.ChainTest

open Finset

section Rounds

variable {J : Type*} (op : J → J → J) (i : ℕ)

private theorem lane_one (s : ℕ → J) (tx : ℕ) : lane op i s tx 1 = s 1 := by
  rw [lane]
  split
  · exact Function.update_of_ne (by omega) _ _
  · rfl

private theorem foldl_lane_one (threads : List ℕ) (s : ℕ → J) : threads.foldl (lane op i) s 1 = s 1 := by
  induction threads generalizing s with
  | nil => rfl
  | cons tx threads ih => rw [List.foldl_cons, ih, lane_one]

private theorem lane_zero_of_ne {tx : ℕ} (other : tx ≠ 0) (s : ℕ → J) : lane op i s tx 0 = s 0 := by
  rw [lane]
  split
  · exact Function.update_of_ne (by omega) _ _
  · rfl

/-- Whatever the order of the lanes, the first cell gains the second one. -/
private theorem foldl_lane_zero (positive : 0 < i) {threads : List ℕ} (once : threads.Nodup) (s : ℕ → J) :
    threads.foldl (lane op i) s 0 = if 0 ∈ threads then op (s 0) (s 1) else s 0 := by
  induction threads generalizing s with
  | nil => rfl
  | cons tx threads ih =>
    obtain ⟨fresh, rest⟩ := List.nodup_cons.mp once
    rw [List.foldl_cons, ih rest, lane_one]
    rcases eq_or_ne tx 0 with rfl | other
    · rw [if_neg fresh, if_pos List.mem_cons_self, lane, if_pos positive]
      exact Function.update_self _ _ _
    · simp only [lane_zero_of_ne op i other, List.mem_cons, other.symm, false_or]

end Rounds

variable {A : Type*} [AddCommGroup A]

/-- Orders of the lanes of `<<<1, nthread>>>` in every round. -/
def Lanes (nthread : ℕ) (lanes : ℕ → List ℕ) : Prop := ∀ i, (lanes i).Perm (List.range nthread)

/-- The first cell after the tree in a block of `2 ^ k` threads. -/
theorem accumulate_sum_zero (k : ℕ) {lanes : ℕ → List ℕ} (order : Lanes (2 ^ k) lanes) (s : ℕ → A) :
    accumulate_sum (· + ·) (2 ^ k) lanes s 0 = s 0 + k • s 1 := by
  have run : ∀ (rounds : List ℕ), (∀ i ∈ rounds, 0 < i) → ∀ s : ℕ → A,
      rounds.foldl (fun s i => (lanes i).foldl (lane (· + ·) i) s) s 0 = s 0 + rounds.length • s 1 := by
    intro rounds
    induction rounds with
    | nil =>
      intro _ s
      rw [List.length_nil, zero_smul, add_zero]
      rfl
    | cons i rounds ih =>
      intro positive s
      have listed : 0 ∈ lanes i := (order i).mem_iff.mpr (List.mem_range.mpr (Nat.two_pow_pos k))
      rw [List.foldl_cons, ih (fun j member => positive j (List.mem_cons_of_mem _ member)), foldl_lane_one,
        foldl_lane_zero _ _ (positive i List.mem_cons_self) ((order i).nodup_iff.mpr List.nodup_range), if_pos listed,
        List.length_cons, succ_nsmul', add_assoc]
  have rounds : ∀ k, (∀ i ∈ Reduction.strides (2 ^ k / 2), 0 < i) ∧ (Reduction.strides (2 ^ k / 2)).length = k := by
    intro k
    induction k with
    | zero => exact ⟨by simp, by simp⟩
    | succ k ih =>
      rw [pow_succ, Nat.mul_div_cancel _ (by decide)]
      have stride : Reduction.strides (2 ^ k) = 2 ^ k :: Reduction.strides (2 ^ k / 2) := by
        obtain ⟨m, size⟩ := Nat.exists_eq_add_one.mpr (Nat.two_pow_pos k)
        rw [size, Reduction.strides]
      rw [stride]
      exact ⟨List.forall_mem_cons.mpr ⟨Nat.two_pow_pos k, ih.1⟩, congrArg Nat.succ ih.2⟩
  rw [accumulate_sum, run _ (rounds k).1, (rounds k).2]

/-- The tree finds the sum of all cells exactly when the cells from the second one on add up to the multiple of the
second one by the number of rounds. -/
theorem accumulate_sum_iff (k : ℕ) {lanes : ℕ → List ℕ} (order : Lanes (2 ^ k) lanes) (s : ℕ → A) :
    accumulate_sum (· + ·) (2 ^ k) lanes s 0 = ∑ j ∈ range (2 ^ k), s j ↔ k • s 1 = ∑ j ∈ Ico 1 (2 ^ k), s j := by
  rw [accumulate_sum_zero k order, range_eq_Ico, sum_eq_sum_Ico_succ_bot (Nat.two_pow_pos k), add_right_inj]

theorem accumulate_sum_iff_two :
    accumulate_sum (· + ·) (2 ^ 1) (fun _ => List.range (2 ^ 1)) (fun j => (j : ℤ)) 0 = ∑ j ∈ range (2 ^ 1), (j : ℤ) ↔
      1 • (1 : ℤ) = ∑ j ∈ Ico 1 (2 ^ 1), (j : ℤ) :=
  accumulate_sum_iff 1 (fun _ => .refl _) fun j => (j : ℤ)

/-- With four threads the second cell is counted twice and the last two are left out. -/
theorem accumulate_sum_four : ¬ ∀ (k : ℕ) (s : ℕ → ℤ),
    accumulate_sum (· + ·) (2 ^ k) (fun _ => List.range (2 ^ k)) s 0 = ∑ j ∈ range (2 ^ k), s j := by
  intro claim
  have four := claim 2 fun j => (j : ℤ)
  rw [accumulate_sum_zero 2 (fun _ => .refl _)] at four
  exact absurd four (by decide)

end DbcSnark.Gpuec.ChainTest
