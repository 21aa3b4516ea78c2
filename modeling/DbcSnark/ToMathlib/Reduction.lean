import Mathlib.Algebra.BigOperators.Intervals
import Mathlib.Tactic

/-! # Tree reductions in lock step

In a round with stride `i` every thread `k < i` combines its own cell with the one `i` further on. Threads of
one round write cells below `i` and read, besides their own, cells from `i` on, so the order in which they run
does not matter. Rounds with halving strides leave the combination of all cells in the first one.
-/

namespace Reduction

variable {α M : Type*} (op : α → α → α)

/-- Thread `k` of the round with stride `i`. -/
def turn (i : ℕ) (s : ℕ → α) (k : ℕ) : ℕ → α := if k < i then Function.update s k (op (s k) (s (k + i))) else s

/-- The round with stride `i`, all threads at once. -/
def round (i : ℕ) (s : ℕ → α) : ℕ → α := fun k => if k < i then op (s k) (s (k + i)) else s k

private theorem foldl_turn_apply (i : ℕ) (threads : List ℕ) (once : threads.Nodup) (s : ℕ → α) (k : ℕ) :
    threads.foldl (turn op i) s k = if k ∈ threads then round op i s k else s k := by
  induction threads generalizing s with
  | nil => simp
  | cons t threads ih =>
    obtain ⟨fresh, rest⟩ := List.nodup_cons.mp once
    rw [List.foldl_cons, ih rest]
    by_cases own : k = t
    · subst own
      simp only [fresh, if_false, List.mem_cons_self, if_true, turn, round]
      split <;> simp
    · have here : turn op i s t k = s k := by
        simp only [turn]
        split
        · exact Function.update_of_ne own _ _
        · rfl
      have there : k < i → turn op i s t (k + i) = s (k + i) := by
        intro _
        simp only [turn]
        split
        · exact Function.update_of_ne (by omega) _ _
        · rfl
      simp only [List.mem_cons, own, false_or, round, here]
      split
      · split
        · rw [there ‹_›]
        · rfl
      · rfl

/-- The threads of a round may run in any order. -/
theorem foldl_turn (i : ℕ) {threads : List ℕ} (once : threads.Nodup) (all : ∀ k < i, k ∈ threads) (s : ℕ → α) :
    threads.foldl (turn op i) s = round op i s := by
  funext k
  rw [foldl_turn_apply op i threads once]
  split
  · rfl
  · rename_i absent
    rw [round, if_neg fun below => absent (all k below)]

/-- The strides of `for (i = n; i; i >>= 1)`. -/
def strides : ℕ → List ℕ
  | 0 => []
  | n + 1 => (n + 1) :: strides ((n + 1) / 2)

@[simp] theorem strides_zero : strides 0 = [] := by rw [strides]

theorem strides_pow_succ (k : ℕ) : strides (2 ^ (k + 1)) = 2 ^ (k + 1) :: strides (2 ^ k) := by
  obtain ⟨m, size⟩ := Nat.exists_eq_add_one.mpr (Nat.two_pow_pos (k + 1))
  rw [size, strides, ← size, pow_succ, Nat.mul_div_cancel _ (by norm_num)]

theorem strides_one : strides 1 = [1] := by
  rw [strides, show (0 + 1) / 2 = 0 from rfl, strides]

theorem le_of_mem_strides {n i : ℕ} (member : i ∈ strides n) : i ≤ n := by
  induction n using strides.induct with
  | case1 => simp at member
  | case2 n ih =>
    rw [strides] at member
    rcases List.mem_cons.mp member with rfl | later
    · exact le_rfl
    · exact (ih later).trans (Nat.div_le_self _ _)

/-- Rounds with the strides of such a loop. -/
def reduce (n : ℕ) (s : ℕ → α) : ℕ → α := (strides n).foldl (fun s i => round op i s) s

/-- The cells from the first stride on are left alone. -/
theorem reduce_of_le {n k : ℕ} (beyond : n ≤ k) (s : ℕ → α) : reduce op n s k = s k := by
  have rounds : ∀ (list : List ℕ) (s : ℕ → α), (∀ i ∈ list, i ≤ k) → list.foldl (fun s i => round op i s) s k = s k := by
    intro list
    induction list with
    | nil => exact fun _ _ => rfl
    | cons i list ih =>
      intro s below
      rw [List.foldl_cons, ih _ fun i' member => below i' (List.mem_cons_of_mem i member), round,
        if_neg (Nat.not_lt.mpr (below i List.mem_cons_self))]
  exact rounds _ s fun i member => (le_of_mem_strides member).trans beyond

/-- The round with stride `i` of a tree over `n` cells with doubling strides. -/
def merge (n i : ℕ) (s : ℕ → α) : ℕ → α := fun k => if k < n ∧ k % (2 * i) = 0 then op (s k) (s (k + i)) else s k

/-- The strides `1, 2, ..., 2 ^ (r - 1)`. -/
def doublings (r : ℕ) : List ℕ := (List.range r).map (2 ^ ·)

section Sum

variable [AddCommMonoid M] {op} {Rel : α → M → Prop} (sums : ∀ a b x y, Rel a x → Rel b y → Rel (op a b) (x + y))

include sums

private theorem round_pow (k : ℕ) (s : ℕ → α) (x : ℕ → M) (start : ∀ j < 2 ^ (k + 1), Rel (s j) (x j)) :
    ∀ j < 2 ^ k, Rel (round op (2 ^ k) s j) (x j + x (2 ^ k + j)) := by
  intro j below
  have double : 2 ^ (k + 1) = 2 ^ k + 2 ^ k := by ring
  rw [round, if_pos below, Nat.add_comm j]
  exact sums _ _ _ _ (start j (by omega)) (start (2 ^ k + j) (by omega))

/-- When `op` computes sums, halving strides leave the sum of all cells in the first one. -/
theorem reduce_pow (k : ℕ) (s : ℕ → α) (x : ℕ → M) (start : ∀ j < 2 ^ (k + 1), Rel (s j) (x j)) :
    Rel (reduce op (2 ^ k) s 0) (∑ j ∈ Finset.range (2 ^ (k + 1)), x j) := by
  induction k generalizing s x with
  | zero =>
    have last := round_pow sums 0 s x start 0 (by norm_num)
    rw [reduce, pow_zero, strides_one]
    simpa [Finset.sum_range_succ] using last
  | succ k ih =>
    have double : 2 ^ (k + 1 + 1) = 2 ^ (k + 1) + 2 ^ (k + 1) := by ring
    rw [reduce, strides_pow_succ, List.foldl_cons, double, Finset.sum_range_add, ← Finset.sum_add_distrib]
    exact ih (round op (2 ^ (k + 1)) s) (fun j => x j + x (2 ^ (k + 1) + j)) (round_pow sums (k + 1) s x start)

/-- The same for any power of two cells, of which there may be one. -/
theorem reduce_half (r : ℕ) (s : ℕ → α) (x : ℕ → M) (start : ∀ j < 2 ^ r, Rel (s j) (x j)) :
    Rel (reduce op (2 ^ r / 2) s 0) (∑ j ∈ Finset.range (2 ^ r), x j) := by
  cases r with
  | zero =>
    rw [reduce, show 2 ^ 0 / 2 = 0 from rfl, strides_zero, pow_zero, Finset.sum_range_one]
    exact start 0 one_pos
  | succ k =>
    rw [show 2 ^ (k + 1) / 2 = 2 ^ k by omega]
    exact reduce_pow sums k s x start

/-- The second cell is left with the sum of all cells that have an odd index. -/
theorem reduce_odd (k : ℕ) (s : ℕ → α) (x : ℕ → M) (start : ∀ j < 2 ^ (k + 1), Rel (s j) (x j)) :
    Rel (reduce op (2 ^ k) s 1) (∑ j ∈ Finset.range (2 ^ k), x (2 * j + 1)) := by
  induction k generalizing s x with
  | zero =>
    rw [reduce_of_le op (by norm_num), pow_zero, Finset.sum_range_one]
    exact start 1 (by norm_num)
  | succ k ih =>
    have double : 2 ^ (k + 1) = 2 ^ k + 2 ^ k := by ring
    have later : ∀ j, 2 * (2 ^ k + j) + 1 = 2 ^ (k + 1) + (2 * j + 1) := by
      intro j
      rw [double]
      ring
    have rest := ih (round op (2 ^ (k + 1)) s) (fun j => x j + x (2 ^ (k + 1) + j)) (round_pow sums (k + 1) s x start)
    rw [Finset.sum_add_distrib] at rest
    rw [reduce, strides_pow_succ, List.foldl_cons]
    rw [show Finset.range (2 ^ (k + 1)) = Finset.range (2 ^ k + 2 ^ k) by rw [double], Finset.sum_range_add]
    simp only [later]
    exact rest

/-- After the rounds with the first `t` doubling strides an aligned cell has the sum of the `2 ^ t` cells from it on. -/
theorem foldl_merge_aligned {r t k : ℕ} (s : ℕ → α) (x : ℕ → M) (start : ∀ j < 2 ^ r, Rel (s j) (x j)) (inside : t ≤ r)
    (below : k < 2 ^ r) (aligned : k % 2 ^ t = 0) :
    Rel ((doublings t).foldl (fun s i => merge op (2 ^ r) i s) s k) (∑ j ∈ Finset.range (2 ^ t), x (k + j)) := by
  induction t generalizing k with
  | zero => simpa [doublings] using start k below
  | succ t ih =>
    have double : 2 ^ (t + 1) = 2 * 2 ^ t := pow_succ' 2 t
    have split : 2 ^ (t + 1) = 2 ^ t + 2 ^ t := by omega
    rw [double] at aligned
    have divides : 2 ^ (t + 1) ∣ 2 ^ r := pow_dvd_pow 2 inside
    have here : k % 2 ^ t = 0 := Nat.mod_eq_zero_of_dvd ((Dvd.intro_left 2 rfl).trans (Nat.dvd_of_mod_eq_zero aligned))
    have further : k + 2 ^ t < 2 ^ r := by
      obtain ⟨q, rfl⟩ := Nat.dvd_of_mod_eq_zero aligned
      obtain ⟨w, width⟩ := divides
      rw [width, double] at below ⊢
      have next : q + 1 ≤ w := Nat.lt_of_mul_lt_mul_left below
      calc 2 * 2 ^ t * q + 2 ^ t < 2 * 2 ^ t * q + 2 * 2 ^ t := by have := Nat.two_pow_pos t; omega
        _ = 2 * 2 ^ t * (q + 1) := by ring
        _ ≤ 2 * 2 ^ t * w := Nat.mul_le_mul_left _ next
    have there : (k + 2 ^ t) % 2 ^ t = 0 := by rw [Nat.add_mod_right, here]
    have both := sums _ _ _ _ (ih (by omega) below here) (ih (by omega) further there)
    rw [split, Finset.sum_range_add, doublings, List.range_succ, List.map_append, List.foldl_append]
    simp only [List.map_cons, List.map_nil, List.foldl_cons, List.foldl_nil]
    rw [merge, if_pos ⟨below, aligned⟩]
    simpa only [doublings, add_assoc] using both

/-- When `op` computes sums, doubling strides leave the sum of all cells in the first one. -/
theorem foldl_merge (r : ℕ) (s : ℕ → α) (x : ℕ → M) (start : ∀ j < 2 ^ r, Rel (s j) (x j)) :
    Rel ((doublings r).foldl (fun s i => merge op (2 ^ r) i s) s 0) (∑ j ∈ Finset.range (2 ^ r), x j) := by
  simpa using foldl_merge_aligned sums s x start le_rfl (Nat.two_pow_pos r) (Nat.zero_mod _)

end Sum

end Reduction
