import Mathlib.Data.List.Range
import Mathlib.Logic.Function.Basic
import Mathlib.Tactic

/-! # Statements of lanes in step

Lanes in step compute their values in the memory in front of the statement and store them at consecutive cells, or
wherever each of them is told. A lane that is not active stores nothing.
-/

namespace Lanes

variable {α : Type*}

/-- The lanes below `n` store their values at the cells from `off` on. -/
def store (n off : ℕ) (val : ℕ → α) (s : ℕ → α) : ℕ → α :=
  fun c => if off ≤ c ∧ c < off + n then val (c - off) else s c

/-- The same for values that need not exist. -/
def storeM (n off : ℕ) (val : ℕ → Option α) (s : ℕ → α) : Option (ℕ → α) :=
  (List.range n).foldlM (fun s' i => (val i).map (Function.update s' (off + i))) s

/-- The active lanes store their values, and the cells of the others keep theirs. -/
def storeIf (active : ℕ → Prop) [DecidablePred active] (n off : ℕ) (val : ℕ → α) (s : ℕ → α) : ℕ → α :=
  store n off (fun i => if active i then val i else s (off + i)) s

/-- The same for values that need not exist. -/
def storeIfM (active : ℕ → Prop) [DecidablePred active] (n off : ℕ) (val : ℕ → Option α) (s : ℕ → α) : Option (ℕ → α) :=
  storeM n off (fun i => if active i then val i else some (s (off + i))) s

/-- Each active lane stores its value at an address of its own. -/
def scatter (active : ℕ → Prop) [DecidablePred active] (n : ℕ) (addr : ℕ → ℕ) (val : ℕ → α) (s : ℕ → α) : ℕ → α :=
  (List.range n).foldl (fun s' i => if active i then Function.update s' (addr i) (val i) else s') s

/-- The cells from `off` on, as one finds them at the address `off`. -/
def shift (off : ℕ) (s : ℕ → α) : ℕ → α := fun i => s (off + i)

/-- The cells from `off` on are those of `r`. -/
def splice (off : ℕ) (r s : ℕ → α) : ℕ → α := fun c => if off ≤ c then r (c - off) else s c

variable {n off c : ℕ} {s : ℕ → α}

theorem store_lane {val : ℕ → α} {i : ℕ} (lane : i < n) : store n off val s (off + i) = val i := by
  rw [store, if_pos ⟨Nat.le_add_right _ _, Nat.add_lt_add_left lane _⟩, Nat.add_sub_cancel_left]

theorem store_first {val : ℕ → α} {i : ℕ} (lane : i < n) : store n 0 val s i = val i := by
  rw [store, if_pos ⟨Nat.zero_le i, by omega⟩, Nat.sub_zero]

theorem store_outside {val : ℕ → α} (outside : c < off ∨ off + n ≤ c) : store n off val s c = s c := by
  rw [store, if_neg (by omega)]

theorem store_congr {val val' : ℕ → α} (same : ∀ i < n, val i = val' i) : store n off val s = store n off val' s := by
  funext c
  rw [store, store]
  split
  · rw [same _ (by omega)]
  · rfl

theorem splice_shift {r : ℕ → α} {i : ℕ} : splice off r s (off + i) = r i := by
  rw [splice, if_pos (Nat.le_add_right _ _), Nat.add_sub_cancel_left]

theorem splice_before {r : ℕ → α} (before : c < off) : splice off r s c = s c := by
  rw [splice, if_neg (Nat.not_le.mpr before)]

/-- When all lanes have a value, each of them stores its own. -/
theorem storeM_spec {val : ℕ → Option α} {Rel : ℕ → α → Prop} (values : ∀ i < n, ∃ v, val i = some v ∧ Rel i v) :
    ∃ s', storeM n off val s = some s' ∧ (∀ i < n, Rel i (s' (off + i))) ∧ ∀ c, c < off ∨ off + n ≤ c → s' c = s c := by
  induction n with
  | zero => exact ⟨s, rfl, fun i lane => absurd lane (Nat.not_lt_zero i), fun _ _ => rfl⟩
  | succ n ih =>
    obtain ⟨s', stored, holds, frame⟩ := ih fun i lane => values i (Nat.lt_succ_of_lt lane)
    obtain ⟨v, value, last⟩ := values n (Nat.lt_succ_self n)
    refine ⟨Function.update s' (off + n) v, ?_, fun i lane => ?_, fun c outside => ?_⟩
    · rw [storeM, List.range_succ, List.foldlM_append]
      rw [storeM] at stored
      simp [stored, value]
    · rcases Nat.lt_succ_iff_lt_or_eq.mp lane with earlier | rfl
      · rw [Function.update_of_ne (by omega)]
        exact holds i earlier
      · rw [Function.update_self]
        exact last
    · rw [Function.update_of_ne (by omega), frame c (by omega)]

section Blocks

variable {w : ℕ}

private theorem block_apart {i j k : ℕ} (other : i < j) (inside : k < w) : i * w + k < j * w := by
  have next : i * w + w ≤ j * w := by
    rw [← Nat.succ_mul]
    exact Nat.mul_le_mul_right w other
  omega

/-- The turns of a loop store the blocks of their own numbers. -/
theorem foldlM_store_spec {val : ℕ → Option (ℕ → α)} {Rel : ℕ → (ℕ → α) → Prop}
    (values : ∀ i < n, ∃ v, val i = some v ∧ Rel i v) :
    ∃ s', (List.range n).foldlM (fun s i => (val i).map fun v => store w (i * w) v s) s = some s' ∧
      ∀ i < n, ∃ v, Rel i v ∧ ∀ k < w, s' (i * w + k) = v k := by
  induction n with
  | zero => exact ⟨s, rfl, fun i lane => absurd lane (Nat.not_lt_zero i)⟩
  | succ n ih =>
    obtain ⟨s', stored, blocks⟩ := ih fun i lane => values i (Nat.lt_succ_of_lt lane)
    obtain ⟨v, value, rel⟩ := values n (Nat.lt_succ_self n)
    refine ⟨store w (n * w) v s', ?_, fun i lane => ?_⟩
    · rw [List.range_succ, List.foldlM_append, stored]
      simp [value]
    · rcases Nat.lt_succ_iff_lt_or_eq.mp lane with earlier | rfl
      · obtain ⟨u, rel', cells⟩ := blocks i earlier
        refine ⟨u, rel', fun k inside => ?_⟩
        rw [store_outside (.inl (block_apart earlier inside)), cells k inside]
      · exact ⟨v, rel, fun k inside => store_lane inside⟩

/-- A loop that changes the first cells of each block, one block a turn. -/
theorem foldl_store_block {size : ℕ → ℕ} {f : α → α} (sizes : ∀ i < n, size i ≤ w) {i k : ℕ} (lane : i < n)
    (inside : k < w) :
    (List.range n).foldl (fun s i => store (size i) (i * w) (fun k => f (s (i * w + k))) s) s (i * w + k) =
      if k < size i then f (s (i * w + k)) else s (i * w + k) := by
  have beyond : ∀ m ≤ i, (List.range m).foldl
      (fun s i => store (size i) (i * w) (fun k => f (s (i * w + k))) s) s (i * w + k) = s (i * w + k) := by
    intro m below
    induction m with
    | zero => rfl
    | succ m ih =>
      have before : m < i := below
      have size_m := sizes m (by omega)
      have next : m * w + w ≤ i * w := by
        rw [← Nat.succ_mul]
        exact Nat.mul_le_mul_right w before
      rw [List.range_succ, List.foldl_append, List.foldl_cons, List.foldl_nil, store_outside (.inr (by omega)),
        ih (by omega)]
  induction n with
  | zero => exact absurd lane (Nat.not_lt_zero i)
  | succ n ih =>
    rw [List.range_succ, List.foldl_append, List.foldl_cons, List.foldl_nil]
    rcases Nat.lt_succ_iff_lt_or_eq.mp lane with earlier | rfl
    · rw [store_outside (.inl (block_apart earlier inside)), ih (fun j less => sizes j (by omega)) earlier]
    · split
      · rw [store_lane ‹_›, beyond i le_rfl]
      · rw [store_outside (.inr (by omega)), beyond i le_rfl]

end Blocks

section Active

variable {active : ℕ → Prop} [DecidablePred active]

theorem storeIf_lane {val : ℕ → α} {i : ℕ} (lane : i < n) :
    storeIf active n off val s (off + i) = if active i then val i else s (off + i) := store_lane lane

theorem storeIf_outside {val : ℕ → α} (outside : c < off ∨ off + n ≤ c) : storeIf active n off val s c = s c :=
  store_outside outside

/-- When all active lanes have a value, each of them stores its own. -/
theorem storeIfM_spec {val : ℕ → Option α} {Rel : ℕ → α → Prop}
    (values : ∀ i < n, active i → ∃ v, val i = some v ∧ Rel i v) :
    ∃ s', storeIfM active n off val s = some s' ∧ (∀ i < n, active i → Rel i (s' (off + i))) ∧
      ∀ c, c < off ∨ off + n ≤ c → s' c = s c := by
  refine @storeM_spec _ n off s _ (fun i v => active i → Rel i v) fun i lane => ?_
  by_cases works : active i
  · obtain ⟨v, value, rel⟩ := values i lane works
    exact ⟨v, by rw [if_pos works, value], fun _ => rel⟩
  · exact ⟨_, if_neg works, fun absurdity => absurd absurdity works⟩

private theorem scatter_succ {addr : ℕ → ℕ} {val : ℕ → α} : scatter active (n + 1) addr val s =
    if active n then Function.update (scatter active n addr val s) (addr n) (val n) else scatter active n addr val s := by
  simp only [scatter, List.range_succ, List.foldl_append, List.foldl_cons, List.foldl_nil]

theorem scatter_outside {addr : ℕ → ℕ} {val : ℕ → α} (outside : ∀ i < n, active i → addr i ≠ c) :
    scatter active n addr val s c = s c := by
  induction n with
  | zero => rfl
  | succ n ih =>
    have before := ih fun i lane => outside i (Nat.lt_succ_of_lt lane)
    rw [scatter_succ]
    split
    · rw [Function.update_of_ne (outside n (Nat.lt_succ_self n) ‹_›).symm, before]
    · exact before

/-- A value stays where no other lane stores. -/
theorem scatter_lane {addr : ℕ → ℕ} {val : ℕ → α} {i : ℕ} (lane : i < n) (works : active i)
    (apart : ∀ j < n, active j → addr j = addr i → j = i) : scatter active n addr val s (addr i) = val i := by
  induction n with
  | zero => exact absurd lane (Nat.not_lt_zero i)
  | succ n ih =>
    rw [scatter_succ]
    rcases Nat.lt_succ_iff_lt_or_eq.mp lane with earlier | rfl
    · have before := ih earlier fun j lane => apart j (Nat.lt_succ_of_lt lane)
      split
      · have other : addr i ≠ addr n := fun same => by
          have := apart n (Nat.lt_succ_self n) ‹_› same.symm
          omega
        rw [Function.update_of_ne other, before]
      · exact before
    · rw [if_pos works, Function.update_self]

end Active

end Lanes
