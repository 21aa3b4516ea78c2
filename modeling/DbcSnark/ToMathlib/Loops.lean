import Mathlib.Algebra.Order.BigOperators.Group.Finset
import Mathlib.Data.List.TakeWhile
import Mathlib.Tactic

/-! # Counted loops as folds

A loop nest over counters is a fold over the list of the positions it visits. This file flattens the
loops that carry a pending value through every turn, evaluates loops with a threshold `break`, and
gives the induction rules for a fold, with or without failing turns: an invariant indexed by the positions
already visited. When the positions are visited in a strict order, everything before a position has been visited at it.
A loop that adds up numbers is known by what holds of the summand of each turn.
-/

namespace Loops

variable {σ α : Type*}

/-- A pending value that every turn maps by `g` is `g^[i]` of its start at turn `i`. -/
theorem foldl_range_iterate (f : σ → α → ℕ → σ) (g : α → α) (s : σ) (x : α) (k : ℕ) :
    (List.range k).foldl (fun acc i => (f acc.1 acc.2 i, g acc.2)) (s, x) =
      ((List.range k).foldl (fun s i => f s (g^[i] x) i) s, g^[k] x) := by
  induction k with
  | zero => rfl
  | succ k ih => simp only [List.range_succ, List.foldl_append, ih, List.foldl_cons, List.foldl_nil,
      Function.iterate_succ_apply']

/-- A counted loop that breaks at a threshold runs up to the threshold. -/
theorem takeWhile_range (a limit k : ℕ) :
    ((List.range k).takeWhile fun i => a + i ≤ limit) = List.range (min k (limit + 1 - a)) := by
  induction k with
  | zero => simp
  | succ k ih =>
    rw [List.range_succ, List.takeWhile_append, ih]
    by_cases full : a + k ≤ limit
    · rw [min_eq_left (by omega), min_eq_left (by omega), if_pos rfl, List.range_succ]
      simp [full]
    · rw [show min (k + 1) (limit + 1 - a) = min k (limit + 1 - a) by omega]
      split
      · simp [full, show min k (limit + 1 - a) = k by simp_all]
      · rfl

/-- A loop that counts down begins with the last index. -/
theorem foldl_reverse_range_succ (f : σ → ℕ → σ) (n : ℕ) (s : σ) :
    (List.range (n + 1)).reverse.foldl f s = (List.range n).reverse.foldl f (f s n) := by
  rw [List.range_succ, List.reverse_append, List.reverse_singleton, List.singleton_append, List.foldl_cons]

/-- Two loops of equally many turns stay related. -/
theorem iterate_rel {β : Type*} {R : α → β → Prop} {f : α → α} {g : β → β} (turn : ∀ a b, R a b → R (f a) (g b)) (k : ℕ)
    {a : α} {b : β} (start : R a b) : R (f^[k] a) (g^[k] b) := by
  induction k generalizing a b with
  | zero => exact start
  | succ k ih =>
    rw [Function.iterate_succ_apply, Function.iterate_succ_apply]
    exact ih (turn a b start)

/-- Induction over a counted loop. -/
theorem foldl_range_induction {P : ℕ → σ → Prop} {f : σ → ℕ → σ} {n : ℕ} {s : σ} (start : P 0 s)
    (turn : ∀ i < n, ∀ s, P i s → P (i + 1) (f s i)) : P n ((List.range n).foldl f s) := by
  induction n with
  | zero => exact start
  | succ n ih =>
    rw [List.range_succ, List.foldl_append]
    exact turn n (Nat.lt_succ_self n) _ (ih fun i inside => turn i (inside.trans (Nat.lt_succ_self n)))

/-- Induction over a loop that counts up from one. -/
theorem foldl_range'_induction {P : ℕ → σ → Prop} {f : σ → ℕ → σ} {n : ℕ} {s : σ} (positive : n ≠ 0) (start : P 1 s)
    (turn : ∀ i, 1 ≤ i → i < n → ∀ s, P i s → P (i + 1) (f s i)) : P n ((List.range' 1 (n - 1)).foldl f s) := by
  obtain ⟨n, rfl⟩ := Nat.exists_eq_succ_of_ne_zero positive
  rw [List.range'_eq_map_range, List.foldl_map, Nat.succ_eq_add_one, Nat.add_sub_cancel]
  refine foldl_range_induction (P := fun i s => P (i + 1) s) start fun i inside s holds => ?_
  rw [Nat.add_comm 1 i]
  exact turn (i + 1) (Nat.le_add_left 1 i) (by omega) s holds

/-- Induction over a loop that counts down to one. -/
theorem foldl_reverse_range'_induction {P : ℕ → σ → Prop} {f : σ → ℕ → σ} {n : ℕ} {s : σ} (positive : n ≠ 0) (start : P n s)
    (turn : ∀ i, 1 ≤ i → i < n → ∀ s, P (i + 1) s → P i (f s i)) : P 1 ((List.range' 1 (n - 1)).reverse.foldl f s) := by
  obtain ⟨n, rfl⟩ := Nat.exists_eq_succ_of_ne_zero positive
  rw [List.range'_eq_map_range, ← List.map_reverse, List.foldl_map, Nat.succ_eq_add_one, Nat.add_sub_cancel]
  rw [Nat.succ_eq_add_one] at start turn
  induction n generalizing s with
  | zero => exact start
  | succ n ih =>
    rw [foldl_reverse_range_succ, Nat.add_comm 1 n]
    exact ih (Nat.succ_ne_zero n) (turn (n + 1) (Nat.le_add_left 1 n) (Nat.lt_succ_self _) s start)
      fun i above below => turn i above (by omega)

/-- A loop whose turns each change a cell of their own. -/
theorem foldl_range_cells {β : Type*} [DecidableEq α] {f : (α → β) → ℕ → α → β} {g : β → β} {address : ℕ → α} {n : ℕ}
    (m : α → β) (apart : ∀ i < n, ∀ j < n, address i = address j → i = j)
    (turn : ∀ m i, f m i = Function.update m (address i) (g (m (address i)))) :
    (∀ i < n, (List.range n).foldl f m (address i) = g (m (address i))) ∧
      ∀ a, (∀ i < n, a ≠ address i) → (List.range n).foldl f m a = m a := by
  have visited : (∀ i < n, (List.range n).foldl f m (address i) = if i < n then g (m (address i)) else m (address i)) ∧
      ∀ a, (∀ i < n, a ≠ address i) → (List.range n).foldl f m a = m a := by
    refine foldl_range_induction (P := fun k (m' : α → β) => (∀ i < n, m' (address i) =
      if i < k then g (m (address i)) else m (address i)) ∧ ∀ a, (∀ i < n, a ≠ address i) → m' a = m a)
      ⟨fun i _ => by rw [if_neg (Nat.not_lt_zero i)], fun _ _ => rfl⟩ ?_
    rintro k inside m' ⟨cells, others⟩
    rw [turn]
    refine ⟨fun i below => ?_, fun a outside => ?_⟩
    · by_cases here : i = k
      · rw [here, Function.update_self, cells k inside, if_neg (lt_irrefl k), if_pos (Nat.lt_succ_self k)]
      · rw [Function.update_of_ne fun same => here (apart i below k inside same), cells i below]
        have earlier : i < k ↔ i < k + 1 := by omega
        simp only [earlier]
    · rw [Function.update_of_ne (outside k inside), others a outside]
  exact ⟨fun i inside => by rw [visited.1 i inside, if_pos inside], visited.2⟩

/-- Induction over a counted loop whose turns can fail: when none of them does, the loop ends. -/
theorem exists_foldlM_range {P : ℕ → σ → Prop} {f : σ → ℕ → Option σ} {n : ℕ} {s : σ} (start : P 0 s)
    (turn : ∀ i < n, ∀ s, P i s → ∃ s', f s i = some s' ∧ P (i + 1) s') :
    ∃ s', (List.range n).foldlM f s = some s' ∧ P n s' := by
  induction n with
  | zero => exact ⟨s, rfl, start⟩
  | succ n ih =>
    obtain ⟨s', ends, holds⟩ := ih fun i inside => turn i (inside.trans (Nat.lt_succ_self n))
    obtain ⟨s'', last, holds'⟩ := turn n (Nat.lt_succ_self n) s' holds
    refine ⟨s'', ?_, holds'⟩
    rw [List.range_succ, List.foldlM_append, ends]
    exact (bind_pure _).trans last

/-- Induction over a fold, with an invariant indexed by the positions already visited. -/
theorem foldl_induction (P : List α → σ → Prop) (f : σ → α → σ) (positions : List α) (s : σ) (start : P [] s)
    (step : ∀ visited a later s, positions = visited ++ a :: later → P visited s → P (visited ++ [a]) (f s a)) :
    P positions (positions.foldl f s) := by
  suffices general : ∀ later visited s, positions = visited ++ later → P visited s →
      P positions (later.foldl f s) from general positions [] s rfl start
  intro later
  induction later with
  | nil =>
    intro visited s split holds
    rw [split, List.append_nil]
    exact holds
  | cons a later ih =>
    intro visited s split holds
    exact ih (visited ++ [a]) (f s a) (by simpa using split) (step visited a later s split holds)

/-- Induction over a fold that can fail: when no turn fails, neither does the fold. -/
theorem foldlM_induction {ε : Type*} (P : List α → σ → Prop) (f : σ → α → Except ε σ) (positions : List α) (s : σ)
    (start : P [] s)
    (step : ∀ visited a later s, positions = visited ++ a :: later → P visited s →
      ∃ s', f s a = .ok s' ∧ P (visited ++ [a]) s') :
    ∃ s', positions.foldlM f s = .ok s' ∧ P positions s' := by
  suffices general : ∀ later visited s, positions = visited ++ later → P visited s →
      ∃ s', later.foldlM f s = .ok s' ∧ P positions s' from general positions [] s rfl start
  intro later
  induction later with
  | nil =>
    intro visited s split holds
    refine ⟨s, rfl, ?_⟩
    rw [split, List.append_nil]
    exact holds
  | cons a later ih =>
    intro visited s split holds
    obtain ⟨s', turn, holds'⟩ := step visited a later s split holds
    obtain ⟨s'', rest, last⟩ := ih (visited ++ [a]) s' (by simpa using split) holds'
    refine ⟨s'', ?_, last⟩
    rw [List.foldlM_cons, turn]
    exact rest

/-- A loop of fallible turns that ends keeps what every turn keeps. -/
theorem foldlM_keeps {σ : Type*} {P : σ → Prop} {f : σ → α → Option σ} {positions : List α} {s s' : σ}
    (step : ∀ a ∈ positions, ∀ s s', f s a = some s' → P s → P s') (ends : positions.foldlM f s = some s') (start : P s) :
    P s' := by
  induction positions generalizing s with
  | nil =>
    cases ends
    exact start
  | cons a later ih =>
    rw [List.foldlM_cons] at ends
    obtain ⟨s₁, turn, rest⟩ := Option.bind_eq_some_iff.mp ends
    exact ih (fun b member => step b (List.mem_cons_of_mem _ member)) rest (step a List.mem_cons_self s s₁ turn start)

/-- It also keeps what one of its turns establishes. -/
theorem foldlM_establishes {σ : Type*} {P : σ → Prop} {f : σ → α → Option σ} {positions : List α} {s s' : σ} {a : α}
    (visited : a ∈ positions) (turn : ∀ s s', f s a = some s' → P s')
    (step : ∀ b ∈ positions, ∀ s s', f s b = some s' → P s → P s') (ends : positions.foldlM f s = some s') : P s' := by
  obtain ⟨before, after, rfl⟩ := List.append_of_mem visited
  rw [List.foldlM_append] at ends
  obtain ⟨s₁, -, ends⟩ := Option.bind_eq_some_iff.mp ends
  rw [List.foldlM_cons] at ends
  obtain ⟨s₂, here, ends⟩ := Option.bind_eq_some_iff.mp ends
  exact foldlM_keeps (fun b member => step b (List.mem_append_right _ (List.mem_cons_of_mem _ member))) ends
    (turn s₁ s₂ here)

/-- A loop whose turns keep `I`, keep `R` where it holds and establish it at their own position ends with `R` at all of
them. -/
theorem foldlM_covers {σ : Type*} {I : σ → Prop} {R : α → σ → Prop} {f : σ → α → Option σ} {positions : List α} {s : σ}
    (step : ∀ a ∈ positions, ∀ s, I s → ∃ s', f s a = some s' ∧ I s' ∧ R a s' ∧ ∀ b, R b s → R b s') (start : I s) :
    ∃ s', positions.foldlM f s = some s' ∧ ∀ a ∈ positions, R a s' := by
  suffices general : ∃ s', positions.foldlM f s = some s' ∧ (∀ a ∈ positions, R a s') ∧ ∀ b, R b s → R b s' by
    obtain ⟨s', ends, all, -⟩ := general
    exact ⟨s', ends, all⟩
  induction positions generalizing s with
  | nil => exact ⟨s, rfl, fun a member => absurd member List.not_mem_nil, fun b holds => holds⟩
  | cons a later ih =>
    obtain ⟨s₁, turn, kept, here, others⟩ := step a List.mem_cons_self s start
    obtain ⟨s₂, rest, all, last⟩ := ih (fun b member => step b (List.mem_cons_of_mem _ member)) kept
    refine ⟨s₂, ?_, fun b member => ?_, fun b holds => last b (others b holds)⟩
    · rw [List.foldlM_cons, turn]
      exact rest
    · rcases List.mem_cons.mp member with rfl | behind
      · exact last b here
      · exact all b behind

/-- In a strict visiting order the positions already visited are the smaller ones. -/
theorem mem_visited_iff {r : α → α → Prop} (asymmetric : ∀ a b, r a b → ¬ r b a) {visited later : List α} {a : α}
    (sorted : (visited ++ a :: later).Pairwise r) (b : α) (member : b ∈ visited ++ a :: later) :
    b ∈ visited ↔ r b a := by
  rw [List.pairwise_append, List.pairwise_cons] at sorted
  obtain ⟨-, ⟨after, -⟩, before⟩ := sorted
  constructor
  · intro present
    exact before b present a List.mem_cons_self
  · intro smaller
    rcases List.mem_append.mp member with present | present
    · exact present
    · rcases List.mem_cons.mp present with rfl | present
      · exact absurd smaller (asymmetric b b smaller)
      · exact absurd smaller (asymmetric a b (after b present))

/-- What a loop of partial turns collects comes from its positions. -/
theorem exists_of_mem_mapM {β : Type*} {f : α → Option β} {positions : List α} {results : List β}
    (ends : positions.mapM f = some results) : ∀ y ∈ results, ∃ x ∈ positions, f x = some y := by
  induction positions generalizing results with
  | nil =>
    intro y member
    obtain rfl : [] = results := Option.some.inj ends
    simp at member
  | cons x positions ih =>
    simp only [List.mapM_cons, Option.bind_eq_bind, Option.bind_eq_some_iff] at ends
    obtain ⟨y, here, rest, later, collected⟩ := ends
    obtain rfl : y :: rest = results := Option.some.inj collected
    intro z member
    rcases List.mem_cons.mp member with rfl | behind
    · exact ⟨x, List.mem_cons_self, here⟩
    · obtain ⟨x', inside, result⟩ := ih later z behind
      exact ⟨x', List.mem_cons_of_mem _ inside, result⟩

/-- A loop whose turns all succeed collects one result for each position. -/
theorem exists_mapM {β : Type*} {f : α → Option β} {positions : List α} (total : ∀ x ∈ positions, ∃ y, f x = some y) :
    ∃ results, positions.mapM f = some results ∧ results.length = positions.length := by
  induction positions with
  | nil => exact ⟨[], rfl, rfl⟩
  | cons x positions ih =>
    obtain ⟨y, here⟩ := total x List.mem_cons_self
    obtain ⟨rest, later, size⟩ := ih fun x' member => total x' (List.mem_cons_of_mem _ member)
    refine ⟨y :: rest, ?_, congrArg (· + 1) size⟩
    rw [List.mapM_cons, here, later]
    rfl

/-- A loop over fewer positions collects an initial part. -/
theorem mapM_initial {β : Type*} {f : α → Option β} {positions positions' : List α} {results results' : List β}
    (shorter : positions <+: positions') (ends : positions.mapM f = some results)
    (ends' : positions'.mapM f = some results') : results <+: results' := by
  obtain ⟨rest, rfl⟩ := shorter
  rw [List.mapM_append, ends] at ends'
  simp only [Option.bind_eq_bind, Option.bind_some, Option.bind_eq_some_iff] at ends'
  obtain ⟨later, -, collected⟩ := ends'
  exact ⟨later, Option.some.inj collected⟩

/-! ## Sums -/

section Sums

variable {M : Type*} [AddCommMonoid M] {P Q : ℕ → M → Prop} {n : ℕ} {x y : M}

/-- A sum in which every summand has the property of its turn. -/
def Total (P : ℕ → M → Prop) (n : ℕ) (x : M) : Prop :=
  ∃ t : ℕ → M, x = ∑ i ∈ Finset.range n, t i ∧ ∀ i < n, P i (t i)

theorem total_zero : Total P 0 0 := ⟨fun _ => 0, rfl, fun _ inside => absurd inside (Nat.not_lt_zero _)⟩

theorem Total.add (total : Total P n x) (holds : P n y) : Total P (n + 1) (x + y) := by
  obtain ⟨t, rfl, each⟩ := total
  have earlier {i : ℕ} (inside : i < n) : Function.update t n y i = t i := Function.update_of_ne inside.ne _ _
  refine ⟨Function.update t n y, ?_, fun i inside => ?_⟩
  · rw [Finset.sum_range_succ, Function.update_self]
    exact congrArg (· + y) (Finset.sum_congr rfl fun i member => (earlier (Finset.mem_range.mp member)).symm)
  · rcases Nat.lt_succ_iff_lt_or_eq.mp inside with before | rfl
    · rw [earlier before]
      exact each i before
    · rwa [Function.update_self]

/-- Sums compare as their summands do. -/
theorem Total.le [PartialOrder M] [IsOrderedAddMonoid M] (total : Total P n x) (total' : Total Q n y)
    (le : ∀ i < n, ∀ s t, P i s → Q i t → s ≤ t) : x ≤ y := by
  obtain ⟨s, rfl, left⟩ := total
  obtain ⟨t, rfl, right⟩ := total'
  refine Finset.sum_le_sum fun i member => ?_
  have inside := Finset.mem_range.mp member
  exact le i inside _ _ (left i inside) (right i inside)

end Sums

end Loops
