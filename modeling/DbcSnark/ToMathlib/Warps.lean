import Mathlib.Data.List.Count
import Mathlib.Data.List.GetD
import Mathlib.Data.Set.Basic
import Mathlib.Tactic

/-! # Warps without a barrier

Between two barriers every warp of a block takes the same statements, each at its own pace. The lanes of one warp are in
step, so a statement changes the cells of its warp all at once. A warp that reads its own cells only ends as it would
alone, whatever the order. Where it reads a cell of another one, it matters how far that one has come.
-/

namespace Warps

variable {σ α : Type*}

/-- An order in which each of the warps takes all its statements: the warp of each turn, the latest turn first. -/
structure Order (warps statements : ℕ) where
  history : List ℕ
  inside : ∀ w ∈ history, w < warps
  complete : ∀ w < warps, history.count w = statements

/-- The state after the turns: in its turn a warp takes the next one of the statements. -/
def run (statements : List (ℕ → σ → σ)) : List ℕ → σ → σ
  | [], s => s
  | w :: before, s => statements.getD (before.count w) (fun _ s => s) w (run statements before s)

/-- What a warp does alone. -/
def alone (statements : List (ℕ → σ → σ)) (w : ℕ) (s : σ) : σ := statements.foldl (fun s statement => statement w s) s

/-- The number of statements that the warp `w` has taken when `v` takes its statement `k`. -/
def ahead (v k w : ℕ) : List ℕ → ℕ
  | [] => 0
  | u :: before => if u = v ∧ before.count v = k then before.count w else ahead v k w before

/-- Only the warp's own part of a statement for all cells, `width` of them a warp. -/
def part (width : ℕ) (statement : (ℕ → α) → ℕ → α) (w : ℕ) (s : ℕ → α) : ℕ → α :=
  fun c => if c / width = w then statement s c else s c

/-! ## Turns -/

theorem ahead_of_untaken {v k w : ℕ} {history : List ℕ} (untaken : history.count v ≤ k) : ahead v k w history = 0 := by
  induction history with
  | nil => rfl
  | cons u before ih =>
    have fewer : before.count v ≤ k := (List.count_le_count_cons).trans untaken
    rw [ahead, if_neg, ih fewer]
    rintro ⟨rfl, taken⟩
    rw [List.count_cons_self] at untaken
    omega

theorem ahead_le_count {v k w : ℕ} {history : List ℕ} : ahead v k w history ≤ history.count w := by
  induction history with
  | nil => exact le_rfl
  | cons u before ih =>
    rw [ahead]
    split
    · exact List.count_le_count_cons
    · exact ih.trans List.count_le_count_cons

/-- A turn does not change how far the others were in an earlier one. -/
theorem ahead_before {u v k w : ℕ} {before : List ℕ} : ahead v k w before ≤ ahead v k w (u :: before) := by
  rw [ahead]
  split
  · rw [ahead_of_untaken (by omega)]
    exact Nat.zero_le _
  · exact le_rfl

/-- Nor do any number of turns. -/
theorem ahead_append {v k w : ℕ} {later before : List ℕ} (taken : k < before.count v) :
    ahead v k w (later ++ before) = ahead v k w before := by
  induction later with
  | nil => rfl
  | cons u later ih =>
    rw [List.cons_append, ahead, if_neg, ih]
    rintro ⟨-, now⟩
    rw [List.count_append] at now
    omega

/-- All warps take each statement one after another. -/
def Order.inStep (warps statements : ℕ) : Order warps statements where
  history := (List.replicate statements (List.range warps)).flatten
  inside w member := by
    obtain ⟨round, repeated, member⟩ := List.mem_flatten.mp member
    rw [List.eq_of_mem_replicate repeated] at member
    exact List.mem_range.mp member
  complete w inside := by
    rw [List.count_flatten, List.map_replicate, List.sum_replicate, List.count_range, if_pos inside, smul_eq_mul, mul_one]

/-- Then no warp takes its first statement when another one has taken more than that. -/
theorem Order.ahead_inStep (warps statements u w : ℕ) : ahead u 0 w (inStep warps statements).history ≤ 1 := by
  rcases Nat.lt_or_ge u warps with inside | outside
  · change ahead u 0 w (List.replicate statements (List.range warps)).flatten ≤ 1
    induction statements with
    | zero => exact Nat.zero_le 1
    | succ n ih =>
      rw [List.replicate_succ, List.flatten_cons]
      cases n with
      | zero =>
        refine ahead_le_count.trans ?_
        rw [List.replicate_zero, List.flatten_nil, List.append_nil, List.count_range]
        split
        · exact le_rfl
        · exact Nat.zero_le 1
      | succ n =>
        have taken : (List.replicate (n + 1) (List.range warps)).flatten.count u = n + 1 :=
          (inStep warps (n + 1)).complete u inside
        rw [ahead_append (by omega)]
        exact ih
  · rw [ahead_of_untaken]
    · exact Nat.zero_le 1
    · rw [List.count_eq_zero_of_not_mem]
      exact fun member => absurd ((inStep warps statements).inside u member) (Nat.not_lt.mpr outside)

theorem alone_take_succ {statements : List (ℕ → σ → σ)} {w n : ℕ} {s : σ} : alone (statements.take (n + 1)) w s =
    statements.getD n (fun _ s => s) w (alone (statements.take n) w s) := by
  rcases Nat.lt_or_ge n statements.length with inside | outside
  · rw [alone, List.take_succ_eq_append_getElem inside, List.foldl_append, List.getD_eq_getElem _ _ inside]
    rfl
  · rw [List.take_of_length_le (by omega), List.take_of_length_le outside, List.getD_eq_default _ _ outside]

/-! ## Cells -/

section Cells

variable (own : ℕ → Set ℕ) (fixed : Set ℕ)

/-- The cells of each warp, and the cells that no warp changes. -/
structure Apart : Prop where
  warps : ∀ u w, u ≠ w → ∀ c ∈ own w, c ∉ own u
  fixed : ∀ w, ∀ c ∈ fixed, c ∉ own w

/-- A warp changes no cells but its own. -/
def Frames (statement : ℕ → (ℕ → α) → ℕ → α) : Prop := ∀ w s, ∀ c ∉ own w, statement w s c = s c

/-- What `w` stores to its own cells depends on these and on the fixed ones. -/
def Reads (w : ℕ) (statement : ℕ → (ℕ → α) → ℕ → α) : Prop :=
  ∀ s s', (∀ c ∈ own w ∪ fixed, s c = s' c) → ∀ c ∈ own w, statement w s c = statement w s' c

/-- What `w` stores to its own cells depends on the fixed ones only. -/
def Loads (w : ℕ) (statement : ℕ → (ℕ → α) → ℕ → α) : Prop :=
  ∀ s s', (∀ c ∈ fixed, s c = s' c) → ∀ c ∈ own w, statement w s c = statement w s' c

variable {own fixed} {statements rest : List (ℕ → (ℕ → α) → ℕ → α)} {first : ℕ → (ℕ → α) → ℕ → α} {history : List ℕ}
  {w c : ℕ}

theorem frames_getD (frames : ∀ statement ∈ statements, Frames own statement) (k : ℕ) :
    Frames own (statements.getD k fun _ s => s) := by
  rcases Nat.lt_or_ge k statements.length with inside | outside
  · rw [List.getD_eq_getElem _ _ inside]
    exact frames _ (List.getElem_mem inside)
  · rw [List.getD_eq_default _ _ outside]
    exact fun _ _ _ _ => rfl

theorem alone_elsewhere (frames : ∀ statement ∈ statements, Frames own statement) (elsewhere : c ∉ own w) {s : ℕ → α} :
    alone statements w s c = s c := by
  induction statements generalizing s with
  | nil => rfl
  | cons statement later ih =>
    change alone later w (statement w s) c = s c
    rw [ih fun statement member => frames statement (List.mem_cons_of_mem _ member)]
    exact frames statement List.mem_cons_self w s c elsewhere

/-- A warp that reads its own cells only ends as it would alone. -/
theorem run_eq_alone (apart : Apart own fixed) (frames : ∀ statement ∈ statements, Frames own statement)
    (reads : ∀ k < history.count w, Reads own fixed w (statements.getD k fun _ s => s)) (s : ℕ → α)
    (cell : c ∈ own w ∪ fixed) : run statements history s c = alone (statements.take (history.count w)) w s c := by
  induction history generalizing c with
  | nil => rfl
  | cons u before ih =>
    have earlier {c : ℕ} (cell : c ∈ own w ∪ fixed) := ih (c := c)
      (fun k taken => reads k (taken.trans_le List.count_le_count_cons)) cell
    rw [run]
    by_cases own_turn : u = w
    · subst own_turn
      rw [List.count_cons_self, alone_take_succ]
      by_cases mine : c ∈ own u
      · refine reads _ (by rw [List.count_cons_self]; omega) _ _ (fun c cell => earlier cell) c mine
      · rw [frames_getD frames _ _ _ _ mine, frames_getD frames _ _ _ _ mine]
        exact earlier cell
    · have elsewhere : c ∉ own u := by
        rcases cell with mine | constant
        · exact apart.warps u w own_turn c mine
        · exact apart.fixed u c constant
      rw [frames_getD frames _ _ _ _ elsewhere, List.count_cons_of_ne own_turn]
      exact earlier cell

/-- What a warp has stored to its own cells with a statement stays until its next one. -/
theorem run_last (apart : Apart own fixed) (frames : ∀ statement ∈ statements, Frames own statement) {k : ℕ}
    (taken : history.count w = k + 1) (s : ℕ → α) : ∃ before : List ℕ, before.count w = k ∧
      (∀ u, before.count u = ahead w k u history) ∧ (∀ u, before.count u ≤ history.count u) ∧
      ∀ c ∈ own w, run statements history s c = statements.getD k (fun _ s => s) w (run statements before s) c := by
  induction history with
  | nil => simp at taken
  | cons u before ih =>
    by_cases own_turn : u = w
    · subst own_turn
      have last : before.count u = k := by simpa using taken
      refine ⟨before, last, fun v => ?_, fun v => List.count_le_count_cons, fun c _ => ?_⟩
      · rw [ahead, if_pos ⟨rfl, last⟩]
      · rw [run, last]
    · rw [List.count_cons_of_ne own_turn] at taken
      obtain ⟨past, count, others, fewer, cells⟩ := ih taken
      refine ⟨past, count, fun v => ?_, fun v => (fewer v).trans List.count_le_count_cons, fun c mine => ?_⟩
      · rw [ahead, if_neg fun turn => own_turn turn.1, others v]
      · have elsewhere := apart.warps u w own_turn c mine
        rw [run, frames_getD frames _ _ _ _ elsewhere, cells c mine]

/-- A first statement that may hit the cells of other warps does no harm where it comes before these load theirs. -/
theorem run_settled (apart : Apart own fixed) (kept : ∀ u s, ∀ c ∈ fixed, first u s c = s c)
    (misses : ∀ u, u ≠ w → ahead u 0 w history ≤ 1 ∨ ∀ s, ∀ c ∈ own w, first u s c = s c)
    (frames : ∀ statement ∈ rest, Frames own statement) (loads : Loads own fixed w (rest.getD 0 fun _ s => s))
    (reads : ∀ statement ∈ rest, Reads own fixed w statement) (s : ℕ → α) :
    (∀ c ∈ fixed, run (first :: rest) history s c = s c) ∧ ∀ n, history.count w = n + 2 →
      ∀ c ∈ own w, run (first :: rest) history s c = alone (rest.take (n + 1)) w s c := by
  induction history with
  | nil => exact ⟨fun _ _ => rfl, fun n taken => by simp at taken⟩
  | cons u before ih =>
    obtain ⟨constant, cells⟩ := ih fun u other => (misses u other).imp_left ahead_before.trans
    have constant' : ∀ c ∈ fixed, run (first :: rest) (u :: before) s c = s c := by
      intro c fix
      rw [run]
      cases turn : before.count u with
      | zero => rw [List.getD_cons_zero, kept u _ c fix, constant c fix]
      | succ k =>
        rw [List.getD_cons_succ, frames_getD frames k u _ c (apart.fixed u c fix), constant c fix]
    refine ⟨constant', fun n taken c mine => ?_⟩
    rw [run]
    by_cases own_turn : u = w
    · subst own_turn
      have turn : before.count u = n + 1 := by simpa using taken
      rw [turn, List.getD_cons_succ, alone_take_succ]
      cases n with
      | zero => exact loads _ _ constant c mine
      | succ n =>
        have member : Reads own fixed u (rest.getD (n + 1) fun _ s => s) := by
          rcases Nat.lt_or_ge (n + 1) rest.length with inside | outside
          · rw [List.getD_eq_getElem _ _ inside]
            exact reads _ (List.getElem_mem inside)
          · rw [List.getD_eq_default _ _ outside]
            exact fun _ _ same c mine => same c (.inl mine)
        refine member _ _ (fun c cell => ?_) c mine
        rcases cell with mine | fix
        · exact cells n turn c mine
        · rw [constant c fix, alone_elsewhere (fun statement member => frames statement (List.mem_of_mem_take member))
            (apart.fixed u c fix)]
    · rw [List.count_cons_of_ne own_turn] at taken
      rw [← cells n taken c mine]
      cases turn : before.count u with
      | zero =>
        rw [List.getD_cons_zero]
        rcases misses u own_turn with early | missed
        · rw [ahead, if_pos ⟨rfl, turn⟩, taken] at early
          omega
        · exact missed _ c mine
      | succ k =>
        rw [List.getD_cons_succ]
        exact frames_getD frames k u _ c (apart.warps u w own_turn c mine)

end Cells

/-! ## Parts of a statement -/

section Part

variable {width w c : ℕ} {statement : (ℕ → α) → ℕ → α}

/-- The cells of the warps when each of them has `width`. -/
def cellsOf (width w : ℕ) : Set ℕ := {c | c / width = w}

theorem apart_cellsOf : Apart (cellsOf width) ∅ where
  warps _ _ other _ second first := other (first.symm.trans second)
  fixed _ _ none := absurd none (Set.notMem_empty _)

theorem part_own {s : ℕ → α} (mine : c ∈ cellsOf width w) : part width statement w s c = statement s c := if_pos mine

theorem part_frames : Frames (cellsOf width) (part width statement) := fun _ _ _ outside => if_neg outside

/-- Alone a warp changes its own cells as all warps do in step, if none of them reads another one's. -/
theorem alone_part {statements : List ((ℕ → α) → ℕ → α)}
    (reads : ∀ statement ∈ statements, Reads (cellsOf width) ∅ w (fun _ => statement)) (s : ℕ → α) (mine : c / width = w) :
    alone (statements.map (part width)) w s c = statements.foldl (fun s statement => statement s) s c := by
  have agree : ∀ (statements : List ((ℕ → α) → ℕ → α)) (s s' : ℕ → α),
      (∀ statement ∈ statements, Reads (cellsOf width) ∅ w (fun _ => statement)) → (∀ c, c / width = w → s c = s' c) →
        alone (statements.map (part width)) w s c = statements.foldl (fun s statement => statement s) s' c := by
    intro statements
    induction statements with
    | nil => exact fun s s' _ same => same c mine
    | cons statement later ih =>
      intro s s' reads same
      refine ih _ _ (fun statement member => reads statement (List.mem_cons_of_mem _ member)) fun c mine => ?_
      change part width statement w s c = statement s' c
      rw [part_own mine]
      refine reads statement List.mem_cons_self s s' (fun c cell => ?_) c mine
      exact same c (cell.resolve_right (Set.notMem_empty c))
  exact agree statements s s reads fun _ _ => rfl

end Part

end Warps
