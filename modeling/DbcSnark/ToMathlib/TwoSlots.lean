import DbcSnark.ToMathlib.Loops

/-! # A tournament in two slots

Candidates come one after the other and only two of them are kept: each is written to the slot in turn, and a
comparison of the prices of the two slots decides which of them the next candidate overwrites. The other slot holds
a cheapest candidate at any time. The slots live in a memory of any kind, of which `Board` says what a write does.
-/

namespace TwoSlots

/-- A memory `σ` with slots for objects `α` that have prices in `β`. -/
structure Board (σ α β : Type*) where
  write : σ → ℕ → α → σ
  priceAt : σ → ℕ → β
  Holds : σ → ℕ → α → Prop
  price : α → β
  /-- The objects that a slot has room for. -/
  Good : α → Prop
  priceAt_of_holds : ∀ {s x c}, Good c → Holds s x c → priceAt s x = price c
  holds_write : ∀ {s x c}, Good c → Holds (write s x c) x c
  holds_write_of_ne : ∀ {s x y c d}, Good c → Good d → x < 2 → y < 2 → y ≠ x → Holds s y d → Holds (write s x c) y d
  priceAt_write_of_ne : ∀ {s x y c}, Good c → x < 2 → y < 2 → y ≠ x → priceAt (write s x c) y = priceAt s y

namespace Board

variable {σ α β : Type*} [LinearOrder β] (B : Board σ α β)

/-- Write the candidate to the slot in turn and let the prices decide the next slot. -/
def round (st : ℕ × σ) (c : α) : ℕ × σ :=
  let s := B.write st.2 st.1 c
  (if B.priceAt s 0 < B.priceAt s 1 then 1 else 0, s)

/-- The slot that is not in turn holds a cheapest of the candidates. -/
structure Leads (candidates : List α) (st : ℕ × σ) : Prop where
  turn : st.1 < 2
  least : ∃ c ∈ candidates, B.Holds st.2 (1 - st.1) c ∧ ∀ d ∈ candidates, B.price c ≤ B.price d

theorem round_turn (st : ℕ × σ) (c : α) : (B.round st c).1 < 2 := by
  rw [round]
  split <;> norm_num

/-- The slot that is not in turn is the cheaper one. -/
theorem priceAt_round_le (st : ℕ × σ) (c : α) {x : ℕ} (slot : x < 2) :
    B.priceAt (B.round st c).2 (1 - (B.round st c).1) ≤ B.priceAt (B.round st c).2 x := by
  rw [round]
  split
  · rename_i less
    interval_cases x
    · exact le_rfl
    · exact less.le
  · rename_i more
    interval_cases x
    · exact not_lt.mp more
    · exact le_rfl

/-- The first candidate is left alone when the slot it is not written to is dearer. -/
theorem leads_first {s : σ} {c : α} (good : B.Good c) (opening : B.price c < B.priceAt s 1) :
    B.Leads [c] (B.round (0, s) c) := by
  have written : B.Holds (B.write s 0 c) 0 c := B.holds_write good
  have cheaper : B.priceAt (B.write s 0 c) 0 < B.priceAt (B.write s 0 c) 1 := by
    rwa [B.priceAt_of_holds good written, B.priceAt_write_of_ne good (by norm_num) (by norm_num) (by norm_num)]
  have next : B.round (0, s) c = (1, B.write s 0 c) := by rw [round, if_pos cheaper]
  rw [next]
  refine ⟨by norm_num, c, List.mem_singleton_self c, written, fun d member => ?_⟩
  rw [List.mem_singleton.mp member]

/-- One more candidate keeps a cheapest one in the slot that is not in turn. -/
theorem Leads.round {candidates : List α} {st : ℕ × σ} {c : α} (leads : B.Leads candidates st)
    (goods : ∀ d ∈ candidates, B.Good d) (good : B.Good c) : B.Leads (candidates ++ [c]) (B.round st c) := by
  obtain ⟨turn, best, member, held, least⟩ := leads
  have written : B.Holds (B.round st c).2 st.1 c := B.holds_write good
  have kept : B.Holds (B.round st c).2 (1 - st.1) best :=
    B.holds_write_of_ne good (goods best member) turn (by omega) (by omega) held
  have price : B.priceAt (B.round st c).2 st.1 = B.price c := B.priceAt_of_holds good written
  have price' : B.priceAt (B.round st c).2 (1 - st.1) = B.price best := B.priceAt_of_holds (goods best member) kept
  have below := B.priceAt_round_le st c turn
  have below' := B.priceAt_round_le st c (x := 1 - st.1) (by omega)
  have next := B.round_turn st c
  refine ⟨next, ?_⟩
  obtain slot | slot : 1 - (B.round st c).1 = st.1 ∨ 1 - (B.round st c).1 = 1 - st.1 := by omega
  · rw [slot, price] at below'
    refine ⟨c, by simp, slot ▸ written, fun d present => ?_⟩
    rcases List.mem_append.mp present with earlier | here
    · exact (below'.trans_eq price').trans (least d earlier)
    · rw [List.mem_singleton.mp here]
  · rw [slot, price', price] at below
    refine ⟨best, by simp [member], slot ▸ kept, fun d present => ?_⟩
    rcases List.mem_append.mp present with earlier | here
    · exact least d earlier
    · rwa [List.mem_singleton.mp here]

/-- After one candidate or more, the slot that is not in turn holds a cheapest one, whatever the slots held before,
as long as the slot that the first candidate is compared with is dearer. -/
theorem leads_foldl {candidates : List α} (s : σ) (nonempty : candidates ≠ []) (goods : ∀ c ∈ candidates, B.Good c)
    (opening : ∀ c ∈ candidates, B.price c < B.priceAt s 1) :
    B.Leads candidates (candidates.foldl B.round (0, s)) := by
  have run := Loops.foldl_induction (fun visited st => (visited = [] → st = (0, s)) ∧ (visited ≠ [] → B.Leads visited st))
    B.round candidates (0, s) ⟨fun _ => rfl, fun some => absurd rfl some⟩ ?_
  · exact run.2 nonempty
  · intro visited c later st split holds
    have inside : c ∈ candidates := by simp [split]
    refine ⟨fun none => by simp at none, fun _ => ?_⟩
    by_cases none : visited = []
    · rw [holds.1 none, none]
      exact B.leads_first (goods c inside) (opening c inside)
    · exact (holds.2 none).round B (fun d member => goods d (by simp [split, member])) (goods c inside)

end Board

end TwoSlots
