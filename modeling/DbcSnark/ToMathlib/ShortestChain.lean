import DbcSnark.ToMathlib.DoubleBase

/-! # Shortest and cheapest double-base chains

`Best b t v o` says that `o` is a shortest chain of `v` below `2 ^ b * 3 ^ t`, or that there is none.
A best chain is a least one among candidates built from best chains below the two maximal proper
divisors of the bound; which candidates suffice depends only on where `v` lies relative to a third
and a half of the bound. For a cost linear in the leading exponents and the length, a cheapest chain
of a positive number leads with a term at most twice that number.
-/

namespace DoubleBase

/-- `o` is a shortest chain of `v` below the bound, or `none` when `v` has no such chain. -/
structure Best (b t : ℕ) (v : ℤ) (o : Option (List Term)) : Prop where
  sound : ∀ c ∈ o, Below b t c ∧ value c = v
  shortest : ∀ d, Below b t d → value d = v → ∃ c ∈ o, c.length ≤ d.length

/-- Best below half of the bound; an odd bound has no half. -/
def BestHalf (b t : ℕ) (v : ℤ) (o : Option (List Term)) : Prop :=
  match b with
  | 0 => o = none
  | b' + 1 => Best b' t v o

/-- Best below a third of the bound; a power of two has no third. -/
def BestThird (b t : ℕ) (v : ℤ) (o : Option (List Term)) : Prop :=
  match t with
  | 0 => o = none
  | t' + 1 => Best b t' v o

/-- `o` is one of the candidates and no longer than any of them. -/
def Least (o : Option (List Term)) (candidates : List (Option (List Term))) : Prop :=
  o ∈ candidates ∧ ∀ o' ∈ candidates, ∀ c' ∈ o', ∃ c ∈ o, c.length ≤ c'.length

theorem Best.of_least {b t : ℕ} {v : ℤ} {o : Option (List Term)} {candidates : List (Option (List Term))}
    (least : Least o candidates)
    (sound : ∀ o' ∈ candidates, ∀ c ∈ o', Below b t c ∧ value c = v)
    (reach : ∀ d, Below b t d → value d = v → ∃ o' ∈ candidates, ∃ c ∈ o', c.length ≤ d.length) :
    Best b t v o where
  sound := sound o least.1
  shortest d chain sum := by
    obtain ⟨o', member, c', present, short⟩ := reach d chain sum
    obtain ⟨c, found, shorter⟩ := least.2 o' member c' present
    exact ⟨c, found, shorter.trans short⟩

section Predecessors

variable {b t : ℕ} {v u : ℤ} {k : ℕ} {o : Option (List Term)} {minus : Bool}

theorem BestHalf.drop_sound (best : BestHalf b t v o) : ∀ c ∈ o, Below b t c ∧ value c = v := by
  intro c member
  cases b with
  | zero => simp [show o = none from best] at member
  | succ b => exact ⟨((best : Best b t v o).sound c member).1.mono (Nat.le_succ b) le_rfl,
      ((best : Best b t v o).sound c member).2⟩

theorem BestThird.drop_sound (best : BestThird b t v o) : ∀ c ∈ o, Below b t c ∧ value c = v := by
  intro c member
  cases t with
  | zero => simp [show o = none from best] at member
  | succ t => exact ⟨((best : Best b t v o).sound c member).1.mono le_rfl (Nat.le_succ t),
      ((best : Best b t v o).sound c member).2⟩

theorem BestHalf.drop_reach (best : BestHalf b t v o) (drop : HalfDrop b t v k) :
    ∃ c ∈ o, c.length ≤ k := by
  obtain ⟨b', d, rfl, chain, sum, bound⟩ := drop
  obtain ⟨c, member, short⟩ := (best : Best b' t v o).shortest d chain sum
  exact ⟨c, member, short.trans bound⟩

theorem BestThird.drop_reach (best : BestThird b t v o) (drop : ThirdDrop b t v k) :
    ∃ c ∈ o, c.length ≤ k := by
  obtain ⟨t', d, rfl, chain, sum, bound⟩ := drop
  obtain ⟨c, member, short⟩ := (best : Best b t' v o).shortest d chain sum
  exact ⟨c, member, short.trans bound⟩

theorem BestHalf.step_sound (best : BestHalf b t u o)
    (split : Term.value ⟨b - 1, t, minus⟩ + u = v) :
    ∀ c ∈ o.map (⟨b - 1, t, minus⟩ :: ·), Below b t c ∧ value c = v := by
  intro c member
  obtain ⟨d, present, rfl⟩ := Option.mem_map.mp member
  cases b with
  | zero => simp [show o = none from best] at present
  | succ b =>
    obtain ⟨chain, sum⟩ := (best : Best b t u o).sound d present
    exact ⟨⟨by simp, by simpa using chain⟩, by rw [value_cons, sum, split]⟩

theorem BestThird.step_sound (best : BestThird b t u o)
    (split : Term.value ⟨b, t - 1, minus⟩ + u = v) :
    ∀ c ∈ o.map (⟨b, t - 1, minus⟩ :: ·), Below b t c ∧ value c = v := by
  intro c member
  obtain ⟨d, present, rfl⟩ := Option.mem_map.mp member
  cases t with
  | zero => simp [show o = none from best] at present
  | succ t =>
    obtain ⟨chain, sum⟩ := (best : Best b t u o).sound d present
    exact ⟨⟨by simp, by simpa using chain⟩, by rw [value_cons, sum, split]⟩

theorem BestHalf.step_reach (best : BestHalf b t u o)
    (split : Term.value ⟨b - 1, t, minus⟩ + u = v) (step : HalfStep minus b t v k) :
    ∃ c ∈ o.map (⟨b - 1, t, minus⟩ :: ·), c.length ≤ k := by
  obtain ⟨b', d, rfl, chain, sum, bound⟩ := step
  rw [Nat.add_sub_cancel] at split
  obtain ⟨c, member, short⟩ := (best : Best b' t u o).shortest d chain (by omega)
  exact ⟨_, Option.mem_map_of_mem _ member, by simp only [List.length_cons]; omega⟩

theorem BestThird.step_reach (best : BestThird b t u o)
    (split : Term.value ⟨b, t - 1, minus⟩ + u = v) (step : ThirdStep minus b t v k) :
    ∃ c ∈ o.map (⟨b, t - 1, minus⟩ :: ·), c.length ≤ k := by
  obtain ⟨t', d, rfl, chain, sum, bound⟩ := step
  rw [Nat.add_sub_cancel] at split
  obtain ⟨c, member, short⟩ := (best : Best b t' u o).shortest d chain (by omega)
  exact ⟨_, Option.mem_map_of_mem _ member, by simp only [List.length_cons]; omega⟩

end Predecessors

section Negative

variable {b t : ℕ} {c : List Term}

theorem Below.reduce_low_neg (chain : Below b t c) (proper : 0 < b + t) (nonpos : value c ≤ 0)
    (small : -(3 * value c) ≤ pow23 b t) :
    HalfDrop b t (value c) c.length ∨ ThirdDrop b t (value c) c.length ∨
      ThirdStep true b t (value c) c.length := by
  have flipped := chain.negate.reduce_low proper (by simpa using nonpos)
    (by rw [value_negate]; omega)
  rw [value_negate, length_negate] at flipped
  have restore := neg_neg (value c)
  exact flipped.imp (fun drop => restore ▸ drop.negate)
    (.imp (fun drop => restore ▸ drop.negate) (fun step => restore ▸ step.negate))

theorem Below.reduce_mid_neg (chain : Below b t c) (proper : 0 < b + t)
    (large : pow23 b t ≤ -(3 * value c)) :
    HalfDrop b t (value c) c.length ∨ HalfStep true b t (value c) c.length ∨
      ThirdStep true b t (value c) c.length := by
  have flipped := chain.negate.reduce_mid proper (by rw [value_negate]; omega)
  rw [value_negate, length_negate] at flipped
  have restore := neg_neg (value c)
  exact flipped.imp (fun drop => restore ▸ drop.negate)
    (.imp (fun step => restore ▸ step.negate) (fun step => restore ▸ step.negate))

theorem Below.halfStep_neg (chain : Below b t c) (large : pow23 b t ≤ -(2 * value c)) :
    HalfStep true b t (value c) c.length := by
  have flipped := chain.negate.halfStep (by rw [value_negate]; omega)
  rw [value_negate, length_negate] at flipped
  exact neg_neg (value c) ▸ flipped.negate

end Negative

/-! ## Which predecessors suffice -/

section Recurrence

variable {b t : ℕ} {v u₁ u₂ u₃ : ℤ} {o o₁ o₂ o₃ : Option (List Term)}

theorem Best.low (proper : 0 < b + t) (nonneg : 0 ≤ v) (small : 3 * v ≤ pow23 b t)
    (half : BestHalf b t v o₁) (third : BestThird b t v o₂)
    (thirdStep : BestThird b t u₃ o₃) (split : Term.value ⟨b, t - 1, false⟩ + u₃ = v)
    (least : Least o [o₁, o₂, o₃.map (⟨b, t - 1, false⟩ :: ·)]) : Best b t v o := by
  refine .of_least least ?_ ?_
  · intro o' member
    simp only [List.mem_cons, List.not_mem_nil, or_false] at member
    rcases member with rfl | rfl | rfl
    · exact half.drop_sound
    · exact third.drop_sound
    · exact thirdStep.step_sound split
  · rintro d chain rfl
    obtain drop | drop | step := chain.reduce_low proper nonneg small
    · exact ⟨o₁, by simp, half.drop_reach drop⟩
    · exact ⟨o₂, by simp, third.drop_reach drop⟩
    · exact ⟨_, by simp, thirdStep.step_reach split step⟩

theorem Best.mid (proper : 0 < b + t) (large : pow23 b t ≤ 3 * v)
    (half : BestHalf b t v o₁)
    (halfStep : BestHalf b t u₂ o₂) (split₂ : Term.value ⟨b - 1, t, false⟩ + u₂ = v)
    (thirdStep : BestThird b t u₃ o₃) (split₃ : Term.value ⟨b, t - 1, false⟩ + u₃ = v)
    (least : Least o [o₁, o₂.map (⟨b - 1, t, false⟩ :: ·), o₃.map (⟨b, t - 1, false⟩ :: ·)]) :
    Best b t v o := by
  refine .of_least least ?_ ?_
  · intro o' member
    simp only [List.mem_cons, List.not_mem_nil, or_false] at member
    rcases member with rfl | rfl | rfl
    · exact half.drop_sound
    · exact halfStep.step_sound split₂
    · exact thirdStep.step_sound split₃
  · rintro d chain rfl
    obtain drop | step | step := chain.reduce_mid proper large
    · exact ⟨o₁, by simp, half.drop_reach drop⟩
    · exact ⟨_, by simp, halfStep.step_reach split₂ step⟩
    · exact ⟨_, by simp, thirdStep.step_reach split₃ step⟩

theorem Best.high (large : pow23 b t ≤ 2 * v) (halfStep : BestHalf b t u₁ o)
    (split : Term.value ⟨b - 1, t, false⟩ + u₁ = v) :
    Best b t v (o.map (⟨b - 1, t, false⟩ :: ·)) where
  sound := halfStep.step_sound split
  shortest := by
    rintro d chain rfl
    exact halfStep.step_reach split (chain.halfStep large)

theorem Best.low_neg (proper : 0 < b + t) (nonpos : v ≤ 0) (small : -(3 * v) ≤ pow23 b t)
    (half : BestHalf b t v o₁)
    (thirdStep : BestThird b t u₂ o₂) (split : Term.value ⟨b, t - 1, true⟩ + u₂ = v)
    (third : BestThird b t v o₃)
    (least : Least o [o₁, o₂.map (⟨b, t - 1, true⟩ :: ·), o₃]) : Best b t v o := by
  refine .of_least least ?_ ?_
  · intro o' member
    simp only [List.mem_cons, List.not_mem_nil, or_false] at member
    rcases member with rfl | rfl | rfl
    · exact half.drop_sound
    · exact thirdStep.step_sound split
    · exact third.drop_sound
  · rintro d chain rfl
    obtain drop | drop | step := chain.reduce_low_neg proper nonpos small
    · exact ⟨o₁, by simp, half.drop_reach drop⟩
    · exact ⟨o₃, by simp, third.drop_reach drop⟩
    · exact ⟨_, by simp, thirdStep.step_reach split step⟩

theorem Best.mid_neg (proper : 0 < b + t) (large : pow23 b t ≤ -(3 * v))
    (halfStep : BestHalf b t u₁ o₁) (split₁ : Term.value ⟨b - 1, t, true⟩ + u₁ = v)
    (half : BestHalf b t v o₂)
    (thirdStep : BestThird b t u₃ o₃) (split₃ : Term.value ⟨b, t - 1, true⟩ + u₃ = v)
    (least : Least o [o₁.map (⟨b - 1, t, true⟩ :: ·), o₂, o₃.map (⟨b, t - 1, true⟩ :: ·)]) :
    Best b t v o := by
  refine .of_least least ?_ ?_
  · intro o' member
    simp only [List.mem_cons, List.not_mem_nil, or_false] at member
    rcases member with rfl | rfl | rfl
    · exact halfStep.step_sound split₁
    · exact half.drop_sound
    · exact thirdStep.step_sound split₃
  · rintro d chain rfl
    obtain drop | step | step := chain.reduce_mid_neg proper large
    · exact ⟨o₂, by simp, half.drop_reach drop⟩
    · exact ⟨_, by simp, halfStep.step_reach split₁ step⟩
    · exact ⟨_, by simp, thirdStep.step_reach split₃ step⟩

theorem Best.high_neg (large : pow23 b t ≤ -(2 * v)) (halfStep : BestHalf b t u₁ o)
    (split : Term.value ⟨b - 1, t, true⟩ + u₁ = v) :
    Best b t v (o.map (⟨b - 1, t, true⟩ :: ·)) where
  sound := halfStep.step_sound split
  shortest := by
    rintro d chain rfl
    exact halfStep.step_reach split (chain.halfStep_neg large)

end Recurrence

/-! ## The cost of a chain -/

/-- A nonempty chain without a bound on its leading term. -/
def IsChain : List Term → Prop
  | [] => False
  | x :: c => Below x.dbl x.tpl c

theorem Below.isChain {b t : ℕ} {c : List Term} (chain : Below b t c) (nonempty : c ≠ []) : IsChain c := by
  cases c with
  | nil => contradiction
  | cons x c => exact chain.2

theorem IsChain.below {x : Term} {c : List Term} (chain : IsChain (x :: c)) :
    Below (x.dbl + 1) x.tpl (x :: c) := ⟨by omega, chain⟩

/-- Doublings and triplings up to the leading term, one addition for each further term. -/
def cost (dblCost tplCost addCost : ℕ) : List Term → ℕ
  | [] => 0
  | x :: c => dblCost * x.dbl + tplCost * x.tpl + addCost * c.length

/-- When a tripling costs at least a doubling and at most a doubling and an addition, a leading term
above twice the number is never cheaper: merged with the next term it becomes half or two thirds of
itself. -/
theorem IsChain.exists_leading_le {dblCost tplCost addCost : ℕ} (triple : dblCost ≤ tplCost)
    (add : tplCost - dblCost ≤ addCost) {c : List Term} (chain : IsChain c) (positive : 0 < value c) :
    ∃ x d, IsChain (x :: d) ∧ value (x :: d) = value c ∧ x.weight ≤ 2 * value c ∧
      cost dblCost tplCost addCost (x :: d) ≤ cost dblCost tplCost addCost c := by
  induction size : c.length generalizing c with
  | zero => simp [List.length_eq_zero_iff.mp size, IsChain] at chain
  | succ k ih =>
    cases c with
    | nil => simp at size
    | cons x c =>
      by_cases small : x.weight ≤ 2 * value (x :: c)
      · exact ⟨x, c, chain, rfl, small, le_rfl⟩
      · have sign := chain.below.leading_sign
        rcases x with ⟨dbl, tpl, minus⟩
        obtain rfl : minus = false := by
          cases minus
          · rfl
          · have := sign.mp rfl
            omega
        cases c with
        | nil =>
          simp only [value_cons, Term.value, Term.weight, value_nil, Bool.false_eq_true, if_false] at small
          have := pow23_pos dbl tpl
          omega
        | cons y c =>
          have tail : Below dbl tpl (y :: c) := chain
          have sign₂ := tail.leading_sign
          obtain ⟨⟨left, right, proper⟩, rest⟩ := tail
          have bound := rest.value_lt
          rcases y with ⟨dbl₂, tpl₂, minus₂⟩
          simp only [value_cons, Term.value, Term.weight, Bool.false_eq_true, if_false] at small positive sign₂
          obtain rfl : minus₂ = true := sign₂.mpr (by omega)
          simp only [if_true] at small positive left right proper bound rest
          simp only [List.length_cons] at size
          -- the next term is more than a quarter of the leading one: it is its half or its third
          obtain ⟨rfl, rfl, -⟩ | ⟨rfl, rfl, -⟩ | ⟨-, -, absurd⟩ :=
            quotient left right proper (k := 4) (by norm_num) (by omega)
          · obtain ⟨z, d, chain', sum, leading, cheap⟩ :=
              ih (c := ⟨dbl₂, tpl, false⟩ :: c) rest
                (by simp only [value_cons, Term.value, Term.weight, Bool.false_eq_true, if_false,
                      pow23_succ_left] at positive ⊢; omega)
                (by simp only [List.length_cons]; omega)
            have same : value (⟨dbl₂, tpl, false⟩ :: c) =
                value (⟨dbl₂ + 1, tpl, false⟩ :: ⟨dbl₂, tpl, true⟩ :: c) := by
              simp [Term.value, Term.weight]; ring
            refine ⟨z, d, chain', sum.trans same, same ▸ leading, cheap.trans ?_⟩
            simp only [cost, List.length_cons]
            nlinarith
          · obtain ⟨z, d, chain', sum, leading, cheap⟩ :=
              ih (c := ⟨dbl + 1, tpl₂, false⟩ :: c) (rest.mono (Nat.le_succ _) le_rfl)
                (by simp only [value_cons, Term.value, Term.weight, Bool.false_eq_true, if_false,
                      pow23_succ_left, pow23_succ_right] at positive ⊢; omega)
                (by simp only [List.length_cons]; omega)
            have same : value (⟨dbl + 1, tpl₂, false⟩ :: c) =
                value (⟨dbl, tpl₂ + 1, false⟩ :: ⟨dbl, tpl₂, true⟩ :: c) := by
              simp [Term.value, Term.weight]; ring
            refine ⟨z, d, chain', sum.trans same, same ▸ leading, cheap.trans ?_⟩
            simp only [cost, List.length_cons]
            have : tplCost ≤ dblCost + addCost := by omega
            nlinarith
          · omega

end DoubleBase
