import DbcSnark.ToMathlib.ShortestChain

/-! # What a number costs

A number costs at most `w` when it is zero or has a double-base chain of cost at most `w`. Doubling, tripling, and adding
or subtracting one raise such a bound by their own prices. So it holds for a chain in which terms repeat, and for every
evaluation by doublings, triplings and additions.
-/

namespace DoubleBase

/-! ## Scaled chains -/

/-- Every term times `2 ^ i * 3 ^ j`. -/
def scale (i j : ℕ) (c : List Term) : List Term := c.map fun x => ⟨x.dbl + i, x.tpl + j, x.minus⟩

section Scale

variable {i j b t : ℕ} {x : Term} {c : List Term}

@[simp] theorem scale_cons : scale i j (x :: c) = ⟨x.dbl + i, x.tpl + j, x.minus⟩ :: scale i j c := rfl

@[simp] theorem length_scale : (scale i j c).length = c.length := List.length_map _

@[simp] theorem value_scale : value (scale i j c) = pow23 i j * value c := by
  induction c with
  | nil => simp [scale]
  | cons x c ih =>
    have term : Term.value ⟨x.dbl + i, x.tpl + j, x.minus⟩ = pow23 i j * x.value := by
      have weight := pow23_add i j x.dbl x.tpl
      rw [add_comm i, add_comm j] at weight
      unfold Term.value Term.weight
      split <;> simp only [weight] <;> ring
    rw [scale_cons, value_cons, value_cons, ih, term, mul_add]

@[simp] theorem below_scale : Below (b + i) (t + j) (scale i j c) ↔ Below b t c := by
  induction c generalizing b t with
  | nil => exact Iff.rfl
  | cons x c ih =>
    rw [scale_cons, below_cons, below_cons, ih]
    refine and_congr_left fun _ => ?_
    constructor <;> intro <;> simp only at * <;> omega

@[simp] theorem isChain_scale : IsChain (scale i j c) ↔ IsChain c := by
  cases c with
  | nil => exact Iff.rfl
  | cons x c => exact below_scale

/-- Terms that all have a factor are those of a scaled chain. -/
theorem exists_scale (divides : ∀ y ∈ c, i ≤ y.dbl ∧ j ≤ y.tpl) : ∃ d, c = scale i j d := by
  refine ⟨c.map fun y => ⟨y.dbl - i, y.tpl - j, y.minus⟩, ?_⟩
  rw [scale, List.map_map]
  refine (List.map_id c).symm.trans (List.map_congr_left fun y member => ?_)
  obtain ⟨left, right⟩ := divides y member
  simp only [id_eq, Function.comp_apply, Nat.sub_add_cancel left, Nat.sub_add_cancel right]

end Scale

/-! ## The last term -/

section Last

variable {b t : ℕ} {x : Term} {c : List Term}

theorem Below.of_concat (chain : Below b t (c ++ [x])) :
    Below b t c ∧ ∀ y ∈ c, x.dbl ≤ y.dbl ∧ x.tpl ≤ y.tpl ∧ x.dbl + x.tpl < y.dbl + y.tpl := by
  induction c generalizing b t with
  | nil => exact ⟨trivial, fun y member => absurd member List.not_mem_nil⟩
  | cons z c ih =>
    obtain ⟨here, rest⟩ := chain
    obtain ⟨below, larger⟩ := ih rest
    refine ⟨⟨here, below⟩, List.forall_mem_cons.mpr ⟨?_, larger⟩⟩
    cases c with
    | nil => exact rest.1
    | cons w c =>
      have first := larger w List.mem_cons_self
      have second := rest.1
      omega

theorem IsChain.of_concat (chain : IsChain (c ++ [x])) (nonempty : c ≠ []) :
    IsChain c ∧ ∀ y ∈ c, x.dbl ≤ y.dbl ∧ x.tpl ≤ y.tpl ∧ x.dbl + x.tpl < y.dbl + y.tpl := by
  obtain ⟨z, c, rfl⟩ := List.exists_cons_of_ne_nil nonempty
  obtain ⟨below, larger⟩ := Below.of_concat (c := z :: c) (IsChain.below chain)
  exact ⟨below.2, larger⟩

theorem Below.concat_unit (chain : Below b t c) (positive : 0 < b + t) (proper : ∀ y ∈ c, 0 < y.dbl + y.tpl)
    (minus : Bool) : Below b t (c ++ [⟨0, 0, minus⟩]) := by
  induction c generalizing b t with
  | nil => exact ⟨⟨Nat.zero_le b, Nat.zero_le t, positive⟩, trivial⟩
  | cons y c ih =>
    obtain ⟨here, rest⟩ := List.forall_mem_cons.mp proper
    exact ⟨chain.1, ih chain.2 here rest⟩

/-- A chain without the unit can end with it. -/
theorem IsChain.concat_unit (chain : IsChain c) (proper : ∀ y ∈ c, 0 < y.dbl + y.tpl) (minus : Bool) :
    IsChain (c ++ [⟨0, 0, minus⟩]) := by
  cases c with
  | nil => exact chain.elim
  | cons y c =>
    obtain ⟨here, rest⟩ := List.forall_mem_cons.mp proper
    exact Below.concat_unit chain here rest minus

end Last

/-! ## Bounds on the cost -/

section Costs

variable {D T A : ℕ} {v : ℤ} {w : ℕ} {c : List Term}

theorem cost_scale (nonempty : c ≠ []) (i j : ℕ) : cost D T A (scale i j c) = cost D T A c + D * i + T * j := by
  obtain ⟨x, c, rfl⟩ := List.exists_cons_of_ne_nil nonempty
  simp only [scale_cons, cost, length_scale]
  ring

theorem cost_concat (nonempty : c ≠ []) (x : Term) : cost D T A (c ++ [x]) = cost D T A c + A := by
  obtain ⟨y, c, rfl⟩ := List.exists_cons_of_ne_nil nonempty
  simp only [List.cons_append, cost, List.length_append, List.length_singleton]
  ring

/-- `v` is zero or has a chain of cost at most `w`. -/
def Costs (D T A : ℕ) (v : ℤ) (w : ℕ) : Prop := v = 0 ∨ ∃ c, IsChain c ∧ value c = v ∧ cost D T A c ≤ w

theorem IsChain.ne_nil (chain : IsChain c) : c ≠ [] := by
  rintro rfl
  exact chain

theorem Costs.mono {w' : ℕ} (costs : Costs D T A v w) (more : w ≤ w') : Costs D T A v w' :=
  costs.imp_right fun ⟨c, chain, sum, bound⟩ => ⟨c, chain, sum, bound.trans more⟩

/-- A single term. -/
theorem costs_term (x : Term) : Costs D T A x.value (D * x.dbl + T * x.tpl) :=
  .inr ⟨[x], trivial, by simp, by simp [cost]⟩

theorem Costs.scale (costs : Costs D T A v w) (i j : ℕ) : Costs D T A (pow23 i j * v) (w + D * i + T * j) := by
  rcases costs with rfl | ⟨c, chain, rfl, bound⟩
  · exact .inl (mul_zero _)
  · refine .inr ⟨DoubleBase.scale i j c, isChain_scale.mpr chain, value_scale, ?_⟩
    rw [cost_scale chain.ne_nil]
    omega

theorem Costs.double (costs : Costs D T A v w) : Costs D T A (2 * v) (w + D) := by
  simpa using costs.scale 1 0

@[simp] theorem value_unit (minus : Bool) : Term.value ⟨0, 0, minus⟩ = if minus then -1 else 1 := by
  simp [Term.value, Term.weight]

/-- One more unit costs an addition at most, when a doubling costs no more than that. Where the chain ends with the same
unit, the two are doubled, or one third is added and a unit taken away. -/
theorem IsChain.add_unit (cheap : D ≤ A) (chain : IsChain c) (minus : Bool) :
    Costs D T A (value c + Term.value ⟨0, 0, minus⟩) (cost D T A c + A) := by
  induction size : c.length using Nat.strong_induction_on generalizing c with
  | h size ih =>
  obtain ⟨rest, x, rfl⟩ := (List.eq_nil_or_concat' c).resolve_left chain.ne_nil
  by_cases proper : 0 < x.dbl + x.tpl
  · refine .inr ⟨(rest ++ [x]) ++ [⟨0, 0, minus⟩], chain.concat_unit (fun y member => ?_) minus, ?_, ?_⟩
    · rcases List.mem_append.mp member with before | last
      · have larger := (chain.of_concat (List.ne_nil_of_mem before)).2 y before
        omega
      · rwa [List.mem_singleton.mp last]
    · rw [value_append, value_cons, value_nil, add_zero]
    · rw [cost_concat chain.ne_nil]
  obtain ⟨dbl, tpl, minus'⟩ := x
  obtain ⟨rfl, rfl⟩ : dbl = 0 ∧ tpl = 0 := by
    simp only at proper
    omega
  by_cases empty : rest = []
  · subst empty
    by_cases same : minus' = minus
    · subst same
      have twice := costs_term (D := D) (T := T) (A := A) ⟨1, 0, minus'⟩
      refine (?_ : Term.value ⟨1, 0, minus'⟩ = value ([] ++ [⟨0, 0, minus'⟩]) + Term.value ⟨0, 0, minus'⟩) ▸
        twice.mono ?_
      · cases minus' <;> norm_num [Term.value, Term.weight, pow23]
      · simp only [mul_one, mul_zero]
        omega
    · obtain rfl : minus' = !minus := Bool.eq_not_of_ne same
      exact .inl (by cases minus <;> simp)
  obtain ⟨chain', larger⟩ := chain.of_concat empty
  have last : value (rest ++ [⟨0, 0, minus'⟩]) = value rest + Term.value ⟨0, 0, minus'⟩ := by
    rw [value_append, value_cons, value_nil, add_zero]
  rw [cost_concat empty, last]
  by_cases same : minus' = minus
  · subst same
    obtain ⟨earlier, y, rfl⟩ := (List.eq_nil_or_concat' rest).resolve_left empty
    have above : ∀ z ∈ earlier ++ [y], y.dbl ≤ z.dbl ∧ y.tpl ≤ z.tpl := by
      intro z member
      rcases List.mem_append.mp member with before | here
      · obtain ⟨left, right, -⟩ := (chain'.of_concat (List.ne_nil_of_mem before)).2 z before
        exact ⟨left, right⟩
      · obtain rfl := List.mem_singleton.mp here
        exact ⟨le_rfl, le_rfl⟩
    have factor := larger y (by simp)
    rw [List.length_append, List.length_singleton] at size
    by_cases even : 1 ≤ y.dbl
    · obtain ⟨d, scaled⟩ := exists_scale (i := 1) (j := 0) fun z member =>
        ⟨even.trans (above z member).1, Nat.zero_le _⟩
      rw [scaled] at chain' size ⊢
      rw [isChain_scale] at chain'
      rw [length_scale] at size
      have halves := (ih _ (by omega) chain' rfl).double
      rw [value_scale, cost_scale chain'.ne_nil]
      have sum : pow23 1 0 * value d + Term.value ⟨0, 0, minus'⟩ + Term.value ⟨0, 0, minus'⟩ =
          2 * (value d + Term.value ⟨0, 0, minus'⟩) := by
        rw [pow23_succ_left, pow23_zero_zero]
        ring
      rw [sum]
      exact halves.mono (by omega)
    · obtain ⟨d, scaled⟩ := exists_scale (i := 0) (j := 1) fun z member =>
        ⟨Nat.zero_le _, (by simp only at factor; omega : 1 ≤ y.tpl).trans (above z member).2⟩
      rw [scaled] at chain' size ⊢
      rw [isChain_scale] at chain'
      rw [length_scale] at size
      rw [value_scale, cost_scale chain'.ne_nil]
      have opposite : Term.value ⟨0, 0, !minus'⟩ = -Term.value ⟨0, 0, minus'⟩ := by cases minus' <;> simp
      have sum : pow23 0 1 * value d + Term.value ⟨0, 0, minus'⟩ + Term.value ⟨0, 0, minus'⟩ =
          3 * (value d + Term.value ⟨0, 0, minus'⟩) + Term.value ⟨0, 0, !minus'⟩ := by
        rw [opposite, pow23_succ_right, pow23_zero_zero]
        ring
      rw [sum]
      rcases ih _ (by omega) chain' rfl with zero | ⟨e, thirds, value_e, bound⟩
      · rw [zero, mul_zero, zero_add]
        exact (costs_term _).mono (by simp)
      · refine .inr ⟨DoubleBase.scale 0 1 e ++ [⟨0, 0, !minus'⟩], (isChain_scale.mpr thirds).concat_unit ?_ _, ?_, ?_⟩
        · intro z member
          obtain ⟨z', -, rfl⟩ := List.mem_map.mp member
          simp only
          omega
        · rw [value_append, value_scale, value_e, value_cons, value_nil, add_zero, pow23_succ_right, pow23_zero_zero,
            mul_one]
        · rw [cost_concat (isChain_scale.mpr thirds).ne_nil, cost_scale thirds.ne_nil]
          omega
  · obtain rfl : minus' = !minus := Bool.eq_not_of_ne same
    exact .inr ⟨rest, chain', by cases minus <;> simp, by omega⟩

theorem Costs.add_unit (cheap : D ≤ A) (costs : Costs D T A v w) (minus : Bool) :
    Costs D T A (v + Term.value ⟨0, 0, minus⟩) (w + A) := by
  rcases costs with rfl | ⟨c, chain, rfl, bound⟩
  · rw [zero_add]
    exact (costs_term _).mono (by simp)
  · exact (chain.add_unit cheap minus).mono (by omega)

/-- A chain whose exponents never grow, but may repeat, divided by a power that divides its terms. -/
private theorem exists_costs (cheap : D ≤ A) {b t : ℕ} (nonempty : c ≠ [])
    (descending : c.Pairwise fun x y => y.dbl ≤ x.dbl ∧ y.tpl ≤ x.tpl) (divides : ∀ y ∈ c, b ≤ y.dbl ∧ t ≤ y.tpl) :
    ∃ v w, value c = pow23 b t * v ∧ Costs D T A v w ∧ w + D * b + T * t = cost D T A c := by
  induction c using List.reverseRecOn generalizing b t with
  | nil => exact absurd rfl nonempty
  | append_singleton c x ih =>
    obtain ⟨left, right⟩ := divides x (by simp)
    obtain ⟨dbl, tpl, minus⟩ := x
    obtain ⟨i, rfl⟩ := Nat.exists_eq_add_of_le left
    obtain ⟨j, rfl⟩ := Nat.exists_eq_add_of_le right
    have term : Term.value ⟨b + i, t + j, minus⟩ = pow23 b t * (pow23 i j * Term.value ⟨0, 0, minus⟩) := by
      have weight := pow23_add b t i j
      cases minus <;> simp only [Term.value, Term.weight, weight, pow23_zero_zero] <;> simp <;> ring
    by_cases empty : c = []
    · subst empty
      refine ⟨pow23 i j * Term.value ⟨0, 0, minus⟩, D * i + T * j, ?_, ?_, ?_⟩
      · rw [List.nil_append, value_cons, value_nil, add_zero, term]
      · simpa using (costs_term (D := D) (T := T) (A := A) ⟨0, 0, minus⟩).scale i j
      · simp only [List.nil_append, cost, List.length_nil]
        ring
    · obtain ⟨earlier, -, last⟩ := List.pairwise_append.mp descending
      obtain ⟨v, w, sum, costs, price⟩ := ih empty earlier fun y member => last y member _ List.mem_cons_self
      refine ⟨pow23 i j * (v + Term.value ⟨0, 0, minus⟩), w + A + D * i + T * j, ?_,
        (costs.add_unit cheap minus).scale i j, ?_⟩
      · have weight := pow23_add b t i j
        rw [value_append, value_cons, value_nil, add_zero, sum, term, weight]
        ring
      · rw [cost_concat empty, ← price]
        simp only [mul_add]
        ring

/-- Repeated terms do not make a chain cheaper than those without. -/
theorem costs_of_descending (cheap : D ≤ A) (nonempty : c ≠ [])
    (descending : c.Pairwise fun x y => y.dbl ≤ x.dbl ∧ y.tpl ≤ x.tpl) : Costs D T A (value c) (cost D T A c) := by
  obtain ⟨v, w, sum, costs, price⟩ := exists_costs (T := T) cheap (b := 0) (t := 0) nonempty descending
    fun y _ => ⟨Nat.zero_le _, Nat.zero_le _⟩
  rw [pow23_zero_zero, one_mul] at sum
  rw [sum]
  exact costs.mono (by omega)

end Costs

end DoubleBase
