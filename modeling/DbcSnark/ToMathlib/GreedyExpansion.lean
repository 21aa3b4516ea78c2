import Mathlib.Data.Nat.Dist
import Mathlib.Data.Nat.Log
import Mathlib.Data.Prod.Lex
import Mathlib.Order.Interval.Finset.Nat
import Mathlib.Tactic

/-! # Greedy expansions in power products of 2 and 3

The greedy rule replaces a number by its distance to the nearest of the products `2 ^ i * 3 ^ j` whose exponents
are not above the last ones and whose exponent of 3 lies in a window below the last one. A step of it lowers the
exponent of 3 or the number, so every number has exactly one expansion. From a number near to the product of the last
exponents, a step inside the window takes the number below the next power of 3, at most half of what it was; where every
power of 3 in the window is above the number, two steps come back to it at worst. So the power of 3 above the number and
twice the windows left below the exponent of 3 bound the length of the expansion.
-/

namespace DoubleBase

/-- The exponents that the rule may choose after `a` and `b`. -/
structure InWindow (window a b i j : ℕ) : Prop where
  left : i ≤ a
  right : j ≤ b
  near : b ≤ j + window

/-- The rule minimises the distance, then the exponent of 3, then the exponent of 2. -/
def preference (t i j : ℕ) : ℕ ×ₗ ℕ ×ₗ ℕ := toLex (Nat.dist t (2 ^ i * 3 ^ j), toLex (j, i))

/-- The exponents that the rule chooses for `t` after `a` and `b`. -/
structure Nearest (window a b t i j : ℕ) : Prop where
  inside : InWindow window a b i j
  least : ∀ i' j', InWindow window a b i' j' → preference t i j ≤ preference t i' j'

/-- `terms` are the exponents that the rule chooses for `t` and for the distances it leaves, down to zero. -/
def Expansion (window : ℕ) : ℕ → ℕ → ℕ → List (ℕ × ℕ) → Prop
  | _, _, t, [] => t = 0
  | a, b, t, (i, j) :: terms =>
    t ≠ 0 ∧ Nearest window a b t i j ∧ Expansion window i j (Nat.dist t (2 ^ i * 3 ^ j)) terms

/-- The numbers that are subtracted from each other along the terms, the larger one first. -/
def subtractions : ℕ → List (ℕ × ℕ) → List (ℕ × ℕ)
  | _, [] => []
  | t, (i, j) :: terms =>
    (max t (2 ^ i * 3 ^ j), min t (2 ^ i * 3 ^ j)) :: subtractions (Nat.dist t (2 ^ i * 3 ^ j)) terms

section Rule

variable {window a b t i j i' j' : ℕ}

theorem preference_le_iff : preference t i j ≤ preference t i' j' ↔
    Nat.dist t (2 ^ i * 3 ^ j) ≤ Nat.dist t (2 ^ i' * 3 ^ j') ∧
      (Nat.dist t (2 ^ i * 3 ^ j) = Nat.dist t (2 ^ i' * 3 ^ j') → j ≤ j' ∧ (j = j' → i ≤ i')) := by
  simp only [preference, Prod.Lex.toLex_le_toLex']

/-- Smaller exponents make a smaller product. -/
theorem InWindow.product_le (inside : InWindow window a b i j) : 2 ^ i * 3 ^ j ≤ 2 ^ a * 3 ^ b :=
  Nat.mul_le_mul (Nat.pow_le_pow_right (by decide) inside.left) (Nat.pow_le_pow_right (by decide) inside.right)

theorem Nearest.unique (near : Nearest window a b t i j) (near' : Nearest window a b t i' j') : i = i' ∧ j = j' := by
  have same : preference t i j = preference t i' j' :=
    le_antisymm (near.least i' j' near'.inside) (near'.least i j near.inside)
  simp only [preference, EmbeddingLike.apply_eq_iff_eq, Prod.mk.injEq] at same
  exact ⟨same.2.2, same.2.1⟩

theorem exists_nearest (window a b t : ℕ) : ∃ i j, Nearest window a b t i j := by
  obtain ⟨⟨i, j⟩, member, least⟩ := Finset.exists_min_image (Finset.range (a + 1) ×ˢ Finset.Icc (b - window) b)
    (fun x => preference t x.1 x.2) ⟨(0, b), by simp⟩
  simp only [Finset.mem_product, Finset.mem_range, Finset.mem_Icc] at member
  refine ⟨i, j, ⟨by omega, by omega, by omega⟩, fun i' j' inside => least (i', j') ?_⟩
  have := inside.left
  have := inside.right
  have := inside.near
  simp only [Finset.mem_product, Finset.mem_range, Finset.mem_Icc]
  omega

theorem Nearest.dist_le (near : Nearest window a b t i j) (inside : InWindow window a b i' j') :
    Nat.dist t (2 ^ i * 3 ^ j) ≤ Nat.dist t (2 ^ i' * 3 ^ j') :=
  (preference_le_iff.mp (near.least i' j' inside)).1

/-- A step lowers the exponent of 3, or keeps it and lowers the number. -/
theorem Nearest.descends (deep : 0 < window) (positive : 0 < t) (near : Nearest window a b t i j) :
    j < b ∨ j = b ∧ Nat.dist t (2 ^ i * 3 ^ j) < t := by
  rcases Nat.lt_or_eq_of_le near.inside.right with lower | rfl
  · exact .inl lower
  refine .inr ⟨rfl, ?_⟩
  have power : 0 < 3 ^ j := by positivity
  have here := near.dist_le ⟨Nat.zero_le _, le_rfl, Nat.le_add_right j window⟩
  rw [pow_zero, one_mul] at here
  by_cases below : 3 ^ j < t
  · rw [Nat.dist_eq_sub_of_le_right below.le] at here
    omega
  cases j with
  | zero =>
    rw [pow_zero] at below here ⊢
    obtain rfl : t = 1 := by omega
    rw [Nat.dist_self] at here
    omega
  | succ j =>
    -- the next power of 3 would be nearer than any product that is not below `t`
    have next : Nat.dist t (2 ^ i * 3 ^ (j + 1)) ≤ Nat.dist t (2 ^ 0 * 3 ^ j) :=
      near.dist_le ⟨Nat.zero_le a, by omega, by omega⟩
    have product : 3 ^ (j + 1) ≤ 2 ^ i * 3 ^ (j + 1) := Nat.le_mul_of_pos_left _ (by positivity)
    have triple : 3 ^ (j + 1) = 3 * 3 ^ j := pow_succ' 3 j
    rw [pow_zero, one_mul] at next
    unfold Nat.dist at *
    omega

/-- Every number has an expansion. -/
theorem exists_expansion (deep : 0 < window) (a b t : ℕ) : ∃ terms, Expansion window a b t terms := by
  induction measure : (b, t) using (Prod.lex ⟨(· < ·), wellFounded_lt⟩
    ⟨(· < ·), wellFounded_lt⟩ : WellFoundedRelation (ℕ × ℕ)).wf.induction generalizing a b t with
  | _ m ih =>
    subst measure
    rcases Nat.eq_zero_or_pos t with rfl | positive
    · exact ⟨[], rfl⟩
    · obtain ⟨i, j, near⟩ := exists_nearest window a b t
      obtain ⟨terms, rest⟩ := ih _ (Prod.lex_def.mpr (near.descends deep positive)) i j _ rfl
      exact ⟨(i, j) :: terms, positive.ne', near, rest⟩

theorem Expansion.unique {terms terms' : List (ℕ × ℕ)} (expansion : Expansion window a b t terms)
    (expansion' : Expansion window a b t terms') : terms = terms' := by
  induction terms generalizing a b t terms' with
  | nil =>
    cases terms' with
    | nil => rfl
    | cons term terms' => exact absurd expansion expansion'.1
  | cons term terms ih =>
    cases terms' with
    | nil => exact absurd expansion' expansion.1
    | cons term' terms' =>
      obtain ⟨i, j⟩ := term
      obtain ⟨i', j'⟩ := term'
      obtain ⟨-, near, rest⟩ := expansion
      obtain ⟨-, near', rest'⟩ := expansion'
      obtain ⟨rfl, rfl⟩ := near.unique near'
      rw [ih rest rest']

end Rule

/-! ## The length of an expansion -/

section Length

variable {window a b t i j l rows : ℕ}

/-- Inside the window a step halves the number at least and takes it below the next power of 3. -/
theorem Nearest.halves (near : Nearest window a b t i j) (start : 2 * t ≤ 3 * (2 ^ a * 3 ^ b)) (below : 3 ^ l < t)
    (above : t ≤ 3 ^ (l + 1)) (inside : b ≤ l + window) :
    2 * Nat.dist t (2 ^ i * 3 ^ j) ≤ t ∧ Nat.dist t (2 ^ i * 3 ^ j) ≤ 3 ^ l := by
  have next : 3 ^ (l + 1) = 3 * 3 ^ l := pow_succ' 3 l
  rcases Nat.lt_or_ge l b with lower | higher
  · -- one of the two powers of 3 around the number is near enough
    have left := near.dist_le ⟨Nat.zero_le a, lower.le, inside⟩
    have right := near.dist_le ⟨Nat.zero_le a, lower, by omega⟩
    rw [pow_zero, one_mul, Nat.dist_eq_sub_of_le_right below.le] at left
    rw [pow_zero, one_mul, Nat.dist_eq_sub_of_le above] at right
    omega
  · -- one of the two products around the number with the exponent `b` is, unless `a` is too small
    have reached : 3 ^ b < t := lt_of_le_of_lt (Nat.pow_le_pow_right (by decide) higher) below
    have quotient : 0 < t / 3 ^ b := Nat.div_pos reached.le (by positivity)
    have lower := Nat.pow_log_le_self 2 quotient.ne'
    have upper := Nat.lt_pow_succ_log_self (by decide : 1 < 2) (t / 3 ^ b)
    rw [Nat.le_div_iff_mul_le (by positivity)] at lower
    rw [Nat.div_lt_iff_lt_mul (by positivity), pow_succ', Nat.mul_assoc] at upper
    have third : 3 * Nat.dist t (2 ^ i * 3 ^ j) ≤ t := by
      rcases Nat.lt_or_ge (Nat.log 2 (t / 3 ^ b)) a with free | limited
      · have left := near.dist_le ⟨free.le, le_rfl, Nat.le_add_right b window⟩
        have right := near.dist_le ⟨free, le_rfl, Nat.le_add_right b window⟩
        rw [Nat.dist_eq_sub_of_le_right lower] at left
        rw [pow_succ', Nat.mul_assoc, Nat.dist_eq_sub_of_le upper.le] at right
        omega
      · have here := near.dist_le ⟨le_rfl, le_rfl, Nat.le_add_right b window⟩
        have product : 2 ^ a * 3 ^ b ≤ 2 ^ Nat.log 2 (t / 3 ^ b) * 3 ^ b :=
          Nat.mul_le_mul_right _ (Nat.pow_le_pow_right (by decide) limited)
        rw [Nat.dist_eq_sub_of_le_right (product.trans lower)] at here
        omega
    omega

/-- Below all powers of 3 in the window the step takes the smallest one. -/
theorem Nearest.eq_of_far (near : Nearest window a b t i j) (inside : window ≤ b) (far : t ≤ 3 ^ (b - window)) :
    i = 0 ∧ j = b - window := by
  have closest := near.dist_le ⟨Nat.zero_le a, Nat.sub_le b window, by omega⟩
  rw [pow_zero, one_mul, Nat.dist_eq_sub_of_le far] at closest
  have bottom := near.inside.near
  have power : 3 ^ (b - window) ≤ 3 ^ j := Nat.pow_le_pow_right (by decide) (by omega)
  have product : 3 ^ j ≤ 2 ^ i * 3 ^ j := Nat.le_mul_of_pos_left _ (by positivity)
  rw [Nat.dist_eq_sub_of_le (far.trans (power.trans product))] at closest
  have same : 2 ^ i * 3 ^ j = 3 ^ (b - window) := by omega
  have last : j = b - window := by
    have below := (Nat.pow_le_pow_iff_right (by decide : 1 < 3)).mp (product.trans same.le)
    omega
  rw [last] at same
  have unit : 2 ^ i = 1 := (Nat.mul_eq_right (by positivity)).mp same
  exact ⟨(Nat.pow_eq_one.mp unit).resolve_left (by decide), last⟩

/-- At most `rows` terms are still to come: by the power of 3 above the number and the windows below the exponent, or
when the number is close to the power of 3 itself. -/
structure Within (window a b t rows : ℕ) : Prop where
  start : 2 * t ≤ 3 * (2 ^ a * 3 ^ b)
  budget : t = 0 ∨ (∃ l, t ≤ 3 ^ l ∧ l + 1 + 2 * (b / window) ≤ rows) ∨
    ∃ l < b, t ≤ 3 ^ b ∧ 3 ^ b ≤ t + 3 ^ l ∧ l + 2 + 2 * (b / window) ≤ rows

/-- After a step that halves the number the product is near. -/
private theorem start_of_half (half : 2 * Nat.dist t (2 ^ i * 3 ^ j) ≤ t) :
    2 * Nat.dist t (2 ^ i * 3 ^ j) ≤ 3 * (2 ^ i * 3 ^ j) := by
  rcases le_total (2 ^ i * 3 ^ j) t with below | above
  · rw [Nat.dist_eq_sub_of_le_right below] at half ⊢
    omega
  · rw [Nat.dist_eq_sub_of_le above]
    omega

/-- The step to the end of the window leaves the distance to a power of 3. -/
private theorem within_of_far {m : ℕ} (deep : 0 < window) (above : t ≤ 3 ^ m) (far : m + window ≤ b)
    (count : m + 1 + 2 * (b / window) ≤ rows + 1) :
    Within window 0 (b - window) (Nat.dist t (2 ^ 0 * 3 ^ (b - window))) rows := by
  have whole : b / window = (b - window) / window + 1 := by
    rw [← Nat.add_div_right _ deep, Nat.sub_add_cancel (by omega)]
  have power : 3 ^ m ≤ 3 ^ (b - window) := Nat.pow_le_pow_right (by decide) (by omega)
  rw [pow_zero, one_mul, Nat.dist_eq_sub_of_le (above.trans power)]
  constructor
  · rw [pow_zero, one_mul]
    omega
  · rcases Nat.lt_or_ge m (b - window) with less | more
    · exact .inr (.inr ⟨m, less, Nat.sub_le _ _, by omega, by omega⟩)
    · obtain rfl : m = b - window := by omega
      exact .inr (.inl ⟨b - window, Nat.sub_le _ _, by omega⟩)

/-- A step is one of the terms. -/
theorem Within.step (deep : 0 < window) (positive : 0 < t) (within : Within window a b t rows)
    (near : Nearest window a b t i j) :
    ∃ rest, rows = rest + 1 ∧ Within window i j (Nat.dist t (2 ^ i * 3 ^ j)) rest := by
  have smaller : j / window ≤ b / window := Nat.div_le_div_right near.inside.right
  obtain zero | ⟨l, above, count⟩ | ⟨l, lower, inside, close, count⟩ := within.budget
  · omega
  · obtain ⟨rest, rfl⟩ : ∃ rest, rows = rest + 1 := ⟨rows - 1, by omega⟩
    refine ⟨rest, rfl, ?_⟩
    -- the power of 3 next to the number
    have bound : Nat.clog 3 t ≤ l := Nat.clog_le_of_le_pow above
    have reach : t ≤ 3 ^ Nat.clog 3 t := Nat.le_pow_clog (by decide) t
    by_cases far : Nat.clog 3 t + window ≤ b
    · have power : 3 ^ Nat.clog 3 t ≤ 3 ^ (b - window) := Nat.pow_le_pow_right (by decide) (by omega)
      obtain ⟨rfl, rfl⟩ := near.eq_of_far (by omega) (reach.trans power)
      exact within_of_far deep reach far (by omega)
    rcases Nat.lt_or_ge 1 t with large | one
    · obtain ⟨m, next⟩ : ∃ m, Nat.clog 3 t = m + 1 :=
        ⟨Nat.clog 3 t - 1, by have := Nat.clog_pos (by decide : 1 < 3) large; omega⟩
      have below : 3 ^ m < t := by
        have pred := Nat.pow_pred_clog_lt_self (by decide : 1 < 3) large
        rwa [next] at pred
      obtain ⟨half, short⟩ := near.halves within.start below (next ▸ reach) (by omega)
      exact ⟨start_of_half half, .inr (.inl ⟨m, short, by omega⟩)⟩
    · obtain rfl : t = 1 := by omega
      have flat : Nat.clog 3 1 = 0 := Nat.clog_one_right 3
      have last : Nat.dist 1 (2 ^ i * 3 ^ j) ≤ Nat.dist 1 (2 ^ 0 * 3 ^ 0) :=
        near.dist_le ⟨Nat.zero_le a, Nat.zero_le b, by omega⟩
      have done : Nat.dist 1 (2 ^ i * 3 ^ j) = 0 := Nat.le_zero.mp last
      exact ⟨by rw [done]; exact Nat.zero_le _, .inl done⟩
  · -- back from the power of 3
    obtain ⟨rest, rfl⟩ : ∃ rest, rows = rest + 1 := ⟨rows - 1, by omega⟩
    have back := near.dist_le ⟨Nat.zero_le a, le_rfl, Nat.le_add_right b window⟩
    rw [pow_zero, one_mul, Nat.dist_eq_sub_of_le inside] at back
    have power : 3 * 3 ^ l ≤ 3 ^ b := by
      rw [← pow_succ']
      exact Nat.pow_le_pow_right (by decide) lower
    have half : 2 * Nat.dist t (2 ^ i * 3 ^ j) ≤ t := by omega
    exact ⟨rest, rfl, start_of_half half, .inr (.inl ⟨l, by omega, by omega⟩)⟩

theorem Expansion.length_le (deep : 0 < window) {terms : List (ℕ × ℕ)} (expansion : Expansion window a b t terms)
    (within : Within window a b t rows) : terms.length ≤ rows := by
  induction terms generalizing a b t rows with
  | nil => exact Nat.zero_le rows
  | cons term terms ih =>
    obtain ⟨i, j⟩ := term
    obtain ⟨nonzero, near, later⟩ := expansion
    obtain ⟨rest, rfl, next⟩ := within.step deep (Nat.pos_of_ne_zero nonzero) near
    exact Nat.succ_le_succ (ih later next)

end Length

end DoubleBase
