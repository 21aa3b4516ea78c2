import Mathlib.Data.Int.Order.Basic
import Mathlib.Algebra.BigOperators.Group.List.Basic
import Mathlib.Tactic

/-! # Double-base chains and their shortest forms

A double-base chain is a signed sum of terms `2 ^ a * 3 ^ b` in which every term strictly divides
the one before it. This file develops the number theory of such chains on its own: how large a
chain below `2 ^ b * 3 ^ t` can be, which rewritings shorten one, and a case analysis that reduces
every chain below `2 ^ b * 3 ^ t` to chains below the two maximal proper divisors of that bound
without lengthening it. The last section bounds the leading term of a cheapest chain.
-/

namespace DoubleBase

/-- A signed power product, `± 2 ^ dbl * 3 ^ tpl`. -/
structure Term where
  dbl : ℕ
  tpl : ℕ
  minus : Bool
deriving DecidableEq, Repr

/-- The power product `2 ^ b * 3 ^ t` as an integer. -/
def pow23 (b t : ℕ) : ℤ := 2 ^ b * 3 ^ t

theorem pow23_pos (b t : ℕ) : 0 < pow23 b t := by unfold pow23; positivity

@[simp] theorem pow23_zero_zero : pow23 0 0 = 1 := by simp [pow23]

@[simp] theorem pow23_succ_left (b t : ℕ) : pow23 (b + 1) t = 2 * pow23 b t := by
  simp only [pow23, pow_succ]; ring

@[simp] theorem pow23_succ_right (b t : ℕ) : pow23 b (t + 1) = 3 * pow23 b t := by
  simp only [pow23, pow_succ]; ring

theorem pow23_add (b t i j : ℕ) : pow23 (b + i) (t + j) = pow23 i j * pow23 b t := by
  simp only [pow23, pow_add]; ring

theorem pow23_mono {b t b' t' : ℕ} (left : b ≤ b') (right : t ≤ t') : pow23 b t ≤ pow23 b' t' := by
  unfold pow23
  gcongr <;> norm_num

/-- A proper divisor of a power product is at most half of it. -/
theorem two_mul_pow23_le {b t b' t' : ℕ} (left : b ≤ b') (right : t ≤ t') (proper : b + t < b' + t') :
    2 * pow23 b t ≤ pow23 b' t' := by
  obtain smaller | smaller : b + 1 ≤ b' ∨ t + 1 ≤ t' := by omega
  · have := pow23_mono smaller right
    simpa using this
  · have := pow23_mono left smaller
    have := pow23_pos b t
    simp only [pow23_succ_right] at *
    omega

namespace Term

def weight (x : Term) : ℤ := pow23 x.dbl x.tpl

def value (x : Term) : ℤ := if x.minus then -x.weight else x.weight

def neg (x : Term) : Term := { x with minus := !x.minus }

@[simp] theorem neg_dbl (x : Term) : x.neg.dbl = x.dbl := rfl
@[simp] theorem neg_tpl (x : Term) : x.neg.tpl = x.tpl := rfl

@[simp] theorem value_neg (x : Term) : x.neg.value = -x.value := by
  rcases x with ⟨dbl, tpl, _ | _⟩ <;> simp [neg, value, weight]

theorem abs_value (x : Term) : |x.value| = x.weight := by
  have positive := pow23_pos x.dbl x.tpl
  unfold value
  split <;> simp [weight, abs_of_pos positive]

end Term

/-- The number a list of terms stands for. -/
def value (c : List Term) : ℤ := (c.map Term.value).sum

@[simp] theorem value_nil : value [] = 0 := rfl
@[simp] theorem value_cons (x : Term) (c : List Term) : value (x :: c) = x.value + value c := by
  simp [value]

theorem value_append (c d : List Term) : value (c ++ d) = value c + value d := by simp [value]

/-- A chain below `2 ^ b * 3 ^ t`: leading term first, the leading term strictly divides the bound
and every later term strictly divides the term before it. -/
def Below : ℕ → ℕ → List Term → Prop
  | _, _, [] => True
  | b, t, x :: c => (x.dbl ≤ b ∧ x.tpl ≤ t ∧ x.dbl + x.tpl < b + t) ∧ Below x.dbl x.tpl c

@[simp] theorem below_nil (b t : ℕ) : Below b t [] := trivial

@[simp] theorem below_cons (b t : ℕ) (x : Term) (c : List Term) :
    Below b t (x :: c) ↔ (x.dbl ≤ b ∧ x.tpl ≤ t ∧ x.dbl + x.tpl < b + t) ∧ Below x.dbl x.tpl c := Iff.rfl

theorem Below.mono {b t b' t' : ℕ} {c : List Term} (chain : Below b t c) (left : b ≤ b')
    (right : t ≤ t') : Below b' t' c := by
  cases c with
  | nil => trivial
  | cons x c =>
    obtain ⟨⟨_, _, _⟩, rest⟩ := chain
    exact ⟨by omega, rest⟩

/-- Each term drops at least one factor, so a chain is no longer than the exponents of its bound. -/
theorem Below.length_le {b t : ℕ} {c : List Term} (chain : Below b t c) : c.length ≤ b + t := by
  induction c generalizing b t with
  | nil => simp
  | cons x c ih =>
    obtain ⟨⟨_, _, _⟩, rest⟩ := chain
    have := ih rest
    simp only [List.length_cons]
    omega

/-- The terms below a bound sum to strictly less than the bound. -/
theorem Below.abs_value_lt {b t : ℕ} {c : List Term} (chain : Below b t c) : |value c| < pow23 b t := by
  induction c generalizing b t with
  | nil => simpa using pow23_pos b t
  | cons x c ih =>
    obtain ⟨⟨left, right, proper⟩, rest⟩ := chain
    have tail : |value c| < x.weight := ih rest
    have half : 2 * x.weight ≤ pow23 b t := two_mul_pow23_le left right proper
    calc |value (x :: c)| = |x.value + value c| := by simp
      _ ≤ |x.value| + |value c| := abs_add_le _ _
      _ < x.weight + x.weight := by rw [x.abs_value]; omega
      _ ≤ pow23 b t := by omega

theorem Below.value_lt {b t : ℕ} {c : List Term} (chain : Below b t c) :
    -pow23 b t < value c ∧ value c < pow23 b t := abs_lt.mp chain.abs_value_lt

/-- Flip every sign. -/
def negate (c : List Term) : List Term := c.map Term.neg

@[simp] theorem negate_cons (x : Term) (c : List Term) : negate (x :: c) = x.neg :: negate c := rfl
@[simp] theorem length_negate (c : List Term) : (negate c).length = c.length := by simp [negate]

@[simp] theorem value_negate (c : List Term) : value (negate c) = -value c := by
  induction c with
  | nil => rfl
  | cons x c ih => simp [ih]; ring

theorem Below.negate {b t : ℕ} {c : List Term} (chain : Below b t c) : Below b t (negate c) := by
  induction c generalizing b t with
  | nil => trivial
  | cons x c ih => exact ⟨chain.1, ih chain.2⟩

@[simp] theorem negate_negate (c : List Term) : negate (negate c) = c := by
  have twice : Term.neg ∘ Term.neg = id := by
    funext ⟨dbl, tpl, minus⟩
    simp [Term.neg]
  simp [DoubleBase.negate, twice]

/-- The sign of a nonempty chain is the sign of its leading term. -/
theorem Below.leading_sign {b t : ℕ} {x : Term} {c : List Term} (chain : Below b t (x :: c)) :
    x.minus = true ↔ value (x :: c) < 0 := by
  have tail := chain.2.value_lt
  have positive := pow23_pos x.dbl x.tpl
  rcases x with ⟨dbl, tpl, _ | _⟩ <;> simp [Term.value, Term.weight] at * <;> omega

/-! ## Rewriting a chain towards a maximal proper divisor of its bound -/

/-- `v` has a chain of at most `k` terms below the half bound. -/
def HalfDrop (b t : ℕ) (v : ℤ) (k : ℕ) : Prop :=
  ∃ b' c, b = b' + 1 ∧ Below b' t c ∧ value c = v ∧ c.length ≤ k

/-- `v` has a chain of at most `k` terms below a third of the bound. -/
def ThirdDrop (b t : ℕ) (v : ℤ) (k : ℕ) : Prop :=
  ∃ t' c, t = t' + 1 ∧ Below b t' c ∧ value c = v ∧ c.length ≤ k

/-- `v` has a chain of at most `k` terms led by half of the bound. -/
def HalfStep (minus : Bool) (b t : ℕ) (v : ℤ) (k : ℕ) : Prop :=
  ∃ b' c, b = b' + 1 ∧ Below b' t c ∧ Term.value ⟨b', t, minus⟩ + value c = v ∧ c.length + 1 ≤ k

/-- `v` has a chain of at most `k` terms led by a third of the bound. -/
def ThirdStep (minus : Bool) (b t : ℕ) (v : ℤ) (k : ℕ) : Prop :=
  ∃ t' c, t = t' + 1 ∧ Below b t' c ∧ Term.value ⟨b, t', minus⟩ + value c = v ∧ c.length + 1 ≤ k

section Steps

variable {b t : ℕ} {v : ℤ} {k : ℕ} {minus : Bool}

theorem HalfDrop.negate (drop : HalfDrop b t v k) : HalfDrop b t (-v) k := by
  obtain ⟨b', c, rfl, chain, rfl, bound⟩ := drop
  exact ⟨b', DoubleBase.negate c, rfl, chain.negate, value_negate c, by simpa using bound⟩

theorem ThirdDrop.negate (drop : ThirdDrop b t v k) : ThirdDrop b t (-v) k := by
  obtain ⟨t', c, rfl, chain, rfl, bound⟩ := drop
  exact ⟨t', DoubleBase.negate c, rfl, chain.negate, value_negate c, by simpa using bound⟩

theorem HalfStep.negate (step : HalfStep minus b t v k) : HalfStep (!minus) b t (-v) k := by
  obtain ⟨b', c, rfl, chain, rfl, bound⟩ := step
  refine ⟨b', DoubleBase.negate c, rfl, chain.negate, ?_, by simpa using bound⟩
  have flipped := Term.value_neg ⟨b', t, minus⟩
  simp only [Term.neg] at flipped
  rw [flipped, value_negate]
  ring

theorem ThirdStep.negate (step : ThirdStep minus b t v k) : ThirdStep (!minus) b t (-v) k := by
  obtain ⟨t', c, rfl, chain, rfl, bound⟩ := step
  refine ⟨t', DoubleBase.negate c, rfl, chain.negate, ?_, by simpa using bound⟩
  have flipped := Term.value_neg ⟨b, t', minus⟩
  simp only [Term.neg] at flipped
  rw [flipped, value_negate]
  ring

theorem HalfDrop.lt (drop : HalfDrop b t v k) : 2 * v < pow23 b t := by
  obtain ⟨b', c, rfl, chain, rfl, -⟩ := drop
  have := chain.value_lt
  rw [pow23_succ_left]
  omega

theorem ThirdDrop.lt (drop : ThirdDrop b t v k) : 3 * v < pow23 b t := by
  obtain ⟨t', c, rfl, chain, rfl, -⟩ := drop
  have := chain.value_lt
  rw [pow23_succ_right]
  omega

theorem HalfStep.neg_of_minus (step : HalfStep true b t v k) : v < 0 := by
  obtain ⟨b', c, rfl, chain, rfl, -⟩ := step
  have := chain.value_lt
  simp only [Term.value, Term.weight, if_true]
  omega

theorem ThirdStep.neg_of_minus (step : ThirdStep true b t v k) : v < 0 := by
  obtain ⟨t', c, rfl, chain, rfl, -⟩ := step
  have := chain.value_lt
  simp only [Term.value, Term.weight, if_true]
  omega

end Steps

/-- Every chain either stays below one of the two maximal proper divisors or starts with one. -/
theorem Below.split {b t : ℕ} {c : List Term} (chain : Below b t c) (proper : 0 < b + t) :
    HalfDrop b t (value c) c.length ∨ ThirdDrop b t (value c) c.length ∨
      (∃ minus, HalfStep minus b t (value c) c.length) ∨
        ∃ minus, ThirdStep minus b t (value c) c.length := by
  cases c with
  | nil =>
    obtain ⟨b', rfl⟩ | ⟨t', rfl⟩ : (∃ b', b = b' + 1) ∨ ∃ t', t = t' + 1 := by
      rcases b with _ | b'
      · exact .inr ⟨t - 1, by omega⟩
      · exact .inl ⟨b', rfl⟩
    · exact .inl ⟨b', [], rfl, trivial, rfl, le_refl _⟩
    · exact .inr (.inl ⟨t', [], rfl, trivial, rfl, le_refl _⟩)
  | cons x c =>
    rcases x with ⟨dbl, tpl, minus⟩
    obtain ⟨⟨left, right, proper⟩, rest⟩ := chain
    simp only at left right proper rest
    by_cases full : dbl = b
    · subst full
      obtain ⟨t', rfl⟩ : ∃ t', t = t' + 1 := ⟨t - 1, by omega⟩
      by_cases top : tpl = t'
      · subst top
        exact .inr (.inr (.inr ⟨minus, tpl, c, rfl, rest, by simp, by simp⟩))
      · exact .inr (.inl ⟨t', ⟨dbl, tpl, minus⟩ :: c, rfl, ⟨by simp only; omega, rest⟩, rfl, le_refl _⟩)
    · obtain ⟨b', rfl⟩ : ∃ b', b = b' + 1 := ⟨b - 1, by omega⟩
      by_cases top : dbl = b' ∧ tpl = t
      · obtain ⟨rfl, rfl⟩ := top
        exact .inr (.inr (.inl ⟨minus, dbl, c, rfl, rest, by simp, by simp⟩))
      · exact .inl ⟨b', ⟨dbl, tpl, minus⟩ :: c, rfl, ⟨by simp only; omega, rest⟩, rfl, le_refl _⟩

/-- A leading term larger than `1 / k` of the bound, for `k ≤ 6`, misses only a few factors. -/
private theorem small_quotient {i j : ℕ} (proper : 0 < i + j) (small : pow23 i j < 6) :
    (i = 1 ∧ j = 0) ∨ (i = 0 ∧ j = 1) ∨ (i = 2 ∧ j = 0) := by
  have iBound : i < 3 := by
    by_contra large
    have := pow23_mono (show 3 ≤ i by omega) (Nat.zero_le j)
    norm_num [pow23] at this small
    omega
  have jBound : j < 2 := by
    by_contra large
    have := pow23_mono (Nat.zero_le i) (show 2 ≤ j by omega)
    norm_num [pow23] at this small
    omega
  interval_cases i <;> interval_cases j <;> simp_all [pow23]

theorem quotient {b t dbl tpl : ℕ} (left : dbl ≤ b) (right : tpl ≤ t)
    (proper : dbl + tpl < b + t) {k : ℤ} (bound : k ≤ 6) (large : pow23 b t < k * pow23 dbl tpl) :
    (b = dbl + 1 ∧ t = tpl ∧ 2 < k) ∨ (b = dbl ∧ t = tpl + 1 ∧ 3 < k) ∨ (b = dbl + 2 ∧ t = tpl ∧ 4 < k) := by
  obtain ⟨i, rfl⟩ := Nat.exists_eq_add_of_le left
  obtain ⟨j, rfl⟩ := Nat.exists_eq_add_of_le right
  rw [pow23_add] at large
  have small : pow23 i j < k := lt_of_mul_lt_mul_right large (pow23_pos dbl tpl).le
  obtain ⟨rfl, rfl⟩ | ⟨rfl, rfl⟩ | ⟨rfl, rfl⟩ := small_quotient (by omega) (small.trans_le bound)
  · exact .inl ⟨rfl, rfl, by simpa using small⟩
  · exact .inr (.inl ⟨rfl, rfl, by simpa using small⟩)
  · exact .inr (.inr ⟨rfl, rfl, by simpa using small⟩)

/-- A chain reaching half of its bound can lead with that half: a leading third is merged with the
rest, which then reaches half of the third. -/
theorem Below.halfStep {b t : ℕ} {c : List Term} (chain : Below b t c)
    (large : pow23 b t ≤ 2 * value c) : HalfStep false b t (value c) c.length := by
  induction c generalizing b t with
  | nil =>
    have := pow23_pos b t
    simp only [value_nil] at large
    omega
  | cons x c ih =>
    have sign := chain.leading_sign
    obtain ⟨⟨left, right, proper⟩, rest⟩ := chain
    have tail := rest.value_lt
    rcases x with ⟨dbl, tpl, minus⟩
    have positive := pow23_pos b t
    have plus : minus = false := by
      cases minus
      · rfl
      · have := sign.mp rfl
        omega
    subst plus
    have expand : value (⟨dbl, tpl, false⟩ :: c) = pow23 dbl tpl + value c := by
      simp [Term.value, Term.weight]
    rw [expand] at large ⊢
    simp only at left right proper tail
    obtain ⟨rfl, rfl, -⟩ | ⟨rfl, rfl, -⟩ | ⟨-, -, absurd⟩ :=
      quotient left right proper (k := 4) (by norm_num) (by omega)
    · exact ⟨dbl, c, rfl, rest, by simp [Term.value, Term.weight], by simp⟩
    · -- the leading term is a third of the bound, so the rest reaches half of that third
      rw [pow23_succ_right] at large
      obtain ⟨b', d, rfl, below, sum, short⟩ := ih rest (by simp only; omega)
      refine ⟨b', d, rfl, below.mono le_rfl (Nat.le_succ _), ?_, by simp only [List.length_cons]; omega⟩
      simp only [Term.value, Term.weight, Bool.false_eq_true, if_false, pow23_succ_left,
        pow23_succ_right] at sum ⊢
      omega
    · omega

/-- A chain of a number up to a third of the bound need not lead with half of the bound. -/
theorem HalfStep.avoid {b t : ℕ} {v : ℤ} {k : ℕ} (step : HalfStep false b t v k)
    (small : 3 * v ≤ pow23 b t) : HalfDrop b t v k ∨ ThirdStep false b t v k := by
  obtain ⟨b', c, rfl, chain, rfl, bound⟩ := step
  simp only [Term.value, Term.weight, Bool.false_eq_true, if_false, pow23_succ_left] at small ⊢
  have positive := pow23_pos b' t
  cases c with
  | nil =>
    simp only [value_nil] at small
    omega
  | cons x c =>
    have sign := chain.leading_sign
    obtain ⟨⟨left, right, proper⟩, rest⟩ := chain
    have tail := rest.value_lt
    rcases x with ⟨dbl, tpl, minus⟩
    obtain rfl : minus = true := sign.mpr (by omega)
    have expand : value (⟨dbl, tpl, true⟩ :: c) = -pow23 dbl tpl + value c := by
      simp [Term.value, Term.weight]
    rw [expand] at small ⊢
    simp only [List.length_cons] at left right proper tail bound
    obtain ⟨rfl, rfl, -⟩ | ⟨rfl, rfl, -⟩ | ⟨rfl, rfl, -⟩ :=
      quotient left right proper (k := 6) le_rfl (by omega)
    · -- 1/2 - 1/4 = 1/4
      refine .inl ⟨dbl + 1, ⟨dbl, t, false⟩ :: c, rfl, ⟨by simp only; omega, rest⟩, ?_, by simpa using by omega⟩
      simp only [value_cons, Term.value, Term.weight, Bool.false_eq_true, if_false, pow23_succ_left]
      omega
    · -- 1/2 - 1/6 = 1/3
      refine .inr ⟨tpl, c, rfl, rest.mono (Nat.le_succ _) le_rfl, ?_, by omega⟩
      simp only [Term.value, Term.weight, Bool.false_eq_true, if_false, pow23_succ_left, pow23_succ_right]
      omega
    · -- 1/2 - 1/8 = 1/4 + 1/8
      refine .inl ⟨dbl + 2, ⟨dbl + 1, t, false⟩ :: ⟨dbl, t, false⟩ :: c, rfl,
        ⟨by simp only; omega, by simp only; omega, rest⟩, ?_, by simpa using by omega⟩
      simp only [value_cons, Term.value, Term.weight, Bool.false_eq_true, if_false, pow23_succ_left]
      omega

/-- Predecessors that suffice for a number up to a third of the bound. -/
theorem Below.reduce_low {b t : ℕ} {c : List Term} (chain : Below b t c) (proper : 0 < b + t)
    (nonneg : 0 ≤ value c) (small : 3 * value c ≤ pow23 b t) :
    HalfDrop b t (value c) c.length ∨ ThirdDrop b t (value c) c.length ∨
      ThirdStep false b t (value c) c.length := by
  obtain drop | drop | ⟨_ | _, step⟩ | ⟨_ | _, step⟩ := chain.split proper
  · exact .inl drop
  · exact .inr (.inl drop)
  · exact (step.avoid small).imp_right .inr
  · exact absurd step.neg_of_minus (by omega)
  · exact .inr (.inr step)
  · exact absurd step.neg_of_minus (by omega)

/-- Predecessors that suffice for a number between a third and half of the bound. -/
theorem Below.reduce_mid {b t : ℕ} {c : List Term} (chain : Below b t c) (proper : 0 < b + t)
    (large : pow23 b t ≤ 3 * value c) :
    HalfDrop b t (value c) c.length ∨ HalfStep false b t (value c) c.length ∨
      ThirdStep false b t (value c) c.length := by
  have positive := pow23_pos b t
  obtain drop | drop | ⟨_ | _, step⟩ | ⟨_ | _, step⟩ := chain.split proper
  · exact .inl drop
  · exact absurd drop.lt (by omega)
  · exact .inr (.inl step)
  · exact absurd step.neg_of_minus (by omega)
  · exact .inr (.inr step)
  · exact absurd step.neg_of_minus (by omega)

end DoubleBase
