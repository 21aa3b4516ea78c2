import DbcSnark.ToMathlib.Jacobian

/-! # Arithmetic on abscissas

The coordinates `(X : Z)` hold a point up to its sign: the abscissa is `X / Z`, and `Z` is zero at infinity. A double is
found from them, and a sum when the abscissa of the difference is known, without any case distinction. The ordinate of a
multiple is found from its abscissa and that of the next one.
-/

open WeierstrassCurve.Affine (Point)
open Jacobian (curve)

namespace XOnly

variable {F : Type*} [Field F] {a b : F}

/-- The coordinates `(X : Z)` hold the point or its opposite. -/
def Holds (X Z : F) : (curve a b).Point → Prop
  | .zero => Z = 0 ∧ X ≠ 0
  | .some x _ _ => Z ≠ 0 ∧ X = x * Z

variable {X Z X' Z' X₁ Z₁ X₂ Z₂ x x₁ y₁ x₂ y₂ : F} {P Q : (curve a b).Point}

theorem Holds.of_eq (holds : Holds X Z P) (hX : X' = X) (hZ : Z' = Z) : Holds X' Z' P := by
  subst hX hZ
  exact holds

theorem Holds.scale (holds : Holds X Z P) {c : F} (unit : c ≠ 0) : Holds (X * c) (Z * c) P := by
  cases P with
  | zero => exact ⟨mul_eq_zero_of_left holds.1 c, mul_ne_zero holds.2 unit⟩
  | some x y h =>
    obtain ⟨finite, rfl⟩ := holds
    exact ⟨mul_ne_zero finite unit, mul_assoc _ _ _⟩

theorem Holds.eq_zero_iff (holds : Holds X Z P) : Z = 0 ↔ P = 0 := by
  cases P with
  | zero => exact iff_of_true holds.1 rfl
  | some x y h => exact iff_of_false holds.1 (Point.some_ne_zero h)

theorem Holds.neg (holds : Holds X Z P) : Holds X Z (-P) := by
  cases P with
  | zero => exact holds
  | some x y h =>
    rw [Point.neg_some]
    exact holds

/-- The opposite of a finite point. -/
private theorem exists_neg {y : F} (h : (curve a b).Nonsingular x y) : ∃ h', -Point.some x y h = Point.some x (-y) h' := by
  refine ⟨Jacobian.negY_eq (a := a) (b := b) x y ▸ (WeierstrassCurve.Affine.nonsingular_neg x y).mpr h, ?_⟩
  rw [Point.neg_some]
  congr 1
  exact Jacobian.negY_eq x y

variable [DecidableEq F]

/-- The formula for the double. -/
theorem Holds.double (holds : Holds X Z P) :
    Holds ((X ^ 2 - a * Z ^ 2) ^ 2 - 8 * b * X * Z ^ 3) (4 * b * Z ^ 4 + 4 * X * Z * (X ^ 2 + a * Z ^ 2)) (P + P) := by
  cases P with
  | zero =>
    obtain ⟨rfl, nonzero⟩ := holds
    refine ⟨by ring, ?_⟩
    have power : (X ^ 2 - a * 0 ^ 2) ^ 2 - 8 * b * X * 0 ^ 3 = X ^ 4 := by ring
    rw [power]
    exact pow_ne_zero 4 nonzero
  | some x y h =>
    obtain ⟨finite, rfl⟩ := holds
    have equation := Jacobian.equation_iff.mp h.left
    have denominator : 4 * b * Z ^ 4 + 4 * (x * Z) * Z * ((x * Z) ^ 2 + a * Z ^ 2) = (2 * y) ^ 2 * Z ^ 4 := by
      linear_combination -4 * Z ^ 4 * equation
    have numerator : ((x * Z) ^ 2 - a * Z ^ 2) ^ 2 - 8 * b * (x * Z) * Z ^ 3 =
        ((3 * x ^ 2 + a) ^ 2 - 2 * x * (2 * y) ^ 2) * Z ^ 4 := by
      linear_combination 8 * x * Z ^ 4 * equation
    rw [denominator, numerator]
    by_cases vertical : 2 * y = 0
    · rw [Jacobian.add_self_of_vertical h vertical, vertical]
      refine ⟨by ring, mul_ne_zero ?_ (pow_ne_zero 4 finite)⟩
      rw [zero_pow two_ne_zero, mul_zero, sub_zero]
      exact pow_ne_zero 2 (Jacobian.Nonsingular.horizontal h vertical)
    · obtain ⟨h', sum⟩ := Jacobian.add_self h vertical (div_mul_cancel₀ _ vertical) rfl rfl
      have slope : ((3 * x ^ 2 + a) / (2 * y)) ^ 2 * (2 * y) ^ 2 = (3 * x ^ 2 + a) ^ 2 := by
        rw [← mul_pow, div_mul_cancel₀ _ vertical]
      rw [sum]
      refine ⟨mul_ne_zero (pow_ne_zero 2 vertical) (pow_ne_zero 4 finite), ?_⟩
      linear_combination -Z ^ 4 * slope

/-- The formula for a sum of two points with different abscissas. -/
private theorem add_of_ne {h₁ : (curve a b).Nonsingular x₁ y₁} {h₂ : (curve a b).Nonsingular x₂ y₂} (apart : x₁ ≠ x₂)
    {y : F} {h : (curve a b).Nonsingular x y} (difference : Point.some x₂ y₂ h₂ - Point.some x₁ y₁ h₁ = Point.some x y h) :
    ∃ x' y' h', Point.some x₁ y₁ h₁ + Point.some x₂ y₂ h₂ = Point.some x' y' h' ∧
      (x' + x) * (x₁ - x₂) ^ 2 = 4 * b + 2 * (x₁ + x₂) * (x₁ * x₂ + a) := by
  have gap : x₁ - x₂ ≠ 0 := sub_ne_zero.mpr apart
  have gap' : x₂ - x₁ ≠ 0 := sub_ne_zero.mpr apart.symm
  obtain ⟨h', sum⟩ := Jacobian.add_of_ne h₁ h₂ apart (div_mul_cancel₀ _ gap) rfl rfl
  obtain ⟨opposite, negated⟩ := exists_neg h₁
  obtain ⟨h'', other⟩ := Jacobian.add_of_ne h₂ opposite apart.symm (div_mul_cancel₀ _ gap') rfl rfl
  rw [sub_eq_add_neg, negated, other, Point.some.injEq] at difference
  refine ⟨_, _, h', sum, ?_⟩
  rw [← difference.1]
  have left := Jacobian.equation_iff.mp h₁.left
  have right := Jacobian.equation_iff.mp h₂.left
  have first : ((y₁ - y₂) / (x₁ - x₂)) ^ 2 * (x₁ - x₂) ^ 2 = (y₁ - y₂) ^ 2 := by
    rw [← mul_pow, div_mul_cancel₀ _ gap]
  have second : ((y₂ - -y₁) / (x₂ - x₁)) ^ 2 * (x₁ - x₂) ^ 2 = (y₁ + y₂) ^ 2 := by
    rw [← neg_sub x₂ x₁, neg_sq, ← mul_pow, div_mul_cancel₀ _ gap']
    ring
  linear_combination first + second + 2 * left + 2 * right

private theorem Holds.differential_of_sub (left : Holds X₁ Z₁ P) (right : Holds X₂ Z₂ Q) {y : F}
    {h : (curve a b).Nonsingular x y} (difference : Q - P = .some x y h) :
    let D := X₁ * Z₂ - X₂ * Z₁
    Holds (4 * b * (Z₁ * Z₂) ^ 2 + 2 * (X₁ * Z₂ + X₂ * Z₁) * (X₁ * X₂ + a * (Z₁ * Z₂)) - x * D ^ 2) (D ^ 2) (P + Q) := by
  cases P with
  | zero =>
    obtain ⟨rfl, nonzero⟩ := left
    change Q - 0 = _ at difference
    rw [sub_zero] at difference
    subst difference
    obtain ⟨finite, rfl⟩ := right
    change Holds _ _ (0 + _)
    rw [zero_add]
    exact ⟨pow_ne_zero 2 (by rwa [mul_zero, sub_zero, mul_ne_zero_iff_right finite]), by ring⟩
  | some x₁ y₁ h₁ =>
    cases Q with
    | zero =>
      obtain ⟨rfl, nonzero⟩ := right
      obtain ⟨h', negated⟩ := exists_neg h₁
      change 0 - _ = _ at difference
      rw [zero_sub, negated, Point.some.injEq] at difference
      obtain ⟨rfl, -⟩ := difference
      obtain ⟨finite, rfl⟩ := left
      change Holds _ _ (_ + 0)
      rw [add_zero]
      exact ⟨pow_ne_zero 2 (by rwa [mul_zero, zero_sub, neg_ne_zero, mul_ne_zero_iff_right finite]), by ring⟩
    | some x₂ y₂ h₂ =>
      obtain ⟨finite₁, rfl⟩ := left
      obtain ⟨finite₂, rfl⟩ := right
      by_cases level : x₁ = x₂
      · subst level
        obtain ⟨opposite, negated⟩ := exists_neg h₂
        have differ : Point.some x₁ y₁ h₁ ≠ Point.some x₁ y₂ h₂ := by
          intro same
          rw [same, sub_self] at difference
          exact (Point.some_ne_zero h).symm difference
        have ordinates : y₁ = -y₂ := by
          have cases := WeierstrassCurve.Affine.Y_eq_of_X_eq h₁.left h₂.left rfl
          rw [Jacobian.negY_eq] at cases
          exact cases.resolve_left fun same => differ (by subst same; rfl)
        subst ordinates
        have sum : Point.some x₁ (-y₂) h₁ + Point.some x₁ y₂ h₂ = 0 := by
          rw [← neg_add_cancel (Point.some x₁ y₂ h₂), negated]
        have vertical : 2 * y₂ ≠ 0 := by
          intro vertical
          have double := Jacobian.add_self_of_vertical h₂ vertical
          rw [← add_neg_cancel (Point.some x₁ y₂ h₂), add_right_inj] at double
          exact differ (by rw [double, negated])
        rw [sum]
        have equation := Jacobian.equation_iff.mp h₂.left
        have numerator : 4 * b * (Z₁ * Z₂) ^ 2 + 2 * (x₁ * Z₁ * Z₂ + x₁ * Z₂ * Z₁) * (x₁ * Z₁ * (x₁ * Z₂) + a * (Z₁ * Z₂)) -
            x * (x₁ * Z₁ * Z₂ - x₁ * Z₂ * Z₁) ^ 2 = (2 * y₂) ^ 2 * (Z₁ * Z₂) ^ 2 := by
          linear_combination -4 * (Z₁ * Z₂) ^ 2 * equation
        refine ⟨by ring, numerator.trans_ne ?_⟩
        exact mul_ne_zero (pow_ne_zero 2 vertical) (pow_ne_zero 2 (mul_ne_zero finite₁ finite₂))
      · obtain ⟨x', y', h', sum, identity⟩ := add_of_ne level difference
        rw [sum]
        have factors : x₁ * Z₁ * Z₂ - x₂ * Z₂ * Z₁ = (x₁ - x₂) * (Z₁ * Z₂) := by ring
        refine ⟨?_, ?_⟩
        · rw [factors]
          exact pow_ne_zero 2 (mul_ne_zero (sub_ne_zero.mpr level) (mul_ne_zero finite₁ finite₂))
        · linear_combination -(Z₁ * Z₂) ^ 2 * identity

/-- The formula for the sum of two points whose difference, either way round, has the abscissa `x`. -/
theorem Holds.differential (left : Holds X₁ Z₁ P) (right : Holds X₂ Z₂ Q) {y : F} {h : (curve a b).Nonsingular x y}
    (difference : Q - P = .some x y h ∨ P - Q = .some x y h) :
    let D := X₁ * Z₂ - X₂ * Z₁
    Holds (4 * b * (Z₁ * Z₂) ^ 2 + 2 * (X₁ * Z₂ + X₂ * Z₁) * (X₁ * X₂ + a * (Z₁ * Z₂)) - x * D ^ 2) (D ^ 2) (P + Q) := by
  rcases difference with forward | backward
  · exact left.differential_of_sub right forward
  · rw [add_comm P Q]
    exact (right.differential_of_sub left backward).of_eq (by ring) (by ring)

/-- The product of the ordinates of two points, from their abscissas and that of their sum. -/
theorem two_mul_ordinates {x₃ y₃ : F} {h₁ : (curve a b).Nonsingular x₁ y₁} {h₂ : (curve a b).Nonsingular x₂ y₂}
    {h₃ : (curve a b).Nonsingular x₃ y₃} (sum : Point.some x₁ y₁ h₁ + Point.some x₂ y₂ h₂ = Point.some x₃ y₃ h₃) :
    2 * y₁ * y₂ = 2 * b + (a + x₁ * x₂) * (x₁ + x₂) - x₃ * (x₁ - x₂) ^ 2 := by
  have left := Jacobian.equation_iff.mp h₁.left
  have right := Jacobian.equation_iff.mp h₂.left
  by_cases level : x₁ = x₂
  · subst level
    have cases := WeierstrassCurve.Affine.Y_eq_of_X_eq h₁.left h₂.left rfl
    rcases cases with same | opposite
    · rw [← same]
      linear_combination 2 * left
    · rw [Point.add_of_Y_eq rfl opposite] at sum
      exact absurd sum.symm (Point.some_ne_zero h₃)
  · have gap : x₁ - x₂ ≠ 0 := sub_ne_zero.mpr level
    obtain ⟨h', other⟩ := Jacobian.add_of_ne h₁ h₂ level (div_mul_cancel₀ _ gap) rfl rfl
    rw [other, Point.some.injEq] at sum
    have chord : ((y₁ - y₂) / (x₁ - x₂)) ^ 2 * (x₁ - x₂) ^ 2 = (y₁ - y₂) ^ 2 := by
      rw [← mul_pow, div_mul_cancel₀ _ gap]
    rw [← sum.1]
    linear_combination left + right + chord

end XOnly
