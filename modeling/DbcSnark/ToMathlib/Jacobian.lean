import Mathlib.AlgebraicGeometry.EllipticCurve.Affine.Point
import Mathlib.Tactic.LinearCombination
import Mathlib.Tactic.FieldSimp

/-! # Jacobian coordinates

On a curve `y ^ 2 = x ^ 3 + a x + b` the coordinates `(X : Y : Z)` hold the point `(X / Z ^ 2, Y / Z ^ 3)`, or the point at
infinity when `Z` is zero. The formulas for the double, the sum and the triple of a point divide by nothing; they are
compared here with the group law of the affine points.
-/

open WeierstrassCurve.Affine (Point)

namespace Jacobian

variable {F : Type*} [Field F] {a b : F}

/-- The curve `y ^ 2 = x ^ 3 + a x + b`. -/
abbrev curve (a b : F) : WeierstrassCurve.Affine F := ⟨0, 0, 0, a, b⟩

theorem equation_iff {x y : F} : (curve a b).Equation x y ↔ y ^ 2 = x ^ 3 + a * x + b := by
  simp only [WeierstrassCurve.Affine.equation_iff, zero_mul, add_zero]

theorem negY_eq (x y : F) : (curve a b).negY x y = -y := by
  simp only [WeierstrassCurve.Affine.negY, zero_mul, sub_zero]

private theorem addX_eq (x₁ x₂ l : F) : (curve a b).addX x₁ x₂ l = l ^ 2 - x₁ - x₂ := by
  simp only [WeierstrassCurve.Affine.addX, zero_mul, add_zero, sub_zero]

private theorem addY_eq (x₁ x₂ y₁ l : F) : (curve a b).addY x₁ x₂ y₁ l = l * (x₁ - (l ^ 2 - x₁ - x₂)) - y₁ := by
  rw [WeierstrassCurve.Affine.addY, WeierstrassCurve.Affine.negAddY, negY_eq, addX_eq]
  ring

/-- No point has both a horizontal and a vertical tangent. -/
theorem Nonsingular.horizontal {x y : F} (h : (curve a b).Nonsingular x y) (vertical : 2 * y = 0) :
    3 * x ^ 2 + a ≠ 0 := by
  obtain ⟨-, slope⟩ := (WeierstrassCurve.Affine.nonsingular_iff' ..).mp h
  simpa only [zero_mul, mul_zero, add_zero, zero_sub, neg_ne_zero, vertical, ne_eq, not_true_eq_false, or_false]
    using slope

/-- The coordinates `(X : Y : Z)` hold the point. -/
def Holds (X Y Z : F) : (curve a b).Point → Prop
  | .zero => Z = 0
  | .some x y _ => Z ≠ 0 ∧ X = x * Z ^ 2 ∧ Y = y * Z ^ 3

variable {X Y Z X' Y' Z' : F} {P Q : (curve a b).Point}

theorem Holds.of_eq (holds : Holds X Y Z P) (hX : X' = X) (hY : Y' = Y) (hZ : Z' = Z) : Holds X' Y' Z' P := by
  subst hX hY hZ
  exact holds

/-- Other coordinates of the same point. -/
theorem Holds.scale (holds : Holds X Y Z P) {c : F} (unit : c ≠ 0) : Holds (c ^ 2 * X) (c ^ 3 * Y) (c * Z) P := by
  cases P with
  | zero => exact mul_eq_zero_of_right _ holds
  | some x y h =>
    obtain ⟨finite, rfl, rfl⟩ := holds
    exact ⟨mul_ne_zero unit finite, by ring, by ring⟩

/-- The last coordinate is zero at infinity only. -/
theorem Holds.eq_zero_iff (holds : Holds X Y Z P) : Z = 0 ↔ P = 0 := by
  cases P with
  | zero => exact iff_of_true holds rfl
  | some x y h => exact iff_of_false holds.1 (Point.some_ne_zero h)

/-- Coordinates hold one point. -/
theorem Holds.unique (left : Holds X Y Z P) (right : Holds X Y Z Q) : P = Q := by
  cases P with
  | zero => exact (right.eq_zero_iff.mp left).symm
  | some x y h =>
    cases Q with
    | zero => exact absurd right left.1
    | some x' y' h' =>
      obtain ⟨finite, rfl, rfl⟩ := left
      obtain ⟨-, abscissa, ordinate⟩ := right
      obtain rfl := mul_right_cancel₀ (pow_ne_zero 2 finite) abscissa
      obtain rfl := mul_right_cancel₀ (pow_ne_zero 3 finite) ordinate
      rfl

/-- Coordinates of the opposite point. -/
theorem Holds.neg (holds : Holds X Y Z P) : Holds X (-Y) Z (-P) := by
  cases P with
  | zero => exact holds
  | some x y h =>
    obtain ⟨finite, rfl, rfl⟩ := holds
    rw [Point.neg_some]
    refine ⟨finite, rfl, ?_⟩
    rw [negY_eq, neg_mul]

section Affine

variable {x y l x₁ y₁ x₂ y₂ x₃ y₃ : F}

private theorem some_congr (h : (curve a b).Nonsingular x₁ y₁) (hx : x₁ = x₂) (hy : y₁ = y₂) :
    ∃ h', Point.some x₁ y₁ h = Point.some x₂ y₂ h' := by
  subst hx hy
  exact ⟨h, rfl⟩

variable [DecidableEq F]

theorem add_self_of_vertical (h : (curve a b).Nonsingular x y) (vertical : 2 * y = 0) :
    Point.some x y h + Point.some x y h = 0 := by
  apply Point.add_self_of_Y_eq
  rw [negY_eq]
  linear_combination vertical

/-- The double of a point by the slope `l` of its tangent. -/
theorem add_self (h : (curve a b).Nonsingular x y) (generic : 2 * y ≠ 0) (slope : l * (2 * y) = 3 * x ^ 2 + a)
    (hx : l ^ 2 - x - x = x₂) (hy : l * (x - x₂) - y = y₂) :
    ∃ h', Point.some x y h + Point.some x y h = Point.some x₂ y₂ h' := by
  have finite : y ≠ (curve a b).negY x y := by
    rw [negY_eq]
    intro same
    apply generic
    linear_combination same
  have tangent : (curve a b).slope x x y y = l := by
    rw [WeierstrassCurve.Affine.slope_of_Y_ne rfl finite, negY_eq, sub_neg_eq_add, ← two_mul, div_eq_iff generic, slope]
    simp only [mul_zero, zero_mul, add_zero, sub_zero]
  rw [Point.add_self_of_Y_ne finite]
  subst hx
  apply some_congr
  · rw [tangent, addX_eq]
  · rw [tangent, addY_eq, hy]

/-- The sum of two points by the slope `l` of their chord. -/
theorem add_of_ne (h₁ : (curve a b).Nonsingular x₁ y₁) (h₂ : (curve a b).Nonsingular x₂ y₂) (apart : x₁ ≠ x₂)
    (slope : l * (x₁ - x₂) = y₁ - y₂) (hx : l ^ 2 - x₁ - x₂ = x₃) (hy : l * (x₁ - x₃) - y₁ = y₃) :
    ∃ h', Point.some x₁ y₁ h₁ + Point.some x₂ y₂ h₂ = Point.some x₃ y₃ h' := by
  have chord : (curve a b).slope x₁ x₂ y₁ y₂ = l := by
    rw [WeierstrassCurve.Affine.slope_of_X_ne apart, div_eq_iff (sub_ne_zero.mpr apart), slope]
  rw [Point.add_of_X_ne apart]
  subst hx
  apply some_congr
  · rw [chord, addX_eq]
  · rw [chord, addY_eq, hy]

/-- A point whose double has the abscissa of the point has order three. -/
private theorem triple_eq_zero (h : (curve a b).Nonsingular x y) (generic : 2 * y ≠ 0)
    (chord : 12 * x * y ^ 2 - (3 * x ^ 2 + a) ^ 2 = 0) :
    Point.some x y h + Point.some x y h + Point.some x y h = 0 := by
  obtain ⟨two, ordinate⟩ := mul_ne_zero_iff.mp generic
  obtain ⟨h', double⟩ : ∃ h', Point.some x y h + Point.some x y h = Point.some x (-y) h' := by
    apply add_self h generic (div_mul_cancel₀ _ generic)
    · field_simp
      linear_combination -chord
    · ring
  rw [double]
  apply Point.add_of_Y_eq rfl
  rw [negY_eq]

/-- The triple of a point whose double has another abscissa. -/
private theorem triple_of_ne (h : (curve a b).Nonsingular x y) (generic : 2 * y ≠ 0) {e : F}
    (chord : 12 * x * y ^ 2 - (3 * x ^ 2 + a) ^ 2 = e) (moves : e ≠ 0) :
    ∃ h', Point.some x y h + Point.some x y h + Point.some x y h =
      Point.some (x - 8 * y ^ 2 * ((3 * x ^ 2 + a) * e - 8 * y ^ 4) / e ^ 2)
        (y * (4 * ((3 * x ^ 2 + a) * e - 8 * y ^ 4) * (8 * y ^ 4 - ((3 * x ^ 2 + a) * e - 8 * y ^ 4)) - e ^ 3) / e ^ 3)
        h' := by
  obtain ⟨two, ordinate⟩ := mul_ne_zero_iff.mp generic
  have apart : x - e / (2 * y) ^ 2 ≠ x := by
    rw [ne_eq, sub_eq_self]
    exact div_ne_zero moves (pow_ne_zero 2 generic)
  obtain ⟨h', double⟩ : ∃ h', Point.some x y h + Point.some x y h =
      Point.some (x - e / (2 * y) ^ 2) ((3 * x ^ 2 + a) / (2 * y) * (e / (2 * y) ^ 2) - y) h' := by
    apply add_self h generic (div_mul_cancel₀ _ generic)
    · field_simp
      linear_combination -chord
    · ring
  rw [double]
  apply add_of_ne (l := (2 * y) ^ 3 / e - (3 * x ^ 2 + a) / (2 * y)) h' h apart
  · field_simp
    ring
  · field_simp
    linear_combination -e ^ 2 * chord
  · field_simp
    ring

end Affine

variable [DecidableEq F]

/-- The formula for the double of a point. -/
theorem Holds.double (holds : Holds X Y Z P) :
    let M := 3 * X ^ 2 + a * Z ^ 4
    let X' := M ^ 2 - 8 * X * Y ^ 2
    Holds X' (M * (4 * X * Y ^ 2 - X') - 8 * Y ^ 4) (2 * Y * Z) (P + P) := by
  cases P with
  | zero =>
    have zero : Z = 0 := holds
    exact (mul_eq_zero_of_right _ zero : 2 * Y * Z = 0)
  | some x y h =>
    obtain ⟨finite, rfl, rfl⟩ := holds
    by_cases vertical : 2 * y = 0
    · rw [add_self_of_vertical h vertical]
      change 2 * (y * Z ^ 3) * Z = 0
      linear_combination Z ^ 4 * vertical
    · obtain ⟨h', sum⟩ := add_self h vertical (div_mul_cancel₀ _ vertical) rfl rfl
      obtain ⟨two, ordinate⟩ := mul_ne_zero_iff.mp vertical
      rw [sum]
      refine ⟨?_, ?_, ?_⟩
      · exact mul_ne_zero (mul_ne_zero two (mul_ne_zero ordinate (pow_ne_zero 3 finite))) finite
      · field_simp
        ring
      · field_simp
        ring

section Sum

variable {X₁ Y₁ Z₁ X₂ Y₂ Z₂ x₁ y₁ x₂ y₂ half : F} {h₁ : (curve a b).Nonsingular x₁ y₁} {h₂ : (curve a b).Nonsingular x₂ y₂}

omit [DecidableEq F] in
/-- The difference of the abscissas, up to the denominators. -/
theorem Holds.cross_eq_zero_iff (left : Holds X₁ Y₁ Z₁ (.some x₁ y₁ h₁)) (right : Holds X₂ Y₂ Z₂ (.some x₂ y₂ h₂)) :
    X₁ * Z₂ ^ 2 - X₂ * Z₁ ^ 2 = 0 ↔ x₁ = x₂ := by
  obtain ⟨finite₁, rfl, rfl⟩ := left
  obtain ⟨finite₂, rfl, rfl⟩ := right
  have factors : x₁ * Z₁ ^ 2 * Z₂ ^ 2 - x₂ * Z₂ ^ 2 * Z₁ ^ 2 = (x₁ - x₂) * (Z₁ * Z₂) ^ 2 := by ring
  rw [factors, mul_eq_zero_iff_right (pow_ne_zero 2 (mul_ne_zero finite₁ finite₂)), sub_eq_zero]

/-- The formula for the sum of two points. -/
theorem Holds.add (left : Holds X₁ Y₁ Z₁ (.some x₁ y₁ h₁)) (right : Holds X₂ Y₂ Z₂ (.some x₂ y₂ h₂)) (apart : x₁ ≠ x₂)
    (halves : 2 * half = 1) :
    let D := X₁ * Z₂ ^ 2 - X₂ * Z₁ ^ 2
    let E := Y₁ * Z₂ ^ 3 - Y₂ * Z₁ ^ 3
    let S := (X₁ * Z₂ ^ 2 + X₂ * Z₁ ^ 2) * D ^ 2
    let T := (Y₁ * Z₂ ^ 3 + Y₂ * Z₁ ^ 3) * D ^ 3
    Holds (E ^ 2 - S) (((S - 2 * (E ^ 2 - S)) * E - T) * half) (Z₁ * Z₂ * D)
      (Point.some x₁ y₁ h₁ + Point.some x₂ y₂ h₂) := by
  have cross := (left.cross_eq_zero_iff right).not.mpr apart
  obtain ⟨finite₁, rfl, rfl⟩ := left
  obtain ⟨finite₂, rfl, rfl⟩ := right
  have difference : x₁ - x₂ ≠ 0 := sub_ne_zero.mpr apart
  obtain ⟨h', sum⟩ := add_of_ne h₁ h₂ apart (div_mul_cancel₀ _ difference) rfl rfl
  have two : (2 : F) ≠ 0 := left_ne_zero_of_mul (halves.trans_ne one_ne_zero)
  have inverse : half = 1 / 2 := eq_div_of_mul_eq two ((mul_comm _ _).trans halves)
  rw [sum, inverse]
  refine ⟨mul_ne_zero (mul_ne_zero finite₁ finite₂) cross, ?_, ?_⟩
  · field_simp
    ring
  · field_simp
    ring

/-- The formula for the sum when the second point is affine. -/
theorem Holds.add_affine (left : Holds X₁ Y₁ Z₁ (.some x₁ y₁ h₁)) (apart : x₁ ≠ x₂) :
    let D := x₂ * Z₁ ^ 2 - X₁
    let E := y₂ * Z₁ ^ 3 - Y₁
    let X := E ^ 2 - 2 * (X₁ * D ^ 2) - D ^ 3
    Holds X (E * (X₁ * D ^ 2 - X) - Y₁ * D ^ 3) (Z₁ * D) (Point.some x₁ y₁ h₁ + Point.some x₂ y₂ h₂) := by
  obtain ⟨finite, rfl, rfl⟩ := left
  have difference : x₁ - x₂ ≠ 0 := sub_ne_zero.mpr apart
  obtain ⟨h', sum⟩ := add_of_ne h₁ h₂ apart (div_mul_cancel₀ _ difference) rfl rfl
  have cross : x₂ * Z₁ ^ 2 - x₁ * Z₁ ^ 2 ≠ 0 := by
    rw [← sub_mul]
    exact mul_ne_zero (sub_ne_zero.mpr apart.symm) (pow_ne_zero 2 finite)
  rw [sum]
  refine ⟨mul_ne_zero finite cross, ?_, ?_⟩
  · field_simp
    ring
  · field_simp
    ring

end Sum

omit [DecidableEq F] in
private theorem Holds.triple_of_vertical {x y : F} {h : (curve a b).Nonsingular x y}
    (holds : Holds X Y Z (.some x y h)) (vertical : 2 * y = 0) :
    let E := 12 * X * Y ^ 2 - (3 * X ^ 2 + a * Z ^ 4) ^ 2
    let U := (3 * X ^ 2 + a * Z ^ 4) * E - 8 * Y ^ 4
    Holds (X * E ^ 2 - 8 * Y ^ 2 * U) (Y * (4 * U * (8 * Y ^ 4 - U) - E ^ 3)) (Z * E) (.some x y h) := by
  intro E U
  obtain ⟨finite, hX, hY⟩ := holds
  have tangent : E = -(3 * x ^ 2 + a) ^ 2 * Z ^ 8 := by
    simp only [E, hX, hY]
    linear_combination 6 * x * y * Z ^ 8 * vertical
  refine ⟨?_, ?_, ?_⟩
  · rw [tangent]
    have horizontal := Nonsingular.horizontal h vertical
    exact mul_ne_zero finite (mul_ne_zero (neg_ne_zero.mpr (pow_ne_zero 2 horizontal)) (pow_ne_zero 8 finite))
  · rw [hX, hY]
    linear_combination -4 * y * Z ^ 6 * U * vertical
  · rw [hY]
    linear_combination (2 * U * (8 * (y * Z ^ 3) ^ 4 - U) - E ^ 3) * Z ^ 3 * vertical

/-- The formula for the triple of a point, which is at infinity just when the double has the abscissa of the point. -/
theorem Holds.triple (holds : Holds X Y Z P) :
    let E := 12 * X * Y ^ 2 - (3 * X ^ 2 + a * Z ^ 4) ^ 2
    let U := (3 * X ^ 2 + a * Z ^ 4) * E - 8 * Y ^ 4
    Holds (X * E ^ 2 - 8 * Y ^ 2 * U) (Y * (4 * U * (8 * Y ^ 4 - U) - E ^ 3)) (Z * E) (P + P + P) := by
  intro E U
  cases P with
  | zero =>
    have zero : Z = 0 := holds
    exact (mul_eq_zero_of_left zero _ : Z * E = 0)
  | some x y h =>
    by_cases vertical : 2 * y = 0
    · rw [add_self_of_vertical h vertical, zero_add]
      exact holds.triple_of_vertical vertical
    · obtain ⟨finite, hX, hY⟩ := holds
      obtain ⟨e, chord⟩ : ∃ e, 12 * x * y ^ 2 - (3 * x ^ 2 + a) ^ 2 = e := ⟨_, rfl⟩
      have hE : E = e * Z ^ 8 := by
        simp only [E, hX, hY, ← chord]
        ring
      have hU : U = ((3 * x ^ 2 + a) * e - 8 * y ^ 4) * Z ^ 12 := by
        simp only [U, hE, hX, hY]
        ring
      by_cases same : e = 0
      · rw [triple_eq_zero h vertical (chord.trans same)]
        change Z * E = 0
        rw [hE, same, zero_mul, mul_zero]
      · obtain ⟨h', triple⟩ := triple_of_ne h vertical chord same
        rw [triple]
        refine ⟨?_, ?_, ?_⟩
        · rw [hE]
          exact mul_ne_zero finite (mul_ne_zero same (pow_ne_zero 8 finite))
        · rw [hU, hE, hX, hY]
          field_simp
        · rw [hU, hE, hY]
          field_simp

/-! ## Multiples -/

section Multiples

variable {x y : F} {h : (curve a b).Nonsingular x y} {t t' : F × F × F} {n : ℕ}

/-- The double of a point. -/
def doubled (a : F) (t : F × F × F) : F × F × F :=
  let M := 3 * t.1 ^ 2 + a * t.2.2 ^ 4
  let X := M ^ 2 - 8 * t.1 * t.2.1 ^ 2
  (X, M * (4 * t.1 * t.2.1 ^ 2 - X) - 8 * t.2.1 ^ 4, 2 * t.2.1 * t.2.2)

/-- The sum of a point and the affine point `(x, y)`, where the formula applies. -/
def joined (x y : F) (t : F × F × F) : Option (F × F × F) :=
  let D := x * t.2.2 ^ 2 - t.1
  let E := y * t.2.2 ^ 3 - t.2.1
  let X := E ^ 2 - 2 * (t.1 * D ^ 2) - D ^ 3
  if t.2.2 * D = 0 then none else some (X, E * (t.1 * D ^ 2 - X) - t.2.1 * D ^ 3, t.2.2 * D)

/-- Double-and-add for the affine point `(x, y)` and the bits below the leading one. -/
def multiple (a x y : F) (bits : List Bool) : Option (F × F × F) :=
  bits.foldlM (fun t bit => if bit then joined x y (doubled a t) else some (doubled a t)) (x, y, 1)

private theorem holds_joined (holds : Holds t.1 t.2.1 t.2.2 (n • Point.some x y h)) (sum : joined x y t = some t') :
    Holds t'.1 t'.2.1 t'.2.2 ((n + 1) • Point.some x y h) := by
  simp only [joined] at sum
  split at sum
  · exact absurd sum (Option.some_ne_none _).symm
  · rename_i moves
    obtain rfl := Option.some.inj sum
    obtain ⟨finite, cross⟩ := mul_ne_zero_iff.mp moves
    rw [succ_nsmul]
    cases point : n • Point.some x y h with
    | zero =>
      rw [point] at holds
      exact absurd holds finite
    | some x₁ y₁ h₁ =>
      rw [point] at holds
      refine holds.add_affine fun same => cross ?_
      rw [holds.2.1, same, sub_self]

private theorem holds_turn (holds : Holds t.1 t.2.1 t.2.2 (n • Point.some x y h)) {bit : Bool}
    (next : (if bit then joined x y (doubled a t) else some (doubled a t)) = some t') :
    Holds t'.1 t'.2.1 t'.2.2 ((2 * n + bit.toNat) • Point.some x y h) := by
  have double := holds.double
  rw [← two_nsmul, ← mul_nsmul'] at double
  cases bit with
  | false =>
    obtain rfl := Option.some.inj next
    exact double
  | true => exact holds_joined double next

/-- Double-and-add finds a multiple of the point. -/
theorem holds_multiple {bits : List Bool} (found : multiple a x y bits = some t) :
    Holds t.1 t.2.1 t.2.2 (bits.foldl (fun n bit => 2 * n + bit.toNat) 1 • Point.some x y h) := by
  have start : Holds (x, y, (1 : F)).1 (x, y, (1 : F)).2.1 (x, y, (1 : F)).2.2 (1 • Point.some x y h) := by
    rw [one_nsmul]
    exact ⟨one_ne_zero, by rw [one_pow, mul_one], by rw [one_pow, mul_one]⟩
  rw [multiple] at found
  generalize (x, y, (1 : F)) = s at start found
  generalize 1 = n at start ⊢
  induction bits generalizing s n with
  | nil =>
    obtain rfl := Option.some.inj found
    exact start
  | cons bit bits ih =>
    rw [List.foldlM_cons] at found
    obtain ⟨s', next, rest⟩ := Option.bind_eq_some_iff.mp found
    exact ih s' rest _ (holds_turn start next)

end Multiples

end Jacobian
