import DbcSnark.Model.Ec.PointOps
import DbcSnark.Proofs.Ec.EcpSmpl

/-! # The group law of the point operations

Doubling and addition take well-formed representations to well-formed representations of the double and of the sum,
for every curve and all pairs of points, equal, opposite and infinite ones included, whichever addresses coincide.
-/

namespace DbcSnark.Ec

open EC_GROUP
open WeierstrassCurve.Affine (Point)

variable {p : ℕ} [Fact p.Prime] {group : SimpleGroup p} {m : Points (ZMod p)} {r a b : ℕ} {c : ZMod p}
  {P Q : (group.curve c).Point}

namespace SimpleGroup

theorem decode_a (set : group.a_is_minus3 = true) : group.decode group.a = -3 := by
  rw [EC_GROUP.decode, group.minus3 set, mul_assoc, Units.mul_inv, mul_one]

theorem decode_eq_zero (group : SimpleGroup p) (x : ZMod p) : group.decode x = 0 ↔ x = 0 :=
  decode_eq_zero_iff x

theorem two_ne_zero (group : SimpleGroup p) : (2 : ZMod p) ≠ 0 := by
  intro zero
  have divides : p ∣ 2 := (ZMod.natCast_eq_zero_iff 2 p).mp (by exact_mod_cast zero)
  have small := Nat.le_of_dvd Nat.two_pos divides
  have odd := group.odd
  have prime := (Fact.out : p.Prime).two_le
  omega

end SimpleGroup

/-- The last line of the addition. -/
def half (v : ZMod p) : ZMod p := ((if v.val % 2 = 1 then v.val + p else v.val) / 2 : ℕ)

theorem two_mul_half (odd : p % 2 = 1) (v : ZMod p) : 2 * half v = v := by
  have even : 2 ∣ if v.val % 2 = 1 then v.val + p else v.val := by split_ifs <;> omega
  have residue : ((if v.val % 2 = 1 then v.val + p else v.val : ℕ) : ZMod p) = v := by
    split_ifs
    · rw [Nat.cast_add, ZMod.natCast_self, add_zero, ZMod.natCast_zmod_val]
    · exact ZMod.natCast_zmod_val v
  have cast := congrArg (Nat.cast : ℕ → ZMod p) (Nat.mul_div_cancel' even)
  rw [Nat.cast_mul, Nat.cast_two] at cast
  exact cast.trans residue

/-- The slope `n1` of the doubling. -/
def slope (group : SimpleGroup p) (pt : EC_POINT (ZMod p)) : ZMod p :=
  let XX := group.field_sqr pt.X
  if pt.Z_is_one then XX + BN_mod_lshift1_quick XX + group.a
  else if group.a_is_minus3 then
    let n1 := group.field_mul (pt.X + group.field_sqr pt.Z) (pt.X - group.field_sqr pt.Z)
    BN_mod_lshift1_quick n1 + n1
  else group.field_mul (group.field_sqr (group.field_sqr pt.Z)) group.a + (XX + BN_mod_lshift1_quick XX)

/-- The coordinates that the lines of the doubling leave. -/
def double (group : SimpleGroup p) (pt : EC_POINT (ZMod p)) : ZMod p × ZMod p × ZMod p :=
  let n1 := slope group pt
  let YY := group.field_sqr pt.Y
  let n2 := BN_mod_lshift_quick (group.field_mul pt.X YY) 2
  let X := group.field_sqr n1 - BN_mod_lshift1_quick n2
  (X, group.field_mul n1 (n2 - X) - BN_mod_lshift_quick (group.field_sqr YY) 3,
    BN_mod_lshift1_quick (if pt.Z_is_one then pt.Y else group.field_mul pt.Y pt.Z))

theorem dbl_infinite (infinite : (m a).Z = 0) : ossl_ec_GFp_simple_dbl group m r a =
    Function.update m r ⟨(m r).X, (m r).Y, 0, false⟩ := by
  rw [ossl_ec_GFp_simple_dbl, if_pos infinite]
  simp only [Points.setZ, Points.setFlag, Function.update_self, Function.update_idem]

theorem dbl_finite (finite : (m a).Z ≠ 0) : ossl_ec_GFp_simple_dbl group m r a =
    Function.update m r ⟨(double group (m a)).1, (double group (m a)).2.1, (double group (m a)).2.2, false⟩ := by
  rw [ossl_ec_GFp_simple_dbl, if_neg finite]
  by_cases same : a = r
  · subst same
    simp only [Points.setX, Points.setY, Points.setZ, Points.setFlag, Function.update_self, Function.update_idem]
    rfl
  · simp only [Points.setX, Points.setY, Points.setZ, Points.setFlag, Function.update_self, Function.update_idem,
      Function.update_of_ne same]
    rfl

section Coordinates

variable {pt : EC_POINT (ZMod p)}

/-- The three ways to compute the slope agree on a well-formed representation. -/
theorem decode_slope (flag : pt.Z_is_one = true → group.decode pt.Z = 1) : group.decode (slope group pt) =
    3 * group.decode pt.X ^ 2 + group.decode group.a * group.decode pt.Z ^ 4 := by
  unfold slope
  split_ifs with normalised minus3
  · rw [flag normalised]
    simp only [BN_mod_lshift1_quick, decode_add, decode_field_sqr, decode_lshift]
    ring
  · rw [group.decode_a minus3]
    simp only [BN_mod_lshift1_quick, decode_add, decode_sub, decode_field_mul, decode_field_sqr, decode_lshift]
    ring
  · simp only [BN_mod_lshift1_quick, decode_add, decode_field_mul, decode_field_sqr, decode_lshift]
    ring

/-- The lines compute coordinates of the double. -/
theorem holds_double (stored : group.Represents pt P) : Jacobian.Holds (group.decode (double group pt).1)
    (group.decode (double group pt).2.1) (group.decode (double group pt).2.2) (P + P) := by
  have product : group.decode (if pt.Z_is_one then pt.Y else group.field_mul pt.Y pt.Z) =
      group.decode pt.Y * group.decode pt.Z := by
    split_ifs with normalised
    · rw [stored.flag normalised, mul_one]
    · exact decode_field_mul _ _
  refine stored.holds.double.of_eq ?_ ?_ ?_
  all_goals
    simp only [double, BN_mod_lshift1_quick, decode_sub, decode_field_mul, decode_field_sqr, decode_lshift,
      decode_slope stored.flag, product]
    ring

end Coordinates

/-- `n1` and `n2`, and with the points exchanged `n3` and `n4`: the coordinates of the first point over the
denominators of both. -/
def crossed (group : SimpleGroup p) (x y : EC_POINT (ZMod p)) : ZMod p × ZMod p :=
  if y.Z_is_one then (x.X, x.Y)
  else (group.field_mul x.X (group.field_sqr y.Z), group.field_mul x.Y (group.field_mul (group.field_sqr y.Z) y.Z))

/-- The product of the two last coordinates, without the factors that are one. -/
def denominator (group : SimpleGroup p) (x y : EC_POINT (ZMod p)) (n5 : ZMod p) : ZMod p :=
  if x.Z_is_one && y.Z_is_one then n5
  else group.field_mul (if x.Z_is_one then y.Z else if y.Z_is_one then x.Z else group.field_mul x.Z y.Z) n5

/-- What the lines of the addition leave for points with different abscissas. -/
def joined (group : SimpleGroup p) (x y : EC_POINT (ZMod p)) : EC_POINT (ZMod p) :=
  let n5 := (crossed group x y).1 - (crossed group y x).1
  let n6 := (crossed group x y).2 - (crossed group y x).2
  let n3 := group.field_mul ((crossed group x y).1 + (crossed group y x).1) (group.field_sqr n5)
  let X := group.field_sqr n6 - n3
  let n0 := group.field_mul (n3 - BN_mod_lshift1_quick X) n6 -
    group.field_mul ((crossed group x y).2 + (crossed group y x).2) (group.field_mul (group.field_sqr n5) n5)
  ⟨X, half n0, denominator group x y n5, false⟩

theorem add_apart (different : a ≠ b) (left : (m a).Z ≠ 0) (right : (m b).Z ≠ 0)
    (apart : (crossed group (m a) (m b)).1 - (crossed group (m b) (m a)).1 ≠ 0) :
    ossl_ec_GFp_simple_add group m r a b = Function.update m r (joined group (m a) (m b)) := by
  rw [ossl_ec_GFp_simple_add, if_neg different, if_neg left, if_neg right]
  refine (if_neg apart).trans ?_
  unfold joined denominator
  split_ifs
  all_goals
    simp only [Points.setX, Points.setY, Points.setZ, Points.setFlag, Function.update_self, Function.update_idem]
    rfl

theorem add_vertical (different : a ≠ b) (left : (m a).Z ≠ 0) (right : (m b).Z ≠ 0)
    (level : (crossed group (m a) (m b)).1 - (crossed group (m b) (m a)).1 = 0) :
    ossl_ec_GFp_simple_add group m r a b =
      if (crossed group (m a) (m b)).2 - (crossed group (m b) (m a)).2 = 0 then ossl_ec_GFp_simple_dbl group m r a
      else Function.update m r ⟨(m r).X, (m r).Y, 0, false⟩ := by
  rw [ossl_ec_GFp_simple_add, if_neg different, if_neg left, if_neg right]
  refine (if_pos level).trans (if_congr Iff.rfl rfl ?_)
  simp only [Points.setZ, Points.setFlag, Function.update_self, Function.update_idem]

section Coordinates

variable {x y : EC_POINT (ZMod p)}

theorem decode_crossed (flag : y.Z_is_one = true → group.decode y.Z = 1) :
    group.decode (crossed group x y).1 = group.decode x.X * group.decode y.Z ^ 2 ∧
      group.decode (crossed group x y).2 = group.decode x.Y * group.decode y.Z ^ 3 := by
  unfold crossed
  split_ifs with normalised
  · rw [flag normalised, one_pow, one_pow, mul_one, mul_one]
    exact ⟨rfl, rfl⟩
  · simp only [decode_field_mul, decode_field_sqr]
    exact ⟨by ring, by ring⟩

theorem decode_denominator (left : x.Z_is_one = true → group.decode x.Z = 1)
    (right : y.Z_is_one = true → group.decode y.Z = 1) (n5 : ZMod p) :
    group.decode (denominator group x y n5) = group.decode x.Z * group.decode y.Z * group.decode n5 := by
  unfold denominator
  split_ifs with both first second
  · obtain ⟨first, second⟩ := Bool.and_eq_true_iff.mp both
    rw [left first, right second, one_mul, one_mul]
  · rw [decode_field_mul, left first, one_mul]
  · rw [decode_field_mul, right second, mul_one]
  · rw [decode_field_mul, decode_field_mul]

private theorem decode_half (v : ZMod p) : group.decode (half v) = group.decode v * 2⁻¹ := by
  have doubled := congrArg group.decode (two_mul_half group.odd v)
  rw [EC_GROUP.decode, EC_GROUP.decode] at doubled
  rw [eq_mul_inv_iff_mul_eq₀ group.two_ne_zero, EC_GROUP.decode, EC_GROUP.decode, ← doubled]
  ring

/-- The lines compute coordinates of the sum of points with different abscissas. -/
theorem holds_joined {x₁ y₁ x₂ y₂ : ZMod p} {h₁ : (group.curve c).Nonsingular x₁ y₁}
    {h₂ : (group.curve c).Nonsingular x₂ y₂} (left : group.Represents x (.some x₁ y₁ h₁))
    (right : group.Represents y (.some x₂ y₂ h₂)) (apart : x₁ ≠ x₂) :
    Jacobian.Holds (group.decode (joined group x y).X) (group.decode (joined group x y).Y)
      (group.decode (joined group x y).Z) (Point.some x₁ y₁ h₁ + Point.some x₂ y₂ h₂) := by
  obtain ⟨abscissa₁, ordinate₁⟩ := decode_crossed (x := x) right.flag
  obtain ⟨abscissa₂, ordinate₂⟩ := decode_crossed (x := y) left.flag
  refine (left.holds.add right.holds apart (mul_inv_cancel₀ group.two_ne_zero)).of_eq ?_ ?_ ?_
  · simp only [joined, decode_add, decode_sub, decode_field_mul, decode_field_sqr, abscissa₁, ordinate₁, abscissa₂,
      ordinate₂]
    ring
  · simp only [joined, BN_mod_lshift1_quick, decode_half, decode_add, decode_sub, decode_field_mul, decode_field_sqr,
      decode_lshift, abscissa₁, ordinate₁, abscissa₂, ordinate₂]
    ring
  · simp only [joined, decode_denominator left.flag right.flag, decode_sub, abscissa₁, abscissa₂]

/-- The first comparison of the addition is one of abscissas. -/
theorem crossed_eq_iff {x₁ y₁ x₂ y₂ : ZMod p} {h₁ : (group.curve c).Nonsingular x₁ y₁}
    {h₂ : (group.curve c).Nonsingular x₂ y₂} (left : group.Represents x (.some x₁ y₁ h₁))
    (right : group.Represents y (.some x₂ y₂ h₂)) :
    (crossed group x y).1 - (crossed group y x).1 = 0 ↔ x₁ = x₂ := by
  rw [← group.decode_eq_zero, decode_sub, (decode_crossed right.flag).1,
    (decode_crossed left.flag).1]
  exact left.holds.cross_eq_zero_iff right.holds

/-- The second comparison of the addition is one of ordinates. -/
theorem crossed_eq_iff' {x₁ y₁ x₂ y₂ : ZMod p} {h₁ : (group.curve c).Nonsingular x₁ y₁}
    {h₂ : (group.curve c).Nonsingular x₂ y₂} (left : group.Represents x (.some x₁ y₁ h₁))
    (right : group.Represents y (.some x₂ y₂ h₂)) :
    (crossed group x y).2 - (crossed group y x).2 = 0 ↔ y₁ = y₂ := by
  rw [← group.decode_eq_zero, decode_sub, (decode_crossed right.flag).2,
    (decode_crossed left.flag).2]
  obtain ⟨finite₁, -, ordinate₁⟩ := left.holds
  obtain ⟨finite₂, -, ordinate₂⟩ := right.holds
  have factors : group.decode x.Y * group.decode y.Z ^ 3 - group.decode y.Y * group.decode x.Z ^ 3 =
      (y₁ - y₂) * (group.decode x.Z * group.decode y.Z) ^ 3 := by
    rw [ordinate₁, ordinate₂]
    ring
  rw [factors, mul_eq_zero_iff_right (pow_ne_zero 3 (mul_ne_zero finite₁ finite₂)), sub_eq_zero]

end Coordinates

/-- After the step the result is a well-formed representation of the point, and the other points are as before. -/
structure Leaves (group : SimpleGroup p) (m m' : Points (ZMod p)) (r : ℕ) (P : (group.curve c).Point) : Prop where
  stored : group.Represents (m' r) P
  others : ∀ i ≠ r, m' i = m i

theorem Z_eq_zero_iff {x : EC_POINT (ZMod p)} (stored : group.Represents x P) : x.Z = 0 ↔ P = 0 :=
  (group.decode_eq_zero _).symm.trans stored.holds.eq_zero_iff

theorem represents_zero (x y : ZMod p) : group.Represents ⟨x, y, 0, false⟩ (0 : (group.curve c).Point) :=
  ⟨decode_zero, fun set => absurd set Bool.false_ne_true⟩

theorem Leaves.of_update {x : EC_POINT (ZMod p)} (stored : group.Represents x P) :
    Leaves group m (Function.update m r x) r P := by
  refine ⟨?_, fun i other => Function.update_of_ne other _ _⟩
  rw [Function.update_self]
  exact stored

/-- Doubling leaves the double and clears the flag. -/
theorem dbl_leaves (stored : group.Represents (m a) P) :
    Leaves group m (ossl_ec_GFp_simple_dbl group m r a) r (P + P) ∧
      (ossl_ec_GFp_simple_dbl group m r a r).Z_is_one = false := by
  by_cases infinite : (m a).Z = 0
  · have zero := (Z_eq_zero_iff stored).mp infinite
    rw [dbl_infinite infinite, zero, add_zero, Function.update_self]
    exact ⟨.of_update (represents_zero _ _), rfl⟩
  · rw [dbl_finite infinite, Function.update_self]
    exact ⟨.of_update ⟨holds_double stored, fun set => absurd set Bool.false_ne_true⟩, rfl⟩

theorem copy_leaves (stored : group.Represents (m a) P) : Leaves group m (EC_POINT_copy m r a) r P :=
  .of_update stored

/-- Addition of finite points at different addresses, by the three outcomes of the comparisons. -/
private theorem add_finite (different : a ≠ b) {x₁ y₁ x₂ y₂ : ZMod p} {h₁ : (group.curve c).Nonsingular x₁ y₁}
    {h₂ : (group.curve c).Nonsingular x₂ y₂} (left : group.Represents (m a) (.some x₁ y₁ h₁))
    (right : group.Represents (m b) (.some x₂ y₂ h₂)) :
    Leaves group m (ossl_ec_GFp_simple_add group m r a b) r (Point.some x₁ y₁ h₁ + Point.some x₂ y₂ h₂) ∧
      (ossl_ec_GFp_simple_add group m r a b r).Z_is_one = false := by
  have finite₁ := (Z_eq_zero_iff left).not.mpr (Point.some_ne_zero h₁)
  have finite₂ := (Z_eq_zero_iff right).not.mpr (Point.some_ne_zero h₂)
  by_cases level : x₁ = x₂
  · rw [add_vertical different finite₁ finite₂ ((crossed_eq_iff left right).mpr level)]
    by_cases same : y₁ = y₂
    · subst level same
      rw [if_pos ((crossed_eq_iff' left right).mpr rfl)]
      exact dbl_leaves left
    · have opposite := (WeierstrassCurve.Affine.Y_eq_of_X_eq h₁.left h₂.left level).resolve_left same
      rw [if_neg ((crossed_eq_iff' left right).not.mpr same), Point.add_of_Y_eq level opposite, Function.update_self]
      exact ⟨.of_update (represents_zero _ _), rfl⟩
  · rw [add_apart different finite₁ finite₂ ((crossed_eq_iff left right).not.mpr level), Function.update_self]
    exact ⟨.of_update ⟨holds_joined left right level, fun set => absurd set Bool.false_ne_true⟩, rfl⟩

/-- Addition leaves the sum, and the flag is set only when a normalised point was added to infinity. -/
theorem add_leaves (left : group.Represents (m a) P) (right : group.Represents (m b) Q) :
    Leaves group m (ossl_ec_GFp_simple_add group m r a b) r (P + Q) ∧
      ((ossl_ec_GFp_simple_add group m r a b r).Z_is_one = true →
        P = 0 ∧ (m b).Z_is_one = true ∨ Q = 0 ∧ (m a).Z_is_one = true) := by
  by_cases same : a = b
  · subst same
    obtain rfl := left.holds.unique right.holds
    rw [ossl_ec_GFp_simple_add, if_pos rfl]
    obtain ⟨doubled, flag⟩ := dbl_leaves (r := r) left
    exact ⟨doubled, fun set => absurd set (by rw [flag]; exact Bool.false_ne_true)⟩
  · by_cases first : P = 0
    · have copied : ossl_ec_GFp_simple_add group m r a b = EC_POINT_copy m r b := by
        rw [ossl_ec_GFp_simple_add, if_neg same, if_pos ((Z_eq_zero_iff left).mpr first)]
      rw [copied, first, zero_add, EC_POINT_copy, Function.update_self]
      exact ⟨.of_update right, fun set => .inl ⟨rfl, set⟩⟩
    · by_cases second : Q = 0
      · have copied : ossl_ec_GFp_simple_add group m r a b = EC_POINT_copy m r a := by
          rw [ossl_ec_GFp_simple_add, if_neg same, if_neg ((Z_eq_zero_iff left).not.mpr first),
            if_pos ((Z_eq_zero_iff right).mpr second)]
        rw [copied, second, add_zero, EC_POINT_copy, Function.update_self]
        exact ⟨.of_update left, fun set => .inr ⟨rfl, set⟩⟩
      · cases P with
        | zero => exact absurd rfl first
        | some x₁ y₁ h₁ =>
          cases Q with
          | zero => exact absurd rfl second
          | some x₂ y₂ h₂ =>
            obtain ⟨sum, flag⟩ := add_finite (r := r) same left right
            exact ⟨sum, fun set => absurd set (by rw [flag]; exact Bool.false_ne_true)⟩

theorem tpl_others {i : ℕ} (other : i ≠ r) : ossl_ec_GFp_simple_tpl group.toEC_GROUP m r a i = m i := by
  rw [ossl_ec_GFp_simple_tpl]
  split_ifs
  all_goals simp only [Points.setX, Points.setY, Points.setZ, Function.update_of_ne other]

/-- Tripling leaves the triple when the flag of the result is clear, and keeps it clear. -/
theorem tpl_leaves (stored : group.Represents (m a) P) (clear : (m r).Z_is_one = false) :
    Leaves group m (ossl_ec_GFp_simple_tpl group.toEC_GROUP m r a) r (P + P + P) ∧
      (ossl_ec_GFp_simple_tpl group.toEC_GROUP m r a r).Z_is_one = false := by
  by_cases infinite : (m a).Z = 0
  · have zero := (Z_eq_zero_iff stored).mp infinite
    refine ⟨⟨?_, fun i other => tpl_others other⟩, ?_⟩
    · rw [tpl_infinite infinite, zero, add_zero, add_zero]
      exact represents_zero _ _
    · rw [tpl_infinite infinite]
  · refine ⟨⟨?_, fun i other => tpl_others other⟩, ?_⟩
    · rw [tpl_finite infinite]
      exact ⟨holds_triple group.two_ne_zero stored.holds, fun set => absurd set (by rw [clear]; exact Bool.false_ne_true)⟩
    · rw [tpl_finite infinite, clear]

/-- Inversion in place. -/
theorem invert_leaves (stored : group.Represents (m a) P) :
    Leaves group m (ossl_ec_GFp_simple_invert m a) a (-P) ∧
      (ossl_ec_GFp_simple_invert m a a).Z_is_one = (m a).Z_is_one := by
  have negated : ((p - (m a).Y.val : ℕ) : ZMod p) = -(m a).Y := by
    rw [Nat.cast_sub (ZMod.val_lt _).le, ZMod.natCast_self, ZMod.natCast_zmod_val, zero_sub]
  have opposite : group.Represents { m a with Y := -(m a).Y } (-P) := by
    refine ⟨stored.holds.neg.of_eq rfl ?_ rfl, stored.flag⟩
    rw [EC_GROUP.decode, EC_GROUP.decode, neg_mul]
  rw [ossl_ec_GFp_simple_invert]
  split_ifs with own
  · refine ⟨⟨?_, fun _ _ => rfl⟩, rfl⟩
    rcases own with infinite | vertical
    · have zero := (Z_eq_zero_iff stored).mp infinite
      rw [zero, neg_zero, ← zero]
      exact stored
    · rw [vertical, neg_zero] at opposite
      rwa [← vertical] at opposite
  · rw [negated, Points.setY, Function.update_self]
    exact ⟨.of_update opposite, rfl⟩

/-! ## Comparison -/

section Comparison

variable {x y : EC_POINT (ZMod p)}

/-- For finite points the three ways to compare are one. -/
theorem cmp_finite (left : x.Z ≠ 0) (right : y.Z ≠ 0) : ossl_ec_GFp_simple_cmp group x y =
    if (crossed group x y).1 ≠ (crossed group y x).1 then 1
    else if (crossed group x y).2 ≠ (crossed group y x).2 then 1 else 0 := by
  rw [ossl_ec_GFp_simple_cmp, if_neg left, if_neg right]
  unfold crossed
  cases x.Z_is_one
  · cases y.Z_is_one <;> rfl
  · cases y.Z_is_one
    · rfl
    · by_cases abscissa : x.X = y.X
      · by_cases ordinate : x.Y = y.Y <;> simp [abscissa, ordinate]
      · simp [abscissa]

private theorem crossed_eq {x₁ y₁ x₂ y₂ : ZMod p} {h₁ : (group.curve c).Nonsingular x₁ y₁}
    {h₂ : (group.curve c).Nonsingular x₂ y₂} (left : group.Represents x (.some x₁ y₁ h₁))
    (right : group.Represents y (.some x₂ y₂ h₂)) :
    ((crossed group x y).1 = (crossed group y x).1 ∧ (crossed group x y).2 = (crossed group y x).2) ↔
      Point.some x₁ y₁ h₁ = Point.some x₂ y₂ h₂ := by
  rw [Point.some.injEq, ← crossed_eq_iff left right, ← crossed_eq_iff' left right, sub_eq_zero, sub_eq_zero]

/-- The comparison tells equal points, however they are represented. -/
theorem cmp_spec (left : group.Represents x P) (right : group.Represents y Q) :
    (P = Q → ossl_ec_GFp_simple_cmp group x y = 0) ∧ (P ≠ Q → ossl_ec_GFp_simple_cmp group x y = 1) := by
  by_cases infinite : P = 0
  · rw [ossl_ec_GFp_simple_cmp, if_pos ((Z_eq_zero_iff left).mpr infinite), infinite, ne_eq, eq_comm, ← Z_eq_zero_iff right]
    exact ⟨fun zero => if_pos zero, fun finite => if_neg finite⟩
  · by_cases infinite' : Q = 0
    · rw [ossl_ec_GFp_simple_cmp, if_neg ((Z_eq_zero_iff left).not.mpr infinite),
        if_pos ((Z_eq_zero_iff right).mpr infinite'), infinite']
      exact ⟨fun equal => absurd equal infinite, fun _ => rfl⟩
    · rw [cmp_finite ((Z_eq_zero_iff left).not.mpr infinite) ((Z_eq_zero_iff right).not.mpr infinite')]
      cases P with
      | zero => exact absurd rfl infinite
      | some x₁ y₁ h₁ =>
        cases Q with
        | zero => exact absurd rfl infinite'
        | some x₂ y₂ h₂ =>
          constructor
          · intro equal
            obtain ⟨abscissa, ordinate⟩ := (crossed_eq left right).mpr equal
            rw [if_neg (not_not.mpr abscissa), if_neg (not_not.mpr ordinate)]
          · intro (differ : ¬ _)
            rw [← crossed_eq left right] at differ
            by_cases abscissa : (crossed group x y).1 = (crossed group y x).1
            · rw [if_neg (not_not.mpr abscissa), if_pos (not_and.mp differ abscissa)]
            · rw [if_pos abscissa]

end Comparison

end DbcSnark.Ec
