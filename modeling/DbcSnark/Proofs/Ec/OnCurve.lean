import DbcSnark.Proofs.Ec.Secp256k1

/-! # Membership of the curve

The membership test of `ecp_smpl.c` takes three ways through its lines, by the flag of the point and the one of the group.
All of them decide the equation of the curve, and the check of the discriminant decides whether the curve has a tangent at
every point of it.
-/

namespace DbcSnark.Ec

open EC_GROUP Gpuec
open WeierstrassCurve.Affine (Point)

variable {p : ℕ} [Fact p.Prime] {group : SimpleGroup p}

/-- The case split of the check decides whether the sum is zero. -/
private theorem discriminant_sum (two : (2 : ZMod p) ≠ 0) (three : (3 : ZMod p) ≠ 0) (a b : ZMod p) :
    (a = 0 ∧ b = 0 ∨ a ≠ 0 ∧ b ≠ 0 ∧ 2 ^ 2 • (a * a * a) + 27 • (b * b) = 0) ↔ 2 ^ 2 * a ^ 3 + 3 ^ 3 * b ^ 2 = 0 := by
  have sum : 2 ^ 2 • (a * a * a) + 27 • (b * b) = 2 ^ 2 * a ^ 3 + 3 ^ 3 * b ^ 2 := by
    rw [nsmul_eq_mul, nsmul_eq_mul]
    push_cast
    ring
  rw [sum]
  by_cases a_zero : a = 0
  · simp [a_zero, three]
  · by_cases b_zero : b = 0
    · simp [a_zero, b_zero, two]
    · simp [a_zero, b_zero]

theorem check_discriminant_iff : ossl_ec_GFp_simple_group_check_discriminant group = true ↔
    (group.curve (group.decode group.b)).Δ ≠ 0 := by
  have three : (3 : ZMod p) ≠ 0 := by
    intro zero
    have divides : p ∣ 3 := (ZMod.natCast_eq_zero_iff 3 p).mp (by exact_mod_cast zero)
    have small := Nat.le_of_dvd (by omega) divides
    exact group.long (Nat.size_le.mpr (by omega))
  have two := group.two_ne_zero
  have value : (group.curve (group.decode group.b)).Δ =
      -(2 ^ 4) * (2 ^ 2 * group.decode group.a ^ 3 + 3 ^ 3 * group.decode group.b ^ 2) := by
    simp only [WeierstrassCurve.Δ, WeierstrassCurve.b₂, WeierstrassCurve.b₄, WeierstrassCurve.b₆, WeierstrassCurve.b₈]
    ring
  rw [value, mul_ne_zero_iff_left (neg_ne_zero.mpr (pow_ne_zero 4 two)), EC_GROUP.decode, EC_GROUP.decode, ne_eq,
    ← discriminant_sum two three, ossl_ec_GFp_simple_group_check_discriminant]
  dsimp only
  split_ifs with a_zero b_zero b_nonzero sum
  · exact iff_of_false id (not_not.mpr (.inl ⟨a_zero, b_zero⟩))
  · refine iff_of_true rfl ?_
    rintro (⟨-, zero⟩ | ⟨nonzero, -⟩)
    exacts [b_zero zero, nonzero a_zero]
  · exact iff_of_false id (not_not.mpr (.inr ⟨a_zero, b_nonzero, sum⟩))
  · refine iff_of_true rfl ?_
    rintro (⟨zero, -⟩ | ⟨-, -, zero⟩)
    exacts [a_zero zero, sum zero]
  · refine iff_of_true rfl ?_
    rintro (⟨zero, -⟩ | ⟨-, nonzero, -⟩)
    exacts [a_zero zero, b_nonzero nonzero]

/-- What the lines of the membership test compare with the square of the ordinate. -/
private theorem decode_curve {pt : EC_POINT (ZMod p)} (flag : pt.Z_is_one = true → group.decode pt.Z = 1) :
    group.decode (
      if !pt.Z_is_one then
        let Z4 := group.field_sqr (group.field_sqr pt.Z)
        (if group.a_is_minus3 then
            group.field_mul (group.field_sqr pt.X - (BN_mod_lshift1_quick Z4 + Z4)) pt.X
          else group.field_mul (group.field_sqr pt.X + group.field_mul Z4 group.a) pt.X) +
          group.field_mul group.b (group.field_mul Z4 (group.field_sqr pt.Z))
      else group.field_mul (group.field_sqr pt.X + group.a) pt.X + group.b) =
    group.decode pt.X ^ 3 + group.decode group.a * group.decode pt.X * group.decode pt.Z ^ 4 +
      group.decode group.b * group.decode pt.Z ^ 6 := by
  split_ifs with general minus3
  · rw [group.decode_a minus3]
    simp only [BN_mod_lshift1_quick, decode_add, decode_sub, decode_field_mul, decode_field_sqr, decode_lshift]
    ring
  · simp only [decode_add, decode_field_mul, decode_field_sqr]
    ring
  · rw [Bool.not_eq_true', Bool.not_eq_false] at general
    rw [flag general]
    simp only [decode_add, decode_field_mul, decode_field_sqr]
    ring

/-- What the membership test decides for finite coordinates. -/
private theorem is_on_curve_finite {pt : EC_POINT (ZMod p)} (flag : pt.Z_is_one = true → group.decode pt.Z = 1)
    (finite : pt.Z ≠ 0) : ossl_ec_GFp_simple_is_on_curve group pt = true ↔ group.decode pt.Y ^ 2 =
      group.decode pt.X ^ 3 + group.decode group.a * group.decode pt.X * group.decode pt.Z ^ 4 +
        group.decode group.b * group.decode pt.Z ^ 6 := by
  rw [ossl_ec_GFp_simple_is_on_curve, if_neg finite, ← decode_curve flag, pow_two, ← decode_field_sqr]
  refine decide_eq_true_iff.trans ⟨congrArg group.decode, fun equal => ?_⟩
  exact mul_right_cancel₀ (Units.ne_zero _) equal

/-- The membership test accepts every representation of a point of the curve. -/
theorem is_on_curve_of_represents {pt : EC_POINT (ZMod p)} {P : (group.curve (group.decode group.b)).Point}
    (stored : group.Represents pt P) : ossl_ec_GFp_simple_is_on_curve group pt = true := by
  by_cases infinite : pt.Z = 0
  · rw [ossl_ec_GFp_simple_is_on_curve, if_pos infinite]
  · rw [is_on_curve_finite stored.flag infinite]
    cases P with
    | zero => exact absurd ((decode_eq_zero_iff _).mp stored.holds) infinite
    | some x y h =>
      obtain ⟨-, abscissa, ordinate⟩ := stored.holds
      have equation := Jacobian.equation_iff.mp h.left
      rw [abscissa, ordinate]
      linear_combination group.decode pt.Z ^ 6 * equation

/-- On an elliptic curve the membership test accepts exactly the representations of its points. -/
theorem is_on_curve_iff {pt : EC_POINT (ZMod p)} (flag : pt.Z_is_one = true → group.decode pt.Z = 1)
    (elliptic : ossl_ec_GFp_simple_group_check_discriminant group = true) :
    ossl_ec_GFp_simple_is_on_curve group pt = true ↔
      ∃ P : (group.curve (group.decode group.b)).Point, group.Represents pt P := by
  refine ⟨fun accepted => ?_, fun ⟨P, stored⟩ => is_on_curve_of_represents stored⟩
  by_cases infinite : pt.Z = 0
  · exact ⟨0, (group.decode_eq_zero _).mpr infinite, flag⟩
  · have unit := (group.decode_eq_zero pt.Z).not.mpr infinite
    have equation := (is_on_curve_finite flag infinite).mp accepted
    have affine : (group.curve (group.decode group.b)).Equation (group.decode pt.X / group.decode pt.Z ^ 2)
        (group.decode pt.Y / group.decode pt.Z ^ 3) := by
      rw [Jacobian.equation_iff]
      field_simp
      linear_combination equation
    refine ⟨.some _ _ ((WeierstrassCurve.Affine.equation_iff_nonsingular_of_Δ_ne_zero
      (check_discriminant_iff.mp elliptic)).mp affine), ⟨unit, ?_, ?_⟩, flag⟩
    · rw [div_mul_cancel₀ _ (pow_ne_zero 2 unit)]
    · rw [div_mul_cancel₀ _ (pow_ne_zero 3 unit)]

theorem is_on_curve_iff_generator : ossl_ec_GFp_simple_is_on_curve secp256k1.toSimpleGroup secp256k1.generator = true ↔
    ∃ P : (secp256k1.curve (secp256k1.decode secp256k1.b)).Point, secp256k1.Represents secp256k1.generator P := by
  have discriminant {a b : modP.Residue} (ha : a = 0) (hb : b = 7) : (Jacobian.curve a b).Δ ≠ 0 := by
    subst ha hb
    decide +kernel
  have one : secp256k1.decode secp256k1.generator.Z = 1 :=
    (decode_field_encode 1 : secp256k1.decode (secp256k1.field_encode 1) = 1)
  refine is_on_curve_iff (fun _ => one) (check_discriminant_iff.mpr (discriminant ?_ ?_))
  · exact (decode_zero : secp256k1.decode 0 = 0)
  · exact (decode_field_encode 7 : secp256k1.decode (secp256k1.field_encode 7) = 7)

end DbcSnark.Ec
