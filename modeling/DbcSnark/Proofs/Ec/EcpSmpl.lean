import DbcSnark.Model.Ec.EcpSmpl
import DbcSnark.Proofs.Gpuec.BasePoint
import DbcSnark.ToMathlib.Jacobian

/-! # The triple of a point and its flag

The lines of the tripling compute Jacobian coordinates of the triple for every point of every curve, scaled by two.
They never write the flag `Z_is_one` of the result, which add and double clear on every path.
-/

namespace DbcSnark.Ec

open WeierstrassCurve.Affine (Point)

variable {F : Type*} [Field F] [DecidableEq F] (group : EC_GROUP F)

namespace EC_GROUP

/-- The residue that a stored number stands for. -/
def decode (x : F) : F := x * ↑group.R⁻¹

/-- The curve `y ^ 2 = x ^ 3 + a x + b` of the group. -/
abbrev curve (b : F) : WeierstrassCurve.Affine F := Jacobian.curve (group.decode group.a) b

/-- A well-formed representation of the point: its coordinates are Jacobian coordinates of it, and the flag is set
only when the last one is one. -/
structure Represents {b : F} (pt : EC_POINT F) (P : (group.curve b).Point) : Prop where
  holds : Jacobian.Holds (group.decode pt.X) (group.decode pt.Y) (group.decode pt.Z) P
  flag : pt.Z_is_one = true → group.decode pt.Z = 1

section Decode

variable {F : Type*} [Field F] {group : EC_GROUP F} (x y : F) (n : ℕ)

@[simp] theorem decode_add : group.decode (x + y) = group.decode x + group.decode y := add_mul _ _ _

@[simp] theorem decode_sub : group.decode (x - y) = group.decode x - group.decode y := sub_mul _ _ _

@[simp] theorem decode_zero : group.decode 0 = 0 := zero_mul _

@[simp] theorem decode_field_mul : group.decode (group.field_mul x y) = group.decode x * group.decode y := by
  rw [decode, decode, decode, field_mul]
  ring

@[simp] theorem decode_field_sqr : group.decode (group.field_sqr x) = group.decode x * group.decode x :=
  decode_field_mul x x

@[simp] theorem decode_lshift : group.decode (BN_mod_lshift_quick x n) = 2 ^ n * group.decode x := by
  rw [decode, decode, BN_mod_lshift_quick, nsmul_eq_mul, Nat.cast_pow, Nat.cast_ofNat, mul_assoc]

theorem decode_eq_zero_iff : group.decode x = 0 ↔ x = 0 := mul_eq_zero_iff_right (Units.ne_zero _)

end Decode

/-- The last coordinate of the triple, from those of the point. -/
def tripleZ (pt : EC_POINT F) : F :=
  2 • group.decode pt.Z * (12 • (group.decode pt.X * group.decode pt.Y ^ 2) -
    (3 • group.decode pt.X ^ 2 + group.decode group.a * group.decode pt.Z ^ 4) ^ 2)

end EC_GROUP

open EC_GROUP

variable {group} {m : Points F} {r a : ℕ} {b : F} {P : (group.curve b).Point}

theorem tpl_infinite (infinite : (m a).Z = 0) :
    ossl_ec_GFp_simple_tpl group m r a r = { m r with Z := 0, Z_is_one := false } := by
  rw [ossl_ec_GFp_simple_tpl, if_pos infinite]
  simp only [Points.setZ, Function.update_self]

/-- The lines on values. -/
def triple (group : EC_GROUP F) (pt : EC_POINT F) : F × F × F :=
  let XX := group.field_sqr pt.X
  let YY := group.field_sqr pt.Y
  let ZZ := group.field_sqr pt.Z
  let YYYY := group.field_sqr YY
  let M := BN_mod_lshift1_quick XX + XX + group.field_mul group.a (group.field_sqr ZZ)
  let MM := group.field_sqr M
  let S := BN_mod_lshift1_quick (group.field_sqr (pt.X + YY) - XX - YYYY)
  let E := S + BN_mod_lshift1_quick S - MM
  let EE := group.field_sqr E
  let T := BN_mod_lshift_quick YYYY 4
  let U := group.field_sqr (M + E) - MM - EE - T
  (BN_mod_lshift_quick (group.field_mul pt.X EE - BN_mod_lshift_quick (group.field_mul YY U) 2) 2,
    BN_mod_lshift_quick (group.field_mul pt.Y (group.field_mul U (T - U) - group.field_mul E EE)) 3,
    group.field_sqr (pt.Z + E) - ZZ - EE)

theorem tpl_finite (finite : (m a).Z ≠ 0) : ossl_ec_GFp_simple_tpl group m r a r =
    ⟨(triple group (m a)).1, (triple group (m a)).2.1, (triple group (m a)).2.2, (m r).Z_is_one⟩ := by
  rw [ossl_ec_GFp_simple_tpl, if_neg finite]
  by_cases same : a = r
  · subst same
    simp only [Points.setX, Points.setY, Points.setZ, Function.update_self, if_true]
    rfl
  · simp only [Points.setX, Points.setY, Points.setZ, Function.update_self, Function.update_of_ne same, if_neg same]
    rfl

omit [DecidableEq F] in
theorem decode_triple (pt : EC_POINT F) : group.decode (triple group pt).2.2 = group.tripleZ pt := by
  simp only [triple, BN_mod_lshift1_quick, decode_add, decode_sub, decode_field_mul, decode_field_sqr, decode_lshift,
    tripleZ, nsmul_eq_mul]
  push_cast
  ring

/-- The lines compute coordinates of the triple. -/
theorem holds_triple (two : (2 : F) ≠ 0) {pt : EC_POINT F} (holds : Jacobian.Holds (group.decode pt.X)
    (group.decode pt.Y) (group.decode pt.Z) P) :
    Jacobian.Holds (group.decode (triple group pt).1) (group.decode (triple group pt).2.1)
      (group.decode (triple group pt).2.2) (P + P + P) := by
  refine (holds.triple.scale two).of_eq ?_ ?_ ?_
  all_goals
    simp only [triple, BN_mod_lshift1_quick, decode_add, decode_sub, decode_field_mul, decode_field_sqr, decode_lshift]
    ring

private theorem three_nsmul : 3 • P = P + P + P := by
  rw [succ_nsmul, two_nsmul]

omit [DecidableEq F] in
private theorem Z_ne_zero_iff (represents : group.Represents (m a) P) : (m a).Z ≠ 0 ↔ P ≠ 0 :=
  (decode_eq_zero_iff _).not.symm.trans represents.holds.eq_zero_iff.not

theorem tpl_of_infinite (represents : group.Represents (m a) P) (infinite : P = 0) :
    group.Represents (ossl_ec_GFp_simple_tpl group m r a r) (3 • P) := by
  rw [tpl_infinite (not_not.mp ((Z_ne_zero_iff represents).not.mpr (not_not.mpr infinite))), infinite, smul_zero]
  exact ⟨decode_zero, fun set => absurd set Bool.false_ne_true⟩

/-- For a finite point the flag of the result decides. -/
theorem tpl_of_finite (two : (2 : F) ≠ 0) (represents : group.Represents (m a) P) (finite : P ≠ 0) :
    group.Represents (ossl_ec_GFp_simple_tpl group m r a r) (3 • P) ↔
      ((m r).Z_is_one = true → group.tripleZ (m a) = 1) := by
  rw [tpl_finite ((Z_ne_zero_iff represents).mpr finite), three_nsmul, ← decode_triple]
  exact ⟨fun stored => stored.flag, fun flag => ⟨holds_triple two represents.holds, flag⟩⟩

/-- The result is a well-formed representation of the triple unless the flag of the result was set and is wrong now. -/
theorem tpl_iff (two : (2 : F) ≠ 0) (represents : group.Represents (m a) P) :
    group.Represents (ossl_ec_GFp_simple_tpl group m r a r) (3 • P) ↔
      P = 0 ∨ (m r).Z_is_one = false ∨ group.tripleZ (m a) = 1 := by
  rcases eq_or_ne P 0 with infinite | finite
  · exact iff_of_true (tpl_of_infinite represents infinite) (.inl infinite)
  · rw [tpl_of_finite two represents finite, or_iff_right finite, ← Bool.not_eq_true, imp_iff_not_or]

/-! ## The base point -/

section BasePoint

open Gpuec

/-- The curve `y ^ 2 = x ^ 3 + 7` in the plain representation. -/
def plain : EC_GROUP modP.Residue := ⟨0, 1⟩

/-- The normalised base point at every address. -/
def basePoints : Points modP.Residue := fun _ => ⟨baseX, baseY, 1, true⟩

private theorem represents_basePoints : ∃ P : (plain.curve 7).Point, P ≠ 0 ∧ plain.Represents (basePoints 0) P := by
  have decode : ∀ x, plain.decode x = x := fun x => by rw [EC_GROUP.decode, plain, inv_one, Units.val_one, mul_one]
  have h : (plain.curve 7).Nonsingular baseX baseY := by
    have coefficient : plain.decode plain.a = 0 := decode_zero
    rw [EC_GROUP.curve, coefficient]
    exact baseNonsingular
  refine ⟨.some baseX baseY h, Point.some_ne_zero h, ⟨?_, ?_, ?_⟩, fun _ => decode 1⟩
  · rw [decode]
    exact one_ne_zero
  · rw [decode, decode]
    change baseX = baseX * 1 ^ 2
    rw [one_pow, mul_one]
  · rw [decode, decode]
    change baseY = baseY * 1 ^ 3
    rw [one_pow, mul_one]

private theorem two_ne_zero_modP : (2 : modP.Residue) ≠ 0 := by
  decide +kernel

private theorem tripleZ_basePoints : plain.tripleZ (basePoints 0) ≠ 1 := by
  decide +kernel

/-- The condition at the normalised base point. -/
theorem tpl_iff_base_point : ∃ P : (plain.curve 7).Point, P ≠ 0 ∧
    (plain.Represents (ossl_ec_GFp_simple_tpl plain basePoints 1 0 1) (3 • P) ↔
      P = 0 ∨ (basePoints 1).Z_is_one = false ∨ plain.tripleZ (basePoints 0) = 1) := by
  obtain ⟨P, finite, represents⟩ := represents_basePoints
  exact ⟨P, finite, tpl_iff two_ne_zero_modP represents⟩

/-- The tripling in place keeps the flag of the normalised base point, which is wrong for the result. -/
theorem tpl_base_point_wrong : ¬ ∀ P : (plain.curve 7).Point, plain.Represents (basePoints 0) P →
    plain.Represents (ossl_ec_GFp_simple_tpl plain basePoints 0 0 0) (3 • P) := by
  intro correct
  obtain ⟨P, finite, represents⟩ := represents_basePoints
  exact tripleZ_basePoints ((tpl_of_finite two_ne_zero_modP represents finite).mp (correct P represents) rfl)

end BasePoint

end DbcSnark.Ec
