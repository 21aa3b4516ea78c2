import DbcSnark.Proofs.Ec.OnCurve
import DbcSnark.ToMathlib.Loops
import Mathlib.Algebra.BigOperators.Intervals

/-! # Affine coordinates of one point and of many

The batch inverts the product of the last coordinates once, and multiplies its way back to each inverse. It leaves what
the single conversion leaves for every point.
-/

namespace DbcSnark.Ec

open EC_GROUP Gpuec
open WeierstrassCurve.Affine (Point)

variable {p : ℕ} [Fact p.Prime] {group : SimpleGroup p} {m : Points (ZMod p)} {pt : EC_POINT (ZMod p)}

/-! ## One point -/

section Affine

variable {c : ZMod p} {P : (group.curve c).Point}

/-- The coordinates that are read are those of the point. -/
theorem get_affine_coordinates_spec {x y : ZMod p} {h : (group.curve c).Nonsingular x y}
    (stored : group.Represents pt (.some x y h)) : EC_POINT_get_affine_coordinates group pt = some (x, y) := by
  obtain ⟨⟨finite, abscissa, ordinate⟩, -⟩ := stored
  have nonzero := (group.decode_eq_zero pt.Z).not.mp finite
  rw [EC_POINT_get_affine_coordinates, if_neg nonzero]
  dsimp only
  split_ifs with one
  · rw [field_decode_eq] at one
    rw [field_decode_eq, field_decode_eq, abscissa, ordinate, one, one_pow, one_pow, mul_one, mul_one]
  · rw [field_decode_eq, field_inv, if_neg finite]
    have read (u v : ZMod p) : group.field_mul u v = group.decode u * v := by
      rw [field_mul, decode]
      ring
    refine congrArg some (Prod.ext ?_ ?_)
    · change group.field_mul pt.X _ = x
      rw [read, abscissa]
      field_simp
    · change group.field_mul pt.Y _ = y
      rw [read, ordinate]
      field_simp

/-- A point with affine coordinates. -/
def affine (group : SimpleGroup p) (pt : EC_POINT (ZMod p)) : EC_POINT (ZMod p) :=
  if pt.Z ≠ 0 then
    ⟨group.field_encode (group.decode pt.X * (group.decode pt.Z)⁻¹ ^ 2),
      group.field_encode (group.decode pt.Y * (group.decode pt.Z)⁻¹ ^ 3), group.field_encode 1, true⟩
  else pt

/-- The affine coordinates of a finite point. -/
theorem affine_some {x y : ZMod p} {h : (group.curve c).Nonsingular x y} (stored : group.Represents pt (.some x y h)) :
    affine group pt = ⟨group.field_encode x, group.field_encode y, group.field_encode 1, true⟩ := by
  obtain ⟨⟨finite, abscissa, ordinate⟩, -⟩ := stored
  rw [affine, if_pos ((group.decode_eq_zero _).not.mp finite), abscissa, ordinate, inv_pow, inv_pow,
    mul_inv_cancel_right₀ (pow_ne_zero 2 finite), mul_inv_cancel_right₀ (pow_ne_zero 3 finite)]

/-- Nothing changes when the point is infinite or its flag is set. -/
theorem affine_of_flag {P : (group.curve c).Point} (stored : group.Represents pt P) (own : pt.Z_is_one = true ∨ pt.Z = 0) :
    affine group pt = pt := by
  rw [affine]
  split_ifs with finite
  · have set := own.resolve_right finite
    have one := stored.flag set
    rw [one, inv_one, one_pow, one_pow, mul_one, mul_one, field_encode_decode, field_encode_decode, ← one,
      field_encode_decode, ← set]
  · rfl

/-- A point of the curve is made affine. -/
theorem make_affine_eq {P : (group.curve (group.decode group.b)).Point} (stored : group.Represents pt P) :
    ossl_ec_GFp_simple_make_affine group pt = some (affine group pt) := by
  rw [ossl_ec_GFp_simple_make_affine]
  split_ifs with own
  · rw [affine_of_flag stored own]
  · cases P with
    | zero => exact absurd ((Z_eq_zero_iff stored).mpr rfl) (not_or.mp own).2
    | some x y h =>
      have set : EC_POINT_set_affine_coordinates group pt x y =
          some ⟨group.field_encode x, group.field_encode y, group.field_encode 1, true⟩ := by
        rw [EC_POINT_set_affine_coordinates, ossl_ec_GFp_simple_set_Jprojective_coordinates_GFp]
        simp only [decide_true, is_on_curve_of_represents (represents_affine h), if_true]
      rw [get_affine_coordinates_spec stored, affine_some stored]
      change (EC_POINT_set_affine_coordinates group pt x y).bind _ = _
      rw [set]
      rfl

theorem affine_spec {P : (group.curve c).Point} (stored : group.Represents pt P) :
    group.Represents (affine group pt) P ∧ (P ≠ 0 → (affine group pt).Z_is_one = true) := by
  cases P with
  | zero =>
    rw [affine_of_flag stored (.inr ((Z_eq_zero_iff stored).mpr rfl))]
    exact ⟨stored, fun finite => absurd rfl finite⟩
  | some x y h =>
    rw [affine_some stored]
    exact ⟨represents_affine h, fun _ => rfl⟩

end Affine

/-! ## Many points -/

section Batch

variable {points : ℕ → ℕ} {num : ℕ}

/-- The last coordinate as the products take it. -/
def factor (group : SimpleGroup p) (m : Points (ZMod p)) (points : ℕ → ℕ) (i : ℕ) : ZMod p :=
  if (m (points i)).Z ≠ 0 then group.decode (m (points i)).Z else 1

private theorem factor_ne_zero (i : ℕ) : factor group m points i ≠ 0 := by
  rw [factor]
  split_ifs with finite
  · exact (group.decode_eq_zero _).not.mpr finite
  · exact one_ne_zero

/-- The products of the first factors. -/
private theorem decode_prodLoop {first : ZMod p} (positive : num ≠ 0) (opened : group.decode first = factor group m points 0)
    (i : ℕ) (inside : i < num) :
    group.decode (prodLoop group points m num (Function.update (fun _ => 0) 0 first) i) =
      ∏ l ∈ Finset.range (i + 1), factor group m points l := by
  refine Loops.foldl_range'_induction (P := fun n (prod_Z : ℕ → ZMod p) => ∀ i < n, group.decode (prod_Z i) =
    ∏ l ∈ Finset.range (i + 1), factor group m points l) positive ?_ ?_ i inside
  · intro i before
    obtain rfl := Nat.lt_one_iff.mp before
    rw [Function.update_self, opened, Finset.prod_range_one]
  · intro n above below prod_Z products i before
    have last := products (n - 1) (by omega)
    rw [Nat.sub_add_cancel above] at last
    by_cases here : i = n
    · rw [here, Finset.prod_range_succ, ← last, factor]
      split_ifs with finite
      · rw [Function.update_self, decode_field_mul]
      · rw [Function.update_self, mul_one]
    · split_ifs
      · rw [Function.update_of_ne here]
        exact products i (by omega)
      · rw [Function.update_of_ne here]
        exact products i (by omega)

/-- A point with its last coordinate inverted. -/
def inverted (group : SimpleGroup p) (pt : EC_POINT (ZMod p)) : EC_POINT (ZMod p) :=
  if pt.Z ≠ 0 then { pt with Z := group.field_encode (group.decode pt.Z)⁻¹ } else pt

private theorem setZ_inverted {a : ℕ} {v : ZMod p} (finite : (m a).Z ≠ 0)
    (inverse : group.decode v * group.decode (m a).Z = 1) :
    m.setZ a v = Function.update m a (inverted group (m a)) := by
  rw [Points.setZ, inverted, if_pos finite, ← eq_inv_of_mul_eq_one_left inverse, field_encode_decode]

/-- While the loop counts down, `tmp` is the inverse of the product of the factors that are left. -/
private theorem inverseLoop_spec {prod_Z : ℕ → ZMod p} {tmp : ZMod p} (positive : num ≠ 0)
    (apart : ∀ i < num, ∀ j < num, points i = points j → i = j)
    (products : ∀ i < num, group.decode (prod_Z i) = ∏ l ∈ Finset.range (i + 1), factor group m points l)
    (start : group.decode tmp * ∏ l ∈ Finset.range num, factor group m points l = 1) :
    let st := inverseLoop group points prod_Z num (m, tmp)
    group.decode st.2 * factor group m points 0 = 1 ∧
      (∀ j < num, 1 ≤ j → st.1 (points j) = inverted group (m (points j))) ∧
      ∀ a, (∀ j < num, 1 ≤ j → a ≠ points j) → st.1 a = m a := by
  have down := Loops.foldl_reverse_range'_induction (P := fun i (st : Points (ZMod p) × ZMod p) =>
    group.decode st.2 * ∏ l ∈ Finset.range i, factor group m points l = 1 ∧
      (∀ j < num, i ≤ j → st.1 (points j) = inverted group (m (points j))) ∧
      ∀ a, (∀ j < num, i ≤ j → a ≠ points j) → st.1 a = m a) (f := fun st i =>
    if (st.1 (points i)).Z ≠ 0 then
      let tmp_Z := group.field_mul (prod_Z (i - 1)) st.2
      let tmp := group.field_mul st.2 (st.1 (points i)).Z
      (st.1.setZ (points i) tmp_Z, tmp)
    else st) (s := (m, tmp)) positive ⟨start, fun j inside after => absurd inside (not_lt.mpr after), fun _ _ => rfl⟩ ?_
  · rwa [Finset.prod_range_one] at down
  · rintro i above below ⟨m', tmp⟩ ⟨inverse, done, others⟩
    have untouched : m' (points i) = m (points i) :=
      others _ fun j inside after same => absurd (apart i below j inside same) (by omega)
    have product := products (i - 1) (by omega)
    rw [Nat.sub_add_cancel above] at product
    rw [Finset.prod_range_succ] at inverse
    dsimp only at inverse done others untouched ⊢
    split_ifs with finite
    · have own : factor group m points i = group.decode (m' (points i)).Z := by
        rw [untouched] at finite ⊢
        exact if_pos finite
      rw [own] at inverse
      have inverts : group.decode (group.field_mul (prod_Z (i - 1)) tmp) * group.decode (m' (points i)).Z = 1 := by
        rw [decode_field_mul, product, ← inverse]
        ring
      rw [setZ_inverted finite inverts]
      dsimp only
      refine ⟨?_, fun j inside after => ?_, fun a outside => ?_⟩
      · rw [decode_field_mul, ← inverse]
        ring
      · by_cases here : j = i
        · rw [here, Function.update_self, untouched]
        · rw [Function.update_of_ne fun same => here (apart j inside i below same)]
          exact done j inside (by omega)
      · rw [Function.update_of_ne (outside i below le_rfl)]
        exact others a fun j inside after => outside j inside (by omega)
    · rw [untouched] at finite
      have own : factor group m points i = 1 := if_neg finite
      rw [own, mul_one] at inverse
      dsimp only
      refine ⟨inverse, fun j inside after => ?_, fun a outside => others a fun j inside after => outside j inside (by omega)⟩
      by_cases here : j = i
      · rw [here, untouched, inverted, if_neg finite]
      · exact done j inside (by omega)

/-- What a turn of the last loop makes of its point. -/
private def fixed (group : SimpleGroup p) (pt : EC_POINT (ZMod p)) : EC_POINT (ZMod p) :=
  if pt.Z ≠ 0 then
    let tmp := group.field_sqr pt.Z
    ⟨group.field_mul pt.X tmp, group.field_mul pt.Y (group.field_mul tmp pt.Z), group.field_encode 1, true⟩
  else pt

private theorem fixed_inverted : fixed group (inverted group pt) = affine group pt := by
  rw [affine, inverted]
  split_ifs with finite
  · have inverse : group.field_encode (group.decode pt.Z)⁻¹ ≠ 0 := by
      refine (group.decode_eq_zero _).not.mp ?_
      rw [decode_field_encode]
      exact inv_ne_zero ((group.decode_eq_zero _).not.mpr finite)
    have abscissa : group.field_mul pt.X (group.field_sqr (group.field_encode (group.decode pt.Z)⁻¹)) =
        group.field_encode (group.decode pt.X * (group.decode pt.Z)⁻¹ ^ 2) := by
      rw [← field_encode_decode (group.field_mul _ _), decode_field_mul, decode_field_sqr, decode_field_encode, ← pow_two]
    have ordinate : group.field_mul pt.Y (group.field_mul (group.field_sqr (group.field_encode (group.decode pt.Z)⁻¹))
        (group.field_encode (group.decode pt.Z)⁻¹)) =
        group.field_encode (group.decode pt.Y * (group.decode pt.Z)⁻¹ ^ 3) := by
      rw [← field_encode_decode (group.field_mul _ _), decode_field_mul, decode_field_mul, decode_field_sqr,
        decode_field_encode, ← pow_two, ← pow_succ]
    rw [fixed, if_pos inverse]
    dsimp only
    rw [abscissa, ordinate]
  · rw [fixed, if_neg finite]

private theorem fixLoop_spec (apart : ∀ i < num, ∀ j < num, points i = points j → i = j) :
    (∀ i < num, fixLoop group points num m (points i) = fixed group (m (points i))) ∧
      ∀ a, (∀ i < num, a ≠ points i) → fixLoop group points num m a = m a := by
  refine Loops.foldl_range_cells m apart fun m i => ?_
  dsimp only
  rw [fixed]
  split_ifs with finite
  · simp only [Points.setX, Points.setY, Points.setZ, Points.setFlag, Function.update_self, Function.update_idem]
  · rw [Function.update_eq_self]

/-- The batch makes every listed point affine, and it fails on no list. -/
theorem points_make_affine_spec (group : SimpleGroup p) (m : Points (ZMod p))
    (apart : ∀ i < num, ∀ j < num, points i = points j → i = j) :
    ∃ m', ossl_ec_GFp_simple_points_make_affine group points num m = some m' ∧
      (∀ i < num, m' (points i) = affine group (m (points i))) ∧ ∀ a, (∀ i < num, a ≠ points i) → m' a = m a := by
  by_cases positive : num = 0
  · subst positive
    exact ⟨m, rfl, fun i inside => absurd inside (Nat.not_lt_zero i), fun _ _ => rfl⟩
  · have opened : group.decode (if (m (points 0)).Z ≠ 0 then (m (points 0)).Z else group.field_encode 1) =
        factor group m points 0 := by
      rw [factor]
      split_ifs
      · rfl
      · exact decode_field_encode 1
    have products := decode_prodLoop positive opened
    obtain ⟨prod_Z, built⟩ : ∃ prod_Z, prodLoop group points m num (Function.update (fun _ => 0) 0
      (if (m (points 0)).Z ≠ 0 then (m (points 0)).Z else group.field_encode 1)) = prod_Z := ⟨_, rfl⟩
    rw [built] at products
    have last := products (num - 1) (by omega)
    rw [Nat.sub_add_cancel (Nat.one_le_iff_ne_zero.mpr positive)] at last
    have nonzero : ∏ l ∈ Finset.range num, factor group m points l ≠ 0 :=
      Finset.prod_ne_zero_iff.mpr fun i _ => factor_ne_zero i
    have unit : prod_Z (num - 1) ≠ 0 := (group.decode_eq_zero _).not.mp (last.trans_ne nonzero)
    have start : group.decode (group.field_encode (group.field_encode (prod_Z (num - 1))⁻¹)) *
        ∏ l ∈ Finset.range num, factor group m points l = 1 := by
      rw [decode_field_encode, ← last, field_encode, decode]
      field_simp
      exact Units.mul_inv group.R
    obtain ⟨inverse, rest, others⟩ := inverseLoop_spec positive apart products start
    obtain ⟨st, looped⟩ : ∃ st, inverseLoop group points prod_Z num
      (m, group.field_encode (group.field_encode (prod_Z (num - 1))⁻¹)) = st := ⟨_, rfl⟩
    rw [looped] at inverse rest others
    have head : st.1 (points 0) = m (points 0) :=
      others _ fun j inside after same => absurd (apart 0 (by omega) j inside same) (by omega)
    obtain ⟨m₁, headed⟩ : ∃ m₁, (if (st.1 (points 0)).Z ≠ 0 then st.1.setZ (points 0) st.2 else st.1) = m₁ := ⟨_, rfl⟩
    have all : m₁ = Function.update st.1 (points 0) (inverted group (m (points 0))) := by
      rw [← headed]
      split_ifs with finite
      · rw [head] at finite
        rw [factor, if_pos finite, ← head] at inverse
        rw [← head] at finite
        rw [setZ_inverted finite inverse, head]
      · rw [head] at finite
        rw [inverted, if_neg finite, ← head, Function.update_eq_self]
    obtain ⟨ends, kept⟩ := fixLoop_spec (m := m₁) apart
    refine ⟨fixLoop group points num m₁, ?_, fun i inside => ?_, fun a outside => ?_⟩
    · rw [ossl_ec_GFp_simple_points_make_affine, if_neg positive]
      simp only [built, field_inv, if_neg unit, Option.bind_eq_bind, Option.bind_some, looped, headed]
      rfl
    · rw [ends i inside, all]
      by_cases first : i = 0
      · rw [first, Function.update_self, fixed_inverted]
      · rw [Function.update_of_ne fun same => first (apart i inside 0 (by omega) same),
          rest i inside (Nat.one_le_iff_ne_zero.mpr first), fixed_inverted]
    · rw [kept a outside, all, Function.update_of_ne (outside 0 (by omega)), others a fun j inside _ => outside j inside]

/-- The batch leaves what the single conversion leaves for each listed point. -/
theorem points_make_affine_eq (m : Points (ZMod p)) (apart : ∀ i < num, ∀ j < num, points i = points j → i = j)
    (stored : ∀ i < num, ∃ P : (group.curve (group.decode group.b)).Point, group.Represents (m (points i)) P) :
    ∃ m', ossl_ec_GFp_simple_points_make_affine group points num m = some m' ∧
      (∀ i < num, ossl_ec_GFp_simple_make_affine group (m (points i)) = some (m' (points i))) ∧
      ∀ a, (∀ i < num, a ≠ points i) → m' a = m a := by
  obtain ⟨m', ends, converted, others⟩ := points_make_affine_spec group m apart
  refine ⟨m', ends, fun i inside => ?_, others⟩
  obtain ⟨P, represents⟩ := stored i inside
  rw [make_affine_eq represents, converted i inside]

theorem points_make_affine_eq_generator : ∃ m',
    ossl_ec_GFp_simple_points_make_affine secp256k1.toSimpleGroup (fun i => i) 2
      (fun i => if i = 0 then { secp256k1.generator with Z_is_one := false } else ⟨5, 7, 0, false⟩) = some m' ∧
      (∀ i < 2, ossl_ec_GFp_simple_make_affine secp256k1.toSimpleGroup
        (if i = 0 then { secp256k1.generator with Z_is_one := false } else ⟨5, 7, 0, false⟩) = some (m' i)) ∧
      ∀ a, (∀ i < 2, a ≠ i) → m' a = if a = 0 then { secp256k1.generator with Z_is_one := false } else ⟨5, 7, 0, false⟩ := by
  refine points_make_affine_eq _ (fun i _ j _ same => same) fun i _ => ?_
  split_ifs
  · obtain ⟨P, stored, -⟩ := represents_generator
    exact ⟨P, stored.holds, fun set => absurd set Bool.false_ne_true⟩
  · exact ⟨0, represents_zero _ _⟩

end Batch

end DbcSnark.Ec
