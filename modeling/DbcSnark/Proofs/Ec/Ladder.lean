import DbcSnark.Model.Ec.Ladder
import DbcSnark.Proofs.Ec.Affine
import DbcSnark.ToMathlib.Loops
import DbcSnark.ToMathlib.XOnly

/-! # The ladder multiplies

The points `r` and `s` hold the abscissas of two multiples of the point that differ by the point itself, in an order that
`pbit` tells. One step doubles the first and adds both, whichever they are, so no scalar and no point is exceptional.
-/

namespace DbcSnark.Ec

open EC_GROUP Gpuec
open WeierstrassCurve.Affine (Point)

variable {p : ℕ} [Fact p.Prime] {group : SimpleGroup p} {m : Points (ZMod p)} {r s pt : EC_POINT (ZMod p)}

/-! ## The steps -/

section Steps

variable {c x y : ZMod p} {h : (group.curve (group.decode group.b)).Nonsingular x y}
  {P Q R S : (group.curve (group.decode group.b)).Point}

/-- The abscissa of a point, as `r` and `s` hold it. -/
def Abscissa (group : SimpleGroup p) (pt : EC_POINT (ZMod p)) (Q : (group.curve (group.decode group.b)).Point) : Prop :=
  XOnly.Holds (group.decode pt.X) (group.decode pt.Z) Q

/-- The ladder starts with the double of the point and the point. -/
theorem ladder_pre_spec (blinds : Blinds p) (stored : group.Represents pt P) (affine : pt.Z_is_one = true) :
    ∃ r s, ossl_ec_GFp_simple_ladder_pre group blinds pt = some (r, s) ∧ Abscissa group r (P + P) ∧ Abscissa group s P := by
  have one := stored.flag affine
  have abscissa : XOnly.Holds (group.decode pt.X) 1 P := by
    cases P with
    | zero => exact absurd (one.symm.trans stored.holds) one_ne_zero
    | some x y h =>
      obtain ⟨-, abscissa, -⟩ := stored.holds
      rw [one, one_pow] at abscissa
      exact ⟨one_ne_zero, abscissa⟩
  rw [ossl_ec_GFp_simple_ladder_pre, affine, if_neg (by decide)]
  refine ⟨_, _, rfl, (abscissa.double.scale blinds.r.ne_zero).of_eq ?_ ?_, (abscissa.scale blinds.s.ne_zero).of_eq ?_ ?_⟩
  · simp only [decode_field_mul, decode_sub, decode_field_sqr, decode_lshift, decode_field_encode]
    ring
  · simp only [decode_field_mul, decode_add, decode_field_sqr, decode_lshift, decode_field_encode]
    ring
  · rw [decode_field_mul, decode_field_encode]
  · rw [decode_field_encode, one_mul]

/-- One step doubles the first point and adds both, when they differ by the affine point. -/
theorem ladder_step_spec (affine : group.decode pt.X = x) (left : Abscissa group r R) (right : Abscissa group s S)
    (difference : S - R = .some x y h ∨ R - S = .some x y h) :
    Abscissa group (ossl_ec_GFp_simple_ladder_step group r s pt).1 (R + R) ∧
      Abscissa group (ossl_ec_GFp_simple_ladder_step group r s pt).2 (R + S) := by
  refine ⟨(XOnly.Holds.double left).of_eq ?_ ?_, (XOnly.Holds.differential left right difference).of_eq ?_ ?_⟩
  all_goals
    simp only [ossl_ec_GFp_simple_ladder_step, BN_mod_lshift1_quick, decode_field_mul, decode_add, decode_sub,
      decode_field_sqr, decode_lshift, affine]
    ring

/-- A multiple of a point with a vertical tangent is infinite or the point. -/
private theorem multiple_of_vertical (vertical : 2 * y = 0) (k : ℕ) :
    k • Point.some x y h = 0 ∨ k • Point.some x y h + Point.some x y h = 0 := by
  have double : 2 • Point.some x y h = 0 := (two_nsmul _).trans (Jacobian.add_self_of_vertical h vertical)
  have even (j : ℕ) : (2 * j) • Point.some x y h = 0 := by rw [mul_nsmul, double, nsmul_zero]
  rw [← succ_nsmul]
  rcases Nat.even_or_odd' k with ⟨j, rfl | rfl⟩
  · exact .inl (even j)
  · exact .inr (even (j + 1))

/-- The last step recovers the ordinate of a multiple. -/
theorem ladder_post_spec (stored : group.Represents pt (.some x y h)) (affine : pt.Z_is_one = true) {k : ℕ}
    (left : Abscissa group r (k • .some x y h)) (right : Abscissa group s (k • .some x y h + .some x y h)) :
    ∃ pt', ossl_ec_GFp_simple_ladder_post group r s pt = some pt' ∧ group.Represents pt' (k • .some x y h) := by
  have first : r.Z = 0 ↔ k • Point.some x y h = 0 := (decode_eq_zero_iff _).symm.trans left.eq_zero_iff
  have second : s.Z = 0 ↔ k • Point.some x y h + Point.some x y h = 0 :=
    (decode_eq_zero_iff _).symm.trans right.eq_zero_iff
  rw [ossl_ec_GFp_simple_ladder_post]
  split_ifs with infinite opposite
  · refine ⟨_, rfl, ?_⟩
    rw [first.mp infinite]
    exact represents_zero _ _
  · refine ⟨_, rfl, ?_⟩
    rw [eq_neg_of_add_eq_zero_left (second.mp opposite)]
    exact (invert_leaves (m := fun _ => pt) (a := 0) stored).1.stored
  · have vertical : 2 * y ≠ 0 := fun vertical =>
      (multiple_of_vertical vertical k).elim (fun zero => infinite (first.mpr zero)) fun zero => opposite (second.mpr zero)
    have one := stored.flag affine
    obtain ⟨-, abscissa, ordinate⟩ := stored.holds
    rw [one, one_pow, mul_one] at abscissa ordinate
    cases sum : k • Point.some x y h + Point.some x y h with
    | zero => exact absurd (second.mpr sum) opposite
    | some x₃ y₃ h₃ =>
      cases multiple : k • Point.some x y h with
      | zero => exact absurd (first.mpr multiple) infinite
      | some x₂ y₂ h₂ =>
        rw [multiple] at left sum
        rw [multiple, sum] at right
        obtain ⟨finite₂, abscissa₂⟩ := left
        obtain ⟨finite₃, abscissa₃⟩ := right
        have product := XOnly.two_mul_ordinates sum
        obtain ⟨two, nonzero⟩ := mul_ne_zero_iff.mp vertical
        have denominator : group.decode r.Z ^ 2 * (group.decode s.Z * (2 * y)) ≠ 0 :=
          mul_ne_zero (pow_ne_zero 2 finite₂) (mul_ne_zero finite₃ vertical)
        have inverse : field_inv (group.field_decode (group.field_mul (group.field_sqr r.Z)
            (group.field_mul s.Z (BN_mod_lshift1_quick pt.Y)))) =
            some (group.decode r.Z ^ 2 * (group.decode s.Z * (2 * y)))⁻¹ := by
          rw [field_decode_eq, decode_field_mul, decode_field_sqr, decode_field_mul, BN_mod_lshift1_quick, decode_lshift,
            ordinate, ← pow_two, pow_one, field_inv, if_neg denominator]
        dsimp only
        rw [inverse]
        refine ⟨_, rfl, ⟨?_, ?_, ?_⟩, fun _ => decode_field_encode 1⟩
        · rw [decode_field_encode]
          exact one_ne_zero
        · simp only [BN_mod_lshift1_quick, decode_field_mul, decode_lshift, decode_field_encode, abscissa₂, ordinate]
          field_simp
        · simp only [BN_mod_lshift1_quick, decode_field_mul, decode_add, decode_sub, decode_field_sqr, decode_lshift,
            decode_field_encode, abscissa, abscissa₂, abscissa₃]
          field_simp
          linear_combination -product

end Steps

/-! ## The scalar -/

section Scalar

variable {cardinality : ℕ} (scalar : ℤ)

/-- The scalar before a multiple of the cardinality is added. -/
private theorem exists_reduced (positive : cardinality ≠ 0) : ∃ k : ℕ, k < 2 ^ cardinality.size ∧ ∃ j : ℤ,
    (k : ℤ) = scalar + j * cardinality ∧ fixedScalar cardinality scalar =
      if (k + cardinality).testBit cardinality.size then k + cardinality else k + cardinality + cardinality := by
  have above := Nat.lt_size_self cardinality
  by_cases unusual : scalar.natAbs.size > cardinality.size ∨ scalar < 0
  · have nonneg := Int.emod_nonneg scalar (Int.natCast_ne_zero.mpr positive)
    have below := Int.emod_lt_of_pos scalar (Int.natCast_pos.mpr (Nat.pos_of_ne_zero positive))
    refine ⟨(scalar % cardinality).toNat, by omega, -(scalar / cardinality), ?_, ?_⟩
    · rw [Int.toNat_of_nonneg nonneg, Int.emod_def]
      ring
    · rw [fixedScalar, if_pos unusual]
  · have nonneg := not_lt.mp (not_or.mp unusual).2
    have short := Nat.size_le.mp (not_lt.mp (not_or.mp unusual).1)
    refine ⟨scalar.toNat, by omega, 0, ?_, ?_⟩
    · rw [Int.toNat_of_nonneg nonneg]
      ring
    · rw [fixedScalar, if_neg unusual]

/-- The leading bit has a fixed place. -/
theorem fixedScalar_div (positive : cardinality ≠ 0) : fixedScalar cardinality scalar / 2 ^ cardinality.size = 1 := by
  obtain ⟨k, small, -, -, fixed⟩ := exists_reduced scalar positive
  have above := Nat.lt_size_self cardinality
  have below : 2 ^ (cardinality.size - 1) ≤ cardinality :=
    Nat.lt_size.mp (Nat.sub_lt (Nat.size_pos.mpr (Nat.pos_of_ne_zero positive)) Nat.one_pos)
  have double : 2 ^ cardinality.size = 2 * 2 ^ (cardinality.size - 1) := by
    rw [← pow_succ', Nat.sub_add_cancel (Nat.size_pos.mpr (Nat.pos_of_ne_zero positive))]
  rw [fixed, Nat.testBit_eq_decide_div_mod_eq]
  by_cases long : 2 ^ cardinality.size ≤ k + cardinality
  · have quotient : (k + cardinality) / 2 ^ cardinality.size = 1 :=
      Nat.div_eq_of_lt_le (by omega) (by omega)
    rw [quotient, if_pos (by decide), quotient]
  · rw [Nat.div_eq_of_lt (not_le.mp long), if_neg (by decide)]
    exact Nat.div_eq_of_lt_le (by omega) (by omega)

/-- The scalar changes by a multiple of the cardinality. -/
theorem exists_fixedScalar (positive : cardinality ≠ 0) :
    ∃ j : ℤ, (fixedScalar cardinality scalar : ℤ) = scalar + j * cardinality := by
  obtain ⟨k, -, j, reduced, fixed⟩ := exists_reduced scalar positive
  rw [fixed]
  split_ifs
  · refine ⟨j + 1, ?_⟩
    push_cast
    rw [reduced]
    ring
  · refine ⟨j + 2, ?_⟩
    push_cast
    rw [reduced]
    ring

end Scalar

/-! ## The loop -/

section Loop

variable {x y : ZMod p} {h : (group.curve (group.decode group.b)).Nonsingular x y}
  {P : (group.curve (group.decode group.b)).Point} {st : (EC_POINT (ZMod p) × EC_POINT (ZMod p)) × Bool} {k q i : ℕ}

/-- After the swap that `pbit` asks for, the points hold the multiples by `q` and by the next number. -/
def Tracks (group : SimpleGroup p) (P : (group.curve (group.decode group.b)).Point) (q : ℕ)
    (st : (EC_POINT (ZMod p) × EC_POINT (ZMod p)) × Bool) : Prop :=
  Abscissa group (EC_POINT_CSWAP st.2 st.1).1 (q • P) ∧ Abscissa group (EC_POINT_CSWAP st.2 st.1).2 (q • P + P)

omit [Fact p.Prime] in
private theorem CSWAP_xor (c d : Bool) (st : EC_POINT (ZMod p) × EC_POINT (ZMod p)) :
    EC_POINT_CSWAP (c ^^ d) st = EC_POINT_CSWAP c (EC_POINT_CSWAP d st) := by
  cases c <;> cases d <;> rfl

/-- A turn without the merging of its swap with the one before. -/
private theorem ladderTurn_eq : ladderTurn group k pt st i =
    let held := EC_POINT_CSWAP (k.testBit i) (EC_POINT_CSWAP st.2 st.1)
    (ossl_ec_GFp_simple_ladder_step group held.1 held.2 pt, k.testBit i) := by
  have merged : (st.2 ^^ (k.testBit i ^^ st.2)) = k.testBit i := by cases st.2 <;> cases k.testBit i <;> rfl
  rw [ladderTurn, CSWAP_xor, merged]

/-- A turn brings down the next bit. -/
theorem Tracks.turn (affine : group.decode pt.X = x) (tracks : Tracks group (.some x y h) (k / 2 ^ (i + 1)) st) :
    Tracks group (.some x y h) (k / 2 ^ i) (ladderTurn group k pt st i) := by
  have bits : k / 2 ^ i = 2 * (k / 2 ^ (i + 1)) + (k.testBit i).toNat := by
    rw [Nat.testBit_eq_decide_div_mod_eq, pow_succ, ← Nat.div_div_eq_div_mul]
    rcases Nat.mod_two_eq_zero_or_one (k / 2 ^ i) with even | odd
    · rw [even, decide_eq_false (by decide), Bool.toNat_false]
      omega
    · rw [odd, decide_eq_true rfl, Bool.toNat_true]
      omega
  obtain ⟨lower, upper⟩ := tracks
  generalize k / 2 ^ (i + 1) = q at bits lower upper
  rw [Tracks, ladderTurn_eq, bits]
  generalize EC_POINT_CSWAP st.2 st.1 = held at lower upper ⊢
  have twice : (2 * q) • Point.some x y h = q • Point.some x y h + q • Point.some x y h := by rw [two_mul, add_nsmul]
  cases k.testBit i with
  | false =>
    obtain ⟨double, sum⟩ := ladder_step_spec affine lower upper (.inl (add_sub_cancel_left _ _))
    rw [Bool.toNat_false, add_zero, twice, add_assoc]
    exact ⟨double, sum⟩
  | true =>
    obtain ⟨double, sum⟩ := ladder_step_spec affine upper lower (.inr (add_sub_cancel_left _ _))
    rw [Bool.toNat_true, add_nsmul, one_nsmul, twice]
    refine ⟨?_, ?_⟩
    · rw [add_right_comm]
      exact sum
    · rw [add_right_comm (q • _), add_assoc (q • _ + _)]
      exact double

/-- The loop brings down all bits. -/
theorem Tracks.loop (affine : group.decode pt.X = x) (n : ℕ) (tracks : Tracks group (.some x y h) (k / 2 ^ n) st) :
    Tracks group (.some x y h) k ((List.range n).reverse.foldl (ladderTurn group k pt) st) := by
  induction n generalizing st with
  | zero => rwa [pow_zero, Nat.div_one] at tracks
  | succ n ih =>
    rw [Loops.foldl_reverse_range_succ]
    exact ih (tracks.turn affine)

end Loop

/-! ## The multiplication -/

section Multiplication

variable {group : CurveGroup p} (blinds : Blinds p) {P : (group.curve (group.decode group.b)).Point} (r : ℕ) (scalar : ℤ)
  {point : Option ℕ}

/-- The ladder for a finite point. -/
private theorem ladder_finite (stored : group.Represents (operand group m point) P) (finite : P ≠ 0) :
    ∃ pt, EC_POINT_mul group blinds m r scalar point = some (Function.update m r pt) ∧
      group.Represents pt (fixedScalar (group.order * group.cofactor) scalar • P) := by
  have nonzero : (operand group m point).Z ≠ 0 := (Z_eq_zero_iff stored).not.mpr finite
  have goes : ¬ point.any (fun point => (m point).Z = 0) = true := by
    cases point with
    | none => exact Bool.false_ne_true
    | some a =>
      rw [Option.any_some, decide_eq_true_eq]
      exact nonzero
  obtain ⟨pt, made, affine, flag⟩ : ∃ pt, (if !(operand group m point).Z_is_one then
      ossl_ec_GFp_simple_make_affine group.toSimpleGroup (operand group m point) else some (operand group m point)) =
        some pt ∧
        group.Represents pt P ∧ pt.Z_is_one = true := by
    split_ifs with general
    · obtain ⟨affine, flag⟩ := affine_spec stored
      exact ⟨_, make_affine_eq stored, affine, flag finite⟩
    · exact ⟨_, rfl, stored, by simpa using general⟩
  obtain ⟨r₀, s₀, opened, double, single⟩ := ladder_pre_spec blinds affine flag
  cases P with
  | zero => exact absurd rfl finite
  | some x y h =>
    have abscissa : group.decode pt.X = x := by
      have abscissa := affine.holds.2.1
      rwa [affine.flag flag, one_pow, mul_one] at abscissa
    have start : Tracks group.toSimpleGroup (.some x y h)
        (fixedScalar (group.order * group.cofactor) scalar / 2 ^ (group.order * group.cofactor).size) ((r₀, s₀), true) := by
      rw [fixedScalar_div scalar group.known, Tracks, one_nsmul]
      exact ⟨single, double⟩
    obtain ⟨lower, upper⟩ := start.loop abscissa
    obtain ⟨pt', closed, result⟩ := ladder_post_spec affine flag lower upper
    refine ⟨pt', ?_, result⟩
    rw [EC_POINT_mul, ossl_ec_scalar_mul_ladder.eq_def, if_neg goes]
    simp only [made, opened, closed, Option.bind_eq_bind, Option.bind_some]
    rfl

/-- The multiplication leaves the multiple by a scalar that differs by a multiple of the cardinality. -/
theorem mul_leaves (stored : group.Represents (operand group m point) P) (finite : point = none → P ≠ 0) :
    ∃ m', EC_POINT_mul group blinds m r scalar point = some m' ∧
      Leaves group.toSimpleGroup m m' r (fixedScalar (group.order * group.cofactor) scalar • P) := by
  by_cases infinite : P = 0
  · cases point with
    | none => exact absurd infinite (finite rfl)
    | some a =>
      have zero : (m a).Z = 0 := (Z_eq_zero_iff stored).mpr infinite
      refine ⟨Function.update m r (EC_POINT_set_to_infinity (m r)), ?_, ?_⟩
      · rw [EC_POINT_mul, ossl_ec_scalar_mul_ladder.eq_def, if_pos (by simpa using zero)]
      · rw [infinite, nsmul_zero]
        exact .of_update (represents_zero _ _)
  · obtain ⟨pt, ends, result⟩ := ladder_finite blinds r scalar stored infinite
    exact ⟨_, ends, .of_update result⟩

/-- The multiplication by the scalar itself. -/
theorem mul_leaves_of_cardinality (stored : group.Represents (operand group m point) P) (finite : point = none → P ≠ 0)
    (cardinality : (group.order * group.cofactor) • P = 0) :
    ∃ m', EC_POINT_mul group blinds m r scalar point = some m' ∧ Leaves group.toSimpleGroup m m' r (scalar • P) := by
  obtain ⟨j, fixed⟩ := exists_fixedScalar scalar group.known
  have same : fixedScalar (group.order * group.cofactor) scalar • P = scalar • P := by
    rw [← natCast_zsmul, fixed, add_zsmul, mul_zsmul, natCast_zsmul, cardinality, zsmul_zero, add_zero]
  rw [← same]
  exact mul_leaves blinds r scalar stored finite

/-- A scalar that is padded to a power of two. -/
private theorem fixedScalar_pad {cardinality : ℕ} (positive : cardinality ≠ 0) :
    fixedScalar cardinality (2 ^ cardinality.size - cardinality : ℕ) = 2 ^ cardinality.size := by
  have above := Nat.lt_size_self cardinality
  have short : (2 ^ cardinality.size - cardinality).size ≤ cardinality.size := Nat.size_le.mpr (by omega)
  have padded : 2 ^ cardinality.size - cardinality + cardinality = 2 ^ cardinality.size := by omega
  have usual : ¬ (((2 ^ cardinality.size - cardinality : ℕ) : ℤ).natAbs.size > cardinality.size ∨
      ((2 ^ cardinality.size - cardinality : ℕ) : ℤ) < 0) :=
    not_or.mpr ⟨not_lt.mpr short, not_lt.mpr (Int.natCast_nonneg _)⟩
  rw [fixedScalar]
  rw [if_neg usual, Int.toNat_natCast, padded, Nat.testBit_two_pow_self, if_pos rfl]

/-- The multiplication is right for all scalars just when the product of the order and the cofactor is a period. -/
theorem EC_POINT_mul_iff (stored : group.Represents (operand group m point) P) (finite : point = none → P ≠ 0) :
    (∀ (blinds : Blinds p) (scalar : ℤ), ∃ m', EC_POINT_mul group blinds m r scalar point = some m' ∧
      Leaves group.toSimpleGroup m m' r (scalar • P)) ↔ (group.order * group.cofactor) • P = 0 := by
  refine ⟨fun right => ?_, fun cardinality blinds scalar =>
    mul_leaves_of_cardinality blinds r scalar stored finite cardinality⟩
  obtain ⟨m', ends, result⟩ := right ⟨1, 1⟩
    (2 ^ (group.order * group.cofactor).size - group.order * group.cofactor : ℕ)
  obtain ⟨m'', ends', result'⟩ := mul_leaves ⟨1, 1⟩ r
    (2 ^ (group.order * group.cofactor).size - group.order * group.cofactor : ℕ) stored finite
  obtain rfl := Option.some.inj (ends.symm.trans ends')
  have same := result.stored.holds.unique result'.stored.holds
  have above := Nat.lt_size_self (group.order * group.cofactor)
  rw [fixedScalar_pad group.known, natCast_zsmul] at same
  have split : 2 ^ (group.order * group.cofactor).size =
      2 ^ (group.order * group.cofactor).size - group.order * group.cofactor + group.order * group.cofactor := by omega
  rw [split, add_nsmul, ← split] at same
  exact left_eq_add.mp same

end Multiplication

theorem EC_POINT_mul_iff_generator : ∃ P : (secp256k1.curve (secp256k1.decode secp256k1.b)).Point,
    (∀ (blinds : Blinds modP.Pa.toNat) (scalar : ℤ), ∃ m',
      EC_POINT_mul secp256k1 blinds (fun _ => secp256k1.generator) 0 scalar none = some m' ∧
        Leaves secp256k1.toSimpleGroup (fun _ => secp256k1.generator) m' 0 (scalar • P)) ↔
      (secp256k1.order * secp256k1.cofactor) • P = 0 := by
  obtain ⟨P, stored, order⟩ := represents_generator
  have finite : P ≠ 0 := by
    rintro rfl
    rw [addOrderOf_zero] at order
    exact absurd order (by decide +kernel)
  have copied : secp256k1.Represents (operand secp256k1 (fun _ => secp256k1.generator) none) P := stored
  exact ⟨P, EC_POINT_mul_iff 0 copied fun _ => finite⟩

end DbcSnark.Ec
