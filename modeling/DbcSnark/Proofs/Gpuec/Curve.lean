import DbcSnark.Model.Gpuec.Point
import DbcSnark.Proofs.Gpuec.Montgomery
import DbcSnark.ToMathlib.Jacobian
import DbcSnark.ToMathlib.Pocklington
import Mathlib.Tactic.NormNum.Prime
import Mathlib.Tactic.ReduceModChar

/-! # The curve

The modulus is prime, so that the residues are a field and the points of `y ^ 2 = x ^ 3 + 7` a group. Three reduced
coordinates in Montgomery form represent a point when their residues are Jacobian coordinates of it. Seven is no
square, so no finite point has the abscissa zero, which marks the affine point at infinity.
-/

namespace DbcSnark.Gpuec

open WeierstrassCurve.Affine (Point)

/-! ## The modulus is prime -/

private theorem prime_128 : Nat.Prime 255515944373312847190720520512484175977 := by
  apply Pocklington.prime_of_factors (by norm_num) {107590001, 7240687, 96557} (by norm_num) 2 (by reduce_mod_char)
  intro q member
  simp only [Finset.mem_insert, Finset.mem_singleton] at member
  rcases member with rfl | rfl | rfl
  · exact ⟨by norm_num, 2374904191824599455024826335976, 235081362755335172132203715226758066727, by norm_num,
      by reduce_mod_char⟩
  · exact ⟨by norm_num, 35288908963101546467996824129048, 175544394104025381149509263364095140941, by norm_num,
      by reduce_mod_char⟩
  · exact ⟨by norm_num, 2646270538369179315748423423599368, 52333299885033245219942804006191421971, by norm_num,
      by reduce_mod_char⟩

private theorem prime_237 : Nat.Prime 205115282021455665897114700593932402728804164701536103180137503955397371 := by
  apply Pocklington.prime_of_factors (by norm_num) {255515944373312847190720520512484175977} (by norm_num) 2
    (by reduce_mod_char)
  intro q member
  rw [Finset.mem_singleton] at member
  subst member
  exact ⟨prime_128, 802749442992798076634733441528810,
    81475874003799270243122483189086420723726815346591292526890606927317739, by norm_num, by reduce_mod_char⟩

private theorem prime_256 :
    Nat.Prime 115792089237316195423570985008687907853269984665640564039457584007908834671663 := by
  apply Pocklington.prime_of_factors (by norm_num)
    {205115282021455665897114700593932402728804164701536103180137503955397371} (by norm_num) 2 (by reduce_mod_char)
  intro q member
  rw [Finset.mem_singleton] at member
  subst member
  exact ⟨prime_237, 564522,
    38738227534097492269493948901333532538630784921480042032654553727346127695815, by norm_num,
    by reduce_mod_char⟩

private theorem sq_ne_seven_of_eq {n : ℕ} [Fact n.Prime]
    (value : n = 115792089237316195423570985008687907853269984665640564039457584007908834671663) (y : ZMod n) :
    y ^ 2 ≠ 7 := by
  intro square
  have nonzero : y ≠ 0 := by
    rintro rfl
    rw [zero_pow two_ne_zero, eq_comm, ← Nat.cast_ofNat, ZMod.natCast_eq_zero_iff, value] at square
    exact absurd square (by norm_num)
  have fermat := ZMod.pow_card_sub_one_eq_one nonzero
  have half : n - 1 = 2 * 57896044618658097711785492504343953926634992332820282019728792003954417335831 := by
    rw [value]
  rw [half, pow_mul, square] at fermat
  subst value
  reduce_mod_char at fermat
  exact absurd fermat (by decide)

private theorem cube_ne_of_eq {n : ℕ} [Fact n.Prime]
    (value : n = 115792089237316195423570985008687907853269984665640564039457584007908834671663) (x : ZMod n) :
    x ^ 3 + 7 ≠ 0 := by
  intro root
  have cube : x ^ 3 = -7 := by linear_combination root
  have nonzero : x ≠ 0 := by
    rintro rfl
    rw [zero_pow three_ne_zero, zero_add, ← Nat.cast_ofNat, ZMod.natCast_eq_zero_iff, value] at root
    exact absurd root (by norm_num)
  have fermat := ZMod.pow_card_sub_one_eq_one nonzero
  have third : n - 1 = 3 * 38597363079105398474523661669562635951089994888546854679819194669302944890554 := by
    rw [value]
  rw [third, pow_mul, cube] at fermat
  subst value
  reduce_mod_char at fermat
  exact absurd fermat (by decide)

theorem modP_toNat :
    modP.Pa.toNat = 115792089237316195423570985008687907853269984665640564039457584007908834671663 := by
  decide

instance : Fact (Nat.Prime modP.Pa.toNat) := ⟨modP_toNat ▸ prime_256⟩

/-- Seven is no square. -/
theorem sq_ne_seven (y : modP.Residue) : y ^ 2 ≠ 7 := sq_ne_seven_of_eq modP_toNat y

/-- The curve has no point on the line `y = 0`. -/
theorem cube_add_seven_ne (x : modP.Residue) : x ^ 3 + 7 ≠ 0 := cube_ne_of_eq modP_toNat x

/-! ## Points -/

/-- The curve `y ^ 2 = x ^ 3 + 7`. -/
abbrev curve : WeierstrassCurve.Affine modP.Residue := Jacobian.curve 0 7

theorem equation_iff {x y : modP.Residue} : curve.Equation x y ↔ y ^ 2 = x ^ 3 + 7 := by
  rw [Jacobian.equation_iff, zero_mul, add_zero]

/-- No point has the abscissa zero. -/
theorem abscissa_ne_zero {x y : modP.Residue} (h : curve.Nonsingular x y) : x ≠ 0 := by
  rintro rfl
  have equation := equation_iff.mp h.1
  rw [zero_pow three_ne_zero, zero_add] at equation
  exact sq_ne_seven y equation

theorem residue_two_ne_zero : (2 : modP.Residue) ≠ 0 := by
  rw [← Nat.cast_ofNat, ne_eq, ZMod.natCast_eq_zero_iff]
  decide

/-- No point has the ordinate zero. -/
theorem ordinate_ne_zero {x y : modP.Residue} (equation : y ^ 2 = x ^ 3 + 7) : y ≠ 0 := by
  rintro rfl
  rw [zero_pow two_ne_zero] at equation
  exact cube_add_seven_ne x equation.symm

/-- No point is its own opposite. -/
theorem ordinate_ne_neg {x y : modP.Residue} (h : curve.Nonsingular x y) : y ≠ -y := by
  intro same
  have double : 2 * y = 0 := by linear_combination same
  exact ordinate_ne_zero (equation_iff.mp h.1) ((mul_eq_zero_iff_left residue_two_ne_zero).mp double)

variable {J : Jpoint} {A : Apoint} {X Y Z : modP.Residue} {P : curve.Point}

/-- The coordinates hold the residues. -/
structure Jpoint.Residues (J : Jpoint) (X Y Z : modP.Residue) : Prop where
  x : modP.Mont J.x X
  y : modP.Mont J.y Y
  z : modP.Mont J.z Z

/-- The coordinates represent the point; at infinity the first two are arbitrary. -/
def Jpoint.Represents (J : Jpoint) : curve.Point → Prop
  | .zero => J.z.iszero = true
  | .some x y h => ∃ X Y Z, J.Residues X Y Z ∧ Jacobian.Holds X Y Z (.some x y h)

/-- The affine coordinates represent the point; `x = 0` marks the point at infinity. -/
def Apoint.Represents (A : Apoint) : curve.Point → Prop
  | .zero => A.x.iszero = true
  | .some x y _ => modP.Mont A.x x ∧ modP.Mont A.y y

theorem Jpoint.Residues.of_mont {x y z : Big} (hx : modP.Mont x X) (hy : modP.Mont y Y) (hz : modP.Mont z Z) :
    Residues ⟨x, y, z⟩ X Y Z :=
  ⟨hx, hy, hz⟩

theorem Jpoint.Residues.of_eq {X' Y' Z' : modP.Residue} (residues : J.Residues X Y Z) (hX : X' = X) (hY : Y' = Y)
    (hZ : Z' = Z) : J.Residues X' Y' Z' := by
  subst hX hY hZ
  exact residues

theorem Jpoint.Residues.represents (residues : J.Residues X Y Z) (holds : Jacobian.Holds X Y Z P) :
    J.Represents P := by
  cases P with
  | zero => exact residues.z.iszero_iff.mpr holds
  | some x y h => exact ⟨X, Y, Z, residues, holds⟩

theorem Jpoint.Represents.residues (represents : J.Represents P) (finite : P ≠ 0) :
    ∃ X Y Z, J.Residues X Y Z ∧ Jacobian.Holds X Y Z P := by
  cases P with
  | zero => exact absurd rfl finite
  | some x y h => exact represents

/-- The last coordinate is zero at infinity only. -/
theorem Jpoint.Represents.iszero_iff (represents : J.Represents P) : J.z.iszero = true ↔ P = 0 := by
  cases P with
  | zero => exact iff_of_true represents rfl
  | some x y h =>
    obtain ⟨X, Y, Z, residues, holds⟩ := represents
    exact residues.z.iszero_iff.trans holds.eq_zero_iff

/-- The first coordinate is zero at infinity only. -/
theorem Apoint.Represents.iszero_iff (represents : A.Represents P) : A.x.iszero = true ↔ P = 0 := by
  cases P with
  | zero => exact iff_of_true represents rfl
  | some x y h =>
    rw [represents.1.iszero_iff]
    exact iff_of_false (abscissa_ne_zero h) (Point.some_ne_zero h)

theorem mont_ONE : modP.Mont dc_mon_ONE 1 := by
  rw [← Nat.cast_one, Modulus.mont_natCast_iff]
  decide

/-- A finite affine point with the last coordinate one. -/
theorem Apoint.Represents.toJpoint (represents : A.Represents P) (finite : P ≠ 0) :
    Jpoint.Represents ⟨A.x, A.y, dc_mon_ONE⟩ P := by
  cases P with
  | zero => exact absurd rfl finite
  | some x y h =>
    refine (Jpoint.Residues.of_mont represents.1 represents.2 mont_ONE).represents ⟨one_ne_zero, ?_, ?_⟩
    · rw [one_pow, mul_one]
    · rw [one_pow, mul_one]

/-- The curve has no singular point. -/
theorem nonsingular {x y : modP.Residue} (equation : y ^ 2 = x ^ 3 + 7) : curve.Nonsingular x y := by
  refine (WeierstrassCurve.Affine.nonsingular_iff' ..).mpr ⟨equation_iff.mpr equation, .inl ?_⟩
  have abscissa : x ≠ 0 := by
    rintro rfl
    rw [zero_pow three_ne_zero, zero_add] at equation
    exact sq_ne_seven y equation
  have three : (3 : modP.Residue) ≠ 0 := by
    rw [← Nat.cast_ofNat, ne_eq, ZMod.natCast_eq_zero_iff]
    decide
  simpa only [zero_mul, mul_zero, add_zero, zero_sub, neg_ne_zero] using mul_ne_zero three (pow_ne_zero 2 abscissa)

/-- Words that hold the coordinates of a point. -/
theorem Apoint.exists_represents (x y : ℕ) (equation : y ^ 2 % modP.Pa.toNat = (x ^ 3 + 7) % modP.Pa.toNat)
    (hx : A.x.toNat = x * 2 ^ 256 % modP.Pa.toNat) (hy : A.y.toNat = y * 2 ^ 256 % modP.Pa.toNat) :
    ∃ h : curve.Nonsingular x y, A.Represents (.some _ _ h) := by
  have residues := (ZMod.natCast_eq_natCast_iff' _ _ _).mpr equation
  rw [Nat.cast_pow, Nat.cast_add, Nat.cast_pow, Nat.cast_ofNat] at residues
  exact ⟨nonsingular residues, Modulus.mont_natCast_iff.mpr hx, Modulus.mont_natCast_iff.mpr hy⟩

end DbcSnark.Gpuec
