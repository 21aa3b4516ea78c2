import DbcSnark.Model.Gpuec.TripleV2
import DbcSnark.Proofs.Gpuec.Point
import DbcSnark.ToMathlib.PackedPolynomial

/-! # The second tripling

`ppoint_triple_v2` adds a multiple of the fourth power of `z` to the slope, for a curve whose equation has a linear
term. Where its result had the abscissa that `ppoint_triple` finds, the abscissa of the operand would be the root of a
polynomial of degree twelve. That polynomial has one root in the field, and the curve no point above it.
-/

namespace DbcSnark.Gpuec

open WeierstrassCurve.Affine (Point)
open PackedPolynomial

/-! ## The values -/

/-- The coordinates that `ppoint_triple_v2` stores. -/
def Jpoint.tripleV2 (P : Jpoint) : Jpoint :=
  let dy := modP.monmult P.y P.y
  let dz := modP.monmult P.z P.z
  let qy := modP.monmult dy dy
  let xx := modP.monmult P.x P.x
  let m := modP.modadd (modP.modadd xx (modP.moddouble xx)) (modP.monmult (modP.monmult dz dz) h_mon_a)
  let dm := modP.monmult m m
  let s := modP.monmult P.x dy
  let e := modP.modsub (modP.moddouble (modP.moddouble (modP.modadd (modP.moddouble s) s))) dm
  let de := modP.monmult e e
  let t := modP.moddouble (modP.moddouble (modP.moddouble (modP.moddouble qy)))
  let t := modP.modadd (modP.modadd t dm) de
  let u := modP.modsub (modP.monmult (modP.modadd m e) (modP.modadd m e)) t
  let x := modP.modsub (modP.monmult P.x de) (modP.moddouble (modP.moddouble (modP.monmult dy u)))
  let y := modP.monmult (modP.modsub (modP.monmult (modP.modsub t u) u) (modP.monmult e de)) P.y
  let z := modP.modadd P.z e
  ⟨modP.moddouble (modP.moddouble x), modP.moddouble (modP.moddouble (modP.moddouble y)),
    modP.modsub (modP.monmult z z) (modP.modadd de dz)⟩

namespace Ram

variable (m : Ram) {pt1 pt2 i : ℕ}

theorem jpoint_ppoint_triple_v2 (apart : Separate pt1 pt2) :
    (ppoint_triple_v2 m pt1 pt2).jpoint pt2 = (m.jpoint pt1).tripleV2 := by
  rw [Separate] at apart
  simp (disch := omega) only [jpoint, ppoint_triple_v2, big_putBig, big_putBig_of_apart]
  rfl

theorem ppoint_triple_v2_of_outside (outside : i < pt2 ∨ pt2 + 12 ≤ i) : ppoint_triple_v2 m pt1 pt2 i = m i := by
  simp (disch := omega) only [ppoint_triple_v2, putBig_of_outside]

end Ram

/-! ## The abscissa at which both would agree -/

/-- The coefficients of the polynomial, constant first, where the slope is `3 * x ^ 2 + a` in place of `3 * x ^ 2`. -/
def coincidence (a : ℤ) : List ℤ :=
  [392 * a ^ 3, -65856 * a, -2352 * a ^ 2, 197568 - 140 * a ^ 3, -28224 * a, -2184 * a ^ 2, 63504 - a ^ 3, -8568 * a,
    -21 * a ^ 2, -756, -111 * a, 0, -99]

private theorem horner_coincidence {p : ℕ} (x : ZMod p) (a : ℤ) : horner x (coincidence a) =
    (3 * x ^ 4 + 84 * x - 6 * a * x ^ 2 - a ^ 2) * (3 * x ^ 4 + 84 * x) * (21 * x ^ 4 + 84 * x + 3 * a * x ^ 2) -
      8 * (x ^ 3 + 7) ^ 2 * (6 * x ^ 2 + a) * (3 * x ^ 4 + 84 * x + (3 * x ^ 4 + 84 * x - 6 * a * x ^ 2 - a ^ 2)) := by
  simp only [coincidence, horner]
  push_cast
  ring

/-- The residue that `h_mon_a` holds. -/
def linear : ℕ := 0xa9c6f4ab0fb43f25111b0389b7e77f692582bfb7d802535c9f1fdb880da4340a

/-- The root of the polynomial. -/
def onlyRoot : ℕ := 0x25f0d876609b40e3e7dd413142ccfa9fb9448dfe3d89eb8887d3c3b1f2a12d1b

/-- The cofactor of the polynomial in `X - onlyRoot`. -/
def cofactor : List ℤ :=
  [0x94aa37326a332217ee2355b063ed335f09f8528cbefa80bf0c78106550489fdb,
  0x863dc306ba14f2eaa714ecf77d10a64b76b4ac51ba7ef76d7d71c69f01240660,
  0x5d9591aa7ae4c8cda0e7911bf143d0da0144977b694a66824ab23cd2cd922ec6,
  0xa870820a937227614246ccf97c9a6a2c3b2aee5959616bea91733c256d94ae65,
  0x5f91ba76830fe94bf171097257ec263a938c094ec40f4348999a9b366fd10d4a,
  0xd5a6e2e4b72e18ca12012734f67b0a4d723bb15e2e94466ce1c28615769dc938,
  0x38cdb83b5d8e7a8ccf959e3916cc75b5638d00e250972cc08defb3e3785bdd45,
  0x2451e31455b2547b4b30766bf5a50cdfb0837164b44da46c3ce7ab5ff93dc409,
  0x1c1b2e89004ba239d166a986c98472ebbac4a2b09dc0c9cf13f790656cb77197,
  0xf401b7c141564685935c50673d7658d7324958263a254067c568a1dd8c717e42]

/-- The cofactor of `X ^ p - X`. -/
def cofactorFrobenius : List ℤ :=
  [0xc03bfbe402e2abf308b008304524bc8b634d29d98838d23a61ea1463151cdb6e,
  0xbf6b6ce2c6f23b7e8c00c7449444277b7bf8ee995ec14c4ec5842638c0713548,
  0xfd9a774b182b324c5e8bfb9943a7c469175bd8180bf4a6a8d92f994a286d393a,
  0x24ef4cc0d60d9273d7f7681c65fa0f90745ef1241683eed224477fb89820b8a7,
  0xff5b6c391b84f7e2fd6ec744620bad4a09d3ec5f48f851c67979a06286918565,
  0x945f073c6127176c2c1fee3b3e67410b5ef85d8cb209a67273fbc378c3bb67c2,
  0x114e630c3dfd12080c5ccd4b3d95623b126177a729d9b46e734cf26d40d04028,
  0x96bf805abbf4a30b5133d7c735f09bd073af3a3122b0be185e4b5845d43215d9,
  0x6750b54d435092bab8520f418850b4e0c8b3a71cf20d62fef3a30b3c8db65cf,
  0xc349706d8961b602e887ad6c3aa2fb51d450112fef9330a3ba4b3d3b3be7c339,
  0x7872627f5906aa5bd65704cec003f37f729078b71f674cbed1bb533f1749e1a6]

private theorem eq_onlyRoot_of_eq {n : ℕ} [Fact n.Prime]
    (value : n = 115792089237316195423570985008687907853269984665640564039457584007908834671663) (x : ZMod n)
    (root : horner x (coincidence linear) = 0) : x = onlyRoot := by
  have packs := packs_pack (B := 2 ^ 600) x (coincidence linear)
  rw [root] at packs
  subst value
  exact eq_of_bezout (d := 12) (k := 0x2433b79890cede62433b79890cede62433b79890cede62433b79890cc9b26c11)
    (U := cofactor) (V := cofactorFrobenius) (by decide) (by decide +kernel) packs (by decide) (by decide +kernel)
    (by decide) (by decide) (by decide) (by decide +kernel)

/-- The curve has no point above the root. -/
private theorem sq_ne_of_eq {n : ℕ} [Fact n.Prime]
    (value : n = 115792089237316195423570985008687907853269984665640564039457584007908834671663) (y : ZMod n) :
    y ^ 2 ≠ onlyRoot ^ 3 + 7 := by
  intro square
  have image : ((onlyRoot ^ 3 + 7 : ℕ) : ZMod n) = onlyRoot ^ 3 + 7 := by
    push_cast
    rfl
  have nonzero : y ≠ 0 := by
    rintro rfl
    rw [zero_pow two_ne_zero, ← image, eq_comm, ZMod.natCast_eq_zero_iff, value] at square
    exact absurd square (by decide +kernel)
  have fermat := ZMod.pow_card_sub_one_eq_one nonzero
  have half : n - 1 = 2 * 57896044618658097711785492504343953926634992332820282019728792003954417335831 := by
    rw [value]
  rw [half, pow_mul, square, onlyRoot] at fermat
  subst value
  push_cast at fermat
  reduce_mod_char at fermat
  exact absurd fermat (by decide)

theorem eq_onlyRoot (x : modP.Residue) (root : horner x (coincidence linear) = 0) : x = onlyRoot :=
  eq_onlyRoot_of_eq modP_toNat x root

theorem sq_ne_onlyRoot (y : modP.Residue) : y ^ 2 ≠ onlyRoot ^ 3 + 7 := sq_ne_of_eq modP_toNat y

/-- The polynomial at the abscissa of a point of the curve, where `e` and `e'` are the factors of the last coordinates. -/
theorem coincidence_ne {x y e e' : modP.Residue} (equation : y ^ 2 = x ^ 3 + 7)
    (first : e = 12 * x * y ^ 2 - (3 * x ^ 2) ^ 2) (second : e' = 12 * x * y ^ 2 - (3 * x ^ 2 + linear) ^ 2) :
    e' * e * (e + 18 * x ^ 4 + 3 * linear * x ^ 2) - 8 * y ^ 4 * (6 * x ^ 2 + linear) * (e + e') ≠ 0 := by
  intro zero
  have root : horner x (coincidence linear) = 0 := by
    rw [horner_coincidence, ← zero, second, first, show y ^ 4 = (y ^ 2) ^ 2 by ring, equation, Int.cast_natCast]
    ring
  have above := eq_onlyRoot x root
  rw [above] at equation
  exact sq_ne_onlyRoot y equation

private theorem linear_ne_zero : (linear : modP.Residue) ≠ 0 := by
  rw [ne_eq, ZMod.natCast_eq_zero_iff]
  decide

/-- With the slopes `3 * x ^ 2` and `3 * x ^ 2 + linear`, not both results are at infinity and their abscissas differ. -/
theorem abscissas_ne {x y e e' : modP.Residue} (equation : y ^ 2 = x ^ 3 + 7)
    (first : e = 12 * x * y ^ 2 - (3 * x ^ 2) ^ 2) (second : e' = 12 * x * y ^ 2 - (3 * x ^ 2 + linear) ^ 2) :
    ¬ (e = 0 ∧ e' = 0) ∧
      (x * e ^ 2 - 8 * y ^ 2 * (3 * x ^ 2 * e - 8 * y ^ 4)) * e' ^ 2 ≠
        (x * e' ^ 2 - 8 * y ^ 2 * ((3 * x ^ 2 + linear) * e' - 8 * y ^ 4)) * e ^ 2 := by
  have apart := coincidence_ne equation first second
  refine ⟨fun ⟨zero, zero'⟩ => apart (by rw [zero, zero']; ring), fun same => ?_⟩
  have factor : 2 ^ 3 * y ^ 2 * linear * (e' * e * (e + 18 * x ^ 4 + 3 * linear * x ^ 2) -
      8 * y ^ 4 * (6 * x ^ 2 + linear) * (e + e')) = 0 := by
    have difference : e' = e - 6 * linear * x ^ 2 - linear ^ 2 := by
      rw [first, second]
      ring
    rw [difference] at same ⊢
    linear_combination same
  have nonzero := mul_ne_zero (mul_ne_zero (pow_ne_zero 3 residue_two_ne_zero)
    (pow_ne_zero 2 (ordinate_ne_zero equation))) linear_ne_zero
  exact (mul_ne_zero nonzero apart) factor

/-! ## The residues -/

namespace Jpoint

variable {J K : Jpoint} {X Y Z : modP.Residue}

theorem mont_h_mon_a : modP.Mont h_mon_a (linear : modP.Residue) := Modulus.mont_natCast_iff.mpr (by decide)

/-- The residues of the coordinates that the second tripling stores. The first and the last are those of the triple on a
curve with the coefficient `linear`, scaled by two; in the second, `t` is more than `16 * Y ^ 4`. -/
theorem Residues.tripleV2 (residues : J.Residues X Y Z) :
    let E := 12 * X * Y ^ 2 - (3 * X ^ 2 + linear * Z ^ 4) ^ 2
    let U := (3 * X ^ 2 + linear * Z ^ 4) * E - 8 * Y ^ 4
    let T := 16 * Y ^ 4 + (3 * X ^ 2 + linear * Z ^ 4) ^ 2 + E ^ 2
    J.tripleV2.Residues (2 ^ 2 * (X * E ^ 2 - 8 * Y ^ 2 * U)) (2 ^ 3 * (Y * (2 * U * (T - 2 * U) - E ^ 3)))
      (2 * (Z * E)) := by
  have dy := residues.y.mul residues.y
  have dz := residues.z.mul residues.z
  have qy := dy.mul dy
  have xx := residues.x.mul residues.x
  have m := (xx.add xx.double).add ((dz.mul dz).mul mont_h_mon_a)
  have dm := m.mul m
  have s := residues.x.mul dy
  have e := (s.double.add s).double.double.sub dm
  have de := e.mul e
  have t := (qy.double.double.double.double.add dm).add de
  have u := ((m.add e).mul (m.add e)).sub t
  have x := ((residues.x.mul de).sub (dy.mul u).double.double).double.double
  have y := ((((t.sub u).mul u).sub (e.mul de)).mul residues.y).double.double.double
  have z := ((residues.z.add e).mul (residues.z.add e)).sub (de.add dz)
  have stored : J.tripleV2.Residues _ _ _ := Residues.of_mont x y z
  exact stored.of_eq (by ring) (by ring) (by ring)

/-- Both coordinates are at infinity, or both hold one affine point. -/
def SamePoint (J K : Jpoint) : Prop :=
  ∃ X Y Z X' Y' Z', J.Residues X Y Z ∧ K.Residues X' Y' Z' ∧ (Z = 0 ↔ Z' = 0) ∧
    (Z ≠ 0 → X * Z' ^ 2 = X' * Z ^ 2 ∧ Y * Z' ^ 3 = Y' * Z ^ 3)

theorem Residues.samePoint {X' Y' Z' : modP.Residue} {Q : curve.Point} (residues : J.Residues X Y Z)
    (residues' : K.Residues X' Y' Z') (left : J.Represents Q) (right : K.Represents Q) : SamePoint J K := by
  cases Q with
  | zero =>
    have zero := residues.z.iszero_iff.mp left
    exact ⟨_, _, _, _, _, _, residues, residues', iff_of_true zero (residues'.z.iszero_iff.mp right),
      fun finite => absurd zero finite⟩
  | some x y h =>
    obtain ⟨X, Y, Z, residues, unit, rfl, rfl⟩ := left
    obtain ⟨X', Y', Z', residues', unit', rfl, rfl⟩ := right
    exact ⟨_, _, _, _, _, _, residues, residues', iff_of_false unit unit', fun _ => ⟨by ring, by ring⟩⟩

/-- At no finite point do the values of the two triplings agree. -/
theorem not_samePoint_tripleV2 {P : curve.Point} (finite : P ≠ 0) (represents : J.Represents P) :
    ¬ SamePoint J.triple J.tripleV2 := by
  rintro ⟨X₁, Y₁, Z₁, X₂, Y₂, Z₂, first, second, infinity, affine⟩
  obtain ⟨X, Y, Z, residues, holds⟩ := represents.residues finite
  cases P with
  | zero => exact finite rfl
  | some x y h =>
    obtain ⟨unit, rfl, rfl⟩ := holds
    obtain ⟨e, he⟩ : ∃ e, e = 12 * x * y ^ 2 - (3 * x ^ 2) ^ 2 := ⟨_, rfl⟩
    obtain ⟨e', he'⟩ : ∃ e', e' = 12 * x * y ^ 2 - (3 * x ^ 2 + linear) ^ 2 := ⟨_, rfl⟩
    have triple : J.triple.Residues (Z ^ 18 * (x * e ^ 2 - 8 * y ^ 2 * (3 * x ^ 2 * e - 8 * y ^ 4))) _ (Z ^ 9 * e) :=
      residues.triple.of_eq (by rw [he]; ring) rfl (by rw [he]; ring)
    have tripleV2 : J.tripleV2.Residues
        (4 * Z ^ 18 * (x * e' ^ 2 - 8 * y ^ 2 * ((3 * x ^ 2 + linear) * e' - 8 * y ^ 4))) _ (2 * Z ^ 9 * e') :=
      residues.tripleV2.of_eq (by rw [he']; ring) rfl (by rw [he']; ring)
    obtain rfl := first.x.unique triple.x
    obtain rfl := first.z.unique triple.z
    obtain rfl := second.x.unique tripleV2.x
    obtain rfl := second.z.unique tripleV2.z
    obtain ⟨finite, apart⟩ := abscissas_ne (equation_iff.mp h.1) he he'
    have nonzero := mul_ne_zero residue_two_ne_zero (pow_ne_zero 9 unit)
    rw [mul_eq_zero_iff_left (pow_ne_zero 9 unit), mul_eq_zero_iff_left nonzero] at infinity
    have some : e ≠ 0 := fun zero => finite ⟨zero, infinity.mp zero⟩
    have same := (affine (mul_ne_zero (pow_ne_zero 9 unit) some)).1
    refine apart (mul_left_cancel₀ (mul_ne_zero (pow_ne_zero 2 residue_two_ne_zero) (pow_ne_zero 36 unit)) ?_)
    linear_combination same

end Jpoint

/-! ## The functions on memory -/

namespace Ram

/-- At no finite point do the two tripling routines agree: the first finds the triple, and the coordinates that the
second stores are not those of the triple. -/
theorem triplings_differ (m : Ram) (pt1 pt2 : ℕ) {P : curve.Point} (finite : P ≠ 0)
    (represents : (m.jpoint pt1).Represents P) (apart : Separate pt1 pt2) :
    ¬ Jpoint.SamePoint ((ppoint_triple m pt1 pt2).jpoint pt2) ((ppoint_triple_v2 m pt1 pt2).jpoint pt2) ∧
      ((ppoint_triple m pt1 pt2).jpoint pt2).Represents (3 • P) ∧
      ¬ ((ppoint_triple_v2 m pt1 pt2).jpoint pt2).Represents (3 • P) := by
  have triple : 3 • P = P + P + P := by rw [succ_nsmul, two_nsmul]
  obtain ⟨X, Y, Z, residues, -⟩ := represents.residues finite
  have differ := Jpoint.not_samePoint_tripleV2 finite represents
  have found := represents.triple finite
  rw [jpoint_ppoint_triple m apart, jpoint_ppoint_triple_v2 m apart, triple]
  exact ⟨differ, found, fun same => differ (residues.triple.samePoint residues.tripleV2 found same)⟩

theorem triplings_differ_twoPoints : ∃ P : curve.Point, P ≠ 0 ∧
    ((ppoint_triple twoPoints 0 12).jpoint 12).Represents (3 • P) ∧
    ¬ ((ppoint_triple_v2 twoPoints 0 12).jpoint 12).Represents (3 • P) := by
  obtain ⟨y, h, represents⟩ := twoPoints_zero
  have finite := Point.some_ne_zero h
  exact ⟨_, finite, (triplings_differ twoPoints 0 12 finite represents (.inl (by decide))).2⟩

/-- They do not agree at the point with the abscissa one. -/
theorem triplings_not_same : ¬ ∀ (m : Ram) (pt1 pt2 : ℕ) (P : curve.Point), P ≠ 0 → (m.jpoint pt1).Represents P →
    Separate pt1 pt2 →
    Jpoint.SamePoint ((ppoint_triple m pt1 pt2).jpoint pt2) ((ppoint_triple_v2 m pt1 pt2).jpoint pt2) := by
  intro same
  obtain ⟨y, h, represents⟩ := twoPoints_zero
  have apart : Separate 0 12 := .inl (by decide)
  have agree := same twoPoints 0 12 _ (Point.some_ne_zero h) represents apart
  rw [jpoint_ppoint_triple _ apart, jpoint_ppoint_triple_v2 _ apart] at agree
  exact Jpoint.not_samePoint_tripleV2 (Point.some_ne_zero h) represents agree

end Ram

end DbcSnark.Gpuec
