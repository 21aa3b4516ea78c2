import DbcSnark.Model.Gpuec.Point
import DbcSnark.Proofs.Gpuec.InPlace
import DbcSnark.Proofs.Gpuec.Curve

/-! # The group law on Jacobian coordinates

The functions on memory store the values of the same lines on coordinates, also when the result overwrites an operand:
each coordinate of an operand is read for the last time before the result is written over it. The lines are evaluated
on residues, and the residues compared with the formulas for the double, the sum and the triple of a point.
-/

namespace DbcSnark.Gpuec

open WeierstrassCurve.Affine (Point)

/-! ## The values -/

/-- The coordinates that `ppoint_double` stores. -/
def Jpoint.double (P : Jpoint) : Jpoint :=
  let u1 := modP.moddouble P.y
  let u2 := modP.monmult P.x P.x
  let u3 := modP.modadd (modP.moddouble u2) u2
  let s := modP.monmult u1 P.y
  let u2 := modP.moddouble (modP.monmult s P.x)
  let x := modP.modsub (modP.monmult u3 u3) (modP.moddouble u2)
  let u1' := modP.moddouble (modP.monmult s s)
  let y := modP.modsub (modP.monmult u3 (modP.modsub u2 x)) u1'
  ⟨x, y, modP.monmult P.z u1⟩

/-- The coordinates that `ppoint_triple` stores. -/
def Jpoint.triple (P : Jpoint) : Jpoint :=
  let c := modP.moddouble (modP.monmult P.y P.y)
  let xx := modP.monmult P.x P.x
  let m := modP.modadd (modP.moddouble xx) xx
  let foo := modP.monmult P.x c
  let foo := modP.modadd foo (modP.moddouble foo)
  let e := modP.modsub (modP.moddouble foo) (modP.monmult m m)
  let t := modP.moddouble (modP.monmult c c)
  let u := modP.modsub (modP.monmult m e) t
  let ee := modP.monmult e e
  let u4 := modP.moddouble (modP.moddouble u)
  let x := modP.modsub (modP.monmult P.x ee) (modP.monmult c u4)
  let y := modP.modsub (modP.monmult u4 (modP.modsub t u)) (modP.monmult e ee)
  ⟨x, modP.monmult P.y y, modP.monmult P.z e⟩

/-- The coordinates that `dh_ellipticAdd_JJ` stores. -/
def Jpoint.add (P Q : Jpoint) : Jpoint :=
  let z2 := modP.monmult Q.z Q.z
  let z1 := modP.monmult P.z P.z
  let l1 := modP.monmult P.x z2
  let l2 := modP.monmult Q.x z1
  let l4 := modP.monmult (modP.monmult z2 Q.z) P.y
  let l5 := modP.monmult (modP.monmult z1 P.z) Q.y
  let l3 := modP.modsub l1 l2
  let l6 := modP.modsub l4 l5
  let d := modP.monmult l3 l3
  let s := modP.monmult d (modP.modadd l1 l2)
  let x := modP.modsub (modP.monmult l6 l6) s
  let l9 := modP.modsub s (modP.moddouble x)
  let t := modP.monmult (modP.modadd l4 l5) (modP.monmult l3 d)
  let y := modP.modsub (modP.monmult l9 l6) t
  ⟨x, modP.monmult y dc_mon_inv_two, modP.monmult (modP.monmult P.z Q.z) l3⟩

theorem Jpoint.double_z (P : Jpoint) : P.double.z = modP.monmult P.z (modP.moddouble P.y) := by
  simp only [double]

theorem Jpoint.add_z (P Q : Jpoint) : ∃ l, (P.add Q).z = modP.monmult (modP.monmult P.z Q.z) l := by
  simp only [add]
  exact ⟨_, rfl⟩

/-! ## The stores -/

namespace Ram

/-- Two points that share no word. -/
def Separate (pt1 pt2 : ℕ) : Prop := pt1 + 12 ≤ pt2 ∨ pt2 + 12 ≤ pt1

variable (m : Ram) {pt1 pt2 pt3 i : ℕ}

theorem big_putBig_of_apart {m : Ram} {a z : ℕ} {v : Big} (apart : a + 4 ≤ z ∨ z + 4 ≤ a) :
    (m.putBig z v).big a = m.big a := by
  simp (disch := omega) only [big, putBig_of_outside]

theorem big_congr {m m' : Ram} {a : ℕ} (same : ∀ i, a ≤ i → i < a + 4 → m' i = m i) : m'.big a = m.big a := by
  simp (disch := omega) only [big, same]

theorem jpoint_congr {m m' : Ram} (same : ∀ i, pt1 ≤ i → i < pt1 + 12 → m' i = m i) : m'.jpoint pt1 = m.jpoint pt1 := by
  simp (disch := omega) only [jpoint, big, same]

theorem jpoint_ppoint_double (early : pt2 = pt1 ∨ Separate pt1 pt2) :
    (ppoint_double m pt1 pt2).jpoint pt2 = (m.jpoint pt1).double := by
  rcases early with rfl | apart
  · simp (disch := omega) only [jpoint, ppoint_double, big_putBig, big_putBig_of_apart]
    rfl
  · rw [Separate] at apart
    simp (disch := omega) only [jpoint, ppoint_double, big_putBig, big_putBig_of_apart]
    rfl

theorem ppoint_double_of_outside (outside : i < pt2 ∨ pt2 + 12 ≤ i) : ppoint_double m pt1 pt2 i = m i := by
  simp (disch := omega) only [ppoint_double, putBig_of_outside]

theorem jpoint_ppoint_triple (apart : Separate pt1 pt2) :
    (ppoint_triple m pt1 pt2).jpoint pt2 = (m.jpoint pt1).triple := by
  rw [Separate] at apart
  simp (disch := omega) only [jpoint, ppoint_triple, big_putBig, big_putBig_of_apart]
  rfl

theorem ppoint_triple_of_outside (outside : i < pt2 ∨ pt2 + 12 ≤ i) : ppoint_triple m pt1 pt2 i = m i := by
  simp (disch := omega) only [ppoint_triple, putBig_of_outside]

theorem jpoint_dh_ellipticAdd_JJ (first : pt3 = pt1 ∨ Separate pt1 pt3) (second : pt3 = pt2 ∨ Separate pt2 pt3) :
    (dh_ellipticAdd_JJ m pt1 pt2 pt3).jpoint pt3 = (m.jpoint pt1).add (m.jpoint pt2) := by
  rw [Separate] at first second
  rcases first with rfl | first
  · rcases second with rfl | second
    all_goals
      simp (disch := omega) only [jpoint, dh_ellipticAdd_JJ, big_putBig, big_putBig_of_apart]
      rfl
  · rcases second with rfl | second
    all_goals
      simp (disch := omega) only [jpoint, dh_ellipticAdd_JJ, big_putBig, big_putBig_of_apart]
      rfl

theorem dh_ellipticAdd_JJ_of_outside (outside : i < pt3 ∨ pt3 + 12 ≤ i) : dh_ellipticAdd_JJ m pt1 pt2 pt3 i = m i := by
  simp (disch := omega) only [dh_ellipticAdd_JJ, putBig_of_outside]

end Ram

/-! ## The residues -/

namespace Jpoint

variable {J K : Jpoint} {P : curve.Point}

theorem Represents.double (represents : J.Represents P) (finite : P ≠ 0) : J.double.Represents (P + P) := by
  obtain ⟨X, Y, Z, residues, holds⟩ := represents.residues finite
  have u1 := residues.y.double
  have u2 := residues.x.mul residues.x
  have u3 := u2.double.add u2
  have s := u1.mul residues.y
  have u2' := (s.mul residues.x).double
  have x := (u3.mul u3).sub u2'.double
  have y := (u3.mul (u2'.sub x)).sub (s.mul s).double
  have z := residues.z.mul u1
  have stored := Residues.of_mont x y z
  exact stored.represents (holds.double.of_eq (by ring) (by ring) (by ring))

/-- The residues of the coordinates that the tripling stores. -/
theorem Residues.triple {X Y Z : modP.Residue} (residues : J.Residues X Y Z) :
    let E := 12 * X * Y ^ 2 - (3 * X ^ 2) ^ 2
    let U := 3 * X ^ 2 * E - 8 * Y ^ 4
    J.triple.Residues (X * E ^ 2 - 8 * Y ^ 2 * U) (Y * (4 * U * (8 * Y ^ 4 - U) - E ^ 3)) (Z * E) := by
  have c := (residues.y.mul residues.y).double
  have xx := residues.x.mul residues.x
  have m := xx.double.add xx
  have foo := residues.x.mul c
  have e := (foo.add foo.double).double.sub (m.mul m)
  have t := (c.mul c).double
  have u := (m.mul e).sub t
  have u4 := u.double.double
  have x := (residues.x.mul (e.mul e)).sub (c.mul u4)
  have y := residues.y.mul ((u4.mul (t.sub u)).sub (e.mul (e.mul e)))
  have z := residues.z.mul e
  have stored := Residues.of_mont x y z
  exact stored.of_eq (by ring) (by ring) (by ring)

theorem Represents.triple (represents : J.Represents P) (finite : P ≠ 0) : J.triple.Represents (P + P + P) := by
  obtain ⟨X, Y, Z, residues, holds⟩ := represents.residues finite
  exact residues.triple.represents (holds.triple.of_eq (by ring) (by ring) (by ring))

section Sum

variable {x₁ y₁ x₂ y₂ : modP.Residue} {h₁ : curve.Nonsingular x₁ y₁} {h₂ : curve.Nonsingular x₂ y₂}

theorem mont_inv_two : ∃ half, 2 * half = 1 ∧ modP.Mont dc_mon_inv_two half := by
  have even : 2 * ((modP.Pa.toNat + 1) / 2) = modP.Pa.toNat + 1 := by decide
  have cast := congrArg (Nat.cast : ℕ → modP.Residue) even
  rw [Nat.cast_mul, Nat.cast_ofNat, Nat.cast_add, ZMod.natCast_self, zero_add, Nat.cast_one] at cast
  exact ⟨_, cast, Modulus.mont_natCast_iff.mpr (by decide)⟩

theorem Represents.add (left : J.Represents (.some x₁ y₁ h₁)) (right : K.Represents (.some x₂ y₂ h₂)) :
    (x₁ ≠ x₂ → (J.add K).Represents (.some x₁ y₁ h₁ + .some x₂ y₂ h₂)) ∧
      ((J.add K).z.iszero = true ↔ x₁ = x₂) := by
  obtain ⟨X₁, Y₁, Z₁, left, leftHolds⟩ := left
  obtain ⟨X₂, Y₂, Z₂, right, rightHolds⟩ := right
  obtain ⟨half, halves, inverse⟩ := mont_inv_two
  have z2 := right.z.mul right.z
  have z1 := left.z.mul left.z
  have l1 := left.x.mul z2
  have l2 := right.x.mul z1
  have l4 := (z2.mul right.z).mul left.y
  have l5 := (z1.mul left.z).mul right.y
  have l3 := l1.sub l2
  have l6 := l4.sub l5
  have d := l3.mul l3
  have s := d.mul (l1.add l2)
  have x := (l6.mul l6).sub s
  have t := (l4.add l5).mul (l3.mul d)
  have y := (((s.sub x.double).mul l6).sub t).mul inverse
  have z := (left.z.mul right.z).mul l3
  have stored : (J.add K).Residues _ _ _ := Residues.of_mont x y z
  constructor
  · intro apart
    exact stored.represents ((leftHolds.add rightHolds apart halves).of_eq (by ring) (by ring) (by ring))
  · rw [stored.z.iszero_iff, mul_eq_zero_iff_left (mul_ne_zero leftHolds.1 rightHolds.1),
      ← leftHolds.cross_eq_zero_iff rightHolds, sq, sq]

end Sum

end Jpoint

/-! ## The functions on memory -/

namespace Ram

variable (m : Ram)

/-- `ppoint_double` and `dh_ellipticAdd_JJ` follow the group law, also when the result overwrites an operand. The sum
of two points with the same abscissa comes out at infinity. -/
theorem jacobian_group_law :
    (∀ pt1 pt2 P, pt2 = pt1 ∨ Separate pt1 pt2 → P ≠ 0 → (m.jpoint pt1).Represents P →
      ((ppoint_double m pt1 pt2).jpoint pt2).Represents (P + P) ∧
        ∀ i, i < pt2 ∨ pt2 + 12 ≤ i → ppoint_double m pt1 pt2 i = m i) ∧
    ∀ pt1 pt2 pt3 x₁ y₁ h₁ x₂ y₂ h₂, pt3 = pt1 ∨ Separate pt1 pt3 → pt3 = pt2 ∨ Separate pt2 pt3 →
      (m.jpoint pt1).Represents (.some x₁ y₁ h₁) → (m.jpoint pt2).Represents (.some x₂ y₂ h₂) →
      (x₁ ≠ x₂ → ((dh_ellipticAdd_JJ m pt1 pt2 pt3).jpoint pt3).Represents (.some x₁ y₁ h₁ + .some x₂ y₂ h₂)) ∧
        (((dh_ellipticAdd_JJ m pt1 pt2 pt3).jpoint pt3).z.iszero = true ↔ x₁ = x₂) ∧
        ∀ i, i < pt3 ∨ pt3 + 12 ≤ i → dh_ellipticAdd_JJ m pt1 pt2 pt3 i = m i := by
  constructor
  · intro pt1 pt2 P early finite represents
    refine ⟨?_, fun i outside => ppoint_double_of_outside m outside⟩
    rw [jpoint_ppoint_double m early]
    exact represents.double finite
  · intro pt1 pt2 pt3 x₁ y₁ h₁ x₂ y₂ h₂ first second left right
    rw [jpoint_dh_ellipticAdd_JJ m first second]
    have sum := left.add right
    exact ⟨sum.1, sum.2, fun i outside => dh_ellipticAdd_JJ_of_outside m outside⟩

/-- The point with the abscissa one at address 0 and the one with the abscissa two at address 12. -/
def twoPoints : Ram := fun i =>
  [0x1000003d1, 0, 0, 0, 0xfb478aabe40e6105, 0x831028337c7124c6, 0x707c52c483cce0b8, 0x27fa024e1e8f3b00,
    0x1000003d1, 0, 0, 0, 0x2000007a2, 0, 0, 0, 0x5802bbcbcdd9316e, 0x2b34db90530aec18,
    0x33204996d6cf9209, 0xba173861b75a4b17, 0x1000003d1, 0, 0, 0].getD i 0

theorem twoPoints_zero : ∃ y h, (twoPoints.jpoint 0).Represents (.some ((1 : ℕ) : modP.Residue) y h) := by
  obtain ⟨h, represents⟩ := Apoint.exists_represents (A := twoPoints.apoint 0) 1
    29896722852569046015560700294576055776214335159245303116488692907525646231534 (by decide) (by decide) (by decide)
  exact ⟨_, h, represents.toJpoint (Point.some_ne_zero h)⟩

private theorem twoPoints_twelve : ∃ y h, (twoPoints.jpoint 12).Represents (.some ((2 : ℕ) : modP.Residue) y h) := by
  obtain ⟨h, represents⟩ := Apoint.exists_represents (A := twoPoints.apoint 12) 2
    46580984542418694471253469931035885126779956971428003686700937153791839982430 (by decide) (by decide) (by decide)
  exact ⟨_, h, represents.toJpoint (Point.some_ne_zero h)⟩

private theorem one_ne_two : ((1 : ℕ) : modP.Residue) ≠ ((2 : ℕ) : modP.Residue) := by
  rw [ne_eq, ZMod.natCast_eq_natCast_iff']
  decide

theorem jacobian_group_law_twoPoints : ∃ P Q : curve.Point, P ≠ 0 ∧ Q ≠ 0 ∧
    ((ppoint_double twoPoints 0 0).jpoint 0).Represents (P + P) ∧
    ((dh_ellipticAdd_JJ twoPoints 0 12 12).jpoint 12).Represents (P + Q) := by
  obtain ⟨y₁, h₁, left⟩ := twoPoints_zero
  obtain ⟨y₂, h₂, right⟩ := twoPoints_twelve
  obtain ⟨double, sum⟩ := jacobian_group_law twoPoints
  have finite := Point.some_ne_zero h₁
  exact ⟨_, _, finite, Point.some_ne_zero h₂, (double 0 0 _ (.inl rfl) finite left).1,
    (sum 0 12 12 _ _ h₁ _ _ h₂ (.inr (.inl (by decide))) (.inl rfl) left right).1 one_ne_two⟩

/-- The double of a point of order other than two and three is finite and has another abscissa. -/
private theorem double_apart {x y : modP.Residue} {h : curve.Nonsingular x y} (two : addOrderOf (Point.some x y h) ≠ 2)
    (three : addOrderOf (Point.some x y h) ≠ 3) :
    ∃ x₂ y₂ h₂, Point.some x y h + Point.some x y h = Point.some x₂ y₂ h₂ ∧ x₂ ≠ x := by
  have finite := Point.some_ne_zero h
  cases sum : Point.some x y h + Point.some x y h with
  | zero =>
    refine absurd (addOrderOf_eq_prime ?_ finite) two
    rw [two_nsmul, sum, Point.zero_def]
  | some x₂ y₂ h₂ =>
    refine ⟨x₂, y₂, h₂, rfl, fun same => ?_⟩
    rcases Point.X_eq_iff.mp same with equal | opposite
    · rw [← sum, add_eq_left] at equal
      exact finite equal
    · refine three (addOrderOf_eq_prime ?_ finite)
      rw [succ_nsmul, two_nsmul, sum, opposite, neg_add_cancel]

/-- `ppoint_triple` finds the point that doubling and adding finds, in another place, and leaves its operand alone. -/
theorem tripling (pt1 pt2 pt3 pt4 : ℕ) {P : curve.Point} (finite : P ≠ 0) (represents : (m.jpoint pt1).Represents P)
    (apart : Separate pt1 pt2) (beside : Separate pt1 pt3) (first : pt4 = pt3 ∨ Separate pt3 pt4)
    (second : pt4 = pt1 ∨ Separate pt1 pt4) :
    ((ppoint_triple m pt1 pt2).jpoint pt2).Represents (3 • P) ∧
      (ppoint_triple m pt1 pt2).jpoint pt1 = m.jpoint pt1 ∧
      (addOrderOf P ≠ 2 → addOrderOf P ≠ 3 →
        ((dh_ellipticAdd_JJ (ppoint_double m pt1 pt3) pt3 pt1 pt4).jpoint pt4).Represents (3 • P)) ∧
      (addOrderOf P = 3 → ((ppoint_triple m pt1 pt2).jpoint pt2).z.iszero = true) := by
  have triple : 3 • P = P + P + P := by rw [succ_nsmul, two_nsmul]
  have stored : ((ppoint_triple m pt1 pt2).jpoint pt2).Represents (3 • P) := by
    rw [jpoint_ppoint_triple m apart, triple]
    exact represents.triple finite
  have kept : (ppoint_triple m pt1 pt2).jpoint pt1 = m.jpoint pt1 := by
    rw [Separate] at apart
    exact jpoint_congr fun i above below => ppoint_triple_of_outside m (by omega)
  refine ⟨stored, kept, fun two three => ?_, fun three => ?_⟩
  · cases P with
    | zero => exact absurd rfl finite
    | some x y h =>
      obtain ⟨x₂, y₂, h₂, sum, moves⟩ := double_apart two three
      have double := represents.double finite
      rw [← jpoint_ppoint_double m (.inr beside), sum] at double
      have kept : (ppoint_double m pt1 pt3).jpoint pt1 = m.jpoint pt1 := by
        rw [Separate] at beside
        exact jpoint_congr fun i above below => ppoint_double_of_outside m (by omega)
      rw [← kept] at represents
      rw [jpoint_dh_ellipticAdd_JJ _ first second, triple, sum]
      exact (double.add represents).1 moves
  · rw [stored.iszero_iff, ← three, addOrderOf_nsmul_eq_zero]

theorem tripling_twoPoints : ∃ P : curve.Point, P ≠ 0 ∧
    ((ppoint_triple twoPoints 0 12).jpoint 12).Represents (3 • P) ∧
    (ppoint_triple twoPoints 0 12).jpoint 0 = twoPoints.jpoint 0 := by
  obtain ⟨y, h, represents⟩ := twoPoints_zero
  have finite := Point.some_ne_zero h
  obtain ⟨triple, kept, -⟩ := tripling twoPoints 0 12 24 24 finite represents (.inl (by decide)) (.inl (by decide))
    (.inl rfl) (.inr (.inl (by decide)))
  exact ⟨_, finite, triple, kept⟩

end Ram

end DbcSnark.Gpuec
