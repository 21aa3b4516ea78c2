import DbcSnark.Model.Ec.Ladder
import DbcSnark.Proofs.Ec.PointOps

/-! # The curve `secp256k1` as the library holds it

With the Montgomery method a residue is stored as its multiple by the radix. The generator has the order of the group.
-/

namespace DbcSnark.Ec

open EC_GROUP Gpuec
open WeierstrassCurve.Affine (Point)

section Encode

variable {p : ℕ} [Fact p.Prime] {group : SimpleGroup p} {c : ZMod p}

@[simp] theorem decode_field_encode (x : ZMod p) : group.decode (group.field_encode x) = x :=
  Units.mul_inv_cancel_right x group.R

theorem field_encode_decode (x : ZMod p) : group.field_encode (group.decode x) = x :=
  Units.inv_mul_cancel_right x group.R

@[simp] theorem field_decode_eq (x : ZMod p) : group.field_decode x = group.decode x := rfl

/-- An affine point of the curve of the group, as it is set. -/
theorem represents_affine {x y : ZMod p} (h : (group.curve c).Nonsingular x y) :
    group.Represents ⟨group.field_encode x, group.field_encode y, group.field_encode 1, true⟩ (.some x y h) := by
  refine ⟨⟨?_, ?_, ?_⟩, fun _ => decode_field_encode 1⟩
  · rw [decode_field_encode]
    exact one_ne_zero
  · rw [decode_field_encode, decode_field_encode, one_pow, mul_one]
  · rw [decode_field_encode, decode_field_encode, one_pow, mul_one]

end Encode

/-- The radix of the Montgomery method. -/
def radix : modP.Residueˣ := Units.mk0 ((2 ^ 256 : ℕ) : modP.Residue) (by decide +kernel)

private theorem minus3_clear (set : false = true) : (0 : modP.Residue) = -3 * radix := absurd set Bool.false_ne_true

/-- `NID_secp256k1` with the Montgomery method. -/
def secp256k1 : CurveGroup modP.Pa.toNat where
  a := 0
  R := radix
  b := (7 : ℕ) * radix
  a_is_minus3 := false
  long := by
    rw [not_le, Nat.lt_size]
    decide +kernel
  odd := by decide +kernel
  minus3 := minus3_clear
  generator := ⟨baseX * radix, baseY * radix, 1 * radix, true⟩
  order := modN.Pa.toNat
  cofactor := 1
  known := by decide +kernel

/-- The generator holds a point of the order of the group. -/
theorem represents_generator : ∃ P : (secp256k1.curve (secp256k1.decode secp256k1.b)).Point,
    secp256k1.Represents secp256k1.generator P ∧ addOrderOf P = modN.Pa.toNat := by
  have transport {a b : modP.Residue} (ha : a = 0) (hb : b = 7) :
      ∃ h : (Jacobian.curve a b).Nonsingular baseX baseY, addOrderOf (Point.some baseX baseY h) = modN.Pa.toNat := by
    subst ha hb
    exact ⟨baseNonsingular, addOrderOf_basePoint⟩
  obtain ⟨h, order⟩ := transport (decode_zero : secp256k1.decode 0 = 0)
    (decode_field_encode 7 : secp256k1.decode (secp256k1.field_encode 7) = 7)
  exact ⟨_, represents_affine h, order⟩

end DbcSnark.Ec
