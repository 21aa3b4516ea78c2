import DbcSnark.Proofs.Gpuec.MyBig
import Mathlib.Data.ZMod.Units
import Mathlib.Data.ZMod.Coprime

/-! # Montgomery form

Reduced words hold the residue `a` in Montgomery form when they hold `a * 2 ^ 256`. Each function of the modular
arithmetic acts on the residues as its name says, so that a straight-line program can be read as an expression over
the residues.
-/

namespace DbcSnark.Gpuec

theorem Big.iszero_iff (x : Big) : x.iszero = true ↔ x.toNat = 0 := by
  simp only [iszero, beq_iff_eq, toNat, ← UInt64.toNat_inj, UInt64.toNat_or, UInt64.toNat_zero, Nat.or_eq_zero_iff]
  omega

namespace Modulus

variable (M : Modulus)

/-- The ring of residues. -/
abbrev Residue := ZMod M.Pa.toNat

theorem positive : 0 < M.Pa.toNat := lt_of_lt_of_le (by norm_num) M.high

/-- The words `v` are reduced and hold the residue `a` in Montgomery form. -/
structure Mont (v : Big) (a : M.Residue) : Prop where
  reduced : v.toNat < M.Pa.toNat
  value : (v.toNat : M.Residue) = a * 2 ^ 256

/-- The modulus is odd. -/
theorem odd : Nat.Coprime 2 M.Pa.toNat := by
  have word := odd_of_inverse M.inverse
  rw [Nat.coprime_two_left, Nat.odd_iff, Big.toNat]
  omega

theorem isUnit_radix : IsUnit (2 ^ 256 : M.Residue) := by
  have unit := (ZMod.isUnit_iff_coprime (2 ^ 256) M.Pa.toNat).mpr (Nat.Coprime.pow_left 256 M.odd)
  rwa [Nat.cast_pow, Nat.cast_ofNat] at unit

/-- A product with zero is zero, whatever the words of the other factor. -/
theorem monmult_eq_zero {A B : Big} (zero : A = 0 ∨ B = 0) : M.monmult A B = 0 := by
  have nothing : A.toNat * B.toNat = 0 := by
    rcases zero with rfl | rfl
    · rw [Big.toNat_zero, Nat.zero_mul]
    · rw [Big.toNat_zero, Nat.mul_zero]
  have small : A.toNat < M.Pa.toNat ∨ B.toNat < M.Pa.toNat := by
    rcases zero with rfl | rfl
    · exact .inl M.positive
    · exact .inr M.positive
  obtain ⟨reduced, product⟩ := M.toNat_monmult small
  rw [nothing, ← Nat.zero_mul (2 ^ 256)] at product
  have residue := Nat.ModEq.cancel_right_of_coprime (Nat.Coprime.pow_right 256 M.odd.symm) product
  apply Big.toNat_injective
  rw [Big.toNat_zero, ← Nat.mod_eq_of_lt reduced]
  exact residue

variable {M} {v w : Big} {a b : M.Residue}

private theorem cast_eq {m n : ℕ} (same : m ≡ n [MOD M.Pa.toNat]) : (m : M.Residue) = n :=
  (ZMod.natCast_eq_natCast_iff _ _ _).mpr same

theorem Mont.unique (left : M.Mont v a) (right : M.Mont v b) : a = b :=
  M.isUnit_radix.mul_right_cancel (left.value.symm.trans right.value)

theorem Mont.injective (left : M.Mont v a) (right : M.Mont w a) : v = w := by
  have same := (ZMod.natCast_eq_natCast_iff' _ _ _).mp (left.value.trans right.value.symm)
  rw [Nat.mod_eq_of_lt left.reduced, Nat.mod_eq_of_lt right.reduced] at same
  exact Big.toNat_injective same

/-- Any reduced words hold a residue. -/
theorem exists_mont (reduced : v.toNat < M.Pa.toNat) : ∃ a, M.Mont v a := by
  obtain ⟨u, unit⟩ := M.isUnit_radix
  refine ⟨v.toNat * ↑u⁻¹, reduced, ?_⟩
  rw [← unit, mul_assoc, Units.inv_mul, mul_one]

theorem Mont.mul (left : M.Mont v a) (right : M.Mont w b) : M.Mont (M.monmult v w) (a * b) := by
  obtain ⟨reduced, product⟩ := M.toNat_monmult (.inl left.reduced : v.toNat < _ ∨ w.toNat < _)
  refine ⟨reduced, M.isUnit_radix.mul_right_cancel ?_⟩
  have cast := cast_eq product
  rw [Nat.cast_mul, Nat.cast_mul, Nat.cast_pow, Nat.cast_ofNat] at cast
  rw [cast, left.value, right.value]
  ring

theorem Mont.add (left : M.Mont v a) (right : M.Mont w b) : M.Mont (M.modadd v w) (a + b) := by
  have sum := M.toNat_modadd left.reduced right.reduced
  refine ⟨sum ▸ Nat.mod_lt _ M.positive, ?_⟩
  rw [sum, ZMod.natCast_mod, Nat.cast_add, left.value, right.value]
  ring

theorem Mont.sub (left : M.Mont v a) (right : M.Mont w b) : M.Mont (M.modsub v w) (a - b) := by
  have difference := M.toNat_modsub left.reduced right.reduced
  refine ⟨difference ▸ Nat.mod_lt _ M.positive, ?_⟩
  rw [difference, ZMod.natCast_mod, Nat.cast_add, Nat.cast_sub right.reduced.le, left.value, right.value,
    ZMod.natCast_self]
  ring

theorem Mont.double (single : M.Mont v a) : M.Mont (M.moddouble v) (2 * a) := by
  have sum := M.toNat_moddouble single.reduced
  refine ⟨sum ▸ Nat.mod_lt _ M.positive, ?_⟩
  rw [sum, ZMod.natCast_mod, Nat.cast_mul, single.value, Nat.cast_ofNat]
  ring

/-- The words are zero just when they hold the residue zero. -/
theorem Mont.iszero_iff (holds : M.Mont v a) : v.iszero = true ↔ a = 0 := by
  rw [Big.iszero_iff]
  constructor
  · intro zero
    apply M.isUnit_radix.mul_right_cancel
    rw [← holds.value, zero, Nat.cast_zero, zero_mul]
  · intro zero
    have cast := holds.value
    rw [zero, zero_mul, ZMod.natCast_eq_zero_iff] at cast
    exact Nat.eq_zero_of_dvd_of_lt cast holds.reduced

/-- The Montgomery form of a number. -/
theorem mont_natCast_iff {x : ℕ} : M.Mont v (x : M.Residue) ↔ v.toNat = x * 2 ^ 256 % M.Pa.toNat := by
  constructor
  · intro holds
    rw [← Nat.mod_eq_of_lt holds.reduced]
    apply (ZMod.natCast_eq_natCast_iff' _ _ _).mp
    rw [holds.value, Nat.cast_mul, Nat.cast_pow, Nat.cast_ofNat]
  · intro value
    refine ⟨value ▸ Nat.mod_lt _ M.positive, ?_⟩
    rw [value, ZMod.natCast_mod, Nat.cast_mul, Nat.cast_pow, Nat.cast_ofNat]

/-- The words `v` are reduced and hold the residue `a` as it is. -/
structure Plain (v : Big) (a : M.Residue) : Prop where
  reduced : v.toNat < M.Pa.toNat
  value : (v.toNat : M.Residue) = a

theorem Plain.injective (left : M.Plain v a) (right : M.Plain w a) : v = w := by
  have same := (ZMod.natCast_eq_natCast_iff' _ _ _).mp (left.value.trans right.value.symm)
  rw [Nat.mod_eq_of_lt left.reduced, Nat.mod_eq_of_lt right.reduced] at same
  exact Big.toNat_injective same

/-- A product with one takes a number out of Montgomery form. -/
theorem Mont.toPlain (holds : M.Mont v a) : M.Plain (M.monmult v ⟨1, 0, 0, 0⟩) a := by
  obtain ⟨reduced, product⟩ := M.toNat_monmult (.inl holds.reduced : v.toNat < _ ∨ Big.toNat ⟨1, 0, 0, 0⟩ < _)
  refine ⟨reduced, M.isUnit_radix.mul_right_cancel ?_⟩
  have cast := cast_eq product
  rw [show Big.toNat ⟨1, 0, 0, 0⟩ = 1 from rfl, Nat.mul_one, Nat.cast_mul, Nat.cast_pow, Nat.cast_ofNat] at cast
  rw [cast, holds.value]

/-- A product with the square of the radix takes a number into Montgomery form. -/
theorem Plain.toMont (holds : M.Plain v a) (square : (w.toNat : M.Residue) = 2 ^ 256 * 2 ^ 256) :
    M.Mont (M.monmult v w) a := by
  obtain ⟨reduced, product⟩ := M.toNat_monmult (.inl holds.reduced : v.toNat < _ ∨ w.toNat < _)
  refine ⟨reduced, M.isUnit_radix.mul_right_cancel ?_⟩
  have cast := cast_eq product
  rw [Nat.cast_mul, Nat.cast_mul, Nat.cast_pow, Nat.cast_ofNat] at cast
  rw [cast, holds.value, square, mul_assoc]

/-- So does the product of any words with it, when the square is reduced. -/
theorem mont_monmult_square (reduced : w.toNat < M.Pa.toNat) (square : (w.toNat : M.Residue) = 2 ^ 256 * 2 ^ 256) (v : Big) :
    M.Mont (M.monmult v w) v.toNat := by
  obtain ⟨below, product⟩ := M.toNat_monmult (.inr reduced : v.toNat < _ ∨ w.toNat < _)
  refine ⟨below, M.isUnit_radix.mul_right_cancel ?_⟩
  have cast := cast_eq product
  rw [Nat.cast_mul, Nat.cast_mul, Nat.cast_pow, Nat.cast_ofNat] at cast
  rw [cast, square, mul_assoc]

end Modulus

end DbcSnark.Gpuec
