import DbcSnark.Model.Gpuec.InPlace
import DbcSnark.Proofs.Gpuec.MyBig

/-! # Overlapping operands

A result that is stored apart from the operands, or exactly over the first one, is the result of the function on
values: every word of the first operand is read before it is overwritten. The negation has no first operand in
that sense, since it reads each word of its operand after the word of the result at the same index is written.
-/

namespace DbcSnark.Gpuec

namespace Ram

/-- Two operands of four words that share no word. -/
def Apart (x z : ℕ) : Prop := x + 4 ≤ z ∨ z + 4 ≤ x

section Stores

variable (m : Ram) (z : ℕ) (v : Big)

theorem putBig_of_outside {i : ℕ} (outside : i < z ∨ z + 4 ≤ i) : m.putBig z v i = m i := by
  simp (disch := omega) only [putBig, put, Function.update_of_ne]

theorem big_putBig : (m.putBig z v).big z = v := by
  simp (disch := omega) only [putBig, put, big, Function.update_of_ne, Function.update_self]

private theorem putBig_putBig (u : Big) : (m.putBig z u).putBig z v = m.putBig z v := by
  funext i
  by_cases outside : i < z ∨ z + 4 ≤ i
  · rw [putBig_of_outside _ _ _ outside, putBig_of_outside _ _ _ outside, putBig_of_outside _ _ _ outside]
  · obtain rfl | rfl | rfl | rfl : i = z ∨ i = z + 1 ∨ i = z + 2 ∨ i = z + 3 := by omega
    all_goals simp (disch := omega) only [putBig, put, Function.update_of_ne, Function.update_self]

end Stores

section Lines

variable (m : Ram) {x y z : ℕ}

private theorem addLine_eq (f : UInt64) (apart : y ≠ z) :
    addLine m x y z f = (m.put z (addCarry (m x) (m y) f).1, (addCarry (m x) (m y) f).2) := by
  simp only [addLine, addCarry, put, Function.update_self, Function.update_of_ne apart, Function.update_idem]

private theorem subLine_eq (f : UInt64) (apart : y ≠ z) :
    subLine m x y z f = (m.put z (subBorrow (m x) (m y) f).1, (subBorrow (m x) (m y) f).2) := by
  simp only [subLine, subBorrow, put, Function.update_self, Function.update_of_ne apart, Function.update_idem]

private theorem negLine_eq (f : UInt64) (apart : y ≠ z) :
    negLine m y z f = (m.put z (subBorrow 0 (m y) f).1, (subBorrow 0 (m y) f).2) := by
  simp only [negLine, subBorrow, put, Function.update_self, Function.update_of_ne apart, Function.update_idem]

end Lines

section Functions

variable (M : Modulus) (m : Ram) {x y z : ℕ}

/-- A function that works on its result once more does so on the value it stored. -/
private theorem rework (test : Big → Prop) [DecidablePred test] (f : Big → Big) (v : Big) :
    (if test ((m.putBig z v).big z) then (m.putBig z v).putBig z (f ((m.putBig z v).big z)) else m.putBig z v) =
      m.putBig z (if test v then f v else v) := by
  rw [big_putBig]
  split
  · exact putBig_putBig m z _ v
  · rfl

theorem modadd_eq (early : x = z ∨ Apart x z) (apart : Apart y z) :
    modadd M m x y z = m.putBig z (M.modadd (m.big x) (m.big y)) := by
  unfold Apart at early apart
  simp (disch := omega) only [modadd, addLine_eq, put, Function.update_of_ne, Function.update_self]
  exact rework m (fun v => (addWords (m.big x) (m.big y)).2 ≠ 0 ∨ geq v M.Pa) (fun v => (subWords v M.Pa).1)
    (addWords (m.big x) (m.big y)).1

private theorem restore_eq (g : UInt64) (v : Big) :
    restore M (m.putBig z v) z g = m.putBig z (if g ≠ 0 then (addWords v M.Pa).1 else v) :=
  rework m (fun _ => g ≠ 0) (fun v => (addWords v M.Pa).1) v

theorem modsub_eq (early : x = z ∨ Apart x z) (apart : Apart y z) :
    modsub M m x y z = m.putBig z (M.modsub (m.big x) (m.big y)) := by
  unfold Apart at early apart
  simp (disch := omega) only [modsub, subLine_eq, put, Function.update_of_ne]
  exact restore_eq M m (subWords (m.big x) (m.big y)).2 (subWords (m.big x) (m.big y)).1

theorem modsub_ui32_eq (early : x = z ∨ Apart x z) (y : UInt32) :
    modsub_ui32 M m x y z = m.putBig z (M.modsub_ui32 (m.big x) y) := by
  unfold Apart at early
  simp (disch := omega) only [modsub_ui32, put, Function.update_of_ne]
  exact restore_eq M m _ ⟨_, _, _, _⟩

theorem neg_eq (apart : Apart y z) : neg M m y z = m.putBig z (M.neg (m.big y)) := by
  unfold Apart at apart
  simp (disch := omega) only [neg, negLine_eq, put, Function.update_of_ne]
  exact restore_eq M m (subWords 0 (m.big y)).2 (subWords 0 (m.big y)).1

theorem moddouble_eq {A C : ℕ} (early : A = C ∨ Apart A C) :
    moddouble M m A C = m.putBig C (M.moddouble (m.big A)) := by
  unfold Apart at early
  simp (disch := omega) only [moddouble, put, Function.update_of_ne]
  exact rework m (fun v => (doubleWords (m.big A)).2 = 1 ∨ geq v M.Pa) (fun v => dh_mybig_sub_64 v M.Pa)
    (doubleWords (m.big A)).1

private theorem cast_sub_mod {a b P : ℕ} (small : b ≤ P) : (((a + (P - b)) % P : ℕ) : ℤ) = ((a : ℤ) - b) % P := by
  rw [Int.natCast_mod, Nat.cast_add, Nat.cast_sub small, show (a + ((P : ℤ) - b)) = a - b + P by ring,
    Int.add_emod_right]

/-- The five functions return exact residues, with the result stored apart from the operands or over the first one;
the negation needs its result apart. -/
theorem modular_residues (left : (m.big x).toNat < M.Pa.toNat) (right : (m.big y).toNat < M.Pa.toNat) (k : UInt32)
    (early : x = z ∨ Apart x z) (apart : Apart y z) :
    (((modadd M m x y z).big z).toNat : ℤ) = ((m.big x).toNat + (m.big y).toNat) % M.Pa.toNat ∧
      (((modsub M m x y z).big z).toNat : ℤ) = ((m.big x).toNat - (m.big y).toNat) % M.Pa.toNat ∧
      (((modsub_ui32 M m x k z).big z).toNat : ℤ) = ((m.big x).toNat - k.toNat) % M.Pa.toNat ∧
      (((neg M m y z).big z).toNat : ℤ) = -((m.big y).toNat : ℤ) % M.Pa.toNat ∧
      (((moddouble M m x z).big z).toNat : ℤ) = 2 * (m.big x).toNat % M.Pa.toNat ∧
      ∀ i, i < z ∨ z + 4 ≤ i → modadd M m x y z i = m i ∧ modsub M m x y z i = m i ∧
        modsub_ui32 M m x k z i = m i ∧ neg M m y z i = m i ∧ moddouble M m x z i = m i := by
  have high := M.high
  have small := k.toNat_lt
  rw [modadd_eq M m early apart, modsub_eq M m early apart, modsub_ui32_eq M m early k, neg_eq M m apart,
    moddouble_eq M m early]
  simp only [big_putBig]
  refine ⟨?_, ?_, ?_, ?_, ?_, fun i outside => ?_⟩
  · rw [M.toNat_modadd left right]
    push_cast
    rfl
  · rw [M.toNat_modsub left right, cast_sub_mod right.le]
  · rw [M.toNat_modsub_ui32 left, cast_sub_mod (by omega)]
  · rw [M.toNat_neg right, ← Nat.zero_add (M.Pa.toNat - _), cast_sub_mod right.le, Nat.cast_zero, zero_sub]
  · rw [M.toNat_moddouble left]
    push_cast
    rfl
  · simp only [putBig_of_outside m z _ outside, and_self]

/-- Four words `5, 0, 0, 0` at address 0 and `7, 0, 0, 0` at address 4. -/
def fiveSeven : Ram := fun i => if i = 0 then 5 else if i = 4 then 7 else 0

theorem modular_residues_five_seven :
    (((modadd modN fiveSeven 0 4 0).big 0).toNat : ℤ) = 12 % modN.Pa.toNat ∧
      (((modsub modN fiveSeven 0 4 0).big 0).toNat : ℤ) = (5 - 7) % modN.Pa.toNat := by
  have left : (fiveSeven.big 0).toNat = 5 := rfl
  have right : (fiveSeven.big 4).toNat = 7 := rfl
  obtain ⟨sum, difference, -⟩ := modular_residues modN fiveSeven (by decide) (by decide) 3
    (.inl (rfl : 0 = 0)) (.inr (le_refl 4))
  rw [left, right] at sum difference
  exact ⟨sum, difference⟩

/-- The negation in place of `2 ^ 64` leaves zero. -/
theorem neg_over_operand : ¬ ∀ (M : Modulus) (m : Ram) (x : ℕ), (m.big x).toNat < M.Pa.toNat →
    (((neg M m x x).big x).toNat : ℤ) = -((m.big x).toNat : ℤ) % M.Pa.toNat := by
  intro exact
  have zero := exact modP (fun i => if i = 1 then 1 else 0) 0 (by decide)
  exact absurd zero (by decide)

end Functions

end Ram

end DbcSnark.Gpuec
