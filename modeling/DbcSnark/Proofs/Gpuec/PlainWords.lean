import DbcSnark.Model.Gpuec.PlainWords
import DbcSnark.Proofs.Gpuec.InPlace
import DbcSnark.Proofs.Gpuec.MonInv

/-! # The functions without a modulus

Three of the functions store what their namesakes on lists of words compute, also over an operand. The doubling reads
the carries of its operand and shifts the words it finds in its result, which is the double where these are the words
of the operand up to their top bits.
-/

namespace DbcSnark.Gpuec

open Wide (value radix)

namespace Ram

/-! ## The stores -/

section Stores

variable (m : Ram) {A B C : ℕ}

/-- The words that `dh_mybig_double_64(A, C)` leaves at `C`. -/
def doubleInto (A C : Big) : Big :=
  ⟨C.w0 <<< 1 ||| 0, C.w1 <<< 1 ||| A.w0 >>> 63, C.w2 <<< 1 ||| A.w1 >>> 63, C.w3 <<< 1 ||| A.w2 >>> 63⟩

private theorem range_four : List.range 4 = [0, 1, 2, 3] := rfl

theorem words_half_64 (early : A = C ∨ Apart A C) :
    ((half_64 m A C).big C).words = Wide.dh_mybig_half_64 (m.big A).words := by
  unfold Apart at early
  simp (disch := omega) only [half_64, halfTurn, range_four, List.reverse_cons, List.reverse_nil, List.nil_append,
    List.cons_append, List.foldl_cons, List.foldl_nil, big, put, Function.update_of_ne, Function.update_self,
    Nat.add_zero]
  rfl

theorem words_add_64 (first : A = C ∨ Apart A C) (second : B = C ∨ Apart B C) :
    ((add_64 m A B C).1.big C).words = (Wide.dh_mybig_add_64 (m.big A).words (m.big B).words).1 ∧
      (add_64 m A B C).2 = (Wide.dh_mybig_add_64 (m.big A).words (m.big B).words).2 := by
  unfold Apart at first second
  simp (disch := omega) only [add_64, addTurn, range_four, List.foldl_cons, List.foldl_nil, big, put,
    Function.update_of_ne, Function.update_self, Nat.add_zero]
  exact ⟨rfl, rfl⟩

theorem big_sub_64 (first : A = C ∨ Apart A C) (second : B = C ∨ Apart B C) :
    (sub_64 m A B C).big C = dh_mybig_sub_64 (m.big A) (m.big B) := by
  unfold Apart at first second
  simp (disch := omega) only [sub_64, subTurn, range_four, List.foldl_cons, List.foldl_nil, big, put,
    Function.update_of_ne, Function.update_self, Nat.add_zero]
  rfl

theorem big_double_64 (early : A = C ∨ Apart A C) :
    (double_64 m A C).1.big C = doubleInto (m.big A) (m.big C) ∧ (double_64 m A C).2 = (m.big A).w3 >>> 63 := by
  unfold Apart at early
  simp (disch := omega) only [double_64, doubleTurn, range_four, List.foldl_cons, List.foldl_nil, big, put,
    Function.update_of_ne, Function.update_self, Nat.add_zero, doubleInto, and_self]

theorem plain_of_outside {i : ℕ} (outside : i < C ∨ C + 4 ≤ i) :
    half_64 m A C i = m i ∧ (double_64 m A C).1 i = m i ∧ sub_64 m A B C i = m i ∧ (add_64 m A B C).1 i = m i := by
  simp (disch := omega) only [half_64, halfTurn, double_64, doubleTurn, sub_64, subTurn, add_64, addTurn, range_four,
    List.reverse_cons, List.reverse_nil, List.nil_append, List.cons_append, List.foldl_cons, List.foldl_nil, put,
    Function.update_of_ne, and_self]

end Stores

/-! ## The doubling into another array -/

private theorem toNat_shiftIn (w c : UInt64) (small : c.toNat ≤ 1) :
    (w <<< 1 ||| c).toNat = 2 * (w.toNat % 2 ^ 63) + c.toNat := by
  have high : (w <<< 1).toNat = 2 ^ 1 * (w.toNat % 2 ^ 63) := by
    rw [UInt64.toNat_shiftLeft, show (1 : UInt64).toNat % 64 = 1 from rfl, Nat.shiftLeft_eq]
    omega
  rw [UInt64.toNat_or, high, ← Nat.two_pow_add_eq_or_of_lt (by omega), pow_one]

private theorem toNat_top (w : UInt64) : (w >>> 63).toNat = w.toNat / 2 ^ 63 := by
  rw [UInt64.toNat_shiftRight, show (63 : UInt64).toNat % 64 = 63 from rfl, Nat.shiftRight_eq_div_pow]

theorem toNat_top_le (w : UInt64) : (w >>> 63).toNat ≤ 1 := by
  have := w.toNat_lt
  rw [toNat_top]
  omega

/-- Two words agree in all bits but the top one. -/
def SameLow (v w : UInt64) : Prop := v.toNat % 2 ^ 63 = w.toNat % 2 ^ 63

private theorem shiftIn_inj {v w c : UInt64} (small : c.toNat ≤ 1) : v <<< 1 ||| c = w <<< 1 ||| c ↔ SameLow v w := by
  rw [← UInt64.toNat_inj, toNat_shiftIn v c small, toNat_shiftIn w c small, SameLow]
  omega

theorem doubleInto_inj {A C D : Big} : doubleInto A C = doubleInto A D ↔
    SameLow C.w0 D.w0 ∧ SameLow C.w1 D.w1 ∧ SameLow C.w2 D.w2 ∧ SameLow C.w3 D.w3 := by
  rw [doubleInto, doubleInto, Big.mk.injEq, shiftIn_inj (by decide), shiftIn_inj (toNat_top_le _),
    shiftIn_inj (toNat_top_le _), shiftIn_inj (toNat_top_le _)]

/-- The words that the loop computes where it shifts the words of its operand. -/
theorem doubleInto_self (A : Big) :
    (doubleInto A A).toNat = 2 * A.toNat % 2 ^ 256 ∧ (A.w3 >>> 63).toNat = 2 * A.toNat / 2 ^ 256 := by
  have := A.w0.toNat_lt
  have := A.w1.toNat_lt
  have := A.w2.toNat_lt
  have := A.w3.toNat_lt
  simp only [Big.toNat, doubleInto, toNat_shiftIn _ _ (toNat_top_le _), toNat_shiftIn _ 0 (by decide), toNat_top,
    UInt64.toNat_zero]
  omega

/-- The words stored are the double exactly where the words found in the result are those of the operand, apart from
their top bits. -/
theorem toNat_doubleInto_iff (A C : Big) : (doubleInto A C).toNat = 2 * A.toNat % 2 ^ 256 ↔
    SameLow C.w0 A.w0 ∧ SameLow C.w1 A.w1 ∧ SameLow C.w2 A.w2 ∧ SameLow C.w3 A.w3 := by
  rw [← doubleInto_inj, ← (doubleInto_self A).1]
  exact ⟨Big.toNat_injective, congrArg Big.toNat⟩

/-! ## The four functions -/

variable (m : Ram) {A B C : ℕ}

/-- The half, the sum with its carry and the difference come out for every operand, with the result apart from an
operand or over it. The double comes out, with the bit shifted out, exactly where the words found in the result agree
with those of the operand below their top bits, as they do in place. -/
theorem plain_words_iff (first : A = C ∨ Apart A C) (second : B = C ∨ Apart B C) :
    ((half_64 m A C).big C).toNat = (m.big A).toNat / 2 ∧
      (((add_64 m A B C).1.big C).toNat = ((m.big A).toNat + (m.big B).toNat) % 2 ^ 256 ∧
        (add_64 m A B C).2.toNat = ((m.big A).toNat + (m.big B).toNat) / 2 ^ 256) ∧
      (((sub_64 m A B C).big C).toNat : ℤ) = (((m.big A).toNat : ℤ) - (m.big B).toNat) % 2 ^ 256 ∧
      (((double_64 m A C).1.big C).toNat = 2 * (m.big A).toNat % 2 ^ 256 ∧
          (double_64 m A C).2.toNat = 2 * (m.big A).toNat / 2 ^ 256 ↔
        ∀ i < 4, SameLow (m (C + i)) (m (A + i))) ∧
      ∀ i, i < C ∨ C + 4 ≤ i →
        half_64 m A C i = m i ∧ (double_64 m A C).1 i = m i ∧ sub_64 m A B C i = m i ∧ (add_64 m A B C).1 i = m i := by
  refine ⟨?_, ?_, ?_, ?_, fun i outside => plain_of_outside m outside⟩
  · rw [← Big.value_words, words_half_64 m first, (Wide.half_spec rfl).2, Big.value_words]
  · obtain ⟨words, carry⟩ := words_add_64 m first second
    obtain ⟨-, -, sum⟩ := Wide.addRow_spec 0 (A := (m.big A).words) (B := (m.big B).words) rfl (by decide)
    have bound := ((add_64 m A B C).1.big C).toNat_lt
    rw [← Wide.dh_mybig_add_64, ← words, ← carry, Big.value_words, Big.value_words, Big.value_words, UInt64.toNat_zero,
      show (m.big A).words.length = 4 from rfl] at sum
    change _ + 2 ^ 256 * _ = _ at sum
    omega
  · have left := (m.big A).toNat_lt
    have right := (m.big B).toNat_lt
    rw [big_sub_64 m first second, toNat_sub_64]
    push_cast [Nat.sub_add_comm]
    omega
  · obtain ⟨stored, carry⟩ := big_double_64 m first
    rw [stored, carry, toNat_doubleInto_iff, and_iff_left (doubleInto_self _).2]
    simp only [big, Nat.forall_lt_succ_right, Nat.not_lt_zero, false_imp_iff, implies_true, true_and, and_assoc,
      Nat.add_zero]

theorem plain_words_iff_fiveSeven :
    ((half_64 fiveSeven 0 0).big 0).toNat = 2 ∧ ((add_64 fiveSeven 0 4 0).1.big 0).toNat = 12 ∧
      ((double_64 fiveSeven 0 0).1.big 0).toNat = 10 := by
  obtain ⟨half, sum, -, double, -⟩ := plain_words_iff fiveSeven (.inl rfl) (.inr (.inr (le_refl 4)))
  have doubled := (double.mpr fun i _ => rfl).1
  rw [show (fiveSeven.big 0).toNat = 5 from rfl] at half sum doubled
  exact ⟨half, sum.1, doubled⟩

/-- Into the words of `7`, the double of `5` is stored as `14`. -/
theorem double_64_apart : ¬ ∀ (m : Ram) (A C : ℕ), A = C ∨ Apart A C →
    ((double_64 m A C).1.big C).toNat = 2 * (m.big A).toNat % 2 ^ 256 := by
  intro doubles
  have five := doubles fiveSeven 0 4 (.inr (.inl (le_refl 4)))
  exact absurd five (by decide)

end Ram

end DbcSnark.Gpuec
