import DbcSnark.Proofs.Gpuec.Wide

/-! # The Montgomery multiplications on memory

Each of the three functions stores the one number below its modulus whose multiple by the weight of the words is
congruent to the product. The operands may overlap the result in any way.
-/

namespace DbcSnark.Gpuec

open Wide

/-- `c` is the quotient of `a * b` by `R` modulo `P`. -/
structure IsQuotient (R P a b c : ℕ) : Prop where
  reduced : c < P
  product : c * R ≡ a * b [MOD P]
  unique : ∀ d < P, d * R ≡ a * b [MOD P] → d = c

/-- The round for the word `m` after the words `ms` adds without losing a carry. -/
structure ExactRound (P : List UInt64) (minv : UInt64) (A ms : List UInt64) (m : UInt64) : Prop where
  top : (rounds P minv A ms).t8.toNat ≤ 1
  first : (accumulate A (rounds P minv A ms) m).total = (rounds P minv A ms).value + m.toNat * value A
  second : ∃ q < 2 ^ 64, 2 ^ 64 * (rounds P minv A (ms ++ [m])).value =
    (accumulate A (rounds P minv A ms) m).total + q * value P

/-- What a Montgomery multiplication of words is to do, whatever the addresses of its operands and its result. -/
structure Multiplies (P : List UInt64) (minv : UInt64) (mult : Ram → ℕ → ℕ → ℕ → Ram) : Prop where
  quotient : ∀ (m : Ram) (Aa Ba Ca : ℕ),
    value (m.words Aa P.length) < value P ∨ value (m.words Ba P.length) < value P →
      IsQuotient (radix P.length) (value P) (value (m.words Aa P.length)) (value (m.words Ba P.length))
        (value ((mult m Aa Ba Ca).words Ca P.length))
  frame : ∀ (m : Ram) (Aa Ba Ca i : ℕ), i < Ca ∨ Ca + P.length ≤ i → mult m Aa Ba Ca i = m i
  line : ∀ m a t c : UInt64, (mulAdd m a t c).1.toNat + 2 ^ 64 * (mulAdd m a t c).2.toNat =
    m.toNat * a.toNat + t.toNat + c.toNat
  round : ∀ A ms : List UInt64, A.length = P.length → ∀ m : UInt64, ExactRound P minv A ms m

namespace Ram

section Stores

variable (m : Ram) (a n : ℕ)

@[simp] theorem length_words : (m.words a n).length = n := by
  rw [words, List.length_map, List.length_range']

theorem putWords_of_outside (T : List UInt64) {i : ℕ} (outside : i < a ∨ a + T.length ≤ i) : m.putWords a T i = m i := by
  induction T generalizing m a with
  | nil => rfl
  | cons t T ih =>
    rw [List.length_cons] at outside
    rw [putWords, ih _ _ (by omega)]
    exact Function.update_of_ne (by omega) _ _

theorem words_putWords (T : List UInt64) : (m.putWords a T).words a T.length = T := by
  induction T generalizing m a with
  | nil => rfl
  | cons t T ih =>
    have head : (m.put a t).putWords (a + 1) T a = t := by
      rw [putWords_of_outside _ _ _ (.inl (Nat.lt_succ_self a))]
      exact Function.update_self _ _ _
    have tail := ih (m.put a t) (a + 1)
    rw [words] at tail
    rw [words, List.length_cons, List.range'_succ, List.map_cons, putWords, head, tail]

/-- The subtracting loop stores the difference. -/
theorem putDifference_eq (c : UInt64) (T P : List UInt64) :
    m.putDifference a c T P = m.putWords a (subRow c T P).1 := by
  induction T generalizing m a c P with
  | nil => rw [putDifference, subRow, putWords] <;> simp
  | cons t T ih =>
    cases P with
    | nil => rfl
    | cons p P =>
      rw [putDifference, subRow, putWords]
      exact ih _ _ _ _

end Stores

end Ram

namespace Wide

section Quotient

variable {P : List UInt64} {minv : UInt64} {A B : List UInt64} (inverse : minv * P.headD 0 + 1 = 0)
  (left : A.length = P.length) (right : B.length = P.length)
include inverse left

theorem exact_round (ms : List UInt64) (m : UInt64) : ExactRound P minv A ms m := by
  have same := (rounds_spec inverse left ms).1
  refine ⟨rounds_top inverse left ms, (accumulate_spec m (left.trans same.symm)).2.2, ?_⟩
  rw [rounds_append]
  exact (round_spec inverse left m same).2

theorem length_quotientWords : (quotientWords P minv A B).length = P.length := by
  have same := (rounds_spec inverse left B).1
  rw [quotientWords]
  split
  · rw [dh_mybig_sub_64, (subRow_spec 1 same (by decide)).1, same]
  · exact same

include right in
/-- The number in the words after the last round. -/
private theorem rounds_last (reduced : value A < value P ∨ value B < value P) :
    (rounds P minv A B).value < 2 * value P ∧
      (rounds P minv A B).value * radix P.length ≡ value A * value B [MOD value P] := by
  obtain ⟨-, q, small, total⟩ := rounds_spec inverse left B
  rw [right] at total small
  have first := value_lt A
  have second := value_lt B
  rw [left] at first
  rw [right] at second
  constructor
  · have positive : 0 < value P := by
      have := odd inverse
      omega
    have product : value A * value B ≤ value P * radix P.length := by
      rcases reduced with below | below
      · exact Nat.mul_le_mul below.le second.le
      · rw [Nat.mul_comm]
        exact Nat.mul_le_mul below.le first.le
    have multiple : q * value P < radix P.length * value P := Nat.mul_lt_mul_of_pos_right small positive
    refine Nat.lt_of_mul_lt_mul_right (a := radix P.length) ?_
    linarith
  · rw [total]
    exact (Nat.modEq_iff_dvd' (Nat.le_add_right _ _)).mpr (by simp) |>.symm

include right in
theorem value_quotientWords (reduced : value A < value P ∨ value B < value P) :
    value (quotientWords P minv A B) = (rounds P minv A B).value % value P := by
  have same := (rounds_spec inverse left B).1
  obtain ⟨small, -⟩ := rounds_last inverse left right reduced
  have top := rounds_top inverse left B
  rw [quotientWords]
  generalize rounds P minv A B = t at *
  have words := value_lt t.t
  have modulus := value_lt P
  have nonzero : t.t8 ≠ 0 ↔ 0 < t.t8.toNat := by
    rw [ne_eq, ← UInt64.toNat_inj, UInt64.toNat_zero]
    omega
  rw [Cios.value, same] at small ⊢
  rw [same] at words
  simp only [nonzero, geq_iff same]
  split
  · next high =>
    rw [value_sub_64 same, same]
    obtain zero | one : t.t8.toNat = 0 ∨ t.t8.toNat = 1 := by omega
    · rw [zero, Nat.mul_zero, Nat.add_zero] at small ⊢
      have above : value P ≤ value t.t := by omega
      rw [Nat.mod_eq_sub_mod (by omega), Nat.mod_eq_of_lt (by omega), Nat.mod_eq_sub_mod above,
        Nat.mod_eq_of_lt (by omega)]
      omega
    · rw [one, Nat.mul_one] at small ⊢
      rw [Nat.mod_eq_of_lt (by omega), Nat.mod_eq_sub_mod (by omega), Nat.mod_eq_of_lt (by omega)]
  · next low =>
    have zero : t.t8.toNat = 0 := by omega
    rw [zero, Nat.mul_zero, Nat.add_zero, Nat.mod_eq_of_lt (by omega)]

include right in
theorem isQuotient (reduced : value A < value P ∨ value B < value P) :
    IsQuotient (radix P.length) (value P) (value A) (value B) (value (quotientWords P minv A B)) := by
  obtain ⟨-, last⟩ := rounds_last inverse left right reduced
  have words := value_quotientWords inverse left right reduced
  have parity := odd inverse
  have below : value (quotientWords P minv A B) < value P := by
    rw [words]
    exact Nat.mod_lt _ (by omega)
  have product : value (quotientWords P minv A B) * radix P.length ≡ value A * value B [MOD value P] := by
    rw [words]
    exact ((Nat.mod_modEq _ _).mul_right _).trans last
  refine ⟨below, product, fun d small other => ?_⟩
  have coprime : Nat.gcd (value P) (radix P.length) = 1 :=
    Nat.Coprime.pow_right _ (Nat.coprime_two_right.mpr (Nat.odd_iff.mpr parity))
  have residue := Nat.ModEq.cancel_right_of_coprime coprime (other.trans product.symm)
  rw [Nat.ModEq, Nat.mod_eq_of_lt small, Nat.mod_eq_of_lt below] at residue
  exact residue

end Quotient

end Wide

theorem Ram.monmult_eq (P : List UInt64) (minv : UInt64) (m : Ram) (Aa Ba Ca : ℕ) : monmult P minv m Aa Ba Ca =
    m.putWords Ca (quotientWords P minv (m.words Aa P.length) (m.words Ba P.length)) := by
  rw [monmult, quotientWords, Wide.dh_mybig_sub_64, putDifference_eq]
  split <;> rfl

theorem Ram.multiplies {P : List UInt64} {minv : UInt64} (inverse : minv * P.headD 0 + 1 = 0) :
    Multiplies P minv (monmult P minv) where
  quotient m Aa Ba Ca reduced := by
    have length := length_quotientWords (B := m.words Ba P.length) inverse (m.length_words Aa P.length)
    have stored := m.words_putWords Ca (quotientWords P minv (m.words Aa P.length) (m.words Ba P.length))
    rw [length] at stored
    rw [monmult_eq, stored]
    exact isQuotient inverse (m.length_words _ _) (m.length_words _ _) reduced
  frame m Aa Ba Ca i outside := by
    have length := length_quotientWords (B := m.words Ba P.length) inverse (m.length_words Aa P.length)
    rw [monmult_eq]
    exact putWords_of_outside _ _ _ (by rwa [length])
  line := mulAdd_spec
  round A ms left m := exact_round inverse left ms m

/-! ## Four words -/

section FourWords

variable (M : Modulus) (A B : Big)

@[simp] theorem Big.value_words (x : Big) : value x.words = x.toNat := rfl

private theorem round_words (t : Gpuec.Cios) (t9 m : UInt64) :
    ∃ t9', Wide.reduce M.Pa.words M.minv (accumulate A.words ⟨t.t.words, t.t4, t9⟩ m) =
      ⟨(M.monRound A t m).t.words, (M.monRound A t m).t4, t9'⟩ := ⟨_, rfl⟩

private theorem rounds_words (ms : List UInt64) :
    ∃ t9, rounds M.Pa.words M.minv A.words ms =
      ⟨(ms.foldl (M.monRound A) ⟨0, 0⟩).t.words, (ms.foldl (M.monRound A) ⟨0, 0⟩).t4, t9⟩ := by
  induction ms using List.reverseRecOn with
  | nil => exact ⟨0, rfl⟩
  | append_singleton ms m ih =>
    obtain ⟨t9, ih⟩ := ih
    rw [rounds_append, ih, List.foldl_append]
    exact round_words M A _ t9 m

private def reduced (t : Gpuec.Cios) : Big :=
  if t.t4 ≠ 0 ∨ geq t.t M.Pa then dh_mybig_sub_64 t.t M.Pa else t.t

private theorem monmult_eq_reduced : M.monmult A B = reduced M (B.words.foldl (M.monRound A) ⟨0, 0⟩) := rfl

/-- On four words the lists compute what the function on `Big` computes. -/
theorem quotientWords_words : quotientWords M.Pa.words M.minv A.words B.words = (M.monmult A B).words := by
  obtain ⟨t9, same⟩ := rounds_words M A B.words
  have compare (z : Big) : Wide.geq z.words M.Pa.words = Gpuec.geq z M.Pa := by
    rw [Bool.eq_iff_iff, Gpuec.geq_iff]
    exact Wide.geq_iff rfl
  rw [quotientWords, same, monmult_eq_reduced]
  generalize B.words.foldl (M.monRound A) ⟨0, 0⟩ = r
  simp only [reduced, compare]
  split <;> rfl

end FourWords

/-- The three multiplications. -/
theorem montgomery_multiplication :
    Multiplies modP.Pa.words 0xd838091dd2253531 Ram.dh_mybig_monmult_64 ∧
      Multiplies modN.Pa.words 0x4b0dff665588b13f Ram.dh_mybig_monmult_64_modN ∧
      Multiplies Wide.Pa 1 Ram.dh_mybig_monmult_64_wide :=
  ⟨Ram.multiplies (by decide), Ram.multiplies (by decide), Ram.multiplies (by decide)⟩

end DbcSnark.Gpuec
