import DbcSnark.Proofs.Gpuec.BasePoint
import DbcSnark.Proofs.Gpuec.MonInv
import DbcSnark.Proofs.Gpuec.WideModulus

/-! # The three inversions

The moduli are primes, so every number between zero and its modulus is inverted. The line of `gpuec.cu` for as many
rounds as the modulus has bits multiplies with the number one in Montgomery form, which changes nothing.
-/

namespace DbcSnark.Gpuec

open Wide

/-- What a Montgomery inversion of words is to do. Every number below the modulus but zero takes `k` rounds, in which
the variables hold the numbers of the almost inverse exactly, up to the bit of `R` in `cr` after the last one. -/
structure Inverts (P : List UInt64) (inversion : Ram → ℕ → ℕ → Option Ram) : Prop where
  rounds : ∀ A : List UInt64, A.length = P.length → 0 < value A → value A < value P →
    ∃ k, 64 * P.length ≤ k ∧ k ≤ 2 * (64 * P.length) ∧ (64 * P.length < k → (2 * (64 * P.length) - k) / 64 < P.length) ∧
      (∀ fuel, k ≤ fuel → ∃ x, Inversion.phaseI fuel (.initial P A) = some x ∧ x.k = k) ∧
      (∀ j < k, 0 < (AlmostInverse.step^[j] (AlmostInverse.start (value P) (value A))).v) ∧
      ∀ j ≤ k, (Inversion.round^[j] (.initial P A)).Holds P.length
        (AlmostInverse.step^[j] (AlmostInverse.start (value P) (value A)))
  result : ∀ (m : Ram) (A C : ℕ), 0 < value (m.words A P.length) → value (m.words A P.length) < value P →
    ∃ c : List UInt64, c.length = P.length ∧ inversion m A C = some (m.putWords C c) ∧
      value c < value P ∧ value (m.words A P.length) * value c ≡ radix P.length [MOD value P] ∧
      ∀ d < value P, value (m.words A P.length) * d ≡ radix P.length [MOD value P] → d = value c

private theorem coprime_of_lt {P A : ℕ} (prime : P.Prime) (positive : 0 < A) (small : A < P) : P.Coprime A :=
  (prime.coprime_iff_not_dvd).mpr fun divides => absurd (Nat.le_of_dvd positive divides) (Nat.not_le.mpr small)

section Moduli

variable {P : List UInt64} {minv : UInt64} {even : List UInt64 → List UInt64} {inversion : Ram → ℕ → ℕ → Option Ram}
  (prime : (value P).Prime) (inverse : minv * P.headD 0 + 1 = 0) (high : radix P.length ≤ 2 * value P)

include prime high in
private theorem rounds_of_prime (A : List UInt64) (length : A.length = P.length) (positive : 0 < value A)
    (small : value A < value P) :
    ∃ k, 64 * P.length ≤ k ∧ k ≤ 2 * (64 * P.length) ∧ (64 * P.length < k → (2 * (64 * P.length) - k) / 64 < P.length) ∧
      (∀ fuel, k ≤ fuel → ∃ x, Inversion.phaseI fuel (.initial P A) = some x ∧ x.k = k) ∧
      (∀ j < k, 0 < (AlmostInverse.step^[j] (AlmostInverse.start (value P) (value A))).v) ∧
      ∀ j ≤ k, (Inversion.round^[j] (.initial P A)).Holds P.length
        (AlmostInverse.step^[j] (AlmostInverse.start (value P) (value A))) := by
  have coprime := coprime_of_lt prime positive small
  have large := prime.one_lt
  obtain ⟨k, enough, before, zero, -, count, lower⟩ := phaseI_spec length small coprime large
  have holds (j : ℕ) (inside : j ≤ k) := holds_iterate length coprime large fun i less => before i (less.trans_le inside)
  have bits : 64 * P.length < k + 1 := by
    refine (Nat.pow_lt_pow_iff_right (by decide : 1 < 2)).mp (lt_of_le_of_lt high ?_)
    rw [pow_succ]
    omega
  refine ⟨k, by omega, enough, fun _ => by omega, fun fuel more => ⟨_, Inversion.phaseI_eq more ?_ ?_, count⟩, before, holds⟩
  · intro j below
    rw [← Bool.not_eq_true, iszero_64_iff, (holds j below.le).v]
    exact (before j below).ne'
  · rw [iszero_64_iff, (holds k le_rfl).v, zero]

include prime inverse high in
/-- An inversion with these lines that stores its result over any address. -/
private theorem inverts_of_prime
    (same : ∀ R : List UInt64, R.length = P.length → value R < value P → even R = R)
    (body : ∀ (m : Ram) (A C : ℕ) (c : List UInt64), c.length = P.length →
      moninv P minv even (m.words A P.length) = some c → inversion m A C = some (m.putWords C c)) :
    Inverts P inversion where
  rounds := rounds_of_prime prime high
  result m A C positive small := by
    have coprime := coprime_of_lt prime positive small
    obtain ⟨c, found, length, reduced, product⟩ := moninv_spec inverse prime.one_lt high same (m.length_words A P.length)
      small coprime
    refine ⟨c, length, body m A C c length found, reduced, product, fun d below other => ?_⟩
    have cancel := Nat.ModEq.cancel_left_of_coprime coprime (other.trans product.symm)
    rwa [Nat.ModEq, Nat.mod_eq_of_lt below, Nat.mod_eq_of_lt reduced] at cancel

end Moduli

/-- The two functions of `gpuec256.cu`. -/
private theorem Modulus.inverts (M : Modulus) [prime : Fact M.Pa.toNat.Prime] : Inverts M.Pa.words (Ram.moninv M) := by
  have same (R : List UInt64) (_ : R.length = M.Pa.words.length) (_ : value R < value M.Pa.words) : id R = R := rfl
  refine inverts_of_prime prime.out M.inverse ?_ same fun m A C c length found => ?_
  · have high := M.high
    change 2 ^ 256 ≤ 2 * M.Pa.toNat
    omega
  · have read : M.moninv (m.big A) = some (Big.ofWords c) := by
      change (Wide.moninv M.Pa.words M.minv id (m.words A 4)).map Big.ofWords = _
      rw [show Wide.moninv M.Pa.words M.minv id (m.words A 4) = some c from found, Option.map_some]
    rw [Ram.moninv, read, Option.map_some]
    change some (m.putWords C (Big.ofWords c).words) = _
    rw [Big.words_ofWords length]

namespace Wide

/-- The line for `k` equal to 512 changes nothing. -/
theorem quotientWords_mon_ONE {R : List UInt64} (length : R.length = 8) (reduced : value R < value Pa) :
    quotientWords Pa 1 R mon_ONE = R := by
  have inverse : (1 : UInt64) * Pa.headD 0 + 1 = 0 := by decide
  have quotient := isQuotient (P := Pa) (A := R) (B := mon_ONE) inverse length rfl (.inl reduced)
  have radix : radix Pa.length ≡ value mon_ONE [MOD value Pa] := by
    rw [show Pa.length = 4 + 4 from rfl, radix_add]
    decide
  refine value_injective ((length_quotientWords inverse length).trans length.symm) ?_
  exact (quotient.unique (value R) reduced (radix.mul_left (value R))).symm

theorem high_Pa : radix Pa.length ≤ 2 * value Pa := by
  decide +kernel

end Wide

/-- The three functions invert modulo their primes. -/
theorem montgomery_inversion : Inverts modP.Pa.words Ram.dh_mybig_moninv ∧ Inverts modN.Pa.words Ram.dh_mybig_moninv_modN ∧
    Inverts Wide.Pa Ram.dh_mybig_moninv_wide := by
  refine ⟨Modulus.inverts modP, Modulus.inverts modN, inverts_of_prime
    (Fact.out : (value Wide.Pa).Prime) (show (1 : UInt64) * Wide.Pa.headD 0 + 1 = 0 by decide) high_Pa
    (fun _ length reduced => quotientWords_mon_ONE length reduced) fun m A C c length found => ?_⟩
  rw [Ram.dh_mybig_moninv_wide, show Wide.dh_mybig_moninv (m.words A 8) = some c from found, Option.map_some]

end DbcSnark.Gpuec
