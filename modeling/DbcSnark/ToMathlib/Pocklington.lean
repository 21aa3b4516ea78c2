import Mathlib.FieldTheory.Finite.Basic
import Mathlib.RingTheory.Prime
import Mathlib.Algebra.Order.BigOperators.Ring.Finset

/-! # Pocklington's criterion

A number is prime when the product of some distinct prime factors of its predecessor exceeds its square root and one
residue has an order that these factors divide, modulo each prime factor of the number.
-/

namespace Pocklington

/-- A prime whose removal from the exponent matters divides the order. -/
theorem dvd_orderOf {G : Type*} [Monoid G] {g : G} {q k : ℕ} (prime : q.Prime) (whole : g ^ (q * k) = 1)
    (part : g ^ k ≠ 1) : q ∣ orderOf g := by
  by_contra apart
  apply part
  apply orderOf_dvd_iff_pow_eq_one.mp
  apply ((Nat.Prime.coprime_iff_not_dvd prime).mpr apart).symm.dvd_of_dvd_mul_left
  exact orderOf_dvd_of_pow_eq_one whole

/-- The cofactors `u` say that the powers `a ^ k` differ from one modulo every prime factor. -/
theorem prime_of_factors {N : ℕ} (more : 1 < N) (factors : Finset ℕ) (large : N < (∏ q ∈ factors, q) ^ 2) (a : ZMod N)
    (fermat : a ^ (N - 1) = 1) (each : ∀ q ∈ factors, q.Prime ∧ ∃ k u, N - 1 = q * k ∧ (a ^ k - 1) * u = 1) :
    N.Prime := by
  by_contra composite
  have prime : N.minFac.Prime := Nat.minFac_prime more.ne'
  have small : N.minFac ^ 2 ≤ N := Nat.minFac_sq_le_self (zero_lt_one.trans more) composite
  have := Fact.mk prime
  let f := ZMod.castHom N.minFac_dvd (ZMod N.minFac)
  have image : f a ^ (N - 1) = 1 := by rw [← map_pow, fermat, map_one]
  have nonzero : f a ≠ 0 := by
    intro zero
    rw [zero, zero_pow (Nat.sub_pos_of_lt more).ne'] at image
    exact zero_ne_one image
  have order : orderOf (f a) ∣ N.minFac - 1 := orderOf_dvd_of_pow_eq_one (ZMod.pow_card_sub_one_eq_one nonzero)
  have product : ∏ q ∈ factors, q ∣ N.minFac - 1 := by
    apply Finset.prod_primes_dvd
    · exact fun q member => (each q member).1.prime
    · intro q member
      obtain ⟨prime, k, u, split, inverse⟩ := each q member
      rw [split] at image
      refine (dvd_orderOf prime image fun one => ?_).trans order
      have image := congrArg f inverse
      rw [map_mul, map_sub, map_pow, one, map_one, sub_self, zero_mul] at image
      exact zero_ne_one image
  have bound : ∏ q ∈ factors, q < N.minFac := by
    have le := Nat.le_of_dvd (Nat.sub_pos_of_lt prime.one_lt) product
    have positive := prime.one_lt
    omega
  exact absurd (Nat.pow_le_pow_left bound.le 2) (by omega)

end Pocklington
