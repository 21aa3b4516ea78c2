import Mathlib.Algebra.BigOperators.Intervals
import Mathlib.Algebra.Field.GeomSum
import Mathlib.Algebra.Module.BigOperators
import Mathlib.Tactic

/-! # The identities behind an aggregated range argument

A number with the bits `aL` is shown to be below `2 ^ n` through two vectors of polynomials in `x`, which are blinded by
`sL` and `sR`. Their inner product has the number in its constant term, next to a term `delta` that the verifier
computes. Their commitment follows from the commitments to the bits and to the blinding vectors.
-/

namespace RangeArgument

section Ring

variable {R : Type*} [CommRing R] (n : ℕ) (aL aR sL sR : ℕ → R) (x y z : R)

/-- The left vector. -/
def left (i : ℕ) : R := aL i - z + sL i * x

/-- The right vector. -/
def right (i : ℕ) : R := y ^ i * (aR i + z + sR i * x) + z ^ 2 * (2 : ℕ) ^ i

/-- The linear coefficient of the inner product. -/
def t1 : R := ∑ i ∈ Finset.range n,
  ((aL i - z) * (y ^ i * sR i) + (y ^ i * (aR i + z) + z ^ 2 * (2 : ℕ) ^ i) * sL i)

/-- The quadratic coefficient of the inner product. -/
def t2 : R := ∑ i ∈ Finset.range n, y ^ i * sR i * sL i

/-- The part of the constant coefficient that does not depend on the number. -/
def delta : R := (z - z ^ 2) * ∑ i ∈ Finset.range n, y ^ i - z ^ 3 * ∑ i ∈ Finset.range n, ((2 : ℕ) : R) ^ i

theorem right_eq (i : ℕ) : right aR sR x y z i = y ^ i * (aR i + z + sR i * x) + z ^ 2 * 2 ^ i := by
  rw [right, Nat.cast_ofNat]

theorem t1_eq : t1 n aL aR sL sR y z = ∑ i ∈ Finset.range n,
    ((aL i - z) * (y ^ i * sR i) + (y ^ i * (aR i + z) + z ^ 2 * 2 ^ i) * sL i) := by
  rw [t1, Nat.cast_ofNat]

theorem delta_eq_sums : delta n y z =
    (z - z ^ 2) * ∑ i ∈ Finset.range n, y ^ i - z ^ 3 * ∑ i ∈ Finset.range n, 2 ^ i := by
  rw [delta, Nat.cast_ofNat]

variable {n aL aR}

/-- The vectors of bits: the right one is the left one less one, and one of them is zero everywhere. -/
structure Bits (n : ℕ) (aL aR : ℕ → R) : Prop where
  shifted : ∀ i < n, aR i = aL i - 1
  disjoint : ∀ i < n, aL i * aR i = 0

/-- The inner product as a polynomial in `x`. -/
theorem Bits.inner_product (bits : Bits n aL aR) :
    ∑ i ∈ Finset.range n, left aL sL x z i * right aR sR x y z i =
      z ^ 2 * ∑ i ∈ Finset.range n, aL i * 2 ^ i + delta n y z + x * t1 n aL aR sL sR y z + x ^ 2 * t2 n sL sR y := by
  simp only [delta_eq_sums, t1_eq, t2, Finset.mul_sum, ← Finset.sum_add_distrib, ← Finset.sum_sub_distrib]
  refine Finset.sum_congr rfl fun i member => ?_
  have shifted := bits.shifted i (Finset.mem_range.mp member)
  have disjoint := bits.disjoint i (Finset.mem_range.mp member)
  rw [shifted] at disjoint
  rw [left, right_eq, shifted]
  linear_combination y ^ i * disjoint

variable {y}

/-- The closed form of `delta`, with the inverse of `y - 1`. -/
theorem delta_eq {inv : R} (inverse : inv * (y - 1) = 1) :
    delta n y z = (y ^ n - 1) * inv * (z - z ^ 2) - z ^ 3 * (2 ^ n - 1) := by
  have powers := geom_sum_mul y n
  have twos := geom_sum_mul (2 : R) n
  rw [delta_eq_sums, ← powers, ← twos]
  linear_combination -((z - z ^ 2) * ∑ i ∈ Finset.range n, y ^ i) * inverse

end Ring

section Module

variable {R M : Type*} [CommRing R] [AddCommGroup M] [Module R M] {n : ℕ} (aL aR sL sR : ℕ → R) (x y z alpha rho : R)
  (H : M) {g h h' : ℕ → M}

/-- The commitment to two vectors, blinded by a multiple of `H`. -/
def commit (n : ℕ) (blind : R) (H : M) (left right : ℕ → R) (g h : ℕ → M) : M :=
  blind • H + ∑ i ∈ Finset.range n, left i • g i + ∑ i ∈ Finset.range n, right i • h i

/-- The commitment to the left and the right vector, for rescaled generators, from the ones to bits and blinding vectors. -/
theorem commit_left_right (rescaled : ∀ i < n, y ^ i • h' i = h i) :
    commit n alpha H aL aR g h + x • commit n rho H sL sR g h + ∑ i ∈ Finset.range n, (-z) • g i +
        ∑ i ∈ Finset.range n, (z * y ^ i + z ^ 2 * 2 ^ i) • h' i =
      commit n (rho * x + alpha) H (left aL sL x z) (right aR sR x y z) g h' := by
  have generators : ∀ right : ℕ → R, ∑ i ∈ Finset.range n, right i • h i =
      ∑ i ∈ Finset.range n, (right i * y ^ i) • h' i := by
    intro right
    refine Finset.sum_congr rfl fun i member => ?_
    rw [← rescaled i (Finset.mem_range.mp member), smul_smul]
  have lefts : ∑ i ∈ Finset.range n, left aL sL x z i • g i =
      ∑ i ∈ Finset.range n, aL i • g i + x • ∑ i ∈ Finset.range n, sL i • g i + ∑ i ∈ Finset.range n, (-z) • g i := by
    rw [Finset.smul_sum, ← Finset.sum_add_distrib, ← Finset.sum_add_distrib]
    refine Finset.sum_congr rfl fun i _ => ?_
    rw [left]
    module
  have rights : ∑ i ∈ Finset.range n, right aR sR x y z i • h' i =
      ∑ i ∈ Finset.range n, (aR i * y ^ i) • h' i + x • ∑ i ∈ Finset.range n, (sR i * y ^ i) • h' i +
        ∑ i ∈ Finset.range n, (z * y ^ i + z ^ 2 * 2 ^ i) • h' i := by
    rw [Finset.smul_sum, ← Finset.sum_add_distrib, ← Finset.sum_add_distrib]
    refine Finset.sum_congr rfl fun i _ => ?_
    rw [right_eq]
    module
  simp only [commit, generators, lefts, rights]
  module

end Module

/-- A number below a power of two is the sum of its bits. -/
theorem sum_bits (n m : ℕ) : ∑ i ∈ Finset.range n, m / 2 ^ i % 2 * 2 ^ i = m % 2 ^ n := by
  induction n with
  | zero => simp [Nat.mod_one]
  | succ n ih => rw [Finset.sum_range_succ, ih, pow_succ, Nat.mod_mul, Nat.mul_comm]

end RangeArgument
