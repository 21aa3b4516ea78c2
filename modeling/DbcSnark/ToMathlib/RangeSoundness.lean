import DbcSnark.ToMathlib.RangeArgument
import Mathlib.Algebra.Module.Prod
import Mathlib.LinearAlgebra.Vandermonde

/-! # Completeness and special soundness of a range argument

A verifier accepts the answer of a prover who follows the protocol for the bits of a number, unless the number that is
committed to is another one. From the answers to enough challenges on the same commitments, the openings of the
commitments are computed: two answers open the commitments to the vectors, three the one to the number. Every further
answer gives one more opening of the same point, and the difference of the two is a relation between the generators.
Unless one of these relations is nontrivial, the opened vector consists of bits, and the commitment is one to the number
with these bits.
-/

namespace RangeArgument

/-! ## Combinations of generators -/

/-- The points that commitments are combinations of. -/
structure Generators (M : Type*) where
  G : M
  H : M
  g : ℕ → M
  h : ℕ → M

/-- The coefficients of a combination: those of `G` and `H`, and those of the vectors `g` and `h`. -/
abbrev Combination (R : Type*) := (R × R) × (ℕ → R) × (ℕ → R)

section Ring

variable {R M : Type*} [CommRing R] [AddCommGroup M] [Module R M] (gens : Generators M) (n : ℕ)

/-- The combination of the first `n` generators of both vectors and of `G` and `H`. -/
def Generators.combine (c : Combination R) : M := c.1.1 • gens.G + commit n c.1.2 gens.H c.2.1 c.2.2 gens.g gens.h

theorem Generators.combine_add (c d : Combination R) : gens.combine n (c + d) = gens.combine n c + gens.combine n d := by
  simp only [combine, commit, Prod.fst_add, Prod.snd_add, Pi.add_apply, add_smul, Finset.sum_add_distrib]
  abel

theorem Generators.combine_smul (a : R) (c : Combination R) : gens.combine n (a • c) = a • gens.combine n c := by
  simp only [combine, commit, Prod.smul_fst, Prod.smul_snd, Pi.smul_apply, smul_assoc, smul_add, Finset.smul_sum]

theorem Generators.combine_sub (c d : Combination R) : gens.combine n (c - d) = gens.combine n c - gens.combine n d := by
  rw [sub_eq_add_neg, ← neg_one_smul R d, combine_add, combine_smul, neg_one_smul, ← sub_eq_add_neg]

/-- The coefficients that count are all zero. -/
structure Trivial (n : ℕ) (c : Combination R) : Prop where
  G : c.1.1 = 0
  H : c.1.2 = 0
  g : ∀ i < n, c.2.1 i = 0
  h : ∀ i < n, c.2.2 i = 0

end Ring

/-! ## The equations -/

/-- What a prover sends after the last challenge: the blindings, the inner product and both vectors. -/
structure Answer (R : Type*) where
  taux : R
  mu : R
  t : R
  l : ℕ → R
  r : ℕ → R

section Field

variable {R M : Type*} [Field R] [AddCommGroup M] [Module R M] {gens : Generators M} {n : ℕ}

/-- The commitment to both vectors of an answer, for generators rescaled by the powers of `y`. -/
def Answer.commitment (gens : Generators M) (n : ℕ) (y : R) (answer : Answer R) : M :=
  ∑ i ∈ Finset.range n, answer.l i • gens.g i + ∑ i ∈ Finset.range n, answer.r i • (y ^ i)⁻¹ • gens.h i

/-- The numbers of two answers that count are the same. -/
structure Answer.Agrees (n : ℕ) (answer answer' : Answer R) : Prop where
  taux : answer.taux = answer'.taux
  mu : answer.mu = answer'.mu
  t : answer.t = answer'.t
  l : ∀ i < n, answer.l i = answer'.l i
  r : ∀ i < n, answer.r i = answer'.r i

omit [Field R] in
theorem Answer.Agrees.symm {answer answer' : Answer R} (agrees : answer.Agrees n answer') : answer'.Agrees n answer where
  taux := agrees.taux.symm
  mu := agrees.mu.symm
  t := agrees.t.symm
  l i inside := (agrees.l i inside).symm
  r i inside := (agrees.r i inside).symm

theorem Answer.Agrees.commitment {y : R} {answer answer' : Answer R} (agrees : answer.Agrees n answer') :
    answer.commitment gens n y = answer'.commitment gens n y := by
  refine congrArg₂ (· + ·) (Finset.sum_congr rfl fun i member => ?_) (Finset.sum_congr rfl fun i member => ?_)
  · rw [agrees.l i (Finset.mem_range.mp member)]
  · rw [agrees.r i (Finset.mem_range.mp member)]

/-- The equations that a verifier checks, with generators rescaled by the powers of `y`. -/
structure Accepts (gens : Generators M) (n : ℕ) (V A S T1 T2 : M) (x y z : R) (answer : Answer R) : Prop where
  number : answer.taux • gens.H + answer.t • gens.G =
    z ^ 2 • V + x • T1 + (x ^ 2 • T2 + delta n y z • gens.G)
  vectors : ∑ i ∈ Finset.range n, (-z) • gens.g i +
      ∑ i ∈ Finset.range n, (z * y ^ i + z ^ 2 * (2 : ℕ) ^ i) • (y ^ i)⁻¹ • gens.h i + A + x • S =
    answer.mu • gens.H + answer.commitment gens n y
  inner : ∑ i ∈ Finset.range n, answer.l i * answer.r i = answer.t

/-- The same equations for any element `C` in place of the commitment to both vectors. -/
structure Checks (gens : Generators M) (n : ℕ) (V A S T1 T2 C : M) (x y z : R) (answer : Answer R) : Prop where
  number : answer.taux • gens.H + answer.t • gens.G =
    z ^ 2 • V + x • T1 + (x ^ 2 • T2 + delta n y z • gens.G)
  vectors : ∑ i ∈ Finset.range n, (-z) • gens.g i +
      ∑ i ∈ Finset.range n, (z * y ^ i + z ^ 2 * (2 : ℕ) ^ i) • (y ^ i)⁻¹ • gens.h i + A + x • S = answer.mu • gens.H + C
  inner : ∑ i ∈ Finset.range n, answer.l i * answer.r i = answer.t

theorem checks_iff {V A S T1 T2 C : M} {x y z : R} {answer : Answer R} : Checks gens n V A S T1 T2 C x y z answer ↔
    (answer.taux • gens.H + answer.t • gens.G = z ^ 2 • V + x • T1 + (x ^ 2 • T2 + delta n y z • gens.G)) ∧
      (∑ i ∈ Finset.range n, (-z) • gens.g i + ∑ i ∈ Finset.range n, (z * y ^ i + z ^ 2 * 2 ^ i) • (y ^ i)⁻¹ • gens.h i +
          A + x • S = answer.mu • gens.H + C) ∧
      ∑ i ∈ Finset.range n, answer.l i * answer.r i = answer.t := by
  rw [← Nat.cast_ofNat (R := R) (n := 2)]
  exact ⟨fun checks => ⟨checks.number, checks.vectors, checks.inner⟩, fun ⟨number, vectors, inner⟩ =>
    ⟨number, vectors, inner⟩⟩

theorem accepts_iff_checks {V A S T1 T2 : M} {x y z : R} {answer : Answer R} :
    Accepts gens n V A S T1 T2 x y z answer ↔ Checks gens n V A S T1 T2 (answer.commitment gens n y) x y z answer :=
  ⟨fun accepts => ⟨accepts.number, accepts.vectors, accepts.inner⟩,
    fun checks => ⟨checks.number, checks.vectors, checks.inner⟩⟩

theorem Accepts.congr {V A S T1 T2 : M} {x y z : R} {answer answer' : Answer R} (agrees : answer'.Agrees n answer)
    (accepts : Accepts gens n V A S T1 T2 x y z answer) : Accepts gens n V A S T1 T2 x y z answer' := by
  refine ⟨?_, ?_, ?_⟩
  · rw [agrees.taux, agrees.t]
    exact accepts.number
  · rw [agrees.mu, agrees.commitment]
    exact accepts.vectors
  · rw [agrees.t, ← accepts.inner]
    refine Finset.sum_congr rfl fun i member => ?_
    rw [agrees.l i (Finset.mem_range.mp member), agrees.r i (Finset.mem_range.mp member)]

/-- What a prover answers who has committed to bits with `alpha` and to blinding vectors with `rho`, to the two coefficients
with `tau1` and `tau2` and to the number with `gamma`. -/
def Answer.honest (n : ℕ) (aL aR sL sR : ℕ → R) (alpha rho tau1 tau2 gamma x y z : R) : Answer R where
  taux := x ^ 2 * tau2 + (tau1 * x + z ^ 2 * gamma)
  mu := rho * x + alpha
  t := ∑ i ∈ Finset.range n, left aL sL x z i * right aR sR x y z i
  l := left aL sL x z
  r := right aR sR x y z

/-- An honest answer about bits is accepted if and only if the committed number does not differ from the one with these
bits by a number `d` that `G` shows. -/
theorem accepts_honest_iff {aL aR sL sR : ℕ → R} {alpha rho tau1 tau2 gamma x y z : R} (bits : Bits n aL aR)
    (nonzero : y ≠ 0) (d : R) :
    Accepts gens n ((∑ i ∈ Finset.range n, aL i * 2 ^ i + d) • gens.G + gamma • gens.H)
        (commit n alpha gens.H aL aR gens.g gens.h) (commit n rho gens.H sL sR gens.g gens.h)
        (t1 n aL aR sL sR y z • gens.G + tau1 • gens.H) (t2 n sL sR y • gens.G + tau2 • gens.H) x y z
        (.honest n aL aR sL sR alpha rho tau1 tau2 gamma x y z) ↔
      (z ^ 2 * d) • gens.G = 0 := by
  have scale : ∀ i < n, y ^ i • (y ^ i)⁻¹ • gens.h i = gens.h i := by
    intro i _
    rw [smul_smul, mul_inv_cancel₀ (pow_ne_zero i nonzero), one_smul]
  have vectors := commit_left_right aL aR sL sR x y z alpha rho gens.H (g := gens.g) scale
  have product := bits.inner_product sL sR x y z
  have difference : (x ^ 2 * tau2 + (tau1 * x + z ^ 2 * gamma)) • gens.H +
        (∑ i ∈ Finset.range n, left aL sL x z i * right aR sR x y z i) • gens.G + (z ^ 2 * d) • gens.G =
      z ^ 2 • ((∑ i ∈ Finset.range n, aL i * 2 ^ i + d) • gens.G + gamma • gens.H) +
        x • (t1 n aL aR sL sR y z • gens.G + tau1 • gens.H) +
        (x ^ 2 • (t2 n sL sR y • gens.G + tau2 • gens.H) + delta n y z • gens.G) := by
    rw [product]
    module
  rw [accepts_iff_checks, checks_iff]
  dsimp only [Answer.honest]
  rw [← difference, left_eq_add, and_iff_left]
  refine ⟨?_, rfl⟩
  calc _ = commit n alpha gens.H aL aR gens.g gens.h + x • commit n rho gens.H sL sR gens.g gens.h +
          ∑ i ∈ Finset.range n, (-z) • gens.g i +
          ∑ i ∈ Finset.range n, (z * y ^ i + z ^ 2 * 2 ^ i) • (y ^ i)⁻¹ • gens.h i := by abel
    _ = _ := vectors
    _ = _ := by rw [commit, add_assoc, Answer.commitment]

/-- The opening of `A + x • S` that an answer contains. -/
def Answer.opensVectors (answer : Answer R) (y z : R) : Combination R :=
  ((0, answer.mu), fun i => answer.l i + z, fun i => (y ^ i)⁻¹ * (answer.r i - z ^ 2 * (2 : ℕ) ^ i) - z)

/-- The opening of `z ^ 2 • V + x • T1 + x ^ 2 • T2` that an answer contains. -/
def Answer.opensNumber (n : ℕ) (answer : Answer R) (y z : R) : Combination R :=
  ((answer.t - delta n y z, answer.taux), 0, 0)

section Accepts

variable {V A S T1 T2 : M} {x y z : R} {answer : Answer R} (accepts : Accepts gens n V A S T1 T2 x y z answer)

include accepts

theorem Accepts.combine_opensNumber :
    gens.combine n (answer.opensNumber n y z) = z ^ 2 • V + x • T1 + x ^ 2 • T2 := by
  have number := accepts.number
  simp only [Generators.combine, commit, Answer.opensNumber, Pi.zero_apply, zero_smul, Finset.sum_const_zero, add_zero,
    sub_smul]
  calc answer.t • gens.G - delta n y z • gens.G + answer.taux • gens.H
    _ = answer.taux • gens.H + answer.t • gens.G - delta n y z • gens.G := by abel
    _ = _ := by
      rw [number]
      abel

theorem Accepts.combine_opensVectors (nonzero : y ≠ 0) :
    gens.combine n (answer.opensVectors y z) = A + x • S := by
  have vectors := accepts.vectors
  have lefts : ∑ i ∈ Finset.range n, (answer.l i + z) • gens.g i =
      ∑ i ∈ Finset.range n, answer.l i • gens.g i - ∑ i ∈ Finset.range n, (-z) • gens.g i := by
    rw [← Finset.sum_sub_distrib]
    exact Finset.sum_congr rfl fun i _ => by module
  have rights : ∑ i ∈ Finset.range n, ((y ^ i)⁻¹ * (answer.r i - z ^ 2 * (2 : ℕ) ^ i) - z) • gens.h i =
      ∑ i ∈ Finset.range n, answer.r i • (y ^ i)⁻¹ • gens.h i -
        ∑ i ∈ Finset.range n, (z * y ^ i + z ^ 2 * (2 : ℕ) ^ i) • (y ^ i)⁻¹ • gens.h i := by
    rw [← Finset.sum_sub_distrib]
    refine Finset.sum_congr rfl fun i _ => ?_
    have cancel : y ^ i * (y ^ i)⁻¹ = 1 := mul_inv_cancel₀ (pow_ne_zero i nonzero)
    rw [smul_smul, smul_smul, ← sub_smul]
    congr 1
    linear_combination z * cancel
  simp only [Generators.combine, commit, Answer.opensVectors, zero_smul, zero_add]
  rw [lefts, rights]
  calc _ = answer.mu • gens.H + answer.commitment gens n y - ∑ i ∈ Finset.range n, (-z) • gens.g i -
          ∑ i ∈ Finset.range n, (z * y ^ i + z ^ 2 * (2 : ℕ) ^ i) • (y ^ i)⁻¹ • gens.h i := by
        rw [Answer.commitment]
        abel
    _ = A + x • S := by
      rw [← vectors]
      abel

end Accepts

/-! ## Polynomials with enough values -/

/-- A polynomial that vanishes at as many elements as it has coefficients is zero. -/
theorem coefficients_eq_zero {root coeff : ℕ → R} (distinct : Set.InjOn root (Finset.range n))
    (zero : ∀ k < n, ∑ i ∈ Finset.range n, coeff i * root k ^ i = 0) {i : ℕ} (inside : i < n) : coeff i = 0 := by
  have injective : Function.Injective fun k : Fin n => root k := by
    intro k k' same
    exact Fin.ext (distinct (by simp) (by simp) same)
  have sums : ∀ k : Fin n, ∑ i : Fin n, coeff i * root k ^ (i : ℕ) = 0 := by
    intro k
    rw [← Finset.sum_range fun i => coeff i * root k ^ i]
    exact zero k k.isLt
  have vanishes := Matrix.eq_zero_of_forall_index_sum_mul_pow_eq_zero injective sums
  exact congrFun vanishes ⟨i, inside⟩

section ConstantTerm

variable {N : Type*} [AddCommGroup N] [Module R N] {x : ℕ → R}

/-- The constant term of the quadratic polynomial with the values `c` at the first three elements of `x`. -/
def constantTerm (x : ℕ → R) (c : ℕ → N) : N :=
  (x 1 * x 2 / ((x 0 - x 1) * (x 0 - x 2))) • c 0 + (x 0 * x 2 / ((x 1 - x 0) * (x 1 - x 2))) • c 1 +
    (x 0 * x 1 / ((x 2 - x 0) * (x 2 - x 1))) • c 2

theorem constantTerm_quadratic (distinct : Set.InjOn x (Finset.range 3)) (p q r : N) :
    constantTerm x (fun k => p + x k • q + x k ^ 2 • r) = p := by
  have apart : ∀ {i j : ℕ}, i < 3 → j < 3 → i ≠ j → x i - x j ≠ 0 := fun first second other =>
    sub_ne_zero.mpr fun same => other (distinct (by simpa using first) (by simpa using second) same)
  have d₀₁ : x 0 - x 1 ≠ 0 := apart (by decide) (by decide) (by decide)
  have d₀₂ : x 0 - x 2 ≠ 0 := apart (by decide) (by decide) (by decide)
  have d₁₀ : x 1 - x 0 ≠ 0 := apart (by decide) (by decide) (by decide)
  have d₁₂ : x 1 - x 2 ≠ 0 := apart (by decide) (by decide) (by decide)
  have d₂₀ : x 2 - x 0 ≠ 0 := apart (by decide) (by decide) (by decide)
  have d₂₁ : x 2 - x 1 ≠ 0 := apart (by decide) (by decide) (by decide)
  rw [constantTerm]
  match_scalars
  all_goals
    field_simp
    ring

end ConstantTerm

theorem Generators.combine_constantTerm (gens : Generators M) (n : ℕ) (x : ℕ → R) (c : ℕ → Combination R) :
    gens.combine n (constantTerm x c) = constantTerm x fun k => gens.combine n (c k) := by
  simp only [constantTerm, combine_add, combine_smul]

/-! ## Trees of answers -/

/-- The challenges to a prover with the same `V`, `A` and `S`, and what it sends after each of them: `T1` and `T2` after `y`
and `z`, and an answer after `x`. The challenges `z` belong to one of `y`, those of `x` to one of `y` and one of `z`. -/
structure Tree (R M : Type*) where
  V : M
  A : M
  S : M
  y : ℕ → R
  z : ℕ → ℕ → R
  T1 : ℕ → ℕ → M
  T2 : ℕ → ℕ → M
  x : ℕ → ℕ → ℕ → R
  answer : ℕ → ℕ → ℕ → Answer R

namespace Tree

variable (tree : Tree R M)

/-- There are `n` challenges `y`, three `z` for each of them and three `x` for each of these. -/
structure Fresh (tree : Tree R M) (n : ℕ) : Prop where
  y : Set.InjOn tree.y (Finset.range n)
  z : ∀ i < n, Set.InjOn (tree.z i) (Finset.range 3)
  x : ∀ i < n, ∀ j < 3, Set.InjOn (tree.x i j) (Finset.range 3)
  y_ne_zero : ∀ i < n, tree.y i ≠ 0
  z_ne_zero : tree.z 0 0 ≠ 0

/-- The verifier accepts every answer. -/
def Accepted (gens : Generators M) (n : ℕ) (tree : Tree R M) : Prop := ∀ i < n, ∀ j < 3, ∀ k < 3,
  Accepts gens n tree.V tree.A tree.S (tree.T1 i j) (tree.T2 i j) (tree.x i j k) (tree.y i) (tree.z i j) (tree.answer i j k)

/-- The opening of `A + x • S` in an answer. -/
def opensVectors (i j k : ℕ) : Combination R := (tree.answer i j k).opensVectors (tree.y i) (tree.z i j)

/-- The opening of `S`, by the first two answers. -/
def openS : Combination R := (tree.x 0 0 0 - tree.x 0 0 1)⁻¹ • (tree.opensVectors 0 0 0 - tree.opensVectors 0 0 1)

/-- The opening of `A`, by the first two answers. -/
def openA : Combination R := tree.opensVectors 0 0 0 - tree.x 0 0 0 • tree.openS

/-- The opening of `z ^ 2 • V`, by the three answers after the same `z`. -/
def opensNumber (n i j : ℕ) : Combination R :=
  constantTerm (tree.x i j) fun k => (tree.answer i j k).opensNumber n (tree.y i) (tree.z i j)

/-- The opening of `V`, by the first three answers. -/
def openV (n : ℕ) : Combination R := (tree.z 0 0 ^ 2)⁻¹ • tree.opensNumber n 0 0

/-- The two openings of `A + x • S` differ by this. -/
def vectorRelation (i j k : ℕ) : Combination R :=
  tree.opensVectors i j k - (tree.openA + tree.x i j k • tree.openS)

/-- The two openings of `z ^ 2 • V` differ by this. -/
def numberRelation (n i j : ℕ) : Combination R := tree.opensNumber n i j - tree.z i j ^ 2 • tree.openV n

/-- The relations between the generators that are computed from the answers. -/
def relations (n : ℕ) : List (Combination R) :=
  (List.range n).flatMap fun i => (List.range 3).flatMap fun j =>
    tree.numberRelation n i j :: (List.range 3).map (tree.vectorRelation i j)

variable {tree}

section Openings

variable (fresh : tree.Fresh n) (accepted : tree.Accepted gens n)

include fresh accepted

theorem combine_opensVectors {i j k : ℕ} (first : i < n) (second : j < 3) (third : k < 3) :
    gens.combine n (tree.opensVectors i j k) = tree.A + tree.x i j k • tree.S :=
  (accepted i first j second k third).combine_opensVectors (fresh.y_ne_zero i first)

theorem combine_openS (positive : 0 < n) : gens.combine n tree.openS = tree.S := by
  have distinct := fresh.x 0 positive 0 (by decide)
  have apart : tree.x 0 0 0 - tree.x 0 0 1 ≠ 0 :=
    sub_ne_zero.mpr fun same => absurd (distinct (by simp) (by simp) same) (by decide)
  rw [openS, Generators.combine_smul, Generators.combine_sub,
    combine_opensVectors fresh accepted positive (by decide) (by decide),
    combine_opensVectors fresh accepted positive (by decide) (by decide), add_sub_add_left_eq_sub, ← sub_smul, smul_smul,
    inv_mul_cancel₀ apart, one_smul]

theorem combine_openA (positive : 0 < n) : gens.combine n tree.openA = tree.A := by
  rw [openA, Generators.combine_sub, Generators.combine_smul, combine_openS fresh accepted positive,
    combine_opensVectors fresh accepted positive (by decide) (by decide), add_sub_cancel_right]

theorem combine_opensNumber {i j : ℕ} (first : i < n) (second : j < 3) :
    gens.combine n (tree.opensNumber n i j) = tree.z i j ^ 2 • tree.V := by
  have points : ∀ k < 3, gens.combine n ((tree.answer i j k).opensNumber n (tree.y i) (tree.z i j)) =
      tree.z i j ^ 2 • tree.V + tree.x i j k • tree.T1 i j + tree.x i j k ^ 2 • tree.T2 i j := fun k third =>
    (accepted i first j second k third).combine_opensNumber
  have value := constantTerm_quadratic (fresh.x i first j second) (tree.z i j ^ 2 • tree.V) (tree.T1 i j) (tree.T2 i j)
  rw [opensNumber, Generators.combine_constantTerm, ← value]
  simp only [constantTerm, points 0 (by decide), points 1 (by decide), points 2 (by decide)]

theorem combine_openV (positive : 0 < n) : gens.combine n (tree.openV n) = tree.V := by
  rw [openV, Generators.combine_smul, combine_opensNumber fresh accepted positive (by decide), smul_smul,
    inv_mul_cancel₀ (pow_ne_zero 2 fresh.z_ne_zero), one_smul]

/-- Every computed relation holds between the generators. -/
theorem combine_of_mem_relations {c : Combination R} (member : c ∈ tree.relations n) : gens.combine n c = 0 := by
  simp only [relations, List.mem_flatMap, List.mem_range, List.mem_cons, List.mem_map] at member
  obtain ⟨i, first, j, second, rfl | ⟨k, third, rfl⟩⟩ := member
  · rw [numberRelation, Generators.combine_sub, Generators.combine_smul, combine_opensNumber fresh accepted first second,
      combine_openV fresh accepted (Nat.zero_lt_of_lt first), sub_self]
  · rw [vectorRelation, Generators.combine_sub, Generators.combine_add, Generators.combine_smul,
      combine_opensVectors fresh accepted first second third, combine_openA fresh accepted (Nat.zero_lt_of_lt first),
      combine_openS fresh accepted (Nat.zero_lt_of_lt first), sub_self]

end Openings

/-! ## The extracted bits -/

omit [AddCommGroup M] [Module R M] in
/-- Bits are those of a number. -/
theorem exists_nat_of_bits {b : ℕ → R} (bits : ∀ i < n, b i = 0 ∨ b i = 1) :
    ∃ m : ℕ, m < 2 ^ n ∧ ∑ i ∈ Finset.range n, b i * 2 ^ i = (m : R) := by
  induction n with
  | zero => exact ⟨0, by simp, by simp⟩
  | succ n ih =>
    obtain ⟨m, small, value⟩ := ih fun i inside => bits i (by omega)
    rw [Finset.sum_range_succ, value, pow_succ]
    rcases bits n (by omega) with zero | one
    · exact ⟨m, by omega, by rw [zero]; ring⟩
    · exact ⟨m + 2 ^ n, by omega, by rw [one]; push_cast; ring⟩

section Bits

variable (accepted : tree.Accepted gens n) (trivial : ∀ c ∈ tree.relations n, Trivial n c)

include trivial

omit [AddCommGroup M] [Module R M] in
private theorem trivial_vectorRelation {i j k : ℕ} (first : i < n) (second : j < 3) (third : k < 3) :
    Trivial n (tree.vectorRelation i j k) := by
  apply trivial
  simp only [relations, List.mem_flatMap, List.mem_range, List.mem_cons, List.mem_map]
  exact ⟨i, first, j, second, .inr ⟨k, third, rfl⟩⟩

omit [AddCommGroup M] [Module R M] in
private theorem trivial_numberRelation {i j : ℕ} (first : i < n) (second : j < 3) :
    Trivial n (tree.numberRelation n i j) := by
  apply trivial
  simp only [relations, List.mem_flatMap, List.mem_range, List.mem_cons]
  exact ⟨i, first, j, second, .inl rfl⟩

variable {i j k m : ℕ} (first : i < n) (second : j < 3)

include first second

omit [AddCommGroup M] [Module R M] in
/-- The left vectors of all answers come from the opened ones. -/
private theorem answer_l (third : k < 3) (inside : m < n) :
    (tree.answer i j k).l m = left tree.openA.2.1 tree.openS.2.1 (tree.x i j k) (tree.z i j) m := by
  have zero := (trivial_vectorRelation trivial first second third).g m inside
  simp only [vectorRelation, opensVectors, Answer.opensVectors, Prod.fst_add, Prod.snd_add, Prod.fst_sub, Prod.snd_sub,
    Prod.smul_fst, Prod.smul_snd, Pi.add_apply, Pi.sub_apply, Pi.smul_apply, smul_eq_mul] at zero
  rw [left]
  linear_combination zero

omit [AddCommGroup M] [Module R M] in
/-- The right vectors of all answers come from the opened ones. -/
private theorem answer_r (nonzero : tree.y i ≠ 0) (third : k < 3) (inside : m < n) :
    (tree.answer i j k).r m = right tree.openA.2.2 tree.openS.2.2 (tree.x i j k) (tree.y i) (tree.z i j) m := by
  have zero := (trivial_vectorRelation trivial first second third).h m inside
  simp only [vectorRelation, opensVectors, Answer.opensVectors, Prod.snd_add, Prod.snd_sub,
    Prod.smul_snd, Pi.add_apply, Pi.sub_apply, Pi.smul_apply, smul_eq_mul] at zero
  have cancel : tree.y i ^ m * (tree.y i ^ m)⁻¹ = 1 := mul_inv_cancel₀ (pow_ne_zero m nonzero)
  rw [right]
  linear_combination tree.y i ^ m * zero -
    ((tree.answer i j k).r m - tree.z i j ^ 2 * (2 : ℕ) ^ m) * cancel

end Bits

/-- The constant term of the inner product without the part that does not depend on the vectors, as a polynomial in `z`. -/
private theorem constant_sub_delta (aL aR : ℕ → R) (y z : R) :
    ∑ i ∈ Finset.range n, (aL i - z) * (y ^ i * (aR i + z) + z ^ 2 * 2 ^ i) - delta n y z =
      ∑ i ∈ Finset.range n, aL i * aR i * y ^ i + z * ∑ i ∈ Finset.range n, (aL i - aR i - 1) * y ^ i +
        z ^ 2 * ∑ i ∈ Finset.range n, aL i * 2 ^ i := by
  simp only [delta_eq_sums, Finset.mul_sum, ← Finset.sum_add_distrib, ← Finset.sum_sub_distrib]
  exact Finset.sum_congr rfl fun i _ => by ring

section Extraction

variable (fresh : tree.Fresh n) (accepted : tree.Accepted gens n) (trivial : ∀ c ∈ tree.relations n, Trivial n c)

include fresh accepted trivial

/-- At each pair of challenges the polynomial in `z` is the opened number times the square of `z`. -/
private theorem opened_number {i j : ℕ} (first : i < n) (second : j < 3) :
    ∑ m ∈ Finset.range n, tree.openA.2.1 m * tree.openA.2.2 m * tree.y i ^ m +
        tree.z i j * ∑ m ∈ Finset.range n, (tree.openA.2.1 m - tree.openA.2.2 m - 1) * tree.y i ^ m +
        tree.z i j ^ 2 * ∑ m ∈ Finset.range n, tree.openA.2.1 m * 2 ^ m =
      tree.z i j ^ 2 * (tree.openV n).1.1 := by
  have nonzero := fresh.y_ne_zero i first
  obtain ⟨constant, spelled⟩ : ∃ constant, constant = ∑ m ∈ Finset.range n, (tree.openA.2.1 m - tree.z i j) *
      (tree.y i ^ m * (tree.openA.2.2 m + tree.z i j) + tree.z i j ^ 2 * 2 ^ m) := ⟨_, rfl⟩
  have products : ∀ k < 3, (tree.answer i j k).t - delta n (tree.y i) (tree.z i j) =
      (constant - delta n (tree.y i) (tree.z i j)) +
        tree.x i j k • t1 n tree.openA.2.1 tree.openA.2.2 tree.openS.2.1 tree.openS.2.2 (tree.y i) (tree.z i j) +
        tree.x i j k ^ 2 • t2 n tree.openS.2.1 tree.openS.2.2 (tree.y i) := by
    intro k third
    rw [← (accepted i first j second k third).inner, spelled, t1_eq, t2, smul_eq_mul, smul_eq_mul, Finset.mul_sum,
      Finset.mul_sum, add_assoc, sub_add_eq_add_sub, ← Finset.sum_add_distrib, ← Finset.sum_add_distrib]
    congr 1
    refine Finset.sum_congr rfl fun m member => ?_
    have inside := Finset.mem_range.mp member
    rw [answer_l trivial first second third inside, answer_r trivial first second nonzero third inside, left, right_eq]
    ring
  have quadratic := constantTerm_quadratic (fresh.x i first j second) (constant - delta n (tree.y i) (tree.z i j))
    (t1 n tree.openA.2.1 tree.openA.2.2 tree.openS.2.1 tree.openS.2.2 (tree.y i) (tree.z i j))
    (t2 n tree.openS.2.1 tree.openS.2.2 (tree.y i))
  have zero := (trivial_numberRelation trivial first second).G
  have opened : (tree.opensNumber n i j).1.1 = constant - delta n (tree.y i) (tree.z i j) := by
    rw [← quadratic]
    simp only [opensNumber, constantTerm, Answer.opensNumber, Prod.fst_add, Prod.smul_fst, products 0 (by decide),
      products 1 (by decide), products 2 (by decide)]
  have same : (tree.opensNumber n i j).1.1 - tree.z i j ^ 2 * (tree.openV n).1.1 = 0 := zero
  rw [← constant_sub_delta, ← spelled, ← opened]
  exact sub_eq_zero.mp same

/-- The three coefficients of the polynomials in `z` vanish at every `y`. -/
private theorem opened_sums {i : ℕ} (first : i < n) :
    ∑ m ∈ Finset.range n, tree.openA.2.1 m * tree.openA.2.2 m * tree.y i ^ m = 0 ∧
      ∑ m ∈ Finset.range n, (tree.openA.2.1 m - tree.openA.2.2 m - 1) * tree.y i ^ m = 0 ∧
      ∑ m ∈ Finset.range n, tree.openA.2.1 m * 2 ^ m = (tree.openV n).1.1 := by
  obtain ⟨coeff, coeff₀, coeff₁, coeff₂⟩ : ∃ coeff : ℕ → R,
      coeff 0 = ∑ m ∈ Finset.range n, tree.openA.2.1 m * tree.openA.2.2 m * tree.y i ^ m ∧
      coeff 1 = ∑ m ∈ Finset.range n, (tree.openA.2.1 m - tree.openA.2.2 m - 1) * tree.y i ^ m ∧
      coeff 2 = ∑ m ∈ Finset.range n, tree.openA.2.1 m * 2 ^ m - (tree.openV n).1.1 :=
    ⟨fun | 0 => _ | 1 => _ | _ => _, rfl, rfl, rfl⟩
  have roots : ∀ j < 3, ∑ m ∈ Finset.range 3, coeff m * tree.z i j ^ m = 0 := by
    intro j second
    have number := opened_number fresh accepted trivial first second
    simp only [Finset.sum_range_succ, Finset.sum_range_zero, coeff₀, coeff₁, coeff₂]
    linear_combination number
  have zero : ∀ m < 3, coeff m = 0 := fun m inside => coefficients_eq_zero (fresh.z i first) roots inside
  rw [← coeff₀, ← coeff₁]
  exact ⟨zero 0 (by decide), zero 1 (by decide), sub_eq_zero.mp (coeff₂ ▸ zero 2 (by decide))⟩

/-- The opened left vector consists of bits. -/
theorem openA_bits {m : ℕ} (inside : m < n) : tree.openA.2.1 m = 0 ∨ tree.openA.2.1 m = 1 := by
  have disjoint := coefficients_eq_zero fresh.y (fun i first => (opened_sums fresh accepted trivial first).1) inside
  have shifted := coefficients_eq_zero fresh.y (fun i first => (opened_sums fresh accepted trivial first).2.1) inside
  have product : tree.openA.2.1 m * (tree.openA.2.1 m - 1) = 0 := by
    linear_combination disjoint + tree.openA.2.1 m * shifted
  rcases mul_eq_zero.mp product with zero | one
  · exact .inl zero
  · exact .inr (sub_eq_zero.mp one)

/-- The point `V` is a commitment to the number with these bits. -/
theorem open_V (positive : 0 < n) :
    tree.V = (∑ m ∈ Finset.range n, tree.openA.2.1 m * 2 ^ m) • gens.G + (tree.openV n).1.2 • gens.H := by
  have point := combine_openV fresh accepted positive
  rw [(opened_sums fresh accepted trivial positive).2.2, ← point]
  simp [Generators.combine, commit, openV, opensNumber, constantTerm, Answer.opensNumber]

end Extraction

/-- Unless a relation that is computed from the answers is nontrivial, the answers contain the bits of a number and the
blinding of a commitment to it. -/
theorem extract (fresh : tree.Fresh n) (accepted : tree.Accepted gens n) (positive : 0 < n) :
    (∃ c ∈ tree.relations n, gens.combine n c = 0 ∧ ¬ Trivial n c) ∨
      (∀ m < n, tree.openA.2.1 m = 0 ∨ tree.openA.2.1 m = 1) ∧
        tree.V = (∑ m ∈ Finset.range n, tree.openA.2.1 m * 2 ^ m) • gens.G + (tree.openV n).1.2 • gens.H := by
  by_cases trivial : ∀ c ∈ tree.relations n, Trivial n c
  · exact .inr ⟨fun m inside => openA_bits fresh accepted trivial inside, open_V fresh accepted trivial positive⟩
  · push Not at trivial
    obtain ⟨c, member, nontrivial⟩ := trivial
    exact .inl ⟨c, member, combine_of_mem_relations fresh accepted member, nontrivial⟩

end Tree

end Field

end RangeArgument
