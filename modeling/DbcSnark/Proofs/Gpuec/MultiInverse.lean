import DbcSnark.Model.Gpuec.MultiInverse
import DbcSnark.Proofs.Gpuec.Inversion
import DbcSnark.Proofs.Gpuec.Point

/-! # Correctness of the inversion of many numbers

The first loop leaves the products of the numbers up to each index. The second one goes down with the inverse of the
product up to the index, takes the inverse of the number out of it and multiplies the number in.
-/

namespace DbcSnark.Gpuec

namespace Arithmetic

variable {W : Type}

/-- The operations compute in the field `K`: `Mont` relates words to the residues they hold in Montgomery form, `Plain`
to those they hold as they are. Writing a number touches `size` words. -/
structure Models (F : Arithmetic W) (K : Type) [Field K] (size : ℕ) (Mont Plain : W → K → Prop) : Prop where
  mul : ∀ {v w a b}, Mont v a → Mont w b → Mont (F.monmult v w) (a * b)
  toPlain : ∀ {v a}, Mont v a → Plain (F.monmult v F.dc_ONE) a
  inv : ∀ {v a}, Plain v a → a ≠ 0 → ∃ w, F.moninv v = some w ∧ Mont w a⁻¹
  same : ∀ {m i v a}, Mont v a → F.read (F.write m i v) i = v
  apart : ∀ {m i j v a}, Mont v a → i + size ≤ j ∨ j + size ≤ i → F.read (F.write m i v) j = F.read m j
  outside : ∀ {m i k v a}, Mont v a → k < i ∨ i + size ≤ k → F.write m i v k = m k

section Trick

variable {F : Arithmetic W} {K : Type} [Field K] {size : ℕ} {Mont Plain : W → K → Prop} (models : F.Models K size Mont Plain)
  (fits : size ≤ 8) {m : Ram} {x n : ℕ} {a : ℕ → K} (holds : ∀ i < n, Mont (F.read m (x + i * 8)) (a i))
include models holds

/-- The products of the numbers up to each index. -/
theorem prefixes_spec : ∀ i < n, Mont (F.prefixes m x n i) (∏ j ∈ Finset.range (i + 1), a j) := by
  have loop : ∀ k < n, ∀ i ≤ k, Mont ((List.range k).foldl (fun invlj j =>
      Function.update invlj (j + 1) (F.monmult (invlj j) (F.read m (x + (j + 1) * 8)))) (fun _ => F.read m x) i)
      (∏ j ∈ Finset.range (i + 1), a j) := by
    intro k inside
    induction k with
    | zero =>
      intro i first
      obtain rfl := Nat.le_zero.mp first
      have first := holds 0 inside
      rw [Nat.zero_mul, Nat.add_zero] at first
      rw [Finset.prod_range_one]
      exact first
    | succ k ih =>
      intro i below
      have before := ih (Nat.lt_of_succ_lt inside)
      rw [List.range_succ, List.foldl_append, List.foldl_cons, List.foldl_nil]
      rcases Nat.lt_or_eq_of_le below with less | rfl
      · rw [Function.update_of_ne less.ne]
        exact before i (Nat.le_of_lt_succ less)
      · rw [Function.update_self, Finset.prod_range_succ]
        exact models.mul (before k le_rfl) (holds (k + 1) inside)
  intro i inside
  exact loop (n - 1) (by omega) i (by omega)

omit holds

/-- What holds when the indices above `k` are done. -/
structure Done (F : Arithmetic W) (Mont : W → K → Prop) (size : ℕ) (m : Ram) (x n : ℕ) (a : ℕ → K) (k : ℕ) (s : Walk W) :
    Prop where
  products : ∀ i ≤ k, Mont (s.invlj i) (∏ j ∈ Finset.range (i + 1), a j)
  inverse : Mont s.lmd (∏ j ∈ Finset.range (k + 1), a j)⁻¹
  before : ∀ i ≤ k, F.read s.ram (x + i * 8) = F.read m (x + i * 8)
  after : ∀ i, k < i → i < n → Mont (F.read s.ram (x + i * 8)) (a i)⁻¹
  frame : ∀ c, (∀ i < n, c < x + i * 8 ∨ x + i * 8 + size ≤ c) → s.ram c = m c

include fits holds

theorem Done.back (nonzero : ∀ i < n, a i ≠ 0) {k : ℕ} {s : Walk W} (inside : k + 1 < n)
    (done : Done F Mont size m x n a (k + 1) s) :
    Done F Mont size m x n a k (F.back x s (k + 1)) := by
  obtain ⟨products, inverse, before, after, frame⟩ := done
  have product : ∏ j ∈ Finset.range (k + 1), a j ≠ 0 :=
    Finset.prod_ne_zero_iff.mpr fun j member => nonzero j (by rw [Finset.mem_range] at member; omega)
  have split := Finset.prod_range_succ a (k + 1)
  have single := nonzero (k + 1) inside
  have taken : Mont (F.monmult (s.invlj k) s.lmd) (a (k + 1))⁻¹ := by
    have quotient := models.mul (products k (Nat.le_succ k)) inverse
    rwa [split, mul_inv, mul_inv_cancel_left₀ product] at quotient
  have rest : Mont (F.monmult (F.read s.ram (x + (k + 1) * 8)) s.lmd) (∏ j ∈ Finset.range (k + 1), a j)⁻¹ := by
    have quotient := models.mul (holds (k + 1) inside) inverse
    rwa [← before (k + 1) le_rfl, split, mul_inv_rev, mul_inv_cancel_left₀ single] at quotient
  have written : (F.back x s (k + 1)).ram = F.write s.ram (x + (k + 1) * 8) (F.monmult (s.invlj k) s.lmd) := by
    rw [Arithmetic.back, Function.update_self, Nat.add_sub_cancel]
  refine ⟨fun i below => ?_, rest, fun i below => ?_, fun i above less => ?_, fun c outside => ?_⟩
  · rw [Arithmetic.back]
    dsimp only
    rw [Function.update_of_ne (by omega)]
    exact products i (Nat.le_succ_of_le below)
  · rw [written, models.apart taken (by omega), before i (Nat.le_succ_of_le below)]
  · rw [written]
    rcases Nat.lt_or_eq_of_le (Nat.succ_le_of_lt above) with more | rfl
    · rw [models.apart taken (by omega)]
      exact after i more less
    · rw [models.same taken]
      exact taken
  · rw [written, models.outside taken (outside (k + 1) inside)]
    exact frame c outside

theorem Done.walk (nonzero : ∀ i < n, a i ≠ 0) {k : ℕ} {s : Walk W} (inside : k < n) (done : Done F Mont size m x n a k s) :
    Done F Mont size m x n a 0 (F.walk x k s) := by
  induction k generalizing s with
  | zero => exact done
  | succ k ih =>
    rw [Arithmetic.walk, List.range_succ, List.reverse_append, List.reverse_singleton, List.singleton_append,
      List.foldl_cons]
    exact ih (Nat.lt_of_succ_lt inside) (done.back models fits holds nonzero inside)

/-- Every number is replaced by its inverse, and nothing else is written. -/
theorem multi_inverse_spec (nonzero : ∀ i < n, a i ≠ 0) (some : 0 < n) : ∃ m', F.multi_inverse n m x = .some m' ∧
    (∀ i < n, Mont (F.read m' (x + i * 8)) (a i)⁻¹) ∧
    ∀ c, (∀ i < n, c < x + i * 8 ∨ x + i * 8 + size ≤ c) → m' c = m c := by
  have products := prefixes_spec models holds
  have whole := products (n - 1) (by omega)
  have product : ∏ j ∈ Finset.range (n - 1 + 1), a j ≠ 0 :=
    Finset.prod_ne_zero_iff.mpr fun j member => nonzero j (by rw [Finset.mem_range] at member; omega)
  obtain ⟨lmd, found, inverse⟩ := models.inv (models.toPlain whole) product
  have done := Done.walk models fits holds nonzero (k := n - 1) (s := ⟨m, F.prefixes m x n, lmd⟩) (by omega)
    ⟨fun i below => products i (by omega), inverse, fun _ _ => rfl, fun i above less => by omega, fun _ _ => rfl⟩
  have last := done.inverse
  rw [Finset.prod_range_one] at last
  rw [multi_inverse]
  simp only [found, Option.bind_eq_bind, Option.bind_some]
  refine ⟨_, rfl, fun i inside => ?_, fun c outside => ?_⟩
  · rcases Nat.eq_zero_or_pos i with rfl | above
    · rw [Nat.zero_mul, Nat.add_zero, models.same last]
      exact last
    · rw [models.apart last (by omega)]
      exact done.after i above inside
  · rw [models.outside last (by simpa using outside 0 some)]
    exact done.frame c outside

end Trick

/-- One value of the inversion decides the result. -/
theorem multi_inverse_single (F : Arithmetic W) (n : ℕ) (m : Ram) (x : ℕ) :
    ∃ v, ∀ inv : W → Option W, inv v = F.moninv v → { F with moninv := inv }.multi_inverse n m x =
      F.multi_inverse n m x := by
  refine ⟨F.monmult (F.prefixes m x n (n - 1)) F.dc_ONE, fun inv same => ?_⟩
  rw [multi_inverse, multi_inverse, ← same]
  rfl

end Arithmetic

/-! ## The two builds -/

private theorem narrow_monmult : narrow.monmult = modP.monmult := by
  rw [narrow, dh_mybig_monmult_64]

private theorem narrow_moninv : narrow.moninv = modP.moninv := by
  rw [narrow, dh_mybig_moninv]

private theorem narrow_ONE : narrow.dc_ONE = ⟨1, 0, 0, 0⟩ := by
  rw [narrow, dc_ONE]

theorem narrow_models : narrow.Models modP.Residue 4 modP.Mont modP.Plain where
  mul left right := by
    rw [narrow_monmult]
    exact left.mul right
  toPlain holds := by
    rw [narrow_monmult, narrow_ONE]
    exact holds.toPlain
  inv holds nonzero := by
    rw [narrow_moninv]
    exact holds.moninv nonzero
  same _ := Ram.big_putBig _ _ _
  apart _ apart := Ram.big_putBig_of_apart (by omega)
  outside _ outside := Ram.putBig_of_outside _ _ _ outside

namespace Wide

/-- The weight of the words, as a residue. -/
def weight : ZMod (value Pa) := (radix Pa.length : ℕ)

/-- The words are reduced and hold the residue in Montgomery form. -/
structure Mont (v : List UInt64) (a : ZMod (value Pa)) : Prop where
  length : v.length = 8
  reduced : value v < value Pa
  value : (Wide.value v : ZMod (Wide.value Pa)) = a * weight

/-- The words are reduced and hold the residue as it is. -/
structure Plain (v : List UInt64) (a : ZMod (value Pa)) : Prop where
  length : v.length = 8
  reduced : value v < value Pa
  value : (Wide.value v : ZMod (Wide.value Pa)) = a

theorem weight_ne_zero : weight ≠ 0 := by
  have odd : Nat.Coprime 2 (value Pa) := Nat.coprime_two_left.mpr (Nat.odd_iff.mpr (by decide))
  exact ((ZMod.isUnit_iff_coprime (radix Pa.length) (value Pa)).mpr (Nat.Coprime.pow_left _ odd)).ne_zero

theorem exists_mont {v : List UInt64} (length : v.length = 8) (reduced : value v < value Pa) : ∃ a, Mont v a :=
  ⟨value v * weight⁻¹, length, reduced, (inv_mul_cancel_right₀ weight_ne_zero _).symm⟩

/-- A product of words, with the radix multiplied back. -/
private theorem cast_product {v w : List UInt64} (left : v.length = 8) (right : w.length = 8)
    (reduced : value v < value Pa) :
    (quotientWords Pa 1 v w).length = 8 ∧ value (quotientWords Pa 1 v w) < value Pa ∧
      (value (quotientWords Pa 1 v w) : ZMod (value Pa)) * weight = value v * value w := by
  have inverse : (1 : UInt64) * Pa.headD 0 + 1 = 0 := by decide
  have quotient := isQuotient inverse left right (.inl reduced)
  have cast := (ZMod.natCast_eq_natCast_iff _ _ _).mpr quotient.product
  rw [Nat.cast_mul, Nat.cast_mul] at cast
  exact ⟨length_quotientWords inverse left, quotient.reduced, cast⟩

theorem Mont.mul {v w : List UInt64} {a b : ZMod (Wide.value Pa)} (left : Mont v a) (right : Mont w b) :
    Mont (quotientWords Pa 1 v w) (a * b) := by
  obtain ⟨length, reduced, product⟩ := cast_product left.length right.length left.reduced
  refine ⟨length, reduced, mul_right_cancel₀ weight_ne_zero ?_⟩
  rw [product, left.value, right.value]
  ring

theorem Mont.toPlain {v : List UInt64} {a : ZMod (Wide.value Pa)} (holds : Mont v a) :
    Plain (quotientWords Pa 1 v [1, 0, 0, 0, 0, 0, 0, 0]) a := by
  obtain ⟨length, reduced, product⟩ := cast_product (w := [1, 0, 0, 0, 0, 0, 0, 0]) holds.length rfl holds.reduced
  refine ⟨length, reduced, mul_right_cancel₀ weight_ne_zero ?_⟩
  rw [product, holds.value, show Wide.value [1, 0, 0, 0, 0, 0, 0, 0] = 1 from rfl, Nat.cast_one, mul_one]

theorem Plain.moninv {v : List UInt64} {a : ZMod (Wide.value Pa)} (holds : Plain v a) (nonzero : a ≠ 0) :
    ∃ w, dh_mybig_moninv v = some w ∧ Mont w a⁻¹ := by
  have coprime : (Wide.value Pa).Coprime (Wide.value v) := by
    rw [(Fact.out : (Wide.value Pa).Prime).coprime_iff_not_dvd, ← ZMod.natCast_eq_zero_iff, holds.value]
    exact nonzero
  obtain ⟨w, found, length, reduced, product⟩ := moninv_spec (show (1 : UInt64) * Pa.headD 0 + 1 = 0 by decide)
    (Fact.out : (Wide.value Pa).Prime).one_lt high_Pa (fun _ length reduced => quotientWords_mon_ONE length reduced)
    holds.length holds.reduced coprime
  have cast := (ZMod.natCast_eq_natCast_iff _ _ _).mpr product
  rw [Nat.cast_mul, holds.value] at cast
  refine ⟨w, found, length, reduced, ?_⟩
  exact (eq_inv_mul_iff_mul_eq₀ nonzero).mpr cast

end Wide

theorem wide_models : wide.Models (ZMod (Wide.value Wide.Pa)) 8 Wide.Mont Wide.Plain where
  mul left right := left.mul right
  toPlain holds := holds.toPlain
  inv holds nonzero := holds.moninv nonzero
  same {m i v a} holds := by
    have words := m.words_putWords i v
    rwa [holds.length] at words
  apart {m i j v a} holds apart := by
    refine List.map_congr_left fun k member => ?_
    rw [List.mem_range'_1] at member
    exact m.putWords_of_outside i v (by rw [holds.length]; omega)
  outside {m i k v a} holds outside := m.putWords_of_outside i v (by rwa [holds.length])

/-- What the inversion of `PARAL` numbers below the modulus `P`, each of `n` words and at every eighth word, is to do. -/
structure BatchInverts {W : Type} (F : Arithmetic W) (n P : ℕ) (number : W → ℕ) (invert : Ram → ℕ → Option Ram) :
    Prop where
  inverse : ∀ (m : Ram) (x : ℕ), (∀ i < PARAL, 0 < number (F.read m (x + i * 8)) ∧ number (F.read m (x + i * 8)) < P) →
    ∃ m', invert m x = some m' ∧
      (∀ i < PARAL, number (F.read m' (x + i * 8)) < P ∧
        number (F.read m (x + i * 8)) * number (F.read m' (x + i * 8)) ≡ Wide.radix n * Wide.radix n [MOD P]) ∧
      ∀ c, (∀ i < PARAL, c < x + i * 8 ∨ x + i * 8 + n ≤ c) → m' c = m c
  /-- One value of the inversion decides the result. -/
  single : ∀ (m : Ram) (x : ℕ), ∃ v, ∀ inv : W → Option W, inv v = F.moninv v →
    { F with moninv := inv }.multi_inverse PARAL m x = invert m x

private theorem narrow_inverts : BatchInverts narrow 4 modP.Pa.toNat Big.toNat Ram.d_multi_inverse where
  single m x := narrow.multi_inverse_single PARAL m x
  inverse m x numbers := by
    have residues : ∀ i < PARAL, ∃ a, modP.Mont (narrow.read m (x + i * 8)) a :=
      fun i inside => Modulus.exists_mont (numbers i inside).2
    choose! a holds using residues
    have nonzero : ∀ i < PARAL, a i ≠ 0 := by
      intro i inside zero
      have none := (Big.iszero_iff _).mp ((holds i inside).iszero_iff.mpr zero)
      exact absurd none (numbers i inside).1.ne'
    obtain ⟨m', body, inverses, frame⟩ := narrow.multi_inverse_spec narrow_models (by decide) holds nonzero (by decide)
    refine ⟨m', body, fun i inside => ⟨(inverses i inside).reduced, ?_⟩, frame⟩
    rw [← ZMod.natCast_eq_natCast_iff, Nat.cast_mul, (holds i inside).value, (inverses i inside).value,
      show Wide.radix 4 = 2 ^ 256 from rfl, Nat.cast_mul, Nat.cast_pow, Nat.cast_ofNat]
    have cancel := mul_inv_cancel₀ (nonzero i inside)
    linear_combination (2 ^ 256 * 2 ^ 256 : modP.Residue) * cancel

private theorem wide_inverts : BatchInverts wide Wide.Pa.length (Wide.value Wide.Pa) Wide.value
    Ram.d_multi_inverse_wide where
  single m x := wide.multi_inverse_single PARAL m x
  inverse m x numbers := by
    have residues : ∀ i < PARAL, ∃ a, Wide.Mont (wide.read m (x + i * 8)) a :=
      fun i inside => Wide.exists_mont (m.length_words _ _) (numbers i inside).2
    choose! a holds using residues
    have nonzero : ∀ i < PARAL, a i ≠ 0 := by
      intro i inside zero
      have value := (holds i inside).value
      rw [zero, zero_mul, ZMod.natCast_eq_zero_iff] at value
      exact absurd (Nat.eq_zero_of_dvd_of_lt value (numbers i inside).2) (numbers i inside).1.ne'
    obtain ⟨m', body, inverses, frame⟩ := wide.multi_inverse_spec wide_models le_rfl holds nonzero (by decide)
    refine ⟨m', body, fun i inside => ⟨(inverses i inside).reduced, ?_⟩, frame⟩
    have cancel := mul_inv_cancel₀ (nonzero i inside)
    rw [← ZMod.natCast_eq_natCast_iff, Nat.cast_mul, (holds i inside).value, (inverses i inside).value, Nat.cast_mul]
    change _ = Wide.weight * Wide.weight
    linear_combination Wide.weight * Wide.weight * cancel

/-- Both functions replace each number by its Montgomery inverse, with one inversion for all. -/
theorem simultaneous_inversion : BatchInverts narrow 4 modP.Pa.toNat Big.toNat Ram.d_multi_inverse ∧
    BatchInverts wide Wide.Pa.length (Wide.value Wide.Pa) Wide.value Ram.d_multi_inverse_wide :=
  ⟨narrow_inverts, wide_inverts⟩

end DbcSnark.Gpuec
