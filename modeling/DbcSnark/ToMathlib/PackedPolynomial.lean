import Mathlib.Algebra.Polynomial.Inductions
import Mathlib.FieldTheory.Finite.Basic

/-! # Roots of polynomials in a prime field

The coefficients of a polynomial are packed into one number as digits in a base that leaves room for a product, so that
a product of polynomials is one product of numbers. An element of the field is its own `p`-th power; powers of a root
are computed modulo the polynomial, and a combination of the polynomial and of `X ^ p - X` tells the roots.
-/

namespace PackedPolynomial

open Polynomial

variable {B p : ℕ}

/-- `N` packs `d` coefficients, none above `b`, of a polynomial whose value at `x` is `v`. -/
def Packs (B b d : ℕ) (x v : ZMod p) (N : ℕ) : Prop :=
  ∃ P : ℕ[X], P.eval B = N ∧ (∀ i, P.coeff i ≤ b) ∧ (∀ i, d ≤ i → P.coeff i = 0) ∧
    P.eval₂ (Nat.castRingHom (ZMod p)) x = v

section Packs

variable {b b' d d' N M c : ℕ} {x v w : ZMod p}

theorem packs_zero : Packs B 0 0 x 0 0 := ⟨0, eval_zero, fun _ => le_rfl, fun _ _ => coeff_zero _, eval₂_zero ..⟩

theorem Packs.cons (first : c ≤ b) (packs : Packs B b d x v N) : Packs B b (d + 1) x (c + x * v) (c + B * N) := by
  obtain ⟨P, packed, small, short, value⟩ := packs
  refine ⟨C c + X * P, ?_, ?_, ?_, ?_⟩
  · rw [eval_add, eval_C, eval_mul, eval_X, packed]
  · intro i
    cases i with
    | zero => simpa using first
    | succ i => simpa using small i
  · intro i beyond
    cases i with
    | zero => omega
    | succ i => simpa using short i (by omega)
  · rw [eval₂_add, eval₂_C, eval₂_mul, eval₂_X, value, eq_natCast]

theorem Packs.uncons (packs : Packs B b (d + 1) x v N) (room : b < B) :
    N % B ≤ b ∧ ∃ w, Packs B b d x w (N / B) ∧ v = (N % B : ℕ) + x * w := by
  obtain ⟨P, packed, small, short, value⟩ := packs
  have split : P.coeff 0 + B * P.divX.eval B = N := by
    rw [← packed]
    conv_rhs => rw [← divX_mul_X_add P, eval_add, eval_mul, eval_X, eval_C]
    ring
  have first : P.coeff 0 < B := (small 0).trans_lt room
  have low : N % B = P.coeff 0 := by rw [← split, Nat.add_mul_mod_self_left, Nat.mod_eq_of_lt first]
  have high : N / B = P.divX.eval B := by
    rw [← split, Nat.add_mul_div_left _ _ (by omega), Nat.div_eq_of_lt first, Nat.zero_add]
  refine ⟨low ▸ small 0, _, ⟨P.divX, high.symm, fun i => ?_, fun i beyond => ?_, rfl⟩, ?_⟩
  · rw [coeff_divX]
    exact small _
  · rw [coeff_divX]
    exact short _ (by omega)
  · rw [low, ← value]
    conv_lhs => rw [← divX_mul_X_add P, eval₂_add, eval₂_mul, eval₂_X, eval₂_C, eq_natCast]
    ring

theorem Packs.eq_zero (packs : Packs B b 0 x v N) : v = 0 := by
  obtain ⟨P, -, -, short, rfl⟩ := packs
  rw [show P = 0 from Polynomial.ext fun i => by rw [short i (Nat.zero_le i), coeff_zero], eval₂_zero]

theorem Packs.mono (packs : Packs B b d x v N) (bound : b ≤ b') (length : d ≤ d') : Packs B b' d' x v N := by
  obtain ⟨P, packed, small, short, value⟩ := packs
  exact ⟨P, packed, fun i => (small i).trans bound, fun i beyond => short i (length.trans beyond), value⟩

theorem Packs.smul (small : c ≤ b') (packs : Packs B b d x v N) : Packs B (b' * b) d x (c * v) (c * N) := by
  obtain ⟨P, rfl, bound, short, rfl⟩ := packs
  refine ⟨C c * P, ?_, fun i => ?_, fun i beyond => ?_, ?_⟩
  · rw [eval_mul, eval_C]
  · rw [coeff_C_mul]
    exact Nat.mul_le_mul small (bound i)
  · rw [coeff_C_mul, short i beyond, Nat.mul_zero]
  · rw [eval₂_mul, eval₂_C, eq_natCast]

/-- The digits of a number determine the value. -/
theorem Packs.unique (left : Packs B b d x v N) (right : Packs B b d x w N) (room : b < B) : v = w := by
  induction d generalizing v w N with
  | zero => rw [left.eq_zero, right.eq_zero]
  | succ d ih =>
    obtain ⟨-, v', left', rfl⟩ := left.uncons room
    obtain ⟨-, w', right', rfl⟩ := right.uncons room
    rw [ih left' right']

theorem Packs.add (left : Packs B b d x v N) (right : Packs B b' d x w M) : Packs B (b + b') d x (v + w) (N + M) := by
  obtain ⟨P, rfl, small, short, rfl⟩ := left
  obtain ⟨Q, rfl, small', short', rfl⟩ := right
  refine ⟨P + Q, eval_add, fun i => ?_, fun i beyond => ?_, eval₂_add ..⟩
  · rw [coeff_add]
    exact Nat.add_le_add (small i) (small' i)
  · rw [coeff_add, short i beyond, short' i beyond]

theorem Packs.mul (left : Packs B b d x v N) (right : Packs B b' d' x w M) :
    Packs B ((d + d') * (b * b')) (d + d') x (v * w) (N * M) := by
  obtain ⟨P, rfl, small, short, rfl⟩ := left
  obtain ⟨Q, rfl, small', short', rfl⟩ := right
  have vanish : ∀ i, d + d' ≤ i → (P * Q).coeff i = 0 := by
    intro i beyond
    rw [coeff_mul]
    refine Finset.sum_eq_zero fun k split => ?_
    rw [Finset.HasAntidiagonal.mem_antidiagonal] at split
    rcases le_or_gt d k.1 with first | first
    · rw [short _ first, Nat.zero_mul]
    · rw [short' k.2 (by omega), Nat.mul_zero]
  refine ⟨P * Q, eval_mul, fun i => ?_, vanish, eval₂_mul ..⟩
  rcases le_or_gt (d + d') i with beyond | inside
  · rw [vanish i beyond]
    exact Nat.zero_le _
  · rw [coeff_mul]
    refine (Finset.sum_le_card_nsmul _ _ (b * b') fun k _ => Nat.mul_le_mul (small k.1) (small' k.2)).trans ?_
    rw [Finset.Nat.card_antidiagonal, smul_eq_mul]
    exact Nat.mul_le_mul_right _ (by omega)

end Packs

/-! ## Computing with packed polynomials -/

/-- `k n`, with `n` evaluated first. -/
def force {α : Type*} (n : ℕ) (k : ℕ → α) : α :=
  match n with
  | 0 => k 0
  | n + 1 => k (n + 1)

theorem force_eq {α : Type*} (n : ℕ) (k : ℕ → α) : force n k = k n := by
  cases n <;> rfl

variable (B p)

/-- The first `d` digits, each reduced modulo `p`. -/
def normalise : ℕ → ℕ → ℕ
  | 0, _ => 0
  | d + 1, N => N % B % p + B * force (N / B) (normalise d)

/-- The sum of the entries of `ts`, each taken as often as the digit at its place says. -/
def combine : List ℕ → ℕ → ℕ
  | [], _ => 0
  | t :: ts, N => N % B % p * t + force (N / B) (combine ts)

/-- The first `k` powers of the variable times `t`. -/
def monomials : ℕ → ℕ → List ℕ
  | 0, _ => []
  | k + 1, t => t :: monomials k (B * t)

variable (d red : ℕ)

/-- `X * s`, where `red` packs what `X ^ d` is reduced to. -/
def timesX (s : ℕ) : ℕ := normalise B p d (combine B p (monomials B d 1 ++ [red]) (B * s))

/-- The `k` products of `t` with powers of the variable. -/
def multiples : ℕ → ℕ → List ℕ
  | 0, _ => []
  | k + 1, t => force t fun t => t :: multiples k (timesX B p d red t)

/-- Square and multiply along the bits of an exponent, leading bit first; `ts` are the powers of the variable. -/
def climb (ts : List ℕ) : List Bool → ℕ → ℕ
  | [], h => h
  | bit :: bits, h => force (normalise B p d (combine B p ts (h * h))) fun s =>
      force (if bit then timesX B p d red s else s) (climb ts bits)

/-- `X ^ p`. -/
def frobenius : ℕ :=
  climb B p d red (monomials B d 1 ++ multiples B p d red d red) ((List.range (p.log2 + 1)).reverse.map p.testBit) 1

section Computing

variable {B p d red}
variable {b k N : ℕ} {x v w : ZMod p}

theorem exists_packs_normalise [NeZero p] (x : ZMod p) (N : ℕ) : ∃ w, Packs B (p - 1) d x w (normalise B p d N) := by
  induction d generalizing N with
  | zero => exact ⟨0, packs_zero.mono (Nat.zero_le _) le_rfl⟩
  | succ d ih =>
    obtain ⟨w, rest⟩ := ih (N / B)
    rw [normalise, force_eq]
    exact ⟨_, rest.cons (Nat.le_sub_one_of_lt (Nat.mod_lt _ (NeZero.pos p)))⟩

theorem Packs.normalise [NeZero p] (packs : Packs B b d x v N) (room : b < B) :
    Packs B (p - 1) d x v (normalise B p d N) := by
  induction d generalizing v N with
  | zero => exact packs.eq_zero ▸ packs_zero.mono (Nat.zero_le _) le_rfl
  | succ d ih =>
    obtain ⟨-, w, rest, rfl⟩ := packs.uncons room
    rw [PackedPolynomial.normalise, force_eq, ← ZMod.natCast_mod (N % B) p]
    exact (ih rest).cons (Nat.le_sub_one_of_lt (Nat.mod_lt _ (NeZero.pos p)))

/-- The entries pack the products of `w` with the powers of `x`. -/
def Ladder (B d : ℕ) (x : ZMod p) : ZMod p → List ℕ → Prop
  | _, [] => True
  | w, t :: ts => Packs B (p - 1) d x w t ∧ Ladder B d x (x * w) ts

theorem Ladder.append {ts us : List ℕ} (first : Ladder B d x w ts) (second : Ladder B d x (x ^ ts.length * w) us) :
    Ladder B d x w (ts ++ us) := by
  induction ts generalizing w with
  | nil => simpa using second
  | cons t ts ih =>
    refine ⟨first.1, ih first.2 ?_⟩
    rwa [List.length_cons, pow_succ, mul_assoc] at second

theorem Ladder.combine [NeZero p] {ts : List ℕ} (ladder : Ladder B d x w ts) (packs : Packs B b ts.length x v N)
    (room : b < B) : Packs B (ts.length * ((p - 1) * (p - 1))) d x (w * v) (combine B p ts N) := by
  induction ts generalizing w v N with
  | nil =>
    rw [packs.eq_zero, mul_zero]
    exact packs_zero.mono (Nat.zero_le _) (Nat.zero_le _)
  | cons t ts ih =>
    obtain ⟨-, v', rest, rfl⟩ := packs.uncons room
    have small : N % B % p ≤ p - 1 := Nat.le_sub_one_of_lt (Nat.mod_lt _ (NeZero.pos p))
    have sum := (ladder.1.smul small).add (ih ladder.2 rest)
    rw [PackedPolynomial.combine, force_eq, List.length_cons, Nat.succ_mul, Nat.add_comm]
    rw [ZMod.natCast_mod] at sum
    rwa [show w * ((N % B : ℕ) + x * v') = (N % B : ℕ) * w + x * w * v' by ring]

@[simp] theorem length_monomials (k t : ℕ) : (monomials B k t).length = k := by
  induction k generalizing t with
  | zero => rfl
  | succ k ih => rw [monomials, List.length_cons, ih]

@[simp] theorem length_multiples (k t : ℕ) : (multiples B p d red k t).length = k := by
  induction k generalizing t with
  | zero => rfl
  | succ k ih => rw [multiples, force_eq, List.length_cons, ih]

theorem Packs.shift (packs : Packs B b d x v N) : Packs B b (d + 1) x (x * v) (B * N) := by
  have shifted := packs.cons (Nat.zero_le b)
  rwa [Nat.cast_zero, zero_add, Nat.zero_add] at shifted

theorem ladder_monomials {e t : ℕ} (packs : Packs B (p - 1) e x w t) (inside : e + k ≤ d + 1) :
    Ladder B d x w (monomials B k t) := by
  induction k generalizing e w t with
  | zero => trivial
  | succ k ih => exact ⟨packs.mono le_rfl (by omega), ih packs.shift (by omega)⟩

/-- The number that bits continue, leading bit first. -/
def exponent : List Bool → ℕ → ℕ
  | [], e => e
  | bit :: bits, e => exponent bits (2 * e + bit.toNat)

theorem exponent_bits (n k e : ℕ) : exponent ((List.range k).reverse.map n.testBit) e = e * 2 ^ k + n % 2 ^ k := by
  induction k generalizing e with
  | zero => simp [exponent, Nat.mod_one]
  | succ k ih =>
    rw [List.range_succ, List.reverse_append, List.reverse_singleton, List.singleton_append, List.map_cons, exponent, ih,
      Nat.mod_pow_succ, Nat.testBit_eq_decide_div_mod_eq]
    rcases Nat.mod_two_eq_zero_or_one (n / 2 ^ k) with even | odd
    · rw [even]
      simp only [zero_ne_one, decide_false, Bool.toNat_false]
      ring
    · rw [odd]
      simp only [decide_true, Bool.toNat_true]
      ring

/-- What makes reducing right: at `x`, the number `red` packs the power that it stands for, and a digit has room for the
coefficients of a sum of products. -/
structure Reduces (B d : ℕ) (x : ZMod p) (red : ℕ) : Prop where
  positive : 0 < d
  room : 9 * d * ((p - 1) * (p - 1)) < B
  relation : Packs B (p - 1) d x (x ^ d) red

section Reducing

variable [Fact p.Prime]

theorem packs_one : Packs B (p - 1) 1 x 1 1 := by
  have zero : Packs B (p - 1) 0 x 0 0 := packs_zero.mono (Nat.zero_le _) le_rfl
  have one := zero.cons (Nat.le_sub_one_of_lt (Fact.out : p.Prime).one_lt)
  rwa [Nat.cast_one, mul_zero, add_zero, Nat.mul_zero] at one

variable (reduces : Reduces B d x red)
include reduces

omit [Fact p.Prime] in
theorem Reduces.bound {l : ℕ} (length : l ≤ 9 * d) : l * ((p - 1) * (p - 1)) < B :=
  (Nat.mul_le_mul_right _ length).trans_lt reduces.room

omit [Fact p.Prime] in
theorem Reduces.digit : p - 1 < B := by
  have single := reduces.bound (l := 1) (by have := reduces.positive; omega)
  exact (Nat.le_mul_self _).trans_lt (by rwa [Nat.one_mul] at single)

theorem Reduces.timesX (packs : Packs B (p - 1) d x v N) : Packs B (p - 1) d x (x * v) (timesX B p d red N) := by
  have positive := reduces.positive
  have ladder : Ladder B d x 1 (monomials B d 1 ++ [red]) := by
    refine (ladder_monomials packs_one (by omega)).append ⟨?_, trivial⟩
    rw [length_monomials, mul_one]
    exact reduces.relation
  have length : (monomials B d 1 ++ [red]).length = d + 1 := by
    rw [List.length_append, length_monomials, List.length_singleton]
  have sum := ladder.combine (by rw [length]; exact packs.shift) reduces.digit
  rw [length, one_mul] at sum
  exact sum.normalise (reduces.bound (by omega))

theorem Reduces.multiples {t : ℕ} (packs : Packs B (p - 1) d x w t) (k : ℕ) :
    Ladder B d x w (multiples B p d red k t) := by
  induction k generalizing w t with
  | zero => trivial
  | succ k ih =>
    rw [PackedPolynomial.multiples, force_eq]
    exact ⟨packs, ih (reduces.timesX packs)⟩

/-- Climbing along the bits raises `x` to the number they spell. -/
theorem Reduces.climb {ts : List ℕ} (ladder : Ladder B d x 1 ts) (length : ts.length = 2 * d) (bits : List Bool) {e h : ℕ}
    (packs : Packs B (p - 1) d x (x ^ e) h) :
    Packs B (p - 1) d x (x ^ exponent bits e) (climb B p d red ts bits h) := by
  induction bits generalizing e h with
  | nil => exact packs
  | cons bit bits ih =>
    have square := packs.mul packs
    rw [← two_mul, ← pow_add, ← two_mul] at square
    have room := reduces.bound (l := 2 * d) (by omega)
    have reduced := ladder.combine (by rw [length]; exact square) room
    rw [length, one_mul] at reduced
    have square := reduced.normalise room
    rw [PackedPolynomial.climb, force_eq, force_eq, exponent]
    cases bit with
    | false => exact ih square
    | true =>
      have next := reduces.timesX square
      rw [← pow_succ'] at next
      exact ih next

/-- An element of the field is its own power, so the remainder of `X ^ p` has the value of `X`. -/
theorem Reduces.frobenius : Packs B (p - 1) d x x (frobenius B p d red) := by
  have positive := reduces.positive
  have ladder : Ladder B d x 1 (monomials B d 1 ++ PackedPolynomial.multiples B p d red d red) := by
    refine (ladder_monomials packs_one (by omega)).append ?_
    rw [length_monomials, mul_one]
    exact reduces.multiples reduces.relation d
  have length : (monomials B d 1 ++ PackedPolynomial.multiples B p d red d red).length = 2 * d := by
    rw [List.length_append, length_monomials, length_multiples, two_mul]
  have start : Packs B (p - 1) d x (x ^ 0) 1 := by
    rw [pow_zero]
    exact packs_one.mono le_rfl (by omega)
  have power := reduces.climb ladder length ((List.range (p.log2 + 1)).reverse.map p.testBit) start
  rwa [exponent_bits, Nat.zero_mul, Nat.zero_add, Nat.mod_eq_of_lt Nat.lt_log2_self, ZMod.pow_card] at power

end Reducing

/-- The coefficients of a polynomial, constant first, as digits. -/
def pack (B p : ℕ) : List ℤ → ℕ
  | [] => 0
  | c :: cs => (c % (p : ℤ)).toNat + B * pack B p cs

/-- The value of the polynomial with these coefficients. -/
def horner (x : ZMod p) : List ℤ → ZMod p
  | [] => 0
  | c :: cs => (c : ZMod p) + x * horner x cs

theorem packs_pack [NeZero p] (x : ZMod p) (cs : List ℤ) : Packs B (p - 1) cs.length x (horner x cs) (pack B p cs) := by
  induction cs with
  | nil => exact packs_zero.mono (Nat.zero_le _) le_rfl
  | cons c cs ih =>
    have positive := NeZero.pos p
    have nonneg := Int.emod_nonneg c (Int.natCast_ne_zero.mpr positive.ne')
    have less := Int.emod_lt_of_pos c (Int.natCast_pos.mpr positive)
    have digit : ((c % (p : ℤ)).toNat : ZMod p) = c := by
      rw [← Int.cast_natCast, Int.toNat_of_nonneg nonneg, ZMod.intCast_mod]
    have packs := ih.cons (show (c % (p : ℤ)).toNat ≤ p - 1 by omega)
    rwa [digit] at packs

/-! ## The only root -/

theorem packs_pow (k : ℕ) : Packs B 1 (k + 1) x (x ^ k) (B ^ k) := by
  induction k with
  | zero =>
    have one := ((packs_zero (B := B) (x := x)).mono (Nat.zero_le 1) le_rfl).cons le_rfl
    rwa [Nat.cast_one, mul_zero, add_zero, Nat.mul_zero, Nat.add_zero, ← pow_zero x, ← pow_zero B] at one
  | succ k ih =>
    rw [pow_succ', pow_succ']
    exact ih.shift

variable [Fact p.Prime]

private theorem cast_minus_one : ((p - 1 : ℕ) : ZMod p) = -1 := by
  rw [Nat.cast_sub (Fact.out : p.Prime).one_lt.le, ZMod.natCast_self, Nat.cast_one, zero_sub]

section Root

variable {F k r : ℕ} (positive : 0 < d) (room : 9 * d * ((p - 1) * (p - 1)) < B)
  (root : Packs B (p - 1) (d + 1) x 0 F) (small : k ≤ p - 1)
  (monic : normalise B p (d + 1) (k * F) = normalise B p d (k * F) + (p - 1) * B ^ d)
include room

omit [Fact p.Prime] in
private theorem fits {n : ℕ} (l : ℕ) (bound : n ≤ l * ((p - 1) * (p - 1))) (length : l ≤ 9 * d) : n < B :=
  bound.trans_lt ((Nat.mul_le_mul_right _ length).trans_lt room)

include positive root small monic

/-- The multiple `k * F` of a polynomial with a root is the negative of a monic one, which tells the power to reduce. -/
theorem reduces_of_root : Reduces B d x (normalise B p d (k * F)) := by
  have square := Nat.le_mul_self (p - 1)
  obtain ⟨w, low⟩ := exists_packs_normalise (B := B) (d := d) x (k * F)
  have whole := (root.smul small).normalise (fits room 1 (by omega) (by omega))
  rw [mul_zero, monic] at whole
  have split := (low.mono le_rfl (Nat.le_succ d)).add ((packs_pow d).smul (le_refl (p - 1)))
  have value := split.unique (whole.mono (by omega) le_rfl) (fits room 2 (by omega) (by omega))
  rw [cast_minus_one, neg_one_mul, ← sub_eq_add_neg, sub_eq_zero] at value
  exact ⟨positive, room, value ▸ low⟩

/-- A combination of the polynomial and of `X ^ p - X` that is `X - r` leaves no other root. -/
theorem eq_of_bezout {U V : List ℤ} (sizeU : U.length ≤ d) (sizeV : V.length ≤ d) (reduced : r < p)
    (bezout : normalise B p (2 * d + 1)
      (pack B p U * F + pack B p V * (frobenius B p d (normalise B p d (k * F)) + (p - 1) * B)) = p - r + B) :
    x = r := by
  have square := Nat.le_mul_self (p - 1)
  have one := (Fact.out : p.Prime).one_lt
  have reduces := reduces_of_root positive room root small monic
  have first := (packs_pack (B := B) x U).mono le_rfl sizeU
  have second := (packs_pack (B := B) x V).mono le_rfl sizeV
  have difference := (reduces.frobenius.mono le_rfl (Nat.le_succ d)).add
    (((packs_pow 1).mono le_rfl (by omega)).smul (le_refl (p - 1)))
  rw [cast_minus_one, pow_one, pow_one, neg_one_mul, add_neg_cancel, mul_one, ← two_mul] at difference
  have sum := (first.mul root).add (second.mul difference)
  rw [mul_zero, mul_zero, add_zero, show d + (d + 1) = 2 * d + 1 by ring] at sum
  have zero := sum.normalise (fits room (3 * (2 * d + 1)) (le_of_eq (by ring)) (by omega))
  rw [bezout] at zero
  have unit : Packs B p 1 x 1 1 := packs_one.mono (Nat.sub_le p 1) le_rfl
  have linear := unit.cons (Nat.sub_le p r)
  rw [Nat.mul_one, mul_one] at linear
  have value := (linear.mono le_rfl (by omega)).unique (zero.mono (Nat.sub_le p 1) le_rfl)
    (fits room 2 (by omega) (by omega))
  rw [Nat.cast_sub reduced.le, ZMod.natCast_self, zero_sub, neg_add_eq_zero] at value
  exact value.symm

end Root

end Computing

end PackedPolynomial
