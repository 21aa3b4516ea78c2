import Mathlib.Data.ZMod.Units
import Mathlib.Tactic.LinearCombination
import Mathlib.Tactic.Linarith

/-! # The almost inverse

The binary Euclidean algorithm on an odd modulus `P` and a number `A`, with the cofactors doubled in place of halved:
after `k` rounds they are `2 ^ k` too large. The rounds stop because each halves the product of the two numbers, and
not too early because none more than halves their sum.
-/

namespace AlmostInverse

/-- The numbers that the rounds change. -/
structure State where
  u : ℕ
  v : ℕ
  r : ℕ
  s : ℕ

def start (P A : ℕ) : State := ⟨P, A, 0, 1⟩

/-- A round. -/
def step (x : State) : State :=
  if x.u % 2 = 0 then ⟨x.u / 2, x.v, x.r, 2 * x.s⟩
  else if x.v % 2 = 0 then ⟨x.u, x.v / 2, 2 * x.r, x.s⟩
  else if x.v < x.u then ⟨(x.u - x.v) / 2, x.v, x.r + x.s, 2 * x.s⟩
  else ⟨x.u, (x.v - x.u) / 2, 2 * x.r, x.s + x.r⟩

/-- What holds after `k` rounds. -/
structure Inv (P A k : ℕ) (x : State) : Prop where
  left_pos : 0 < x.u
  cofactor_pos : 0 < x.s
  below : x.r < 2 * P
  coprime : x.u.Coprime x.v
  product : x.u * x.s + x.v * x.r = P
  halved : x.u * x.v * 2 ^ k ≤ P * A
  kept : P + A ≤ (x.u + x.v) * 2 ^ k
  left : (A * x.r + x.u * 2 ^ k : ZMod P) = 0
  right : (A * x.s : ZMod P) = x.v * 2 ^ k

variable {P A k : ℕ} {x : State}

/-- What a round can do while the second number is positive. -/
theorem step_cases (left : 0 < x.u) (right : 0 < x.v) :
    (∃ h, 0 < h ∧ x.u = 2 * h ∧ step x = ⟨h, x.v, x.r, 2 * x.s⟩) ∨
    (∃ h, 0 < h ∧ x.u % 2 = 1 ∧ x.v = 2 * h ∧ step x = ⟨x.u, h, 2 * x.r, x.s⟩) ∨
    (∃ h, 0 < h ∧ x.u % 2 = 1 ∧ x.v % 2 = 1 ∧ x.u = x.v + 2 * h ∧ step x = ⟨h, x.v, x.r + x.s, 2 * x.s⟩) ∨
    ∃ h, x.u % 2 = 1 ∧ x.v % 2 = 1 ∧ x.v = x.u + 2 * h ∧ step x = ⟨x.u, h, 2 * x.r, x.s + x.r⟩ := by
  rw [step]
  split
  · exact .inl ⟨x.u / 2, by omega, by omega, rfl⟩
  · split
    · exact .inr (.inl ⟨x.v / 2, by omega, by omega, by omega, rfl⟩)
    · split
      · exact .inr (.inr (.inl ⟨(x.u - x.v) / 2, by omega, by omega, by omega, by omega, rfl⟩))
      · exact .inr (.inr (.inr ⟨(x.v - x.u) / 2, by omega, by omega, by omega, rfl⟩))

theorem Inv.start (positive : 0 < P) (coprime : P.Coprime A) : Inv P A 0 (start P A) where
  left_pos := positive
  cofactor_pos := Nat.one_pos
  below := Nat.mul_pos Nat.two_pos positive
  coprime := coprime
  product := by simp [AlmostInverse.start]
  halved := by simp [AlmostInverse.start]
  kept := by simp [AlmostInverse.start]
  left := by simp [AlmostInverse.start]
  right := by simp [AlmostInverse.start]

/-- The first cofactor stays below the modulus as long as the second number is positive. -/
theorem Inv.first_le (inv : Inv P A k x) (right : 0 < x.v) : x.r ≤ P := by
  have product := inv.product
  have := Nat.le_mul_of_pos_left x.r right
  omega

theorem Inv.second_le (inv : Inv P A k x) : x.s ≤ P := by
  have product := inv.product
  have := Nat.le_mul_of_pos_left x.s inv.left_pos
  omega

section Step

variable {u v r s h : ℕ}

private theorem Inv.step_left (inv : Inv P A k ⟨2 * h, v, r, s⟩) (pos : 0 < h) : Inv P A (k + 1) ⟨h, v, r, 2 * s⟩ := by
  obtain ⟨-, cofactor_pos, below, coprime, product, halved, kept, left, right⟩ := inv
  dsimp only at *
  push_cast at left right
  refine ⟨pos, Nat.mul_pos Nat.two_pos cofactor_pos, below, coprime.coprime_dvd_left (Dvd.intro_left 2 rfl), ?_, ?_,
    ?_, ?_, ?_⟩
  · linarith
  · rw [pow_succ]
    linarith
  · rw [pow_succ]
    nlinarith [Nat.zero_le (v * 2 ^ k)]
  · rw [pow_succ]
    linear_combination left
  · rw [pow_succ]
    push_cast
    linear_combination 2 * right

private theorem Inv.step_right (inv : Inv P A k ⟨u, 2 * h, r, s⟩) (pos : 0 < h) : Inv P A (k + 1) ⟨u, h, 2 * r, s⟩ := by
  obtain ⟨left_pos, cofactor_pos, -, coprime, product, halved, kept, left, right⟩ := inv
  dsimp only at *
  push_cast at left right
  refine ⟨left_pos, cofactor_pos, ?_, coprime.coprime_dvd_right (Dvd.intro_left 2 rfl), ?_, ?_, ?_, ?_, ?_⟩
  · have := Nat.le_mul_of_pos_left (2 * r) pos
    have := Nat.mul_pos left_pos cofactor_pos
    linarith
  · linarith
  · rw [pow_succ]
    linarith
  · rw [pow_succ]
    nlinarith [Nat.zero_le (u * 2 ^ k)]
  · rw [pow_succ]
    push_cast
    linear_combination 2 * left
  · rw [pow_succ]
    linear_combination right

private theorem Inv.step_above (inv : Inv P A k ⟨v + 2 * h, v, r, s⟩) (pos : 0 < h) (right_pos : 0 < v) :
    Inv P A (k + 1) ⟨h, v, r + s, 2 * s⟩ := by
  obtain ⟨left_pos, cofactor_pos, -, coprime, product, halved, kept, left, right⟩ := inv
  dsimp only at *
  push_cast at left right
  refine ⟨pos, Nat.mul_pos Nat.two_pos cofactor_pos, ?_, ?_, ?_, ?_, ?_, ?_, ?_⟩
  · have := Nat.le_mul_of_pos_left (r + s) right_pos
    have := Nat.mul_pos pos cofactor_pos
    linarith
  · exact (Nat.coprime_self_add_left.mp coprime).coprime_dvd_left (Dvd.intro_left 2 rfl)
  · linarith
  · rw [pow_succ]
    nlinarith [Nat.zero_le (v * v * 2 ^ k)]
  · rw [pow_succ]
    linarith
  · rw [pow_succ]
    push_cast
    linear_combination left + right
  · rw [pow_succ]
    push_cast
    linear_combination 2 * right

private theorem Inv.step_below (inv : Inv P A k ⟨u, u + 2 * h, r, s⟩) : Inv P A (k + 1) ⟨u, h, 2 * r, s + r⟩ := by
  obtain ⟨left_pos, cofactor_pos, -, coprime, product, halved, kept, left, right⟩ := inv
  dsimp only at *
  push_cast at left right
  refine ⟨left_pos, Nat.add_pos_left cofactor_pos r, ?_, ?_, ?_, ?_, ?_, ?_, ?_⟩
  · have := Nat.le_mul_of_pos_left (s + r) left_pos
    have := Nat.zero_le (h * r)
    linarith
  · exact (Nat.coprime_self_add_right.mp coprime).coprime_dvd_right (Dvd.intro_left 2 rfl)
  · linarith
  · rw [pow_succ]
    nlinarith [Nat.zero_le (u * u * 2 ^ k)]
  · rw [pow_succ]
    linarith
  · rw [pow_succ]
    push_cast
    linear_combination 2 * left
  · rw [pow_succ]
    push_cast
    linear_combination left + right

end Step

/-- A round keeps the invariant while the second number is positive. -/
theorem Inv.step (inv : Inv P A k x) (right : 0 < x.v) : Inv P A (k + 1) (step x) := by
  obtain ⟨u, v, r, s⟩ := x
  have cases := step_cases inv.left_pos right
  dsimp only at cases
  rcases cases with ⟨h, pos, rfl, step⟩ | ⟨h, pos, -, rfl, step⟩ | ⟨h, pos, -, -, rfl, step⟩ | ⟨h, -, -, rfl, step⟩
  · exact step ▸ inv.step_left pos
  · exact step ▸ inv.step_right pos
  · exact step ▸ inv.step_above pos right
  · exact step ▸ inv.step_below

/-! ## Runs -/

theorem inv_iterate (positive : 0 < P) (coprime : P.Coprime A) {k : ℕ}
    (before : ∀ j < k, 0 < (AlmostInverse.step^[j] (start P A)).v) : Inv P A k (AlmostInverse.step^[k] (start P A)) := by
  induction k with
  | zero => exact .start positive coprime
  | succ k ih =>
    rw [Function.iterate_succ_apply']
    exact (ih fun j below => before j (Nat.lt_succ_of_lt below)).step (before k (Nat.lt_succ_self k))

/-- While the second number is positive, there have been fewer rounds than the product of the inputs has bits. -/
theorem Inv.two_pow_le (inv : Inv P A k x) (right : 0 < x.v) : 2 ^ k ≤ P * A :=
  le_trans (Nat.le_mul_of_pos_left _ (Nat.mul_pos inv.left_pos right)) inv.halved

/-- The rounds bring the second number to zero. -/
theorem exists_last (positive : 0 < P) (coprime : P.Coprime A) {m : ℕ} (bits : P * A < 2 ^ m) :
    ∃ k ≤ m, (∀ j < k, 0 < (AlmostInverse.step^[j] (start P A)).v) ∧ (AlmostInverse.step^[k] (start P A)).v = 0 := by
  have ends : ∃ k, (AlmostInverse.step^[k] (start P A)).v = 0 ∧ k ≤ m := by
    by_contra never
    have all : ∀ j ≤ m, 0 < (AlmostInverse.step^[j] (start P A)).v := fun j inside =>
      Nat.pos_of_ne_zero fun zero => never ⟨j, zero, inside⟩
    have inv := inv_iterate positive coprime fun j below => all j (Nat.le_of_lt below)
    exact absurd (inv.two_pow_le (all m le_rfl)) (Nat.not_le.mpr bits)
  classical
  refine ⟨Nat.find ends, (Nat.find_spec ends).2, fun j below => ?_, (Nat.find_spec ends).1⟩
  exact Nat.pos_of_ne_zero fun zero => Nat.find_min ends below ⟨zero, (le_of_lt below).trans (Nat.find_spec ends).2⟩

/-- What is left when the second number is zero. -/
theorem Inv.last (inv : Inv P A k x) (zero : x.v = 0) : P + A ≤ 2 ^ k ∧ (A * x.r : ZMod P) = -2 ^ k := by
  have one : x.u = 1 := by
    have coprime := inv.coprime
    rwa [zero, Nat.coprime_zero_right] at coprime
  have kept := inv.kept
  have left := inv.left
  rw [one, zero, Nat.one_mul] at kept
  rw [one, Nat.cast_one] at left
  exact ⟨kept, by linear_combination left⟩

/-- The cofactor, reduced and negated, is the inverse times the power of two. -/
theorem Inv.result (inv : Inv P A k x) (zero : x.v = 0) (odd : Nat.Coprime 2 P) (large : 1 < P) :
    x.r % P ≠ 0 ∧ (A * (P - x.r % P : ℕ) : ZMod P) = 2 ^ k := by
  have product := (inv.last zero).2
  have reduced : (x.r % P : ℕ) < P := Nat.mod_lt _ (by omega)
  refine ⟨fun none => ?_, ?_⟩
  · have residue : (x.r : ZMod P) = 0 := (ZMod.natCast_eq_zero_iff _ _).mpr (Nat.dvd_of_mod_eq_zero none)
    have unit := ((ZMod.isUnit_iff_coprime (2 ^ k) P).mpr (Nat.Coprime.pow_left k odd)).neg
    have nontrivial : Nontrivial (ZMod P) := ZMod.nontrivial_iff.mpr large.ne'
    rw [Nat.cast_pow, Nat.cast_ofNat, ← product, residue, mul_zero] at unit
    exact not_isUnit_zero unit
  · rw [Nat.cast_sub reduced.le, ZMod.natCast_self, ZMod.natCast_mod]
    linear_combination -product

end AlmostInverse
