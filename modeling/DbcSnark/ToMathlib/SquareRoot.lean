import Mathlib.NumberTheory.LegendreSymbol.Basic

/-! # Square roots modulo a prime

Euler's criterion as an equivalence that covers zero, and the square root by one power for the primes that leave the
remainder three modulo four.
-/

namespace SquareRoot

variable {p : ℕ} [Fact p.Prime]

/-- The power `p / 2` is one on the nonzero squares only. -/
theorem pow_half_eq_one_iff (odd : p ≠ 2) (a : ZMod p) : a ^ (p / 2) = 1 ↔ a ≠ 0 ∧ IsSquare a := by
  have large : 2 < p := lt_of_le_of_ne (Fact.out : p.Prime).two_le odd.symm
  rcases eq_or_ne a 0 with rfl | nonzero
  · rw [zero_pow (by omega)]
    exact iff_of_false zero_ne_one fun square => square.1 rfl
  · rw [← ZMod.euler_criterion p nonzero, and_iff_right nonzero]

/-- The power `(p + 1) / 4` of a nonzero square is a root of it. -/
theorem sq_pow_quarter (residue : p % 4 = 3) {a : ZMod p} (half : a ^ (p / 2) = 1) : (a ^ ((p + 1) / 4)) ^ 2 = a := by
  rw [← pow_mul, show (p + 1) / 4 * 2 = p / 2 + 1 by omega, pow_succ, half, one_mul]

end SquareRoot
