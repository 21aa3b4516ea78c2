import DbcSnark.Model.DBCTest.MyBigInt

/-! # The greedy chain search

The inner loop of `getSubOptimalDBC` and of `getEOSDBC`, which differ in the depth of the window over the
exponents of 3 only. All decisions taken in floating point are gathered in `Floats`; the update of the
remainder uses the words of `myBigInt`. `next` is one turn of the loop after `(alpha, beta)` has been
picked, for any comparison and any subtraction, so that the GPU search shares it.
-/

namespace DbcSnark.DBCTest

/-- The outcomes of the floating-point comparisons for the remainder `t`. -/
structure Floats (INTS : ℕ) where
  /-- `d_pow23_all[0][j] >= dbl_t` -/
  reaches : ℕ → MyBigInt INTS → Bool
  /-- `int(logt - j * log3)`, where `d_pow23_all[0][j] < dbl_t` -/
  k : ℕ → MyBigInt INTS → ℕ
  /-- `fabs(dbl_t - d_pow23_all[k_j][j]) <= fabs(d_pow23_all[k_j + 1][j] - dbl_t)` -/
  lower : ℕ → ℕ → MyBigInt INTS → Bool
  /-- `fabs(dbl_t - d_pow23_all[alpha_j][j]) <= fabs(d_pow23_all[alpha][beta] - dbl_t)` -/
  closer : ℕ → ℕ → ℕ → ℕ → MyBigInt INTS → Bool

namespace Floats

variable {INTS : ℕ}

/-- Comparisons decided on the numbers themselves. -/
def exact (INTS : ℕ) : Floats INTS where
  reaches j t := t.toNat ≤ 3 ^ j
  k j t := Nat.log 2 (t.toNat / 3 ^ j)
  lower k_j j t := ((t.toNat : ℤ) - 2 ^ k_j * 3 ^ j).natAbs ≤ ((2 ^ (k_j + 1) * 3 ^ j : ℤ) - t.toNat).natAbs
  closer alpha_j j alpha beta t :=
    ((t.toNat : ℤ) - 2 ^ alpha_j * 3 ^ j).natAbs ≤ ((2 ^ alpha * 3 ^ beta : ℤ) - t.toNat).natAbs

end Floats

section Pick

variable {INTS : ℕ} (floats : Floats INTS)

/-- `alpha_j`: the exponent of 2 that goes with `3 ^ j`. -/
def alphaAt (a : ℕ) (t : MyBigInt INTS) (j : ℕ) : ℕ :=
  if floats.reaches j t then 0
  else
    let k_j := floats.k j t
    if k_j ≥ a then a else if floats.lower k_j j t then k_j else k_j + 1

/-- One turn of the loop over `j`. -/
def pickStep (a : ℕ) (t : MyBigInt INTS) (best : ℕ × ℕ) (j : ℕ) : ℕ × ℕ :=
  let alpha_j := alphaAt floats a t j
  if floats.closer alpha_j j best.1 best.2 t then (alpha_j, j) else best

/-- `for (int j = b_temp; j >= max(0, b_temp - window); j--)`, giving `(alpha, beta)`. -/
def pick (window a b_temp : ℕ) (t : MyBigInt INTS) : ℕ × ℕ :=
  (List.range (min window b_temp + 1)).foldl (fun best d => pickStep floats a t best (b_temp - d)) (a, b_temp)

end Pick

/-- The variables of the greedy loop and the rows stored so far. -/
structure Greedy (INTS : ℕ) where
  a : ℕ
  b_temp : ℕ
  t : MyBigInt INTS
  s : ℤ
  stored : List (ℤ × ℕ × ℕ)
deriving DecidableEq

namespace Greedy

variable {INTS : ℕ}

/-- The state in which the loop starts for a candidate `b` with `a = RBound[b]`. -/
def start (n : MyBigInt INTS) (a b : ℕ) : Greedy INTS := ⟨a, b, n, 1, []⟩

/-- A turn of the loop that picked `(alpha, beta)`. -/
def next (minus : MyBigInt INTS → MyBigInt INTS → MyBigInt INTS) (pow23_all : ℕ → ℕ → MyBigInt INTS)
    (x : Greedy INTS) (alpha beta : ℕ) : Greedy INTS :=
  let p := pow23_all alpha beta
  { a := alpha
    b_temp := beta
    t := if x.t.ge p then minus x.t p else minus p x.t
    s := if x.t.ge p then x.s else -x.s
    stored := x.stored ++ [(x.s, alpha, beta)] }

/-- The operands of the subtraction in that turn, larger one first. -/
def operands (pow23_all : ℕ → ℕ → MyBigInt INTS) (x : Greedy INTS) (alpha beta : ℕ) :
    MyBigInt INTS × MyBigInt INTS :=
  let p := pow23_all alpha beta
  if x.t.ge p then (x.t, p) else (p, x.t)

/-- The loop `while (!t.iszero())`, for at most `fuel` turns and with any subtraction in place of `operator-`. -/
def loopWith (minus : MyBigInt INTS → MyBigInt INTS → MyBigInt INTS) (floats : Floats INTS) (window : ℕ)
    (pow23_all : ℕ → ℕ → MyBigInt INTS) : ℕ → Greedy INTS → Option (Greedy INTS)
  | 0, x => if x.t.iszero then some x else none
  | fuel + 1, x =>
    if x.t.iszero then some x
    else
      let (alpha, beta) := pick floats window x.a x.b_temp x.t
      loopWith minus floats window pow23_all fuel (x.next minus pow23_all alpha beta)

/-- The loop of the CPU. -/
def loop (floats : Floats INTS) (window : ℕ) (pow23_all : ℕ → ℕ → MyBigInt INTS) :
    ℕ → Greedy INTS → Option (Greedy INTS) := loopWith MyBigInt.sub floats window pow23_all

/-- The loop of `getSubOptimalDBC`. -/
def subOptimalLoop (floats : Floats INTS) := loop floats 6

/-- The loop of `getEOSDBC`. -/
def eosLoop (floats : Floats INTS) := loop floats 4

end Greedy

end DbcSnark.DBCTest
