import DbcSnark.Model.DBCTest.OptimalDBC
import Mathlib.Algebra.Group.Basic
import Mathlib.Logic.Function.Iterate

/-! # The scalar multiplications of the benchmark

`DBC_POINT_mul`, `binary_POINT_mul` and `NAF_POINT_mul` of `functions.h`, and `DBC_POINT_mul` of
`optimal_DBC2.cpp`, over an abelian group: `EC_POINT_add`, `EC_POINT_dbl`, `EC_POINT_tpl` and
`EC_POINT_invert` are its operations.
-/

namespace DbcSnark.DBCTest

section PointMul

variable {A : Type*} [AddCommGroup A]

/-- The accumulator `r` of `DBC_POINT_mul` and the exponents it still has to be raised by. -/
structure Descent (A : Type*) where
  r : A
  now_dbl : ℕ
  now_tpl : ℕ

namespace Descent

/-- One turn of the loop `while (1)` before the term with exponents `dbl` and `tpl`. -/
def step (dbl tpl : ℕ) (st : Descent A) : Descent A :=
  if st.now_dbl > dbl then { st with r := st.r + st.r, now_dbl := st.now_dbl - 1 }
  else if st.now_tpl > tpl then { st with r := st.r + st.r + st.r, now_tpl := st.now_tpl - 1 }
  else st

/-- The loop `while (1)`: every turn but the last lowers one of the two exponents by one. -/
def descend (dbl tpl : ℕ) (st : Descent A) : Descent A :=
  (step dbl tpl)^[(st.now_dbl - dbl) + (st.now_tpl - tpl)] st

/-- The body of the loop over the terms after the leading one. -/
def term (a invert_a : A) (st : Descent A) (row : ℤ × ℕ × ℕ) : Descent A :=
  let st := descend row.2.1 row.2.2 st
  if row.1 = -1 then { st with r := st.r + invert_a } else { st with r := st.r + a }

/-- The two loops after the last term. -/
def finish (st : Descent A) : A :=
  (fun r => r + r + r)^[st.now_tpl] ((fun r => r + r)^[st.now_dbl] st.r)

end Descent

/-- `DBC_POINT_mul(r, a, min_index)` of `functions.h`: what `r` holds afterwards. -/
def DBC_POINT_mul (DBC_store : ℕ → ℕ → ℤ × ℕ × ℕ) (DBC_len : ℕ → ℕ) (a : A) (min_index : ℕ) : A :=
  let invert_a := -a
  let r := a + a
  let r := r + invert_a
  ((List.range (DBC_len min_index - 1)).foldl
    (fun st i => Descent.term a invert_a st (DBC_store min_index (i + 1)))
    ⟨r, (DBC_store min_index 0).2.1, (DBC_store min_index 0).2.2⟩).finish

/-- The running multiple `mult_points` of `DBC_POINT_mul` in `optimal_DBC2.cpp` with its exponents, and the
result `r`. -/
structure Ascent (A : Type*) where
  mult_points : A
  now_dbl : ℕ
  now_tpl : ℕ
  first : Bool
  r : A

namespace Ascent

/-- One turn of the loop `while (1)` before the term with exponents `dbl` and `tpl`. -/
def step (dbl tpl : ℕ) (st : Ascent A) : Ascent A :=
  if st.now_dbl < dbl then
    { st with mult_points := st.mult_points + st.mult_points, now_dbl := st.now_dbl + 1 }
  else if st.now_tpl < tpl then
    { st with mult_points := st.mult_points + st.mult_points + st.mult_points, now_tpl := st.now_tpl + 1 }
  else st

/-- The loop `while (1)`: every turn but the last raises one of the two exponents by one. -/
def climb (dbl tpl : ℕ) (st : Ascent A) : Ascent A :=
  (step dbl tpl)^[(dbl - st.now_dbl) + (tpl - st.now_tpl)] st

/-- The body of the loop over `now_DBC`. -/
def term (st : Ascent A) (c : Chain) : Ascent A :=
  let st := climb c.dbl c.tpl st
  let st := if c.minus then { st with mult_points := -st.mult_points } else st
  let st := if st.first then { st with r := st.mult_points, first := false }
    else { st with r := st.r + st.mult_points }
  if c.minus then { st with mult_points := -st.mult_points } else st

end Ascent

/-- `DBC_POINT_mul(r, a)` of `optimal_DBC2.cpp`: what `r` holds afterwards. A missing or empty chain leaves it
alone. -/
def DBC2_POINT_mul (w_min : OptimalDBC) (now_DBC : ℕ → Chain) (r a : A) : A :=
  let mult_points := a + a
  let mult_points := -mult_points
  let mult_points := mult_points + a
  let mult_points := -mult_points
  if w_min.isNULL ∨ w_min.length = 0 then r
  else ((List.range w_min.length).foldl (fun st i => Ascent.term st (now_DBC i)) ⟨mult_points, 0, 0, true, r⟩).r

/-- The loop of `binary_POINT_mul` on the magnitude of `n`: the result `r` and the running `TTV`. -/
def binaryLoop (n : ℕ) (r mult_points : A) (TTV : ℕ) : A × ℕ :=
  if n = 0 then (r, TTV)
  else if n % 2 = 0 then binaryLoop (n / 2) r (mult_points + mult_points) (TTV + 7)
  else binaryLoop (n / 2) (r + mult_points) (mult_points + mult_points) (TTV + 15 + 7)
termination_by n

end PointMul

/-- `ossl_isxdigit`. -/
def isxdigit (c : Char) : Bool :=
  ('0' ≤ c && c ≤ '9') || ('a' ≤ c && c ≤ 'f') || ('A' ≤ c && c ≤ 'F')

/-- `OPENSSL_hexchar2int`, with 0 for the other characters as in `BN_hex2bn`. -/
def hexchar2int (c : Char) : ℕ :=
  if '0' ≤ c && c ≤ '9' then c.toNat - '0'.toNat
  else if 'a' ≤ c && c ≤ 'f' then c.toNat - 'a'.toNat + 10
  else if 'A' ≤ c && c ≤ 'F' then c.toNat - 'A'.toNat + 10
  else 0

/-- The number of digits `BN_hex2bn` accepts, `INT_MAX / 4`. -/
def maxDigits : ℕ := 2147483647 / 4

/-- The number of words a `BIGNUM` holds, `INT_MAX / (4 * BN_BITS2)`. -/
def maxWords : ℕ := 2147483647 / (4 * 64)

/-- What a fresh `BIGNUM` holds after `BN_hex2bn`. It stays zero without a digit and with too many. -/
def BN_hex2bn (a : String) : ℤ :=
  let neg := a.toList.head? = some '-'
  let digits := (if neg then a.toList.tail else a.toList).takeWhile isxdigit
  if digits.length = 0 ∨ digits.length > maxDigits then 0
  else if (digits.length * 4 + 63) / 64 > maxWords then 0
  else
    let l := digits.foldl (fun l c => l * 16 + hexchar2int c) 0
    if neg then -(l : ℤ) else l

/-- The digits `int_to_naf` pushes for a positive number, the lowest first. -/
def nafDigits (n : ℕ) : List ℤ :=
  if n = 0 then []
  else if n % 2 = 0 then 0 :: nafDigits (n / 2)
  else
    let ni : ℤ := 2 - (n % 4 : ℕ)
    ni :: nafDigits (if ni > 0 then (n - 1) / 2 else (n + 1) / 2)
termination_by n
decreasing_by
  · omega
  · split <;> omega

/-- The body of the loop `while (!BN_is_zero(n))` of `int_to_naf`, on `n` and `naf`. -/
def nafTurn (st : ℕ × List ℤ) : ℕ × List ℤ :=
  let (n, naf) := st
  if n % 2 = 0 then (n / 2, naf ++ [0])
  else
    let ni : ℤ := 2 - (n % 4 : ℕ)
    ((if ni > 0 then n - 1 else n + 1) / 2, naf ++ [ni])

/-- `int_to_naf`. -/
def int_to_naf (n : ℕ) : List ℤ :=
  if n = 0 then [0] else (nafDigits n).reverse

section PointMul

variable {A : Type*} [AddCommGroup A]

/-- `binary_POINT_mul(r, a, hexwords)`: what `r` holds afterwards, and the returned `TTV`. `BN_mod` by two and
`BN_rshift1` act on the magnitude. -/
def binary_POINT_mul (r a : A) (hexwords : String) : A × ℕ :=
  binaryLoop (BN_hex2bn hexwords).natAbs r a 0

/-- The body of the loop of `NAF_POINT_mul` at the digit `d`, on `R` and `TTV`. -/
def nafStep (G invert_G : A) (st : A × ℕ) (d : ℤ) : A × ℕ :=
  let st := (st.1 + st.1, st.2 + 7)
  let st := if d = 1 then (st.1 + G, st.2 + 15) else st
  if d = -1 then (st.1 + invert_G, st.2 + 15) else st

/-- `NAF_POINT_mul(R, G, hexwords)`: what `R` holds afterwards, and the returned `TTV`; `none` where the call
does not return, since the recoding of a negative number ends in the cycle `-1, -1, ...`. -/
def NAF_POINT_mul (G : A) (hexwords : String) : Option (A × ℕ) :=
  match BN_hex2bn hexwords with
  | .ofNat k => some ((int_to_naf k).tail.foldl (nafStep G (-G)) (G, 0))
  | .negSucc _ => none

end PointMul

end DbcSnark.DBCTest
