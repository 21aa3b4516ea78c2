import Mathlib.Data.UInt

/-! # 256-bit modular arithmetic on 64-bit words

The `dh_mybig` functions for the field prime `p` and for the group order `N`, which differ in the modulus and in
the constant `minv` only. The carry idioms that the source repeats on every line are named once.
-/

namespace DbcSnark.Gpuec

/-- `UINT64[4]`, least significant word first. -/
@[ext] structure Big where
  w0 : UInt64
  w1 : UInt64
  w2 : UInt64
  w3 : UInt64
deriving DecidableEq, Repr

namespace Big

def toNat (x : Big) : ℕ := x.w0.toNat + 2 ^ 64 * (x.w1.toNat + 2 ^ 64 * (x.w2.toNat + 2 ^ 64 * x.w3.toNat))

/-- The words of `n`, truncated to 256 bits. -/
def ofNat (n : ℕ) : Big :=
  ⟨.ofNat n, .ofNat (n / 2 ^ 64), .ofNat (n / 2 ^ 128), .ofNat (n / 2 ^ 192)⟩

instance : Zero Big := ⟨⟨0, 0, 0, 0⟩⟩

/-- `dh_mybig_iszero`. -/
def iszero (x : Big) : Bool := x.w0 ||| x.w1 ||| x.w2 ||| x.w3 == 0

end Big

/-! ## Words -/

/-- The value of a comparison. -/
def bit (b : Bool) : UInt64 := if b then 1 else 0

/-- `h_Hi64` and `__umul64hi`. -/
def hi64 (x y : UInt64) : UInt64 := .ofNat (x.toNat * y.toNat / 2 ^ 64)

/-- `z = x + f; g = z < f; z += y; g += z < y`. -/
def addCarry (x y f : UInt64) : UInt64 × UInt64 :=
  let z := x + f
  (z + y, bit (z < f) + bit (z + y < y))

/-- `g = x < f; z = x - f; g += z < y; z -= y`. -/
def subBorrow (x y f : UInt64) : UInt64 × UInt64 :=
  let z := x - f
  (z - y, bit (x < f) + bit (z < y))

/-- `l = ~b + c; h = l < c; l += a; c = h + (l < a)`. -/
def addNot (a b c : UInt64) : UInt64 × UInt64 :=
  let l := ~~~b + c
  (l + a, bit (l < c) + bit (l + a < a))

/-- `s = m * a; c += t; cin = c < t; s += c; cin += s < c; c = hi(m, a) + cin; t = s`. -/
def mulAdd (m a t c : UInt64) : UInt64 × UInt64 :=
  let s := m * a
  let c' := c + t
  (s + c', hi64 m a + (bit (c' < t) + bit (s + c' < c')))

/-! ## Four words -/

/-- The four lines of an addition, with the carry out. -/
def addWords (x y : Big) : Big × UInt64 :=
  let z0 := x.w0 + y.w0
  let r1 := addCarry x.w1 y.w1 (bit (z0 < y.w0))
  let r2 := addCarry x.w2 y.w2 r1.2
  let r3 := addCarry x.w3 y.w3 r2.2
  (⟨z0, r1.1, r2.1, r3.1⟩, r3.2)

/-- The four lines of a subtraction, with the borrow out. -/
def subWords (x y : Big) : Big × UInt64 :=
  let r1 := subBorrow x.w1 y.w1 (bit (x.w0 < y.w0))
  let r2 := subBorrow x.w2 y.w2 r1.2
  let r3 := subBorrow x.w3 y.w3 r2.2
  (⟨x.w0 - y.w0, r1.1, r2.1, r3.1⟩, r3.2)

/-- `dh_mybig_sub_64`, which adds the complement of the subtrahend and one. -/
def dh_mybig_sub_64 (A B : Big) : Big :=
  let r0 := addNot A.w0 B.w0 1
  let r1 := addNot A.w1 B.w1 r0.2
  let r2 := addNot A.w2 B.w2 r1.2
  let r3 := addNot A.w3 B.w3 r2.2
  ⟨r0.1, r1.1, r2.1, r3.1⟩

/-- The shift by one bit, with the bit that falls out. -/
def doubleWords (A : Big) : Big × UInt64 :=
  (⟨A.w0 <<< 1, A.w1 <<< 1 ||| A.w0 >>> 63 &&& 1, A.w2 <<< 1 ||| A.w1 >>> 63 &&& 1,
    A.w3 <<< 1 ||| A.w2 >>> 63 &&& 1⟩, A.w3 >>> 63 &&& 1)

/-- The loop that compares from the top word down and takes equal words for `z >= Pa`. -/
def geq (z Pa : Big) : Bool :=
  if z.w3 != Pa.w3 then z.w3 > Pa.w3
  else if z.w2 != Pa.w2 then z.w2 > Pa.w2
  else if z.w1 != Pa.w1 then z.w1 > Pa.w1
  else if z.w0 != Pa.w0 then z.w0 > Pa.w0
  else true

/-! ## Modular arithmetic -/

/-- A modulus of at least 255 bits with the constant `minv` of its Montgomery multiplication. -/
structure Modulus where
  Pa : Big
  minv : UInt64
  inverse : minv * Pa.w0 + 1 = 0
  high : 2 ^ 255 ≤ Pa.toNat

/-- `dc_p` with `minv = 0xd838091dd2253531`. -/
def modP : Modulus where
  Pa := ⟨0xFFFFFFFEFFFFFC2F, 0xFFFFFFFFFFFFFFFF, 0xFFFFFFFFFFFFFFFF, 0xFFFFFFFFFFFFFFFF⟩
  minv := 0xd838091dd2253531
  inverse := by decide
  high := by decide

/-- `dc_N` with `minv = 0x4b0dff665588b13f`. -/
def modN : Modulus where
  Pa := ⟨0xBFD25E8CD0364141, 0xBAAEDCE6AF48A03B, 0xFFFFFFFFFFFFFFFE, 0xFFFFFFFFFFFFFFFF⟩
  minv := 0x4b0dff665588b13f
  inverse := by decide
  high := by decide

namespace Modulus

variable (M : Modulus)

def modadd (x y : Big) : Big :=
  let r := addWords x y
  if r.2 ≠ 0 ∨ geq r.1 M.Pa then (subWords r.1 M.Pa).1 else r.1

def modsub (x y : Big) : Big :=
  let r := subWords x y
  if r.2 ≠ 0 then (addWords r.1 M.Pa).1 else r.1

/-- The second operand is an `unsigned int`, so the upper words see a borrow only. -/
def modsub_ui32 (x : Big) (y : UInt32) : Big :=
  let f := bit (x.w0 < y.toUInt64)
  let g := bit (x.w1 < f)
  let f' := bit (x.w2 < g)
  let z : Big := ⟨x.w0 - y.toUInt64, x.w1 - f, x.w2 - g, x.w3 - f'⟩
  if bit (x.w3 < f') ≠ 0 then (addWords z M.Pa).1 else z

def neg (y : Big) : Big := M.modsub 0 y

def moddouble (A : Big) : Big :=
  let r := doubleWords A
  if r.2 = 1 ∨ geq r.1 M.Pa then dh_mybig_sub_64 r.1 M.Pa else r.1

end Modulus

/-- The words `t[0..4]` between two rounds of the Montgomery multiplication. -/
structure Cios where
  t : Big
  t4 : UInt64

namespace Modulus

variable (M : Modulus)

/-- The round of the Montgomery multiplication for the word `m` of the second factor. -/
def monRound (A : Big) (t : Cios) (m : UInt64) : Cios :=
  let r0 := mulAdd m A.w0 t.t.w0 0
  let r1 := mulAdd m A.w1 t.t.w1 r0.2
  let r2 := mulAdd m A.w2 t.t.w2 r1.2
  let r3 := mulAdd m A.w3 t.t.w3 r2.2
  let t4 := t.t4 + r3.2
  let t5 := bit (t4 < r3.2)
  let m' := M.minv * r0.1
  let c := hi64 m' M.Pa.w0 + bit (m' * M.Pa.w0 + r0.1 < r0.1)
  let s1 := mulAdd m' M.Pa.w1 r1.1 c
  let s2 := mulAdd m' M.Pa.w2 r2.1 s1.2
  let s3 := mulAdd m' M.Pa.w3 r3.1 s2.2
  let s4 := t4 + s3.2
  ⟨⟨s1.1, s2.1, s3.1, s4⟩, t5 + bit (s4 < s3.2)⟩

def monmult (A B : Big) : Big :=
  let r := [B.w0, B.w1, B.w2, B.w3].foldl (M.monRound A) ⟨0, 0⟩
  if r.t4 ≠ 0 ∨ geq r.t M.Pa then dh_mybig_sub_64 r.t M.Pa else r.t

end Modulus

def dh_mybig_modadd_64 := modP.modadd
def dh_mybig_modadd_64_modN := modN.modadd
def dh_mybig_modsub_64 := modP.modsub
def dh_mybig_modsub_64_modN := modN.modsub
def dh_mybig_modsub_64_ui32_modN := modN.modsub_ui32
def dh_mybig_neg := modP.neg
def dh_mybig_neg_modN := modN.neg
/-- With `P = Pa`, as every caller passes it. -/
def dh_mybig_moddouble_64 := modP.moddouble
def dh_mybig_monmult_64 := modP.monmult
def dh_mybig_monmult_64_modN := modN.monmult

end DbcSnark.Gpuec
