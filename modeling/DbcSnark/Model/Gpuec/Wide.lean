import DbcSnark.Model.Gpuec.MyBig

/-! # 512-bit modular arithmetic on 64-bit words

The `dh_mybig` functions of `gpuec.cu` repeat the lines of their 256-bit namesakes for eight words. The loops run
over lists of words here, least significant word first.
-/

namespace DbcSnark.Gpuec

namespace Wide

/-- The number held by words of 64 bits. -/
def value : List UInt64 → ℕ
  | [] => 0
  | w :: ws => w.toNat + 2 ^ 64 * value ws

/-- The lines `s = m * a; ...; t = s` of one pass over the words of a factor, with the carry out. -/
def mulAddRow (m : UInt64) : UInt64 → List UInt64 → List UInt64 → List UInt64 × UInt64
  | c, a :: A, t :: T =>
    let r := mulAdd m a t c
    let rest := mulAddRow m r.2 A T
    (r.1 :: rest.1, rest.2)
  | c, _, _ => ([], c)

/-- The loop of `dh_mybig_sub_64`, with the carry out. -/
def subRow : UInt64 → List UInt64 → List UInt64 → List UInt64 × UInt64
  | c, a :: A, b :: B =>
    let r := addNot a b c
    let rest := subRow r.2 A B
    (r.1 :: rest.1, rest.2)
  | c, _, _ => ([], c)

/-- `dh_mybig_sub_64`. -/
def dh_mybig_sub_64 (A B : List UInt64) : List UInt64 := (subRow 1 A B).1

/-- The loop that compares from the top word down and takes equal words for `z >= Pa`. -/
def geq : List UInt64 → List UInt64 → Bool
  | z :: Z, p :: Pa => if Z = Pa then z ≥ p else geq Z Pa
  | _, _ => true

/-- `h_p`, the modulus of `gpuec.cu`, for which `minv` is 1. -/
def Pa : List UInt64 :=
  [0xffffffffffffffff, 0xfffffffeffffffff, 0xffffffffffffffff, 0xfffffffeffffffff,
    0xffffffffffffffff, 0xfffffffffffffffe, 0xfffffffeffffffff, 0xffffffffffffffff]

/-- The words `t[0..9]` of the Montgomery multiplication: eight words and two above them. -/
structure Cios where
  t : List UInt64
  t8 : UInt64
  t9 : UInt64

/-- The first half of a round: `t = t + m * A`. -/
def accumulate (A : List UInt64) (t : Cios) (m : UInt64) : Cios :=
  let r := mulAddRow m 0 A t.t
  let s := t.t8 + r.2
  ⟨r.1, s, bit (s < r.2)⟩

/-- The second half of a round: add the multiple of the modulus that clears `t[0]` and drop that word. -/
def reduce (Pa : List UInt64) (minv : UInt64) (t : Cios) : Cios :=
  let t0 := t.t.headD 0
  let Pa0 := Pa.headD 0
  let m := minv * t0
  let c := hi64 m Pa0 + bit (m * Pa0 + t0 < t0)
  let r := mulAddRow m c Pa.tail t.t.tail
  let s := t.t8 + r.2
  ⟨r.1 ++ [s], t.t9 + bit (s < r.2), t.t9⟩

/-- `dh_mybig_monmult_64`. -/
def dh_mybig_monmult_64 (Aa Ba : List UInt64) : List UInt64 :=
  let t := Ba.foldl (fun t m => reduce Pa 1 (accumulate Aa t m)) ⟨List.replicate 8 0, 0, 0⟩
  if t.t8 ≠ 0 ∨ geq t.t Pa then dh_mybig_sub_64 t.t Pa else t.t

end Wide

end DbcSnark.Gpuec
