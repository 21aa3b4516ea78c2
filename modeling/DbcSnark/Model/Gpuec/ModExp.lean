import DbcSnark.Model.Gpuec.InPlace

/-! # Montgomery exponentiation

The three exponentiations scan the exponent from its leading bit down: the local array `tbn` starts as the base, is
squared for every further bit and multiplied with the base where the bit is set. The result is copied to the output
at the end, while the base is read from memory throughout.
-/

namespace DbcSnark.Gpuec

/-- `k[i]`. -/
def Big.word (k : Big) : ℕ → UInt64
  | 0 => k.w0
  | 1 => k.w1
  | 2 => k.w2
  | _ => k.w3

/-- `(w >> j) & 0x01`. -/
def bitAt (w : UInt64) (j : ℕ) : UInt64 := w >>> .ofNat j &&& 1

/-- The exponent of the leading bit below `width`, as `for (j = width - 1; j >= 0; j--)` finds it. -/
def leadingBit (w : UInt64) (width : ℕ) : Option ℕ := (List.range width).reverse.find? fun j => bitAt w j ≠ 0

/-- The leading nonzero word, as `for (i = 3; i >= 0; i--)` finds it. -/
def leadingWord (k : Big) : Option ℕ := (List.range 4).reverse.find? fun i => k.word i ≠ 0

section Loops

variable (M : Modulus) (a : Big)

/-- The body of the loops over the bits. -/
def expStep (w : UInt64) (tbn : Big) (j : ℕ) : Big :=
  let tbn := M.monmult tbn tbn
  if bitAt w j = 1 then M.monmult tbn a else tbn

/-- The loop over the bits `n - 1, ..., 0` of a word. -/
def expBits (w : UInt64) (n : ℕ) (tbn : Big) : Big := (List.range n).reverse.foldl (expStep M a w) tbn

/-- The loop over the words `i - 1, ..., 0`. -/
def expWords (k : Big) (i : ℕ) (tbn : Big) : Big :=
  (List.range i).reverse.foldl (fun tbn i => expBits M a (k.word i) 64 tbn) tbn

end Loops

namespace Modulus

variable (M : Modulus)

/-- `dh_mybig_modexp`, up to the copy to the output. The exponent zero has no leading word, and `k[-1]` is read. -/
def modexp (a k : Big) : Option Big := do
  let i ← leadingWord k
  let j ← leadingBit (k.word i) 64
  return expWords M a k i (expBits M a (k.word i) j a)

/-- `dh_mybig_modexp_ui32_modN`, up to the copy to the output; `mon_ONE` is the result for the exponent zero. -/
def modexp_ui32 (mon_ONE a : Big) (k : UInt32) : Option Big :=
  if k = 0 then some mon_ONE
  else do
    let i ← leadingBit k.toUInt64 32
    return expBits M a k.toUInt64 i a

end Modulus

/-- `dc_mon_ONE_modN`. -/
def dc_mon_ONE_modN : Big := ⟨0x402da1732fc9bebf, 0x4551231950b75fc4, 0x1, 0x0⟩

namespace Ram

/-- `dh_mybig_modexp(a, k, c)` and `dh_mybig_modexp_modN(a, k, c)`. -/
def modexp (M : Modulus) (m : Ram) (a k c : ℕ) : Option Ram := (M.modexp (m.big a) (m.big k)).map (m.putBig c)

/-- `dh_mybig_modexp_ui32_modN(a, k, c)`. -/
def modexp_ui32 (M : Modulus) (mon_ONE : Big) (m : Ram) (a : ℕ) (k : UInt32) (c : ℕ) : Option Ram :=
  (M.modexp_ui32 mon_ONE (m.big a) k).map (m.putBig c)

def dh_mybig_modexp := modexp modP
def dh_mybig_modexp_modN := modexp modN
def dh_mybig_modexp_ui32_modN := modexp_ui32 modN dc_mon_ONE_modN

end Ram

end DbcSnark.Gpuec
