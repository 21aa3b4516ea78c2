import DbcSnark.Model.Gpuec.InPlace
import DbcSnark.Model.Gpuec.Wide

/-! # The Montgomery multiplications on memory

`dh_mybig_monmult_64` and `dh_mybig_monmult_64_modN` of `gpuec256.cu` and `dh_mybig_monmult_64` of `gpuec.cu` are the same
lines for four and for eight words, with their own modulus and `minv`. The words `t` are local; the result is written
word by word after the last operand has been read.
-/

namespace DbcSnark.Gpuec

/-- The words of a number, least significant word first. -/
def Big.words (x : Big) : List UInt64 := [x.w0, x.w1, x.w2, x.w3]

namespace Wide

/-- The rounds `for(i=0;i<n;i++)` for the words `ms` of the second factor. -/
def rounds (Pa : List UInt64) (minv : UInt64) (Aa ms : List UInt64) : Cios :=
  ms.foldl (fun t m => reduce Pa minv (accumulate Aa t m)) ⟨List.replicate Pa.length 0, 0, 0⟩

/-- The words that a multiplication stores. -/
def quotientWords (P : List UInt64) (minv : UInt64) (A B : List UInt64) : List UInt64 :=
  let t := rounds P minv A B
  if t.t8 ≠ 0 ∨ geq t.t P then dh_mybig_sub_64 t.t P else t.t

end Wide

namespace Ram

/-- The `n` words from address `a` on. -/
def words (m : Ram) (a n : ℕ) : List UInt64 := (List.range' a n).map m

/-- `for(i=0;i<n;i++) Ca[i]=t[i];` -/
def putWords (m : Ram) (Ca : ℕ) : List UInt64 → Ram
  | [] => m
  | t :: T => putWords (m.put Ca t) (Ca + 1) T

/-- `for(i=0;i<n;i++) { m=cin+(~Pa[i]); cin=(m<cin); m+=t[i]; cin+=(m<t[i]); Ca[i]=m; }` -/
def putDifference (m : Ram) (Ca : ℕ) (cin : UInt64) : List UInt64 → List UInt64 → Ram
  | t :: T, p :: Pa =>
    let r := addNot t p cin
    putDifference (m.put Ca r.1) (Ca + 1) r.2 T Pa
  | _, _ => m

/-- The common lines, for the modulus `Pa` and its constant `minv`. -/
def monmult (Pa : List UInt64) (minv : UInt64) (m : Ram) (Aa Ba Ca : ℕ) : Ram :=
  let t := Wide.rounds Pa minv (m.words Aa Pa.length) (m.words Ba Pa.length)
  if t.t8 ≠ 0 ∨ Wide.geq t.t Pa then m.putDifference Ca 1 t.t Pa else m.putWords Ca t.t

def dh_mybig_monmult_64 := monmult modP.Pa.words modP.minv
def dh_mybig_monmult_64_modN := monmult modN.Pa.words modN.minv
/-- The function of `gpuec.cu`. -/
def dh_mybig_monmult_64_wide := monmult Wide.Pa 1

end Ram

end DbcSnark.Gpuec
