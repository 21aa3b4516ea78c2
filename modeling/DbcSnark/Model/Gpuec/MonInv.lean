import DbcSnark.Model.Gpuec.MonMult

/-! # The Montgomery inverse

`dh_mybig_moninv` and `dh_mybig_moninv_modN` of `gpuec256.cu` and `dh_mybig_moninv` of `gpuec.cu` are the same lines for
four and for eight words, with their own modulus; they differ where the first phase takes as many rounds as the modulus
has bits. The arrays `U`, `V`, `R` and `S` are local, and the result is stored after the argument has been read.
-/

namespace DbcSnark.Gpuec

namespace Wide

/-- The loop of `dh_mybig_half_64`, with the bit that falls out. -/
def halfRow : List UInt64 → List UInt64 × UInt64
  | [] => ([], 0)
  | a :: A =>
    let r := halfRow A
    ((r.2 <<< 63 ||| a >>> 1) :: r.1, a &&& 1)

/-- `dh_mybig_half_64`. -/
def dh_mybig_half_64 (A : List UInt64) : List UInt64 := (halfRow A).1

/-- The loop of `dh_mybig_double_64(A, A)`, with the carry out. -/
def doubleRow : UInt64 → List UInt64 → List UInt64 × UInt64
  | c, [] => ([], c)
  | c, a :: A =>
    let r := doubleRow (a >>> 63) A
    ((a <<< 1 ||| c) :: r.1, r.2)

/-- `dh_mybig_double_64(A, A)`. -/
def dh_mybig_double_64 (A : List UInt64) : List UInt64 × UInt64 := doubleRow 0 A

/-- The loop of `dh_mybig_add_64`, with the carry out. -/
def addRow : UInt64 → List UInt64 → List UInt64 → List UInt64 × UInt64
  | c, a :: A, b :: B =>
    let r := addCarry a b c
    let rest := addRow r.2 A B
    (r.1 :: rest.1, rest.2)
  | c, _, _ => ([], c)

/-- `dh_mybig_add_64`. -/
def dh_mybig_add_64 (A B : List UInt64) : List UInt64 × UInt64 := addRow 0 A B

/-- `dh_mybig_compare_64`, which scans from the top word down. -/
def dh_mybig_compare_64 : List UInt64 → List UInt64 → ℤ
  | a :: A, b :: B =>
    let flag := dh_mybig_compare_64 A B
    if flag ≠ 0 then flag else if a > b then 1 else if a < b then -1 else 0
  | _, _ => 0

/-- `dh_mybig_iszero_64`. -/
def dh_mybig_iszero_64 (A : List UInt64) : Bool := A.all (· == 0)

/-- `dh_mybig_moddouble_64(A, P, A)`, whose shift is that of `dh_mybig_double_64`. -/
def dh_mybig_moddouble_64 (A P : List UInt64) : List UInt64 :=
  let r := doubleRow 0 A
  if r.2 = 1 ∨ geq r.1 P then dh_mybig_sub_64 r.1 P else r.1

/-- The variables of the first phase; `cr` is not initialised. -/
structure Inversion where
  U : List UInt64
  V : List UInt64
  R : List UInt64
  S : List UInt64
  cr : Option UInt64
  k : ℕ

namespace Inversion

/-- The lines `0. initial`. -/
def initial (P A : List UInt64) : Inversion :=
  ⟨P, A, List.replicate P.length 0, 1 :: List.replicate (P.length - 1) 0, none, 0⟩

/-- The body of the loop. -/
def round (x : Inversion) : Inversion :=
  let cp := dh_mybig_compare_64 x.U x.V
  if x.U.headD 0 &&& 1 = 0 then
    { x with U := dh_mybig_half_64 x.U, S := (dh_mybig_double_64 x.S).1, k := x.k + 1 }
  else if x.V.headD 0 &&& 1 = 0 then
    let R := dh_mybig_double_64 x.R
    { x with V := dh_mybig_half_64 x.V, R := R.1, cr := some R.2, k := x.k + 1 }
  else if cp = 1 then
    let R := dh_mybig_add_64 x.R x.S
    { x with
      U := dh_mybig_half_64 (dh_mybig_sub_64 x.U x.V), R := R.1, cr := some R.2
      S := (dh_mybig_double_64 x.S).1, k := x.k + 1 }
  else
    let R := dh_mybig_double_64 x.R
    { x with
      V := dh_mybig_half_64 (dh_mybig_sub_64 x.V x.U), S := (dh_mybig_add_64 x.S x.R).1
      R := R.1, cr := some R.2, k := x.k + 1 }

/-- The loop `while(z==0)`, for so many rounds at most. -/
def phaseI : ℕ → Inversion → Option Inversion
  | 0, x => if dh_mybig_iszero_64 x.V then some x else none
  | fuel + 1, x => if dh_mybig_iszero_64 x.V then some x else phaseI fuel x.round

/-- The lines behind the loop: `R` is reduced and negated. -/
def reduce (P : List UInt64) (x : Inversion) : Option (List UInt64) := do
  let cp := dh_mybig_compare_64 x.R P
  let subtract ← (if cp = 1 ∨ cp = 0 then some true else x.cr.map (· = 1) : Option Bool)
  let R := if subtract then dh_mybig_sub_64 x.R P else x.R
  return dh_mybig_sub_64 P R

end Inversion

/-- The second phase, with no value where `V` is indexed out of its range; `even` is the line for `k` equal to the
bits of the modulus. -/
def phaseII (P : List UInt64) (minv : UInt64) (even : List UInt64 → List UInt64) (R : List UInt64) (k : ℕ) :
    Option (List UInt64) :=
  let l := 64 * P.length
  if l < k then
    if k ≤ 2 * l then
      let V := (List.replicate P.length (0 : UInt64)).set ((2 * l - k) / 64) (1 <<< UInt64.ofNat ((2 * l - k) % 64))
      some (quotientWords P minv R V)
    else none
  else if k = l then some (even R)
  else some ((List.range (l - k)).foldl (fun R _ => dh_mybig_moddouble_64 R P) R)

/-- The inverse of `A`. The loop of the first phase never takes more rounds than allowed here. -/
def moninv (P : List UInt64) (minv : UInt64) (even : List UInt64 → List UInt64) (A : List UInt64) :
    Option (List UInt64) := do
  let x ← Inversion.phaseI (2 * (64 * P.length)) (.initial P A)
  let R ← x.reduce P
  phaseII P minv even R x.k

/-- `h_mon_ONE` of `gpuec.cu`, which its second phase spells out. -/
def mon_ONE : List UInt64 :=
  [0x0000000000000001, 0x0000000100000000, 0x0000000000000000, 0x0000000100000000, 0x0000000000000000,
    0x0000000000000001, 0x0000000100000000, 0x0000000000000000]

/-- `dh_mybig_moninv` of `gpuec.cu`. -/
def dh_mybig_moninv : List UInt64 → Option (List UInt64) := moninv Pa 1 fun R => quotientWords Pa 1 R mon_ONE

end Wide

/-- The number with these words. -/
def Big.ofWords (X : List UInt64) : Big := ⟨X.getD 0 0, X.getD 1 0, X.getD 2 0, X.getD 3 0⟩

/-- The common lines of `dh_mybig_moninv` and `dh_mybig_moninv_modN`. -/
def Modulus.moninv (M : Modulus) (A : Big) : Option Big :=
  (Wide.moninv M.Pa.words M.minv id A.words).map Big.ofWords

def dh_mybig_moninv := modP.moninv
def dh_mybig_moninv_modN := modN.moninv

namespace Ram

/-- `dh_mybig_moninv(A, C)` and `dh_mybig_moninv_modN(A, C)`. -/
def moninv (M : Modulus) (m : Ram) (A C : ℕ) : Option Ram := (M.moninv (m.big A)).map (m.putBig C)

def dh_mybig_moninv := moninv modP
def dh_mybig_moninv_modN := moninv modN

/-- The function of `gpuec.cu`. -/
def dh_mybig_moninv_wide (m : Ram) (A C : ℕ) : Option Ram := (Wide.dh_mybig_moninv (m.words A 8)).map (m.putWords C)

end Ram

end DbcSnark.Gpuec
