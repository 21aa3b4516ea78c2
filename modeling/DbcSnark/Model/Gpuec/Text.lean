import DbcSnark.Model.Gpuec.ModExp
import DbcSnark.ToMathlib.Hexadecimal

/-! # Numbers as text

`uint642str`, which `rp.cu` and `cuverify.cu` share, and their two copies of `str2uint64`. A string is the list of its
characters in front of the terminating zero; sizes are unsigned numbers of 64 bits, and `substr` throws where it starts
behind the end.
-/

namespace DbcSnark.Gpuec

open Hexadecimal

namespace Text

/-- One round of the inner loop of `uint642str`, for the digit `d`: leading zeros are skipped, `sprintf` appends. -/
def putDigit (s : List Char) (d : UInt64) : List Char :=
  if s.length = 0 ∧ d = 0 then s else s ++ [lower d.toNat]

/-- `uint642str`. -/
def uint642str (x : Big) : List Char :=
  [3, 2, 1, 0].foldl (fun s i => (List.range 16).foldl
    (fun s j => putDigit s (x.word i >>> UInt64.ofNat ((15 - j) * 4) &&& 0xf)) s) []

def isspace (c : Char) : Bool := c.toNat = 32 || (9 ≤ c.toNat && c.toNat ≤ 13)

/-- The sign of a number, if there is one. -/
def sign : List Char → Bool × List Char
  | '-' :: s => (true, s)
  | '+' :: s => (false, s)
  | s => (false, s)

/-- Leave out `0x`, if a digit follows it. -/
def stripRadix : List Char → List Char
  | '0' :: x :: s => if (x = 'x' ∨ x = 'X') ∧ (s.head?.bind digit?).isSome then s else '0' :: x :: s
  | s => s

/-- `strtoull(s, NULL, 16)`. -/
def strtoull (s : List Char) : UInt64 :=
  let (negative, s) := sign (s.dropWhile isspace)
  let n := number ((stripRadix s).takeWhile fun c => (digit? c).isSome)
  if 2 ^ 64 ≤ n then .ofNat (2 ^ 64 - 1) else if negative then -.ofNat n else .ofNat n

/-- `s.substr(pos, n)`, with no value where it throws `out_of_range`. -/
def substr (s : List Char) (pos n : UInt64) : Option (List Char) :=
  if s.length < pos.toNat then none else some ((s.drop pos.toNat).take n.toNat)

end Text

open Text

/-- `str2uint64` of `rp.cu`. -/
def Rp.str2uint64 (s : List Char) : Option Big := do
  let size := UInt64.ofNat s.length
  let x0 ← substr s (size - 16) 16
  let x1 ← substr s (size - 32) 16
  let x2 ← substr s (size - 48) 16
  let x3 ← substr s 0 (16 - (64 - size))
  return ⟨strtoull x0, strtoull x1, strtoull x2, strtoull x3⟩

/-- `str2uint64` of `cuverify.cu`. -/
def Cuverify.str2uint64 (s : List Char) : Option Big := do
  let size := UInt64.ofNat s.length
  if s.length < 16 then
    return ⟨strtoull s, 0, 0, 0⟩
  if s.length < 32 then
    let x0 ← substr s (size - 16) 16
    let x1 ← substr s 0 (16 - (32 - size))
    return ⟨strtoull x0, strtoull x1, 0, 0⟩
  if s.length < 48 then
    let x0 ← substr s (size - 16) 16
    let x1 ← substr s (size - 32) 16
    let x2 ← substr s 0 (16 - (48 - size))
    return ⟨strtoull x0, strtoull x1, strtoull x2, 0⟩
  let x0 ← substr s (size - 16) 16
  let x1 ← substr s (size - 32) 16
  let x2 ← substr s (size - 48) 16
  let x3 ← substr s 0 (16 - (64 - size))
  return ⟨strtoull x0, strtoull x1, strtoull x2, strtoull x3⟩

end DbcSnark.Gpuec
