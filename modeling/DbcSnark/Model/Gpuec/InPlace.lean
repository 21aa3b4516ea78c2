import DbcSnark.Model.Gpuec.MyBig
import Mathlib.Logic.Function.Basic

/-! # The 256-bit functions on memory

The same functions with their operands given by address. Each line reads and writes single words in the order of
the source, so an output may overlap an operand; what then happens depends on which words have been overwritten
before they are read.
-/

namespace DbcSnark.Gpuec

/-- Memory as words of 64 bits. -/
abbrev Ram := ℕ → UInt64

namespace Ram

/-- `*a = v`. -/
def put (m : Ram) (a : ℕ) (v : UInt64) : Ram := Function.update m a v

/-- The four words from address `a` on. -/
def big (m : Ram) (a : ℕ) : Big := ⟨m a, m (a + 1), m (a + 2), m (a + 3)⟩

/-- Write four words from address `a` on, each after it was last read. -/
def putBig (m : Ram) (a : ℕ) (v : Big) : Ram :=
  (((m.put a v.w0).put (a + 1) v.w1).put (a + 2) v.w2).put (a + 3) v.w3

/-- `*z = *x + f; g = *z < f; *z += *y; g += *z < *y`. -/
def addLine (m : Ram) (x y z : ℕ) (f : UInt64) : Ram × UInt64 :=
  let m := m.put z (m x + f)
  let g := bit (m z < f)
  let m := m.put z (m z + m y)
  (m, g + bit (m z < m y))

/-- `g = *x < f; *z = *x - f; g += *z < *y; *z -= *y`. -/
def subLine (m : Ram) (x y z : ℕ) (f : UInt64) : Ram × UInt64 :=
  let g := bit (m x < f)
  let m := m.put z (m x - f)
  let g := g + bit (m z < m y)
  (m.put z (m z - m y), g)

/-- `g = 0 < f; *z = 0 - f; g += *z < *y; *z -= *y`. -/
def negLine (m : Ram) (y z : ℕ) (f : UInt64) : Ram × UInt64 :=
  let g := bit (0 < f)
  let m := m.put z (0 - f)
  let g := g + bit (m z < m y)
  (m.put z (m z - m y), g)

section Functions

variable (M : Modulus)

/-- `dh_mybig_modadd_64(x, y, z)`; the closing subtraction of the modulus touches the words of `z` only. -/
def modadd (m : Ram) (x y z : ℕ) : Ram :=
  let m := m.put z (m x + m y)
  let f := bit (m z < m y)
  let r := addLine m (x + 1) (y + 1) (z + 1) f
  let r := addLine r.1 (x + 2) (y + 2) (z + 2) r.2
  let r := addLine r.1 (x + 3) (y + 3) (z + 3) r.2
  let m := r.1
  if r.2 ≠ 0 ∨ geq (m.big z) M.Pa then m.putBig z (subWords (m.big z) M.Pa).1 else m

/-- The closing addition of the modulus, on the words of `z`. -/
def restore (m : Ram) (z : ℕ) (g : UInt64) : Ram :=
  if g ≠ 0 then m.putBig z (addWords (m.big z) M.Pa).1 else m

/-- `dh_mybig_modsub_64(x, y, z)`. -/
def modsub (m : Ram) (x y z : ℕ) : Ram :=
  let f := bit (m x < m y)
  let m := m.put z (m x - m y)
  let r := subLine m (x + 1) (y + 1) (z + 1) f
  let r := subLine r.1 (x + 2) (y + 2) (z + 2) r.2
  let r := subLine r.1 (x + 3) (y + 3) (z + 3) r.2
  restore M r.1 z r.2

/-- `dh_mybig_modsub_64_ui32_modN(x, y, z)`. -/
def modsub_ui32 (m : Ram) (x : ℕ) (y : UInt32) (z : ℕ) : Ram :=
  let f := bit (m x < y.toUInt64)
  let m := m.put z (m x - y.toUInt64)
  let g := bit (m (x + 1) < f)
  let m := m.put (z + 1) (m (x + 1) - f)
  let f := bit (m (x + 2) < g)
  let m := m.put (z + 2) (m (x + 2) - g)
  let g := bit (m (x + 3) < f)
  let m := m.put (z + 3) (m (x + 3) - f)
  restore M m z g

/-- `dh_mybig_neg(y, z)`. -/
def neg (m : Ram) (y z : ℕ) : Ram :=
  let f := bit (0 < m y)
  let m := m.put z (0 - m y)
  let r := negLine m (y + 1) (z + 1) f
  let r := negLine r.1 (y + 2) (z + 2) r.2
  let r := negLine r.1 (y + 3) (z + 3) r.2
  restore M r.1 z r.2

/-- `dh_mybig_moddouble_64(A, Pa, C)`. -/
def moddouble (m : Ram) (A C : ℕ) : Ram :=
  let cin := m A >>> 63 &&& 1
  let m := m.put C (m A <<< 1)
  let c := m (A + 1) >>> 63 &&& 1
  let m := m.put (C + 1) (m (A + 1) <<< 1 ||| cin)
  let cin := m (A + 2) >>> 63 &&& 1
  let m := m.put (C + 2) (m (A + 2) <<< 1 ||| c)
  let c := m (A + 3) >>> 63 &&& 1
  let m := m.put (C + 3) (m (A + 3) <<< 1 ||| cin)
  if c = 1 ∨ geq (m.big C) M.Pa then m.putBig C (dh_mybig_sub_64 (m.big C) M.Pa) else m

end Functions

end Ram

end DbcSnark.Gpuec
