import DbcSnark.Model.Gpuec.ModExp
import DbcSnark.Model.Gpuec.Point

/-! # Point multiplication

Three multiplications scan the scalar from its leading bit down: the accumulator starts as the point, is doubled for
every further bit, and the point is added to it where the bit is set. `d_base_point_mul` scans from the lowest set bit
up and adds the entries of a table. The words of the scalar are read from memory throughout. The locals `tp` and `t` are
points in memory, given by their addresses. The addition is a parameter up to the last definitions, where it is that of
the source.
-/

namespace DbcSnark.Gpuec

/-- The lowest nonzero word, as `for (i = 0; i < 4; i++)` finds it. -/
def lowestWord (k : Big) : Option ℕ := (List.range 4).find? fun i => k.word i ≠ 0

/-- The exponent of the lowest set bit, as `for (j = 0; j < 64; j++)` finds it. -/
def lowestBit (w : UInt64) : Option ℕ := (List.range 64).find? fun j => bitAt w j ≠ 0

namespace Ram

/-- `dh_mybig_copy` of the three coordinates. -/
def copyPoint (m : Ram) (pt1 pt2 : ℕ) : Ram :=
  let m := m.putBig pt2 (m.big pt1)
  let m := m.putBig (pt2 + 4) (m.big (pt1 + 4))
  m.putBig (pt2 + 8) (m.big (pt1 + 8))

section Doubling

variable (add : Ram → ℕ → ℕ → ℕ → Ram) (k acc base : ℕ)

/-- The body of the loops over the bits: `ppoint_double(acc, acc)`, then `dh_ellipticAdd_JJ(acc, base, acc)` for a set
bit. -/
def multStep (i : ℕ) (m : Ram) (j : ℕ) : Ram :=
  let m := ppoint_double m acc acc
  if bitAt ((m.big k).word i) j = 1 then add m acc base acc else m

/-- The loop over the bits `n - 1, ..., 0` of the word `i`. -/
def multBits (i n : ℕ) (m : Ram) : Ram := (List.range n).reverse.foldl (multStep add k acc base i) m

/-- The loop over the words `i - 1, ..., 0`. -/
def multWords (i : ℕ) (m : Ram) : Ram := (List.range i).reverse.foldl (fun m i => multBits add k acc base i 64 m) m

end Doubling

section Functions

variable (add : Ram → ℕ → ℕ → ℕ → Ram)

/-- The lines of `dh_point_mult_inplace`. The scalar zero has no leading word, and `k[-1]` is read. -/
def point_mult_inplace (tp : ℕ) (m : Ram) (pt1 k : ℕ) : Option Ram := do
  let i ← leadingWord (m.big k)
  let j ← leadingBit ((m.big k).word i) 64
  let m := m.copyPoint pt1 tp
  let m := multBits add k pt1 tp i j m
  return multWords add k pt1 tp i m

/-- The lines of `dh_point_mult_finalversion`. -/
def point_mult_finalversion (tp : ℕ) (m : Ram) (pt1 k pt2 : ℕ) : Option Ram := do
  let i ← leadingWord (m.big k)
  let j ← leadingBit ((m.big k).word i) 64
  let m := m.copyPoint pt1 tp
  if pt1 = pt2 then
    let m := multBits add k pt1 tp i j m
    return multWords add k pt1 tp i m
  else
    let m := multBits add k tp pt1 i j m
    let m := multWords add k tp pt1 i m
    return m.copyPoint tp pt2

/-- The lines of `dh_point_mult_outofplace`. -/
def point_mult_outofplace (m : Ram) (pt1 k pt2 : ℕ) : Option Ram := do
  let m := m.copyPoint pt1 pt2
  let i ← leadingWord (m.big k)
  let j ← leadingBit ((m.big k).word i) 64
  let m := multBits add k pt2 pt1 i j m
  return multWords add k pt2 pt1 i m

end Functions

section Table

variable (add : Ram → ℕ → ℕ → Ram) (basePointMulPCT k t : ℕ)

/-- The body of the loops of `d_base_point_mul`. -/
def tableStep (i : ℕ) (m : Ram) (j : ℕ) : Ram :=
  if bitAt ((m.big k).word i) j = 1 then add m t (basePointMulPCT + 8 * (i * 64 + j)) else m

/-- The loop over the bits `j, ..., 63` of the word `i`. -/
def tableBits (i j : ℕ) (m : Ram) : Ram := (List.range' j (64 - j)).foldl (tableStep add basePointMulPCT k t i) m

/-- The loop over the words `i, ..., 3`. -/
def tableWords (i : ℕ) (m : Ram) : Ram :=
  (List.range' i (4 - i)).foldl (fun m i => tableBits add basePointMulPCT k t i 0 m) m

/-- The lines of `d_base_point_mul`. The scalar zero has no lowest word, and `k[4]` is read. -/
def base_point_mul (m : Ram) (res : ℕ) : Option Ram := do
  let i ← lowestWord (m.big k)
  let j ← lowestBit ((m.big k).word i)
  let m := m.putBig t (m.big (basePointMulPCT + 8 * (i * 64 + j)))
  let m := m.putBig (t + 4) (m.big (basePointMulPCT + 8 * (i * 64 + j) + 4))
  let m := m.putBig (t + 8) dc_mon_ONE
  let m := tableBits add basePointMulPCT k t i (j + 1) m
  let m := tableWords add basePointMulPCT k t (i + 1) m
  return m.copyPoint t res

end Table

/-- `dh_point_mult_inplace(pt1, k)`. -/
def dh_point_mult_inplace := point_mult_inplace dh_ellipticAdd_JJ

/-- `dh_point_mult_finalversion(pt1, k, pt2)`. -/
def dh_point_mult_finalversion := point_mult_finalversion dh_ellipticAdd_JJ

/-- `dh_point_mult_outofplace(pt1, k, pt2)`. -/
def dh_point_mult_outofplace := point_mult_outofplace dh_ellipticAdd_JJ

/-- `d_base_point_mul(res, k)`. -/
def d_base_point_mul (basePointMulPCT t : ℕ) (m : Ram) (res k : ℕ) : Option Ram :=
  base_point_mul dh_ellipticSumEqual_AJ basePointMulPCT k t m res

end Ram

end DbcSnark.Gpuec
