import DbcSnark.Model.Gpuec.InPlace

/-! # The functions without a modulus, on memory

`dh_mybig_half_64`, `dh_mybig_double_64`, `dh_mybig_sub_64` and `dh_mybig_add_64` of `gpuec256.cu`, with their operands
given by address. A turn of a loop reads and writes memory in the order of its lines and hands the carry `c` on.
-/

namespace DbcSnark.Gpuec

namespace Ram

/-- `c1 = A[i] & 1; C[i] = c << 63 | A[i] >> 1; c = c1`. -/
def halfTurn (A C : ℕ) (r : Ram × UInt64) (i : ℕ) : Ram × UInt64 :=
  let c1 := r.1 (A + i) &&& 1
  (r.1.put (C + i) (r.2 <<< 63 ||| r.1 (A + i) >>> 1), c1)

/-- `dh_mybig_half_64(A, C)`, from the top word down. -/
def half_64 (m : Ram) (A C : ℕ) : Ram := ((List.range 4).reverse.foldl (halfTurn A C) (m, 0)).1

/-- `c1 = A[i] >> 63; C[i] = (C[i] << 1) | c; c = c1`. The word that is shifted is that of `C`. -/
def doubleTurn (A C : ℕ) (r : Ram × UInt64) (i : ℕ) : Ram × UInt64 :=
  let c1 := r.1 (A + i) >>> 63
  (r.1.put (C + i) (r.1 (C + i) <<< 1 ||| r.2), c1)

/-- `dh_mybig_double_64(A, C)` and the value it returns. -/
def double_64 (m : Ram) (A C : ℕ) : Ram × UInt64 := (List.range 4).foldl (doubleTurn A C) (m, 0)

/-- `l = ~B[i] + c; h = l < c; l += A[i]; c = h + (l < A[i]); C[i] = l`. -/
def subTurn (A B C : ℕ) (r : Ram × UInt64) (i : ℕ) : Ram × UInt64 :=
  let l := ~~~(r.1 (B + i)) + r.2
  let h := bit (l < r.2)
  let l := l + r.1 (A + i)
  let c := h + bit (l < r.1 (A + i))
  (r.1.put (C + i) l, c)

/-- `dh_mybig_sub_64(A, B, C)`. -/
def sub_64 (m : Ram) (A B C : ℕ) : Ram := ((List.range 4).foldl (subTurn A B C) (m, 1)).1

/-- `l = A[i] + c; h = l < c; l += B[i]; c = h + (l < B[i]); C[i] = l`. -/
def addTurn (A B C : ℕ) (r : Ram × UInt64) (i : ℕ) : Ram × UInt64 :=
  let l := r.1 (A + i) + r.2
  let h := bit (l < r.2)
  let l := l + r.1 (B + i)
  let c := h + bit (l < r.1 (B + i))
  (r.1.put (C + i) l, c)

/-- `dh_mybig_add_64(A, B, C)` and the value it returns. -/
def add_64 (m : Ram) (A B C : ℕ) : Ram × UInt64 := (List.range 4).foldl (addTurn A B C) (m, 0)

end Ram

end DbcSnark.Gpuec
