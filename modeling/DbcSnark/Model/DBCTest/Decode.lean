import DbcSnark.Model.DBCTest.MyBigInt

/-! # The constructors from strings and bytes

`myBigInt(char *)` and `myBigInt(unsigned char *, int)` first fill one word with the digits that do not make up a full
word, then shift the other digits into the words behind it. A stored word is truncated to 32 bits.
-/

namespace DbcSnark.DBCTest

namespace MyBigInt

variable {INTS : ℕ}

/-- Replace the word `data[i]` and truncate it. -/
def modify (x : MyBigInt INTS) (i : ℕ) (f : ℕ → ℤ) : MyBigInt INTS where
  data := x.data.modify i fun d => (f d % 2 ^ 32).toNat
  size := (List.length_modify _ _ _).trans x.size
  word d member := by
    rcases List.mem_iff_getElem.mp member with ⟨k, bound, rfl⟩
    rw [List.getElem_modify]
    split
    · omega
    · exact x.word _ (List.getElem_mem _)

/-- `data[i] <<= bits; data[i] += v` -/
def shiftIn (x : MyBigInt INTS) (bits i : ℕ) (v : ℤ) : MyBigInt INTS := x.modify i fun d => d <<< bits + v

/-- The second loop of both constructors: `level` words from `data[INTS-level]` on take `group` digits each, the first one
at `flag`. -/
def fullWords (bits group level : ℕ) (digit : ℕ → ℤ) (s : MyBigInt INTS × ℕ) : MyBigInt INTS × ℕ :=
  (List.range level).foldl (fun s k => (List.range group).foldl
    (fun s _ => (s.1.shiftIn bits (INTS - level + k) (digit s.2), s.2 + 1)) s) s

/-- The value that the branches on `c[i] <= '9'` and `c[i] <= 'F'` add. -/
def charValue (c : Char) : ℤ :=
  if c.toNat ≤ 57 then c.toNat - 48 else if c.toNat ≤ 70 then c.toNat - 65 + 10 else c.toNat - 97 + 10

/-- `myBigInt(char *c)`, for the characters in front of the terminating zero. -/
def ofString (INTS : ℕ) (c : List Char) : MyBigInt INTS :=
  let level := c.length / 8
  let first := c.length % 8
  let digit i := charValue (c.getD i '0')
  let x := (List.range first).foldl (fun x i => shiftIn x 4 (INTS - 1 - level) (digit i)) (ofNat INTS 0)
  (fullWords 4 8 level digit (x, first)).1

/-- `myBigInt(unsigned char *ushorts, int n)`. The first loop stores `data[INTS-1-len] = ushorts[i]` after the shift. -/
def ofBytes (INTS : ℕ) (ushorts : List UInt8) : MyBigInt INTS :=
  let first := ushorts.length % 4
  let len := ushorts.length / 4
  let digit i : ℤ := (ushorts.getD i 0).toNat
  let x := (List.range first).foldl
    (fun x i => (shiftIn x 8 (INTS - 1 - len) 0).modify (INTS - 1 - len) fun _ => digit i) (ofNat INTS 0)
  (fullWords 8 4 len digit (x, first)).1

end MyBigInt

end DbcSnark.DBCTest
