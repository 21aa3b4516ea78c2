import DbcSnark.Model.Gpuec.Point
import DbcSnark.Model.Gpuec.Sha256
import DbcSnark.Model.Gpuec.Text

/-! # Challenges from a transcript

`HashBP` of `cuverify.cu`, and `HashBP_V2` and `device_hashBP` of `cuverify.cu` and `rp.cu`, which are the same in both
files. They read `x` and `y` of two points, their outputs overlap neither, and the second challenge is computed when
the caller passes an address for it. The hash of the host is a library; a byte is the same as `char` and as
`unsigned char`.
-/

namespace DbcSnark.Gpuec

open Hexadecimal

/-- `uint642byte`, `d_uint642byte`. -/
def uint642byte (x : Big) : List UInt8 :=
  (List.range 4).flatMap fun i => (List.range 8).map fun j =>
    (x.word (3 - i) >>> UInt64.ofNat ((7 - j) * 8) &&& 0xff).toUInt8

/-- The bytes of a string. -/
def ascii (s : List Char) : List UInt8 := s.map fun c => UInt8.ofNat c.toNat

/-- The digits that `sprintf(s + (i * 2), "%02x", hash[i])` writes. -/
def hexString (hash : Vector UInt8 32) : List Char :=
  hash.toList.flatMap fun b => [lower (b.toNat / 16), lower (b.toNat % 16)]

/-- `hash[k+7] | hash[k+6] << 8 | ... | hash[k] << 56`. -/
def digestWord (hash : Vector UInt8 32) (k : ℕ) (inside : k + 7 < 32) : UInt64 :=
  hash[k + 7].toUInt64 ||| hash[k + 6].toUInt64 <<< 8 ||| hash[k + 5].toUInt64 <<< 16 ||| hash[k + 4].toUInt64 <<< 24 |||
    hash[k + 3].toUInt64 <<< 32 ||| hash[k + 2].toUInt64 <<< 40 ||| hash[k + 1].toUInt64 <<< 48 |||
    hash[k].toUInt64 <<< 56

/-- The four words of a challenge. -/
def challenge (hash : Vector UInt8 32) : Big :=
  ⟨digestWord hash 24 (by decide), digestWord hash 16 (by decide), digestWord hash 8 (by decide),
    digestWord hash 0 (by decide)⟩

/-- The coordinates that are hashed. -/
def coordinates (A S : Jpoint) : List Big := [A.x, A.y, S.x, S.y]

section Host

variable {Context : Type*} (H : StreamingHash Context UInt8 (Vector UInt8 32)) (A S : Jpoint)

/-- The pieces that `HashBP` feeds to its first hash. -/
def HashBP.pieces : List (List UInt8) := (coordinates A S).map fun c => ascii (Text.uint642str c)

/-- The pieces that `HashBP_V2` feeds to its first hash. -/
def HashBP_V2.pieces : List (List UInt8) := (coordinates A S).map uint642byte

/-- `HashBP`, with no value where `str2uint64` throws. -/
def HashBP (second : Bool) : Option (Big × Option Big) := do
  let hash := H.digest (HashBP.pieces A S)
  let o1str := hexString hash
  let o1 ← Cuverify.str2uint64 o1str
  if second then
    let hash := H.digest (HashBP.pieces A S ++ [ascii o1str])
    let o2 ← Cuverify.str2uint64 (hexString hash)
    return (o1, some o2)
  else
    return (o1, none)

/-- `HashBP_V2`. -/
def HashBP_V2 (second : Bool) : Big × Option Big :=
  let hash := H.digest (HashBP_V2.pieces A S)
  let o1 := challenge hash
  if second then
    let hash := H.digest (HashBP_V2.pieces A S ++ [uint642byte o1])
    (o1, some (challenge hash))
  else (o1, none)

end Host

/-- `device_hashBP`. -/
def device_hashBP (ctx ctx2 : MYSHA256_CTX) (A B : Jpoint) (second : Bool) : Big × Option Big :=
  let hash := (Sha256.device ctx).digest [uint642byte A.x, uint642byte A.y, uint642byte B.x, uint642byte B.y]
  let x := challenge hash
  if second then
    let hash := (Sha256.device ctx2).digest
      [uint642byte A.x, uint642byte A.y, uint642byte B.x, uint642byte B.y, hash.toList]
    (x, some (challenge hash))
  else (x, none)

end DbcSnark.Gpuec
