import DbcSnark.Model.Gpuec.Transcript
import DbcSnark.Proofs.Gpuec.Sha256
import DbcSnark.Proofs.Gpuec.Text
import Mathlib.Data.List.GetD

/-! # What a transcript binds and who agrees on it

A number is encoded as its 32 bytes or as its digits. The bytes of a challenge are those of the digest, so host and
device feed the same message to the second hash. Encodings of fixed length determine the coordinates; digits without
leading zeros, written one after the other, determine them only together with their lengths.
-/

namespace DbcSnark.Gpuec

open Hexadecimal BigEndian Text

/-! ## Bytes -/

/-- The bytes of a word, as the inner loop of `uint642byte` shifts them out. -/
private def wordBytes (w : UInt64) : List UInt8 :=
  (List.range 8).map fun j => (w >>> UInt64.ofNat ((7 - j) * 8) &&& 0xff).toUInt8

private theorem uint642byte_eq (x : Big) :
    uint642byte x = wordBytes x.w3 ++ (wordBytes x.w2 ++ (wordBytes x.w1 ++ wordBytes x.w0)) := by
  rw [uint642byte, show List.range 4 = [0, 1, 2, 3] from rfl]
  simp only [List.flatMap_cons, List.flatMap_nil, List.append_nil]
  rfl

private theorem toNat_wordBytes (w : UInt64) : (wordBytes w).map UInt8.toNat = digits 256 8 w.toNat := by
  rw [digits_eq_map, wordBytes, List.map_map]
  apply List.map_congr_left
  intro j member
  have inside := List.mem_range.mp member
  have amount : (UInt64.ofNat ((7 - j) * 8)).toNat % 64 = 8 * (7 - j) := by
    rw [UInt64.toNat_ofNat']
    omega
  have byte : w.toNat >>> (8 * (7 - j)) &&& 255 = w.toNat >>> (8 * (7 - j)) % 2 ^ 8 := Nat.and_two_pow_sub_one_eq_mod _ 8
  rw [Function.comp_apply, UInt64.toNat_toUInt8, UInt64.toNat_and, UInt64.toNat_shiftRight, amount,
    show (0xff : UInt64).toNat = 255 from rfl, byte, Nat.mod_mod, Nat.shiftRight_eq_div_pow, pow_mul,
    Nat.succ_sub_one, show 2 ^ 8 = 256 from rfl]

theorem length_uint642byte (x : Big) : (uint642byte x).length = 32 := by
  have word (w : UInt64) : (wordBytes w).length = 8 := by rw [wordBytes, List.length_map, List.length_range]
  simp only [uint642byte_eq, List.length_append, word]

/-- The bytes are the digits of the number in base 256. -/
theorem value_uint642byte (x : Big) : value 256 ((uint642byte x).map UInt8.toNat) = x.toNat := by
  have word (w : UInt64) : value 256 ((wordBytes w).map UInt8.toNat) = w.toNat ∧ (wordBytes w).length = 8 := by
    constructor
    · rw [toNat_wordBytes, value_digits]
      exact Nat.mod_eq_of_lt w.toNat_lt
    · rw [wordBytes, List.length_map, List.length_range]
  simp only [uint642byte_eq, List.map_append, value_append, List.length_append, List.length_map, word, Big.toNat]
  ring

theorem uint642byte_injective : Function.Injective uint642byte := by
  intro x x' same
  apply Big.toNat_injective
  rw [← value_uint642byte, ← value_uint642byte, same]

/-- A byte shifted in front of the bits of a word. -/
private theorem toNat_or_shift {w : UInt64} {s : ℕ} (b : UInt8) (low : w.toNat < 2 ^ s) (room : s + 8 ≤ 64) :
    (w ||| b.toUInt64 <<< UInt64.ofNat s).toNat = w.toNat + b.toNat * 2 ^ s ∧
      (w ||| b.toUInt64 <<< UInt64.ofNat s).toNat < 2 ^ (s + 8) := by
  have byte := b.toNat_lt
  have amount : (UInt64.ofNat s).toNat % 64 = s := by
    rw [UInt64.toNat_ofNat']
    omega
  have small : b.toNat * 2 ^ s < 2 ^ 64 := by
    calc b.toNat * 2 ^ s < 2 ^ 8 * 2 ^ s := Nat.mul_lt_mul_of_pos_right byte (by positivity)
      _ = 2 ^ (s + 8) := by rw [← pow_add, Nat.add_comm]
      _ ≤ 2 ^ 64 := Nat.pow_le_pow_right (by decide) room
  have sum : (w ||| b.toUInt64 <<< UInt64.ofNat s).toNat = w.toNat + b.toNat * 2 ^ s := by
    rw [UInt64.toNat_or, UInt64.toNat_shiftLeft, amount, UInt8.toNat_toUInt64, Nat.shiftLeft_eq, Nat.mod_eq_of_lt small,
      Nat.or_comm, Nat.mul_comm, ← Nat.two_pow_add_eq_or_of_lt low]
    exact Nat.add_comm _ _
  refine ⟨sum, ?_⟩
  rw [sum, pow_add]
  have top : b.toNat * 2 ^ s ≤ 255 * 2 ^ s := Nat.mul_le_mul_right _ (by omega)
  omega

private theorem toNat_digestWord (hash : Vector UInt8 32) (k : ℕ) (inside : k + 7 < 32) :
    (digestWord hash k inside).toNat =
      value 256 (((List.range 8).map fun j => hash.toList.getD (k + j) 0).map UInt8.toNat) := by
  have first : hash[k + 7].toUInt64.toNat < 2 ^ 8 := by
    rw [UInt8.toNat_toUInt64]
    exact hash[k + 7].toNat_lt
  obtain ⟨sum1, low1⟩ := toNat_or_shift hash[k + 6] first (by decide)
  obtain ⟨sum2, low2⟩ := toNat_or_shift hash[k + 5] low1 (by decide)
  obtain ⟨sum3, low3⟩ := toNat_or_shift hash[k + 4] low2 (by decide)
  obtain ⟨sum4, low4⟩ := toNat_or_shift hash[k + 3] low3 (by decide)
  obtain ⟨sum5, low5⟩ := toNat_or_shift hash[k + 2] low4 (by decide)
  obtain ⟨sum6, low6⟩ := toNat_or_shift hash[k + 1] low5 (by decide)
  obtain ⟨sum7, -⟩ := toNat_or_shift hash[k] low6 (by decide)
  have entry (n : ℕ) (bound : n < 32) : hash.toList.getD n 0 = hash[n] := by
    rw [List.getD_eq_getElem _ _ (by rwa [Vector.length_toList]), Vector.getElem_toList]
  refine sum7.trans ?_
  rw [sum6, sum5, sum4, sum3, sum2, sum1, UInt8.toNat_toUInt64, show List.range 8 = [0, 1, 2, 3, 4, 5, 6, 7] from rfl]
  simp (disch := omega) only [List.map_cons, List.map_nil, Nat.add_zero, entry, value_cons, value_nil, List.length_cons,
    List.length_nil]
  ring

private theorem wordBytes_digestWord (hash : Vector UInt8 32) (k : ℕ) (inside : k + 7 < 32) :
    wordBytes (digestWord hash k inside) = (List.range 8).map fun j => hash.toList.getD (k + j) 0 := by
  apply List.map_injective_iff.mpr fun b b' same => UInt8.toNat_inj.mp same
  have bytes := digits_value (((List.range 8).map fun j => hash.toList.getD (k + j) 0).map UInt8.toNat) (B := 256) (by
    intro d member
    obtain ⟨b, -, rfl⟩ := List.mem_map.mp member
    exact b.toNat_lt)
  rw [toNat_wordBytes, toNat_digestWord]
  rwa [List.length_map, List.length_map, List.length_range] at bytes

/-- The bytes of a challenge are those of the digest. -/
theorem uint642byte_challenge (hash : Vector UInt8 32) : uint642byte (challenge hash) = hash.toList := by
  have all : hash.toList = (List.range 32).map fun n => hash.toList.getD n 0 := by
    apply List.ext_getElem
    · rw [List.length_map, List.length_range, Vector.length_toList]
    · intro n inside _
      rw [List.getElem_map, List.getElem_range, List.getD_eq_getElem _ _ inside]
  rw [all, uint642byte_eq]
  simp only [challenge, wordBytes_digestWord]
  rfl

private theorem spells_flatMap (bytes : List UInt8) :
    Spells (bytes.flatMap fun b => [lower (b.toNat / 16), lower (b.toNat % 16)]) bytes := by
  induction bytes with
  | nil => exact .nil
  | cons b bytes ih =>
    have byte := b.toNat_lt
    exact .cons (digit_lower (by omega)) (digit_lower (by omega)) ih

/-- The digits of a digest are read as the words that are packed from it. -/
theorem str2uint64_hexString (hash : Vector UInt8 32) : Cuverify.str2uint64 (hexString hash) = some (challenge hash) := by
  have spells : Spells (hexString hash) hash.toList := spells_flatMap _
  have size : (hexString hash).length ≤ 64 := by rw [spells.length, Vector.length_toList]
  rw [Cuverify.str2uint64_of_hex spells.isHex size, spells.number_eq, ← uint642byte_challenge, value_uint642byte,
    Big.ofNat_toNat]

/-! ## Agreement -/

section Agreement

variable {Context : Type*} {H : StreamingHash Context UInt8 (Vector UInt8 32)}

/-- `HashBP` never throws; its challenges are packed like those of `HashBP_V2`. -/
theorem HashBP_eq_some (A S : Jpoint) (second : Bool) :
    HashBP H A S second = some (challenge (H.digest (HashBP.pieces A S)),
      if second then some (challenge
        (H.digest (HashBP.pieces A S ++ [ascii (hexString (H.digest (HashBP.pieces A S)))]))) else none) := by
  cases second with
  | false =>
    simp only [HashBP, str2uint64_hexString, Option.bind_eq_bind, Option.bind_some, Option.pure_def,
      Bool.false_eq_true, if_false]
  | true =>
    simp only [HashBP, str2uint64_hexString, Option.bind_eq_bind, Option.bind_some, Option.pure_def, if_true]

/-- Host and device compute the same challenges when their hashes compute the same function, and the bytes of a packed
digest are the digest. -/
theorem HashBP_V2_eq_device_hashBP (computes : H.Computes sha256) (ctx ctx2 : MYSHA256_CTX) (A S : Jpoint)
    (second : Bool) : HashBP_V2 H A S second = device_hashBP ctx ctx2 A S second ∧
      ∀ hash, uint642byte (challenge hash) = hash.toList := by
  refine ⟨?_, uint642byte_challenge⟩
  have first : H.digest (HashBP_V2.pieces A S) = (Sha256.device ctx).digest (HashBP_V2.pieces A S) :=
    computes.digest_eq (Sha256.device_computes ctx) rfl
  have next (hash : Vector UInt8 32) : H.digest (HashBP_V2.pieces A S ++ [uint642byte (challenge hash)]) =
      (Sha256.device ctx2).digest (HashBP_V2.pieces A S ++ [hash.toList]) := by
    rw [uint642byte_challenge]
    exact computes.digest_eq (Sha256.device_computes ctx2) rfl
  cases second with
  | false => exact congrArg (fun hash => (challenge hash, none)) first
  | true =>
    refine Prod.ext (congrArg challenge first) ?_
    change some _ = some _
    rw [next, first]
    rfl

theorem HashBP_V2_eq_device_hashBP_buffered :
    HashBP_V2 (.buffered sha256) ⟨⟨1, 0, 0, 0⟩, ⟨2, 0, 0, 0⟩, ⟨1, 0, 0, 0⟩⟩
        ⟨⟨3, 0, 0, 0⟩, ⟨4, 0, 0, 0⟩, ⟨1, 0, 0, 0⟩⟩ true =
        device_hashBP ⟨fun _ => 1, 2, 3, ⟨4, 5, 6, 7, 8, 9, 10, 11⟩⟩ ⟨fun _ => 0, 0, 0, ⟨0, 0, 0, 0, 0, 0, 0, 0⟩⟩
          ⟨⟨1, 0, 0, 0⟩, ⟨2, 0, 0, 0⟩, ⟨1, 0, 0, 0⟩⟩ ⟨⟨3, 0, 0, 0⟩, ⟨4, 0, 0, 0⟩, ⟨1, 0, 0, 0⟩⟩ true ∧
      ∀ hash, uint642byte (challenge hash) = hash.toList :=
  HashBP_V2_eq_device_hashBP (StreamingHash.buffered_computes sha256) _ _ _ _ true

end Agreement

/-! ## Binding -/

/-- The number of hexadecimal digits. -/
def Big.digitCount (x : Big) : ℕ := (Nat.digits 16 x.toNat).length

private theorem length_uint642str (x : Big) : (uint642str x).length = x.digitCount := by
  obtain ⟨canonical, number⟩ := uint642str_spec x
  apply eq_of_forall_lt_iff
  intro k
  rw [Big.digitCount, Nat.lt_digits_length_iff (by decide), ← number]
  exact canonical.le_length_iff k

private theorem char_of_ascii {s : List Char} (hex : IsHex s) : (ascii s).map (fun b => Char.ofNat b.toNat) = s := by
  rw [ascii, List.map_map]
  refine (List.map_congr_left fun c member => ?_).trans (List.map_id _)
  have isDigit := hex c member
  have small : c.toNat < 256 := by
    rw [digit?] at isDigit
    split_ifs at isDigit
    · omega
    · omega
    · omega
    · exact absurd isDigit Bool.false_ne_true
  rw [Function.comp_apply, UInt8.toNat_ofNat', Nat.mod_eq_of_lt small, id, Char.ofNat_toNat]

private theorem ascii_uint642str_injective : Function.Injective fun x => ascii (uint642str x) := by
  intro x x' same
  have text := congrArg (List.map fun b : UInt8 => Char.ofNat b.toNat) same
  rw [char_of_ascii (uint642str_spec x).1.hex, char_of_ascii (uint642str_spec x').1.hex] at text
  apply Big.toNat_injective
  rw [← (uint642str_spec x).2, ← (uint642str_spec x').2, text]

/-- An injective encoding of the entries of two lists determines them when corresponding entries are equally long. -/
private theorem eq_of_flatten_eq {f : Big → List UInt8} (injective : Function.Injective f) {l l' : List Big}
    (same : (l.map f).flatten = (l'.map f).flatten)
    (sizes : l.map (fun x => (f x).length) = l'.map fun x => (f x).length) : l = l' := by
  have pieces : l.map f = l'.map f := by
    apply List.eq_iff_flatten_eq.mpr
    refine ⟨same, ?_⟩
    rw [List.map_map, List.map_map]
    exact sizes
  exact List.map_injective_iff.mpr injective pieces

private theorem coordinates_eq_iff {A S A' S' : Jpoint} :
    coordinates A S = coordinates A' S' ↔ A.x = A'.x ∧ A.y = A'.y ∧ S.x = S'.x ∧ S.y = S'.y := by
  simp only [coordinates, List.cons.injEq, and_true]

/-- Two equal messages of `HashBP` come from the same coordinates when corresponding ones have equally many digits, and
only then; equal messages of `HashBP_V2` always do. -/
theorem transcript_binding_iff (A S A' S' : Jpoint) :
    ((HashBP.pieces A S).flatten = (HashBP.pieces A' S').flatten →
      ((A.x = A'.x ∧ A.y = A'.y ∧ S.x = S'.x ∧ S.y = S'.y) ↔
        (coordinates A S).map Big.digitCount = (coordinates A' S').map Big.digitCount)) ∧
    ((HashBP_V2.pieces A S).flatten = (HashBP_V2.pieces A' S').flatten →
      A.x = A'.x ∧ A.y = A'.y ∧ S.x = S'.x ∧ S.y = S'.y) := by
  rw [← coordinates_eq_iff]
  constructor
  · intro same
    constructor
    · exact fun equal => congrArg _ equal
    · intro counts
      have sizes (l : List Big) : l.map (fun x => (ascii (uint642str x)).length) = l.map Big.digitCount :=
        List.map_congr_left fun x _ => by rw [ascii, List.length_map, length_uint642str]
      exact eq_of_flatten_eq ascii_uint642str_injective same (by rw [sizes, sizes, counts])
  · intro same
    apply eq_of_flatten_eq uint642byte_injective same
    simp only [length_uint642byte]
    rfl

/-- The transcript of two affine points with these coordinates. -/
private theorem texts_equal : (HashBP.pieces ⟨⟨1, 0, 0, 0⟩, ⟨0x23, 0, 0, 0⟩, ⟨1, 0, 0, 0⟩⟩
    ⟨⟨4, 0, 0, 0⟩, ⟨5, 0, 0, 0⟩, ⟨1, 0, 0, 0⟩⟩).flatten =
      (HashBP.pieces ⟨⟨0x12, 0, 0, 0⟩, ⟨3, 0, 0, 0⟩, ⟨1, 0, 0, 0⟩⟩
        ⟨⟨4, 0, 0, 0⟩, ⟨5, 0, 0, 0⟩, ⟨1, 0, 0, 0⟩⟩).flatten := by
  decide +kernel

theorem transcript_binding_iff_shifted :
    (((⟨1, 0, 0, 0⟩ : Big) = ⟨0x12, 0, 0, 0⟩ ∧ (⟨0x23, 0, 0, 0⟩ : Big) = ⟨3, 0, 0, 0⟩ ∧
        (⟨4, 0, 0, 0⟩ : Big) = ⟨4, 0, 0, 0⟩ ∧ (⟨5, 0, 0, 0⟩ : Big) = ⟨5, 0, 0, 0⟩) ↔
      [(⟨1, 0, 0, 0⟩ : Big), ⟨0x23, 0, 0, 0⟩, ⟨4, 0, 0, 0⟩, ⟨5, 0, 0, 0⟩].map Big.digitCount =
        [(⟨0x12, 0, 0, 0⟩ : Big), ⟨3, 0, 0, 0⟩, ⟨4, 0, 0, 0⟩, ⟨5, 0, 0, 0⟩].map Big.digitCount) :=
  (transcript_binding_iff ⟨⟨1, 0, 0, 0⟩, ⟨0x23, 0, 0, 0⟩, ⟨1, 0, 0, 0⟩⟩ ⟨⟨4, 0, 0, 0⟩, ⟨5, 0, 0, 0⟩, ⟨1, 0, 0, 0⟩⟩
    ⟨⟨0x12, 0, 0, 0⟩, ⟨3, 0, 0, 0⟩, ⟨1, 0, 0, 0⟩⟩ ⟨⟨4, 0, 0, 0⟩, ⟨5, 0, 0, 0⟩, ⟨1, 0, 0, 0⟩⟩).1 texts_equal

/-- `HashBP` hashes `12345` for `1`, `23`, `4`, `5` and for `12`, `3`, `4`, `5`. -/
theorem transcript_not_binding : ¬ ((∀ A S A' S' : Jpoint, (HashBP.pieces A S).flatten = (HashBP.pieces A' S').flatten →
      A.x = A'.x ∧ A.y = A'.y ∧ S.x = S'.x ∧ S.y = S'.y) ∧
    ∀ A S A' S' : Jpoint, (HashBP_V2.pieces A S).flatten = (HashBP_V2.pieces A' S').flatten →
      A.x = A'.x ∧ A.y = A'.y ∧ S.x = S'.x ∧ S.y = S'.y) := by
  intro claim
  have equal := (claim.1 _ _ _ _ texts_equal).1
  exact absurd equal (by decide)

end DbcSnark.Gpuec
