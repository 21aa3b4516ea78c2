import DbcSnark.Model.DBCTest.Decode
import DbcSnark.Proofs.DBCTest.MyBigInt
import DbcSnark.ToMathlib.Hexadecimal
import Mathlib.Data.List.GetD

/-! # What the two constructors decode

A loop that shifts digits into one word leaves their number there, so both constructors append full words to the word
of the first digits. The loop on the first bytes keeps only the last one of them.
-/

namespace DbcSnark.DBCTest

open BigEndian (value)

namespace MyBigInt

variable {INTS : ℕ}

private theorem modify_append (A B : List ℕ) (d : ℕ) (f : ℕ → ℕ) :
    (A ++ d :: B).modify A.length f = A ++ f d :: B := by
  induction A with
  | nil => rfl
  | cons a A ih => rw [List.cons_append, List.length_cons, List.modify_succ_cons, ih, List.cons_append]

private theorem data_modify {x : MyBigInt INTS} {A B : List ℕ} {d i : ℕ} (data : x.data = A ++ d :: B) (index : i = A.length)
    (f : ℕ → ℤ) : (x.modify i f).data = A ++ (f d % 2 ^ 32).toNat :: B := by
  change x.data.modify i _ = _
  rw [data, index]
  exact modify_append A B d _

private theorem data_zero : (ofNat INTS 0).data = List.replicate INTS 0 := by
  have zero : value (2 ^ 32) (ofNat INTS 0).data = 0 := (toNat_ofNat 0).trans (Nat.zero_mod _)
  exact List.eq_replicate_iff.mpr ⟨(ofNat INTS 0).size, (BigEndian.value_eq_zero (by norm_num) _).mp zero⟩

/-! ## Shifting digits in -/

section Shift

variable {bits : ℕ} {digit : ℕ → ℤ} {v : ℕ → ℕ}

private theorem map_value_succ (n : ℕ) : value (2 ^ bits) ((List.range (n + 1)).map v) =
    value (2 ^ bits) ((List.range n).map v) * 2 ^ bits + v n := by
  rw [List.range_succ, List.map_append, BigEndian.value_append]
  simp

private theorem map_value_add (m n : ℕ) : value (2 ^ bits) ((List.range (m + n)).map v) =
    value (2 ^ bits) ((List.range m).map v) * (2 ^ bits) ^ n + value (2 ^ bits) ((List.range n).map fun i => v (m + i)) := by
  rw [List.range_add, List.map_append, BigEndian.value_append, List.length_map, List.length_map, List.length_range,
    List.map_map]
  rfl

private theorem map_value_lt (small : ∀ i, v i < 2 ^ bits) (n : ℕ) :
    value (2 ^ bits) ((List.range n).map v) < (2 ^ bits) ^ n := by
  have bound := BigEndian.value_lt ((List.range n).map v) (B := 2 ^ bits) (by
    intro d member
    obtain ⟨i, -, rfl⟩ := List.mem_map.mp member
    exact small i)
  rwa [List.length_map, List.length_range] at bound

variable {x : MyBigInt INTS} {A B : List ℕ}

/-- The digits shifted into one word. -/
private theorem data_foldl_shiftIn (data : x.data = A ++ 0 :: B) (small : ∀ i, v i < 2 ^ bits) (n : ℕ)
    (digits : ∀ i < n, digit i = v i) (fits : (2 ^ bits) ^ n ≤ 2 ^ 32) :
    ((List.range n).foldl (fun x j => shiftIn x bits A.length (digit j)) x).data =
      A ++ value (2 ^ bits) ((List.range n).map v) :: B := by
  induction n with
  | zero => exact data
  | succ n ih =>
    have before : (2 ^ bits) ^ n ≤ (2 ^ bits) ^ (n + 1) := Nat.pow_le_pow_right (Nat.two_pow_pos bits) (Nat.le_succ n)
    have bound := map_value_lt small (n + 1)
    rw [List.range_succ, List.foldl_append, List.foldl_cons, List.foldl_nil, shiftIn,
      data_modify (ih (fun i below => digits i (by omega)) (by omega)) rfl, digits n (Nat.lt_succ_self n), Nat.shiftLeft_eq,
      ← Nat.cast_add, ← map_value_succ]
    congr 2
    rw [show ((2 : ℤ) ^ 32) = ((2 ^ 32 : ℕ) : ℤ) from rfl, ← Int.natCast_mod, Int.toNat_natCast,
      Nat.mod_eq_of_lt (by omega), List.range_succ]

private theorem foldl_flag (i flag n : ℕ) :
    (List.range n).foldl (fun (s : MyBigInt INTS × ℕ) _ => (s.1.shiftIn bits i (digit s.2), s.2 + 1)) (x, flag) =
      ((List.range n).foldl (fun x j => shiftIn x bits i (digit (flag + j))) x, flag + n) := by
  induction n with
  | zero => rfl
  | succ n ih => rw [List.range_succ, List.foldl_append, ih, List.foldl_append]; rfl

/-- The full words behind those that are there. -/
private theorem data_fullWords {W : List ℕ} {group level flag : ℕ} (small : ∀ i, v i < 2 ^ bits)
    (digits : ∀ i < flag + group * level, digit i = v i) (fits : (2 ^ bits) ^ group = 2 ^ 32)
    (front : W.length = INTS - level) (data : x.data = W ++ List.replicate level 0) :
    (fullWords bits group level digit (x, flag)).1.toNat =
      value (2 ^ 32) W * (2 ^ 32) ^ level + value (2 ^ bits) ((List.range (group * level)).map fun i => v (flag + i)) := by
  have run : ∀ k ≤ level, ∃ y : MyBigInt INTS, ∃ U : List ℕ,
      (List.range k).foldl (fun s k => (List.range group).foldl
        (fun s _ => (s.1.shiftIn bits (INTS - level + k) (digit s.2), s.2 + 1)) s) (x, flag) = (y, flag + group * k) ∧
      y.data = W ++ U ++ List.replicate (level - k) 0 ∧ U.length = k ∧
      value (2 ^ 32) (W ++ U) = value (2 ^ 32) W * (2 ^ 32) ^ k +
        value (2 ^ bits) ((List.range (group * k)).map fun i => v (flag + i)) := by
    intro k
    induction k with
    | zero =>
      intro _
      exact ⟨x, [], rfl, by rw [List.append_nil, data, Nat.sub_zero], rfl, by simp⟩
    | succ k ih =>
      intro inside
      obtain ⟨y, U, fold, words, size, number⟩ := ih (by omega)
      have here : y.data = (W ++ U) ++ 0 :: List.replicate (level - (k + 1)) 0 := by
        rw [words, show level - k = level - (k + 1) + 1 by omega, List.replicate_succ]
      have index : INTS - level + k = (W ++ U).length := by rw [List.length_append, front, size]
      have bound : flag + group * k + group ≤ flag + group * level := by
        rw [Nat.add_assoc, ← Nat.mul_succ]
        exact Nat.add_le_add_left (Nat.mul_le_mul_left _ inside) _
      have word := @data_foldl_shiftIn INTS bits (fun j => digit (flag + group * k + j))
        (fun j => v (flag + group * k + j)) _ _ _ here (fun i => small _) group (fun i below => digits _ (by omega)) fits.le
      refine ⟨(List.range group).foldl (fun x j => shiftIn x bits (INTS - level + k) (digit (flag + group * k + j))) y,
        U ++ [value (2 ^ bits) ((List.range group).map fun j => v (flag + group * k + j))], ?_, ?_, ?_, ?_⟩
      · rw [List.range_succ, List.foldl_append, fold, List.foldl_cons, List.foldl_nil, foldl_flag, Nat.mul_succ,
          Nat.add_assoc flag]
      · rw [index, word, List.append_assoc, List.append_assoc, List.append_assoc]
        rfl
      · rw [List.length_append, size, List.length_singleton]
      · rw [← List.append_assoc, BigEndian.value_append, number, Nat.mul_succ, map_value_add, fits, List.length_singleton,
          pow_one, pow_succ, BigEndian.value_cons]
        simp only [List.length_nil, pow_zero, Nat.mul_one, BigEndian.value_nil, Nat.add_zero, Nat.add_assoc]
        ring
  obtain ⟨y, U, fold, words, -, number⟩ := run level le_rfl
  rw [fullWords, fold, toNat, words, Nat.sub_self, List.replicate_zero, List.append_nil, number]

/-- The full words behind a word that holds the first digits, if there is one. -/
private theorem toNat_fullWords {P group level flag : ℕ} (small : ∀ i, v i < 2 ^ bits)
    (digits : ∀ i < flag + group * level, digit i = v i) (fits : (2 ^ bits) ^ group = 2 ^ 32) (inside : level ≤ INTS)
    (start : level < INTS → x.data = List.replicate (INTS - 1 - level) 0 ++ P :: List.replicate level 0)
    (full : level = INTS → x = ofNat INTS 0 ∧ P = 0) :
    (fullWords bits group level digit (x, flag)).1.toNat =
      P * (2 ^ 32) ^ level + value (2 ^ bits) ((List.range (group * level)).map fun i => v (flag + i)) := by
  have zeros (n : ℕ) : value (2 ^ 32) (List.replicate n 0) = 0 :=
    (BigEndian.value_eq_zero (by norm_num) _).mpr fun d member => List.eq_of_mem_replicate member
  rcases inside.lt_or_eq with less | rfl
  · have words : x.data = (List.replicate (INTS - 1 - level) 0 ++ [P]) ++ List.replicate level 0 := by
      rw [start less, List.append_assoc]
      rfl
    have front : (List.replicate (INTS - 1 - level) 0 ++ [P]).length = INTS - level := by
      rw [List.length_append, List.length_replicate, List.length_singleton]
      omega
    rw [data_fullWords small digits fits front words, BigEndian.value_append, zeros]
    simp
  · obtain ⟨zero, rfl⟩ := full rfl
    have words : x.data = [] ++ List.replicate level 0 := by rw [zero, data_zero, List.nil_append]
    have front : ([] : List ℕ).length = level - level := (Nat.sub_self level).symm
    rw [data_fullWords small digits fits front words, BigEndian.value_nil]

end Shift

private theorem data_zero_split {level : ℕ} (less : level < INTS) :
    (ofNat INTS 0).data = List.replicate (INTS - 1 - level) 0 ++ 0 :: List.replicate level 0 := by
  rw [data_zero, ← List.replicate_succ, List.replicate_append_replicate]
  congr 1
  omega

private theorem map_range_getD {α : Type*} (xs : List α) (d : α) (f : α → ℕ) :
    ((List.range xs.length).map fun i => f (xs.getD i d)) = xs.map f := by
  apply List.ext_getElem
  · rw [List.length_map, List.length_map, List.length_range]
  · intro i left right
    rw [List.length_map] at right
    rw [List.getElem_map, List.getElem_map, List.getElem_range, List.getD_eq_getElem _ _ right]

/-! ## The constructors -/

open Hexadecimal

private theorem charValue_eq {c : Char} (hex : (digit? c).isSome) : charValue c = ((digit? c).getD 0 : ℕ) := by
  rw [digit?] at hex ⊢
  rw [charValue]
  split_ifs at hex ⊢
  all_goals first
    | exact absurd hex Bool.false_ne_true
    | rw [Option.getD_some]; omega

/-- The constructor from a string of digits that is not too long finds the number it denotes. -/
theorem toNat_ofString {c : List Char} (hex : IsHex c) (size : c.length ≤ 8 * INTS) :
    (ofString INTS c).toNat = number c := by
  have digits (i : ℕ) : charValue (c.getD i '0') = ((digit? (c.getD i '0')).getD 0 : ℕ) := by
    apply charValue_eq
    rcases Nat.lt_or_ge i c.length with inside | outside
    · rw [List.getD_eq_getElem _ _ inside]
      exact hex _ (List.getElem_mem inside)
    · rw [List.getD_eq_default _ _ outside]
      rfl
  have small (i : ℕ) : (digit? (c.getD i '0')).getD 0 < 2 ^ 4 := by
    cases found : digit? (c.getD i '0') with
    | none => exact Nat.two_pow_pos 4
    | some d => exact digit_lt found
  have split : c.length % 8 + 8 * (c.length / 8) = c.length := by omega
  have first : (2 ^ 4) ^ (c.length % 8) ≤ 2 ^ 32 :=
    le_trans (Nat.pow_le_pow_right (by decide) (Nat.mod_lt _ (by decide)).le) (by norm_num : (2 ^ 4) ^ 8 ≤ 2 ^ 32)
  have whole := @map_value_add 4 (fun i => (digit? (c.getD i '0')).getD 0) (c.length % 8) (8 * (c.length / 8))
  rw [split, map_range_getD c '0' fun c => (digit? c).getD 0] at whole
  rw [ofString, toNat_fullWords (P := value (2 ^ 4)
    ((List.range (c.length % 8)).map fun i => (digit? (c.getD i '0')).getD 0))
    small (fun i _ => digits i) (by norm_num) (by omega), number, show (16 : ℕ) = 2 ^ 4 from rfl, whole,
    pow_mul (2 ^ 4) 8, show (2 ^ 4) ^ 8 = 2 ^ 32 from rfl]
  · intro less
    have word := data_foldl_shiftIn (data_zero_split less) small (c.length % 8) (fun i _ => digits i) first
    rw [List.length_replicate] at word
    exact word
  · intro full
    have none : c.length % 8 = 0 := by omega
    rw [none]
    exact ⟨rfl, rfl⟩

/-- The first loop of the constructor from bytes leaves the last byte it reads. -/
private theorem data_foldl_assign {x : MyBigInt INTS} {A B : List ℕ} {v : ℕ → ℕ} (data : x.data = A ++ 0 :: B)
    (small : ∀ i, v i < 2 ^ 8) (n : ℕ) :
    ((List.range n).foldl (fun x i => (shiftIn x 8 A.length 0).modify A.length fun _ => (v i : ℤ)) x).data =
      A ++ (if n = 0 then 0 else v (n - 1)) :: B := by
  induction n with
  | zero => exact data
  | succ n ih =>
    have byte : ((v n : ℤ) % 2 ^ 32).toNat = v n := by
      have := small n
      omega
    have shifted := data_modify ih rfl fun d => (d <<< 8 : ℕ) + 0
    rw [List.range_succ, List.foldl_append, List.foldl_cons, List.foldl_nil, if_neg (Nat.succ_ne_zero n), Nat.add_sub_cancel,
      shiftIn, data_modify shifted rfl, byte]

/-- The number that the constructor from bytes finds: of the bytes in front of the full words only the last one counts. -/
theorem toNat_ofBytes {bs : List UInt8} (size : bs.length ≤ 4 * INTS) : (ofBytes INTS bs).toNat =
    (if bs.length % 4 = 0 then 0 else (bs.getD (bs.length % 4 - 1) 0).toNat) * (2 ^ 32) ^ (bs.length / 4) +
      value (2 ^ 8) ((List.range (4 * (bs.length / 4))).map fun i => (bs.getD (bs.length % 4 + i) 0).toNat) := by
  have small (i : ℕ) : (bs.getD i 0).toNat < 2 ^ 8 := (bs.getD i 0).toNat_lt
  rw [ofBytes, toNat_fullWords small (fun _ _ => rfl) (by norm_num) (by omega)]
  · intro less
    have word := data_foldl_assign (data_zero_split less) small (bs.length % 4)
    rw [List.length_replicate] at word
    exact word
  · intro full
    have none : bs.length % 4 = 0 := by omega
    rw [none]
    exact ⟨rfl, rfl⟩

/-- The bytes in front of the last byte that makes no full word are zero. -/
def LeadingZeros (bs : List UInt8) : Prop := ∀ i, i + 1 < bs.length % 4 → bs.getD i 0 = 0

theorem toNat_ofBytes_iff {bs : List UInt8} (size : bs.length ≤ 4 * INTS) :
    (ofBytes INTS bs).toNat = value 256 (bs.map UInt8.toNat) ↔ LeadingZeros bs := by
  have split : bs.length % 4 + 4 * (bs.length / 4) = bs.length := by omega
  have whole := @map_value_add 8 (fun i => (bs.getD i 0).toNat) (bs.length % 4) (4 * (bs.length / 4))
  rw [split, map_range_getD bs 0 UInt8.toNat, pow_mul (2 ^ 8) 4, show (2 ^ 8) ^ 4 = 2 ^ 32 from rfl] at whole
  have positive : 0 < (2 ^ 32) ^ (bs.length / 4) := by positivity
  have zero (b : UInt8) : b = 0 ↔ b.toNat = 0 := UInt8.toNat_inj.symm
  rw [toNat_ofBytes size, show (256 : ℕ) = 2 ^ 8 from rfl, whole, Nat.add_right_cancel_iff,
    Nat.mul_left_inj positive.ne', LeadingZeros]
  simp only [zero]
  cases bs.length % 4 with
  | zero => exact iff_of_true rfl fun i below => absurd below (Nat.not_lt_zero _)
  | succ k =>
    have front := BigEndian.value_eq_zero (B := 2 ^ 8) (by norm_num) ((List.range k).map fun i => (bs.getD i 0).toNat)
    rw [if_neg (Nat.succ_ne_zero k), Nat.add_sub_cancel, map_value_succ, eq_comm, Nat.add_eq_right, Nat.mul_eq_zero,
      or_iff_left (by norm_num), front]
    simp only [List.forall_mem_map, List.mem_range, Nat.add_lt_add_iff_right]

/-- The two constructors agree with each other and with the number denoted exactly when the bytes in front of the last
byte that makes no full word are zero. -/
theorem decoders_iff {bs : List UInt8} {c : List Char} (size : bs.length ≤ 4 * INTS) (spells : Spells c bs) :
    ((ofBytes INTS bs).toNat = (ofString INTS c).toNat ∧ (ofString INTS c).toNat = value 256 (bs.map UInt8.toNat)) ↔
      LeadingZeros bs := by
  have string : (ofString INTS c).toNat = value 256 (bs.map UInt8.toNat) := by
    rw [toNat_ofString spells.isHex (by rw [spells.length]; omega), spells.number_eq]
  rw [and_iff_left string, string, toNat_ofBytes_iff size]

private theorem spells_six : Spells ['0', '0', 'a', 'B', '0', '1'] [0, 0xab, 0x01] :=
  .cons (by decide) (by decide) (.cons (by decide) (by decide) (.cons (by decide) (by decide) .nil))

theorem decoders_iff_six : ((ofBytes 2 [0, 0xab, 0x01]).toNat = (ofString 2 ['0', '0', 'a', 'B', '0', '1']).toNat ∧
    (ofString 2 ['0', '0', 'a', 'B', '0', '1']).toNat = value 256 ([0, 0xab, 0x01].map UInt8.toNat)) ↔
      LeadingZeros [0, 0xab, 0x01] :=
  decoders_iff (by decide) spells_six

/-- The two bytes `12 34` make 52 in place of 4660. -/
theorem decoders_two_bytes : ¬ ∀ (INTS : ℕ) (bs : List UInt8) (c : List Char), bs.length ≤ 4 * INTS → Spells c bs →
    (ofBytes INTS bs).toNat = (ofString INTS c).toNat ∧ (ofString INTS c).toNat = value 256 (bs.map UInt8.toNat) := by
  intro claim
  obtain ⟨same, -⟩ := claim 1 [0x12, 0x34] ['1', '2', '3', '4'] (by decide)
    (.cons (by decide) (by decide) (.cons (by decide) (by decide) .nil))
  exact absurd same (by decide +kernel)

end MyBigInt

end DbcSnark.DBCTest
