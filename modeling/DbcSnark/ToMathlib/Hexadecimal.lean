import DbcSnark.ToMathlib.BigEndian

/-! # Hexadecimal strings

The number denoted by a list of characters, both cases of the letters being digits, the digits that `%x` writes, and the
spelling of bytes by two digits each.
-/

namespace Hexadecimal

/-- The value of a digit. -/
def digit? (c : Char) : Option ℕ :=
  if 48 ≤ c.toNat ∧ c.toNat ≤ 57 then some (c.toNat - 48)
  else if 65 ≤ c.toNat ∧ c.toNat ≤ 70 then some (c.toNat - 55)
  else if 97 ≤ c.toNat ∧ c.toNat ≤ 102 then some (c.toNat - 87)
  else none

/-- The number of which the characters are the digits. -/
def number (s : List Char) : ℕ := BigEndian.value 16 (s.map fun c => (digit? c).getD 0)

/-- All characters are digits. -/
def IsHex (s : List Char) : Prop := ∀ c ∈ s, (digit? c).isSome

instance (s : List Char) : Decidable (IsHex s) := inferInstanceAs (Decidable (∀ c ∈ s, _))

/-- The digit for a value below 16, with small letters. -/
def lower (d : ℕ) : Char := if d < 10 then Char.ofNat (48 + d) else Char.ofNat (87 + d)

/-- The digits of a number without leading zeros, one zero for the number zero. -/
def spell (n : ℕ) : List Char := if n = 0 then ['0'] else ((Nat.digits 16 n).map lower).reverse

/-- Two digits for each byte, in either case. -/
inductive Spells : List Char → List UInt8 → Prop
  | nil : Spells [] []
  | cons {high low : Char} {s : List Char} {b : UInt8} {bs : List UInt8} : digit? high = some (b.toNat / 16) →
      digit? low = some (b.toNat % 16) → Spells s bs → Spells (high :: low :: s) (b :: bs)

theorem digit_lt {c : Char} {d : ℕ} (some : digit? c = some d) : d < 16 := by
  rw [digit?] at some
  split at some
  · cases some
    omega
  · split at some
    · cases some
      omega
    · split at some
      · cases some
        omega
      · cases some

theorem digit_lower {d : ℕ} (small : d < 16) : digit? (lower d) = some d := by
  have all : ∀ d < 16, digit? (lower d) = some d := by decide
  exact all d small

theorem number_lt (s : List Char) : number s < 16 ^ s.length := by
  have bound := BigEndian.value_lt (s.map fun c => (digit? c).getD 0) (B := 16) (by
    intro d member
    obtain ⟨c, -, rfl⟩ := List.mem_map.mp member
    cases found : digit? c with
    | none => exact Nat.zero_lt_succ 15
    | some e => exact digit_lt found)
  rwa [List.length_map] at bound

theorem number_append (s t : List Char) : number (s ++ t) = number s * 16 ^ t.length + number t := by
  rw [number, List.map_append, BigEndian.value_append, List.length_map]
  rfl

theorem spell_isHex (n : ℕ) : IsHex (spell n) := by
  rw [spell]
  split
  · exact List.forall_mem_singleton.mpr rfl
  · intro c member
    obtain ⟨d, digit, rfl⟩ := List.mem_map.mp (List.mem_reverse.mp member)
    rw [digit_lower (Nat.digits_lt_base (by decide) digit)]
    rfl

/-- The spelling of a number denotes it. -/
theorem number_spell (n : ℕ) : number (spell n) = n := by
  rw [spell]
  split
  · next zero => exact zero.symm
  · have digits : ((Nat.digits 16 n).map lower).map (fun c => (digit? c).getD 0) = Nat.digits 16 n := by
      rw [List.map_map]
      refine (List.map_congr_left fun d digit => ?_).trans (List.map_id _)
      rw [Function.comp_apply, digit_lower (Nat.digits_lt_base (by decide) digit)]
      rfl
    rw [number, List.map_reverse, digits, BigEndian.value_eq_ofDigits, List.reverse_reverse, Nat.ofDigits_digits]

theorem lt_length_spell_iff (n : ℕ) {k : ℕ} (positive : 0 < k) : k < (spell n).length ↔ 16 ^ k ≤ n := by
  rw [spell]
  split
  · next zero =>
    rw [zero, List.length_singleton]
    exact iff_of_false (by omega) (Nat.not_le.mpr (Nat.pow_pos (by decide)))
  · rw [List.length_reverse, List.length_map, Nat.lt_digits_length_iff (by decide)]

theorem Spells.isHex {s : List Char} {bs : List UInt8} (spells : Spells s bs) : IsHex s := by
  induction spells with
  | nil => exact fun c member => absurd member List.not_mem_nil
  | cons high low _ ih =>
    refine List.forall_mem_cons.mpr ⟨?_, List.forall_mem_cons.mpr ⟨?_, ih⟩⟩
    · rw [high, Option.isSome_some]
    · rw [low, Option.isSome_some]

theorem Spells.length {s : List Char} {bs : List UInt8} (spells : Spells s bs) : s.length = 2 * bs.length := by
  induction spells with
  | nil => rfl
  | cons _ _ _ ih =>
    rw [List.length_cons, List.length_cons, List.length_cons, ih]
    omega

/-- A spelling denotes the number of the bytes. -/
theorem Spells.number_eq {s : List Char} {bs : List UInt8} (spells : Spells s bs) :
    number s = BigEndian.value 256 (bs.map UInt8.toNat) := by
  induction spells with
  | nil => rfl
  | @cons high low s b bs first second rest ih =>
    have split : number (high :: low :: s) = (b.toNat / 16 * 16 + b.toNat % 16) * 16 ^ s.length + number s := by
      rw [number, List.map_cons, List.map_cons, first, second, BigEndian.value_cons, BigEndian.value_cons,
        List.length_cons, List.length_map, Option.getD_some, Option.getD_some, pow_succ, number]
      ring
    rw [split, ih, rest.length, pow_mul, show 16 ^ 2 = 256 from rfl, Nat.div_add_mod', List.map_cons,
      BigEndian.value_cons, List.length_map]

end Hexadecimal
