import DbcSnark.Model.Gpuec.Text
import DbcSnark.Proofs.Gpuec.MyBig
import Mathlib.Data.List.TakeWhile

/-! # Round trips of numbers and text

`uint642str` writes the digits of a number without leading zeros. The decoder of `cuverify.cu` reads every string of at
most 64 digits; the one of `rp.cu` throws when there are fewer than 48.
-/

namespace DbcSnark.Gpuec

open Hexadecimal BigEndian

namespace Text

/-! ## Reading -/

section Strtoull

variable {s : List Char}

private theorem not_isspace {c : Char} (hex : (digit? c).isSome) : isspace c = false := by
  rw [digit?] at hex
  rw [isspace, Bool.or_eq_false_iff, Bool.and_eq_false_iff, decide_eq_false_iff_not, decide_eq_false_iff_not,
    decide_eq_false_iff_not]
  split_ifs at hex
  all_goals first
    | omega
    | exact absurd hex Bool.false_ne_true

private theorem sign_of_hex (hex : IsHex s) : sign s = (false, s) := by
  rw [sign.eq_def]
  split
  · exact absurd (hex _ List.mem_cons_self) (by decide)
  · exact absurd (hex _ List.mem_cons_self) (by decide)
  · rfl

private theorem stripRadix_of_hex (hex : IsHex s) : stripRadix s = s := by
  rw [stripRadix.eq_def]
  split
  · next x s =>
    have second := hex x (List.mem_cons_of_mem _ List.mem_cons_self)
    refine if_neg fun radix => ?_
    rcases radix.1 with rfl | rfl
    · exact absurd second (by decide)
    · exact absurd second (by decide)
  · rfl

/-- Sixteen digits at most are read exactly. -/
theorem strtoull_of_hex (hex : IsHex s) (short : s.length ≤ 16) : strtoull s = UInt64.ofNat (number s) := by
  have spaces : s.dropWhile isspace = s := by
    cases s with
    | nil => rfl
    | cons c s => exact List.dropWhile_cons_of_neg (by rw [not_isspace (hex c List.mem_cons_self)]; exact Bool.false_ne_true)
  have all : s.takeWhile (fun c => (digit? c).isSome) = s := List.takeWhile_eq_self_iff.mpr hex
  have bound : number s < 2 ^ 64 := lt_of_lt_of_le (number_lt s) (Nat.pow_le_pow_right (by decide) short)
  rw [strtoull, spaces, sign_of_hex hex]
  simp only [stripRadix_of_hex hex, all, if_neg bound.not_ge, Bool.false_eq_true, if_false]

end Strtoull

section Limbs

variable {s : List Char} (hex : IsHex s) (size : s.length ≤ 64)

private theorem number_drop (m : ℕ) (inside : m ≤ s.length) : number (s.drop (s.length - m)) = number s % 16 ^ m := by
  have split := number_append (s.take (s.length - m)) (s.drop (s.length - m))
  have bound := number_lt (s.drop (s.length - m))
  rw [List.length_drop, Nat.sub_sub_self inside] at bound
  rw [List.take_append_drop, List.length_drop, Nat.sub_sub_self inside] at split
  rw [split, Nat.mul_add_mod_self_right, Nat.mod_eq_of_lt bound]

private theorem number_take (m : ℕ) (inside : m ≤ s.length) : number (s.take (s.length - m)) = number s / 16 ^ m := by
  have split := number_append (s.take (s.length - m)) (s.drop (s.length - m))
  have bound := number_lt (s.drop (s.length - m))
  rw [List.length_drop, Nat.sub_sub_self inside] at bound
  rw [List.take_append_drop, List.length_drop, Nat.sub_sub_self inside] at split
  rw [split, Nat.mul_comm, Nat.mul_add_div (by positivity), Nat.div_eq_of_lt bound, Nat.add_zero]

include hex size

/-- The limb `k` of a string that reaches behind it, as `std::string` cuts it out. -/
private theorem limb_eq (k : ℕ) (reached : 16 * (k + 1) ≤ s.length) :
    ∃ t, substr s (UInt64.ofNat s.length - UInt64.ofNat (16 * (k + 1))) 16 = some t ∧
      strtoull t = UInt64.ofNat (number s / 2 ^ (64 * k)) := by
  have start : (UInt64.ofNat s.length - UInt64.ofNat (16 * (k + 1))).toNat = s.length - 16 * (k + 1) := by
    rw [UInt64.toNat_sub, UInt64.toNat_ofNat', UInt64.toNat_ofNat']
    omega
  have cut : substr s (UInt64.ofNat s.length - UInt64.ofNat (16 * (k + 1))) 16 =
      some ((s.drop (s.length - 16 * (k + 1))).take 16) := by
    rw [substr, start, if_neg (by omega)]
    rfl
  refine ⟨_, cut, ?_⟩
  have rest : (s.drop (s.length - 16 * (k + 1))).length = 16 * k + 16 := by
    rw [List.length_drop]
    omega
  have inner := number_take (s := s.drop (s.length - 16 * (k + 1))) (16 * k) (by omega)
  rw [rest, Nat.add_sub_cancel_left, number_drop _ reached] at inner
  rw [strtoull_of_hex (fun c member => hex c (List.mem_of_mem_drop (List.mem_of_mem_take member))) (List.length_take_le _ _),
    inner]
  apply UInt64.toNat_inj.mp
  rw [UInt64.toNat_ofNat', UInt64.toNat_ofNat', Nat.mul_succ, pow_add, pow_mul 16, pow_mul 2,
    show (16 : ℕ) ^ 16 = 2 ^ 64 from rfl, Nat.mod_mul_right_div_self, Nat.mod_mod]

/-- The last limb of a string, which may be incomplete. -/
private theorem last_limb_eq (k : ℕ) (reached : 16 * k ≤ s.length) (last : s.length ≤ 16 * (k + 1)) :
    ∃ t, substr s 0 (16 - (UInt64.ofNat (16 * (k + 1)) - UInt64.ofNat s.length)) = some t ∧
      strtoull t = UInt64.ofNat (number s / 2 ^ (64 * k)) := by
  have count : (16 - (UInt64.ofNat (16 * (k + 1)) - UInt64.ofNat s.length)).toNat = s.length - 16 * k := by
    rw [UInt64.toNat_sub, UInt64.toNat_sub, UInt64.toNat_ofNat', UInt64.toNat_ofNat', show (16 : UInt64).toNat = 16 from rfl]
    omega
  have cut : substr s 0 (16 - (UInt64.ofNat (16 * (k + 1)) - UInt64.ofNat s.length)) =
      some (s.take (s.length - 16 * k)) := by
    rw [substr, count, UInt64.toNat_zero, if_neg (Nat.not_lt_zero _)]
    rfl
  refine ⟨_, cut, ?_⟩
  rw [strtoull_of_hex (fun c member => hex c (List.mem_of_mem_take member)) (by rw [List.length_take]; omega),
    number_take _ reached, pow_mul 16, pow_mul 2, show (16 : ℕ) ^ 16 = 2 ^ 64 from rfl]

omit hex in
/-- A limb that the string does not reach starts behind the end. -/
private theorem limb_none (k : ℕ) (short : s.length < 16 * (k + 1)) (bound : k ≤ 3) :
    substr s (UInt64.ofNat s.length - UInt64.ofNat (16 * (k + 1))) 16 = none := by
  refine if_pos ?_
  rw [UInt64.toNat_sub, UInt64.toNat_ofNat', UInt64.toNat_ofNat']
  omega

end Limbs

end Text

open Text

section Decoders

variable {s : List Char}

private theorem high_zero (k : ℕ) (short : s.length ≤ 16 * k) : UInt64.ofNat (number s / 2 ^ (64 * k)) = 0 := by
  have bound := lt_of_lt_of_le (number_lt s) (Nat.pow_le_pow_right (by decide) short)
  rw [pow_mul 16, show (16 : ℕ) ^ 16 = 2 ^ 64 from rfl, ← pow_mul] at bound
  rw [Nat.div_eq_of_lt bound]
  rfl

private theorem limbs_of_number (s : List Char) : Big.ofNat (number s) =
    ⟨.ofNat (number s / 2 ^ (64 * 0)), .ofNat (number s / 2 ^ (64 * 1)), .ofNat (number s / 2 ^ (64 * 2)),
      .ofNat (number s / 2 ^ (64 * 3))⟩ := by
  rw [Nat.mul_zero, pow_zero, Nat.div_one]
  rfl

variable (hex : IsHex s) (size : s.length ≤ 64)
include hex size

/-- The decoder of `rp.cu` reads the strings of at least 48 digits and throws on the others. -/
theorem Rp.str2uint64_of_hex :
    Rp.str2uint64 s = if 48 ≤ s.length then some (.ofNat (number s)) else none := by
  rw [limbs_of_number, Rp.str2uint64]
  rcases lt_or_ge s.length 16 with short | long
  · have cut0 : substr s (UInt64.ofNat s.length - 16) 16 = none := limb_none size 0 short (by decide)
    rw [if_neg (by omega), cut0]
    rfl
  obtain ⟨t0, cut0, read0⟩ := limb_eq hex size 0 long
  change substr s (UInt64.ofNat s.length - 16) 16 = _ at cut0
  rcases lt_or_ge s.length 32 with short | long
  · have cut1 : substr s (UInt64.ofNat s.length - 32) 16 = none := limb_none size 1 short (by decide)
    rw [if_neg (by omega), cut0, cut1]
    rfl
  obtain ⟨t1, cut1, read1⟩ := limb_eq hex size 1 long
  change substr s (UInt64.ofNat s.length - 32) 16 = _ at cut1
  rcases lt_or_ge s.length 48 with short | long
  · have cut2 : substr s (UInt64.ofNat s.length - 48) 16 = none := limb_none size 2 short (by decide)
    rw [if_neg (by omega), cut0, cut1, cut2]
    rfl
  obtain ⟨t2, cut2, read2⟩ := limb_eq hex size 2 long
  obtain ⟨t3, cut3, read3⟩ := last_limb_eq hex size 3 long size
  change substr s (UInt64.ofNat s.length - 48) 16 = _ at cut2
  change substr s 0 (16 - (64 - UInt64.ofNat s.length)) = _ at cut3
  rw [if_pos long, cut0, cut1, cut2, cut3, ← read0, ← read1, ← read2, ← read3]
  rfl

/-- The decoder of `cuverify.cu` reads every string of at most 64 digits. -/
theorem Cuverify.str2uint64_of_hex : Cuverify.str2uint64 s = some (.ofNat (number s)) := by
  rw [limbs_of_number, Cuverify.str2uint64]
  rcases lt_or_ge s.length 16 with short | long
  · rw [if_pos short, high_zero 1 (by omega), high_zero 2 (by omega), high_zero 3 (by omega),
      strtoull_of_hex hex short.le, Nat.mul_zero, pow_zero, Nat.div_one]
    rfl
  obtain ⟨t0, cut0, read0⟩ := limb_eq hex size 0 long
  change substr s (UInt64.ofNat s.length - 16) 16 = _ at cut0
  rcases lt_or_ge s.length 32 with short | long'
  · obtain ⟨t1, cut1, read1⟩ := last_limb_eq hex size 1 long short.le
    change substr s 0 (16 - (32 - UInt64.ofNat s.length)) = _ at cut1
    rw [if_neg long.not_gt, if_pos short, high_zero 2 (by omega), high_zero 3 (by omega), cut0, cut1, ← read0, ← read1]
    rfl
  obtain ⟨t1, cut1, read1⟩ := limb_eq hex size 1 long'
  change substr s (UInt64.ofNat s.length - 32) 16 = _ at cut1
  rcases lt_or_ge s.length 48 with short | long''
  · obtain ⟨t2, cut2, read2⟩ := last_limb_eq hex size 2 long' short.le
    change substr s 0 (16 - (48 - UInt64.ofNat s.length)) = _ at cut2
    rw [if_neg long.not_gt, if_neg long'.not_gt, if_pos short, high_zero 3 (by omega), cut0, cut1, cut2, ← read0, ← read1,
      ← read2]
    rfl
  obtain ⟨t2, cut2, read2⟩ := limb_eq hex size 2 long''
  obtain ⟨t3, cut3, read3⟩ := last_limb_eq hex size 3 long'' size
  change substr s (UInt64.ofNat s.length - 48) 16 = _ at cut2
  change substr s 0 (16 - (64 - UInt64.ofNat s.length)) = _ at cut3
  rw [if_neg long.not_gt, if_neg long'.not_gt, if_neg long''.not_gt, cut0, cut1, cut2, cut3, ← read0, ← read1, ← read2,
    ← read3]
  rfl

end Decoders

/-! ## Writing -/

/-- A string of digits without leading zeros. -/
structure Canonical (s : List Char) : Prop where
  hex : IsHex s
  leading : s ≠ [] → 16 ^ (s.length - 1) ≤ number s

/-- The length of such a string is that of the number. -/
theorem Canonical.le_length_iff {s : List Char} (canonical : Canonical s) (k : ℕ) :
    k + 1 ≤ s.length ↔ 16 ^ k ≤ number s := by
  constructor
  · intro long
    have leading := canonical.leading (List.ne_nil_of_length_pos (by omega))
    exact le_trans (Nat.pow_le_pow_right (by decide) (by omega)) leading
  · intro large
    by_contra short
    have bound := lt_of_lt_of_le (number_lt s) (Nat.pow_le_pow_right (by decide) (by omega : s.length ≤ k))
    omega

namespace Text

private theorem number_append_digit (s : List Char) {d : ℕ} (small : d < 16) :
    number (s ++ [lower d]) = number s * 16 + d := by
  have last : number [lower d] = d := by
    rw [number, List.map_singleton, digit_lower small]
    exact (BigEndian.value_cons ..).trans (by simp)
  rw [number_append, last, List.length_singleton, pow_one]

private theorem putDigit_spec {s : List Char} (canonical : Canonical s) {d : ℕ} (small : d < 16) :
    Canonical (putDigit s (UInt64.ofNat d)) ∧ number (putDigit s (UInt64.ofNat d)) = number s * 16 + d := by
  have value : (UInt64.ofNat d).toNat = d := by
    rw [UInt64.toNat_ofNat']
    omega
  have zero : UInt64.ofNat d = 0 ↔ d = 0 := by
    rw [← UInt64.toNat_inj, value]
    rfl
  rw [putDigit, value]
  split
  · next skipped =>
    obtain rfl := List.eq_nil_of_length_eq_zero skipped.1
    refine ⟨canonical, ?_⟩
    rw [zero.mp skipped.2]
    rfl
  · next kept =>
    have number := number_append_digit s small
    refine ⟨⟨?_, fun _ => ?_⟩, number⟩
    · refine List.forall_mem_append.mpr ⟨canonical.hex, List.forall_mem_singleton.mpr ?_⟩
      rw [digit_lower small]
      rfl
    · rw [number, List.length_append, List.length_singleton, Nat.add_sub_cancel]
      cases s with
      | nil =>
        have nonzero : d ≠ 0 := fun none => kept ⟨rfl, zero.mpr none⟩
        rw [List.length_nil, pow_zero]
        omega
      | cons c s =>
        have leading := canonical.leading (List.cons_ne_nil c s)
        rw [List.length_cons, Nat.add_sub_cancel] at leading
        rw [List.length_cons, pow_succ]
        omega

private theorem foldl_putDigit {s : List Char} (canonical : Canonical s) (ds : List ℕ) (small : ∀ d ∈ ds, d < 16) :
    Canonical (ds.foldl (fun s d => putDigit s (UInt64.ofNat d)) s) ∧
      number (ds.foldl (fun s d => putDigit s (UInt64.ofNat d)) s) = number s * 16 ^ ds.length + value 16 ds := by
  induction ds generalizing s with
  | nil => exact ⟨canonical, by simp⟩
  | cons d ds ih =>
    obtain ⟨next, number⟩ := putDigit_spec canonical (small d List.mem_cons_self)
    obtain ⟨last, total⟩ := ih next fun e member => small e (List.mem_cons_of_mem _ member)
    refine ⟨last, ?_⟩
    rw [List.foldl_cons, total, number, List.length_cons, pow_succ, value_cons]
    ring

/-- The digits of a word, as the inner loop shifts them out. -/
private theorem digit_eq (w : UInt64) {j : ℕ} (bound : j < 16) :
    w >>> UInt64.ofNat ((15 - j) * 4) &&& 0xf = UInt64.ofNat (w.toNat / 16 ^ (15 - j) % 16) := by
  apply UInt64.toNat_inj.mp
  have amount : (UInt64.ofNat ((15 - j) * 4)).toNat % 64 = 4 * (15 - j) := by
    rw [UInt64.toNat_ofNat']
    omega
  have small : w.toNat / 16 ^ (15 - j) % 16 < 16 := Nat.mod_lt _ (by decide)
  rw [UInt64.toNat_and, UInt64.toNat_shiftRight, amount, Nat.shiftRight_eq_div_pow, pow_mul, UInt64.toNat_ofNat',
    Nat.mod_eq_of_lt (by omega : w.toNat / 16 ^ (15 - j) % 16 < 2 ^ 64)]
  exact Nat.and_two_pow_sub_one_eq_mod _ 4

/-- The digits of a word. -/
private def putWord (s : List Char) (w : UInt64) : List Char :=
  (List.range 16).foldl (fun s j => putDigit s (w >>> UInt64.ofNat ((15 - j) * 4) &&& 0xf)) s

private theorem putWord_spec {s : List Char} (canonical : Canonical s) (w : UInt64) :
    Canonical (putWord s w) ∧ number (putWord s w) = number s * 2 ^ 64 + w.toNat := by
  have same : putWord s w = (digits 16 16 w.toNat).foldl (fun s d => putDigit s (UInt64.ofNat d)) s := by
    rw [digits_eq_map, List.foldl_map]
    exact List.foldl_ext _ _ _ fun s j member => congrArg (putDigit s) (digit_eq w (List.mem_range.mp member))
  obtain ⟨next, number⟩ := foldl_putDigit canonical (digits 16 16 w.toNat) (digits_lt (by decide) 16 w.toNat)
  rw [same, number, length_digits, value_digits, show (16 : ℕ) ^ 16 = 2 ^ 64 from rfl, Nat.mod_eq_of_lt w.toNat_lt]
  exact ⟨next, rfl⟩

private theorem uint642str_eq (x : Big) : uint642str x = putWord (putWord (putWord (putWord [] x.w3) x.w2) x.w1) x.w0 := by
  simp only [uint642str, List.foldl_cons, List.foldl_nil, Big.word, putWord]

/-- `uint642str` writes the digits of the number without leading zeros. -/
theorem uint642str_spec (x : Big) : Canonical (uint642str x) ∧ number (uint642str x) = x.toNat := by
  have empty : Canonical [] := ⟨fun c member => absurd member List.not_mem_nil, fun some => absurd rfl some⟩
  obtain ⟨canonical3, number3⟩ := putWord_spec empty x.w3
  obtain ⟨canonical2, number2⟩ := putWord_spec canonical3 x.w2
  obtain ⟨canonical1, number1⟩ := putWord_spec canonical2 x.w1
  obtain ⟨canonical0, number0⟩ := putWord_spec canonical1 x.w0
  rw [uint642str_eq]
  refine ⟨canonical0, number0.trans ?_⟩
  have none : number [] = 0 := rfl
  rw [number1, number2, number3, none, Big.toNat]
  ring

theorem length_uint642str_le (x : Big) : (uint642str x).length ≤ 64 := by
  obtain ⟨canonical, number⟩ := uint642str_spec x
  have small := x.toNat_lt
  have iff := canonical.le_length_iff 64
  rw [number] at iff
  omega

end Text

theorem Big.ofNat_toNat (x : Big) : Big.ofNat x.toNat = x :=
  Big.toNat_injective ((Big.toNat_ofNat _).trans (Nat.mod_eq_of_lt x.toNat_lt))

/-- The text of a number is read back by `cuverify.cu` always and by `rp.cu` when the number is at least `2 ^ 188`, and
the decoders agree on the strings of 48 to 64 digits only. -/
theorem text_round_trip_iff (x : Big) {s : List Char} (hex : IsHex s) (size : s.length ≤ 64) :
    ((Rp.str2uint64 (uint642str x) = some x ∧ Cuverify.str2uint64 (uint642str x) = some x) ↔ 2 ^ 188 ≤ x.toNat) ∧
      (Rp.str2uint64 s = Cuverify.str2uint64 s ↔ 48 ≤ s.length) := by
  constructor
  · obtain ⟨canonical, number⟩ := uint642str_spec x
    have long := canonical.le_length_iff 47
    rw [number, show 16 ^ 47 = 2 ^ 188 from rfl] at long
    rw [Rp.str2uint64_of_hex canonical.hex (length_uint642str_le x),
      Cuverify.str2uint64_of_hex canonical.hex (length_uint642str_le x), number, Big.ofNat_toNat, and_iff_left rfl, ← long]
    simp
  · rw [Rp.str2uint64_of_hex hex size, Cuverify.str2uint64_of_hex hex size]
    simp

theorem text_round_trip_iff_one : ((Rp.str2uint64 (uint642str ⟨1, 0, 0, 0⟩) = some ⟨1, 0, 0, 0⟩ ∧
    Cuverify.str2uint64 (uint642str ⟨1, 0, 0, 0⟩) = some ⟨1, 0, 0, 0⟩) ↔ 2 ^ 188 ≤ (⟨1, 0, 0, 0⟩ : Big).toNat) ∧
      (Rp.str2uint64 ['1'] = Cuverify.str2uint64 ['1'] ↔ 48 ≤ ['1'].length) :=
  text_round_trip_iff ⟨1, 0, 0, 0⟩ (List.forall_mem_singleton.mpr rfl) (by decide)

/-- `rp.cu` throws on the text of one. -/
theorem text_round_trip_one : ¬ ((∀ x : Big, Rp.str2uint64 (uint642str x) = some x ∧
    Cuverify.str2uint64 (uint642str x) = some x) ∧
      ∀ s, IsHex s → s.length ≤ 64 → Rp.str2uint64 s = Cuverify.str2uint64 s) := by
  intro claim
  exact absurd (claim.1 ⟨1, 0, 0, 0⟩).1 (by decide +kernel)

end DbcSnark.Gpuec
