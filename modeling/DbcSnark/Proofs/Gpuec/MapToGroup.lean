import DbcSnark.Model.Gpuec.MapToGroup
import DbcSnark.Proofs.Gpuec.Curve
import DbcSnark.Proofs.Gpuec.Text
import DbcSnark.ToMathlib.SquareRoot

/-! # Hashing to the curve

Every round makes the right-hand side of the last candidate the base of the next one, so the loop leaves a candidate
together with its own right-hand side. Euler's criterion decides the squares, and as the prime is three modulo four one
power is a root. `cuverify.cu` stores both coordinates exactly; `rp.cu` throws unless both have 48 digits.
-/

namespace DbcSnark.Gpuec

open Hexadecimal

namespace MapToGroup

/-! ## The checks -/

private theorem d_eq : d = (modP.Pa.toNat : ℤ) := by
  rw [modP_toNat]
  rfl

private theorem half_eq : ((d - 1).tdiv 2).toNat = modP.Pa.toNat / 2 := by
  rw [modP_toNat]
  rfl

private theorem quarter_eq : ((d + 1).tdiv 4).toNat = (modP.Pa.toNat + 1) / 4 := by
  rw [modP_toNat]
  rfl

private theorem one_lt : 1 < modP.Pa.toNat := (Fact.out : modP.Pa.toNat.Prime).one_lt

theorem cast_powm (b e : ℤ) : (mpz_powm b e d : modP.Residue) = (b : modP.Residue) ^ e.toNat := by
  rw [mpz_powm, d_eq, ZMod.intCast_mod, Int.cast_pow]

private theorem powm_eq_one_iff (b e : ℤ) : mpz_powm b e d = 1 ↔ (b : modP.Residue) ^ e.toNat = 1 := by
  have one : (1 : ℤ) % modP.Pa.toNat = 1 := Int.emod_eq_of_lt (by decide) (Nat.one_lt_cast.mpr one_lt)
  have residues := ZMod.intCast_eq_intCast_iff' (b ^ e.toNat) 1 modP.Pa.toNat
  rw [Int.cast_pow, Int.cast_one, one] at residues
  rw [residues, mpz_powm, d_eq]

/-- Exactly the nonzero squares pass. -/
theorem check_quadratic_residue_iff (num : ℤ) :
    check_quadratic_residue num = 1 ↔ (num : modP.Residue) ≠ 0 ∧ IsSquare (num : modP.Residue) := by
  have odd : modP.Pa.toNat ≠ 2 := by
    rw [modP_toNat]
    norm_num
  rw [← SquareRoot.pow_half_eq_one_iff odd, ← half_eq, ← powm_eq_one_iff, check_quadratic_residue]
  split
  · next one => exact iff_of_true rfl one
  · next other =>
    refine iff_of_false (fun one => ?_) other
    split at one
    · exact absurd one (by decide)
    · exact absurd one (by decide)

/-- The root of the right-hand side that `mapToGroup` takes. -/
def Candidate.ry (c : Candidate) : ℤ := mpz_powm c.hexr ((d + 1).tdiv 4) d

private theorem ry_sq {c : Candidate} (passes : check_quadratic_residue c.hexr = 1) :
    (c.ry : modP.Residue) ^ 2 = c.hexr := by
  have residue : modP.Pa.toNat % 4 = 3 := by
    rw [modP_toNat]
  have odd : modP.Pa.toNat ≠ 2 := by
    rw [modP_toNat]
    norm_num
  rw [Candidate.ry, cast_powm, quarter_eq]
  exact SquareRoot.sq_pow_quarter residue
    ((SquareRoot.pow_half_eq_one_iff odd _).mpr ((check_quadratic_residue_iff c.hexr).mp passes))

/-! ## The loop -/

section Loop

variable (SHA256 : List UInt8 → Vector UInt8 32) (s : List UInt8)

/-- What the loop holds after `n` rounds that it does not leave. -/
private def rounds (n : ℕ) : Candidate := (List.range n).foldl next ⟨number (sha256 SHA256 s), 0⟩

/-- The candidate with the index `i`, as the loop computes it if all before it fail. -/
def tried (i : ℕ) : Candidate := (List.range (i + 1)).foldl next ⟨number (sha256 SHA256 s), 0⟩

private theorem rounds_succ (n : ℕ) : rounds SHA256 s (n + 1) = next (rounds SHA256 s n) n := by
  rw [rounds, rounds, List.range_succ, List.foldl_append, List.foldl_cons, List.foldl_nil]

private theorem loop_skip {i : ℕ} (fails : ∀ j < i, check_quadratic_residue (tried SHA256 s j).hexr ≠ 1) (js : List ℕ) :
    loop ⟨number (sha256 SHA256 s), 0⟩ (List.range i ++ js) = loop (rounds SHA256 s i) js := by
  induction i generalizing js with
  | zero => rfl
  | succ i ih =>
    have failed := fails i (Nat.lt_succ_self i)
    change check_quadratic_residue (rounds SHA256 s (i + 1)).hexr ≠ 1 at failed
    rw [rounds_succ] at failed
    rw [List.range_succ, List.append_assoc, ih (fun j below => fails j (Nat.lt_succ_of_lt below)), rounds_succ]
    exact if_neg failed

/-- The loop is left at the first candidate that passes. -/
theorem loop_of_first {n i : ℕ} (inside : i < n) (passes : check_quadratic_residue (tried SHA256 s i).hexr = 1)
    (first : ∀ j < i, check_quadratic_residue (tried SHA256 s j).hexr ≠ 1) :
    loop ⟨number (sha256 SHA256 s), 0⟩ (List.range n) = tried SHA256 s i := by
  obtain ⟨rest, rfl⟩ := Nat.exists_eq_add_of_lt inside
  have here : tried SHA256 s i = next (rounds SHA256 s i) i := rounds_succ SHA256 s i
  rw [here] at passes ⊢
  rw [Nat.add_assoc, List.range_add, List.range_succ_eq_map, List.map_cons, loop_skip SHA256 s first]
  exact if_pos passes

private theorem hash_spells (bytes : List UInt8) :
    Spells (bytes.flatMap fun b => [lower (b.toNat / 16), lower (b.toNat % 16)]) bytes := by
  induction bytes with
  | nil => exact .nil
  | cons b bytes ih =>
    have small : b.toNat < 2 ^ 8 := b.toNat_lt
    exact .cons (digit_lower (by omega)) (digit_lower (by omega)) ih

private theorem number_hash_lt : number (sha256 SHA256 s) < 2 ^ 256 := by
  have spells := hash_spells (SHA256 s).toList
  have bound := number_lt (sha256 SHA256 s)
  rwa [sha256, spells.length, Vector.length_toList] at bound

/-- Before every round the base and the index add up to words, and after it the right-hand side is that of the
candidate. -/
private theorem next_spec {c : Candidate} {i : ℕ} {h : ℕ} (base : c.hexr = h) (bound : h + i < 2 ^ 256) :
    ∃ x r : ℕ, x < 2 ^ 256 ∧ r < modP.Pa.toNat ∧ (next c i).rx = x ∧ (next c i).hexr = r ∧
      (r : modP.Residue) = (x : modP.Residue) ^ 3 + 7 := by
  have rx : (next c i).rx = ((h + i : ℕ) : ℤ) := by
    change c.hexr + i = _
    rw [base, Nat.cast_add]
  have hexr : (next c i).hexr = (((h + i) ^ 3 + 7) % modP.Pa.toNat : ℕ) := by
    change (mpz_powm (c.hexr + i) 3 d + 7) % d = _
    rw [base, mpz_powm, d_eq, Int.emod_add_emod]
    push_cast
    rfl
  refine ⟨h + i, ((h + i) ^ 3 + 7) % modP.Pa.toNat, bound, Nat.mod_lt _ modP.positive, rx, hexr, ?_⟩
  rw [ZMod.natCast_mod]
  push_cast
  rfl

/-- A candidate is a number of 256 bits, with the right-hand side for it. -/
theorem tried_spec {i : ℕ} (inside : i < 2048) : ∃ x r : ℕ, x < 2 ^ 256 ∧ r < modP.Pa.toNat ∧
    (tried SHA256 s i).rx = x ∧ (tried SHA256 s i).hexr = r ∧ (r : modP.Residue) = (x : modP.Residue) ^ 3 + 7 := by
  have here (i : ℕ) : tried SHA256 s i = next (rounds SHA256 s i) i := rounds_succ SHA256 s i
  induction i with
  | zero =>
    rw [here]
    exact next_spec rfl (number_hash_lt SHA256 s)
  | succ i ih =>
    obtain ⟨_, r, -, reduced, -, hexr, -⟩ := ih (by omega)
    rw [here]
    refine next_spec hexr ?_
    rw [modP_toNat] at reduced
    omega

end Loop

/-! ## The stored coordinates -/

private theorem get_str_natCast (n : ℕ) : mpz_get_str n = spell n := by
  rw [mpz_get_str, if_neg (by omega), Int.natAbs_natCast]

private theorem length_spell_le {n : ℕ} (bound : n < 2 ^ 256) : (spell n).length ≤ 64 := by
  have iff := lt_length_spell_iff n (k := 64) (by decide)
  rw [show 16 ^ 64 = 2 ^ 256 from rfl] at iff
  omega

private theorem cuverify_reads {n : ℕ} (bound : n < 2 ^ 256) :
    Cuverify.str2uint64 (mpz_get_str n) = some (.ofNat n) := by
  rw [get_str_natCast, Cuverify.str2uint64_of_hex (spell_isHex n) (length_spell_le bound), number_spell]

private theorem rp_reads {n : ℕ} (bound : n < 2 ^ 256) :
    Rp.str2uint64 (mpz_get_str n) = if 2 ^ 188 ≤ n then some (.ofNat n) else none := by
  have iff := lt_length_spell_iff n (k := 47) (by decide)
  rw [show 16 ^ 47 = 2 ^ 188 from rfl] at iff
  rw [get_str_natCast, Rp.str2uint64_of_hex (spell_isHex n) (length_spell_le bound), number_spell]
  exact if_congr iff rfl rfl

/-- The first candidate that passes is the point found: `cuverify.cu` stores its coordinates exactly, `rp.cu` does when
both of them are at least `2 ^ 188`. -/
theorem mapToGroup_iff (SHA256 : List UInt8 → Vector UInt8 32) (s : List UInt8) (jp : Jpoint) {i : ℕ}
    (inside : i < 2048) (passes : check_quadratic_residue (tried SHA256 s i).hexr = 1)
    (first : ∀ j < i, check_quadratic_residue (tried SHA256 s j).hexr ≠ 1) :
    (∀ num, check_quadratic_residue num = 1 ↔ (num : modP.Residue) ≠ 0 ∧ IsSquare (num : modP.Residue)) ∧
    loop ⟨number (sha256 SHA256 s), 0⟩ (List.range 2048) = tried SHA256 s i ∧
    ∃ x y : Big, (x.toNat : ℤ) = (tried SHA256 s i).rx ∧ (y.toNat : ℤ) = (tried SHA256 s i).ry ∧
      (y.toNat : modP.Residue) ^ 2 = (x.toNat : modP.Residue) ^ 3 + 7 ∧
      Cuverify.mapToGroup SHA256 s jp = some ⟨x, y, { jp.z with w0 := 1 }⟩ ∧
      (Rp.mapToGroup SHA256 s jp = some ⟨x, y, { jp.z with w0 := 1 }⟩ ↔
        2 ^ 188 ≤ (tried SHA256 s i).rx ∧ 2 ^ 188 ≤ (tried SHA256 s i).ry) := by
  have stops := loop_of_first SHA256 s inside passes first
  obtain ⟨x, r, wide, -, rx, hexr, side⟩ := tried_spec SHA256 s inside
  have square := ry_sq passes
  obtain ⟨y, reduced, ry⟩ : ∃ y : ℕ, y < modP.Pa.toNat ∧ (tried SHA256 s i).ry = y := by
    have positive : (0 : ℤ) < modP.Pa.toNat := Nat.cast_pos.mpr modP.positive
    have lower := Int.emod_nonneg ((tried SHA256 s i).hexr ^ ((d + 1).tdiv 4).toNat) positive.ne'
    have upper := Int.emod_lt_of_pos ((tried SHA256 s i).hexr ^ ((d + 1).tdiv 4).toNat) positive
    rw [← d_eq] at lower upper
    obtain ⟨y, value⟩ := Int.eq_ofNat_of_zero_le lower
    refine ⟨y, ?_, value⟩
    rw [value, d_eq] at upper
    exact Nat.cast_lt.mp upper
  have small : y < 2 ^ 256 := by
    rw [modP_toNat] at reduced
    omega
  have xWords : (Big.ofNat x).toNat = x := (Big.toNat_ofNat x).trans (Nat.mod_eq_of_lt wide)
  have yWords : (Big.ofNat y).toNat = y := (Big.toNat_ofNat y).trans (Nat.mod_eq_of_lt small)
  have taken : mpz_powm (tried SHA256 s i).hexr ((d + 1).tdiv 4) d = y := ry
  refine ⟨check_quadratic_residue_iff, stops, .ofNat x, .ofNat y, ?_, ?_, ?_, ?_, ?_⟩
  · rw [xWords, rx]
  · rw [yWords, ry]
  · rw [xWords, yWords, ← side]
    rw [ry, hexr, Int.cast_natCast, Int.cast_natCast] at square
    exact square
  · rw [Cuverify.mapToGroup, mapToGroup, stops, rx, taken, cuverify_reads wide, cuverify_reads small]
    rfl
  · rw [Rp.mapToGroup, mapToGroup, stops, rx, ry, taken, rp_reads wide, rp_reads small]
    have xCast : (2 : ℤ) ^ 188 ≤ x ↔ 2 ^ 188 ≤ x := by exact_mod_cast Iff.rfl
    have yCast : (2 : ℤ) ^ 188 ≤ y ↔ 2 ^ 188 ≤ y := by exact_mod_cast Iff.rfl
    rw [xCast, yCast]
    split
    · next tall =>
      split
      · next high => exact iff_of_true rfl ⟨tall, high⟩
      · next low => exact iff_of_false (Option.some_ne_none _).symm fun both => low both.2
    · next flat => exact iff_of_false (Option.some_ne_none _).symm fun both => flat both.1

private theorem number_hash (SHA256 : List UInt8 → Vector UInt8 32) (s : List UInt8) :
    number (sha256 SHA256 s) = BigEndian.value 256 ((SHA256 s).toList.map UInt8.toNat) :=
  (hash_spells (SHA256 s).toList).number_eq

private theorem first_tried {SHA256 : List UInt8 → Vector UInt8 32} {s : List UInt8} {h : ℕ}
    (hash : number (sha256 SHA256 s) = h) : tried SHA256 s 0 = ⟨(h ^ 3 % d + 7) % d, h⟩ := by
  change next ⟨number (sha256 SHA256 s), 0⟩ 0 = _
  rw [hash]
  change Candidate.mk ((mpz_powm (h + 0) 3 d + 7) % d) (h + 0) = _
  rw [add_zero]
  rfl

private theorem passes_of_root {n : ℤ} (y : ℕ) (root : (y : ℤ) * y % d = n % d) (nonzero : n % d ≠ 0) :
    check_quadratic_residue n = 1 := by
  rw [d_eq] at root nonzero
  refine (check_quadratic_residue_iff n).mpr ⟨fun zero => nonzero ?_, (y : modP.Residue), ?_⟩
  · rw [← Int.cast_zero, ZMod.intCast_eq_intCast_iff', Int.zero_emod] at zero
    exact zero
  · have residues := (ZMod.intCast_eq_intCast_iff' _ _ _).mpr root
    rw [← residues, Int.cast_mul, Int.cast_natCast]

/-- The hash of the empty string. -/
def emptyHash : Vector UInt8 32 := ⟨#[
  0xe3, 0xb0, 0xc4, 0x42, 0x98, 0xfc, 0x1c, 0x14, 0x9a, 0xfb, 0xf4, 0xc8, 0x99, 0x6f, 0xb9, 0x24,
  0x27, 0xae, 0x41, 0xe4, 0x64, 0x9b, 0x93, 0x4c, 0xa4, 0x95, 0x99, 0x1b, 0x78, 0x52, 0xb8, 0x55], rfl⟩

private theorem empty_number : number (sha256 (fun _ => emptyHash) []) =
    102987336249554097029535212322581322789799900648198034993379397001115665086549 := by
  rw [number_hash]
  rfl

private theorem empty_passes : check_quadratic_residue (tried (fun _ => emptyHash) [] 0).hexr = 1 := by
  rw [first_tried empty_number]
  exact passes_of_root 25096497645163296538918623081586302904402886618528014782464390107391276509630
    (by norm_num [d]) (by norm_num [d])

theorem mapToGroup_iff_empty : Cuverify.mapToGroup (fun _ => emptyHash) [] ⟨0, 0, 0⟩ ≠ none := by
  obtain ⟨-, -, x, y, -, -, -, stored, -⟩ := mapToGroup_iff (fun _ => emptyHash) [] ⟨0, 0, 0⟩ (by decide) empty_passes
    fun j below => absurd below (Nat.not_lt_zero j)
  rw [stored]
  exact Option.some_ne_none _

/-- A hash whose number is one. -/
def hashOne : Vector UInt8 32 := (Vector.replicate 31 0).push 1

private theorem one_number : number (sha256 (fun _ => hashOne) []) = 1 := by
  rw [number_hash]
  rfl

private theorem one_passes : check_quadratic_residue (tried (fun _ => hashOne) [] 0).hexr = 1 := by
  rw [first_tried one_number]
  exact passes_of_root 29896722852569046015560700294576055776214335159245303116488692907525646231534
    (by norm_num [d]) (by norm_num [d])

/-- The first candidate of that hash passes, and `rp.cu` throws on its text. -/
theorem mapToGroup_one : check_quadratic_residue (tried (fun _ => hashOne) [] 0).hexr = 1 ∧
    Rp.mapToGroup (fun _ => hashOne) [] ⟨0, 0, 0⟩ = none := by
  have stops := loop_of_first (fun _ => hashOne) [] (n := 2048) (by decide) one_passes
    fun j below => absurd below (Nat.not_lt_zero j)
  have rx : (tried (fun _ => hashOne) [] 0).rx = (1 : ℕ) := by rw [first_tried one_number]
  refine ⟨one_passes, ?_⟩
  rw [Rp.mapToGroup, mapToGroup, stops, rx, rp_reads (by decide), if_neg (by decide)]
  rfl

end MapToGroup

end DbcSnark.Gpuec
