import DbcSnark.Model.Gpuec.PointMult
import DbcSnark.Proofs.Gpuec.BasePoint
import DbcSnark.Proofs.Gpuec.MixedSum
import DbcSnark.Proofs.Gpuec.ModExp
import Mathlib.Data.Nat.Bitwise

/-! # Correctness of the point multiplication

The accumulator holds the multiple of the point by the bits of the scalar read so far. From the leading bit down this is
`e` before a turn, and the double `2 e` meets the point itself, which it neither equals nor opposes as long as
`0 < e` and `2 e + 1 < N`. From the lowest bit up it is the scalar modulo `2 ^ p`, and it meets the multiple by `2 ^ p`.
-/

namespace DbcSnark.Gpuec

open WeierstrassCurve.Affine (Point)

/-! ## Multiples below the order -/

section Multiples

variable {G : Type*} [AddGroup G] {P : G} {n a b : ℕ}

theorem nsmul_ne_zero_of_lt (order : addOrderOf P = n) (positive : 0 < a) (below : a < n) : a • P ≠ 0 :=
  nsmul_ne_zero_of_lt_addOrderOf positive.ne' (order ▸ below)

theorem nsmul_ne_nsmul (order : addOrderOf P = n) (less : a < b) (below : b < n) : a • P ≠ b • P := by
  intro same
  rw [← Nat.add_sub_cancel' less.le, add_nsmul, left_eq_add] at same
  exact nsmul_ne_zero_of_lt order (by omega) (by omega) same

theorem nsmul_ne_neg_nsmul (order : addOrderOf P = n) (positive : 0 < a + b) (below : a + b < n) :
    a • P ≠ -(b • P) := by
  intro opposite
  rw [← add_eq_zero_iff_eq_neg, ← add_nsmul] at opposite
  exact nsmul_ne_zero_of_lt order positive below opposite

end Multiples

/-- The sum of finite points that are neither equal nor opposite. -/
theorem Jpoint.Represents.add_of_ne {J K : Jpoint} {P Q : curve.Point} (left : J.Represents P) (right : K.Represents Q)
    (first : P ≠ 0) (second : Q ≠ 0) (equal : P ≠ Q) (opposite : P ≠ -Q) : (J.add K).Represents (P + Q) := by
  cases P with
  | zero => exact absurd rfl first
  | some x₁ y₁ h₁ =>
    cases Q with
    | zero => exact absurd rfl second
    | some x₂ y₂ h₂ =>
      refine (left.add right).1 fun same => ?_
      rcases Point.X_eq_iff.mp same with same | same
      · exact equal same
      · exact opposite same

namespace Ram

/-! ## The loops from the leading bit -/

/-- The addition is that of the source for finite operands that are neither equal nor opposite; for others it may do
anything. -/
def Agrees (add : Ram → ℕ → ℕ → ℕ → Ram) : Prop :=
  ∀ m pt1 pt2 pt3 (P Q : curve.Point), (m.jpoint pt1).Represents P → (m.jpoint pt2).Represents Q → P ≠ 0 → Q ≠ 0 →
    P ≠ Q → P ≠ -Q → add m pt1 pt2 pt3 = dh_ellipticAdd_JJ m pt1 pt2 pt3

/-- Four words that share none with a point. -/
def Aside (k pt : ℕ) : Prop := k + 4 ≤ pt ∨ pt + 12 ≤ k

/-- Objects, each given by its address and its size, of which no two share a word. -/
def Objects (objects : List (ℕ × ℕ)) : Prop := objects.Pairwise fun a b => a.1 + a.2 ≤ b.1 ∨ b.1 + b.2 ≤ a.1

instance (objects : List (ℕ × ℕ)) : Decidable (Objects objects) := inferInstanceAs (Decidable (objects.Pairwise _))

/-- Beginning with `s`, the multiple of `P` by `e` has been written to `acc`, and nothing elsewhere. -/
structure Accumulates (s : Ram) (acc : ℕ) (P : curve.Point) (e : ℕ) (m : Ram) : Prop where
  multiple : (m.jpoint acc).Represents (e • P)
  frame : ∀ i, i < acc ∨ acc + 12 ≤ i → m i = s i

section Doubling

variable {s m : Ram} {k acc base e i j n : ℕ} {P : curve.Point}

theorem Accumulates.big (holds : Accumulates s acc P e m) (aside : Aside k acc) : m.big k = s.big k := by
  rw [Aside] at aside
  exact big_congr fun i _ _ => holds.frame i (by omega)

theorem Accumulates.jpoint (holds : Accumulates s acc P e m) (apart : Separate base acc) :
    m.jpoint base = s.jpoint base := by
  rw [Separate] at apart
  exact jpoint_congr fun i _ _ => holds.frame i (by omega)

/-- The doubling doubles the multiple. -/
private theorem Accumulates.double (holds : Accumulates s acc P e m) (order : addOrderOf P = modN.Pa.toNat)
    (positive : 0 < e) (below : e < modN.Pa.toNat) : Accumulates s acc P (2 * e) (ppoint_double m acc acc) where
  multiple := by
    rw [jpoint_ppoint_double m (.inl rfl), two_mul, add_nsmul]
    exact holds.multiple.double (nsmul_ne_zero_of_lt order positive below)
  frame i outside := (ppoint_double_of_outside m outside).trans (holds.frame i outside)

/-- The addition adds one to an even multiple, whatever it does to operands it cannot add. -/
private theorem Accumulates.succ (holds : Accumulates s acc P (2 * e) m) (order : addOrderOf P = modN.Pa.toNat)
    (point : (s.jpoint base).Represents P) (apart : Separate base acc) (positive : 0 < e)
    (below : 2 * e + 1 < modN.Pa.toNat) :
    (∀ add, Agrees add → add m acc base acc = dh_ellipticAdd_JJ m acc base acc) ∧
      Accumulates s acc P (2 * e + 1) (dh_ellipticAdd_JJ m acc base acc) := by
  rw [← holds.jpoint apart] at point
  have first : (2 * e) • P ≠ 0 := nsmul_ne_zero_of_lt order (by omega) (by omega)
  have second : P ≠ 0 := by
    rw [← one_nsmul P]
    exact nsmul_ne_zero_of_lt order one_pos (by omega)
  have equal : (2 * e) • P ≠ P := by
    conv_rhs => rw [← one_nsmul P]
    exact (nsmul_ne_nsmul order (by omega) (by omega)).symm
  have opposite : (2 * e) • P ≠ -P := by
    conv_rhs => rw [← one_nsmul P]
    exact nsmul_ne_neg_nsmul order (by omega) below
  refine ⟨fun add agrees => agrees m acc base acc _ P holds.multiple point first second equal opposite, ?_, ?_⟩
  · rw [jpoint_dh_ellipticAdd_JJ m (.inl rfl) (.inr apart), succ_nsmul]
    exact holds.multiple.add_of_ne point first second equal opposite
  · exact fun i outside => (dh_ellipticAdd_JJ_of_outside m outside).trans (holds.frame i outside)

/-- The scalar and the point that a multiplication reads while it writes to `acc`. -/
structure Scans (s : Ram) (k acc base : ℕ) (P : curve.Point) : Prop where
  order : addOrderOf P = modN.Pa.toNat
  point : (s.jpoint base).Represents P
  apart : Separate base acc
  aside : Aside k acc

variable (scans : Scans s k acc base P)
include scans

/-- A turn appends a bit to the multiple. -/
private theorem Scans.step (holds : Accumulates s acc P e m) (positive : 0 < e) (inside : j < 64)
    (below : 2 * e + ((s.big k).word i).toNat / 2 ^ j % 2 < modN.Pa.toNat) :
    ∃ m', (∀ add, Agrees add → multStep add k acc base i m j = m') ∧
      Accumulates s acc P (2 * e + ((s.big k).word i).toNat / 2 ^ j % 2) m' := by
  have double := holds.double scans.order positive (by omega)
  have scalar := double.big scans.aside
  by_cases set : bitAt ((s.big k).word i) j = 1
  · have bit := (bitAt_eq_one_iff _ inside).mp set
    rw [bit] at below ⊢
    obtain ⟨same, sum⟩ := double.succ scans.order scans.point scans.apart positive below
    refine ⟨_, fun add agrees => ?_, sum⟩
    rw [multStep, scalar, if_pos set, same add agrees]
  · have bit : ((s.big k).word i).toNat / 2 ^ j % 2 = 0 := by
      rw [bitAt_eq_one_iff _ inside] at set
      omega
    rw [bit]
    refine ⟨_, fun add _ => ?_, double⟩
    rw [multStep, scalar, if_neg set]

/-- The loop over the low bits of a word appends them. -/
private theorem Scans.bits (holds : Accumulates s acc P e m) (positive : 0 < e) (inside : n ≤ 64)
    (below : e * 2 ^ n + ((s.big k).word i).toNat % 2 ^ n < modN.Pa.toNat) :
    ∃ m', (∀ add, Agrees add → multBits add k acc base i n m = m') ∧
      Accumulates s acc P (e * 2 ^ n + ((s.big k).word i).toNat % 2 ^ n) m' := by
  induction n generalizing m e with
  | zero =>
    refine ⟨m, fun add _ => rfl, ?_⟩
    rwa [pow_zero, mul_one, Nat.mod_one, Nat.add_zero]
  | succ n ih =>
    have split : e * 2 ^ (n + 1) + ((s.big k).word i).toNat % 2 ^ (n + 1) =
        (2 * e + ((s.big k).word i).toNat / 2 ^ n % 2) * 2 ^ n + ((s.big k).word i).toNat % 2 ^ n := by
      rw [pow_succ, Nat.mod_mul]
      ring
    rw [split] at below ⊢
    have grows := Nat.le_mul_of_pos_right (2 * e + ((s.big k).word i).toNat / 2 ^ n % 2) (Nat.two_pow_pos n)
    obtain ⟨m₁, turn, step⟩ := scans.step (i := i) (j := n) holds positive (by omega) (by omega)
    obtain ⟨m₂, rest, last⟩ := ih step (by omega) (by omega) below
    refine ⟨m₂, fun add agrees => ?_, last⟩
    rw [multBits, Loops.foldl_reverse_range_succ, turn add agrees]
    exact rest add agrees

/-- The loop over the words appends them. -/
private theorem Scans.words (holds : Accumulates s acc P e m) (positive : 0 < e)
    (below : e * (2 ^ 64) ^ i + (s.big k).low i < modN.Pa.toNat) :
    ∃ m', (∀ add, Agrees add → multWords add k acc base i m = m') ∧
      Accumulates s acc P (e * (2 ^ 64) ^ i + (s.big k).low i) m' := by
  induction i generalizing m e with
  | zero =>
    refine ⟨m, fun add _ => rfl, ?_⟩
    rwa [pow_zero, mul_one, Big.low, Finset.sum_range_zero, Nat.add_zero]
  | succ i ih =>
    have split : e * (2 ^ 64) ^ (i + 1) + (s.big k).low (i + 1) =
        (e * 2 ^ 64 + ((s.big k).word i).toNat) * (2 ^ 64) ^ i + (s.big k).low i := by
      rw [low_succ, pow_succ]
      ring
    rw [split] at below ⊢
    have grows := Nat.le_mul_of_pos_right (e * 2 ^ 64 + ((s.big k).word i).toNat) (pow_pos (Nat.two_pow_pos 64) i)
    have small := Nat.mod_eq_of_lt ((s.big k).word i).toNat_lt
    obtain ⟨m₁, word, step⟩ := scans.bits (i := i) (n := 64) holds positive le_rfl (by omega)
    rw [small] at step
    obtain ⟨m₂, rest, last⟩ := ih step (by omega) below
    refine ⟨m₂, fun add agrees => ?_, last⟩
    rw [multWords, Loops.foldl_reverse_range_succ, word add agrees]
    exact rest add agrees

/-- From the point on, the loops find the multiple by the scalar. -/
private theorem Scans.run (holds : Accumulates s acc P 1 m) (positive : 0 < (s.big k).toNat)
    (below : (s.big k).toNat < modN.Pa.toNat) :
    ∃ i j m', leadingWord (s.big k) = some i ∧ leadingBit ((s.big k).word i) 64 = some j ∧
      (∀ add, Agrees add → multWords add k acc base i (multBits add k acc base i j m) = m') ∧
      Accumulates s acc P (s.big k).toNat m' := by
  obtain ⟨i, word, nonzero, whole⟩ := leadingWord_spec positive
  obtain ⟨j, inside, bit, one⟩ := leadingBit_spec le_rfl ((s.big k).word i).toNat_lt nonzero
  have leading : 1 * 2 ^ j + ((s.big k).word i).toNat % 2 ^ j = ((s.big k).word i).toNat := by
    rw [← one, Nat.mul_comm, Nat.div_add_mod]
  have total : ((s.big k).word i).toNat * (2 ^ 64) ^ i + (s.big k).low i = (s.big k).toNat := by
    rw [Nat.add_comm, ← low_succ, whole]
  have grows := Nat.le_mul_of_pos_right ((s.big k).word i).toNat (pow_pos (Nat.two_pow_pos 64) i)
  obtain ⟨m₁, first, step⟩ := scans.bits (i := i) (n := j) holds one_pos inside.le (by omega)
  rw [leading] at step
  obtain ⟨m₂, rest, last⟩ := scans.words (i := i) step nonzero (by omega)
  rw [total] at last
  refine ⟨i, j, m₂, word, bit, fun add agrees => ?_, last⟩
  rw [first add agrees, rest add agrees]

end Doubling

/-! ## The three functions -/

section Functions

variable {s : Ram} {pt1 pt2 k tp : ℕ} {P Q : curve.Point}

theorem jpoint_copyPoint (m : Ram) (apart : Separate pt1 pt2) : (m.copyPoint pt1 pt2).jpoint pt2 = m.jpoint pt1 := by
  rw [Separate] at apart
  simp (disch := omega) only [jpoint, copyPoint, big_putBig, big_putBig_of_apart]

theorem copyPoint_of_outside (m : Ram) {i : ℕ} (outside : i < pt2 ∨ pt2 + 12 ≤ i) : m.copyPoint pt1 pt2 i = m i := by
  simp (disch := omega) only [copyPoint, putBig_of_outside]

theorem copyPoint_big (m : Ram) (pt1 : ℕ) (aside : Aside k pt2) : (m.copyPoint pt1 pt2).big k = m.big k := by
  rw [Aside] at aside
  exact big_congr fun i _ _ => copyPoint_of_outside m (by omega)

theorem copyPoint_source (m : Ram) (apart : Separate pt1 pt2) : (m.copyPoint pt1 pt2).jpoint pt1 = m.jpoint pt1 := by
  rw [Separate] at apart
  exact jpoint_congr fun i _ _ => copyPoint_of_outside m (by omega)

private theorem accumulates_one (point : (s.jpoint pt1).Represents P) : Accumulates s pt1 P 1 s :=
  ⟨by rwa [one_nsmul], fun _ _ => rfl⟩

/-- The point `Q` has been stored at `pt`, and nothing elsewhere but at the local `tp`. -/
structure Stored (s m' : Ram) (pt tp : ℕ) (Q : curve.Point) : Prop where
  point : (m'.jpoint pt).Represents Q
  frame : ∀ i, i < pt ∨ pt + 12 ≤ i → i < tp ∨ tp + 12 ≤ i → m' i = s i

/-- What is apart from both stays as it was. -/
theorem Stored.jpoint {m' : Ram} {base : ℕ} (stored : Stored s m' pt2 tp Q) (first : Separate base pt2)
    (second : Separate base tp) : m'.jpoint base = s.jpoint base := by
  rw [Separate] at first second
  exact jpoint_congr fun i _ _ => stored.frame i (by omega) (by omega)

variable (order : addOrderOf P = modN.Pa.toNat) (point : (s.jpoint pt1).Represents P) (positive : 0 < (s.big k).toNat)
  (below : (s.big k).toNat < modN.Pa.toNat)
include order point positive below

/-- The loops over the copy in `tp` as the point to add, in place. -/
private theorem inPlace (apart : Separate pt1 tp) (aside : Aside k pt1) (local_aside : Aside k tp) :
    ∃ i j m', leadingWord (s.big k) = some i ∧ leadingBit ((s.big k).word i) 64 = some j ∧
      (∀ add, Agrees add →
        multWords add k pt1 tp i (multBits add k pt1 tp i j (s.copyPoint pt1 tp)) = m') ∧
      Stored s m' pt1 tp ((s.big k).toNat • P) := by
  have scalar := copyPoint_big s pt1 local_aside
  have source := copyPoint_source s apart
  have target := jpoint_copyPoint s apart
  have scans : Scans (s.copyPoint pt1 tp) k pt1 tp P := ⟨order, by rwa [target], apart.symm, aside⟩
  obtain ⟨i, j, m', word, bit, run, last⟩ := scans.run (accumulates_one (by rwa [source])) (by rwa [scalar])
    (by rwa [scalar])
  rw [scalar] at word bit last
  exact ⟨i, j, m', word, bit, run, last.multiple, fun a outside local_outside =>
    (last.frame a outside).trans (copyPoint_of_outside s local_outside)⟩

theorem dh_point_mult_inplace_spec (apart : Separate pt1 tp) (aside : Aside k pt1) (local_aside : Aside k tp) :
    ∃ m', (∀ add, Agrees add → point_mult_inplace add tp s pt1 k = some m') ∧
      Stored s m' pt1 tp ((s.big k).toNat • P) := by
  obtain ⟨i, j, m', word, bit, run, stored⟩ := inPlace order point positive below apart aside local_aside
  refine ⟨m', fun add agrees => ?_, stored⟩
  rw [point_mult_inplace, word]
  simp only [Option.bind_eq_bind, Option.bind_some, bit]
  exact congrArg some (run add agrees)

theorem dh_point_mult_finalversion_same (apart : Separate pt1 tp) (aside : Aside k pt1) (local_aside : Aside k tp) :
    ∃ m', (∀ add, Agrees add → point_mult_finalversion add tp s pt1 k pt1 = some m') ∧
      Stored s m' pt1 tp ((s.big k).toNat • P) := by
  obtain ⟨i, j, m', word, bit, run, stored⟩ := inPlace order point positive below apart aside local_aside
  refine ⟨m', fun add agrees => ?_, stored⟩
  rw [point_mult_finalversion, word]
  simp only [Option.bind_eq_bind, Option.bind_some, bit, if_pos]
  exact congrArg some (run add agrees)

theorem dh_point_mult_finalversion_other (apart : Separate pt1 tp) (beside : Separate tp pt2) (local_aside : Aside k tp)
    (other : pt1 ≠ pt2) :
    ∃ m', (∀ add, Agrees add → point_mult_finalversion add tp s pt1 k pt2 = some m') ∧
      Stored s m' pt2 tp ((s.big k).toNat • P) := by
  have scalar := copyPoint_big s pt1 local_aside
  have source := copyPoint_source s apart
  have target := jpoint_copyPoint s apart
  have scans : Scans (s.copyPoint pt1 tp) k tp pt1 P := ⟨order, by rwa [source], apart, local_aside⟩
  obtain ⟨i, j, m', word, bit, run, last⟩ := scans.run (accumulates_one (by rwa [target])) (by rwa [scalar])
    (by rwa [scalar])
  rw [scalar] at word bit last
  refine ⟨m'.copyPoint tp pt2, fun add agrees => ?_, ?_, fun a outside local_outside => ?_⟩
  · rw [point_mult_finalversion, word]
    simp only [Option.bind_eq_bind, Option.bind_some, bit, if_neg other, run add agrees]
    rfl
  · rw [jpoint_copyPoint m' beside]
    exact last.multiple
  · rw [copyPoint_of_outside m' outside, last.frame a local_outside, copyPoint_of_outside s local_outside]

theorem dh_point_mult_outofplace_spec (apart : Separate pt1 pt2) (aside : Aside k pt2) :
    ∃ m', (∀ add, Agrees add → point_mult_outofplace add s pt1 k pt2 = some m') ∧
      Stored s m' pt2 pt2 ((s.big k).toNat • P) := by
  have scalar := copyPoint_big s pt1 aside
  have source := copyPoint_source s apart
  have target := jpoint_copyPoint s apart
  have scans : Scans (s.copyPoint pt1 pt2) k pt2 pt1 P := ⟨order, by rwa [source], apart, aside⟩
  obtain ⟨i, j, m', word, bit, run, last⟩ := scans.run (accumulates_one (by rwa [target])) (by rwa [scalar])
    (by rwa [scalar])
  refine ⟨m', fun add agrees => ?_, ?_, fun a outside _ => ?_⟩
  · rw [point_mult_outofplace]
    simp only [Option.bind_eq_bind, word, Option.bind_some, bit, run add agrees]
    rfl
  · rw [← scalar]
    exact last.multiple
  · exact (last.frame a outside).trans (copyPoint_of_outside s outside)

end Functions

/-! ## The table -/

section Table

/-- The mixed addition is that of the source for finite operands that are neither equal nor opposite; for others it may do
anything. -/
def AgreesMixed (add : Ram → ℕ → ℕ → Ram) : Prop :=
  ∀ m pt1 pt2 (P Q : curve.Point), (m.jpoint pt1).Represents P → (m.apoint pt2).Represents Q → P ≠ 0 → Q ≠ 0 →
    P ≠ Q → P ≠ -Q → add m pt1 pt2 = dh_ellipticSumEqual_AJ m pt1 pt2

private theorem toNat_word (k : Big) {i : ℕ} (inside : i < 4) : (k.word i).toNat = k.toNat / 2 ^ (64 * i) % 2 ^ 64 := by
  have h0 := k.w0.toNat_lt
  have h1 := k.w1.toNat_lt
  have h2 := k.w2.toNat_lt
  have h3 := k.w3.toNat_lt
  interval_cases i
  all_goals
    simp only [Big.word, Big.toNat]
    omega

/-- The bit `j` of the word `i` is the bit `i * 64 + j`. -/
private theorem bitAt_word (k : Big) {i j : ℕ} (word : i < 4) (bit : j < 64) :
    bitAt (k.word i) j ≠ 0 ↔ k.toNat.testBit (i * 64 + j) = true := by
  rw [bitAt_ne_zero_iff _ bit, toNat_word k word, Nat.testBit_mod_two_pow, Nat.testBit_div_two_pow, Nat.mul_comm 64 i,
    Nat.add_comm j]
  simp only [bit, decide_true, Bool.true_and]

private theorem bitAt_one_iff (w : UInt64) {j : ℕ} (inside : j < 64) : bitAt w j = 1 ↔ bitAt w j ≠ 0 := by
  rw [bitAt_ne_zero_iff w inside, bitAt_eq_one_iff w inside, Nat.testBit_eq_decide_div_mod_eq, decide_eq_true_eq]

private theorem bitAt_zero (j : ℕ) : bitAt 0 j = 0 := by
  rw [bitAt, UInt64.zero_shiftRight, UInt64.zero_and]

private theorem exists_lowestWord {k : Big} (positive : 0 < k.toNat) :
    ∃ i < 4, lowestWord k = some i ∧ k.word i ≠ 0 ∧ ∀ i' < i, k.word i' = 0 := by
  rw [lowestWord]
  cases found : (List.range 4).find? fun i => k.word i ≠ 0 with
  | none =>
    rw [List.find?_range_eq_none] at found
    have zero (i : ℕ) (inside : i < 4) : k.word i = 0 := by simpa using found i inside
    have whole : k.toNat = 0 := by
      simp only [Big.toNat, show k.w0 = 0 from zero 0 (by decide), show k.w1 = 0 from zero 1 (by decide),
        show k.w2 = 0 from zero 2 (by decide), show k.w3 = 0 from zero 3 (by decide)]
      rfl
    exact absurd whole positive.ne'
  | some i =>
    rw [List.find?_range_eq_some] at found
    obtain ⟨hit, inside, before⟩ := found
    exact ⟨i, List.mem_range.mp inside, rfl, of_decide_eq_true hit, fun i' less => by simpa using before i' less⟩

private theorem exists_lowestBit {w : UInt64} (nonzero : w ≠ 0) :
    ∃ j < 64, lowestBit w = some j ∧ bitAt w j ≠ 0 ∧ ∀ j' < j, bitAt w j' = 0 := by
  rw [lowestBit]
  cases found : (List.range 64).find? fun j => bitAt w j ≠ 0 with
  | none =>
    rw [List.find?_range_eq_none] at found
    refine absurd (UInt64.toNat_inj.mp (Nat.zero_of_testBit_eq_false fun j => ?_)) nonzero
    rcases Nat.lt_or_ge j 64 with inside | outside
    · have clear : ¬bitAt w j ≠ 0 := by simpa using found j inside
      rwa [bitAt_ne_zero_iff w inside, Bool.not_eq_true] at clear
    · exact Nat.testBit_lt_two_pow (w.toNat_lt.trans_le (Nat.pow_le_pow_right (by norm_num) outside))
  | some j =>
    rw [List.find?_range_eq_some] at found
    obtain ⟨hit, inside, before⟩ := found
    exact ⟨j, List.mem_range.mp inside, rfl, of_decide_eq_true hit, fun j' less => by simpa using before j' less⟩

/-- The lowest set bit of a nonzero scalar. -/
private theorem lowest_spec {k : Big} (positive : 0 < k.toNat) :
    ∃ i < 4, ∃ j < 64, lowestWord k = some i ∧ lowestBit (k.word i) = some j ∧
      k.toNat.testBit (i * 64 + j) = true ∧ k.toNat % 2 ^ (i * 64 + j) = 0 := by
  obtain ⟨i, word, found, nonzero, words⟩ := exists_lowestWord positive
  obtain ⟨j, bit, found', hit, bits⟩ := exists_lowestBit nonzero
  refine ⟨i, word, j, bit, found, found', (bitAt_word k word bit).mp hit, Nat.zero_of_testBit_eq_false fun q => ?_⟩
  rw [Nat.testBit_mod_two_pow, Bool.and_eq_false_iff]
  rcases Nat.lt_or_ge q (i * 64 + j) with below | above
  · have place : q = q / 64 * 64 + q % 64 := by omega
    have inside : q / 64 < 4 := by omega
    refine .inr ?_
    rw [place, ← Bool.not_eq_true, ← bitAt_word k inside (Nat.mod_lt q (by decide)), not_not]
    rcases Nat.lt_or_ge (q / 64) i with less | same
    · rw [words _ less, bitAt_zero]
    · have last : q / 64 = i := by omega
      rw [last]
      exact bits _ (by omega)
  · exact .inl (decide_eq_false (Nat.not_lt.mpr above))

/-- Higher bits leave the multiple positive. -/
private theorem mod_pos {n p q : ℕ} (positive : 0 < n % 2 ^ p) (above : p ≤ q) : 0 < n % 2 ^ q := by
  rw [← Nat.mod_mod_of_dvd n (Nat.pow_dvd_pow 2 above)] at positive
  exact positive.trans_le (Nat.mod_le _ _)

/-- The scalar and the table that the multiplication of the base point reads while it writes to `t`. -/
structure Tabulates (s : Ram) (basePointMulPCT k t : ℕ) : Prop where
  entry : ∀ p < 256, (s.apoint (basePointMulPCT + 8 * p)).Represents (2 ^ p • basePoint)
  apart : basePointMulPCT + 8 * 256 ≤ t ∨ t + 12 ≤ basePointMulPCT
  aside : Aside k t
  below : (s.big k).toNat < modN.Pa.toNat

variable {s m : Ram} {basePointMulPCT k t p i j : ℕ} (table : Tabulates s basePointMulPCT k t)
include table

private theorem Tabulates.beside (inside : p < 256) : Beside t (basePointMulPCT + 8 * p) := by
  have apart := table.apart
  rw [Beside]
  omega

private theorem Tabulates.kept (holds : Accumulates s t P e m) (inside : p < 256) :
    m.apoint (basePointMulPCT + 8 * p) = s.apoint (basePointMulPCT + 8 * p) := by
  have apart := table.apart
  exact apoint_congr fun a _ _ => holds.frame a (by omega)

/-- The addition of an entry adds its bit to the multiple. -/
private theorem Tabulates.add (holds : Accumulates s t basePoint ((s.big k).toNat % 2 ^ p) m) (inside : p < 256)
    (set : (s.big k).toNat.testBit p = true) (positive : 0 < (s.big k).toNat % 2 ^ p) :
    (∀ add, AgreesMixed add → add m t (basePointMulPCT + 8 * p) =
        dh_ellipticSumEqual_AJ m t (basePointMulPCT + 8 * p)) ∧
      Accumulates s t basePoint ((s.big k).toNat % 2 ^ (p + 1))
        (dh_ellipticSumEqual_AJ m t (basePointMulPCT + 8 * p)) := by
  have below := table.below
  have whole := Nat.mod_le (s.big k).toNat (2 ^ (p + 1))
  have smaller := Nat.mod_lt (s.big k).toNat (Nat.two_pow_pos p)
  have entry := table.entry p inside
  rw [← table.kept holds inside] at entry
  have next : (s.big k).toNat % 2 ^ (p + 1) = (s.big k).toNat % 2 ^ p + 2 ^ p := by
    rw [Nat.testBit_eq_decide_div_mod_eq, decide_eq_true_eq] at set
    rw [pow_succ, Nat.mod_mul, set, mul_one]
  rw [next] at whole ⊢
  have order := addOrderOf_basePoint
  have first := nsmul_ne_zero_of_lt order positive (by omega)
  have second : 2 ^ p • basePoint ≠ 0 := nsmul_ne_zero_of_lt order (Nat.two_pow_pos p) (by omega)
  have equal := nsmul_ne_nsmul order smaller (by omega)
  have opposite := nsmul_ne_neg_nsmul order (b := 2 ^ p) (Nat.add_pos_left positive _) (by omega)
  have unlike : ¬(((s.big k).toNat % 2 ^ p) • basePoint ≠ 0 ∧
      2 ^ p • basePoint = -(((s.big k).toNat % 2 ^ p) • basePoint)) := by
    rintro ⟨-, same⟩
    exact opposite (neg_eq_iff_eq_neg.mp same.symm)
  obtain ⟨sum, outside⟩ := dh_ellipticSumEqual_AJ_stores (table.beside inside) holds.multiple entry unlike
  refine ⟨fun add agrees => agrees m t _ _ _ holds.multiple entry first second equal opposite, ?_, fun a beyond => ?_⟩
  · rwa [add_nsmul]
  · rw [outside a beyond, holds.frame a beyond]

/-- A turn takes the next bit into the multiple. -/
private theorem Tabulates.step (holds : Accumulates s t basePoint ((s.big k).toNat % 2 ^ (i * 64 + j)) m) (word : i < 4)
    (bit : j < 64) (positive : 0 < (s.big k).toNat % 2 ^ (i * 64 + j)) :
    ∃ m', (∀ add, AgreesMixed add → tableStep add basePointMulPCT k t i m j = m') ∧
      Accumulates s t basePoint ((s.big k).toNat % 2 ^ (i * 64 + (j + 1))) m' := by
  have scalar := holds.big table.aside
  have test := bitAt_word (s.big k) word bit
  rw [← bitAt_one_iff _ bit] at test
  by_cases set : bitAt ((s.big k).word i) j = 1
  · obtain ⟨same, sum⟩ := table.add holds (by omega) (test.mp set) positive
    refine ⟨_, fun add agrees => ?_, sum⟩
    rw [tableStep, scalar, if_pos set, same add agrees]
  · have clear : (s.big k).toNat % 2 ^ (i * 64 + (j + 1)) = (s.big k).toNat % 2 ^ (i * 64 + j) := by
      rw [test, Nat.testBit_eq_decide_div_mod_eq, decide_eq_true_eq] at set
      rw [← Nat.add_assoc, pow_succ, Nat.mod_mul, Nat.mod_two_ne_one.mp set, mul_zero, Nat.add_zero]
    refine ⟨m, fun add _ => ?_, ?_⟩
    · rw [tableStep, scalar, if_neg set]
    · rwa [clear]

/-- The loop over the high bits of a word takes them into the multiple. -/
private theorem Tabulates.bits (holds : Accumulates s t basePoint ((s.big k).toNat % 2 ^ (i * 64 + j)) m) (word : i < 4)
    (bit : j ≤ 64) (positive : 0 < (s.big k).toNat % 2 ^ (i * 64 + j)) :
    ∃ m', (∀ add, AgreesMixed add → tableBits add basePointMulPCT k t i j m = m') ∧
      Accumulates s t basePoint ((s.big k).toNat % 2 ^ ((i + 1) * 64)) m' := by
  obtain ⟨rest, count⟩ := Nat.exists_eq_add_of_le bit
  induction rest generalizing j m with
  | zero =>
    obtain rfl : j = 64 := count.symm
    refine ⟨m, fun add _ => rfl, ?_⟩
    rwa [Nat.succ_mul]
  | succ rest ih =>
    obtain ⟨m₁, turn, step⟩ := table.step holds word (by omega) positive
    obtain ⟨m₂, later, last⟩ := ih step (by omega) (mod_pos positive (by omega)) (by omega)
    refine ⟨m₂, fun add agrees => ?_, last⟩
    rw [tableBits, show 64 - j = 64 - (j + 1) + 1 by omega, List.range'_succ, List.foldl_cons, turn add agrees]
    exact later add agrees

/-- The loop over the high words takes them into the multiple. -/
private theorem Tabulates.words (holds : Accumulates s t basePoint ((s.big k).toNat % 2 ^ (i * 64)) m) (word : i ≤ 4)
    (positive : 0 < (s.big k).toNat % 2 ^ (i * 64)) :
    ∃ m', (∀ add, AgreesMixed add → tableWords add basePointMulPCT k t i m = m') ∧
      Accumulates s t basePoint (s.big k).toNat m' := by
  obtain ⟨rest, count⟩ := Nat.exists_eq_add_of_le word
  induction rest generalizing i m with
  | zero =>
    obtain rfl : i = 4 := count.symm
    refine ⟨m, fun add _ => rfl, ?_⟩
    rwa [show 4 * 64 = 256 from rfl, Nat.mod_eq_of_lt (s.big k).toNat_lt] at holds
  | succ rest ih =>
    obtain ⟨m₁, turn, step⟩ := table.bits (j := 0) (by rwa [Nat.add_zero]) (by omega) (Nat.zero_le 64)
      (by rwa [Nat.add_zero])
    obtain ⟨m₂, later, last⟩ := ih step (by omega) (mod_pos positive (by omega)) (by omega)
    refine ⟨m₂, fun add agrees => ?_, last⟩
    rw [tableWords, show 4 - i = 4 - (i + 1) + 1 by omega, List.range'_succ, List.foldl_cons, turn add agrees]
    exact later add agrees

/-- From the lowest entry on, the loops find the multiple of the base point by the scalar. -/
theorem d_base_point_mul_spec {res : ℕ} (positive : 0 < (s.big k).toNat) (beside : Separate t res) :
    ∃ m', (∀ add, AgreesMixed add → base_point_mul add basePointMulPCT k t s res = some m') ∧
      Stored s m' res t ((s.big k).toNat • basePoint) := by
  obtain ⟨i, word, j, bit, found, found', set, clear⟩ := lowest_spec positive
  have apart := table.apart
  have below := table.below
  have first : (s.big k).toNat % 2 ^ (i * 64 + (j + 1)) = 2 ^ (i * 64 + j) := by
    rw [Nat.testBit_eq_decide_div_mod_eq, decide_eq_true_eq] at set
    rw [← Nat.add_assoc, pow_succ, Nat.mod_mul, set, clear, mul_one, zero_add]
  have finite : 2 ^ (i * 64 + j) • basePoint ≠ 0 := by
    refine nsmul_ne_zero_of_lt addOrderOf_basePoint (Nat.two_pow_pos _) ?_
    rw [← first]
    exact (Nat.mod_le _ _).trans_lt below
  obtain ⟨m₀, hm₀⟩ : ∃ m₀, m₀ = ((s.putBig t (s.big (basePointMulPCT + 8 * (i * 64 + j)))).putBig (t + 4)
      (s.big (basePointMulPCT + 8 * (i * 64 + j) + 4))).putBig (t + 8) dc_mon_ONE := ⟨_, rfl⟩
  have start : Accumulates s t basePoint ((s.big k).toNat % 2 ^ (i * 64 + (j + 1))) m₀ := by
    rw [first, hm₀]
    refine ⟨?_, fun a outside => ?_⟩
    · have copied := (table.entry (i * 64 + j) (by omega)).toJpoint finite
      simp (disch := omega) only [jpoint, big_putBig, big_putBig_of_apart]
      exact copied
    · simp (disch := omega) only [putBig_of_outside]
  have some : 0 < (s.big k).toNat % 2 ^ (i * 64 + (j + 1)) := by
    rw [first]
    exact Nat.two_pow_pos _
  obtain ⟨m₁, head, step⟩ := table.bits start word bit some
  obtain ⟨m₂, rest, last⟩ := table.words step word (mod_pos some (by omega))
  refine ⟨m₂.copyPoint t res, fun add agrees => ?_, ?_, fun a outside local_outside => ?_⟩
  · rw [base_point_mul, found]
    simp (disch := omega) only [Option.bind_eq_bind, Option.bind_some, found', big_putBig_of_apart]
    rw [← hm₀, head add agrees, rest add agrees]
    rfl
  · rw [jpoint_copyPoint m₂ beside]
    exact last.multiple
  · rw [copyPoint_of_outside m₂ outside, last.frame a local_outside]

end Table

/-! ## All scalars -/

theorem agrees_dh_ellipticAdd_JJ : Agrees dh_ellipticAdd_JJ := fun _ _ _ _ _ _ _ _ _ _ _ _ => rfl

theorem agreesMixed_dh_ellipticSumEqual_AJ : AgreesMixed dh_ellipticSumEqual_AJ := fun _ _ _ _ _ _ _ _ _ _ _ => rfl

/-- The call leaves `Q` at `pt`, and with any addition that agrees with that of the source on finite operands that are
neither equal nor opposite the result is the same, so no others are ever added. -/
def Multiplies {A : Type} (agrees : A → Prop) (mult : A → Option Ram) (call : Option Ram) (s : Ram) (pt tp : ℕ)
    (Q : curve.Point) : Prop :=
  ∃ m', call = some m' ∧ (∀ add, agrees add → mult add = some m') ∧ Stored s m' pt tp Q

private theorem Multiplies.of_source {A : Type} {agrees : A → Prop} {mult : A → Option Ram} {source : A} {s : Ram}
    {pt tp : ℕ}
    {Q : curve.Point} (self : agrees source)
    (stores : ∃ m', (∀ add, agrees add → mult add = some m') ∧ Stored s m' pt tp Q) :
    Multiplies agrees mult (mult source) s pt tp Q := by
  obtain ⟨m', same, stored⟩ := stores
  exact ⟨m', same source self, same, stored⟩

theorem Multiplies.jpoint {A : Type} {agrees : A → Prop} {mult : A → Option Ram} {call : Option Ram} {s m' : Ram}
    {pt tp base : ℕ} {Q : curve.Point} (multiplies : Multiplies agrees mult call s pt tp Q) (ends : call = some m')
    (first : Separate base pt) (second : Separate base tp) : m'.jpoint base = s.jpoint base := by
  obtain ⟨m₁, body, -, stored⟩ := multiplies
  cases body.symm.trans ends
  exact stored.jpoint first second

/-- The four functions multiply by every scalar between zero and the order, in place and out of place, with a point that
is not in place left alone. -/
theorem point_multiplication (s : Ram) (k : ℕ) (positive : 0 < (s.big k).toNat)
    (below : (s.big k).toNat < modN.Pa.toNat) :
    (∀ pt1 P, addOrderOf P = modN.Pa.toNat → (s.jpoint pt1).Represents P →
      (∀ tp, Separate pt1 tp → Aside k pt1 → Aside k tp →
        Multiplies Agrees (fun add => point_mult_inplace add tp s pt1 k) (dh_point_mult_inplace tp s pt1 k) s pt1 tp
            ((s.big k).toNat • P) ∧
          Multiplies Agrees (fun add => point_mult_finalversion add tp s pt1 k pt1)
            (dh_point_mult_finalversion tp s pt1 k pt1) s pt1 tp ((s.big k).toNat • P)) ∧
      (∀ pt2, Separate pt1 pt2 → Aside k pt2 →
        Multiplies Agrees (fun add => point_mult_outofplace add s pt1 k pt2) (dh_point_mult_outofplace s pt1 k pt2) s pt2
            pt2 ((s.big k).toNat • P) ∧
          ∀ m', dh_point_mult_outofplace s pt1 k pt2 = some m' → m'.jpoint pt1 = s.jpoint pt1) ∧
      ∀ pt2 tp, pt1 ≠ pt2 → Separate pt1 tp → Separate tp pt2 → Aside k tp →
        Multiplies Agrees (fun add => point_mult_finalversion add tp s pt1 k pt2)
            (dh_point_mult_finalversion tp s pt1 k pt2) s pt2 tp ((s.big k).toNat • P) ∧
          (Separate pt1 pt2 →
            ∀ m', dh_point_mult_finalversion tp s pt1 k pt2 = some m' → m'.jpoint pt1 = s.jpoint pt1)) ∧
    ∀ basePointMulPCT t res, (∀ p < 256, (s.apoint (basePointMulPCT + 8 * p)).Represents (2 ^ p • basePoint)) →
      (basePointMulPCT + 8 * 256 ≤ t ∨ t + 12 ≤ basePointMulPCT) → Aside k t → Separate t res →
      Multiplies AgreesMixed (fun add => base_point_mul add basePointMulPCT k t s res)
        (d_base_point_mul basePointMulPCT t s res k) s res t ((s.big k).toNat • basePoint) := by
  have self := agrees_dh_ellipticAdd_JJ
  refine ⟨fun pt1 P order point => ⟨fun tp apart aside local_aside => ⟨?_, ?_⟩, fun pt2 apart aside => ?_,
    fun pt2 tp other apart beside local_aside => ?_⟩, fun basePointMulPCT t res entry apart aside beside => ?_⟩
  · exact .of_source self (dh_point_mult_inplace_spec order point positive below apart aside local_aside)
  · exact .of_source self (dh_point_mult_finalversion_same order point positive below apart aside local_aside)
  · have multiplies := Multiplies.of_source self (dh_point_mult_outofplace_spec order point positive below apart aside)
    exact ⟨multiplies, fun m' ends => multiplies.jpoint ends apart apart⟩
  · have multiplies := Multiplies.of_source self
      (dh_point_mult_finalversion_other order point positive below apart beside local_aside other)
    exact ⟨multiplies, fun clear m' ends => multiplies.jpoint ends clear apart⟩
  · have table : Tabulates s basePointMulPCT k t := ⟨entry, apart, aside, below⟩
    exact .of_source agreesMixed_dh_ellipticSumEqual_AJ (d_base_point_mul_spec table positive beside)

/-- The base point at address 0 and the scalar 5 at address 24. -/
def baseTimesFive : Ram := fun i =>
  [0xd7362e5a487e2097, 0x231e295329bc66db, 0x979f48c033fd129c, 0x9981e643e9089f48, 0xb15ea6d2d3dbabe2, 0x8dfc5d5d1f1dc64d,
    0x70b6b59aac19c136, 0xcf3f851fd4a582d6, 0x1000003d1, 0, 0, 0, 0, 0, 0, 0, 0, 0, 0, 0, 0, 0, 0, 0, 5].getD i 0

theorem point_multiplication_five :
    (∃ m', dh_point_mult_inplace 12 baseTimesFive 0 24 = some m' ∧ (m'.jpoint 0).Represents (5 • basePoint)) ∧
      (∃ m', dh_point_mult_outofplace baseTimesFive 0 24 28 = some m' ∧ (m'.jpoint 28).Represents (5 • basePoint) ∧
        m'.jpoint 0 = baseTimesFive.jpoint 0) ∧
      ∃ m', dh_point_mult_finalversion 40 baseTimesFive 0 24 28 = some m' ∧ (m'.jpoint 28).Represents (5 • basePoint) := by
  have represents : (baseTimesFive.jpoint 0).Represents basePoint := represents_basePoint.toJpoint basePoint_ne_zero
  obtain ⟨points, -⟩ := point_multiplication baseTimesFive 24 (by decide) (by decide)
  obtain ⟨inplace, outofplace, other⟩ := points 0 basePoint addOrderOf_basePoint represents
  obtain ⟨⟨m₁, ends₁, -, stored₁⟩, -⟩ := inplace 12 (.inl (by decide)) (.inr (by decide)) (.inr (by decide))
  obtain ⟨⟨m₂, ends₂, -, stored₂⟩, kept⟩ := outofplace 28 (.inl (by decide)) (.inl (by decide))
  obtain ⟨⟨m₃, ends₃, -, stored₃⟩, -⟩ := other 28 40 (by decide) (.inl (by decide)) (.inr (by decide)) (.inl (by decide))
  exact ⟨⟨m₁, ends₁, stored₁.point⟩, ⟨m₂, ends₂, stored₂.point, kept m₂ ends₂⟩, m₃, ends₃, stored₃.point⟩

end Ram

end DbcSnark.Gpuec
