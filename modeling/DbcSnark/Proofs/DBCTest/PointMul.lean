import DbcSnark.Model.DBCTest.PointMul
import DbcSnark.ToMathlib.DoubleBase
import Mathlib.Algebra.Module.Basic
import Mathlib.Tactic.Module

/-! # Scalar multiplications in an abelian group

The evaluator of `functions.h` multiplies its accumulator down the staircase of exponents, so what it keeps
is the sum of the terms read so far divided by the current power. The one of `optimal_DBC2.cpp` multiplies a
running base up the same staircase and keeps the plain sum of the terms read so far.
-/

namespace DbcSnark.DBCTest

open DoubleBase

variable {A : Type*} [AddCommGroup A] {a : A}

/-- A chain as the two evaluators expect it: it starts with a positive term and neither exponent increases. -/
structure IsStaircase (c : List Chain) : Prop where
  leading : ∃ x rest, c = x :: rest ∧ x.minus = false
  descending : c.Pairwise fun x y => y.dbl ≤ x.dbl ∧ y.tpl ≤ x.tpl

/-- The sign of a term as a number. -/
def sign (x : Chain) : ℤ := if x.minus then -1 else 1

private theorem value_eq (x : Chain) : x.value = sign x * pow23 x.dbl x.tpl := by
  rcases x with ⟨dbl, tpl, _ | _⟩ <;> simp [Term.value, Term.weight, sign]

namespace Descent

/-- Once the remaining doublings and triplings are made, the accumulator is `sum` times the point. -/
def Holds (a : A) (sum : ℤ) (st : Descent A) : Prop :=
  ∃ z : ℤ, st.r = z • a ∧ z * pow23 st.now_dbl st.now_tpl = sum

private theorem Holds.step {sum : ℤ} {st : Descent A} (holds : Holds a sum st) (dbl tpl : ℕ) :
    Holds a sum (step dbl tpl st) := by
  obtain ⟨z, multiple, scaled⟩ := holds
  unfold Descent.step
  split
  next doubles =>
    obtain ⟨k, count⟩ : ∃ k, st.now_dbl = k + 1 := ⟨st.now_dbl - 1, by omega⟩
    refine ⟨2 * z, by rw [multiple]; module, ?_⟩
    rw [count, pow23_succ_left] at scaled
    simp only [count, Nat.add_sub_cancel]
    rw [← scaled]
    ring
  next =>
    split
    next triples =>
      obtain ⟨k, count⟩ : ∃ k, st.now_tpl = k + 1 := ⟨st.now_tpl - 1, by omega⟩
      refine ⟨3 * z, by rw [multiple]; module, ?_⟩
      rw [count, pow23_succ_right] at scaled
      simp only [count, Nat.add_sub_cancel]
      rw [← scaled]
      ring
    next => exact ⟨z, multiple, scaled⟩

/-- The loop stops with the counters at the exponents of the term. -/
theorem descend_spec {sum : ℤ} {st : Descent A} (holds : Holds a sum st) {dbl tpl : ℕ}
    (left : dbl ≤ st.now_dbl) (right : tpl ≤ st.now_tpl) :
    Holds a sum (descend dbl tpl st) ∧ (descend dbl tpl st).now_dbl = dbl ∧
      (descend dbl tpl st).now_tpl = tpl := by
  obtain ⟨k, count⟩ : ∃ k, st.now_dbl - dbl + (st.now_tpl - tpl) = k := ⟨_, rfl⟩
  unfold descend
  rw [count]
  induction k generalizing st with
  | zero => exact ⟨holds, by simp; omega, by simp; omega⟩
  | succ k ih =>
    rw [Function.iterate_succ_apply]
    have next := holds.step dbl tpl
    by_cases doubles : st.now_dbl > dbl
    · have turn : step dbl tpl st = { st with r := st.r + st.r, now_dbl := st.now_dbl - 1 } := by
        simp [step, doubles]
      rw [turn] at next ⊢
      apply ih next <;> dsimp only <;> omega
    · have triples : st.now_tpl > tpl := by omega
      have turn : step dbl tpl st = { st with r := st.r + st.r + st.r, now_tpl := st.now_tpl - 1 } := by
        simp [step, doubles, triples]
      rw [turn] at next ⊢
      apply ih next <;> dsimp only <;> omega

private theorem term_row (a : A) (st : Descent A) (x : Chain) :
    term a (-a) st (row x) =
      { descend x.dbl x.tpl st with r := (descend x.dbl x.tpl st).r + sign x • a } := by
  rcases x with ⟨dbl, tpl, _ | _⟩ <;> simp [term, row, sign]

/-- One term is added at its own power. -/
theorem term_spec {sum : ℤ} {st : Descent A} (holds : Holds a sum st) {x : Chain} (left : x.dbl ≤ st.now_dbl)
    (right : x.tpl ≤ st.now_tpl) :
    Holds a (sum + x.value) (term a (-a) st (row x)) ∧ (term a (-a) st (row x)).now_dbl = x.dbl ∧
      (term a (-a) st (row x)).now_tpl = x.tpl := by
  obtain ⟨⟨z, multiple, scaled⟩, dbl, tpl⟩ := descend_spec holds left right
  rw [term_row]
  refine ⟨⟨z + sign x, ?_, ?_⟩, dbl, tpl⟩
  · dsimp only
    rw [multiple, add_smul]
  · dsimp only
    rw [add_mul, scaled, dbl, tpl, value_eq]

/-- The terms that are left are added at their own powers. -/
theorem foldl_term (c : List Chain) (descending : c.Pairwise fun x y => y.dbl ≤ x.dbl ∧ y.tpl ≤ x.tpl) {sum : ℤ}
    {st : Descent A} (holds : Holds a sum st) (below : ∀ x ∈ c, x.dbl ≤ st.now_dbl ∧ x.tpl ≤ st.now_tpl) :
    Holds a (sum + value c) ((c.map row).foldl (term a (-a)) st) := by
  induction c generalizing sum st with
  | nil => simpa using holds
  | cons x c ih =>
    obtain ⟨first, rest⟩ := List.pairwise_cons.mp descending
    have here := below x (by simp)
    obtain ⟨next, dbl, tpl⟩ := term_spec holds here.1 here.2
    rw [List.map_cons, List.foldl_cons, value_cons, ← add_assoc]
    apply ih rest next
    intro y member
    rw [dbl, tpl]
    exact first y member

private theorem iterate_double (k : ℕ) (r : A) : (fun r => r + r)^[k] r = (2 ^ k : ℤ) • r := by
  induction k generalizing r with
  | zero => simp
  | succ k ih =>
    rw [Function.iterate_succ_apply, ih, pow_succ]
    module

private theorem iterate_triple (k : ℕ) (r : A) : (fun r => r + r + r)^[k] r = (3 ^ k : ℤ) • r := by
  induction k generalizing r with
  | zero => simp
  | succ k ih =>
    rw [Function.iterate_succ_apply, ih, pow_succ]
    module

/-- The two closing loops make the remaining doublings and triplings. -/
theorem finish_spec {sum : ℤ} {st : Descent A} (holds : Holds a sum st) : finish st = sum • a := by
  obtain ⟨z, multiple, scaled⟩ := holds
  rw [finish, iterate_double, iterate_triple, multiple, ← mul_smul, ← mul_smul, ← scaled, pow23]
  congr 1
  ring

end Descent

/-- `DBC_POINT_mul` of `functions.h` on a stored staircase. -/
theorem DBC_POINT_mul_spec {c : List Chain} (staircase : IsStaircase c) {DBC_store : ℕ → ℕ → ℤ × ℕ × ℕ}
    {DBC_len : ℕ → ℕ} {min_index : ℕ}
    (stored : (List.range (DBC_len min_index)).map (DBC_store min_index) = c.map row) (a : A) :
    DBC_POINT_mul DBC_store DBC_len a min_index = value c • a := by
  obtain ⟨x, rest, rfl, plus⟩ := staircase.leading
  obtain ⟨first, below⟩ := List.pairwise_cons.mp staircase.descending
  have length : DBC_len min_index = rest.length + 1 := by
    simpa using congrArg List.length stored
  rw [length, List.range_succ_eq_map, List.map_cons, List.map_cons, List.cons.injEq, List.map_map] at stored
  have start : Descent.Holds a x.value ⟨a + a + -a, (DBC_store min_index 0).2.1, (DBC_store min_index 0).2.2⟩ := by
    refine ⟨1, by simp, ?_⟩
    rw [stored.1]
    simp [row, Term.value, Term.weight, plus]
  have run := Descent.foldl_term rest below start (fun y member => by rw [stored.1]; exact first y member)
  rw [value_cons, DBC_POINT_mul, length, Nat.add_sub_cancel, ← Descent.finish_spec run, ← stored.2, List.foldl_map]
  rfl

namespace Ascent

/-- The running multiple is the power of its exponents times the point. -/
def Scaled (a : A) (st : Ascent A) : Prop := st.mult_points = pow23 st.now_dbl st.now_tpl • a

private theorem Scaled.step {st : Ascent A} (scaled : Scaled a st) (dbl tpl : ℕ) :
    Scaled a (step dbl tpl st) := by
  rw [Scaled] at scaled
  unfold Ascent.step
  split
  next =>
    rw [Scaled, pow23_succ_left, scaled]
    module
  next =>
    split
    next =>
      rw [Scaled, pow23_succ_right, scaled]
      module
    next => exact scaled

/-- The loop stops with the counters at the exponents of the term and leaves the result alone. -/
theorem climb_spec {st : Ascent A} (scaled : Scaled a st) {dbl tpl : ℕ} (left : st.now_dbl ≤ dbl)
    (right : st.now_tpl ≤ tpl) :
    climb dbl tpl st = { st with mult_points := pow23 dbl tpl • a, now_dbl := dbl, now_tpl := tpl } := by
  obtain ⟨k, count⟩ : ∃ k, dbl - st.now_dbl + (tpl - st.now_tpl) = k := ⟨_, rfl⟩
  unfold climb
  rw [count]
  induction k generalizing st with
  | zero =>
    obtain rfl : st.now_dbl = dbl := by omega
    obtain rfl : st.now_tpl = tpl := by omega
    rw [← scaled]
    rfl
  | succ k ih =>
    rw [Function.iterate_succ_apply]
    have next := scaled.step dbl tpl
    by_cases doubles : st.now_dbl < dbl
    · have turn : step dbl tpl st =
          { st with mult_points := st.mult_points + st.mult_points, now_dbl := st.now_dbl + 1 } := by
        simp [step, doubles]
      rw [turn] at next ⊢
      apply ih next <;> dsimp only <;> omega
    · have triples : st.now_tpl < tpl := by omega
      have turn : step dbl tpl st = { st with
          mult_points := st.mult_points + st.mult_points + st.mult_points, now_tpl := st.now_tpl + 1 } := by
        simp [step, doubles, triples]
      rw [turn] at next ⊢
      apply ih next <;> dsimp only <;> omega

/-- One term adds its multiple of the point, or starts the result with it, and the base keeps its sign. -/
theorem term_spec {st : Ascent A} (scaled : Scaled a st) {x : Chain} (left : st.now_dbl ≤ x.dbl)
    (right : st.now_tpl ≤ x.tpl) :
    term st x = ⟨x.weight • a, x.dbl, x.tpl, false, (if st.first then 0 else st.r) + x.value • a⟩ := by
  rw [term, climb_spec scaled left right, Term.value, Term.weight]
  rcases x with ⟨dbl, tpl, _ | _⟩ <;> rcases st with ⟨mult_points, now_dbl, now_tpl, _ | _, r⟩ <;> simp

private theorem scaled_weight (x : Chain) (first : Bool) (r : A) :
    Scaled a ⟨x.weight • a, x.dbl, x.tpl, first, r⟩ := rfl

/-- The terms that are left add their multiples of the point. -/
theorem foldl_term (c : List Chain) (ascending : c.Pairwise fun x y => x.dbl ≤ y.dbl ∧ x.tpl ≤ y.tpl)
    {st : Ascent A} (scaled : Scaled a st) (later : st.first = false)
    (above : ∀ x ∈ c, st.now_dbl ≤ x.dbl ∧ st.now_tpl ≤ x.tpl) :
    (c.foldl term st).r = st.r + value c • a := by
  induction c generalizing st with
  | nil => simp
  | cons x c ih =>
    obtain ⟨first, rest⟩ := List.pairwise_cons.mp ascending
    have here := above x (by simp)
    rw [List.foldl_cons, term_spec scaled here.1 here.2, later, if_neg (by simp),
      ih rest (scaled_weight x _ _) rfl first, value_cons, add_smul, add_assoc]

end Ascent

/-- `DBC_POINT_mul` of `optimal_DBC2.cpp` on the same staircase, read from its smallest term. -/
theorem DBC2_POINT_mul_spec {c : List Chain} (staircase : IsStaircase c) {w_min : OptimalDBC}
    {now_DBC : ℕ → Chain} (present : w_min.isNULL = false)
    (reversed : (List.range w_min.length).map now_DBC = c.reverse) (r a : A) :
    DBC2_POINT_mul w_min now_DBC r a = value c • a := by
  have sum : value c.reverse = value c := by
    rw [value, List.map_reverse, List.sum_reverse, value]
  have ascending : c.reverse.Pairwise fun x y => x.dbl ≤ y.dbl ∧ x.tpl ≤ y.tpl :=
    List.pairwise_reverse.mpr staircase.descending
  have length : w_min.length = c.length := by simpa using congrArg List.length reversed
  obtain ⟨y, rest, rows⟩ : ∃ y rest, c.reverse = y :: rest := by
    obtain ⟨x, rest, rfl, -⟩ := staircase.leading
    exact List.exists_cons_of_ne_nil (by simp)
  have nonempty : w_min.length ≠ 0 := by
    rw [length, ← List.length_reverse, rows]
    simp
  rw [rows] at ascending sum
  obtain ⟨first, above⟩ := List.pairwise_cons.mp ascending
  have unit : Ascent.Scaled a ⟨-(-(a + a) + a), 0, 0, true, r⟩ := by
    simp [Ascent.Scaled]
  rw [DBC2_POINT_mul, if_neg (by simp [present, nonempty]), ← List.foldl_map, reversed, rows, List.foldl_cons,
    Ascent.term_spec unit (Nat.zero_le _) (Nat.zero_le _),
      Ascent.foldl_term rest above (Ascent.scaled_weight y _ _) rfl first,
    if_pos rfl, zero_add, ← add_smul, ← value_cons, sum]

/-- The two evaluators compute the same multiple of the point, the sum of the chain. -/
theorem chain_evaluators {c : List Chain} (staircase : IsStaircase c) {DBC_store : ℕ → ℕ → ℤ × ℕ × ℕ}
    {DBC_len : ℕ → ℕ} {min_index : ℕ}
    (stored : (List.range (DBC_len min_index)).map (DBC_store min_index) = c.map row) {w_min : OptimalDBC}
    {now_DBC : ℕ → Chain} (present : w_min.isNULL = false)
    (reversed : (List.range w_min.length).map now_DBC = c.reverse) (r a : A) :
    DBC_POINT_mul DBC_store DBC_len a min_index = value c • a ∧ DBC2_POINT_mul w_min now_DBC r a = value c • a :=
  ⟨DBC_POINT_mul_spec staircase stored a, DBC2_POINT_mul_spec staircase present reversed r a⟩

theorem chain_evaluators_nineteen :
    DBC_POINT_mul (fun _ i => [(1, 3, 1), (-1, 1, 1), (1, 0, 0)].getD i (0, 0, 0)) (fun _ => 3) (5 : ℤ) 1 = 95 ∧
      DBC2_POINT_mul { length := 3 }
        (fun i => [⟨0, 0, false⟩, ⟨1, 1, true⟩, ⟨3, 1, false⟩].getD i ⟨0, 0, false⟩) 7 (5 : ℤ) = 95 := by
  have staircase : IsStaircase [⟨3, 1, false⟩, ⟨1, 1, true⟩, ⟨0, 0, false⟩] :=
    ⟨⟨_, _, rfl, rfl⟩, by decide⟩
  exact chain_evaluators staircase (by decide) rfl (by decide) 7 5

/-- The binary method keeps `r + n * mult_points`. -/
theorem binaryLoop_spec (n : ℕ) (r mult_points : A) (TTV : ℕ) :
    (binaryLoop n r mult_points TTV).1 = r + n • mult_points := by
  fun_induction binaryLoop n r mult_points TTV with
  | case1 r mult_points TTV => simp
  | case2 n r mult_points TTV positive even ih =>
    have halves : n = n / 2 * 2 := by omega
    rw [ih, ← two_nsmul, ← mul_nsmul', ← halves]
  | case3 n r mult_points TTV positive odd ih =>
    have halves : n = n / 2 * 2 + 1 := by omega
    rw [ih, ← two_nsmul, ← mul_nsmul', add_assoc, ← succ_nsmul', ← halves]

private theorem naf_sign (n : ℕ) (odd : n % 2 ≠ 0) :
    (2 - (n % 4 : ℕ) : ℤ) = 1 ∧ n % 4 = 1 ∨ (2 - (n % 4 : ℕ) : ℤ) = -1 ∧ n % 4 = 3 := by
  omega

/-- Horner's rule over the digits below a leading one, the lowest first. -/
def underOne (low : List ℤ) : ℤ := low.foldr (fun d sum => 2 * sum + d) 1

/-- The recoding of a positive number ends in a leading one, below it are signed bits, and Horner's rule gives
the number back. -/
theorem nafDigits_spec (n : ℕ) (positive : n ≠ 0) :
    ∃ low, nafDigits n = low ++ [1] ∧ (∀ d ∈ low, d = 0 ∨ d = 1 ∨ d = -1) ∧
      underOne low = n := by
  induction n using Nat.strong_induction_on with
  | _ n ih =>
    rw [nafDigits, if_neg positive]
    by_cases even : n % 2 = 0
    · obtain ⟨low, digits, signed, sum⟩ := ih (n / 2) (by omega) (by omega)
      rw [if_pos even]
      refine ⟨0 :: low, by rw [digits, List.cons_append], by simpa using signed, ?_⟩
      rw [underOne, List.foldr_cons, ← underOne, sum]
      omega
    · rw [if_neg even]
      rcases naf_sign n even with ⟨ni, rest⟩ | ⟨ni, rest⟩
      · by_cases one : n = 1
        · refine ⟨[], ?_, by simp, by simp [underOne, one]⟩
          simp [one, nafDigits]
        · obtain ⟨low, digits, signed, sum⟩ := ih ((n - 1) / 2) (by omega) (by omega)
          refine ⟨1 :: low, ?_, by simpa using signed, ?_⟩
          · simp only [ni, zero_lt_one, if_true, gt_iff_lt, digits, List.cons_append]
          · rw [underOne, List.foldr_cons, ← underOne, sum]
            omega
      · obtain ⟨low, digits, signed, sum⟩ := ih ((n + 1) / 2) (by omega) (by omega)
        refine ⟨-1 :: low, ?_, by simpa using signed, ?_⟩
        · simp only [ni, gt_iff_lt, List.cons_append]
          rw [if_neg (by decide), digits]
        · rw [underOne, List.foldr_cons, ← underOne, sum]
          omega

private theorem nafStep_spec {G : A} {d : ℤ} (signed : d = 0 ∨ d = 1 ∨ d = -1) {R : A} {TTV : ℕ} {sum : ℤ}
    (multiple : R = sum • G) : (nafStep G (-G) (R, TTV) d).1 = (2 * sum + d) • G := by
  rcases signed with rfl | rfl | rfl
  all_goals
    rw [multiple]
    simp only [nafStep]
    norm_num
    module

/-- `NAF_POINT_mul` reads the digits below the leading one, the highest first. -/
theorem foldl_nafStep (G : A) (low : List ℤ) (signed : ∀ d ∈ low, d = 0 ∨ d = 1 ∨ d = -1) :
    (low.foldr (fun d st => nafStep G (-G) st d) (G, 0)).1 =
      underOne low • G := by
  induction low with
  | nil => simp [underOne]
  | cons d low ih =>
    rw [underOne, List.foldr_cons, List.foldr_cons, ← underOne]
    exact nafStep_spec (signed d (by simp)) (ih fun d' member => signed d' (by simp [member]))

theorem naf_of_ne_zero (G : A) (k : ℕ) (positive : k ≠ 0) :
    ((int_to_naf k).tail.foldl (nafStep G (-G)) (G, 0)).1 = k • G := by
  obtain ⟨low, digits, signed, sum⟩ := nafDigits_spec k positive
  rw [int_to_naf, if_neg positive, digits, List.reverse_append, List.reverse_singleton, List.singleton_append,
    List.tail_cons, List.foldl_reverse, foldl_nafStep G low signed, sum, natCast_zsmul]

/-- The binary method gives the multiple for every scalar, the signed-digit method for every scalar but zero:
there it leaves the point itself. -/
theorem scalar_multiplications_iff (hexwords : String) (k : ℕ) (scalar : BN_hex2bn hexwords = k) (G : A) :
    (NAF_POINT_mul G hexwords).map Prod.fst = some (k • G) ∧ (binary_POINT_mul 0 G hexwords).1 = k • G ↔
      k ≠ 0 ∨ G = 0 := by
  have binary : (binary_POINT_mul 0 G hexwords).1 = k • G := by
    rw [binary_POINT_mul, binaryLoop_spec, scalar, Int.natAbs_natCast, zero_add]
  have naf : NAF_POINT_mul G hexwords = some ((int_to_naf k).tail.foldl (nafStep G (-G)) (G, 0)) := by
    rw [NAF_POINT_mul, scalar]
  rw [naf, Option.map_some, Option.some.injEq]
  by_cases positive : k ≠ 0
  · exact ⟨fun _ => .inl positive, fun _ => ⟨naf_of_ne_zero G k positive, binary⟩⟩
  · obtain rfl : k = 0 := not_not.mp positive
    have leftover : ((int_to_naf 0).tail.foldl (nafStep G (-G)) (G, 0)).1 = G := rfl
    rw [leftover, zero_nsmul]
    constructor
    · intro agree
      exact .inr agree.1
    · rintro (nonzero | infinity)
      · exact absurd rfl nonzero
      · exact ⟨infinity, binary.trans (zero_nsmul G)⟩

theorem scalar_multiplications_29 :
    (NAF_POINT_mul (3 : ℤ) "1d").map Prod.fst = some 87 ∧ (binary_POINT_mul 0 (3 : ℤ) "1d").1 = 87 :=
  (scalar_multiplications_iff "1d" 29 (by decide) 3).mpr (.inl (by decide))

/-- At the scalar zero the signed-digit method leaves the point and not infinity. -/
theorem NAF_POINT_mul_zero :
    ¬ ∀ (A : Type) [AddCommGroup A] (hexwords : String) (k : ℕ), BN_hex2bn hexwords = k → ∀ G : A,
      (NAF_POINT_mul G hexwords).map Prod.fst = some (k • G) ∧ (binary_POINT_mul 0 G hexwords).1 = k • G := by
  intro agree
  have zero := (agree ℤ "0" 0 (by decide) 1).1
  rw [NAF_POINT_mul, show BN_hex2bn "0" = .ofNat 0 by decide] at zero
  exact absurd zero (by decide)

end DbcSnark.DBCTest
