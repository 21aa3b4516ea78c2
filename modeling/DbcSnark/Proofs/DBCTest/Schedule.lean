import DbcSnark.Model.DBCTest.OptimalDBC
import DbcSnark.Proofs.DBCTest.MyBigInt
import DbcSnark.ToMathlib.Loops

/-! # The order in which cells are visited, and the digit used at each

The four nested loops of `getOptimalDBC` are one fold over `schedule`, a list of cells in strictly
increasing blocked order, and the quotient used at cell `(b, t)` is the plain digit
`⌊six_n / (2 ^ b * 3 ^ t)⌋ % 6`. The frontier loop leaves in `bBound[t]` the largest `i` with
`2 ^ i * 3 ^ t ≤ B`; its pointer never has to move up because the bounds decrease strictly in `t`.
-/

namespace DbcSnark.DBCTest

open MyBigInt Loops

variable {m : Macros}

/-! ## Digits -/

/-- `⌊six_n / (2 ^ b * 3 ^ t)⌋ % 6`. -/
def digit (six b t : ℕ) : ℕ := six / (2 ^ b * 3 ^ t) % 6

private theorem toNat_iterate_rshift32 {INTS : ℕ} (x : MyBigInt INTS) (i : ℕ) :
    (rshift32^[i] x).toNat = x.toNat / 2 ^ (32 * i) := by
  induction i with
  | zero => simp
  | succ i ih =>
    rw [Function.iterate_succ_apply', toNat_rshift32, ih, Nat.div_div_eq_div_mul, ← pow_add, mul_add, mul_one]

private theorem toNat_iterate_div3_18 {INTS : ℕ} (x : MyBigInt INTS) (j : ℕ) :
    (div3_18^[j] x).toNat = x.toNat / 3 ^ (18 * j) := by
  induction j with
  | zero => simp
  | succ j ih =>
    rw [Function.iterate_succ_apply', toNat_div3_18, ih, Nat.div_div_eq_div_mul, ← pow_add, mul_add, mul_one]

private theorem pow23_1_dvd {i j : ℕ} (column : i ≤ 31) (row : j ≤ 17) :
    ∃ k, 2 ^ 33 * 3 ^ 19 = pow23_1 i j * (6 * k) := by
  refine ⟨2 ^ (32 - i) * 3 ^ (18 - j), ?_⟩
  have two : 2 ^ 33 = 2 ^ i * (2 * 2 ^ (32 - i)) := by
    rw [← pow_succ', ← pow_add]
    congr 1
    omega
  have three : 3 ^ 19 = 3 ^ j * (3 * 3 ^ (18 - j)) := by
    rw [← pow_succ', ← pow_add]
    congr 1
    omega
  rw [pow23_1, two, three]
  ring

/-- The blocked extraction agrees with the plain digit. -/
theorem blocked_digit {INTS : ℕ} (covered : INTS ≤ 21) (six : MyBigInt INTS) (j_outer i_outer : ℕ)
    {i_inner j_inner : ℕ} (column : i_inner ≤ 31) (row : j_inner ≤ 17) :
    (rshift32^[i_outer] (div3_18^[j_outer] six)).mod2_33_3_19 / pow23_1 i_inner j_inner % 6 =
      digit six.toNat (i_outer * 32 + i_inner) (j_outer * 18 + j_inner) := by
  obtain ⟨k, factor⟩ := pow23_1_dvd column row
  rw [mod2_33_3_19_eq _ covered, toNat_iterate_rshift32, toNat_iterate_div3_18, factor,
    Nat.mod_mul_right_div_self, Nat.mod_mul_right_mod, Nat.div_div_eq_div_mul, Nat.div_div_eq_div_mul, digit]
  congr 2
  rw [pow23_1, pow_add, pow_add, mul_comm i_outer, mul_comm j_outer]
  ring

/-- The conversion of a `uint64` to the `long long` that `mod_2_33_3_19` returns. -/
def toLongLong (v : ℕ) : ℤ := (v : ℤ).bmod (2 ^ 64)

/-- The conversion of a `long long` to the `uint64` that `n0` is. -/
def ofLongLong (z : ℤ) : ℕ := (z % 2 ^ 64).toNat

private theorem bmod_emod_word (v : ℤ) : v.bmod (2 ^ 64) % 2 ^ 64 = v % 2 ^ 64 := by
  have residue := Int.bmod_emod (x := v) (m := 2 ^ 64)
  rw [Nat.cast_pow, Nat.cast_ofNat] at residue
  exact residue

private theorem ofLongLong_toLongLong {v : ℕ} (fits : v < 2 ^ 64) : ofLongLong (toLongLong v) = v := by
  have residue : (v : ℤ) % 2 ^ 64 = v := by omega
  calc ofLongLong (toLongLong v) = ((v : ℤ).bmod (2 ^ 64) % 2 ^ 64).toNat := rfl
    _ = ((v : ℤ) % 2 ^ 64).toNat := congrArg Int.toNat (bmod_emod_word v)
    _ = (v : ℤ).toNat := congrArg Int.toNat residue
    _ = v := Int.toNat_natCast v

/-- `n0` never overflows, although it may exceed the range of the signed type it passes through, and the quotient
taken from it is the plain digit. -/
theorem extracted_digit {INTS : ℕ} (covered : INTS ≤ 21) (six_n : MyBigInt INTS) (j_outer i_outer : ℕ)
    {i_inner j_inner : ℕ} (column : i_inner ≤ 31) (row : j_inner ≤ 17) :
    let temp_outer := rshift32^[i_outer] (div3_18^[j_outer] six_n)
    let n0 := ofLongLong (toLongLong temp_outer.mod2_33_3_19)
    n0 / pow23_1 i_inner j_inner % 6 =
        six_n.toNat / (2 ^ (32 * i_outer + i_inner) * 3 ^ (18 * j_outer + j_inner)) % 6 ∧
      n0 = exactResidue temp_outer ∧ exactResidue temp_outer < 2 ^ 64 := by
  intro temp_outer n0
  obtain ⟨exact, fits⟩ := mod2_33_3_19_exact temp_outer covered
  have same : n0 = temp_outer.mod2_33_3_19 := ofLongLong_toLongLong (exact ▸ fits)
  refine ⟨?_, same.trans exact, fits⟩
  rw [same, blocked_digit covered six_n j_outer i_outer column row, digit, mul_comm i_outer, mul_comm j_outer]

theorem extracted_digit_second_block :
    ofLongLong (toLongLong (rshift32^[1] (div3_18^[1] (MyBigInt.ofNat 4 (6 * 10 ^ 35)))).mod2_33_3_19) /
        pow23_1 31 17 % 6 = (MyBigInt.ofNat 4 (6 * 10 ^ 35)).toNat / (2 ^ 63 * 3 ^ 35) % 6 :=
  (extracted_digit (by decide) (MyBigInt.ofNat 4 (6 * 10 ^ 35)) 1 1 (by decide) (by decide)).1

/-! ## The flattened loop nest -/

/-- The cells in the order in which the loops visit them. -/
def schedule (bBound : ℕ → ℕ) (log2B log3B : ℕ) : List (ℕ × ℕ) :=
  (List.range (log3B / 18 + 1 + 1)).flatMap fun j_outer =>
    (List.range (bBound (j_outer * 18) / 32 + 1 + 1)).flatMap fun i_outer =>
      (List.range (min 18 (log3B + 1 - j_outer * 18))).flatMap fun j_inner =>
        (List.range (min 32 (log2B + 1 - i_outer * 32))).map fun i_inner =>
          (i_outer * 32 + i_inner, j_outer * 18 + j_inner)

/-- Blocks of 18 rows first, then blocks of 32 columns, then rows, then columns. -/
def Before (p q : ℕ × ℕ) : Prop :=
  p.2 / 18 < q.2 / 18 ∨ p.2 / 18 = q.2 / 18 ∧
    (p.1 / 32 < q.1 / 32 ∨ p.1 / 32 = q.1 / 32 ∧ (p.2 < q.2 ∨ p.2 = q.2 ∧ p.1 < q.1))

theorem before_iff {b t b' t' : ℕ} : Before (b, t) (b', t') ↔
    t / 18 < t' / 18 ∨ t / 18 = t' / 18 ∧
      (b / 32 < b' / 32 ∨ b / 32 = b' / 32 ∧ (t < t' ∨ t = t' ∧ b < b')) := Iff.rfl

theorem Before.asymm (p q : ℕ × ℕ) (before : Before p q) : ¬ Before q p := by
  unfold Before at *
  omega

theorem mem_schedule {bBound : ℕ → ℕ} {log2B log3B b t : ℕ} :
    (b, t) ∈ schedule bBound log2B log3B ↔
      t ≤ log3B ∧ b ≤ log2B ∧ b / 32 ≤ bBound (t / 18 * 18) / 32 + 1 := by
  simp only [schedule, List.mem_flatMap, List.mem_map, List.mem_range, Prod.mk.injEq]
  constructor
  · rintro ⟨j_outer, _, i_outer, columns, j_inner, short, i_inner, _, rfl, rfl⟩
    have limit := lt_min_iff.mp short
    have same : (j_outer * 18 + j_inner) / 18 * 18 = j_outer * 18 := by omega
    rw [same]
    omega
  · intro ⟨row, column, blocks⟩
    exact ⟨t / 18, by omega, b / 32, by omega, t % 18, by omega, b % 32, by omega, by omega, by omega⟩

theorem schedule_sorted (bBound : ℕ → ℕ) (log2B log3B : ℕ) :
    (schedule bBound log2B log3B).Pairwise Before := by
  simp only [schedule, List.pairwise_flatMap, List.pairwise_map, List.mem_flatMap, List.mem_map, List.mem_range]
  refine ⟨fun j_outer _ => ⟨fun i_outer _ => ⟨fun j_inner _ => ?_, ?_⟩, ?_⟩, ?_⟩
  · apply List.pairwise_lt_range.imp
    intro i i' less
    rw [before_iff]
    omega
  · apply List.pairwise_lt_range.imp_of_mem
    rintro j j' member member' less _ ⟨i, _, rfl⟩ _ ⟨i', _, rfl⟩
    rw [List.mem_range] at member member'
    rw [before_iff]
    omega
  · apply List.pairwise_lt_range.imp
    rintro i i' less _ ⟨j, _, k, _, rfl⟩ _ ⟨j', _, k', _, rfl⟩
    rw [before_iff]
    omega
  · apply List.pairwise_lt_range.imp
    rintro j j' less _ ⟨i, _, k, _, l, _, rfl⟩ _ ⟨i', _, k', _, l', _, rfl⟩
    rw [before_iff]
    omega

section Flatten

variable (pow23_all : ℕ → ℕ → MyBigInt m.INTS) (n : MyBigInt m.INTS)

@[simp] theorem fillCell_bBound (b t quot : ℕ) (s : State) : (fillCell b t quot s).bBound = s.bBound := by
  unfold fillCell
  split_ifs <;> rfl

@[simp] theorem closeCell_bBound (b t : ℕ) (s : State) :
    (closeCell m pow23_all n b t s).bBound = s.bBound := by
  unfold closeCell
  split_ifs <;> rfl

@[simp] theorem visit_bBound (b t quot : ℕ) (s : State) :
    (visit m pow23_all n b t quot s).bBound = s.bBound := by
  unfold visit
  simp only
  split_ifs <;> simp

/-- Visit a list of cells, each with its plain digit. -/
def visitAll (six : ℕ) (cells : List (ℕ × ℕ)) (s : State) : State :=
  cells.foldl (fun s p => visit m pow23_all n p.1 p.2 (digit six p.1 p.2) s) s

@[simp] theorem visitAll_bBound (six : ℕ) (cells : List (ℕ × ℕ)) (s : State) :
    (visitAll pow23_all n six cells s).bBound = s.bBound := by
  induction cells generalizing s with
  | nil => rfl
  | cons p cells ih => exact (ih _).trans (visit_bBound pow23_all n p.1 p.2 _ s)

private theorem block_eq (six : MyBigInt m.INTS) (log2B log3B j_outer i_outer : ℕ) (s : State) :
    block m pow23_all n log2B log3B j_outer i_outer
        (rshift32^[i_outer] (div3_18^[j_outer] six)).mod2_33_3_19 s =
      visitAll pow23_all n six.toNat ((List.range (min 18 (log3B + 1 - j_outer * 18))).flatMap fun j_inner =>
        (List.range (min 32 (log2B + 1 - i_outer * 32))).map fun i_inner =>
          (i_outer * 32 + i_inner, j_outer * 18 + j_inner)) s := by
  simp only [block, visitAll, takeWhile_range, List.foldl_flatMap, List.foldl_map]
  refine List.foldl_ext _ _ _ fun s j_inner row => List.foldl_ext _ _ _ fun s i_inner column => ?_
  rw [List.mem_range] at row column
  rw [blocked_digit m.covered six j_outer i_outer (by omega) (by omega)]

private theorem blockRow_eq (six : MyBigInt m.INTS) (log2B log3B j_outer : ℕ) (s : State) :
    blockRow m pow23_all n log2B log3B j_outer (div3_18^[j_outer] six) s =
      visitAll pow23_all n six.toNat ((List.range (s.bBound (j_outer * 18) / 32 + 1 + 1)).flatMap fun i_outer =>
        (List.range (min 18 (log3B + 1 - j_outer * 18))).flatMap fun j_inner =>
          (List.range (min 32 (log2B + 1 - i_outer * 32))).map fun i_inner =>
            (i_outer * 32 + i_inner, j_outer * 18 + j_inner)) s := by
  have flatten := foldl_range_iterate
    (fun s (x : MyBigInt m.INTS) i_outer => block m pow23_all n log2B log3B j_outer i_outer x.mod2_33_3_19 s)
    rshift32 s (div3_18^[j_outer] six) (s.bBound (j_outer * 18) / 32 + 1 + 1)
  rw [blockRow, flatten, visitAll, List.foldl_flatMap]
  exact List.foldl_ext _ _ _ fun s i_outer _ => block_eq pow23_all n six log2B log3B j_outer i_outer s

/-- The loop nest visits the cells of `schedule` in order. -/
theorem fillTables_eq (six : MyBigInt m.INTS) (log2B log3B : ℕ) (s : State) :
    fillTables m pow23_all n six log2B log3B s =
      visitAll pow23_all n six.toNat (schedule s.bBound log2B log3B) s := by
  have flatten := foldl_range_iterate
    (fun s (x : MyBigInt m.INTS) j_outer => blockRow m pow23_all n log2B log3B j_outer x s)
    div3_18 s six (log3B / 18 + 1 + 1)
  rw [fillTables, flatten, schedule, visitAll, List.foldl_flatMap]
  -- the bounds the loops read are those of the start, because no turn changes them
  refine (foldl_induction (fun visited (acc : State) => acc.bBound = s.bBound ∧
      acc = visited.foldl (fun acc j_outer => List.foldl
        (fun s p => visit m pow23_all n p.1 p.2 (digit six.toNat p.1 p.2) s) acc
        ((List.range (s.bBound (j_outer * 18) / 32 + 1 + 1)).flatMap fun i_outer =>
          (List.range (min 18 (log3B + 1 - j_outer * 18))).flatMap fun j_inner =>
            (List.range (min 32 (log2B + 1 - i_outer * 32))).map fun i_inner =>
              (i_outer * 32 + i_inner, j_outer * 18 + j_inner))) s)
    _ _ s ⟨rfl, rfl⟩ ?_).2
  intro visited j_outer later acc _ ⟨bounds, same⟩
  have turn := blockRow_eq pow23_all n six log2B log3B j_outer acc
  rw [bounds] at turn
  refine ⟨?_, ?_⟩
  · rw [turn, visitAll_bBound, bounds]
  · rw [turn, List.foldl_append, ← same]
    rfl

end Flatten

/-! ## The frontier -/

private theorem findBound_eq_some {reaches : ℕ → Bool} {k i : ℕ} (below : i < k) (hit : reaches i = true)
    (least : ∀ j, i < j → j < k → reaches j = false) : findBound reaches k = some i := by
  induction k with
  | zero => omega
  | succ k ih =>
    unfold findBound
    rcases Nat.lt_or_eq_of_le (Nat.le_of_lt_succ below) with less | rfl
    · rw [least k less (Nat.lt_succ_self k), if_neg (by simp)]
      exact ih less fun j more small => least j more (by omega)
    · rw [hit, if_pos rfl]

/-- `pow23_all[i][j]` holds `2 ^ i * 3 ^ j` wherever that number fits. -/
def Exact {INTS : ℕ} (pow23_all : ℕ → ℕ → MyBigInt INTS) : Prop :=
  ∀ i j, 2 ^ i * 3 ^ j < (2 ^ 32) ^ INTS → (pow23_all i j).toNat = 2 ^ i * 3 ^ j

/-- The largest `i` with `2 ^ i * 3 ^ t ≤ B`. -/
def topBound (B t : ℕ) : ℕ := Nat.log 2 (B / 3 ^ t)

theorem topBound_spec {B t : ℕ} (reach : 3 ^ t ≤ B) :
    2 ^ topBound B t * 3 ^ t ≤ B ∧ B < 2 ^ (topBound B t + 1) * 3 ^ t := by
  have positive : 0 < B / 3 ^ t := Nat.div_pos reach (by positivity)
  constructor
  · rw [← Nat.le_div_iff_mul_le (by positivity)]
    exact Nat.pow_log_le_self 2 positive.ne'
  · rw [← Nat.div_lt_iff_lt_mul (by positivity)]
    exact Nat.lt_pow_succ_log_self (by norm_num) _

theorem le_topBound_iff {B t i : ℕ} (reach : 3 ^ t ≤ B) : i ≤ topBound B t ↔ 2 ^ i * 3 ^ t ≤ B := by
  have positive : 0 < B / 3 ^ t := Nat.div_pos reach (by positivity)
  rw [topBound, Nat.le_log_iff_pow_le (by norm_num) positive.ne', Nat.le_div_iff_mul_le (by positivity)]

/-- The bound decreases strictly, since two doublings of a power exceed its triple. -/
theorem topBound_succ_lt {B t : ℕ} (reach : 3 ^ (t + 1) ≤ B) : topBound B (t + 1) < topBound B t := by
  have smaller : 3 ^ t ≤ B := (Nat.pow_le_pow_right (by norm_num) (Nat.le_succ t)).trans reach
  have bound := (topBound_spec reach).1
  rw [← Nat.succ_le_iff, le_topBound_iff smaller]
  calc 2 ^ (topBound B (t + 1) + 1) * 3 ^ t ≤ 2 ^ topBound B (t + 1) * 3 ^ (t + 1) := by
        rw [pow_succ, pow_succ]
        nlinarith [Nat.zero_le (2 ^ topBound B (t + 1) * 3 ^ t)]
    _ ≤ B := bound

/-- The numbers of a call: the multiple `B = 2 * n` leaves room for its own triple. -/
structure Room {INTS : ℕ} (B : MyBigInt INTS) : Prop where
  positive : 0 < B.toNat
  triple : 3 * B.toNat < (2 ^ 32) ^ INTS

/-- The entries that the frontier loop may look at hold their powers: those one column behind a power that `B`
reaches. -/
def Serves {INTS : ℕ} (pow23_all : ℕ → ℕ → MyBigInt INTS) (B : ℕ) : Prop :=
  ∀ i t, 2 ^ i * 3 ^ t ≤ B → 3 ^ (t + 1) ≤ B → (pow23_all i (t + 1)).toNat = 2 ^ i * 3 ^ (t + 1)

section Frontier

variable {INTS : ℕ} {pow23_all : ℕ → ℕ → MyBigInt INTS} {B : MyBigInt INTS}

theorem Exact.serves (tables : Exact pow23_all) (room : Room B) : Serves pow23_all B.toNat := by
  intro i t bound _
  apply tables
  have := room.triple
  rw [pow_succ, ← mul_assoc]
  omega

private theorem boundStep_spec (serves : Serves pow23_all B.toNat) {bBound : ℕ → ℕ} {t next : ℕ}
    (reach : 3 ^ (t + 1) ≤ B.toNat) (low : topBound B.toNat (t + 1) < next)
    (high : next ≤ topBound B.toNat t + 1) :
    boundStep pow23_all B (bBound, next) t =
      (Function.update bBound (t + 1) (topBound B.toNat (t + 1)), topBound B.toNat (t + 1)) := by
  have smaller : 3 ^ t ≤ B.toNat := (Nat.pow_le_pow_right (by norm_num) (Nat.le_succ t)).trans reach
  have entry : ∀ i < next, (pow23_all i (t + 1)).toNat = 2 ^ i * 3 ^ (t + 1) := fun i small =>
    serves i t ((le_topBound_iff smaller).mp (by omega)) reach
  have found : findBound (fun i => B.ge (pow23_all i (t + 1))) next = some (topBound B.toNat (t + 1)) := by
    apply findBound_eq_some low
    · rw [ge_iff, entry _ low]
      exact (topBound_spec reach).1
    · intro j more small
      rw [Bool.eq_false_iff, ne_eq, ge_iff, entry j small, ← le_topBound_iff reach]
      omega
  simp only [boundStep, found]

/-- The bounds and the pointer after `k` turns of the frontier loop. -/
def frontierAfter (pow23_all : ℕ → ℕ → MyBigInt INTS) (B : MyBigInt INTS) (bBound : ℕ → ℕ) (k : ℕ) : (ℕ → ℕ) × ℕ :=
  (List.range k).foldl (boundStep pow23_all B)
    (Function.update bBound 0 (Nat.log 2 B.toNat), Nat.log 2 B.toNat + 1)

/-- The bounds that are done, and the pointer: it has not passed the next bound, and the entries below it lie one
column behind a power that `B` reaches. -/
theorem frontierAfter_spec (serves : Serves pow23_all B.toNat) (positive : 0 < B.toNat) (bBound : ℕ → ℕ) {k : ℕ}
    (limit : k ≤ Nat.log 3 B.toNat) :
    (frontierAfter pow23_all B bBound k).1 = (fun t => if t ≤ k then topBound B.toNat t else bBound t) ∧
      (frontierAfter pow23_all B bBound k).2 ≤ topBound B.toNat k + 1 ∧
      (3 ^ (k + 1) ≤ B.toNat → topBound B.toNat (k + 1) < (frontierAfter pow23_all B bBound k).2) := by
  induction k with
  | zero =>
    have first : topBound B.toNat 0 = Nat.log 2 B.toNat := by simp [topBound]
    refine ⟨?_, by rw [first]; rfl, fun reach => ?_⟩
    · funext t
      cases t <;> simp [frontierAfter, Function.update, first]
    · have := topBound_succ_lt reach
      change _ < Nat.log 2 B.toNat + 1
      omega
  | succ k ih =>
    obtain ⟨result, high, low⟩ := ih (by omega)
    have reach : 3 ^ (k + 1) ≤ B.toNat := Nat.pow_le_of_le_log positive.ne' limit
    have turn : frontierAfter pow23_all B bBound (k + 1) =
        (Function.update (frontierAfter pow23_all B bBound k).1 (k + 1) (topBound B.toNat (k + 1)),
          topBound B.toNat (k + 1)) := by
      rw [← boundStep_spec serves reach (low reach) high]
      simp only [frontierAfter, List.range_succ, List.foldl_append, List.foldl_cons, List.foldl_nil]
    rw [turn, result]
    refine ⟨?_, Nat.le_succ _, topBound_succ_lt⟩
    dsimp only
    funext t
    rcases lt_trichotomy t (k + 1) with less | rfl | more
    · rw [Function.update_of_ne (by omega), if_pos (by omega), if_pos (by omega)]
    · rw [Function.update_self, if_pos le_rfl]
    · rw [Function.update_of_ne (by omega), if_neg (by omega), if_neg (by omega)]

/-- The frontier loop computes the largest exponent for every `t ≤ log3B` and writes nothing else. -/
theorem Serves.frontier_spec (serves : Serves pow23_all B.toNat) (positive : 0 < B.toNat) (bBound : ℕ → ℕ) (t : ℕ) :
    frontier pow23_all B (Nat.log 2 B.toNat) (Nat.log 3 B.toNat) bBound t =
      if t ≤ Nat.log 3 B.toNat then topBound B.toNat t else bBound t :=
  congrFun (frontierAfter_spec serves positive bBound le_rfl).1 t

theorem frontier_spec (tables : Exact pow23_all) (room : Room B) (bBound : ℕ → ℕ) (t : ℕ) :
    frontier pow23_all B (Nat.log 2 B.toNat) (Nat.log 3 B.toNat) bBound t =
      if t ≤ Nat.log 3 B.toNat then topBound B.toNat t else bBound t :=
  (tables.serves room).frontier_spec room.positive bBound t

end Frontier

end DbcSnark.DBCTest
