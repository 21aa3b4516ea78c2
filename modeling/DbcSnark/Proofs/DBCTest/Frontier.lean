import DbcSnark.Proofs.DBCTest.CellReads
import DbcSnark.Proofs.DBCTest.Variables

/-! # The comparisons on the frontier

The pointer of the frontier loop starts every turn one step below the bound of the turn before, so it looks at entries
one column behind a power that `2 * n` reaches. `init` has filled those, since their value is at most `6 * n`.
-/

namespace DbcSnark.DBCTest

open MyBigInt

/-! ## The entries that a loop compares -/

/-- The indices that `findBound` looks at, down to the first that is reached. -/
def probes (reaches : ℕ → Bool) : ℕ → List ℕ
  | 0 => []
  | i + 1 => i :: if reaches i then [] else probes reaches i

private theorem lt_of_mem_probes {reaches : ℕ → Bool} {k i : ℕ} (probed : i ∈ probes reaches k) : i < k := by
  induction k with
  | zero => cases probed
  | succ k ih =>
    rw [probes, List.mem_cons] at probed
    rcases probed with rfl | later
    · exact Nat.lt_succ_self i
    · split at later
      · cases later
      · exact (ih later).trans (Nat.lt_succ_self k)

private theorem findBound_congr {reaches reaches' : ℕ → Bool} {k : ℕ}
    (agree : ∀ i ∈ probes reaches k, reaches' i = reaches i) : findBound reaches' k = findBound reaches k := by
  induction k with
  | zero => rfl
  | succ k ih =>
    rw [probes] at agree
    rw [findBound, findBound, agree k (List.mem_cons_self ..)]
    split
    · rfl
    · next missed => exact ih fun i probed => agree i (List.mem_cons_of_mem _ (by rwa [if_neg missed]))

section Loop

variable {INTS : ℕ} (pow23_all : Powers INTS) (B : MyBigInt INTS) (log2B : ℕ) (bBound : ℕ → ℕ)

/-- The entries compared with `B` in the turn for `t = t' + 1`, with `state` before it. -/
def turnProbes (state : (ℕ → ℕ) × ℕ) (t' : ℕ) : List (ℕ × ℕ) :=
  (probes (fun i => B.ge (pow23_all i (t' + 1))) state.2).map fun i => (i, t' + 1)

/-- The entries that the frontier loop compares with `B`. -/
def compared (log3B : ℕ) : List (ℕ × ℕ) :=
  (List.range log3B).flatMap fun t' => turnProbes pow23_all B
    ((List.range t').foldl (boundStep pow23_all B) (Function.update bBound 0 log2B, log2B + 1)) t'

/-- The loop depends on the entries that it compares alone. -/
theorem frontier_congr {pow23_all' : Powers INTS} {log3B : ℕ}
    (agree : ∀ p ∈ compared pow23_all B log2B bBound log3B, pow23_all' p.1 p.2 = pow23_all p.1 p.2) :
    frontier pow23_all' B log2B log3B bBound = frontier pow23_all B log2B log3B bBound := by
  suffices same : ∀ k ≤ log3B,
      (List.range k).foldl (boundStep pow23_all' B) (Function.update bBound 0 log2B, log2B + 1) =
        (List.range k).foldl (boundStep pow23_all B) (Function.update bBound 0 log2B, log2B + 1) from
    congrArg Prod.fst (same log3B le_rfl)
  intro k limit
  induction k with
  | zero => rfl
  | succ k ih =>
    simp only [List.range_succ, List.foldl_append, List.foldl_cons, List.foldl_nil]
    rw [ih (by omega), boundStep, boundStep, findBound_congr fun i probed => ?_]
    rw [agree (i, k + 1)]
    exact List.mem_flatMap.mpr ⟨k, List.mem_range.mpr limit, List.mem_map.mpr ⟨i, probed, rfl⟩⟩

end Loop

/-! ## A whole call -/

section Call

variable {m : Macros} {pow23_all : Powers m.INTS} {n : MyBigInt m.INTS} {log2B log3B : ℕ} {s : State}

/-- The entries of the array hold their powers wherever those fit. -/
def ExactInside (m : Macros) (pow23_all : Powers m.INTS) : Prop :=
  ∀ i < m.MAX_2, ∀ j < m.MAX_3, 2 ^ i * 3 ^ j < 2 ^ (32 * m.INTS) → (pow23_all i j).toNat = 2 ^ i * 3 ^ j

/-- A power that fits, in a column up to the last row of the search, has been written by `init` and is exact. -/
private theorem entry_exact (tables : ExactInside m pow23_all) (input : Input m n) (logs : Logs n.toNat log2B log3B)
    {i t : ℕ} (row : t ≤ log3B) (fits : 2 ^ i * 3 ^ t < 2 ^ (32 * m.INTS)) :
    Powers.Written m.INTS i t ∧ (pow23_all i t).toNat = 2 ^ i * 3 ^ t := by
  have inside : t < m.MAX_3 := row.trans_lt (log3B_lt input logs)
  have power : 2 ^ i < 2 ^ (32 * m.INTS) := (Nat.le_mul_of_pos_right _ (by positivity)).trans_lt fits
  have column : i < 32 * m.INTS := (Nat.pow_lt_pow_iff_right (by norm_num)).mp power
  exact ⟨⟨column, inside, fits.le⟩, tables i column t inside fits⟩

private theorem behind_fits (input : Input m n) {i t : ℕ} (reached : 2 ^ i * 3 ^ t ≤ 2 * n.toNat) :
    2 ^ i * 3 ^ (t + 1) < 2 ^ (32 * m.INTS) := by
  have fits := input.fits
  rw [pow_succ, ← mul_assoc]
  omega

private theorem row_of_reach (input : Input m n) (logs : Logs n.toNat log2B log3B) {t : ℕ} :
    3 ^ t ≤ 2 * n.toNat ↔ t ≤ log3B := by
  have positive := input.positive
  rw [logs.three, Nat.le_log_iff_pow_le (by norm_num) (by omega)]

private theorem serves (tables : ExactInside m pow23_all) (input : Input m n) (logs : Logs n.toNat log2B log3B) :
    Serves pow23_all n.mul2.toNat := by
  intro i t reached reach
  rw [input.toNat_mul2] at reached reach
  exact (entry_exact tables input logs ((row_of_reach input logs).mp reach) (behind_fits input reached)).2

/-- The bounds of a call. -/
private theorem bound_eq (tables : ExactInside m pow23_all) (input : Input m n) (logs : Logs n.toNat log2B log3B)
    {t : ℕ} (row : t ≤ log3B) :
    (getOptimalDBC m pow23_all log2B log3B n s).bBound t = topBound (2 * n.toNat) t := by
  have spec := (serves tables input logs).frontier_spec input.room.positive s.bBound t
  rw [input.toNat_mul2, ← logs.two, ← logs.three, if_pos row] at spec
  rw [getOptimalDBC_bBound]
  exact spec

/-- An entry is compared one column behind a power that `2 * n` reaches. -/
private theorem compared_reached (tables : ExactInside m pow23_all) (input : Input m n)
    (logs : Logs n.toNat log2B log3B) {p : ℕ × ℕ} (read : p ∈ compared pow23_all n.mul2 log2B s.bBound log3B) :
    ∃ t, p.2 = t + 1 ∧ t + 1 ≤ log3B ∧ 2 ^ p.1 * 3 ^ t ≤ 2 * n.toNat := by
  obtain ⟨t, turn, read⟩ := List.mem_flatMap.mp read
  obtain ⟨i, probed, rfl⟩ := List.mem_map.mp read
  rw [List.mem_range] at turn
  have pointer := (frontierAfter_spec (serves tables input logs) input.room.positive s.bBound (k := t) (by
    rw [input.toNat_mul2, ← logs.three]
    omega)).2.1
  rw [frontierAfter, input.toNat_mul2, ← logs.two] at pointer
  refine ⟨t, rfl, turn, (le_topBound_iff ((row_of_reach input logs).mpr turn.le)).mp ?_⟩
  exact Nat.le_of_lt_succ ((lt_of_mem_probes probed).trans_le pointer)

/-- The frontier loop finds the largest exponent for every `t ≤ log3B`. Every entry that it compares has been written
by `init` and is exact. The power on the frontier exceeds `n` at every cell where it is compared with it. -/
theorem frontier_computation (tables : ExactInside m pow23_all) (positive : 1 ≤ n.toNat)
    (fits : 6 * n.toNat < 2 ^ (32 * m.INTS)) (logs : Logs n.toNat log2B log3B) (s : State) :
    let s' := getOptimalDBC m pow23_all log2B log3B n s
    let entries := compared pow23_all n.mul2 log2B s.bBound log3B
    (∀ t ≤ log3B, IsGreatest {i | 2 ^ i * 3 ^ t ≤ 2 * n.toNat} (s'.bBound t)) ∧
      (∀ p ∈ entries, Powers.Written m.INTS p.1 p.2 ∧ (pow23_all p.1 p.2).toNat = 2 ^ p.1 * 3 ^ p.2) ∧
      (∀ pow23_all' : Powers m.INTS, (∀ p ∈ entries, pow23_all' p.1 p.2 = pow23_all p.1 p.2) →
        frontier pow23_all' n.mul2 log2B log3B s.bBound = frontier pow23_all n.mul2 log2B log3B s.bBound) ∧
      (∀ t ≤ log3B, n.toNat < 2 ^ s'.bBound t * 3 ^ t) ∧
      ∀ b t, (b, t) ∈ schedule s'.bBound log2B log3B → b = s'.bBound t →
        Powers.Written m.INTS b t ∧ n.ge (pow23_all b t) = false := by
  have input : Input m n := ⟨positive, fits⟩
  intro s' entries
  have bound {t : ℕ} (row : t ≤ log3B) : s'.bBound t = topBound (2 * n.toNat) t := bound_eq tables input logs row
  have above {t : ℕ} (row : t ≤ log3B) : n.toNat < 2 ^ s'.bBound t * 3 ^ t := by
    have spec := (topBound_spec ((row_of_reach input logs).mpr row)).2
    rw [pow_succ, mul_right_comm] at spec
    rw [bound row]
    omega
  refine ⟨fun t row => ?_, fun p read => ?_, fun pow23_all' agree => frontier_congr pow23_all n.mul2 log2B s.bBound agree,
    fun t row => above row, fun b t visited top => ?_⟩
  · have reach := (row_of_reach input logs).mpr row
    rw [bound row]
    exact ⟨(topBound_spec reach).1, fun i reached => (le_topBound_iff reach).mpr reached⟩
  · obtain ⟨t, column, row, reached⟩ := compared_reached tables input logs read
    rw [column]
    exact entry_exact tables input logs row (behind_fits input reached)
  · have row := (mem_schedule.mp visited).1
    have reached := (topBound_spec ((row_of_reach input logs).mpr row)).1
    rw [← bound row, ← top] at reached
    have inside : 2 ^ b * 3 ^ t < 2 ^ (32 * m.INTS) := by omega
    obtain ⟨written, entry⟩ := entry_exact tables input logs row inside
    refine ⟨written, ?_⟩
    have power := above row
    rw [← top] at power
    rw [Bool.eq_false_iff, ne_eq, ge_iff, entry]
    omega

theorem powTable_exactInside (m : Macros) : ExactInside m (powTable m.INTS) :=
  fun i _ j _ fits => powTable_exact m.INTS i j (fits.trans_eq (pow_mul 2 32 m.INTS))

theorem frontier_computation_five :
    IsGreatest {i | 2 ^ i * 3 ^ 1 ≤ 2 * (MyBigInt.ofNat 9 5).toNat}
      ((getOptimalDBC .secp256k1 (powTable 9) 3 2 (.ofNat 9 5) (State.start.init .secp256k1)).bBound 1) := by
  exact (frontier_computation (m := .secp256k1) (n := .ofNat 9 5) (powTable_exactInside _) (by decide +kernel)
    (by decide +kernel) logs_five _).1 1 (by decide)

/-- For `n = 5` the pointer passes `24` and `12` on its way to `6` and then meets `9`. -/
example : compared (powTable 9) (.ofNat 9 10) 3 (fun _ => 0) 2 = [(3, 1), (2, 1), (1, 1), (0, 2)] := by
  decide +kernel

end Call

end DbcSnark.DBCTest
