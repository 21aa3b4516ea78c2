import DbcSnark.Model.Gpuec.RunDBC
import DbcSnark.Proofs.DBCTest.Greedy

/-! # `run_DBC_v2` in an abelian group

The chain is consumed from its last row. The running base is `2 ^ now_dbl * 3 ^ now_tpl` times the point, and
the exponents only grow towards the leading row, so each row finds its multiple of the point in the base.
-/

namespace DbcSnark.Gpuec

open DBCTest DBCTest.Greedy

variable {A : Type*} [AddCommGroup A] {point : A}

namespace RunDBC

/-- The base is the multiple of the point that the counters describe. -/
def Scaled (point : A) (st : RunDBC A) : Prop := st.base = (2 ^ st.now_dbl * 3 ^ st.now_tpl : ℤ) • point

private theorem Scaled.climbStep {st : RunDBC A} (scaled : Scaled point st) (dbl tpl : ℕ) :
    Scaled point (climbStep (groupOps A) dbl tpl st) := by
  simp only [Scaled, RunDBC.climbStep, groupOps] at *
  split
  · rw [scaled, pow_succ]
    module
  · split
    · rw [scaled, pow_succ]
      module
    · exact scaled

/-- The loop stops with the counters at the exponents of the row and leaves `res` and `first` alone. -/
theorem climb_spec {st : RunDBC A} (scaled : Scaled point st) {dbl tpl : ℕ} (left : st.now_dbl ≤ dbl)
    (right : st.now_tpl ≤ tpl) :
    Scaled point (climb (groupOps A) dbl tpl st) ∧ (climb (groupOps A) dbl tpl st).now_dbl = dbl ∧
      (climb (groupOps A) dbl tpl st).now_tpl = tpl ∧ (climb (groupOps A) dbl tpl st).res = st.res ∧
        (climb (groupOps A) dbl tpl st).first = st.first := by
  obtain ⟨k, count⟩ : ∃ k, dbl - st.now_dbl + (tpl - st.now_tpl) = k := ⟨_, rfl⟩
  unfold climb
  rw [count]
  induction k generalizing st with
  | zero => exact ⟨scaled, by simp; omega, by simp; omega, rfl, rfl⟩
  | succ k ih =>
    rw [Function.iterate_succ_apply]
    have next := scaled.climbStep dbl tpl
    by_cases doubles : st.now_dbl < dbl
    · have turn : climbStep (groupOps A) dbl tpl st = { st with
          tmp := st.base + st.base, base := st.base + st.base, now_dbl := st.now_dbl + 1, cnt := st.cnt + 1 } := by
        simp [climbStep, groupOps, doubles]
      rw [turn] at next ⊢
      exact ih next (by dsimp only; omega) right (by dsimp only; omega)
    · have triples : st.now_tpl < tpl := by omega
      have turn : climbStep (groupOps A) dbl tpl st = { st with
          tmp := st.base + st.base, base := st.base + (st.base + st.base), now_tpl := st.now_tpl + 1,
          cnt := st.cnt + 1 } := by
        simp [climbStep, groupOps, doubles, triples]
      rw [turn] at next ⊢
      exact ih next left (by dsimp only; omega) (by dsimp only; omega)

/-- One row adds its multiple of the point, or starts the result with it. -/
theorem row_spec {st : RunDBC A} (scaled : Scaled point st) {r : ℤ × ℕ × ℕ} (sign : r.1 = 1 ∨ r.1 = -1)
    (left : st.now_dbl ≤ r.2.1) (right : st.now_tpl ≤ r.2.2) :
    Scaled point (row (groupOps A) st r) ∧ (row (groupOps A) st r).now_dbl = r.2.1 ∧
      (row (groupOps A) st r).now_tpl = r.2.2 ∧ (row (groupOps A) st r).first = false ∧
        (row (groupOps A) st r).res = (if st.first then 0 else st.res) + total [r] • point := by
  obtain ⟨climbed, dbl, tpl, res, first⟩ := climb_spec scaled left right
  refine ⟨climbed, dbl, tpl, rfl, ?_⟩
  have base : (climb (groupOps A) r.2.1 r.2.2 st).base = (2 ^ r.2.1 * 3 ^ r.2.2 : ℤ) • point := by
    rw [climbed, dbl, tpl]
  have signed : (if r.1 = -1 then -(climb (groupOps A) r.2.1 r.2.2 st).base
      else (climb (groupOps A) r.2.1 r.2.2 st).base) = total [r] • point := by
    rw [base]
    rcases sign with plus | minus
    · rw [plus, if_neg (by norm_num)]
      simp [total, plus]
    · rw [minus, if_pos rfl, ← neg_smul]
      simp [total, minus]
  simp only [row, res, first]
  cases st.first
  · exact congrArg (st.res + ·) signed
  · exact signed.trans (zero_add _).symm

/-- The rows that are left add their multiples of the point. -/
theorem foldl_row (rows : List (ℤ × ℕ × ℕ)) (ascending : rows.Pairwise fun r r' => r.2.1 ≤ r'.2.1 ∧ r.2.2 ≤ r'.2.2)
    (signs : ∀ r ∈ rows, r.1 = 1 ∨ r.1 = -1) (st : RunDBC A) (scaled : Scaled point st) (later : st.first = false)
    (above : ∀ r ∈ rows, st.now_dbl ≤ r.2.1 ∧ st.now_tpl ≤ r.2.2) :
    (rows.foldl (row (groupOps A)) st).res = st.res + total rows • point := by
  induction rows generalizing st with
  | nil => simp [total]
  | cons r rows ih =>
    obtain ⟨first, rest⟩ := List.pairwise_cons.mp ascending
    have here := above r (by simp)
    obtain ⟨scaled', dbl, tpl, later', res⟩ := row_spec scaled (signs r (by simp)) here.1 here.2
    rw [List.foldl_cons, ih rest (fun r' member => signs r' (by simp [member])) _ scaled' later', res, later,
      if_neg (by simp), add_assoc, ← add_smul, ← total_append]
    · rfl
    · intro r' member
      rw [dbl, tpl]
      exact first r' member

end RunDBC

/-- On a double-base chain the result is the number of the chain times the point. -/
theorem run_DBC_v2_group {n : ℕ} {DBC : List (ℤ × ℕ × ℕ)} (chain : IsDoubleBaseChain n DBC) (base tmp point res : A) :
    (run_DBC_v2 (groupOps A) base tmp point res DBC).res = n • point := by
  have ascending : DBC.reverse.Pairwise fun r r' => r.2.1 ≤ r'.2.1 ∧ r.2.2 ≤ r'.2.2 :=
    List.pairwise_reverse.mpr chain.descending
  have signs : ∀ r ∈ DBC.reverse, r.1 = 1 ∨ r.1 = -1 := fun r member => chain.signs r (List.mem_reverse.mp member)
  have sum : total DBC.reverse = n := by
    rw [total, List.map_reverse, List.sum_reverse]
    exact chain.sum
  have nonempty : DBC.reverse ≠ [] := by
    obtain ⟨dbl, tpl, rest, rows⟩ := chain.leading
    simp [rows]
  unfold run_DBC_v2
  cases rows : DBC.reverse with
  | nil => exact absurd rows nonempty
  | cons r rows' =>
    rw [rows] at ascending signs sum
    obtain ⟨first, rest⟩ := List.pairwise_cons.mp ascending
    have unit : RunDBC.Scaled point ⟨(groupOps A).copy point base, tmp, res, 0, 0, true, 0⟩ := by
      simp [RunDBC.Scaled, groupOps]
    obtain ⟨scaled, dbl, tpl, later, start⟩ :=
      RunDBC.row_spec unit (signs r (by simp)) (Nat.zero_le _) (Nat.zero_le _)
    rw [List.foldl_cons, RunDBC.foldl_row rows' rest (fun r' member => signs r' (by simp [member])) _ scaled later,
      start, if_pos rfl, zero_add, ← add_smul, ← total_append]
    · rw [List.singleton_append, sum, natCast_zsmul]
    · intro r' member
      rw [dbl, tpl]
      exact first r' member

end DbcSnark.Gpuec
