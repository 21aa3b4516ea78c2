import DbcSnark.Model.DBCTest.Greedy
import DbcSnark.Proofs.DBCTest.OptimalDBC
import DbcSnark.ToMathlib.GreedyExpansion

/-! # Chains found by the greedy search

A turn of the greedy loop replaces the remainder `t` by its distance to a power product and records the
sign with which that product enters, so the stored rows and `s * t` keep adding up to `n`. This needs the
subtraction to be exact at every turn; the CPU's `operator-` is not, and a search whose remainder hits
the wrong word stores a chain of a different number. Comparisons decided on the numbers themselves pick the
nearest product, so the search follows the greedy expansion of `n`, which ends and bounds the rows.
-/

namespace DbcSnark.DBCTest

open MyBigInt DoubleBase

variable {INTS : ℕ}

/-! ## The window -/

section Window

variable (floats : Floats INTS)

private theorem alphaAt_le (a : ℕ) (t : MyBigInt INTS) (j : ℕ) : alphaAt floats a t j ≤ a := by
  unfold alphaAt
  dsimp only
  split
  · omega
  · split
    · exact le_rfl
    · split <;> omega

/-- Whatever the comparisons say, the exponents picked stay inside the window. -/
theorem pick_window (window a b_temp : ℕ) (t : MyBigInt INTS) :
    (pick floats window a b_temp t).1 ≤ a ∧ (pick floats window a b_temp t).2 ≤ b_temp ∧
      b_temp ≤ (pick floats window a b_temp t).2 + window := by
  unfold pick
  apply Loops.foldl_induction fun (_ : List ℕ) (best : ℕ × ℕ) =>
    best.1 ≤ a ∧ best.2 ≤ b_temp ∧ b_temp ≤ best.2 + window
  · exact ⟨le_rfl, le_rfl, by omega⟩
  · intro visited d later best split holds
    have inside : d ∈ List.range (min window b_temp + 1) := by
      rw [split]
      simp
    rw [List.mem_range] at inside
    unfold pickStep
    dsimp only
    split
    · exact ⟨alphaAt_le floats a t _, by omega, by omega⟩
    · exact holds

/-- The distance from the remainder to a power product. -/
def gap (t : MyBigInt INTS) (alpha beta : ℕ) : ℕ := ((t.toNat : ℤ) - 2 ^ alpha * 3 ^ beta).natAbs

theorem gap_of_le {t : MyBigInt INTS} {alpha beta : ℕ} (below : 2 ^ alpha * 3 ^ beta ≤ t.toNat) :
    gap t alpha beta = t.toNat - 2 ^ alpha * 3 ^ beta := by
  have cast : ((2 ^ alpha * 3 ^ beta : ℕ) : ℤ) = 2 ^ alpha * 3 ^ beta := by push_cast; rfl
  rw [gap, ← cast]
  omega

theorem gap_of_ge {t : MyBigInt INTS} {alpha beta : ℕ} (above : t.toNat ≤ 2 ^ alpha * 3 ^ beta) :
    gap t alpha beta = 2 ^ alpha * 3 ^ beta - t.toNat := by
  have cast : ((2 ^ alpha * 3 ^ beta : ℕ) : ℤ) = 2 ^ alpha * 3 ^ beta := by push_cast; rfl
  rw [gap, ← cast]
  omega

private theorem closer_exact (alpha_j j alpha beta : ℕ) (t : MyBigInt INTS) :
    (Floats.exact INTS).closer alpha_j j alpha beta t = decide (gap t alpha_j j ≤ gap t alpha beta) := by
  simp only [Floats.exact, gap]
  rw [← Int.natAbs_neg (2 ^ alpha * 3 ^ beta - _), neg_sub]
  rfl

theorem gap_eq_dist (t : MyBigInt INTS) (alpha beta : ℕ) :
    gap t alpha beta = Nat.dist t.toNat (2 ^ alpha * 3 ^ beta) := by
  rcases le_total (2 ^ alpha * 3 ^ beta) t.toNat with below | above
  · rw [gap_of_le below, Nat.dist_eq_sub_of_le_right below]
  · rw [gap_of_ge above, Nat.dist_eq_sub_of_le above]

theorem alphaAt_of_le {a j : ℕ} {t : MyBigInt INTS} (above : t.toNat ≤ 3 ^ j) : alphaAt (.exact INTS) a t j = 0 := by
  simp only [alphaAt, Floats.exact, above, decide_true, if_true]

/-- For a power of 3 below the remainder the choice is between two neighbours and the limit `a`. -/
theorem alphaAt_of_lt {a j : ℕ} {t : MyBigInt INTS} (below : 3 ^ j < t.toNat) :
    alphaAt (.exact INTS) a t j = if topBound t.toNat j ≥ a then a
      else if gap t (topBound t.toNat j) j ≤ gap t (topBound t.toNat j + 1) j then topBound t.toNat j
      else topBound t.toNat j + 1 := by
  simp only [alphaAt, Floats.exact, decide_eq_true_eq, not_le.mpr below, if_false]
  rw [← Int.natAbs_neg (2 ^ _ * 3 ^ j - _), neg_sub]
  rfl

/-- Below the remainder the larger exponent of 2 is the nearer one. -/
private theorem gap_lt_of_lt {t : MyBigInt INTS} {i i' j : ℕ} (less : i < i') (below : 2 ^ i' * 3 ^ j ≤ t.toNat) :
    gap t i' j < gap t i j := by
  have smaller : 2 ^ i * 3 ^ j < 2 ^ i' * 3 ^ j :=
    Nat.mul_lt_mul_of_pos_right (Nat.pow_lt_pow_right (by decide) less) (by positivity)
  rw [gap_of_le below, gap_of_le (smaller.le.trans below)]
  omega

/-- Above the remainder the smaller exponent of 2 is the nearer one. -/
private theorem gap_le_of_le {t : MyBigInt INTS} {i i' j : ℕ} (le : i ≤ i') (above : t.toNat ≤ 2 ^ i * 3 ^ j) :
    gap t i j ≤ gap t i' j := by
  have larger : 2 ^ i * 3 ^ j ≤ 2 ^ i' * 3 ^ j := Nat.mul_le_mul_right _ (Nat.pow_le_pow_right (by decide) le)
  rw [gap_of_ge above, gap_of_ge (above.trans larger)]
  omega

/-- `alpha_j` is the preferred exponent of 2 to go with `3 ^ j`. -/
private theorem preference_alphaAt_le (t : MyBigInt INTS) (j : ℕ) {a i : ℕ} (inside : i ≤ a) :
    preference t.toNat (alphaAt (.exact INTS) a t j) j ≤ preference t.toNat i j := by
  suffices gap t (alphaAt (.exact INTS) a t j) j ≤ gap t i j ∧
      (gap t (alphaAt (.exact INTS) a t j) j = gap t i j → alphaAt (.exact INTS) a t j ≤ i) by
    rw [gap_eq_dist, gap_eq_dist] at this
    exact preference_le_iff.mpr ⟨this.1, fun same => ⟨le_rfl, fun _ => this.2 same⟩⟩
  rcases Nat.lt_or_ge (3 ^ j) t.toNat with below | above
  · rw [alphaAt_of_lt below]
    have reach (e : ℕ) : e ≤ topBound t.toNat j ↔ 2 ^ e * 3 ^ j ≤ t.toNat := le_topBound_iff below.le
    generalize topBound t.toNat j = k at *
    have lower : 2 ^ k * 3 ^ j ≤ t.toNat := (reach k).mp le_rfl
    have upper : t.toNat ≤ 2 ^ (k + 1) * 3 ^ j := by
      have beyond := mt (reach (k + 1)).mpr (by omega)
      exact (not_le.mp beyond).le
    -- the nearest product is one of the two around the remainder
    have around : gap t k j < gap t i j ∧ i < k ∨ i = k ∨ gap t (k + 1) j ≤ gap t i j ∧ k < i := by
      rcases lt_trichotomy i k with less | same | more
      · exact .inl ⟨gap_lt_of_lt less lower, less⟩
      · exact .inr (.inl same)
      · exact .inr (.inr ⟨gap_le_of_le more upper, more⟩)
    split
    · rename_i limited
      rcases Nat.lt_or_eq_of_le inside with less | rfl
      · have nearer := gap_lt_of_lt less ((reach a).mp limited)
        exact ⟨nearer.le, fun same => absurd same nearer.ne⟩
      · exact ⟨le_rfl, fun _ => le_rfl⟩
    · split <;> rcases around with less | rfl | more <;> omega
  · rw [alphaAt_of_le above]
    exact ⟨gap_le_of_le (Nat.zero_le i) (by rwa [pow_zero, one_mul]), fun _ => Nat.zero_le i⟩

/-- The choice after `m` turns of the loop over `j`: preferred to all that were looked at, and after the first turn
above the exponents of 3 that are still to come. -/
private structure Chosen (a b_temp : ℕ) (t : MyBigInt INTS) (m : ℕ) (best : ℕ × ℕ) : Prop where
  low : b_temp ≤ best.2 + m
  least : ∀ d < m, b_temp < best.2 + m ∧
    preference t.toNat best.1 best.2 ≤ preference t.toNat (alphaAt (.exact INTS) a t (b_temp - d)) (b_temp - d)

private theorem Chosen.turn {a b_temp m : ℕ} {t : MyBigInt INTS} {best : ℕ × ℕ} (chosen : Chosen a b_temp t m best)
    (inside : m ≤ b_temp) : Chosen a b_temp t (m + 1) (pickStep (.exact INTS) a t best (b_temp - m)) := by
  obtain ⟨low, least⟩ := chosen
  simp only [pickStep, closer_exact, decide_eq_true_eq]
  split
  · rename_i closer
    refine ⟨by dsimp only; omega, fun d before => ⟨by dsimp only; omega, ?_⟩⟩
    rcases Nat.lt_succ_iff_lt_or_eq.mp before with earlier | rfl
    · -- a later exponent of 3 is smaller, so it wins a tie
      obtain ⟨above, preferred⟩ := least d earlier
      refine le_trans (preference_le_iff.mpr ?_) preferred
      rw [← gap_eq_dist, ← gap_eq_dist]
      exact ⟨closer, fun _ => by omega⟩
    · exact le_rfl
  · rename_i farther
    refine ⟨by omega, fun d before => ⟨by omega, ?_⟩⟩
    rcases Nat.lt_succ_iff_lt_or_eq.mp before with earlier | rfl
    · exact (least d earlier).2
    · rw [not_le, gap_eq_dist, gap_eq_dist] at farther
      exact preference_le_iff.mpr ⟨farther.le, fun same => absurd same farther.ne⟩

/-- With exact comparisons the loop picks the nearest product in the window. -/
theorem pick_nearest (window a b_temp : ℕ) (t : MyBigInt INTS) :
    Nearest window a b_temp t.toNat (pick (.exact INTS) window a b_temp t).1 (pick (.exact INTS) window a b_temp t).2 := by
  have chosen : Chosen a b_temp t (min window b_temp + 1) (pick (.exact INTS) window a b_temp t) :=
    Loops.foldl_range_induction ⟨le_rfl, fun d none => absurd none (Nat.not_lt_zero d)⟩
      fun m bound best holds => holds.turn (by omega)
  obtain ⟨left, right, near⟩ := pick_window (.exact INTS) window a b_temp t
  refine ⟨⟨left, right, near⟩, fun i j inside => ?_⟩
  have bottom := inside.near
  have preferred := (chosen.least (b_temp - j) (by omega)).2
  rw [Nat.sub_sub_self inside.right] at preferred
  exact preferred.trans (preference_alphaAt_le t j inside.left)

end Window

namespace Greedy

/-- The number that stored rows stand for. -/
def total (rows : List (ℤ × ℕ × ℕ)) : ℤ := (rows.map fun r => r.1 * 2 ^ r.2.1 * 3 ^ r.2.2).sum

theorem total_append (rows rows' : List (ℤ × ℕ × ℕ)) : total (rows ++ rows') = total rows + total rows' := by
  simp [total]

/-- A turn of the loop with some exponents inside the window. -/
def Step (window : ℕ) (minus : MyBigInt INTS → MyBigInt INTS → MyBigInt INTS) (pow23_all : ℕ → ℕ → MyBigInt INTS)
    (x y : Greedy INTS) : Prop :=
  x.t.iszero = false ∧ ∃ alpha beta, alpha ≤ x.a ∧ beta ≤ x.b_temp ∧ x.b_temp ≤ beta + window ∧
    y = x.next minus pow23_all alpha beta

/-- A subtraction that is right on operands that meet the condition `ok`. -/
def ExactWhen (minus : MyBigInt INTS → MyBigInt INTS → MyBigInt INTS) (ok : MyBigInt INTS → MyBigInt INTS → Prop) :
    Prop :=
  ∀ a b, b.toNat ≤ a.toNat → ok a b → (minus a b).toNat = a.toNat - b.toNat

/-- The condition `ok` holds of the operands of the subtraction that led from `x` to `y`. -/
def Subtracts (ok : MyBigInt INTS → MyBigInt INTS → Prop) (pow23_all : ℕ → ℕ → MyBigInt INTS)
    (x y : Greedy INTS) : Prop :=
  ok (x.operands pow23_all y.a y.b_temp).1 (x.operands pow23_all y.a y.b_temp).2

/-- What a greedy search for `n` keeps: the rows stored so far and `s * t` add up to `n`. -/
structure Balanced (n : ℕ) (x : Greedy INTS) : Prop where
  sign : x.s = 1 ∨ x.s = -1
  leading : (x.stored.map Prod.fst ++ [x.s]).head? = some 1
  sum : (n : ℤ) = total x.stored + x.s * x.t.toNat
  signs : ∀ r ∈ x.stored, r.1 = 1 ∨ r.1 = -1
  descending : x.stored.Pairwise fun r r' => r'.2.1 ≤ r.2.1 ∧ r'.2.2 ≤ r.2.2
  last : ∀ r ∈ x.stored, x.a ≤ r.2.1 ∧ x.b_temp ≤ r.2.2
  fits : 2 ^ x.a * 3 ^ x.b_temp < (2 ^ 32) ^ INTS

theorem Balanced.start {n : MyBigInt INTS} {a b : ℕ} (fits : 2 ^ a * 3 ^ b < (2 ^ 32) ^ INTS) :
    Balanced n.toNat (start n a b) :=
  ⟨.inl rfl, rfl, by simp [Greedy.start, total], by simp [Greedy.start], .nil, by simp [Greedy.start], fits⟩

section Turn

variable {minus : MyBigInt INTS → MyBigInt INTS → MyBigInt INTS} {ok : MyBigInt INTS → MyBigInt INTS → Prop}
  {pow23_all : ℕ → ℕ → MyBigInt INTS} {n window : ℕ} {x y : Greedy INTS}

private theorem toNat_next_of_power (exact : ExactWhen minus ok) {alpha beta : ℕ}
    (power : (pow23_all alpha beta).toNat = 2 ^ alpha * 3 ^ beta)
    (clean : ok (x.operands pow23_all alpha beta).1 (x.operands pow23_all alpha beta).2) :
    (x.next minus pow23_all alpha beta).t.toNat = gap x.t alpha beta := by
  simp only [operands, next] at clean ⊢
  by_cases above : x.t.ge (pow23_all alpha beta) = true
  · rw [if_pos above] at clean ⊢
    rw [ge_iff] at above
    rw [exact _ _ above clean, gap_of_le (by omega), power]
  · rw [if_neg above] at clean ⊢
    rw [ge_iff, not_le] at above
    rw [exact _ _ above.le clean, gap_of_ge (by omega), power]

/-- The remainder after a turn is the distance to the power product that was picked. -/
theorem toNat_next (exact : ExactWhen minus ok)
    (tables : Exact pow23_all) {alpha beta : ℕ} (fits : 2 ^ alpha * 3 ^ beta < (2 ^ 32) ^ INTS)
    (clean : ok (x.operands pow23_all alpha beta).1 (x.operands pow23_all alpha beta).2) :
    (x.next minus pow23_all alpha beta).t.toNat = gap x.t alpha beta :=
  toNat_next_of_power exact (tables alpha beta fits) clean

/-- The sign and the remainder after a turn account for the row it stored. -/
theorem next_balance (exact : ExactWhen minus ok)
    (tables : Exact pow23_all) {alpha beta : ℕ} (fits : 2 ^ alpha * 3 ^ beta < (2 ^ 32) ^ INTS)
    (clean : ok (x.operands pow23_all alpha beta).1 (x.operands pow23_all alpha beta).2) :
    x.s * x.t.toNat = x.s * 2 ^ alpha * 3 ^ beta +
      (x.next minus pow23_all alpha beta).s * (x.next minus pow23_all alpha beta).t.toNat := by
  have power := tables alpha beta fits
  have cast : ((2 ^ alpha * 3 ^ beta : ℕ) : ℤ) = 2 ^ alpha * 3 ^ beta := by push_cast; rfl
  rw [toNat_next exact tables fits clean, mul_assoc x.s, ← cast]
  simp only [next]
  by_cases above : x.t.ge (pow23_all alpha beta) = true
  · have below := (ge_iff _ _).mp above
    rw [power] at below
    rw [if_pos above, gap_of_le below, Nat.cast_sub below]
    ring
  · have beyond := above
    rw [ge_iff, power, not_le] at beyond
    rw [if_neg above, gap_of_ge beyond.le, Nat.cast_sub beyond.le]
    ring

/-- A turn keeps the stored rows and `s * t` adding up just when its subtraction is exact. -/
theorem next_sum_iff (minus : MyBigInt INTS → MyBigInt INTS → MyBigInt INTS) (tables : Exact pow23_all)
    {alpha beta : ℕ} (fits : 2 ^ alpha * 3 ^ beta < (2 ^ 32) ^ INTS) (balanced : Balanced n x) :
    let u := x.operands pow23_all alpha beta
    let y := x.next minus pow23_all alpha beta
    u.2.toNat ≤ u.1.toNat ∧
      ((n : ℤ) = total y.stored + y.s * y.t.toNat ↔ (minus u.1 u.2).toNat = u.1.toNat - u.2.toNat) := by
  have power := tables alpha beta fits
  have cast : ((2 ^ alpha * 3 ^ beta : ℕ) : ℤ) = 2 ^ alpha * 3 ^ beta := by push_cast; rfl
  have row : total (x.next minus pow23_all alpha beta).stored = total x.stored + x.s * (2 ^ alpha * 3 ^ beta : ℕ) := by
    rw [cast]
    simp only [next, total_append]
    simp only [total, List.map_cons, List.map_nil, List.sum_cons, List.sum_nil, add_zero]
    ring
  dsimp only
  rw [balanced.sum, row, ← power]
  simp only [next, operands]
  by_cases above : x.t.ge (pow23_all alpha beta) = true
  · simp only [if_pos above]
    rw [ge_iff] at above
    refine ⟨above, ?_⟩
    rcases balanced.sign with plus | minus <;> rw [‹x.s = _›] <;> omega
  · simp only [if_neg above]
    rw [ge_iff, not_le] at above
    refine ⟨above.le, ?_⟩
    rcases balanced.sign with plus | minus <;> rw [‹x.s = _›] <;> omega

/-- A turn whose subtraction is exact keeps the balance. -/
theorem Balanced.step (exact : ExactWhen minus ok)
    (tables : Exact pow23_all) (balanced : Balanced n x) (step : Step window minus pow23_all x y)
    (clean : Subtracts ok pow23_all x y) : Balanced n y := by
  obtain ⟨-, alpha, beta, left, right, -, rfl⟩ := step
  have fits : 2 ^ alpha * 3 ^ beta < (2 ^ 32) ^ INTS := lt_of_le_of_lt (by gcongr <;> norm_num) balanced.fits
  have account := next_balance exact tables fits clean
  refine ⟨?_, ?_, ?_, ?_, ?_, ?_, fits⟩
  · rcases balanced.sign with plus | minus <;> simp only [next, *] <;> split <;> simp
  · simp only [next, List.map_append, List.map_cons, List.map_nil]
    rw [List.head?_append, balanced.leading]
    rfl
  · rw [balanced.sum, account]
    simp only [next, total_append]
    simp only [total, List.map_cons, List.map_nil, List.sum_cons, List.sum_nil, add_zero]
    ring
  · intro r member
    rcases List.mem_append.mp member with earlier | here
    · exact balanced.signs r earlier
    · obtain rfl := List.mem_singleton.mp here
      exact balanced.sign
  · apply List.pairwise_append.mpr
    refine ⟨balanced.descending, List.pairwise_singleton _ _, fun r earlier r' here => ?_⟩
    obtain rfl := List.mem_singleton.mp here
    have := balanced.last r earlier
    exact ⟨left.trans this.1, right.trans this.2⟩
  · intro r member
    rcases List.mem_append.mp member with earlier | here
    · have := balanced.last r earlier
      exact ⟨left.trans this.1, right.trans this.2⟩
    · obtain rfl := List.mem_singleton.mp here
      exact ⟨le_rfl, le_rfl⟩

/-- A whole run of such turns keeps the balance. -/
theorem Balanced.run (exact : ExactWhen minus ok)
    (tables : Exact pow23_all) (balanced : Balanced n x)
    (run : Relation.ReflTransGen (fun u v => Step window minus pow23_all u v ∧ Subtracts ok pow23_all u v) x y) :
    Balanced n y := by
  induction run with
  | refl => exact balanced
  | tail _ step ih => exact ih.step exact tables step.1 step.2

/-- The exponents never grow. -/
theorem steps_le (run : Relation.ReflTransGen (Step window minus pow23_all) x y) :
    y.a ≤ x.a ∧ y.b_temp ≤ x.b_temp := by
  induction run with
  | refl => exact ⟨le_rfl, le_rfl⟩
  | tail _ step ih =>
    obtain ⟨-, alpha, beta, left, right, -, rfl⟩ := step
    exact ⟨left.trans ih.1, right.trans ih.2⟩

/-- The exponents of the rows never exceed those the search started from. -/
theorem rows_le {a b : ℕ} (run : Relation.ReflTransGen (Step window minus pow23_all) x y) (left : x.a ≤ a)
    (right : x.b_temp ≤ b) (earlier : ∀ r ∈ x.stored, r.2.1 ≤ a ∧ r.2.2 ≤ b) :
    y.a ≤ a ∧ y.b_temp ≤ b ∧ ∀ r ∈ y.stored, r.2.1 ≤ a ∧ r.2.2 ≤ b := by
  induction run with
  | refl => exact ⟨left, right, earlier⟩
  | tail _ step ih =>
    obtain ⟨-, alpha, beta, below, inside, -, rfl⟩ := step
    refine ⟨below.trans ih.1, inside.trans ih.2.1, fun r member => ?_⟩
    rcases List.mem_append.mp member with before | here
    · exact ih.2.2 r before
    · obtain rfl := List.mem_singleton.mp here
      exact ⟨below.trans ih.1, inside.trans ih.2.1⟩

/-- The stored rows of a finished search. -/
theorem Balanced.chain (balanced : Balanced n x) (positive : 0 < n) (finished : x.t.iszero = true) :
    IsDoubleBaseChain n x.stored := by
  have zero := (iszero_iff x.t).mp finished
  have sum : (n : ℤ) = total x.stored := by
    have := balanced.sum
    rwa [zero, Nat.cast_zero, mul_zero, add_zero] at this
  refine ⟨?_, balanced.signs, balanced.descending, sum.symm⟩
  cases stored : x.stored with
  | nil => simp [stored, total] at sum; omega
  | cons r rest =>
    rcases r with ⟨sign, dbl, tpl⟩
    have plus : sign = 1 := by simpa [stored] using balanced.leading
    exact ⟨dbl, tpl, rest, by rw [plus]⟩

end Turn

/-- The loop of the source makes steps, whatever the comparisons decide. -/
theorem loopWith_run (minus : MyBigInt INTS → MyBigInt INTS → MyBigInt INTS) (floats : Floats INTS) (window : ℕ)
    (pow23_all : ℕ → ℕ → MyBigInt INTS) (fuel : ℕ) (x y : Greedy INTS)
    (ends : loopWith minus floats window pow23_all fuel x = some y) :
    Relation.ReflTransGen (Step window minus pow23_all) x y ∧ y.t.iszero = true := by
  induction fuel generalizing x with
  | zero =>
    unfold loopWith at ends
    split at ends
    · cases ends
      exact ⟨.refl, ‹_›⟩
    · cases ends
  | succ fuel ih =>
    unfold loopWith at ends
    split at ends
    · cases ends
      exact ⟨.refl, ‹_›⟩
    · rename_i nonzero
      obtain ⟨rest, finished⟩ := ih _ ends
      refine ⟨.head ⟨by simpa using nonzero, _, _, ?_, ?_, ?_, rfl⟩ rest, finished⟩
      · exact (pick_window floats window x.a x.b_temp x.t).1
      · exact (pick_window floats window x.a x.b_temp x.t).2.1
      · exact (pick_window floats window x.a x.b_temp x.t).2.2

/-! ## Searches with exact comparisons -/

/-- The exponents that the exact comparisons choose. -/
abbrev picked (window : ℕ) (x : Greedy INTS) : ℕ × ℕ := pick (.exact INTS) window x.a x.b_temp x.t

/-- The state after the turn that the exact comparisons choose. -/
def after (window : ℕ) (minus : MyBigInt INTS → MyBigInt INTS → MyBigInt INTS)
    (pow23_all : ℕ → ℕ → MyBigInt INTS) (x : Greedy INTS) : Greedy INTS :=
  x.next minus pow23_all (picked window x).1 (picked window x).2

/-- A turn of the search with exact comparisons. -/
def Turn (window : ℕ) (minus : MyBigInt INTS → MyBigInt INTS → MyBigInt INTS) (pow23_all : ℕ → ℕ → MyBigInt INTS)
    (x y : Greedy INTS) : Prop :=
  x.t.iszero = false ∧ y = x.after window minus pow23_all

section Ends

variable {minus : MyBigInt INTS → MyBigInt INTS → MyBigInt INTS} {ok : MyBigInt INTS → MyBigInt INTS → Prop}
  {pow23_all : ℕ → ℕ → MyBigInt INTS} {window : ℕ} {x y : Greedy INTS}

theorem Turn.step (turn : Turn window minus pow23_all x y) : Step window minus pow23_all x y := by
  obtain ⟨nonzero, rfl⟩ := turn
  have inside := pick_window (.exact INTS) window x.a x.b_temp x.t
  exact ⟨nonzero, _, _, inside.1, inside.2.1, inside.2.2, rfl⟩

theorem steps_of_turns (run : Relation.ReflTransGen (Turn window minus pow23_all) x y) :
    Relation.ReflTransGen (Step window minus pow23_all) x y := by
  induction run with
  | refl => exact .refl
  | tail _ last ih => exact ih.tail last.step

theorem stored_length_after (window : ℕ) (minus : MyBigInt INTS → MyBigInt INTS → MyBigInt INTS)
    (pow23_all : ℕ → ℕ → MyBigInt INTS) (x : Greedy INTS) :
    (x.after window minus pow23_all).stored.length = x.stored.length + 1 := by
  simp only [after, next, List.length_append, List.length_singleton]

theorem stored_length_le (run : Relation.ReflTransGen (Turn window minus pow23_all) x y) :
    x.stored.length ≤ y.stored.length := by
  induction run with
  | refl => exact le_rfl
  | tail _ turn ih =>
    obtain ⟨-, rfl⟩ := turn
    rw [stored_length_after]
    omega

/-- Every turn of the search from `x` subtracts operands that meet the condition `ok`. -/
def Clean (ok : MyBigInt INTS → MyBigInt INTS → Prop) (window : ℕ)
    (minus : MyBigInt INTS → MyBigInt INTS → MyBigInt INTS) (pow23_all : ℕ → ℕ → MyBigInt INTS)
    (x : Greedy INTS) : Prop :=
  ∀ y z, Relation.ReflTransGen (Turn window minus pow23_all) x y → Turn window minus pow23_all y z →
    Subtracts ok pow23_all y z

theorem Clean.turn (clean : Clean ok window minus pow23_all x) (turn : Turn window minus pow23_all x y) :
    Clean ok window minus pow23_all y :=
  fun u v run last => clean u v (.head turn run) last

theorem Clean.run (clean : Clean ok window minus pow23_all x)
    (run : Relation.ReflTransGen (Turn window minus pow23_all) x y) :
    Relation.ReflTransGen (fun u v => Step window minus pow23_all u v ∧ Subtracts ok pow23_all u v) x y := by
  induction run with
  | refl => exact .refl
  | tail before last ih => exact ih.tail ⟨last.step, clean _ _ before last⟩

/-- A turn that leaves the exact distance lowers the exponent of 3, or keeps it and lowers the remainder. -/
theorem Turn.descends (deep : 0 < window) (turn : Turn window minus pow23_all x y)
    (remainder : y.t.toNat = gap x.t y.a y.b_temp) :
    y.b_temp < x.b_temp ∨ y.b_temp = x.b_temp ∧ y.t.toNat < x.t.toNat := by
  obtain ⟨running, rfl⟩ := turn
  have nonzero : 0 < x.t.toNat := by
    rw [← Bool.not_eq_true, iszero_iff] at running
    omega
  rw [remainder, gap_eq_dist]
  exact (pick_nearest window x.a x.b_temp x.t).descends deep nonzero

/-- A search all of whose turns descend comes to a remainder of zero. -/
private theorem ends_of_descends (descends : ∀ y z, Relation.ReflTransGen (Turn window minus pow23_all) x y →
      Turn window minus pow23_all y z → z.b_temp < y.b_temp ∨ z.b_temp = y.b_temp ∧ z.t.toNat < y.t.toNat) :
    ∃ y, Relation.ReflTransGen (Turn window minus pow23_all) x y ∧ y.t.iszero = true := by
  -- the exponent of 3 decreases, or it stays and the remainder does
  induction measure : (x.b_temp, x.t.toNat) using (Prod.lex ⟨(· < ·), wellFounded_lt⟩
    ⟨(· < ·), wellFounded_lt⟩ : WellFoundedRelation (ℕ × ℕ)).wf.induction generalizing x with
  | _ m ih =>
    subst measure
    by_cases zero : x.t.iszero = true
    · exact ⟨x, .refl, zero⟩
    · have turn : Turn window minus pow23_all x _ := ⟨by simpa using zero, rfl⟩
      obtain ⟨y, run, finished⟩ := ih _ (Prod.lex_def.mpr (descends x _ .refl turn))
        (fun u v run last => descends u v (.head turn run) last) rfl
      exact ⟨y, .head turn run, finished⟩

/-- The turns of a search that subtracts correctly leave the exact distances. -/
theorem Clean.remainder (exact : ExactWhen minus ok) (tables : Exact pow23_all)
    (fits : 2 ^ x.a * 3 ^ x.b_temp < (2 ^ 32) ^ INTS) (clean : Clean ok window minus pow23_all x) {z : Greedy INTS}
    (run : Relation.ReflTransGen (Turn window minus pow23_all) x y) (turn : Turn window minus pow23_all y z) :
    z.t.toNat = gap y.t z.a z.b_temp := by
  have below := steps_le (steps_of_turns (run.tail turn))
  obtain ⟨-, rfl⟩ := id turn
  apply toNat_next exact tables _ (clean y _ run turn)
  exact lt_of_le_of_lt (Nat.mul_le_mul (Nat.pow_le_pow_right (by norm_num) below.1)
    (Nat.pow_le_pow_right (by norm_num) below.2)) fits

/-- A search whose turns leave the exact distances stores no more rows than the expansion of its remainder has terms at
most. -/
theorem stored_length_of_within (deep : 0 < window) {rows : ℕ} (within : Within window x.a x.b_temp x.t.toNat rows)
    (remainders : ∀ u v, Relation.ReflTransGen (Turn window minus pow23_all) x u → Turn window minus pow23_all u v →
      v.t.toNat = gap u.t v.a v.b_temp)
    (run : Relation.ReflTransGen (Turn window minus pow23_all) x y) : y.stored.length ≤ x.stored.length + rows := by
  induction run using Relation.ReflTransGen.head_induction_on generalizing rows with
  | refl => exact Nat.le_add_right _ _
  | @head u v turn later ih =>
    have remainder := remainders u v .refl turn
    obtain ⟨running, rfl⟩ := id turn
    have positive : 0 < u.t.toNat := by
      rw [← Bool.not_eq_true, iszero_iff] at running
      omega
    obtain ⟨rest, rfl, next⟩ := within.step deep positive (pick_nearest window u.a u.b_temp u.t)
    rw [← gap_eq_dist] at next
    have within' : Within window (u.after window minus pow23_all).a (u.after window minus pow23_all).b_temp
        (u.after window minus pow23_all).t.toNat rest := by
      rw [remainder]
      exact next
    have short := ih within' fun w w' run last => remainders w w' (.head turn run) last
    rw [stored_length_after] at short
    omega

/-- A search that subtracts correctly comes to a remainder of zero. -/
theorem Clean.ends (exact : ExactWhen minus ok) (tables : Exact pow23_all) (deep : 0 < window)
    (fits : 2 ^ x.a * 3 ^ x.b_temp < (2 ^ 32) ^ INTS) (clean : Clean ok window minus pow23_all x) :
    ∃ y, Relation.ReflTransGen (Turn window minus pow23_all) x y ∧ y.t.iszero = true := by
  apply ends_of_descends
  intro y z run turn
  exact turn.descends deep (clean.remainder exact tables fits run turn)

/-- The loop of the source reaches the end of a search that stores at most `fuel` rows more. -/
theorem loopWith_of_run (run : Relation.ReflTransGen (Turn window minus pow23_all) x y) (finished : y.t.iszero = true)
    {fuel : ℕ} (enough : y.stored.length ≤ x.stored.length + fuel) :
    loopWith minus (.exact INTS) window pow23_all fuel x = some y := by
  induction run using Relation.ReflTransGen.head_induction_on generalizing fuel with
  | refl => cases fuel <;> exact if_pos finished
  | @head u v turn rest ih =>
    have longer := stored_length_le rest
    obtain ⟨running, rfl⟩ := turn
    rw [stored_length_after] at longer ih
    cases fuel with
    | zero => omega
    | succ fuel =>
      rw [loopWith, running]
      exact ih (by omega)

/-- With exact comparisons, an exact subtraction and exact tables at the exponents the search picks, the loops of
`getSubOptimalDBC` and `getEOSDBC` end from every start, and every turn lowers the remainder or the exponent of 3. -/
theorem greedy_terminates (n : MyBigInt INTS) (a b : ℕ)
    (subtraction : ∀ u v : MyBigInt INTS, v.toNat ≤ u.toNat → (minus u v).toNat = u.toNat - v.toNat)
    (tables : ∀ x, Relation.ReflTransGen (Turn window minus pow23_all) (start n a b) x → x.t.iszero = false →
      (pow23_all (picked window x).1 (picked window x).2).toNat = 2 ^ (picked window x).1 * 3 ^ (picked window x).2)
    (depth : window ∈ [6, 4]) :
    (∃ fuel y, loopWith minus (.exact INTS) window pow23_all fuel (start n a b) = some y ∧ y.t.iszero = true) ∧
      ∀ x y, Relation.ReflTransGen (Turn window minus pow23_all) (start n a b) x → Turn window minus pow23_all x y →
        y.t.toNat < x.t.toNat ∨ y.b_temp < x.b_temp := by
  have deep : 0 < window := by
    rw [List.mem_cons, List.mem_singleton] at depth
    omega
  have descends : ∀ x y, Relation.ReflTransGen (Turn window minus pow23_all) (start n a b) x →
      Turn window minus pow23_all x y → y.b_temp < x.b_temp ∨ y.b_temp = x.b_temp ∧ y.t.toNat < x.t.toNat := by
    intro x y run turn
    apply turn.descends deep
    obtain ⟨running, rfl⟩ := id turn
    have exact : ExactWhen minus fun _ _ => True := fun u v less _ => subtraction u v less
    exact toNat_next_of_power exact (tables x run running) trivial
  constructor
  · obtain ⟨y, run, finished⟩ := ends_of_descends descends
    exact ⟨_, y, loopWith_of_run run finished (Nat.le_add_left _ _), finished⟩
  · intro x y run turn
    rcases descends x y run turn with lower | ⟨-, smaller⟩
    · exact .inr lower
    · exact .inl smaller

theorem greedy_terminates_five : let minus := fun u v : MyBigInt 9 => MyBigInt.ofNat 9 (u.toNat - v.toNat)
    (∃ fuel y, loopWith minus (.exact 9) 4 (powTable 9) fuel (start (.ofNat 9 5) 2 0) = some y ∧
        y.t.iszero = true) ∧
      ∀ x y, Relation.ReflTransGen (Turn 4 minus (powTable 9)) (start (.ofNat 9 5) 2 0) x →
        Turn 4 minus (powTable 9) x y → y.t.toNat < x.t.toNat ∨ y.b_temp < x.b_temp := by
  have subtraction : ∀ u v : MyBigInt 9, v.toNat ≤ u.toNat →
      (MyBigInt.ofNat 9 (u.toNat - v.toNat)).toNat = u.toNat - v.toNat := by
    intro u v _
    rw [toNat_ofNat]
    exact Nat.mod_eq_of_lt ((Nat.sub_le _ _).trans_lt (toNat_lt u))
  have tables : ∀ alpha ≤ 2, ∀ beta ≤ 0, (powTable 9 alpha beta).toNat = 2 ^ alpha * 3 ^ beta := by decide
  refine greedy_terminates (.ofNat 9 5) 2 0 subtraction (fun x run _ => ?_) (by decide)
  have below := steps_le (steps_of_turns run)
  have inside := pick_window (.exact 9) 4 x.a x.b_temp x.t
  exact tables _ (inside.1.trans below.1) _ (inside.2.1.trans below.2)

/-- A run of at most `fuel` turns from `x` that checks `ok` on the way to a remainder of zero. -/
def survey (ok : MyBigInt INTS → MyBigInt INTS → Prop) [∀ a b, Decidable (ok a b)] (window : ℕ)
    (minus : MyBigInt INTS → MyBigInt INTS → MyBigInt INTS) (pow23_all : ℕ → ℕ → MyBigInt INTS) :
    ℕ → Greedy INTS → Bool
  | 0, x => x.t.iszero
  | fuel + 1, x =>
    let y := x.after window minus pow23_all
    x.t.iszero || (decide (ok (x.operands pow23_all y.a y.b_temp).1 (x.operands pow23_all y.a y.b_temp).2) &&
      survey ok window minus pow23_all fuel y)

private theorem stays (zero : x.t.iszero = true) (run : Relation.ReflTransGen (Turn window minus pow23_all) x y) :
    y = x := by
  obtain rfl | ⟨y', ⟨nonzero, -⟩, -⟩ := run.cases_head
  · rfl
  · simp [zero] at nonzero

private theorem clean_of_finished (zero : x.t.iszero = true) : Clean ok window minus pow23_all x := by
  intro y z run turn
  obtain rfl := stays zero run
  exact absurd turn.1 (by simp [zero])

/-- A search is clean when its first turn and the search after it are. -/
private theorem clean_of_after (here : ok (x.operands pow23_all (picked window x).1 (picked window x).2).1
      (x.operands pow23_all (picked window x).1 (picked window x).2).2)
    (rest : Clean ok window minus pow23_all (x.after window minus pow23_all)) :
    Clean ok window minus pow23_all x := by
  intro y z run turn
  obtain rfl | ⟨y', ⟨-, rfl⟩, later⟩ := run.cases_head
  · obtain ⟨-, rfl⟩ := turn
    exact here
  · exact rest y z later turn

/-- A successful survey sees every turn of the search. -/
theorem clean_of_survey [∀ a b, Decidable (ok a b)] {fuel : ℕ}
    (passed : survey ok window minus pow23_all fuel x = true) : Clean ok window minus pow23_all x := by
  induction fuel generalizing x with
  | zero => exact clean_of_finished passed
  | succ fuel ih =>
    by_cases zero : x.t.iszero = true
    · exact clean_of_finished zero
    · simp only [survey, zero, Bool.false_or, Bool.and_eq_true, decide_eq_true_eq] at passed
      exact clean_of_after passed.1 (ih passed.2)

/-! ## The expansion that a search follows -/

/-- The operands of a turn are the remainder and the product. -/
private theorem operands_eq {alpha beta : ℕ} (power : (pow23_all alpha beta).toNat = 2 ^ alpha * 3 ^ beta) :
    x.operands pow23_all alpha beta =
      (.ofNat INTS (max x.t.toNat (2 ^ alpha * 3 ^ beta)), .ofNat INTS (min x.t.toNat (2 ^ alpha * 3 ^ beta))) := by
  rw [operands, ← power]
  by_cases above : x.t.ge (pow23_all alpha beta) = true
  · have below := (ge_iff _ _).mp above
    rw [if_pos above, max_eq_left below, min_eq_right below, ofNat_toNat, ofNat_toNat]
  · have beyond := above
    rw [ge_iff, not_le] at beyond
    rw [if_neg above, max_eq_right beyond.le, min_eq_left beyond.le, ofNat_toNat, ofNat_toNat]

private theorem picked_of_nearest {alpha beta : ℕ} (near : Nearest window x.a x.b_temp x.t.toNat alpha beta) :
    picked window x = (alpha, beta) := by
  obtain ⟨left, right⟩ := (pick_nearest window x.a x.b_temp x.t).unique near
  exact Prod.ext left right

/-- Where its subtractions are exact, the search takes one turn for each term of the expansion and stops. -/
theorem run_of_expansion (exact : ExactWhen minus ok) (tables : Exact pow23_all)
    (fits : 2 ^ x.a * 3 ^ x.b_temp < (2 ^ 32) ^ INTS) {terms : List (ℕ × ℕ)}
    (expansion : Expansion window x.a x.b_temp x.t.toNat terms)
    (clean : ∀ u ∈ subtractions x.t.toNat terms, ok (.ofNat INTS u.1) (.ofNat INTS u.2)) :
    Clean ok window minus pow23_all x ∧ ∃ y, Relation.ReflTransGen (Turn window minus pow23_all) x y ∧
      y.t.iszero = true ∧ y.stored.length = x.stored.length + terms.length := by
  induction terms generalizing x with
  | nil =>
    have zero : x.t.iszero = true := (iszero_iff x.t).mpr expansion
    exact ⟨clean_of_finished zero, x, .refl, zero, rfl⟩
  | cons term terms ih =>
    obtain ⟨alpha, beta⟩ := term
    obtain ⟨nonzero, near, rest⟩ := expansion
    have running : x.t.iszero = false := by rwa [← Bool.not_eq_true, iszero_iff]
    have pick := picked_of_nearest near
    have smaller : 2 ^ alpha * 3 ^ beta < (2 ^ 32) ^ INTS := near.inside.product_le.trans_lt fits
    have here : ok (x.operands pow23_all alpha beta).1 (x.operands pow23_all alpha beta).2 := by
      rw [operands_eq (tables alpha beta smaller)]
      exact clean _ List.mem_cons_self
    have next : x.after window minus pow23_all = x.next minus pow23_all alpha beta := by rw [after, pick]
    have remainder := toNat_next exact tables smaller here
    rw [gap_eq_dist] at remainder
    obtain ⟨later, y, run, finished, length⟩ := ih (x := x.next minus pow23_all alpha beta) smaller
      (by rw [remainder]; exact rest) (by rw [remainder]; exact fun u member => clean u (List.mem_cons_of_mem _ member))
    refine ⟨clean_of_after (by rw [pick]; exact here) (by rw [next]; exact later), y,
      .head ⟨running, next.symm⟩ run, finished, ?_⟩
    rw [length, List.length_cons, Greedy.next, List.length_append, List.length_singleton]
    omega

/-- A survey checks the expansion of the remainder. -/
theorem expansion_of_survey [∀ a b, Decidable (ok a b)] (exact : ExactWhen minus ok) (tables : Exact pow23_all)
    (fits : 2 ^ x.a * 3 ^ x.b_temp < (2 ^ 32) ^ INTS) {fuel : ℕ}
    (passed : survey ok window minus pow23_all fuel x = true) {terms : List (ℕ × ℕ)}
    (expansion : Expansion window x.a x.b_temp x.t.toNat terms) :
    terms.length ≤ fuel ∧ ∀ u ∈ subtractions x.t.toNat terms, ok (.ofNat INTS u.1) (.ofNat INTS u.2) := by
  induction terms generalizing x fuel with
  | nil => exact ⟨Nat.zero_le fuel, fun u none => by simp [subtractions] at none⟩
  | cons term terms ih =>
    obtain ⟨alpha, beta⟩ := term
    obtain ⟨nonzero, near, rest⟩ := expansion
    have running : x.t.iszero = false := by rwa [← Bool.not_eq_true, iszero_iff]
    have pick := picked_of_nearest near
    have smaller : 2 ^ alpha * 3 ^ beta < (2 ^ 32) ^ INTS := near.inside.product_le.trans_lt fits
    cases fuel with
    | zero => simp [survey, running] at passed
    | succ fuel =>
      simp only [survey, running, Bool.false_or, Bool.and_eq_true, decide_eq_true_eq] at passed
      obtain ⟨here, later⟩ := passed
      rw [after, pick] at here later
      change ok (x.operands pow23_all alpha beta).1 (x.operands pow23_all alpha beta).2 at here
      have remainder := toNat_next exact tables smaller here
      rw [gap_eq_dist] at remainder
      rw [operands_eq (tables alpha beta smaller)] at here
      obtain ⟨short, clean⟩ := ih (x := x.next minus pow23_all alpha beta) smaller later (by rw [remainder]; exact rest)
      rw [remainder] at clean
      refine ⟨by rw [List.length_cons]; omega, fun u member => ?_⟩
      rcases List.mem_cons.mp member with rfl | behind
      · exact here
      · exact clean u behind

end Ends

/-! ## The searches of the CPU -/

section CPU

variable {pow23_all : ℕ → ℕ → MyBigInt INTS} {n : MyBigInt INTS} {a b window : ℕ} {y : Greedy INTS}

/-- The leading word of `n` leaves room for the power product that a search starts from. -/
theorem start_fits (top : n.toNat < 2 ^ (32 * (INTS - 1))) (rBound : 2 ^ a * 3 ^ b ≤ 3 * n.toNat) :
    2 ^ a * 3 ^ b < (2 ^ 32) ^ INTS := by
  have positive : 0 < 2 ^ a * 3 ^ b := by positivity
  have words : 0 < INTS := by
    by_contra none
    rw [show INTS - 1 = 0 by omega, Nat.mul_zero, pow_zero] at top
    omega
  calc 2 ^ a * 3 ^ b < 2 ^ 2 * 2 ^ (32 * (INTS - 1)) := by omega
    _ ≤ 2 ^ (32 * INTS) := by
      rw [← pow_add]
      exact Nat.pow_le_pow_right (by norm_num) (by omega)
    _ = (2 ^ 32) ^ INTS := pow_mul 2 32 INTS

/-- A greedy search whose subtractions lend as they should keeps `n` equal to the stored rows plus `s * t`,
so the rows sum to `n` when the loop ends. -/
theorem greedy_sum (tables : Exact pow23_all) (top : n.toNat < 2 ^ (32 * (INTS - 1)))
    (rBound : 2 ^ a * 3 ^ b ≤ 3 * n.toNat)
    (run : Relation.ReflTransGen
      (fun u v => Step window MyBigInt.sub pow23_all u v ∧ Subtracts NoFalseBorrow pow23_all u v) (start n a b) y) :
    (n.toNat : ℤ) = total y.stored + y.s * y.t.toNat ∧ (y.s = 1 ∨ y.s = -1) ∧
      y.stored.Pairwise (fun r r' => r'.2.1 ≤ r.2.1 ∧ r'.2.2 ≤ r.2.2) ∧
        (y.t.iszero = true → total y.stored = n.toNat) := by
  have balanced := (Balanced.start (start_fits top rBound)).run toNat_sub tables run
  refine ⟨balanced.sum, balanced.sign, balanced.descending, fun finished => ?_⟩
  rw [balanced.sum, (iszero_iff y.t).mp finished]
  simp

theorem greedy_sum_five :
    let y := ((start (.ofNat 9 5) 2 0).next MyBigInt.sub (powTable 9) 2 0).next MyBigInt.sub (powTable 9) 0 0
    ((MyBigInt.ofNat 9 5).toNat : ℤ) = total y.stored + y.s * y.t.toNat ∧ (y.s = 1 ∨ y.s = -1) ∧
      y.stored.Pairwise (fun r r' => r'.2.1 ≤ r.2.1 ∧ r'.2.2 ≤ r.2.2) ∧
        (y.t.iszero = true → total y.stored = (MyBigInt.ofNat 9 5).toNat) := by
  have first : Step 6 MyBigInt.sub (powTable 9) (start (.ofNat 9 5) 2 0)
      ((start (.ofNat 9 5) 2 0).next MyBigInt.sub (powTable 9) 2 0) :=
    ⟨by decide, 2, 0, by decide, by decide, by decide, rfl⟩
  have second : Step 6 MyBigInt.sub (powTable 9) ((start (.ofNat 9 5) 2 0).next MyBigInt.sub (powTable 9) 2 0)
      (((start (.ofNat 9 5) 2 0).next MyBigInt.sub (powTable 9) 2 0).next MyBigInt.sub (powTable 9) 0 0) :=
    ⟨by decide, 0, 0, by decide, by decide, by decide, rfl⟩
  exact greedy_sum (powTable_exact 9) (by decide) (by decide)
    (.tail (.single ⟨first, by unfold Subtracts; decide⟩) ⟨second, by unfold Subtracts; decide⟩)

/-- For `n = 2 ^ 224 - 1` the candidate `b = 70`, `a = 113` ends with rows of a different number: a word of
the remainder reads `4294967295` and lends although the words behind it do not borrow. -/
theorem greedy_false_borrow : Exact (powTable 9) ∧ (MyBigInt.ofNat 9 (2 ^ 224 - 1)).toNat < 2 ^ (32 * (9 - 1)) ∧
    2 ^ 113 * 3 ^ 70 ≤ 3 * (MyBigInt.ofNat 9 (2 ^ 224 - 1)).toNat ∧
    ∃ y, subOptimalLoop (.exact 9) (powTable 9) 40 (start (.ofNat 9 (2 ^ 224 - 1)) 113 70) = some y ∧
      Relation.ReflTransGen (Step 6 MyBigInt.sub (powTable 9)) (start (.ofNat 9 (2 ^ 224 - 1)) 113 70) y ∧
        y.t.iszero = true ∧ total y.stored ≠ (MyBigInt.ofNat 9 (2 ^ 224 - 1)).toNat := by
  refine ⟨powTable_exact 9, by decide +kernel, by decide +kernel, ?_⟩
  have wrong : ((subOptimalLoop (.exact 9) (powTable 9) 40 (start (.ofNat 9 (2 ^ 224 - 1)) 113 70)).map
      fun y => decide (total y.stored ≠ (MyBigInt.ofNat 9 (2 ^ 224 - 1)).toNat)) = some true := by decide +kernel
  obtain ⟨y, ends, differs⟩ := Option.map_eq_some_iff.mp wrong
  obtain ⟨run, finished⟩ := loopWith_run _ _ _ _ _ _ _ ends
  exact ⟨y, ends, run, finished, of_decide_eq_true differs⟩

end CPU

end Greedy

end DbcSnark.DBCTest
