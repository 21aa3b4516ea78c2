import DbcSnark.Model.DBCTest.EcPointMul
import DbcSnark.Proofs.DBCTest.PointMul
import DbcSnark.Proofs.Ec.PointOps
import DbcSnark.ToMathlib.Loops

/-! # The scalar multiplications on coordinates

The evaluators on stored points follow those in an abelian group: every point they write stays a well-formed
representation. The triplings need a clear flag. A copied normalised point has it set, and it is copied when it is added
to infinity.
-/

namespace DbcSnark.DBCTest.OnPoints

open Ec DoubleBase

variable {p : ℕ} [Fact p.Prime] {group : SimpleGroup p} {c : ZMod p} {P Q : (group.curve c).Point}
  {m m₀ : Points (ZMod p)} {r a s : ℕ}

/-- The flag is set for finite points only. -/
private theorem ne_zero_of_flag {x : EC_POINT (ZMod p)} (point : group.Represents x P) (set : x.Z_is_one = true) :
    P ≠ 0 := by
  rw [ne_eq, ← point.holds.eq_zero_iff, point.flag set]
  exact one_ne_zero

/-- The opposite of a point in a new one. -/
private theorem opposite_spec (point : group.Represents (m a) P) (fresh : s ≠ a) :
    let m' := ossl_ec_GFp_simple_invert (EC_POINT_copy (ossl_ec_GFp_simple_point_init m s) s a) s
    Leaves group m m' s (-P) ∧ (m' s).Z_is_one = (m a).Z_is_one := by
  intro m'
  have copied : EC_POINT_copy (ossl_ec_GFp_simple_point_init m s) s a = Function.update m s (m a) := by
    rw [EC_POINT_copy, ossl_ec_GFp_simple_point_init, Function.update_idem, Function.update_of_ne fresh.symm]
  have stored : group.Represents (Function.update m s (m a) s) P := by
    rw [Function.update_self]
    exact point
  obtain ⟨inverted, flag⟩ := invert_leaves stored
  have same : m' = ossl_ec_GFp_simple_invert (Function.update m s (m a)) s := by rw [← copied]
  rw [same]
  refine ⟨⟨inverted.stored, fun i other => ?_⟩, ?_⟩
  · rw [inverted.others i other, Function.update_of_ne other]
  · rw [flag, Function.update_self]

/-- The result is a well-formed representation of the point, its flag is clear when a tripling is left to make, and
nothing else was written. -/
structure Result (group : SimpleGroup p) (m₀ : Points (ZMod p)) (r triplings : ℕ) (m : Points (ZMod p))
    (R : (group.curve c).Point) : Prop where
  stored : group.Represents (m r) R
  clear : (m r).Z_is_one = true → triplings = 0
  others : ∀ i ≠ r, m i = m₀ i

namespace Result

variable {R : (group.curve c).Point} {triplings : ℕ}

theorem dbl (result : Result group m₀ r triplings m R) :
    Result group m₀ r triplings (ossl_ec_GFp_simple_dbl group m r r) (R + R) := by
  obtain ⟨doubled, clear⟩ := dbl_leaves (r := r) result.stored
  refine ⟨doubled.stored, fun set => ?_, fun i other => (doubled.others i other).trans (result.others i other)⟩
  exact absurd set (by rw [clear]; exact Bool.false_ne_true)

theorem tpl (result : Result group m₀ r (triplings + 1) m R) :
    Result group m₀ r triplings (ossl_ec_GFp_simple_tpl group.toEC_GROUP m r r) (R + R + R) := by
  have unset : (m r).Z_is_one = false := Bool.not_eq_true _ ▸ fun set => Nat.succ_ne_zero _ (result.clear set)
  obtain ⟨tripled, clear⟩ := tpl_leaves result.stored unset
  refine ⟨tripled.stored, fun set => ?_, fun i other => (tripled.others i other).trans (result.others i other)⟩
  exact absurd set (by rw [clear]; exact Bool.false_ne_true)

/-- The addition of another point, unless a normalised point is added to infinity with a tripling left. -/
theorem add (result : Result group m₀ r triplings m R) (point : group.Represents (m₀ a) P) (apart : a ≠ r)
    (normal : (m₀ a).Z_is_one = true → triplings ≠ 0 → R ≠ 0) :
    Result group m₀ r triplings (ossl_ec_GFp_simple_add group m r r a) (R + P) := by
  have there : group.Represents (m a) P := by rwa [result.others a apart]
  obtain ⟨sum, flag⟩ := add_leaves (r := r) result.stored there
  refine ⟨sum.stored, fun set => ?_, fun i other => (sum.others i other).trans (result.others i other)⟩
  rcases flag set with ⟨infinite, copied⟩ | ⟨-, kept⟩
  · rw [result.others a apart] at copied
    by_contra left
    exact normal copied left infinite
  · exact result.clear kept

end Result

namespace Descent

/-- The result and the exponents follow those of the evaluator in the group. -/
structure Follows (group : SimpleGroup p) (m₀ : Points (ZMod p)) (r : ℕ) (st : Descent p)
    (st' : DBCTest.Descent (group.curve c).Point) : Prop where
  result : Result group m₀ r st'.now_tpl st.m st'.r
  dbl : st.now_dbl = st'.now_dbl
  tpl : st.now_tpl = st'.now_tpl

variable {st : Descent p} {st' : DBCTest.Descent (group.curve c).Point}

private theorem Follows.step (follows : Follows group m₀ r st st') (dbl tpl : ℕ) :
    Follows group m₀ r (step group r dbl tpl st) (DBCTest.Descent.step dbl tpl st') := by
  unfold Descent.step DBCTest.Descent.step
  rw [follows.dbl, follows.tpl]
  split_ifs with doubles triples
  · exact ⟨follows.result.dbl, rfl, rfl⟩
  · have left : st'.now_tpl = st'.now_tpl - 1 + 1 := by omega
    exact ⟨(left ▸ follows.result : Result group m₀ r (st'.now_tpl - 1 + 1) st.m st'.r).tpl, rfl, rfl⟩
  · exact follows

theorem Follows.descend (follows : Follows group m₀ r st st') (dbl tpl : ℕ) :
    Follows group m₀ r (descend group r dbl tpl st) (DBCTest.Descent.descend dbl tpl st') := by
  unfold Descent.descend DBCTest.Descent.descend
  rw [follows.dbl, follows.tpl]
  exact Loops.iterate_rel (fun _ _ follows => follows.step dbl tpl) _ follows

/-- The body of the loop, at the state before its addition. -/
theorem Follows.term (follows : Follows group m₀ r st st') (point : group.Represents (m₀ a) P)
    (opposite : group.Represents (m₀ s) (-P)) (flags : (m₀ s).Z_is_one = (m₀ a).Z_is_one) (apart : a ≠ r) (apart' : s ≠ r)
    (row : ℤ × ℕ × ℕ) (normal : (m₀ a).Z_is_one = true → (DBCTest.Descent.descend row.2.1 row.2.2 st').now_tpl ≠ 0 →
      (DBCTest.Descent.descend row.2.1 row.2.2 st').r ≠ 0) :
    Follows group m₀ r (term group r a s st row) (DBCTest.Descent.term P (-P) st' row) := by
  have descended := follows.descend row.2.1 row.2.2
  unfold Descent.term DBCTest.Descent.term
  dsimp only
  split_ifs
  · exact ⟨descended.result.add opposite apart' (flags ▸ normal), descended.dbl, descended.tpl⟩
  · exact ⟨descended.result.add point apart normal, descended.dbl, descended.tpl⟩

theorem Follows.finish (follows : Follows group m₀ r st st') : Result group m₀ r 0 (finish group r st) st'.finish := by
  unfold Descent.finish DBCTest.Descent.finish
  rw [follows.dbl, follows.tpl]
  have doubled := Loops.iterate_rel (fun _ _ result => result.dbl) st'.now_dbl follows.result
  generalize (fun m => ossl_ec_GFp_simple_dbl group m r r)^[st'.now_dbl] st.m = m,
    (fun R => R + R)^[st'.now_dbl] st'.r = R, st'.now_tpl = triplings at doubled
  induction triplings generalizing m R with
  | zero => exact doubled
  | succ triplings ih => exact ih _ _ doubled.tpl

/-- No initial part of the chain before a term with a power of three annihilates the point, where `rest` comes after
terms of the sum `sum`. -/
def Partial (P : (group.curve c).Point) (sum : ℤ) (rest : List Chain) : Prop :=
  ∀ earlier x later, rest = earlier ++ x :: later → x.tpl ≠ 0 → (sum + value earlier) • P ≠ 0

/-- The loop over the terms, when the point is not normalised or no partial sum annihilates it. -/
theorem Follows.foldl (follows : Follows group m₀ r st st') (point : group.Represents (m₀ a) P)
    (opposite : group.Represents (m₀ s) (-P)) (flags : (m₀ s).Z_is_one = (m₀ a).Z_is_one) (apart : a ≠ r) (apart' : s ≠ r)
    (rest : List Chain) (descending : rest.Pairwise fun x y => y.dbl ≤ x.dbl ∧ y.tpl ≤ x.tpl) {sum : ℤ}
    (holds : DBCTest.Descent.Holds P sum st') (below : ∀ x ∈ rest, x.dbl ≤ st'.now_dbl ∧ x.tpl ≤ st'.now_tpl)
    (normal : (m₀ a).Z_is_one = true → Partial P sum rest) :
    Follows group m₀ r ((rest.map row).foldl (Descent.term group r a s) st)
      ((rest.map row).foldl (DBCTest.Descent.term P (-P)) st') := by
  induction rest generalizing sum st st' with
  | nil => exact follows
  | cons x rest ih =>
    obtain ⟨first, later⟩ := List.pairwise_cons.mp descending
    have here := below x List.mem_cons_self
    obtain ⟨⟨z, multiple, scaled⟩, -, exponent⟩ := DBCTest.Descent.descend_spec holds here.1 here.2
    obtain ⟨next, dbl, tpl⟩ := DBCTest.Descent.term_spec holds here.1 here.2
    rw [List.map_cons, List.foldl_cons, List.foldl_cons]
    refine ih (follows.term point opposite flags apart apart' _ fun set left infinite => ?_) later next
      (fun y member => ?_) fun set earlier y later split triples => ?_
    · apply normal set [] x rest rfl (exponent ▸ left)
      have annihilated : z • P = 0 := multiple.symm.trans infinite
      rw [value_nil, add_zero, ← scaled, mul_comm, mul_zsmul, annihilated, zsmul_zero]
    · rw [dbl, tpl]
      exact first y member
    · have apart := normal set (x :: earlier) y later (by rw [split, List.cons_append]) triples
      rwa [value_cons, ← add_assoc] at apart

end Descent

/-- No initial part of the chain that a tripling follows annihilates the point, nor does two. -/
structure Proper {A : Type*} [AddCommGroup A] (P : A) (chain : List Chain) : Prop where
  double : P + P ≠ 0
  initial : ∀ earlier x later, chain = earlier ++ x :: later → earlier ≠ [] → x.tpl ≠ 0 → value earlier • P ≠ 0

/-- The evaluator of `functions.h` on a stored staircase leaves a well-formed representation of the multiple, for every
point that is not normalised and for a normalised one that no initial part of the chain annihilates. -/
theorem DBC_POINT_mul_result {chain : List Chain} (staircase : IsStaircase chain) {DBC_store : ℕ → ℕ → ℤ × ℕ × ℕ}
    {DBC_len : ℕ → ℕ} {min_index : ℕ}
    (stored : (List.range (DBC_len min_index)).map (DBC_store min_index) = chain.map row)
    (point : group.Represents (m a) P) (apart : a ≠ r) (fresh : s ≠ a) (fresh' : s ≠ r)
    (normal : (m a).Z_is_one = true → Proper P chain) :
    let m' := DBC_POINT_mul group DBC_store DBC_len m s r a min_index
    group.Represents (m' r) (value chain • P) ∧ ∀ i, i ≠ r → i ≠ s → m' i = m i := by
  obtain ⟨opposite, flag⟩ := opposite_spec point fresh
  obtain ⟨m₁, setup⟩ : ∃ m₁, m₁ =
    ossl_ec_GFp_simple_invert (EC_POINT_copy (ossl_ec_GFp_simple_point_init m s) s a) s := ⟨_, rfl⟩
  rw [← setup] at opposite flag
  have same := opposite.others a fresh.symm
  have there : group.Represents (m₁ a) P := by rwa [same]
  have flags : (m₁ s).Z_is_one = (m₁ a).Z_is_one := by rw [flag, same]
  obtain ⟨x, rest, rfl, plus⟩ := staircase.leading
  obtain ⟨first, below⟩ := List.pairwise_cons.mp staircase.descending
  have product := DBC_POINT_mul_spec staircase stored P
  have length : DBC_len min_index = rest.length + 1 := by
    simpa using congrArg List.length stored
  rw [length, List.range_succ_eq_map, List.map_cons, List.map_cons, List.cons.injEq, List.map_map] at stored
  obtain ⟨doubled, unset⟩ := add_leaves (r := r) there there
  have start : Result group m₁ r x.tpl (ossl_ec_GFp_simple_add group m₁ r a a) (P + P) := by
    refine ⟨doubled.stored, fun set => ?_, doubled.others⟩
    rcases unset set with ⟨infinite, normalised⟩ | ⟨infinite, normalised⟩
    all_goals exact absurd infinite (ne_zero_of_flag there normalised)
  have once := start.add opposite.stored fresh' fun set _ => (normal (by rw [← flag, set])).double
  have holds : DBCTest.Descent.Holds P x.value ⟨P + P + -P, (DBC_store min_index 0).2.1, (DBC_store min_index 0).2.2⟩ := by
    refine ⟨1, by rw [one_zsmul, add_neg_cancel_right], ?_⟩
    rw [stored.1]
    simp [row, Term.value, Term.weight, plus]
  have follows : Descent.Follows group m₁ r
      ⟨ossl_ec_GFp_simple_add group (ossl_ec_GFp_simple_add group m₁ r a a) r r s, (DBC_store min_index 0).2.1,
        (DBC_store min_index 0).2.2⟩ ⟨P + P + -P, (DBC_store min_index 0).2.1, (DBC_store min_index 0).2.2⟩ := by
    refine ⟨?_, rfl, rfl⟩
    rw [stored.1]
    exact once
  have run := (follows.foldl there opposite.stored flags apart fresh' rest below holds
    (fun y member => by rw [stored.1]; exact first y member) fun set earlier y later split triples => by
      have proper := (normal (by rw [← same, set])).initial (x :: earlier) y later (by rw [split, List.cons_append])
        (List.cons_ne_nil _ _) triples
      rwa [value_cons] at proper).finish
  rw [DBCTest.DBC_POINT_mul, length, Nat.add_sub_cancel] at product
  rw [← stored.2, List.foldl_map, List.foldl_map] at run
  intro m'
  have result : Result group m₁ r 0 m' (value (x :: rest) • P) := by
    change Result group m₁ r 0 (DBC_POINT_mul group DBC_store DBC_len m s r a min_index) _
    rw [DBC_POINT_mul, length, Nat.add_sub_cancel, ← setup, ← product]
    exact run
  exact ⟨result.stored, fun i other other' => (result.others i other).trans (opposite.others i other')⟩

namespace Ascent

/-- The running multiple, its exponents and the result follow those of the evaluator in the group, the flag of the
multiple is clear, and nothing else was written. -/
structure Follows (group : SimpleGroup p) (m₀ : Points (ZMod p)) (r s : ℕ) (st : Ascent p)
    (st' : DBCTest.Ascent (group.curve c).Point) : Prop where
  multiple : group.Represents (st.m s) st'.mult_points
  clear : (st.m s).Z_is_one = false
  result : group.Represents (st.m r) st'.r
  others : ∀ i, i ≠ r → i ≠ s → st.m i = m₀ i
  dbl : st.now_dbl = st'.now_dbl
  tpl : st.now_tpl = st'.now_tpl
  first : st.first = st'.first

namespace Follows

variable {st : Ascent p} {st' : DBCTest.Ascent (group.curve c).Point}

/-- A step on the running multiple. -/
private theorem of_leaves (follows : Follows group m₀ r s st st') (apart : s ≠ r) {m : Points (ZMod p)}
    {T : (group.curve c).Point} (leaves : Leaves group st.m m s T) (clear : (m s).Z_is_one = false) (dbl tpl : ℕ) :
    Follows group m₀ r s { st with m, now_dbl := dbl, now_tpl := tpl }
      { st' with mult_points := T, now_dbl := dbl, now_tpl := tpl } := by
  refine ⟨leaves.stored, clear, ?_, fun i other other' => ?_, rfl, rfl, follows.first⟩
  · dsimp only
    rw [leaves.others r apart.symm]
    exact follows.result
  · exact (leaves.others i other').trans (follows.others i other other')

private theorem step (follows : Follows group m₀ r s st st') (apart : s ≠ r) (dbl tpl : ℕ) :
    Follows group m₀ r s (Ascent.step group s dbl tpl st) (DBCTest.Ascent.step dbl tpl st') := by
  unfold Ascent.step DBCTest.Ascent.step
  rw [follows.dbl, follows.tpl]
  split_ifs
  · obtain ⟨doubled, clear⟩ := dbl_leaves (r := s) follows.multiple
    rw [← follows.tpl]
    exact follows.of_leaves apart doubled clear _ _
  · obtain ⟨tripled, clear⟩ := tpl_leaves follows.multiple follows.clear
    rw [← follows.dbl]
    exact follows.of_leaves apart tripled clear _ _
  · exact follows

theorem climb (follows : Follows group m₀ r s st st') (apart : s ≠ r) (dbl tpl : ℕ) :
    Follows group m₀ r s (Ascent.climb group s dbl tpl st) (DBCTest.Ascent.climb dbl tpl st') := by
  unfold Ascent.climb DBCTest.Ascent.climb
  rw [follows.dbl, follows.tpl]
  exact Loops.iterate_rel (fun _ _ follows => follows.step apart dbl tpl) _ follows

private theorem invert (follows : Follows group m₀ r s st st') (apart : s ≠ r) :
    Follows group m₀ r s { st with m := ossl_ec_GFp_simple_invert st.m s } { st' with mult_points := -st'.mult_points } := by
  obtain ⟨inverted, flag⟩ := invert_leaves follows.multiple
  refine ⟨inverted.stored, flag.trans follows.clear, ?_, fun i other other' => ?_, follows.dbl, follows.tpl, follows.first⟩
  · dsimp only
    rw [inverted.others r apart.symm]
    exact follows.result
  · exact (inverted.others i other').trans (follows.others i other other')

/-- The result after a term, copied for the first one. -/
private theorem collect (follows : Follows group m₀ r s st st') (apart : s ≠ r) :
    Follows group m₀ r s
      (if st.first then { st with m := EC_POINT_copy st.m r s, first := false }
        else { st with m := ossl_ec_GFp_simple_add group st.m r r s })
      (if st'.first then { st' with r := st'.mult_points, first := false }
        else { st' with r := st'.r + st'.mult_points }) := by
  rw [follows.first]
  split_ifs
  · have copied := copy_leaves (r := r) follows.multiple
    refine ⟨?_, ?_, copied.stored, fun i other other' => (copied.others i other).trans (follows.others i other other'),
      follows.dbl, follows.tpl, rfl⟩
    all_goals
      dsimp only
      rw [copied.others s apart]
    exacts [follows.multiple, follows.clear]
  · obtain ⟨sum, -⟩ := add_leaves (r := r) follows.result follows.multiple
    refine ⟨?_, ?_, sum.stored, fun i other other' => (sum.others i other).trans (follows.others i other other'),
      follows.dbl, follows.tpl, rfl⟩
    all_goals
      dsimp only
      rw [sum.others s apart]
    exacts [follows.multiple, follows.clear]

theorem term (follows : Follows group m₀ r s st st') (apart : s ≠ r) (x : Chain) :
    Follows group m₀ r s (Ascent.term group r s st x) (DBCTest.Ascent.term st' x) := by
  have climbed := follows.climb apart x.dbl x.tpl
  unfold Ascent.term DBCTest.Ascent.term
  dsimp only
  cases x.minus
  · exact climbed.collect apart
  · exact ((climbed.invert apart).collect apart).invert apart

end Follows

end Ascent

/-- The evaluator of `optimal_DBC2.cpp` on a stored staircase leaves a well-formed representation of the multiple, unless
the point is normalised and of order two. -/
theorem DBC2_POINT_mul_result {chain : List Chain} (staircase : IsStaircase chain) {w_min : OptimalDBC}
    {now_DBC : ℕ → Chain} (present : w_min.isNULL = false)
    (reversed : (List.range w_min.length).map now_DBC = chain.reverse) {R : (group.curve c).Point}
    (result : group.Represents (m r) R) (point : group.Represents (m a) P) (fresh : s ≠ a) (fresh' : s ≠ r)
    (normal : (m a).Z_is_one = true → P + P ≠ 0) :
    let m' := DBC2_POINT_mul group w_min now_DBC m s r a
    group.Represents (m' r) (value chain • P) ∧ ∀ i, i ≠ r → i ≠ s → m' i = m i := by
  have product := DBC2_POINT_mul_spec staircase present reversed R P
  have nonempty : ¬ (w_min.isNULL = true ∨ w_min.length = 0) := by
    rintro (missing | empty)
    · exact absurd missing (by rw [present]; exact Bool.false_ne_true)
    · obtain ⟨x, rest, rfl, -⟩ := staircase.leading
      have length : w_min.length = rest.length + 1 := by simpa using congrArg List.length reversed
      omega
  have allocated : ∀ i ≠ s, ossl_ec_GFp_simple_point_init m s i = m i := fun i other => Function.update_of_ne other _ _
  have there : group.Represents (ossl_ec_GFp_simple_point_init m s a) P := by rwa [allocated a fresh.symm]
  obtain ⟨doubled, unset⟩ := add_leaves (r := s) there there
  obtain ⟨inverted, same⟩ := invert_leaves doubled.stored
  have kept : group.Represents (ossl_ec_GFp_simple_invert (ossl_ec_GFp_simple_add group
      (ossl_ec_GFp_simple_point_init m s) s a a) s a) P := by
    rwa [inverted.others a fresh.symm, doubled.others a fresh.symm]
  obtain ⟨sum, unset'⟩ := add_leaves (r := s) inverted.stored kept
  obtain ⟨multiple, same'⟩ := invert_leaves sum.stored
  obtain ⟨m₁, setup⟩ : ∃ m₁, m₁ = ossl_ec_GFp_simple_invert (ossl_ec_GFp_simple_add group (ossl_ec_GFp_simple_invert
    (ossl_ec_GFp_simple_add group (ossl_ec_GFp_simple_point_init m s) s a a) s) s s a) s := ⟨_, rfl⟩
  have others : ∀ i ≠ s, m₁ i = m i := by
    intro i other
    rw [setup, multiple.others i other, sum.others i other, inverted.others i other, doubled.others i other,
      allocated i other]
  have clear : (m₁ s).Z_is_one = false := by
    rw [setup, same']
    refine Bool.not_eq_true _ ▸ fun set => ?_
    rcases unset' set with ⟨infinite, copied⟩ | ⟨infinite, copied⟩
    · rw [inverted.others a fresh.symm, doubled.others a fresh.symm, allocated a fresh.symm] at copied
      exact normal copied (neg_eq_zero.mp infinite)
    · rw [same] at copied
      rcases unset copied with ⟨-, normalised⟩ | ⟨-, normalised⟩
      all_goals exact ne_zero_of_flag there normalised infinite
  have start : Ascent.Follows group m₁ r s ⟨m₁, 0, 0, true⟩ ⟨-(-(P + P) + P), 0, 0, true, R⟩ := by
    refine ⟨?_, clear, ?_, fun _ _ _ => rfl, rfl, rfl, rfl⟩
    · rw [setup]
      exact multiple.stored
    · dsimp only
      rwa [others r fresh'.symm]
  have run := List.foldl_rel (r := Ascent.Follows group m₁ r s) (l := List.range w_min.length)
    (f := fun st i => Ascent.term group r s st (now_DBC i)) (g := fun st' i => DBCTest.Ascent.term st' (now_DBC i)) start
    fun i _ _ _ follows => follows.term fresh' (now_DBC i)
  rw [DBCTest.DBC2_POINT_mul, if_neg nonempty] at product
  intro m'
  have after : m' = ((List.range w_min.length).foldl (fun st i => Ascent.term group r s st (now_DBC i))
      ⟨m₁, 0, 0, true⟩).m := by
    change DBC2_POINT_mul group w_min now_DBC m s r a = _
    rw [DBC2_POINT_mul, if_neg nonempty, setup]
  rw [after, ← product]
  exact ⟨run.result, fun i other other' => (run.others i other other').trans (others i other')⟩

section Binary

/-- A fresh copy of a point. -/
private theorem copy_spec (point : group.Represents (m a) P) (fresh : s ≠ a) :
    Leaves group m (EC_POINT_copy (ossl_ec_GFp_simple_point_init m s) s a) s P := by
  rw [EC_POINT_copy, ossl_ec_GFp_simple_point_init, Function.update_idem, Function.update_of_ne fresh.symm]
  exact .of_update point

/-- The loop of the binary method follows the one in the group. -/
theorem binaryLoop_follows {R T : (group.curve c).Point} (apart : s ≠ r) (n TTV : ℕ) (result : group.Represents (m r) R)
    (multiple : group.Represents (m s) T) :
    let after := binaryLoop group r s n m TTV
    let after' := DBCTest.binaryLoop n R T TTV
    group.Represents (after.1 r) after'.1 ∧ after.2 = after'.2 ∧ ∀ i, i ≠ r → i ≠ s → after.1 i = m i := by
  induction n using Nat.strong_induction_on generalizing m R T TTV with
  | _ n ih =>
    rw [binaryLoop, DBCTest.binaryLoop]
    by_cases zero : n = 0
    · rw [if_pos zero, if_pos zero]
      exact ⟨result, rfl, fun _ _ _ => rfl⟩
    · have smaller : n / 2 < n := by omega
      simp only [if_neg zero]
      split_ifs
      · obtain ⟨doubled, -⟩ := dbl_leaves (r := s) multiple
        have kept : group.Represents (ossl_ec_GFp_simple_dbl group m s s r) R := by
          rwa [doubled.others r apart.symm]
        obtain ⟨stored, time, others⟩ := ih (n / 2) smaller (TTV + 7) kept doubled.stored
        exact ⟨stored, time, fun i other other' => (others i other other').trans (doubled.others i other')⟩
      · obtain ⟨sum, -⟩ := add_leaves (r := r) result multiple
        have kept : group.Represents (ossl_ec_GFp_simple_add group m r r s s) T := by
          rwa [sum.others s apart]
        obtain ⟨doubled, -⟩ := dbl_leaves (r := s) kept
        have kept' : group.Represents (ossl_ec_GFp_simple_dbl group (ossl_ec_GFp_simple_add group m r r s) s s r)
          (R + T) := by
          rw [doubled.others r apart.symm]
          exact sum.stored
        obtain ⟨stored, time, others⟩ := ih (n / 2) smaller (TTV + 15 + 7) kept' doubled.stored
        refine ⟨stored, time, fun i other other' => ?_⟩
        rw [others i other other', doubled.others i other', sum.others i other]

/-- The binary method leaves the sum of what the result held and the multiple of the point, normalised or not. -/
theorem binary_POINT_mul_result {R : (group.curve c).Point} (result : group.Represents (m r) R)
    (point : group.Represents (m a) P) (fresh : s ≠ a) (fresh' : s ≠ r) (hexwords : String) :
    let after := binary_POINT_mul group m s r a hexwords
    group.Represents (after.1 r) (R + (BN_hex2bn hexwords).natAbs • P) ∧
      ∀ i, i ≠ r → i ≠ s → after.1 i = m i := by
  have copied := copy_spec point fresh
  have kept : group.Represents (EC_POINT_copy (ossl_ec_GFp_simple_point_init m s) s a r) R := by
    rwa [copied.others r fresh'.symm]
  obtain ⟨stored, -, others⟩ := binaryLoop_follows fresh' (BN_hex2bn hexwords).natAbs 0 kept copied.stored
  rw [DBCTest.binaryLoop_spec] at stored
  exact ⟨stored, fun i other other' => (others i other other').trans (copied.others i other')⟩

end Binary

section Naf

variable {R : (group.curve c).Point}

private theorem nafStep_follows (point : group.Represents (m₀ a) P) (opposite : group.Represents (m₀ s) (-P)) (apart : a ≠ r)
    (apart' : s ≠ r) {st : Points (ZMod p) × ℕ} {st' : (group.curve c).Point × ℕ} (d : ℤ)
    (follows : Leaves group m₀ st.1 r st'.1) :
    Leaves group m₀ (nafStep group r a s st d).1 r (DBCTest.nafStep P (-P) st' d).1 := by
  have join {m : Points (ZMod p)} {b : ℕ} {Q R : (group.curve c).Point} (result : Leaves group m₀ m r R)
      (point : group.Represents (m₀ b) Q) (apart : b ≠ r) :
      Leaves group m₀ (ossl_ec_GFp_simple_add group m r r b) r (R + Q) := by
    obtain ⟨sum, -⟩ := add_leaves (r := r) result.stored (b := b) (by rwa [result.others b apart])
    exact ⟨sum.stored, fun i other => (sum.others i other).trans (result.others i other)⟩
  obtain ⟨doubled, -⟩ := dbl_leaves (r := r) follows.stored
  have twice : Leaves group m₀ (ossl_ec_GFp_simple_dbl group st.1 r r) r (st'.1 + st'.1) :=
    ⟨doubled.stored, fun i other => (doubled.others i other).trans (follows.others i other)⟩
  unfold nafStep DBCTest.nafStep
  dsimp only
  split_ifs
  · exact join (join twice point apart) opposite apart'
  · exact join twice opposite apart'
  · exact join twice point apart
  · exact twice

/-- The signed-digit method leaves the multiple for every positive scalar, for a point that is normalised or not. -/
theorem NAF_POINT_mul_result (point : group.Represents (m a) P) (apart : a ≠ r) (fresh : s ≠ a) (fresh' : s ≠ r)
    {hexwords : String} {k : ℕ} (scalar : BN_hex2bn hexwords = k) (positive : k ≠ 0) :
    ∃ after, NAF_POINT_mul group m s r a hexwords = some after ∧ group.Represents (after.1 r) (k • P) ∧
      ∀ i, i ≠ r → i ≠ s → after.1 i = m i := by
  obtain ⟨opposite, -⟩ := opposite_spec point fresh
  obtain ⟨m₁, setup⟩ : ∃ m₁, m₁ =
    ossl_ec_GFp_simple_invert (EC_POINT_copy (ossl_ec_GFp_simple_point_init m s) s a) s := ⟨_, rfl⟩
  rw [← setup] at opposite
  have there : group.Represents (m₁ a) P := by rwa [opposite.others a fresh.symm]
  have start : Leaves group m₁ (EC_POINT_copy m₁ r a) r P := copy_leaves there
  have run : Leaves group m₁ (((int_to_naf k).tail.foldl (nafStep group r a s) (EC_POINT_copy m₁ r a, 0)).1) r
      (((int_to_naf k).tail.foldl (DBCTest.nafStep P (-P)) (P, 0)).1) :=
    List.foldl_rel (r := fun (st : Points (ZMod p) × ℕ) (st' : (group.curve c).Point × ℕ) => Leaves group m₁ st.1 r st'.1)
      start fun d _ _ _ follows => nafStep_follows there opposite.stored apart fresh' d follows
  rw [naf_of_ne_zero P k positive] at run
  refine ⟨_, ?_, run.stored, fun i other other' => (run.others i other).trans (opposite.others i other')⟩
  rw [NAF_POINT_mul, scalar, setup]

end Naf

end DbcSnark.DBCTest.OnPoints
