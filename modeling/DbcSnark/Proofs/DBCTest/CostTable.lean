import DbcSnark.Model.DBCTest.CostTable
import DbcSnark.Proofs.DBCTest.MSMTest
import DbcSnark.Proofs.DBCTest.NonAdjacent
import DbcSnark.ToMathlib.ChainCost

/-! # The cost table

Every estimate is the cost of an evaluation of the scalar, so none is below the one for the chain of `getOptimalDBC`. A
greedy search returns the cheapest of its candidates, and a larger limit only adds candidates. The signed-digit form has
the least weight and at most one digit more than the number has bits.
-/

namespace DbcSnark.DBCTest

open DoubleBase MyBigInt

theorem IsStaircase.ne_nil {chain : List Chain} (staircase : IsStaircase chain) : chain ≠ [] := by
  obtain ⟨leading, rest, rfl, -⟩ := staircase.leading
  exact List.cons_ne_nil _ _

namespace CostTable

open Ec EC_GROUP OnPoints MSMTest

/-! ## The estimates -/

section Estimates

variable {INTS n : ℕ} {t : ℤ}

/-- The scalar has an evaluation of cost at most `t`. -/
def Attains (n : ℕ) (t : ℤ) : Prop := ∃ w : ℕ, (w : ℤ) ≤ t ∧ Costs 70 126 150 n w

/-- No evaluation of the scalar is cheaper than `t`. -/
def Lower (n : ℕ) (t : ℤ) : Prop := ∀ w : ℕ, Costs 70 126 150 n w → t ≤ w

theorem Lower.le {s : ℤ} (lower : Lower n s) (attains : Attains n t) : s ≤ t := by
  obtain ⟨w, below, costs⟩ := attains
  exact (lower w costs).trans below

/-- The estimate of a stored chain is its cost. -/
theorem compute_TTV_eq {DBC_store : ℕ → ℕ → ℤ × ℕ × ℕ} {DBC_len : ℕ → ℕ} {x : ℕ} {chain : List Chain}
    (stored : (List.range (DBC_len x)).map (DBC_store x) = chain.map row) (nonempty : chain ≠ []) :
    compute_TTV DBC_store DBC_len x = cost 70 126 150 chain := by
  obtain ⟨leading, rest, rfl⟩ := List.exists_cons_of_ne_nil nonempty
  have length : DBC_len x = rest.length + 1 := by
    have same := congrArg List.length stored
    rwa [List.length_map, List.length_range, List.length_map, List.length_cons] at same
  rw [length, List.range_succ_eq_map, List.map_cons, List.map_cons, List.cons.injEq] at stored
  rw [compute_TTV, length, stored.1, cost, row]
  push_cast
  ring

theorem cost_map_row {chain : List Chain} (nonempty : chain ≠ []) :
    (cpu INTS).cost (chain.map row) = cost 70 126 150 chain + 150 := by
  obtain ⟨leading, rest, rfl⟩ := List.exists_cons_of_ne_nil nonempty
  rw [Layout.cost, cost, List.map_cons, List.length_cons, List.headD_cons, List.length_map]
  simp only [cpu, row]
  push_cast
  ring

/-- The estimate of a chain of the scalar. -/
theorem attains_of_sound {rows : List (ℤ × ℕ × ℕ)} (sound : Sound n rows) : Attains n ((cpu INTS).cost rows - 150) := by
  obtain ⟨chain, rfl, staircase, sum, -⟩ := sound
  refine ⟨cost 70 126 150 chain, ?_, sum ▸ costs_of_descending (by decide) staircase.ne_nil staircase.descending⟩
  rw [cost_map_row staircase.ne_nil]
  omega

end Estimates

/-! ## Digits -/

section Digits

open SignedBinary

variable {p n : ℕ} [Fact p.Prime] {group : SimpleGroup p}

/-- A signed digit costs a doubling, and an addition if it is not zero. -/
private theorem costs_digit {v d : ℤ} {w : ℕ} (costs : Costs 70 126 150 v w) (signed : d = -1 ∨ d = 0 ∨ d = 1) :
    Costs 70 126 150 (2 * v + d) (w + 70 + if d = 0 then 0 else 150) := by
  have twice := costs.double
  rcases signed with rfl | rfl | rfl
  · simpa using twice.add_unit (by decide) true
  · simpa using twice
  · simpa using twice.add_unit (by decide) false

/-- The estimate of digits of the scalar, enough for its bits. -/
def Spelled (n : ℕ) (t : ℤ) : Prop :=
  ∃ ds, Signed ds ∧ SignedBinary.value ds = n ∧ n < 2 ^ ds.length ∧ t = 70 * ds.length + 150 * weight ds

/-- The estimate of the non-adjacent form without its leading one. -/
def Recoded (n : ℕ) (t : ℤ) : Prop := ∃ low, nafDigits n = low ++ [1] ∧ t = 70 * low.length + 150 * weight low

/-- Signed digits under a leading one. -/
private theorem costs_underOne {low : List ℤ} (signed : ∀ d ∈ low, d = 0 ∨ d = 1 ∨ d = -1) :
    Costs 70 126 150 (underOne low) (70 * low.length + 150 * weight low) := by
  induction low with
  | nil => exact costs_term ⟨0, 0, false⟩
  | cons d low ih =>
    obtain ⟨here, rest⟩ := List.forall_mem_cons.mp signed
    refine (costs_digit (ih rest) (by tauto)).mono ?_
    rw [List.length_cons, weight]
    split <;> omega

theorem Recoded.attains {t : ℤ} (recoded : Recoded n t) (positive : n ≠ 0) : Attains n t := by
  obtain ⟨low, digits, rfl⟩ := recoded
  obtain ⟨low', digits', signed, sum⟩ := nafDigits_spec n positive
  obtain rfl := List.append_cancel_right (digits.symm.trans digits')
  exact ⟨_, by push_cast; exact le_rfl, sum ▸ costs_underOne signed⟩

/-- The non-adjacent form is no more expensive than other digits. -/
theorem Recoded.le {s t : ℤ} (recoded : Recoded n s) (spelled : Spelled n t) (positive : n ≠ 0) : s ≤ t := by
  obtain ⟨low, digits, rfl⟩ := recoded
  obtain ⟨ds, signed, sum, room, rfl⟩ := spelled
  obtain ⟨low', digits', signed', sum'⟩ := nafDigits_spec n positive
  obtain rfl := List.append_cancel_right (digits.symm.trans digits')
  have length := length_nafDigits_le room.le
  rw [digits, List.length_append, List.length_singleton] at length
  have all : Signed (low ++ [1]) := by
    intro d member
    rcases List.mem_append.mp member with below | leading
    · have := signed' d below
      tauto
    · exact .inr (.inr (List.mem_singleton.mp leading))
  have light := weight_le_of_nonAdjacent all (digits ▸ nafDigits_nonAdjacent n) signed (by rw [value_leading, sum', sum])
  rw [weight_append] at light
  omega

/-- What `binary_POINT_mul` returns. -/
private theorem binaryLoop_TTV (group : SimpleGroup p) (r mult_points n : ℕ) (m : Points (ZMod p)) (TTV : ℕ) :
    ∃ ds, Signed ds ∧ SignedBinary.value ds = n ∧ n < 2 ^ ds.length ∧
      (OnPoints.binaryLoop group r mult_points n m TTV).2 = TTV + 7 * ds.length + 15 * weight ds := by
  induction n using Nat.strong_induction_on generalizing m TTV with
  | _ n ih =>
  rw [OnPoints.binaryLoop]
  by_cases zero : n = 0
  · exact ⟨[], fun d member => absurd member List.not_mem_nil, zero ▸ rfl, zero ▸ Nat.one_pos, by rw [if_pos zero]; rfl⟩
  rw [if_neg zero]
  by_cases even : n % 2 = 0
  · obtain ⟨ds, signed, sum, room, total⟩ := ih (n / 2) (by omega)
      (ossl_ec_GFp_simple_dbl group m mult_points mult_points) (TTV + 7)
    rw [if_pos even, total]
    refine ⟨0 :: ds, List.forall_mem_cons.mpr ⟨.inr (.inl rfl), signed⟩, ?_, ?_, ?_⟩
    · rw [SignedBinary.value, sum]
      omega
    · rw [List.length_cons, pow_succ]
      omega
    · rw [List.length_cons, weight, if_pos rfl]
      omega
  · obtain ⟨ds, signed, sum, room, total⟩ := ih (n / 2) (by omega)
      (ossl_ec_GFp_simple_dbl group (ossl_ec_GFp_simple_add group m r r mult_points) mult_points mult_points)
      (TTV + 15 + 7)
    rw [if_neg even, total]
    refine ⟨1 :: ds, List.forall_mem_cons.mpr ⟨.inr (.inr rfl), signed⟩, ?_, ?_, ?_⟩
    · rw [SignedBinary.value, sum]
      omega
    · rw [List.length_cons, pow_succ]
      omega
    · rw [List.length_cons, weight, if_neg one_ne_zero]
      omega

theorem spelled_binary {hexwords : String} (scalar : BN_hex2bn hexwords = n) (m : Points (ZMod p)) (mult_points r a : ℕ) :
    Spelled n (10 * (OnPoints.binary_POINT_mul group m mult_points r a hexwords).2) := by
  rw [OnPoints.binary_POINT_mul, scalar, Int.natAbs_natCast]
  obtain ⟨ds, signed, sum, room, total⟩ := binaryLoop_TTV group r mult_points n
    (EC_POINT_copy (ossl_ec_GFp_simple_point_init m mult_points) mult_points a) 0
  refine ⟨ds, signed, sum, room, ?_⟩
  rw [total]
  omega

/-- What `NAF_POINT_mul` returns. -/
private theorem foldl_nafStep_TTV (R G invert_G : ℕ) {ds : List ℤ} (signed : ∀ d ∈ ds, d = 0 ∨ d = 1 ∨ d = -1)
    (st : Points (ZMod p) × ℕ) :
    (ds.foldl (OnPoints.nafStep group R G invert_G) st).2 = st.2 + 7 * ds.length + 15 * weight ds := by
  induction ds generalizing st with
  | nil => rfl
  | cons d ds ih =>
    obtain ⟨here, rest⟩ := List.forall_mem_cons.mp signed
    have turn : (OnPoints.nafStep group R G invert_G st d).2 = st.2 + 7 + 15 * if d = 0 then 0 else 1 := by
      rcases here with rfl | rfl | rfl <;> rfl
    rw [List.foldl_cons, ih rest, turn, List.length_cons, weight]
    omega

theorem recoded_naf {hexwords : String} (scalar : BN_hex2bn hexwords = n) (positive : n ≠ 0) {m : Points (ZMod p)}
    {invert_G R G : ℕ} {after : Points (ZMod p) × ℕ}
    (ends : OnPoints.NAF_POINT_mul group m invert_G R G hexwords = some after) : Recoded n (10 * after.2) := by
  obtain ⟨low, digits, signed, -⟩ := nafDigits_spec n positive
  rw [OnPoints.NAF_POINT_mul, scalar] at ends
  have tail : (int_to_naf n).tail = low.reverse := by
    rw [int_to_naf, if_neg positive, digits, List.reverse_append]
    rfl
  obtain rfl := Option.some.inj ends
  refine ⟨low, digits, ?_⟩
  rw [tail, foldl_nafStep_TTV R G invert_G fun d member => signed d (List.mem_reverse.mp member), List.length_reverse,
    weight_reverse]
  omega

end Digits

/-! ## The loops -/

section Loops

variable {p : ℕ} [Fact p.Prime] {c : Setting p} {TEST_TIMES : ℕ} {hexwords : ℕ → String}

/-- What the program relies on, with the costs of `myBigInt.h`. -/
structure Estimated (c : Setting p) : Prop extends Linked c where
  doubling : c.macros.DBL_COST = 70
  tripling : c.macros.TPL_COST = 126
  addition : c.macros.ADD_COST = 150

/-- The scalars that all methods handle when `getSubOptimalDBC` tries twenty candidates. -/
structure Suitable20 (c : Setting p) (w : String) : Prop extends Suitable c w where
  clean20 : ∀ b ∈ accepted (.exact c.macros.INTS) (some 20) (ofString c.macros.INTS w.toList) c.b_try 0,
    Greedy.Clean NoFalseBorrow 6 MyBigInt.sub c.pow23_all (initial (ofString c.macros.INTS w.toList) b)

/-- The estimate of a cheapest candidate. -/
def Cheapest (INTS : ℕ) (chains : List (List (ℤ × ℕ × ℕ))) (t : ℤ) : Prop :=
  (∃ rows ∈ chains, t = (cpu INTS).cost rows - 150) ∧ ∀ rows ∈ chains, t ≤ (cpu INTS).cost rows - 150

theorem Cheapest.attains {INTS n : ℕ} {chains : List (List (ℤ × ℕ × ℕ))} {t : ℤ} (cheapest : Cheapest INTS chains t)
    (sound : ∀ rows ∈ chains, Sound n rows) : Attains n t := by
  obtain ⟨⟨rows, member, rfl⟩, -⟩ := cheapest
  exact attains_of_sound (sound rows member)

/-- Among more candidates there is none more expensive. -/
theorem Cheapest.le {INTS : ℕ} {chains chains' : List (List (ℤ × ℕ × ℕ))} {s t : ℤ} (cheapest : Cheapest INTS chains t)
    (cheapest' : Cheapest INTS chains' s) (more : chains <+: chains') : s ≤ t := by
  obtain ⟨⟨rows, member, rfl⟩, -⟩ := cheapest
  exact cheapest'.2 rows (more.subset member)

/-- The chain of `getOptimalDBC` has the least estimate. -/
private theorem lower_getOptimalDBC (estimated : Estimated c) {u : MyBigInt c.macros.INTS} (input : Input c.macros u)
    (logs : Logs u.toNat (c.log2B u) (c.log3B u)) (kept : NoLostCarry u.mul2) {s s' : State}
    (reachable : Reachable c.macros c.pow23_all s)
    (call : s' = getOptimalDBC c.macros c.pow23_all (c.log2B u) (c.log3B u) u s) :
    Lower u.toNat (compute_TTV (fun _ => s'.DBC_store) (fun _ => s'.DBC_len) 0) := by
  have exactly : u.mul2.mul3.toNat = 6 * u.toNat := by
    rw [toNat_mul3 u.mul2 kept input.room.triple, input.toNat_mul2]
    omega
  obtain ⟨chain, strict, sum, stored, -, least⟩ := getOptimalDBC_spec estimated.tables input logs
    reachable.ready exactly
  rw [estimated.doubling, estimated.tripling, estimated.addition] at least
  have estimate : compute_TTV (fun _ => s'.DBC_store) (fun _ => s'.DBC_len) 0 = cost 70 126 150 chain :=
    compute_TTV_eq (call ▸ stored) strict.ne_nil
  intro w costs
  rcases costs with zero | ⟨e, chain', sum', bound⟩
  · have positive := input.positive
    omega
  · rw [estimate]
    exact_mod_cast (least (by decide) (by decide) e chain' sum').trans bound

theorem optimalTTV_spec (estimated : Estimated c) (words : ∀ i < TEST_TIMES, Suitable c (hexwords i)) {s : State}
    (reachable : Reachable c.macros c.pow23_all s) : ∃ TTV s', optimalTTV c TEST_TIMES hexwords s = (TTV, s') ∧
      Loops.Total (fun i => Lower (u c hexwords i).toNat) TEST_TIMES TTV := by
  refine ⟨_, _, rfl, (Loops.foldl_range_induction (P := fun i (st : ℤ × State) =>
    Reachable c.macros c.pow23_all st.2 ∧ Loops.Total (fun i => Lower (u c hexwords i).toNat) i st.1)
    ⟨reachable, Loops.total_zero⟩ ?_).2⟩
  rintro i inside ⟨TTV, s⟩ ⟨reachable, total⟩
  have suitable := words i inside
  exact ⟨.call _ _ _ _ reachable,
    total.add (lower_getOptimalDBC estimated suitable.input suitable.logs suitable.kept reachable rfl)⟩

variable {search : MyBigInt c.macros.INTS → Slots → Option (ℕ × Slots)} {chains : ℕ → List (List (ℤ × ℕ × ℕ))}
  {slots : Slots}

theorem greedyTTV_spec (yields : ∀ i < TEST_TIMES, Yields (search (u c hexwords i)) c.macros.INTS (chains i))
    (sound : ∀ i < TEST_TIMES, ∀ rows ∈ chains i, Sound (u c hexwords i).toNat rows)
    (left : (cpu c.macros.INTS).Left slots) :
    ∃ TTV slots', greedyTTV c TEST_TIMES hexwords search slots = some (TTV, slots') ∧
      (cpu c.macros.INTS).Left slots' ∧ Loops.Total (fun i => Cheapest c.macros.INTS (chains i)) TEST_TIMES TTV := by
  have run : ∃ st, greedyTTV c TEST_TIMES hexwords search slots = some st ∧ (cpu c.macros.INTS).Left st.2 ∧
      Loops.Total (fun i => Cheapest c.macros.INTS (chains i)) TEST_TIMES st.1 := by
    refine Loops.exists_foldlM_range (P := fun i (st : ℤ × Slots) => (cpu c.macros.INTS).Left st.2 ∧
      Loops.Total (fun i => Cheapest c.macros.INTS (chains i)) i st.1) ⟨left, Loops.total_zero⟩ fun i inside st holds => ?_
    obtain ⟨slot, after, returned, left', -, best, member, found, least⟩ := yields i inside st.2 holds.1
    refine ⟨_, by rw [returned]; rfl, left', holds.2.add ?_⟩
    obtain ⟨chain, stored, staircase, -⟩ := sound i inside best member
    have estimate : compute_TTV (rows (cpu c.macros.INTS) after) (len after) slot =
        (cpu c.macros.INTS).cost best - 150 := by
      rw [stored] at found ⊢
      rw [compute_TTV_eq (map_rows found) staircase.ne_nil, cost_map_row staircase.ne_nil, add_sub_cancel_right]
    rw [estimate]
    exact ⟨⟨best, member, rfl⟩, fun rows present => Int.sub_le_sub_right (least rows present) 150⟩
  obtain ⟨⟨TTV, slots'⟩, ends, left', total⟩ := run
  exact ⟨TTV, slots', ends, left', total⟩

/-- The candidates of `getSubOptimalDBC`. -/
def found (c : Setting p) (hexwords : ℕ → String) (dbc_coef : ℤ) (i : ℕ) : List (List (ℤ × ℕ × ℕ)) :=
  (candidates (.exact c.macros.INTS) (.exact c.macros.INTS) c.pow23_all c.fuel 6 (some dbc_coef) (u c hexwords i) c.b_try
    0).getD []

/-- The candidates of `getEOSDBC`. -/
def foundEOS (c : Setting p) (hexwords : ℕ → String) (i : ℕ) : List (List (ℤ × ℕ × ℕ)) :=
  (candidates (.exact c.macros.INTS) (.exact c.macros.INTS) c.pow23_all c.fuel 4 none (u c hexwords i)
    (List.range (MAX_3 c.macros.INTS)) 0).getD []

private theorem foundEOS_spec (linked : Linked c) {i : ℕ} (suitable : Suitable c (hexwords i)) :
    (∀ rows ∈ foundEOS c hexwords i, Sound (u c hexwords i).toNat rows) ∧
      Yields (getEOSDBC c.bounds c.floats c.pow23_all c.fuel (u c hexwords i)) c.macros.INTS (foundEOS c hexwords i) := by
  obtain ⟨chains, produced, sound, yields⟩ := yields_getEOSDBC linked.size linked.tables suitable.input.positive
    suitable.top linked.enough suitable.opensEOS suitable.cleanEOS
  have same : foundEOS c hexwords i = chains := by
    rw [foundEOS, u, produced]
    rfl
  rw [same, linked.bounds, linked.floats]
  exact ⟨sound, yields⟩

private theorem found_spec (linked : Linked c) {i : ℕ} (suitable : Suitable20 c (hexwords i)) {dbc_coef : ℤ}
    (limit : dbc_coef ≤ 20) :
    candidates (.exact c.macros.INTS) (.exact c.macros.INTS) c.pow23_all c.fuel 6 (some dbc_coef) (u c hexwords i)
        c.b_try 0 = some (found c hexwords dbc_coef i) ∧
      (∀ rows ∈ found c hexwords dbc_coef i, Sound (u c hexwords i).toNat rows) ∧
      Yields (getSubOptimalDBC c.bounds c.floats c.pow23_all c.fuel c.b_try (u c hexwords i) dbc_coef) c.macros.INTS
        (found c hexwords dbc_coef i) := by
  obtain ⟨chains, produced, sound, yields⟩ := yields_getSubOptimalDBC linked.size linked.tables suitable.input.positive
    suitable.top linked.enough suitable.opens fun b member =>
      suitable.clean20 b ((accepted_grows limit _ _ _).subset member)
  have same : found c hexwords dbc_coef i = chains := by
    rw [found, u, produced]
    rfl
  rw [same, linked.bounds, linked.floats]
  exact ⟨produced, sound, yields⟩

/-- A larger limit only adds candidates. -/
private theorem found_grows (linked : Linked c) {i : ℕ} (suitable : Suitable20 c (hexwords i)) {dbc_coef dbc_coef' : ℤ}
    (larger : dbc_coef ≤ dbc_coef') (limit : dbc_coef' ≤ 20) :
    found c hexwords dbc_coef i <+: found c hexwords dbc_coef' i :=
  Loops.mapM_initial (accepted_grows larger _ _ _) (found_spec linked suitable (larger.trans limit)).1
    (found_spec linked suitable limit).1

end Loops

/-! ## The program -/

section Program

variable {p : ℕ} [Fact p.Prime] {c : Setting p} {TEST_TIMES : ℕ} {hexwords : ℕ → String}
  {P : (c.group.curve (c.group.decode c.group.b)).Point} {point : EC_POINT (ZMod p)} {a : ℕ} {r : ℕ → ℕ → ℕ} {h : Heap p}
  {slots : Slots}

theorem greedyLoops_spec (run : Run c TEST_TIMES hexwords point P)
    (search : MyBigInt c.macros.INTS → Slots → Option (ℕ × Slots)) {chains : ℕ → List (List (ℤ × ℕ × ℕ))}
    (yields : ∀ i < TEST_TIMES, Yields (search (u c hexwords i)) c.macros.INTS (chains i))
    (sound : ∀ i < TEST_TIMES, ∀ rows ∈ chains i, Sound (u c hexwords i).toNat rows)
    (left : (cpu c.macros.INTS).Left slots) {k : ℕ} (below : k < 6) {steps : ℕ → ℕ → ℕ → Prop}
    (turns : ∀ i j l, steps i j l ∨ j = i ∧ l = k ↔ steps (i + 1) j l)
    (progress : Progress c.group.toSimpleGroup point a TEST_TIMES r (product c hexwords P) (steps 0) h) :
    ∃ TTV slots' h', greedyLoops c TEST_TIMES hexwords a r search k (slots, h) = some (TTV, slots', h') ∧
      (cpu c.macros.INTS).Left slots' ∧
        Progress c.group.toSimpleGroup point a TEST_TIMES r (product c hexwords P) (steps TEST_TIMES) h' ∧
          Loops.Total (fun i => Cheapest c.macros.INTS (chains i)) TEST_TIMES TTV := by
  obtain ⟨⟨slots₁, h₁⟩, first, left₁, progress₁⟩ := run.greedyTurns search
    (fun i inside => (yields i inside).finds (sound i inside)) left below turns progress
  obtain ⟨TTV, slots₂, second, left₂, total⟩ := greedyTTV_spec yields sound left₁
  refine ⟨TTV, slots₂, h₁, ?_, left₂, progress₁, total⟩
  rw [greedyLoops, first]
  simp only [Option.bind_eq_bind, Option.bind_some, second]
  rfl

/-- The loops with the limit `dbc_coef`, the results of which are written once more. -/
theorem subOptimalLoops_spec (run : Run c TEST_TIMES hexwords point P) (words : ∀ i < TEST_TIMES, Suitable20 c (hexwords i))
    {dbc_coef : ℤ} (limit : dbc_coef ≤ 20) (left : (cpu c.macros.INTS).Left slots) {steps : ℕ → ℕ → ℕ → Prop}
    (turns : ∀ i j l, steps i j l ∨ j = i ∧ l = 2 ↔ steps (i + 1) j l)
    (progress : Progress c.group.toSimpleGroup point a TEST_TIMES r (product c hexwords P) (steps 0) h) :
    ∃ TTV slots' h', subOptimalLoops c TEST_TIMES hexwords a r dbc_coef (slots, h) = some (TTV, slots', h') ∧
      (cpu c.macros.INTS).Left slots' ∧
        Progress c.group.toSimpleGroup point a TEST_TIMES r (product c hexwords P) (steps TEST_TIMES) h' ∧
          Loops.Total (fun i => Cheapest c.macros.INTS (found c hexwords dbc_coef i)) TEST_TIMES TTV :=
  greedyLoops_spec run (fun u slots => getSubOptimalDBC c.bounds c.floats c.pow23_all c.fuel c.b_try u dbc_coef slots)
    (fun i inside => (found_spec run.linked (words i inside) limit).2.2)
    (fun i inside => (found_spec run.linked (words i inside) limit).2.1) left (by decide) turns progress

theorem binaryTTV_spec (run : Run c TEST_TIMES hexwords point P)
    (progress : Progress c.group.toSimpleGroup point a TEST_TIMES r (product c hexwords P) (Upto 3 0) h) :
    ∃ TTV h', binaryTTV c TEST_TIMES hexwords a r h = (TTV, h') ∧
      Progress c.group.toSimpleGroup point a TEST_TIMES r (product c hexwords P) (Upto 4 0) h' ∧
        Loops.Total (fun i => Spelled (u c hexwords i).toNat) TEST_TIMES TTV := by
  have points : (binaryTTV c TEST_TIMES hexwords a r h).2 = MSMTest.binaryLoop c TEST_TIMES hexwords a r h :=
    (List.foldl_hom Prod.snd fun _ _ => rfl).symm
  refine ⟨_, _, rfl, points ▸ run.binaryLoop progress, ?_⟩
  exact Loops.foldl_range_induction
    (P := fun i (st : ℤ × Heap p) => Loops.Total (fun i => Spelled (u c hexwords i).toNat) i st.1) Loops.total_zero
    fun i inside st total => total.add (spelled_binary ((run.words i inside).scalar run.linked.toTabled) _ _ _ _)

theorem nafTTV_spec (run : Run c TEST_TIMES hexwords point P)
    (progress : Progress c.group.toSimpleGroup point a TEST_TIMES r (product c hexwords P) (Upto 4 0) h) :
    ∃ TTV h', nafTTV c TEST_TIMES hexwords a r h = some (TTV, h') ∧
      Progress c.group.toSimpleGroup point a TEST_TIMES r (product c hexwords P) (Upto 5 0) h' ∧
        Loops.Total (fun i => Recoded (u c hexwords i).toNat) TEST_TIMES TTV := by
  have loop : ∃ st, nafTTV c TEST_TIMES hexwords a r h = some st ∧
      Progress c.group.toSimpleGroup point a TEST_TIMES r (product c hexwords P) (Upto 4 TEST_TIMES) st.2 ∧
        Loops.Total (fun i => Recoded (u c hexwords i).toNat) TEST_TIMES st.1 := by
    refine Loops.exists_foldlM_range (P := fun i (st : ℤ × Heap p) =>
      Progress c.group.toSimpleGroup point a TEST_TIMES r (product c hexwords P) (Upto 4 i) st.2 ∧
        Loops.Total (fun i => Recoded (u c hexwords i).toNat) i st.1)
      ⟨progress, Loops.total_zero⟩ fun i inside st holds => ?_
    obtain ⟨after, ends, progress'⟩ := run.nafTurn inside holds.1
    have suitable := run.words i inside
    exact ⟨_, by rw [ends]; rfl, progress', holds.2.add (recoded_naf (suitable.scalar run.linked.toTabled)
      (Nat.one_le_iff_ne_zero.mp suitable.input.positive) ends)⟩
  obtain ⟨⟨TTV, h'⟩, ends, progress', total⟩ := loop
  exact ⟨TTV, h', ends, progress'.next, total⟩

/-- The program ends, counts no error and prints a table in which the chains of `getOptimalDBC` are the cheapest, more
candidates make the chains of `getSubOptimalDBC` no more expensive, and the signed-digit form is no more expensive than
the binary one. -/
theorem main_table (estimated : Estimated c) (words : ∀ i < TEST_TIMES, Suitable20 c (hexwords i)) :
    ∃ t, main c TEST_TIMES hexwords = some (t, 0) ∧ t.optimal ≤ t.EOS ∧ t.optimal ≤ t.subOptimal20 ∧
      t.subOptimal20 ≤ t.subOptimal10 ∧ t.subOptimal10 ≤ t.subOptimal3 ∧ t.subOptimal3 ≤ t.subOptimal2 ∧
        t.subOptimal2 ≤ t.subOptimal1 ∧ t.optimal ≤ t.NAF ∧ t.NAF ≤ t.binary := by
  have linked := estimated.toLinked
  have plain : ∀ i < TEST_TIMES, Suitable c (hexwords i) := fun i inside => (words i inside).toSuitable
  obtain ⟨G, generator, prime⟩ := linked.generator
  obtain ⟨h, a, generated, stored, represents, order⟩ :=
    generate_key_spec linked.toGenerated generator prime ⟨fun _ => ⟨0, 0, 0, false⟩, 0⟩
  generalize c.priv_key • G = P at represents order
  have run : Run c TEST_TIMES hexwords (h.m a) P := ⟨linked, represents, order, plain⟩
  obtain ⟨s, h₀, first, reachable, progress₀⟩ := run.optimalLoop .init
    (progress_allocate c.group.toSimpleGroup (product c hexwords P) TEST_TIMES h stored)
  obtain ⟨optimal, s', second, least⟩ := optimalTTV_spec estimated plain reachable
  obtain ⟨EOS, slots₁, h₁, eos, left₁, progress₁, totalEOS⟩ := greedyLoops_spec run _
    (fun i inside => (foundEOS_spec linked (plain i inside)).2) (fun i inside => (foundEOS_spec linked (plain i inside)).1)
    (left_arrays _ s') (by decide) (upto_turn 1) progress₀
  obtain ⟨t₁, slots₂, h₂, one, left₂, progress₂, total₁⟩ := subOptimalLoops_spec run words (by decide : (1 : ℤ) ≤ 20) left₁
    (upto_turn 2) progress₁.next
  have again (i j l : ℕ) : (fun _ => Upto 3 0) i j l ∨ j = i ∧ l = 2 ↔ (fun _ => Upto 3 0) (i + 1) j l := by
    unfold Upto
    omega
  obtain ⟨t₂, slots₃, h₃, two, left₃, progress₃, total₂⟩ := subOptimalLoops_spec run words (by decide : (2 : ℤ) ≤ 20) left₂
    again progress₂.next
  obtain ⟨t₃, slots₄, h₄, three, left₄, progress₄, total₃⟩ := subOptimalLoops_spec run words (by decide : (3 : ℤ) ≤ 20) left₃
    again progress₃
  obtain ⟨t₁₀, slots₅, h₅, ten, left₅, progress₅, total₁₀⟩ :=
    subOptimalLoops_spec run words (by decide : (10 : ℤ) ≤ 20) left₄
    again progress₄
  obtain ⟨t₂₀, slots₆, h₆, twenty, -, progress₆, total₂₀⟩ := subOptimalLoops_spec run words (by decide : (20 : ℤ) ≤ 20) left₅
    again progress₅
  obtain ⟨binary, h₇, bits, progress₇, totalBinary⟩ := binaryTTV_spec run progress₆
  obtain ⟨NAF, h₈, naf, progress₈, totalNAF⟩ := nafTTV_spec run progress₇
  obtain ⟨h₉, direct, progress₉⟩ := run.directLoop progress₈
  have nonzero {i : ℕ} (inside : i < TEST_TIMES) : (u c hexwords i).toNat ≠ 0 :=
    Nat.one_le_iff_ne_zero.mp (plain i inside).input.positive
  have fewer {coef coef' : ℤ} (larger : coef ≤ coef') (limit : coef' ≤ 20) {s t : ℤ}
      (sum : Loops.Total (fun i => Cheapest c.macros.INTS (found c hexwords coef i)) TEST_TIMES t)
      (sum' : Loops.Total (fun i => Cheapest c.macros.INTS (found c hexwords coef' i)) TEST_TIMES s) : s ≤ t :=
    sum'.le sum fun i inside _ _ cheapest' cheapest =>
      cheapest.le cheapest' (found_grows linked (words i inside) larger limit)
  refine ⟨⟨optimal, EOS, t₁, t₂, t₃, t₁₀, t₂₀, binary, NAF⟩, ?_, ?_, ?_, fewer (by decide) le_rfl total₁₀ total₂₀,
    fewer (by decide) (by decide) total₃ total₁₀, fewer (by decide) (by decide) total₂ total₃,
    fewer (by decide) (by decide) total₁ total₂, ?_, ?_⟩
  · rw [main]
    simp only [generated, first, second, eos, one, two, three, ten, twenty, bits, naf, direct, Option.bind_eq_bind,
      Option.bind_some]
    rw [compareLoop_of_done progress₉]
    rfl
  · exact least.le totalEOS fun i inside _ _ lower cheapest =>
      lower.le (cheapest.attains (foundEOS_spec linked (plain i inside)).1)
  · exact least.le total₂₀ fun i inside _ _ lower cheapest =>
      lower.le (cheapest.attains (found_spec linked (words i inside) le_rfl).2.1)
  · exact least.le totalNAF fun i inside _ _ lower recoded => lower.le (recoded.attains (nonzero inside))
  · exact totalNAF.le totalBinary fun i inside _ _ recoded spelled => recoded.le spelled (nonzero inside)

end Program

/-! ## One scalar on `secp256k1` -/

private theorem suitable20_powerWord : Suitable20 setting powerWord := by
  refine ⟨suitable_powerWord, ?_⟩
  have number : ofString setting.macros.INTS powerWord.toList = .ofNat 9 (3 ^ 72) := powerWord_number
  rw [number]
  exact clean20_powerWord

theorem main_table_powerWord : ∃ t, main setting 1 (fun _ => powerWord) = some (t, 0) ∧ t.optimal ≤ t.EOS ∧
    t.optimal ≤ t.subOptimal20 ∧ t.subOptimal20 ≤ t.subOptimal10 ∧ t.subOptimal10 ≤ t.subOptimal3 ∧
      t.subOptimal3 ≤ t.subOptimal2 ∧ t.subOptimal2 ≤ t.subOptimal1 ∧ t.optimal ≤ t.NAF ∧ t.NAF ≤ t.binary :=
  main_table ⟨linked_setting, rfl, rfl, rfl⟩ fun _ _ => suitable20_powerWord

end CostTable

end DbcSnark.DBCTest
