import DbcSnark.Model.DBCTest.OptimalDBC2
import DbcSnark.Proofs.DBCTest.MSMTest
import DbcSnark.Proofs.Ec.Affine

/-! # What `optimal_DBC2.cpp` prints

The chain printed for a scalar is a cheapest one of its value, and the points printed with it are the same. The search
keeps `w_min` from being null: a null cell never counts as basic, and the chain that `w_min` stands for is affordable.
-/

namespace DbcSnark.DBCTest

open DoubleBase Hexadecimal MyBigInt

/-! ## Null cells -/

/-- A cell marked as basic is not null. -/
def OptimalDBC.Sane (cell : OptimalDBC) : Prop := cell.isBasic = true → cell.isNULL = false

namespace OptimalDBC.Sane

variable {x y z : OptimalDBC}

theorem add (sane : x.Sane) (this : Loc) (dbl tpl : ℕ) (coef : ℤ) : (x.add this dbl tpl coef).Sane := by
  rw [OptimalDBC.add]
  split_ifs
  · exact sane
  · exact fun _ => rfl

theorem minL (left : x.Sane) (middle : y.Sane) (right : z.Sane) : (OptimalDBC.minL x y z).Sane := by
  rw [OptimalDBC.minL]
  split_ifs <;> assumption

theorem minV₂ (m : Macros) (left : x.Sane) (right : y.Sane) : (OptimalDBC.minV₂ m x y).Sane := by
  rw [OptimalDBC.minV₂]
  split_ifs <;> assumption

theorem minV (m : Macros) (left : x.Sane) (middle : y.Sane) (right : z.Sane) : (OptimalDBC.minV m x y z).Sane := by
  rw [OptimalDBC.minV]
  split_ifs <;> assumption

end OptimalDBC.Sane

structure State.Sane (s : State) : Prop where
  cells : ∀ l, (s.cells l).Sane
  w_min : s.w_min.Sane

namespace State.Sane

variable {m : Macros} {s : State}

theorem init (m : Macros) : (State.start.init m).Sane := by
  refine ⟨fun l basic => ?_, fun _ => rfl⟩
  simp only [State.init, State.set, State.w, State.w_, State.start, OptimalDBC.assignZero, OptimalDBC.setNULL] at basic ⊢
  grind

theorem set (sane : s.Sane) (table : Table) (b t : ℤ) {cell : OptimalDBC} (new : cell.Sane) :
    (s.set table b t cell).Sane := by
  refine ⟨fun l => ?_, sane.w_min⟩
  by_cases here : l = ⟨table, b, t⟩
  · rw [here]
    exact (congrArg OptimalDBC.Sane (Function.update_self _ _ _)).mpr new
  · exact (congrArg OptimalDBC.Sane (Function.update_of_ne here _ _)).mpr (sane.cells l)

theorem addTo (sane : s.Sane) (table : Table) (b t : ℤ) (dbl tpl : ℕ) (coef : ℤ) :
    (s.addTo table b t dbl tpl coef).Sane :=
  (sane.cells _).add _ dbl tpl coef

theorem fillCell (sane : s.Sane) (b t quot : ℕ) : (fillCell b t quot s).Sane := by
  unfold DBCTest.fillCell
  split_ifs
  · have first := sane.set .w b t ((sane.cells ⟨.w, b - 1, t⟩).minL (sane.cells ⟨.w, b, t - 1⟩)
      (sane.addTo .w_ b (t - 1) b (t - 1) 1))
    exact first.set .w_ b t (first.addTo .w_ (b - 1) t (b - 1) t (-1))
  · have first := sane.set .w b t ((sane.cells ⟨.w, b - 1, t⟩).minL (sane.addTo .w_ (b - 1) t (b - 1) t 1)
      (sane.addTo .w b (t - 1) b (t - 1) 1))
    exact first.set .w_ b t (first.addTo .w_ (b - 1) t (b - 1) t (-1))
  · have first := sane.set .w b t (sane.addTo .w (b - 1) t (b - 1) t 1)
    exact first.set .w_ b t ((first.addTo .w (b - 1) t (b - 1) t (-1)).minL (first.cells ⟨.w_, b - 1, t⟩)
      (first.addTo .w_ b (t - 1) b (t - 1) (-1)))
  · have first := sane.set .w b t (sane.addTo .w (b - 1) t (b - 1) t 1)
    exact first.set .w_ b t ((first.cells ⟨.w_, b - 1, t⟩).minL (first.addTo .w b (t - 1) b (t - 1) (-1))
      (first.cells ⟨.w_, b, t - 1⟩))

theorem closeCell (sane : s.Sane) (pow23_all : ℕ → ℕ → MyBigInt m.INTS) (n : MyBigInt m.INTS) (b t : ℕ) :
    (closeCell m pow23_all n b t s).Sane := by
  unfold DBCTest.closeCell
  split_ifs
  · exact ⟨sane.cells, (sane.addTo .w b t b t 1).minV₂ m sane.w_min⟩
  · exact ⟨sane.cells, (sane.cells ⟨.w, b, t⟩).minV m (sane.addTo .w_ b t b t 1) sane.w_min⟩

theorem visit (sane : s.Sane) (pow23_all : ℕ → ℕ → MyBigInt m.INTS) (n : MyBigInt m.INTS) (b t quot : ℕ) :
    (visit m pow23_all n b t quot s).Sane := by
  have filled : (fillBelow b t quot s).Sane := by
    unfold fillBelow
    split_ifs
    · exact sane.fillCell b t quot
    · exact sane
  rw [visit_eq]
  split_ifs
  · exact filled.closeCell pow23_all n b t
  · exact filled

theorem fillTables (sane : s.Sane) (pow23_all : ℕ → ℕ → MyBigInt m.INTS) (n six_n : MyBigInt m.INTS) (log2B log3B : ℕ) :
    (fillTables m pow23_all n six_n log2B log3B s).Sane := by
  rw [fillTables_eq, visitAll]
  exact List.foldlRecOn _ _ sane fun s sane p _ => sane.visit pow23_all n p.1 p.2 _

end State.Sane

namespace OptimalDBC2

open Ec EC_GROUP OnPoints MSMTest

/-! ## The printed chain -/

section Search

variable {m : Macros} {pow23_all : ℕ → ℕ → MyBigInt m.INTS} {n : MyBigInt m.INTS} {s : State} {log2B log3B : ℕ}

/-- A state between two calls. -/
structure Settled (pow23_all : ℕ → ℕ → MyBigInt m.INTS) (s : State) : Prop where
  reachable : Reachable m pow23_all s
  sane : s.Sane
  present : s.w_min.isNULL = false

theorem Settled.init : Settled pow23_all (State.start.init m) := ⟨.init, .init m, rfl⟩

/-- A chain of `n`, and with costs in the usual order no chain of `n` is cheaper. -/
structure IsCheapest (m : Macros) (n : ℕ) (c : List Chain) : Prop where
  chain : IsChain c
  sum : value c = n
  least : m.DBL_COST ≤ m.TPL_COST → m.TPL_COST - m.DBL_COST ≤ m.ADD_COST → ∀ e, IsChain e → value e = n →
    cost m.DBL_COST m.TPL_COST m.ADD_COST c ≤ cost m.DBL_COST m.TPL_COST m.ADD_COST e

/-- A call leaves a cheapest chain in `now_DBC`, and it is the one that `print` prints. -/
theorem search_spec (tables : Exact pow23_all) (input : Input m n) (logs : Logs n.toNat log2B log3B)
    (settled : Settled pow23_all s) (kept : NoLostCarry n.mul2) :
    let s' := getOptimalDBC m pow23_all log2B log3B n s
    ∃ c, IsCheapest m n.toNat c ∧ s'.w_min.isNULL = false ∧ (List.range s'.w_min.length).map s'.now_DBC = c.reverse ∧
      (print s').2 = some c.reverse ∧ Settled pow23_all (print s').1 := by
  intro s'
  have exactly : n.mul2.mul3.toNat = 6 * n.toNat := by
    rw [toNat_mul3 n.mul2 kept input.room.triple, input.toNat_mul2]
    omega
  obtain ⟨done, c, current, least⟩ := fillTables_optimal tables input logs settled.reachable.ready exactly
  obtain ⟨filled, searched⟩ : ∃ filled, filled =
    fillTables m pow23_all n n.mul2.mul3 log2B log3B (prepared pow23_all n log2B log3B s) := ⟨_, rfl⟩
  rw [← searched] at current
  have returned : s' = simDBC filled := searched ▸ rfl
  have sane : filled.Sane := by
    have prepared : (prepared pow23_all n log2B log3B s).Sane := ⟨settled.sane.cells, fun _ => settled.present⟩
    rw [searched]
    exact prepared.fillTables pow23_all n _ log2B log3B
  have present : filled.w_min.isNULL = false := by
    obtain ⟨basic, -⟩ | ⟨nonempty, represents⟩ := id current.holds
    · exact sane.w_min basic
    · obtain ⟨x, d, rfl⟩ := List.exists_cons_of_ne_nil nonempty
      exact represents.1.1
  have kept' : (simDBC filled).w_min = filled.w_min := current.holds.terms.1
  have holds := current.holds.after_simDBC
  have cells : (simDBC (simDBC filled)).cells = filled.cells := by
    simp only [simDBC]
    split_ifs <;> rfl
  have w_min : (simDBC (simDBC filled)).w_min = filled.w_min := holds.terms.1.trans kept'
  have printed : print s' = (simDBC (simDBC filled), some c.reverse) := by
    rw [print, returned, kept', present, ← holds.map_now_DBC]
    rfl
  refine ⟨c, ⟨current.chain, current.sum, least⟩, ?_, ?_, by rw [printed], ?_⟩
  · rw [returned, kept', present]
  · rw [returned, current.holds.map_now_DBC]
  · rw [printed]
    refine ⟨.other _ _ (.call log2B log3B n s settled.reachable) ?_, ⟨fun l => ?_, ?_⟩, ?_⟩
    · change (simDBC (simDBC filled)).cells = s'.cells
      rw [cells, returned, simDBC]
      split_ifs <;> rfl
    · change ((simDBC (simDBC filled)).cells l).Sane
      rw [cells]
      exact sane.cells l
    · change (simDBC (simDBC filled)).w_min.Sane
      rw [w_min]
      exact sane.w_min
    · rw [w_min, present]

end Search

/-! ## The printed points -/

section Points

variable {p : ℕ} [Fact p.Prime]

/-- The coordinates of a finite point. -/
def coordinates {group : SimpleGroup p} {c : ZMod p} : (group.curve c).Point → Option (ZMod p × ZMod p)
  | .zero => none
  | .some x y _ => some (x, y)

theorem get_affine_coordinates_eq {group : SimpleGroup p} {c : ZMod p} {pt : EC_POINT (ZMod p)}
    {P : (group.curve c).Point} (stored : group.Represents pt P) :
    EC_POINT_get_affine_coordinates group pt = coordinates P := by
  cases P with
  | zero =>
    rw [EC_POINT_get_affine_coordinates, if_pos ((Z_eq_zero_iff stored).mpr rfl)]
    rfl
  | some x y h => exact get_affine_coordinates_spec stored

/-- The addresses of the results, from the first free one on. -/
structure Placed (start : ℕ) (TEST_TIMES : ℕ) (r1 r2 : ℕ → ℕ) : Prop where
  first : ∀ i < TEST_TIMES, r1 i = start + 2 * i
  second : ∀ i < TEST_TIMES, r2 i = start + 2 * i + 1

/-- The allocating loop appends infinite points. -/
structure Allocated (h₀ : Heap p) (i : ℕ) (st : Heap p × (ℕ → ℕ) × (ℕ → ℕ)) : Prop where
  next : st.1.next = h₀.next + 2 * i
  placed : Placed h₀.next i st.2.1 st.2.2
  old : ∀ x < h₀.next, st.1.m x = h₀.m x
  new : ∀ x, h₀.next ≤ x → x < st.1.next → st.1.m x = ⟨0, 0, 0, false⟩

theorem allocated_allocate (TEST_TIMES : ℕ) (h₀ : Heap p) : Allocated h₀ TEST_TIMES (allocate TEST_TIMES h₀) := by
  refine Loops.foldl_range_induction (P := fun i st => Allocated h₀ i st)
    ⟨rfl, ⟨fun i inside => by omega, fun i inside => by omega⟩, fun _ _ => rfl,
      fun x after (before : x < h₀.next) => absurd before (by omega)⟩ ?_
  rintro i - ⟨⟨m, next⟩, r1, r2⟩ ⟨count, ⟨first, second⟩, old, new⟩
  dsimp only at count first second old new
  refine ⟨?_, ⟨fun j inside => ?_, fun j inside => ?_⟩, fun x before => ?_, fun x after before => ?_⟩
  · change next + 1 + 1 = _
    omega
  · change Function.update r1 i next j = _
    by_cases here : j = i
    · rw [here, Function.update_self, count]
    · rw [Function.update_of_ne here, first j (by omega)]
  · change Function.update r2 i (next + 1) j = _
    by_cases here : j = i
    · rw [here, Function.update_self, count]
    · rw [Function.update_of_ne here, second j (by omega)]
  · change Function.update (Function.update m next ⟨0, 0, 0, false⟩) (next + 1) ⟨0, 0, 0, false⟩ x = _
    rw [Function.update_of_ne (by omega), Function.update_of_ne (by omega), old x before]
  · change x < next + 1 + 1 at before
    change Function.update (Function.update m next ⟨0, 0, 0, false⟩) (next + 1) ⟨0, 0, 0, false⟩ x = _
    by_cases last : x = next + 1
    · rw [last, Function.update_self]
    · rw [Function.update_of_ne last]
      by_cases here : x = next
      · rw [here, Function.update_self]
      · rw [Function.update_of_ne here, new x after (by omega)]

end Points

/-! ## The program -/

section Program

variable {p : ℕ} [Fact p.Prime]

/-- A line with a cheapest chain of the scalar, smallest term first, and twice the coordinates of the multiple. -/
structure Correct (c : Setting p) (P : (c.group.curve (c.group.decode c.group.b)).Point) (w : String) (line : Line p) :
    Prop where
  hexwords : line.hexwords = w
  w_min : ∃ chain, IsCheapest c.macros (number w.toList) chain ∧ line.w_min = some chain.reverse
  r1 : line.r1 = coordinates (number w.toList • P)
  r2 : line.r2 = coordinates (number w.toList • P)

variable {c : Setting p} {TEST_TIMES : ℕ} {hexwords : ℕ → String} {P : (c.group.curve (c.group.decode c.group.b)).Point}
  {a start i : ℕ} {r1 r2 : ℕ → ℕ} {st : Printed p}

/-- The state in front of turn `i`: the base point is in place, and the results of this turn and the later ones are
infinite. -/
structure Before (c : Setting p) (P : (c.group.curve (c.group.decode c.group.b)).Point) (hexwords : ℕ → String)
    (TEST_TIMES a start : ℕ) (r1 : ℕ → ℕ) (i : ℕ) (st : Printed p) : Prop where
  settled : Settled c.pow23_all st.s
  base : c.group.Represents (st.h.m a) P
  room : start + 2 * TEST_TIMES ≤ st.h.next
  fresh : ∀ j, i ≤ j → j < TEST_TIMES →
    c.group.Represents (st.h.m (r1 j)) (0 : (c.group.curve (c.group.decode c.group.b)).Point)
  lines : List.Forall₂ (fun j => Correct c P (hexwords j)) (List.range i) st.lines

/-- The search and its evaluator in a turn, which allocates one point. -/
theorem Before.evaluate (before : Before c P hexwords TEST_TIMES a start r1 i st) (tabled : Tabled c)
    (order : addOrderOf P = c.group.order) (handled : Handled c (hexwords i)) (first : r1 i = start + 2 * i)
    (inside : i < TEST_TIMES) (early : a < start) :
    let u := u c hexwords i
    let s := getOptimalDBC c.macros c.pow23_all (c.log2B u) (c.log3B u) u st.s
    ∃ m, OnPoints.DBC2_POINT_mul c.group.toSimpleGroup s.w_min s.now_DBC st.h.m st.h.next (r1 i) a = m ∧
      c.group.Represents (m (r1 i)) (number (hexwords i).toList • P) ∧
      (∀ x, x ≠ r1 i → x ≠ st.h.next → m x = st.h.m x) ∧
      (∃ chain, IsCheapest c.macros (number (hexwords i).toList) chain ∧ (print s).2 = some chain.reverse) ∧
      Settled c.pow23_all (print s).1 := by
  intro u s
  have value_u : u.toNat = number (hexwords i).toList := toNat_ofString handled.hex handled.short
  obtain ⟨chain, cheapest, present, reversed, printed, settled⟩ := search_spec (n := u) tabled.tables handled.input
    handled.logs before.settled handled.kept
  have staircase := (isDoubleBaseChain_of_isChain handled.input.positive cheapest.chain cheapest.sum).staircase.1
  have normal : P + P ≠ 0 := by
    intro twice
    have divides := addOrderOf_dvd_of_nsmul_eq_zero ((two_nsmul P).trans twice)
    have large := tabled.large
    rw [order] at divides
    have := Nat.le_of_dvd two_pos divides
    omega
  have room := before.room
  obtain ⟨stored, others⟩ := DBC2_POINT_mul_result (s := st.h.next) staircase present reversed
    (before.fresh i le_rfl inside) before.base (by omega) (by omega) fun _ => normal
  rw [cheapest.sum, natCast_zsmul, value_u] at stored
  rw [value_u] at cheapest
  exact ⟨_, rfl, stored, others, ⟨chain, cheapest, printed⟩, settled⟩

theorem Before.turn (before : Before c P hexwords TEST_TIMES a start r1 i st) (tabled : Tabled c)
    (order : addOrderOf P = c.group.order) (handled : Handled c (hexwords i)) (placed : Placed start TEST_TIMES r1 r2)
    (inside : i < TEST_TIMES) (early : a < start) :
    ∃ st', turn c hexwords a r1 r2 st i = some st' ∧ Before c P hexwords TEST_TIMES a start r1 (i + 1) st' := by
  have first := placed.first i inside
  have second := placed.second i inside
  have room := before.room
  obtain ⟨m₁, called, result, others, ⟨chain, cheapest, printed⟩, settled⟩ :=
    before.evaluate tabled order handled first inside early
  have there : c.group.Represents (operand c.group m₁ (some a)) P := by
    change c.group.Represents (m₁ a) P
    rw [others a (by omega) (by omega)]
    exact before.base
  obtain ⟨m, ends, multiplied⟩ := mul_leaves_of_cardinality (c.blinds (i + 1)) (r2 i) (BN_hex2bn (hexwords i)) there
    (fun none => absurd none (Option.some_ne_none a)) (period_of_order order)
  rw [tabled.scalar handled.hex handled.short, natCast_zsmul] at multiplied
  have result' : c.group.Represents (m (r1 i)) (number (hexwords i).toList • P) := by
    rwa [multiplied.others (r1 i) (by omega)]
  have kept : ∀ x, x ≠ r1 i → x ≠ r2 i → x ≠ st.h.next → m x = st.h.m x := fun x away away' away'' =>
    (multiplied.others x away').trans (others x away away'')
  obtain ⟨line, written⟩ : ∃ line : Line p, line = ⟨hexwords i, some chain.reverse, print_point c.group m (r1 i),
    print_point c.group m (r2 i)⟩ := ⟨_, rfl⟩
  refine ⟨⟨_, ⟨m, st.h.next + 1⟩, st.lines ++ [line]⟩, ?_, settled, ?_, ?_, fun j later inside' => ?_, ?_⟩
  · rw [OptimalDBC2.turn]
    dsimp only [Heap.call]
    rw [called, ends, printed, written]
    rfl
  · dsimp only
    rw [kept a (by omega) (by omega) (by omega)]
    exact before.base
  · dsimp only
    omega
  · have first' := placed.first j inside'
    dsimp only
    rw [kept (r1 j) (by omega) (by omega) (by omega)]
    exact before.fresh j (by omega) inside'
  · rw [List.range_succ, written]
    exact List.rel_append before.lines (.cons ⟨rfl, ⟨chain, cheapest, rfl⟩, get_affine_coordinates_eq result',
      get_affine_coordinates_eq multiplied.stored⟩ .nil)

/-- The two triples, written to a point allocated for them. -/
theorem triples {h : Heap p} (base : c.group.Represents (h.m a) P) (early : a < h.next)
    (order : addOrderOf P = c.group.order) :
    let m₁ := ossl_ec_GFp_simple_tpl c.group.toEC_GROUP (EC_POINT_new h).1.m h.next a
    ∃ m, EC_POINT_mul c.group (c.blinds 0) m₁ h.next (BN_hex2bn "3") (some a) = some m ∧
      print_point c.group m₁ h.next = coordinates (3 • P) ∧ print_point c.group m h.next = coordinates (3 • P) ∧
      ∀ x ≠ h.next, m x = h.m x := by
  intro m₁
  obtain ⟨m₀, fresh⟩ : ∃ m₀, m₀ = (EC_POINT_new h).1.m := ⟨_, rfl⟩
  have others : ∀ x ≠ h.next, m₀ x = h.m x := fun x away => fresh ▸ Function.update_of_ne away _ _
  have clear : (m₀ h.next).Z_is_one = false := by
    rw [fresh]
    change (Function.update h.m h.next ⟨0, 0, 0, false⟩ h.next).Z_is_one = false
    rw [Function.update_self]
  rw [← others a early.ne] at base
  obtain ⟨tripled, -⟩ := tpl_leaves base clear
  have there : c.group.Represents (operand c.group m₁ (some a)) P := by
    rw [← tripled.others a early.ne, fresh] at base
    exact base
  obtain ⟨m, ends, multiplied⟩ := mul_leaves_of_cardinality (c.blinds 0) h.next (BN_hex2bn "3") there
    (fun none => absurd none (Option.some_ne_none a)) (period_of_order order)
  refine ⟨m, ends, ?_, ?_, fun x away => ?_⟩
  · rw [succ_nsmul, two_nsmul, ← get_affine_coordinates_eq tripled.stored, fresh]
    rfl
  · have three : BN_hex2bn "3" • P = 3 • P := by
      rw [show BN_hex2bn "3" = 3 by decide +kernel, ofNat_zsmul]
    rw [← three]
    exact get_affine_coordinates_eq multiplied.stored
  · rw [multiplied.others x away, ← others x away, ← tripled.others x away, fresh]

/-- On scalars that the search handles the program ends, whatever blinding factors it draws. It prints twice the triple of
the key's point, and a correct line for every scalar. -/
theorem main_prints (tabled : Tabled c) {G : (c.group.curve (c.group.decode c.group.b)).Point}
    (generator : c.group.Represents c.group.generator G) (prime : addOrderOf G = c.group.order)
    (words : ∀ i < TEST_TIMES, Handled c (hexwords i)) :
    ∃ lines, main c TEST_TIMES hexwords =
        some ⟨coordinates (3 • c.priv_key • G), coordinates (3 • c.priv_key • G), lines⟩ ∧
      List.Forall₂ (fun i => Correct c (c.priv_key • G) (hexwords i)) (List.range TEST_TIMES) lines := by
  obtain ⟨h, a, generated, early, represents, order⟩ :=
    generate_key_spec tabled.toGenerated generator prime ⟨fun _ => ⟨0, 0, 0, false⟩, 0⟩
  generalize c.priv_key • G = P at represents order ⊢
  obtain ⟨next, placed, old, new⟩ := allocated_allocate TEST_TIMES h
  obtain ⟨⟨h₁, r1, r2⟩, allocated⟩ : ∃ st, allocate TEST_TIMES h = st := ⟨_, rfl⟩
  rw [allocated] at next placed old new
  dsimp only at next placed old new
  have base : c.group.Represents (h₁.m a) P := by rwa [old a early]
  obtain ⟨m, ends, tpl, mul, kept⟩ := triples base (by omega) order
  have start : Before c P hexwords TEST_TIMES a h.next r1 0 ⟨State.start.init c.macros, ⟨m, h₁.next + 1⟩, []⟩ := by
    refine ⟨.init, ?_, ?_, fun j _ inside => ?_, .nil⟩
    · dsimp only
      rwa [kept a (by omega)]
    · dsimp only
      omega
    · have first := placed.first j inside
      dsimp only
      rw [kept _ (by omega), new _ (by omega) (by omega)]
      exact represents_zero 0 0
  obtain ⟨st, ran, before⟩ := Loops.exists_foldlM_range
    (P := fun i st => Before c P hexwords TEST_TIMES a h.next r1 i st) start
    fun i inside st before => before.turn tabled order (words i inside) placed inside early
  refine ⟨st.lines, ?_, before.lines⟩
  rw [OptimalDBC2.main]
  simp only [generated, allocated, Option.bind_eq_bind, Option.bind_some]
  change (EC_POINT_mul c.group (c.blinds 0)
    (ossl_ec_GFp_simple_tpl c.group.toEC_GROUP (EC_POINT_new h₁).1.m h₁.next a) h₁.next (BN_hex2bn "3") (some a)).bind _ = _
  rw [ends, Option.bind_some]
  change Option.bind ((List.range TEST_TIMES).foldlM (fun st i => turn c hexwords a r1 r2 st i)
    ⟨State.start.init c.macros, ⟨m, h₁.next + 1⟩, []⟩) _ = _
  rw [ran, Option.bind_some]
  change some (⟨_, print_point c.group m h₁.next, st.lines⟩ : Output p) = _
  rw [mul]
  exact congrArg some (congrArg (fun tpl => (⟨tpl, coordinates (3 • P), st.lines⟩ : Output p)) tpl)

theorem main_prints_powerWord : ∃ G : (setting.group.curve (setting.group.decode setting.group.b)).Point,
    setting.group.Represents setting.group.generator G ∧ ∃ lines,
      main setting 1 (fun _ => powerWord) = some ⟨coordinates (3 • 1 • G), coordinates (3 • 1 • G), lines⟩ ∧
        List.Forall₂ (fun _ => Correct setting (1 • G) powerWord) (List.range 1) lines := by
  obtain ⟨G, generator, order⟩ := linked_setting.generator
  exact ⟨G, generator, main_prints linked_setting.toTabled generator order fun _ _ =>
    suitable_powerWord.toHandled⟩

end Program

end OptimalDBC2

end DbcSnark.DBCTest
