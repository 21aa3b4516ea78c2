import DbcSnark.Proofs.DBCTest.StoredChain

/-! # `getOptimalDBC` computes an optimal chain

On the frontier `M = 2 ^ bBound[t] * 3 ^ t` lies in `(n, 2 * n]`, so `n` is its own residue and the
second branch of the comparison with `w_min` is always taken. A cheapest chain of `n` leads with a
frontier power or with half of one. The first kind is a candidate; for the second the shortest chain
below the frontier power is at least as good. Everything rests on `six_n` holding `6 * n`, and the
lost carry of `mul_3` breaks that for some inputs.
-/

namespace DbcSnark.DBCTest

open DoubleBase MyBigInt

/-- Stored rows that form a double-base chain of `n`. -/
structure IsDoubleBaseChain (n : ℕ) (rows : List (ℤ × ℕ × ℕ)) : Prop where
  leading : ∃ dbl tpl rest, rows = (1, dbl, tpl) :: rest
  signs : ∀ r ∈ rows, r.1 = 1 ∨ r.1 = -1
  descending : rows.Pairwise fun x y => y.2.1 ≤ x.2.1 ∧ y.2.2 ≤ x.2.2
  sum : (rows.map fun r => r.1 * 2 ^ r.2.1 * 3 ^ r.2.2).sum = (n : ℤ)

private theorem below_descending {b t : ℕ} {c : List Chain} (chain : Below b t c) :
    ∀ y ∈ c, y.dbl ≤ b ∧ y.tpl ≤ t := by
  induction c generalizing b t with
  | nil => simp
  | cons x c ih =>
    obtain ⟨⟨left, right, -⟩, rest⟩ := chain
    intro y member
    rcases List.mem_cons.mp member with rfl | member
    · exact ⟨left, right⟩
    · have := ih rest y member
      omega

private theorem below_pairwise {b t : ℕ} {c : List Chain} (chain : Below b t c) :
    c.Pairwise fun x y => y.dbl ≤ x.dbl ∧ y.tpl ≤ x.tpl := by
  induction c generalizing b t with
  | nil => exact .nil
  | cons x c ih => exact .cons (below_descending chain.2) (ih chain.2)

private theorem row_value (x : Chain) : (row x).1 * 2 ^ (row x).2.1 * 3 ^ (row x).2.2 = x.value := by
  rcases x with ⟨dbl, tpl, _ | _⟩ <;> simp [row, Term.value, Term.weight, pow23]

theorem sum_rows (c : List Chain) : ((c.map row).map fun r => r.1 * 2 ^ r.2.1 * 3 ^ r.2.2).sum = value c := by
  simp only [List.map_map, value]
  congr 1
  exact List.map_congr_left fun x _ => row_value x

/-- The rows of a chain of a positive number. -/
theorem isDoubleBaseChain_of_isChain {n : ℕ} (positive : 0 < n) {c : List Chain} (chain : IsChain c)
    (sum : value c = n) : IsDoubleBaseChain n (c.map row) := by
  cases c with
  | nil => exact absurd chain id
  | cons x c =>
    have sign := chain.below.leading_sign
    have plus : x.minus = false := by
      rw [← Bool.not_eq_true, sign, sum]
      omega
    refine ⟨⟨x.dbl, x.tpl, c.map row, by simp [row, plus]⟩, ?_, ?_, by rw [sum_rows, sum]⟩
    · intro r member
      obtain ⟨y, -, rfl⟩ := List.mem_map.mp member
      rcases y with ⟨dbl, tpl, _ | _⟩ <;> simp [row]
    · exact List.pairwise_map.mpr (below_pairwise chain.below)

/-! ## The comparison at a frontier cell -/

section Close

variable {m : Macros} {n : ℕ} {done : Set (ℕ × ℕ)} {s : State} {b t : ℕ} {c : List Chain}

private theorem minV_spec (m : Macros) (x y z : OptimalDBC) :
    (OptimalDBC.minV m x y z = x ∨ OptimalDBC.minV m x y z = y ∨ OptimalDBC.minV m x y z = z) ∧
      (OptimalDBC.minV m x y z).getV m ≤ x.getV m ∧ (OptimalDBC.minV m x y z).getV m ≤ y.getV m ∧
        (OptimalDBC.minV m x y z).getV m ≤ z.getV m := by
  unfold OptimalDBC.minV
  split_ifs <;> simp <;> omega

/-- The chains a frontier cell competes with: those led by the frontier power or by half of it. -/
def LeadsNear (b t : ℕ) : List Chain → Prop
  | [] => False
  | x :: _ => x.tpl = t ∧ (x.dbl = b ∨ x.dbl + 1 = b)

/-- `w_min` stands for a chain of `n` that costs less than the mark of a missing chain. -/
structure Current (m : Macros) (n : ℕ) (done : Set (ℕ × ℕ)) (s : State) (c : List Chain) : Prop where
  chain : IsChain c
  sum : value c = n
  holds : Holds m done s c
  affordable : cost m.DBL_COST m.TPL_COST m.ADD_COST c < 99999999

private theorem Current.of_denotes {r : OptimalDBC} {o : Option (List Chain)} (denotes : Denotes s.cells done r o)
    (sound : ∀ d ∈ o, IsChain d ∧ value d = n) (affordable : r.getV m < 99999999) :
    ∃ c, Current m n done { s with w_min := r } c := by
  cases o with
  | none =>
    rw [denotes.getV_none m] at affordable
    omega
  | some d =>
    obtain ⟨chain, sum⟩ := sound d rfl
    refine ⟨d, chain, sum, .inr ⟨?_, denotes⟩, ?_⟩
    · rintro rfl
      exact chain
    · rw [Represents.getV m denotes] at affordable
      exact_mod_cast affordable

/-- Just below a number's own size a chain leads with the half or the third of the bound. -/
private theorem cost_le_of_below {d e : List Chain} (triple : m.DBL_COST ≤ m.TPL_COST) (chain : Below b t d)
    (sum : value d = n) (above : pow23 b t ≤ 2 * n) (positive : 0 < n) (leads : LeadsNear b t e)
    (half : ∀ x c, e = x :: c → x.dbl + 1 = b) (short : d.length ≤ e.length) :
    cost m.DBL_COST m.TPL_COST m.ADD_COST d ≤ cost m.DBL_COST m.TPL_COST m.ADD_COST e := by
  cases e with
  | nil => exact absurd leads id
  | cons x c =>
    cases d with
    | nil =>
      simp only [value_nil] at sum
      omega
    | cons y d =>
      obtain ⟨rfl, -⟩ := leads
      obtain rfl := half x c rfl
      obtain ⟨⟨left, right, proper⟩, rest⟩ := chain
      have tail := rest.value_lt
      have dominated : y.value ≤ pow23 y.dbl y.tpl := le_of_abs_le y.abs_value.le
      rw [value_cons] at sum
      simp only [List.length_cons] at short
      have additions : m.ADD_COST * d.length ≤ m.ADD_COST * c.length := Nat.mul_le_mul_left _ (by omega)
      simp only [cost]
      obtain ⟨dbl, tpl, -⟩ | ⟨dbl, tpl, -⟩ | ⟨-, -, absurd⟩ :=
        quotient left right proper (k := 4) (by norm_num) (by omega)
      · rw [show y.dbl = x.dbl by omega, ← tpl]
        omega
      · rw [← dbl, tpl, Nat.mul_succ, Nat.mul_succ]
        omega
      · omega

/-- After the comparison `w_min` still stands for a chain of `n`, one no dearer than before and no
dearer than any chain of `n` that leads near the frontier power. -/
theorem Current.close (current : Current m n done s c) (correct : Correct n done s (b, t)) (member : (b, t) ∈ done)
    (below : (n : ℤ) < pow23 b t) (above : pow23 b t ≤ 2 * n) (positive : 0 < n) :
    ∃ c', Current m n done { s with w_min := .minV m (s.w b t) (s.addTo .w_ b t b t 1) s.w_min } c' ∧
      cost m.DBL_COST m.TPL_COST m.ADD_COST c' ≤ cost m.DBL_COST m.TPL_COST m.ADD_COST c ∧
      (m.DBL_COST ≤ m.TPL_COST → ∀ e, IsChain e → value e = n → LeadsNear b t e →
        cost m.DBL_COST m.TPL_COST m.ADD_COST c' ≤ cost m.DBL_COST m.TPL_COST m.ADD_COST e) := by
  obtain ⟨⟨o, denotes, best⟩, o_, denotes_, best_⟩ := correct
  have own : residue n b t = n := Int.emod_eq_of_lt (by omega) below
  rw [own] at best best_
  simp only at denotes best best_
  have extended : Denotes s.cells done (s.addTo .w_ b t b t 1) (o_.map (⟨b, t, false⟩ :: ·)) :=
    Denotes.add (p := (b, t)) denotes_ member b t 1
  obtain ⟨chosen, first, second, third⟩ := minV_spec m (s.w b t) (s.addTo .w_ b t b t 1) s.w_min
  have kept := current.holds.getV
  have affordable := current.affordable
  have next : ∃ c', Current m n done { s with w_min := .minV m (s.w b t) (s.addTo .w_ b t b t 1) s.w_min } c' := by
    rcases chosen with same | same | same <;> rw [same] at third ⊢
    · refine Current.of_denotes denotes (fun d present => ?_) (by omega)
      obtain ⟨chain, sum⟩ := best.sound d present
      refine ⟨chain.isChain ?_, sum⟩
      rintro rfl
      simp only [value_nil] at sum
      omega
    · refine Current.of_denotes extended (fun d present => ?_) (by omega)
      obtain ⟨d, member, rfl⟩ := Option.mem_map.mp present
      obtain ⟨chain, sum⟩ := best_.sound d member
      refine ⟨chain, ?_⟩
      rw [value_cons, sum]
      simp [Term.value, Term.weight]
    · exact ⟨c, current.chain, current.sum, current.holds, affordable⟩
  obtain ⟨c', current'⟩ := next
  have worth := current'.holds.getV
  simp only at worth
  refine ⟨c', current', by omega, fun triple e chain sum leads => ?_⟩
  cases e with
  | nil => exact absurd leads id
  | cons x e =>
    have sign := chain.below.leading_sign
    obtain ⟨tpl, full | half⟩ := leads
    · -- a chain led by the frontier power itself
      have plus : x.minus = false := by
        rw [← Bool.not_eq_true, sign, sum]
        omega
      obtain ⟨dbl, tpl, minus⟩ := x
      simp only at full tpl plus
      subst full tpl plus
      have rest : value e = n - pow23 dbl tpl := by
        rw [value_cons] at sum
        simp only [Term.value, Term.weight, Bool.false_eq_true, if_false] at sum
        omega
      obtain ⟨d, present, short⟩ := best_.shortest e chain rest
      obtain rfl := Option.mem_def.mp present
      have price := Represents.getV m (c := ⟨dbl, tpl, false⟩ :: d) extended
      have additions : m.ADD_COST * d.length ≤ m.ADD_COST * e.length := Nat.mul_le_mul_left _ short
      simp only [cost] at price worth ⊢
      omega
    · -- a chain led by half of the frontier power
      have inside : Below b t (x :: e) := ⟨by omega, chain⟩
      obtain ⟨d, present, short⟩ := best.shortest (x :: e) inside sum
      obtain rfl := Option.mem_def.mp present
      have price := Represents.getV m denotes
      have cheap := cost_le_of_below triple (best.sound d rfl).1 (best.sound d rfl).2 above positive
        (show LeadsNear b t (x :: e) from ⟨tpl, .inr half⟩)
        (fun y c same => by obtain ⟨rfl, -⟩ := List.cons.inj same; exact half) short
      omega

theorem Current.frame {done' : Set (ℕ × ℕ)} {s' : State} (current : Current m n done s c) (same : SameOn done s s')
    (grown : done ⊆ done') : Current m n done' s' c :=
  ⟨current.chain, current.sum, current.holds.frame same grown, current.affordable⟩

end Close

/-! ## A whole call -/

section Call

variable {m : Macros} {pow23_all : ℕ → ℕ → MyBigInt m.INTS} {n : MyBigInt m.INTS} {s : State}

/-- The inputs of a call: a positive number whose sixfold fits. -/
structure Input (m : Macros) (n : MyBigInt m.INTS) : Prop where
  positive : 1 ≤ n.toNat
  fits : 6 * n.toNat < 2 ^ (32 * m.INTS)

theorem Input.toNat_mul2 (input : Input m n) : n.mul2.toNat = 2 * n.toNat := by
  have fits := input.fits
  rw [MyBigInt.toNat_mul2, Nat.mod_eq_of_lt (by rw [← pow_mul]; omega)]

theorem Input.room (input : Input m n) : Room n.mul2 := by
  have positive := input.positive
  have fits := input.fits
  rw [pow_mul] at fits
  exact ⟨by rw [input.toNat_mul2]; omega, by rw [input.toNat_mul2]; omega⟩

/-- The two logarithms are exact floors. -/
structure Logs (n log2B log3B : ℕ) : Prop where
  two : log2B = Nat.log 2 (2 * n)
  three : log3B = Nat.log 3 (2 * n)

variable {log2B log3B : ℕ}

theorem log3B_lt (input : Input m n) (logs : Logs n.toNat log2B log3B) : log3B < m.MAX_3 := by
  have positive := input.positive
  have fits := input.fits
  have power : 3 ^ log3B ≤ 2 * n.toNat := by
    rw [logs.three]
    exact Nat.pow_log_le_self 3 (by omega)
  by_contra large
  have rows : 2019 * m.INTS ≤ 100 * (log3B + 1) := by
    unfold Macros.MAX_3 at large
    omega
  have less : (2 ^ (32 * m.INTS)) ^ 100 ≤ (3 ^ (log3B + 1)) ^ 100 := by
    calc (2 ^ (32 * m.INTS)) ^ 100 = (2 ^ 3200) ^ m.INTS := by rw [← pow_mul, ← pow_mul]; congr 1; ring
      _ ≤ (3 ^ 2019) ^ m.INTS := Nat.pow_le_pow_left (by decide +kernel) _
      _ ≤ (3 ^ (log3B + 1)) ^ 100 := by
        rw [← pow_mul, ← pow_mul]
        exact Nat.pow_le_pow_right (by norm_num) (by omega)
  have := (Nat.pow_le_pow_iff_left (by norm_num)).mp less
  rw [pow_succ] at this
  omega

/-- The frontier a call works with. -/
def callBound (pow23_all : ℕ → ℕ → MyBigInt m.INTS) (n : MyBigInt m.INTS) (log2B log3B : ℕ) (s : State) : ℕ → ℕ :=
  frontier pow23_all n.mul2 log2B log3B s.bBound

theorem callBound_spec (tables : Exact pow23_all) (input : Input m n) (logs : Logs n.toNat log2B log3B)
    {t : ℕ} (row : t ≤ log3B) : callBound pow23_all n log2B log3B s t = topBound (2 * n.toNat) t := by
  have spec := frontier_spec tables input.room s.bBound t
  rw [input.toNat_mul2, ← logs.two, ← logs.three, if_pos row] at spec
  exact spec

theorem grid_of_input (tables : Exact pow23_all) (input : Input m n) (logs : Logs n.toNat log2B log3B) :
    Grid m (callBound pow23_all n log2B log3B s) log2B log3B where
  rows := log3B_lt input logs
  columns := by
    have positive := input.positive
    have fits := input.fits
    rw [logs.two]
    exact Nat.log_lt_of_lt_pow (by omega) (by unfold Macros.MAX_2; omega)
  first := by
    rw [callBound_spec tables input logs (Nat.zero_le _), logs.two]
    simp [topBound]
  antitone t t' less row := by
    rw [callBound_spec tables input logs row, callBound_spec tables input logs (less.trans row)]
    exact Nat.log_mono_right (Nat.div_le_div_left (Nat.pow_le_pow_right (by norm_num) less) (by positivity))

/-- On the frontier the power lies above `n` and not above `2 * n`. -/
theorem frontier_power (tables : Exact pow23_all) (input : Input m n) (logs : Logs n.toNat log2B log3B) {t : ℕ}
    (row : t ≤ log3B) : (n.toNat : ℤ) < pow23 (callBound pow23_all n log2B log3B s t) t ∧
      pow23 (callBound pow23_all n log2B log3B s t) t ≤ 2 * n.toNat := by
  have positive := input.positive
  have reach : 3 ^ t ≤ 2 * n.toNat := Nat.pow_le_of_le_log (by omega) (logs.three ▸ row)
  obtain ⟨low, high⟩ := topBound_spec reach
  rw [callBound_spec tables input logs row]
  have cast : pow23 (topBound (2 * n.toNat) t) t = ((2 ^ topBound (2 * n.toNat) t * 3 ^ t : ℕ) : ℤ) := by simp [pow23]
  rw [pow_succ] at high
  rw [cast]
  constructor
  · norm_cast
    nlinarith
  · exact_mod_cast low

/-- The branch `n >= pow23_all[b][t]` is never taken on the frontier. -/
theorem closeCell_eq (tables : Exact pow23_all) (input : Input m n) (logs : Logs n.toNat log2B log3B) {b t : ℕ}
    {s₀ : State} (row : t ≤ log3B) (top : b = callBound pow23_all n log2B log3B s₀ t) (s : State) :
    closeCell m pow23_all n b t s = { s with w_min := .minV m (s.w b t) (s.addTo .w_ b t b t 1) s.w_min } := by
  obtain ⟨below, above⟩ := frontier_power (s := s₀) tables input logs row
  rw [← top] at below above
  have fits := input.fits
  have cast : pow23 b t = ((2 ^ b * 3 ^ t : ℕ) : ℤ) := by simp [pow23]
  rw [cast] at below above
  have entry : (pow23_all b t).toNat = 2 ^ b * 3 ^ t := by
    apply tables
    rw [← pow_mul]
    omega
  have branch : n.ge (pow23_all b t) = false := by
    rw [Bool.eq_false_iff, ne_eq, ge_iff, entry]
    omega
  rw [closeCell, branch, if_neg (by simp)]

private theorem binary_cost_lt (m : Macros) (v : ℕ) :
    cost m.DBL_COST m.TPL_COST m.ADD_COST (binary v (32 * m.INTS)) < 99999999 := by
  have chain := below_binary v (32 * m.INTS)
  have length := chain.length_le
  have bound := m.affordable
  cases form : binary v (32 * m.INTS) with
  | nil => simp [cost]
  | cons x c =>
    rw [form] at chain length
    obtain ⟨⟨left, right, -⟩, -⟩ := chain
    simp only [List.length_cons] at length
    have flat : x.tpl = 0 := by omega
    have doublings : m.DBL_COST * x.dbl ≤ m.DBL_COST * (32 * m.INTS) := Nat.mul_le_mul_left _ left
    have additions : m.ADD_COST * c.length ≤ m.ADD_COST * (32 * m.INTS) := Nat.mul_le_mul_left _ (by omega)
    simp only [cost, flat, mul_zero, add_zero]
    nlinarith [Nat.zero_le (m.TPL_COST * m.INTS), Nat.zero_le (m.DBL_COST * m.INTS), Nat.zero_le (m.ADD_COST * m.INTS)]

/-- The state in which the loops start. -/
def prepared (pow23_all : ℕ → ℕ → MyBigInt m.INTS) (n : MyBigInt m.INTS) (log2B log3B : ℕ) (s : State) : State :=
  { assignBinary m n s with bBound := callBound pow23_all n log2B log3B s }

/-- Every loop of a call done: `w_min` stands for a chain of `n`, and no chain of `n` that leads near a
frontier power is cheaper. -/
theorem fillTables_spec (tables : Exact pow23_all) (input : Input m n) (logs : Logs n.toNat log2B log3B)
    (ready : Ready m s) (exactly : n.mul2.mul3.toNat = 6 * n.toNat) :
    let bBound := callBound pow23_all n log2B log3B s
    let done := doneBy bBound (schedule bBound log2B log3B)
    let s' := fillTables m pow23_all n n.mul2.mul3 log2B log3B (prepared pow23_all n log2B log3B s)
    Filled m n.toNat done s' ∧ ∃ c, Current m n.toNat done s' c ∧
      (m.DBL_COST ≤ m.TPL_COST → ∀ t ≤ log3B, ∀ e, IsChain e → value e = n.toNat → LeadsNear (bBound t) t e →
        cost m.DBL_COST m.TPL_COST m.ADD_COST c ≤ cost m.DBL_COST m.TPL_COST m.ADD_COST e) := by
  intro bBound done s'
  have grid := grid_of_input (s := s) tables input logs
  have started : Current m n.toNat (doneBy bBound []) (prepared pow23_all n log2B log3B s)
      (binary n.toNat (32 * m.INTS)) := by
    have sum := value_binary n.toNat (32 * m.INTS)
    rw [Nat.mod_eq_of_lt (by have := n.toNat_lt; rwa [pow_mul])] at sum
    have positive := input.positive
    refine ⟨(below_binary _ _).isChain ?_, sum, holds_assignBinary n positive s, binary_cost_lt m n.toNat⟩
    intro empty
    rw [empty, value_nil] at sum
    omega
  have all := visitAll_induction pow23_all n grid (fun b t _ => classified_of_eq n.toNat b t)
    (fun visited s => ∃ c, Current m n.toNat (doneBy bBound visited) s c ∧
      (m.DBL_COST ≤ m.TPL_COST → ∀ t, (bBound t, t) ∈ visited → ∀ e, IsChain e → value e = n.toNat →
        LeadsNear (bBound t) t e →
          cost m.DBL_COST m.TPL_COST m.ADD_COST c ≤ cost m.DBL_COST m.TPL_COST m.ADD_COST e))
    (s := prepared pow23_all n log2B log3B s) rfl (ready.of_cells rfl) ⟨_, started, by simp⟩ ?_
  · have flat := fillTables_eq pow23_all n n.mul2.mul3 log2B log3B (prepared pow23_all n log2B log3B s)
    rw [exactly] at flat
    change s' = visitAll pow23_all n (6 * n.toNat) (schedule bBound log2B log3B) _ at flat
    rw [← flat] at all
    obtain ⟨filled, c, current, cheapest⟩ := all
    exact ⟨filled, c, current, fun triple t row => cheapest triple t (grid.mem_schedule row le_rfl le_rfl).1⟩
  · rintro visited b t s₁ s₂ scheduled - filled same ⟨c, current, cheapest⟩
    have row := (mem_schedule.mp scheduled).1
    have framed := current.frame same (doneBy_subset bBound visited (b, t))
    split_ifs with top
    · change b = bBound t at top
      have member : (b, t) ∈ doneBy bBound (visited ++ [(b, t)]) := .inr ⟨by simp, top.le⟩
      obtain ⟨below, above⟩ := frontier_power (s := s) tables input logs row
      change (n.toNat : ℤ) < pow23 (bBound t) t at below
      change pow23 (bBound t) t ≤ 2 * n.toNat at above
      rw [← top] at below above
      rw [closeCell_eq tables input logs row top]
      obtain ⟨c', current', cheaper, near⟩ :=
        framed.close (filled.correct _ member) member below above input.positive
      refine ⟨c', current', fun triple t' seen e chain sum leads => ?_⟩
      rcases List.mem_append.mp seen with seen | here
      · exact cheaper.trans (cheapest triple t' seen e chain sum leads)
      · obtain ⟨-, rfl⟩ := Prod.mk.inj (List.mem_singleton.mp here)
        rw [← top] at leads
        exact near triple e chain sum leads
    · refine ⟨c, framed, fun triple t' seen => cheapest triple t' ?_⟩
      rcases List.mem_append.mp seen with seen | here
      · exact seen
      · obtain ⟨same, rfl⟩ := Prod.mk.inj (List.mem_singleton.mp here)
        exact absurd same.symm top

/-- A cheapest chain of `n` may be assumed to lead near a frontier power. -/
theorem leadsNear_of_le (tables : Exact pow23_all) (input : Input m n) (logs : Logs n.toNat log2B log3B)
    {x : Chain} {d : List Chain} (chain : IsChain (x :: d)) (sum : value (x :: d) = n.toNat)
    (leading : x.weight ≤ 2 * n.toNat) :
    x.tpl ≤ log3B ∧ LeadsNear (callBound pow23_all n log2B log3B s x.tpl) x.tpl (x :: d) := by
  have positive := input.positive
  have tail := Below.value_lt (show Below x.dbl x.tpl d from chain)
  have dominated : x.value ≤ pow23 x.dbl x.tpl := le_of_abs_le x.abs_value.le
  rw [value_cons] at sum
  have cast : pow23 x.dbl x.tpl = ((2 ^ x.dbl * 3 ^ x.tpl : ℕ) : ℤ) := by simp [pow23]
  change pow23 x.dbl x.tpl ≤ 2 * n.toNat at leading
  have large : (n.toNat : ℤ) < 2 * pow23 x.dbl x.tpl := by omega
  rw [cast] at leading large
  norm_cast at leading large
  have reach : 3 ^ x.tpl ≤ 2 * n.toNat := (Nat.le_mul_of_pos_left _ (by positivity)).trans leading
  have row : x.tpl ≤ log3B := logs.three ▸ Nat.le_log_of_pow_le (by norm_num) reach
  refine ⟨row, rfl, ?_⟩
  rw [callBound_spec tables input logs row]
  have upper : x.dbl ≤ topBound (2 * n.toNat) x.tpl := (le_topBound_iff reach).mpr leading
  have lower : ¬ x.dbl + 2 ≤ topBound (2 * n.toNat) x.tpl := by
    rw [le_topBound_iff reach, show 2 ^ (x.dbl + 2) * 3 ^ x.tpl = 4 * (2 ^ x.dbl * 3 ^ x.tpl) by ring]
    omega
  omega

/-- What the search leaves in `w_min` when `six_n` holds `6 * n`. -/
theorem fillTables_optimal (tables : Exact pow23_all) (input : Input m n) (logs : Logs n.toNat log2B log3B)
    (ready : Ready m s) (exactly : n.mul2.mul3.toNat = 6 * n.toNat) :
    ∃ done c, Current m n.toNat done
        (fillTables m pow23_all n n.mul2.mul3 log2B log3B (prepared pow23_all n log2B log3B s)) c ∧
      (m.DBL_COST ≤ m.TPL_COST → m.TPL_COST - m.DBL_COST ≤ m.ADD_COST → ∀ e, IsChain e → value e = n.toNat →
        cost m.DBL_COST m.TPL_COST m.ADD_COST c ≤ cost m.DBL_COST m.TPL_COST m.ADD_COST e) := by
  obtain ⟨-, c, current, cheapest⟩ := fillTables_spec tables input logs ready exactly
  refine ⟨_, c, current, fun triple add e chain sum => ?_⟩
  have positive := input.positive
  obtain ⟨x, d, chain', sum', leading, cheaper⟩ := chain.exists_leading_le triple add (by omega)
  rw [sum] at sum' leading
  obtain ⟨row, near⟩ := leadsNear_of_le (s := s) tables input logs chain' sum' leading
  exact (cheapest triple x.tpl row (x :: d) chain' sum' near).trans cheaper

/-- What a call computes when `six_n` holds `6 * n`. -/
theorem getOptimalDBC_spec (tables : Exact pow23_all) (input : Input m n) (logs : Logs n.toNat log2B log3B)
    (ready : Ready m s) (exactly : n.mul2.mul3.toNat = 6 * n.toNat) :
    ∃ c, IsChain c ∧ value c = n.toNat ∧
      (getOptimalDBC m pow23_all log2B log3B n s).chain = c.map row ∧
      (getOptimalDBC m pow23_all log2B log3B n s).w_min.getV m = cost m.DBL_COST m.TPL_COST m.ADD_COST c ∧
      (m.DBL_COST ≤ m.TPL_COST → m.TPL_COST - m.DBL_COST ≤ m.ADD_COST → ∀ e, IsChain e → value e = n.toNat →
        cost m.DBL_COST m.TPL_COST m.ADD_COST c ≤ cost m.DBL_COST m.TPL_COST m.ADD_COST e) := by
  obtain ⟨done, c, current, cheapest⟩ := fillTables_optimal tables input logs ready exactly
  refine ⟨c, current.chain, current.sum, current.holds.chain_store, ?_, cheapest⟩
  rw [← current.holds.getV, getOptimalDBC, store, simDBC]
  split <;> rfl

end Call

/-! ## States between calls -/

/-- The states in which a call can start: after `init`, after other calls, and after anything that
leaves the tables alone, such as the other searches. -/
inductive Reachable (m : Macros) (pow23_all : ℕ → ℕ → MyBigInt m.INTS) : State → Prop
  | init : Reachable m pow23_all (State.start.init m)
  | call (log2B log3B : ℕ) (n : MyBigInt m.INTS) (s : State) (before : Reachable m pow23_all s) :
      Reachable m pow23_all (getOptimalDBC m pow23_all log2B log3B n s)
  | other (s s' : State) (before : Reachable m pow23_all s) (same : s'.cells = s.cells) : Reachable m pow23_all s'

private theorem init_ready (m : Macros) : Ready m (State.start.init m) := by
  constructor
  · simp [State.init, State.w, State.set, State.start, Represents, OptimalDBC.assignZero]
  · simp [State.init, State.w_, State.set, State.start, Denotes, OptimalDBC.setNULL]
  · intro table t row
    simp [State.init, State.w, State.w_, State.set, State.start, Denotes, OptimalDBC.setNULL, row]
  · intro table b column
    simp [State.init, State.w, State.w_, State.set, State.start, Denotes, OptimalDBC.setNULL, column]

private theorem visitAll_ready {m : Macros} (pow23_all : ℕ → ℕ → MyBigInt m.INTS) (n : MyBigInt m.INTS) (six : ℕ)
    (cells : List (ℕ × ℕ)) {s : State} (ready : Ready m s) : Ready m (visitAll pow23_all n six cells s) := by
  induction cells generalizing s with
  | nil => exact ready
  | cons p cells ih =>
    apply ih
    simp only [visit_eq]
    have filled : Ready m (fillBelow p.1 p.2 (digit six p.1 p.2) s) := by
      unfold fillBelow
      split_ifs with inside
      · exact ready.fillCell _ inside.1
      · exact ready
    split_ifs
    · unfold closeCell
      split_ifs <;> exact filled.of_cells rfl
    · exact filled

/-- Whatever was computed before, the tables are ready for the next call. -/
theorem Reachable.ready {m : Macros} {pow23_all : ℕ → ℕ → MyBigInt m.INTS} {s : State}
    (reachable : Reachable m pow23_all s) : Ready m s := by
  induction reachable with
  | init => exact init_ready m
  | call log2B log3B n s _ ready =>
    have started : Ready m (prepared pow23_all n log2B log3B s) := ready.of_cells rfl
    have flat := fillTables_eq pow23_all n n.mul2.mul3 log2B log3B (prepared pow23_all n log2B log3B s)
    have tables : Ready m (fillTables m pow23_all n n.mul2.mul3 log2B log3B (prepared pow23_all n log2B log3B s)) := by
      rw [flat]
      exact visitAll_ready pow23_all n _ _ started
    refine tables.of_cells ?_
    rw [getOptimalDBC, store, simDBC]
    split <;> rfl
  | other s s' _ same ready => exact ready.of_cells same

/-- A table without truncated entries, such as `init` computes. -/
def powTable (INTS : ℕ) (i j : ℕ) : MyBigInt INTS := .ofNat INTS (2 ^ i * 3 ^ j)

theorem powTable_exact (INTS : ℕ) : Exact (powTable INTS) := by
  intro i j fits
  rw [powTable, toNat_ofNat, Nat.mod_eq_of_lt fits]

/-! ## A lost carry

For `n = 0x2aaaaaaaaaaaaaab` the product `6 * n` is `2 ^ 64 + 2`, and `mul_3` drops the carry into the third
word, so `six_n` is 2. All digits are then those of `n = 0`, and the empty chain, which costs nothing,
displaces the binary expansion. -/

private theorem classified_two (b t : ℕ) (proper : 0 < b + t) : Classified 2 0 b t := by
  have large : 2 ≤ 2 ^ b * 3 ^ t := by
    have := two_mul_pow23_le (Nat.zero_le b) (Nat.zero_le t) (by omega)
    rw [pow23_zero_zero, pow23] at this
    exact_mod_cast this
  have small : digit 2 b t < 2 := by
    have quotient : 2 / (2 ^ b * 3 ^ t) ≤ 1 := Nat.div_le_of_le_mul (by omega)
    exact Nat.lt_succ_of_le ((Nat.mod_le _ 6).trans quotient)
  have positive := pow23_pos b t
  constructor <;> intro range <;> first | omega | simp [residue, positive]

/-- `w_min` is basic, and empty as soon as a frontier cell has been visited. -/
private def Emptied (bBound : ℕ → ℕ) (visited : List (ℕ × ℕ)) (s : State) : Prop :=
  s.w_min.isBasic = true ∧ (0 < s.w_min.basic_value ∨ s.w_min.length = 0) ∧
    ((∃ t, (bBound t, t) ∈ visited) → s.w_min.length = 0)

private theorem emptied_close {m : Macros} {bBound : ℕ → ℕ} {visited : List (ℕ × ℕ)} {b t : ℕ} {s : State}
    {done : Set (ℕ × ℕ)} (correct : Correct 0 done s (b, t)) (member : (b, t) ∈ done)
    (emptied : Emptied bBound visited s) :
    Emptied bBound (visited ++ [(b, t)])
      { s with w_min := .minV m (s.w b t) (s.addTo .w_ b t b t 1) s.w_min } := by
  obtain ⟨⟨o, denotes, best⟩, o_, denotes_, best_⟩ := correct
  have zero : residue 0 b t = 0 := by simp [residue]
  simp only [zero] at denotes best best_
  obtain ⟨d, present, short⟩ := best.shortest [] trivial rfl
  obtain rfl := Option.mem_def.mp present
  obtain rfl := List.length_eq_zero_iff.mp (Nat.le_zero.mp short)
  have absent : o_ = none := by
    cases o_ with
    | none => rfl
    | some d =>
      obtain ⟨chain, sum⟩ := best_.sound d rfl
      have := chain.value_lt
      omega
  subst absent
  have null : Denotes s.cells done (s.addTo .w_ b t b t 1) none :=
    Denotes.add (p := (b, t)) denotes_ member b t 1
  obtain ⟨basic, worth, -⟩ := emptied
  have first := Represents.getV m (show Represents s.cells done (s.w b t) [] from denotes)
  have second := null.getV_none m
  have third : s.w_min.getV m = s.w_min.basic_value := by rw [OptimalDBC.getV, basic, if_pos rfl]
  obtain ⟨-, basic', length', value'⟩ := (show Represents s.cells done (s.w b t) [] from denotes)
  simp only [cost, Nat.cast_zero] at first
  unfold Emptied OptimalDBC.minV
  simp only [first, second, third]
  rw [if_pos (by norm_num)]
  split_ifs with cheaper
  · exact ⟨basic', .inr length', fun _ => length'⟩
  · have length : s.w_min.length = 0 := by omega
    exact ⟨basic, .inr length, fun _ => length⟩

section LostCarry

variable {m : Macros} {pow23_all : ℕ → ℕ → MyBigInt m.INTS} {n : MyBigInt m.INTS} {s : State} {log2B log3B : ℕ}

private theorem emptied_fillTables (tables : Exact pow23_all) (input : Input m n) (logs : Logs n.toNat log2B log3B)
    (ready : Ready m s) (lost : n.mul2.mul3.toNat = 2) (worth : 0 < (assignBinary m n s).w_min.basic_value) :
    (fillTables m pow23_all n n.mul2.mul3 log2B log3B (prepared pow23_all n log2B log3B s)).w_min.length = 0 := by
  have grid := grid_of_input (s := s) tables input logs
  have flat := fillTables_eq pow23_all n n.mul2.mul3 log2B log3B (prepared pow23_all n log2B log3B s)
  rw [lost] at flat
  have all := visitAll_induction pow23_all n grid classified_two
    (Emptied (callBound pow23_all n log2B log3B s))
    (s := prepared pow23_all n log2B log3B s) rfl (ready.of_cells rfl) ⟨rfl, .inl worth, by simp⟩ ?_
  · rw [flat]
    exact all.2.2.2 ⟨0, (grid.mem_schedule (Nat.zero_le _) le_rfl le_rfl).1⟩
  · intro visited b t s₁ s₂ scheduled _ filled same emptied
    have row := (mem_schedule.mp scheduled).1
    have framed : Emptied (callBound pow23_all n log2B log3B s) visited s₂ := by
      unfold Emptied
      rw [same.w_min]
      exact emptied
    split_ifs with top
    · rw [closeCell_eq tables input logs row top]
      have member : (b, t) ∈ doneBy (callBound pow23_all n log2B log3B s) (visited ++ [(b, t)]) :=
        .inr ⟨by simp, top.le⟩
      exact emptied_close (filled.correct _ member) member framed
    · refine ⟨framed.1, framed.2.1, fun ⟨t', seen⟩ => framed.2.2 ⟨t', ?_⟩⟩
      rcases List.mem_append.mp seen with seen | here
      · exact seen
      · obtain ⟨same, rfl⟩ := Prod.mk.inj (List.mem_singleton.mp here)
        exact absurd same.symm top

private theorem chain_eq_nil (tables : Exact pow23_all) (input : Input m n) (logs : Logs n.toNat log2B log3B)
    (ready : Ready m s) (lost : n.mul2.mul3.toNat = 2) (worth : 0 < (assignBinary m n s).w_min.basic_value) :
    (getOptimalDBC m pow23_all log2B log3B n s).chain = [] := by
  have length : (simDBC (fillTables m pow23_all n n.mul2.mul3 log2B log3B
      (prepared pow23_all n log2B log3B s))).w_min.length = 0 := by
    rw [← emptied_fillTables tables input logs ready lost worth, simDBC]
    split <;> rfl
  change (List.range (simDBC (fillTables m pow23_all n n.mul2.mul3 log2B log3B
    (prepared pow23_all n log2B log3B s))).w_min.length).map _ = []
  rw [length, List.range_zero, List.map_nil]

private theorem input_scalar : Input .secp256k1 (.ofNat 9 3074457345618258603) :=
  ⟨by decide +kernel, by decide +kernel⟩

private theorem logs_scalar : Logs 3074457345618258603 62 39 :=
  ⟨(Nat.log_eq_of_pow_le_of_lt_pow (by norm_num) (by norm_num)).symm,
    (Nat.log_eq_of_pow_le_of_lt_pow (by norm_num) (by norm_num)).symm⟩

/-- A number of the required size whose stored chain is not one of it: the stored chain is empty. -/
theorem getOptimalDBC_lost_carry :
    Input .secp256k1 (.ofNat 9 3074457345618258603) ∧ Logs 3074457345618258603 62 39 ∧
      Exact (powTable 9) ∧ ¬ IsDoubleBaseChain 3074457345618258603
        (getOptimalDBC .secp256k1 (powTable 9) 62 39 (.ofNat 9 3074457345618258603)
          (State.start.init .secp256k1)).chain := by
  refine ⟨input_scalar, logs_scalar, powTable_exact 9, fun holds => ?_⟩
  have same : (MyBigInt.ofNat 9 3074457345618258603).toNat = 3074457345618258603 := by decide +kernel
  obtain ⟨dbl, tpl, rest, shape⟩ := holds.leading
  rw [chain_eq_nil (powTable_exact 9) input_scalar (same ▸ logs_scalar) (init_ready _) (by decide +kernel)
    (by decide +kernel)] at shape
  exact List.cons_ne_nil _ _ shape.symm

end LostCarry

/-! ## Main results -/

section Main

variable {m : Macros} {pow23_all : ℕ → ℕ → MyBigInt m.INTS} {n : MyBigInt m.INTS} {s : State} {log2B log3B : ℕ}

/-- The chain stored by a call is a double-base chain of `n`, as long as tripling `2 * n` loses no carry. -/
theorem getOptimalDBC_chain (tables : Exact pow23_all) (input : Input m n) (logs : Logs n.toNat log2B log3B)
    (reachable : Reachable m pow23_all s) (kept : NoLostCarry n.mul2) :
    IsDoubleBaseChain n.toNat (getOptimalDBC m pow23_all log2B log3B n s).chain := by
  have exactly : n.mul2.mul3.toNat = 6 * n.toNat := by
    have triple := input.room.triple
    rw [toNat_mul3 n.mul2 kept triple, input.toNat_mul2]
    omega
  obtain ⟨c, chain, sum, stored, -⟩ := getOptimalDBC_spec tables input logs reachable.ready exactly
  rw [stored]
  exact isDoubleBaseChain_of_isChain input.positive chain sum

theorem logs_five : Logs 5 3 2 :=
  ⟨(Nat.log_eq_of_pow_le_of_lt_pow (by norm_num) (by norm_num)).symm,
    (Nat.log_eq_of_pow_le_of_lt_pow (by norm_num) (by norm_num)).symm⟩

private theorem input_five : Input .secp256k1 (.ofNat 9 5) :=
  ⟨by decide +kernel, by decide +kernel⟩

theorem getOptimalDBC_chain_five : IsDoubleBaseChain 5
    (getOptimalDBC .secp256k1 (powTable 9) 3 2 (.ofNat 9 5)
      (State.start.init .secp256k1)).chain :=
  getOptimalDBC_chain (powTable_exact 9) input_five logs_five .init (by decide +kernel)

/-- Given that `six_n` holds `6 * n`, no double-base chain of `n` is cheaper than the one left in `w_min`
and in the result arrays. -/
theorem getOptimalDBC_optimal (tables : Exact pow23_all) (input : Input m n) (logs : Logs n.toNat log2B log3B)
    (reachable : Reachable m pow23_all s) (exactly : n.mul2.mul3.toNat = 6 * n.toNat)
    (triple : m.DBL_COST ≤ m.TPL_COST) (add : m.TPL_COST - m.DBL_COST ≤ m.ADD_COST) :
    ∃ c, IsChain c ∧ value c = n.toNat ∧
      (getOptimalDBC m pow23_all log2B log3B n s).chain = c.map row ∧
      (getOptimalDBC m pow23_all log2B log3B n s).w_min.getV m = cost m.DBL_COST m.TPL_COST m.ADD_COST c ∧
      ∀ e, IsChain e → value e = n.toNat →
        cost m.DBL_COST m.TPL_COST m.ADD_COST c ≤ cost m.DBL_COST m.TPL_COST m.ADD_COST e := by
  obtain ⟨c, chain, sum, stored, worth, least⟩ := getOptimalDBC_spec tables input logs reachable.ready exactly
  exact ⟨c, chain, sum, stored, worth, least triple add⟩

theorem getOptimalDBC_optimal_five : ∃ c, IsChain c ∧ value c = 5 ∧
    (getOptimalDBC .secp256k1 (powTable 9) 3 2 (.ofNat 9 5)
      (State.start.init .secp256k1)).chain = c.map row ∧
    ∀ e, IsChain e → value e = 5 → cost 70 126 150 c ≤ cost 70 126 150 e := by
  obtain ⟨c, chain, sum, stored, -, least⟩ := getOptimalDBC_optimal (powTable_exact 9) input_five logs_five .init
    (by decide +kernel) (by decide) (by decide)
  exact ⟨c, chain, sum, stored, least⟩

end Main

end DbcSnark.DBCTest
