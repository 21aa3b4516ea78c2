import DbcSnark.Proofs.DBCTest.Schedule
import DbcSnark.ToMathlib.ShortestChain

/-! # The cells of the dynamic programme

A cell denotes a chain through its parent pointers, which lead through cells already visited. At
every visited cell below the frontier, `w` denotes a shortest chain of `n % M` and `w_` one of
`n % M - M`, where `M = 2 ^ b * 3 ^ t`. One visit establishes this for its own cell from the two
neighbours it reads; writing a cell not yet visited disturbs no chain.
-/

namespace DbcSnark.DBCTest

open DoubleBase Loops

/-! ## Chains in memory -/

/-- The location of a cell with nonnegative indices. -/
def Loc.of (table : Table) (p : ℕ × ℕ) : Loc := ⟨table, p.1, p.2⟩

/-- The chain found by following `parent` from a cell, through cells in `done` only. -/
def Represents (cells : Loc → OptimalDBC) (done : Set (ℕ × ℕ)) : OptimalDBC → List Chain → Prop
  | cell, [] => cell.isNULL = false ∧ cell.isBasic = true ∧ cell.length = 0 ∧ cell.basic_value = 0
  | cell, x :: c =>
    (cell.isNULL = false ∧ cell.isBasic = false ∧ cell.length = c.length + 1 ∧ cell.addNode = x) ∧
      ∃ table, ∃ p ∈ done, cell.parent = some (.of table p) ∧ Represents cells done (cells (.of table p)) c

/-- A cell holds a chain, or is null when there is none. -/
def Denotes (cells : Loc → OptimalDBC) (done : Set (ℕ × ℕ)) (cell : OptimalDBC) : Option (List Chain) → Prop
  | none => cell.isNULL = true ∧ cell.isBasic = false
  | some c => Represents cells done cell c

section Memory

variable {cells cells' : Loc → OptimalDBC} {done done' : Set (ℕ × ℕ)} {cell : OptimalDBC}

theorem Represents.frame {c : List Chain} (represents : Represents cells done cell c)
    (kept : ∀ table, ∀ p ∈ done, cells' (.of table p) = cells (.of table p)) (grown : done ⊆ done') :
    Represents cells' done' cell c := by
  induction c generalizing cell with
  | nil => exact represents
  | cons x c ih =>
    obtain ⟨head, table, p, member, pointer, rest⟩ := represents
    refine ⟨head, table, p, grown member, pointer, ?_⟩
    rw [kept table p member]
    exact ih rest

theorem Denotes.frame {o : Option (List Chain)} (denotes : Denotes cells done cell o)
    (kept : ∀ table, ∀ p ∈ done, cells' (.of table p) = cells (.of table p)) (grown : done ⊆ done') :
    Denotes cells' done' cell o := by
  cases o with
  | none => exact denotes
  | some c => exact Represents.frame denotes kept grown

theorem Represents.isNULL {c : List Chain} (represents : Represents cells done cell c) : cell.isNULL = false := by
  cases c with
  | nil => exact represents.1
  | cons x c => exact represents.1.1

theorem Represents.length {c : List Chain} (represents : Represents cells done cell c) :
    cell.length = c.length := by
  cases c with
  | nil => exact represents.2.2.1
  | cons x c => exact represents.1.2.2.1

theorem Represents.getL {c : List Chain} (represents : Represents cells done cell c) :
    cell.getL = c.length := by
  rw [OptimalDBC.getL, represents.isNULL, if_neg (by simp), represents.length]

theorem Denotes.getL_none (denotes : Denotes cells done cell none) : cell.getL = 99999999 := by
  rw [OptimalDBC.getL, denotes.1, if_pos rfl]

/-- The value of a stored chain is its cost. -/
theorem Represents.getV (m : Macros) {c : List Chain} (represents : Represents cells done cell c) :
    cell.getV m = cost m.DBL_COST m.TPL_COST m.ADD_COST c := by
  cases c with
  | nil =>
    obtain ⟨-, basic, -, value⟩ := represents
    simp [OptimalDBC.getV, basic, value, cost]
  | cons x c =>
    obtain ⟨⟨null, basic, length, node⟩, -⟩ := represents
    simp [OptimalDBC.getV, null, basic, length, node, cost]

theorem Denotes.getV_none (m : Macros) (denotes : Denotes cells done cell none) : cell.getV m = 99999999 := by
  simp [OptimalDBC.getV, denotes.1, denotes.2]

/-- `add` puts a term in front; a null cell stays null. -/
theorem Denotes.add {table : Table} {p : ℕ × ℕ} {o : Option (List Chain)}
    (denotes : Denotes cells done (cells (.of table p)) o) (member : p ∈ done) (dbl tpl : ℕ) (coef : ℤ) :
    Denotes cells done ((cells (.of table p)).add (.of table p) dbl tpl coef)
      (o.map (⟨dbl, tpl, coef != 1⟩ :: ·)) := by
  cases o with
  | none =>
    rw [OptimalDBC.add, denotes.1, if_pos rfl]
    exact denotes
  | some c =>
    have represents : Represents cells done (cells (.of table p)) c := denotes
    rw [OptimalDBC.add, represents.isNULL, if_neg (by simp), represents.length]
    exact ⟨⟨rfl, rfl, rfl, rfl⟩, table, p, member, rfl, represents⟩

/-- `minL` selects a shortest chain among those present. -/
theorem Denotes.minL {b t : ℕ} (small : b + t < 99999999) {c₁ c₂ c₃ : OptimalDBC}
    {o₁ o₂ o₃ : Option (List Chain)} (first : Denotes cells done c₁ o₁) (second : Denotes cells done c₂ o₂)
    (third : Denotes cells done c₃ o₃) (sound : ∀ o ∈ [o₁, o₂, o₃], ∀ c ∈ o, Below b t c) :
    ∃ o, Denotes cells done (.minL c₁ c₂ c₃) o ∧ Least o [o₁, o₂, o₃] := by
  have length : ∀ (c : OptimalDBC) o, o ∈ [o₁, o₂, o₃] → Denotes cells done c o →
      (o = none ∧ c.getL = 99999999) ∨ ∃ d, o = some d ∧ c.getL = d.length ∧ d.length < 99999999 := by
    rintro c (_ | d) member denotes
    · exact .inl ⟨rfl, denotes.getL_none⟩
    · have bound := (sound _ member d rfl).length_le
      exact .inr ⟨d, rfl, Represents.getL denotes, by omega⟩
  have key₁ := length c₁ o₁ (by simp) first
  have key₂ := length c₂ o₂ (by simp) second
  have key₃ := length c₃ o₃ (by simp) third
  -- whichever cell is chosen, no other has a smaller `getL`
  have chosen : ∀ (c : OptimalDBC) o, o ∈ [o₁, o₂, o₃] → Denotes cells done c o →
      c.getL ≤ c₁.getL → c.getL ≤ c₂.getL → c.getL ≤ c₃.getL → Least o [o₁, o₂, o₃] := by
    intro c o member denotes le₁ le₂ le₃
    have key := length c o member denotes
    refine ⟨member, ?_⟩
    intro o' member' d' present
    have other : c.getL ≤ d'.length ∧ d'.length < 99999999 := by
      simp only [List.mem_cons, List.not_mem_nil, or_false] at member'
      rcases member' with rfl | rfl | rfl
      · obtain ⟨absent, -⟩ | ⟨d, same, value, bound⟩ := key₁ <;> simp_all
      · obtain ⟨absent, -⟩ | ⟨d, same, value, bound⟩ := key₂ <;> simp_all
      · obtain ⟨absent, -⟩ | ⟨d, same, value, bound⟩ := key₃ <;> simp_all
    obtain ⟨-, value⟩ | ⟨d, rfl, value, -⟩ := key
    · omega
    · exact ⟨d, rfl, by omega⟩
  unfold OptimalDBC.minL
  split_ifs with one two three
  · exact ⟨o₁, first, chosen c₁ o₁ (by simp) first le_rfl one.le two.le⟩
  · exact ⟨o₃, third, chosen c₃ o₃ (by simp) third (by omega) (by omega) le_rfl⟩
  · exact ⟨o₂, second, chosen c₂ o₂ (by simp) second (by omega) le_rfl three.le⟩
  · exact ⟨o₃, third, chosen c₃ o₃ (by simp) third (by omega) (by omega) le_rfl⟩

end Memory

/-! ## Reading and writing cells -/

section Writes

variable (b t quot : ℕ) (s : State)

@[simp] theorem State.set_cells_self (table : Table) (b t : ℤ) (c : OptimalDBC) :
    (s.set table b t c).cells ⟨table, b, t⟩ = c := by simp [State.set]

theorem State.set_cells_of_ne {table : Table} {b t : ℤ} {l : Loc} (c : OptimalDBC) (other : l ≠ ⟨table, b, t⟩) :
    (s.set table b t c).cells l = s.cells l := by simp [State.set, other]

theorem fillCell_cells_of_ne {l : Loc} (other : l ≠ ⟨.w, b, t⟩) (other_ : l ≠ ⟨.w_, b, t⟩) :
    (fillCell b t quot s).cells l = s.cells l := by
  unfold fillCell
  split_ifs <;> simp only [State.set_cells_of_ne _ _ other_, State.set_cells_of_ne _ _ other]

/-- What a visit writes to `w(b, t)`. -/
theorem fillCell_w : (fillCell b t quot s).w b t =
    if quot < 2 then .minL (s.w (b - 1) t) (s.w b (t - 1)) (s.addTo .w_ b (t - 1) b (t - 1) 1)
    else if quot = 2 then
      .minL (s.w (b - 1) t) (s.addTo .w_ (b - 1) t (b - 1) t 1) (s.addTo .w b (t - 1) b (t - 1) 1)
    else s.addTo .w (b - 1) t (b - 1) t 1 := by
  unfold fillCell State.w
  split_ifs <;> simp [State.set]

/-- What a visit writes to `w_(b, t)`. -/
theorem fillCell_w_ : (fillCell b t quot s).w_ b t =
    if quot < 3 then s.addTo .w_ (b - 1) t (b - 1) t (-1)
    else if quot = 3 then
      .minL (s.addTo .w (b - 1) t (b - 1) t (-1)) (s.w_ (b - 1) t) (s.addTo .w_ b (t - 1) b (t - 1) (-1))
    else .minL (s.w_ (b - 1) t) (s.addTo .w b (t - 1) b (t - 1) (-1)) (s.w_ b (t - 1)) := by
  unfold fillCell State.w_ State.addTo
  split_ifs <;> first | omega | simp [State.set]

end Writes

/-! ## What the cells hold -/

/-- `n % (2 ^ b * 3 ^ t)`. -/
def residue (n b t : ℕ) : ℤ := n % pow23 b t

/-- The cells that no call writes: the empty chain at the origin and the null border. -/
structure Ready (m : Macros) (s : State) : Prop where
  origin : Represents s.cells ∅ (s.w 0 0) []
  origin_ : Denotes s.cells ∅ (s.w_ 0 0) none
  left : ∀ table, ∀ t < m.MAX_3, Denotes s.cells ∅ (s.cells ⟨table, -1, (t : ℕ)⟩) none
  down : ∀ table, ∀ b < m.MAX_2, Denotes s.cells ∅ (s.cells ⟨table, (b : ℕ), -1⟩) none

/-- The two cells at `p` denote shortest chains of the residue and of the residue less the modulus. -/
def Correct (n : ℕ) (done : Set (ℕ × ℕ)) (s : State) (p : ℕ × ℕ) : Prop :=
  (∃ o, Denotes s.cells done (s.w p.1 p.2) o ∧ Best p.1 p.2 (residue n p.1 p.2) o) ∧
    ∃ o, Denotes s.cells done (s.w_ p.1 p.2) o ∧ Best p.1 p.2 (residue n p.1 p.2 - pow23 p.1 p.2) o

/-- The digit tells in which part of the modulus the residue lies. -/
structure Classified (six n b t : ℕ) : Prop where
  low : digit six b t < 2 → 3 * residue n b t < pow23 b t
  mid : digit six b t = 2 → pow23 b t ≤ 3 * residue n b t ∧ 2 * residue n b t < pow23 b t
  high : digit six b t = 3 → pow23 b t ≤ 2 * residue n b t ∧ 3 * residue n b t < 2 * pow23 b t
  top : 4 ≤ digit six b t → 2 * pow23 b t ≤ 3 * residue n b t

section Residues

variable (n b t : ℕ)

theorem residue_nonneg : 0 ≤ residue n b t := Int.emod_nonneg _ (pow23_pos b t).ne'

theorem residue_lt : residue n b t < pow23 b t := Int.emod_lt_of_pos _ (pow23_pos b t)

theorem residue_eq_natCast : residue n b t = (n % (2 ^ b * 3 ^ t) : ℕ) := by
  simp [residue, pow23]

/-- Modulo half of the modulus a residue loses that half, when it contains it. -/
theorem residue_half : residue n (b + 1) t = residue n b t ∨
    residue n (b + 1) t = residue n b t + pow23 b t := by
  have reduced : residue n b t = residue n (b + 1) t % pow23 b t := by
    rw [residue, residue, pow23_succ_left, Int.emod_emod_of_dvd _ (Dvd.intro_left 2 rfl)]
  have positive := pow23_pos b t
  have nonneg := residue_nonneg n (b + 1) t
  have small := residue_lt n (b + 1) t
  rw [pow23_succ_left] at small
  rw [reduced]
  by_cases contained : pow23 b t ≤ residue n (b + 1) t
  · right
    rw [← Int.sub_emod_right, Int.emod_eq_of_lt (by omega) (by omega)]
    ring
  · left
    rw [Int.emod_eq_of_lt nonneg (by omega)]

/-- Modulo a third of the modulus a residue loses that third as often as it contains it. -/
theorem residue_third : residue n b (t + 1) = residue n b t ∨
    residue n b (t + 1) = residue n b t + pow23 b t ∨ residue n b (t + 1) = residue n b t + 2 * pow23 b t := by
  have reduced : residue n b t = residue n b (t + 1) % pow23 b t := by
    rw [residue, residue, pow23_succ_right, Int.emod_emod_of_dvd _ (Dvd.intro_left 3 rfl)]
  have positive := pow23_pos b t
  have nonneg := residue_nonneg n b (t + 1)
  have small := residue_lt n b (t + 1)
  rw [pow23_succ_right] at small
  rw [reduced]
  by_cases one : pow23 b t ≤ residue n b (t + 1)
  · right
    by_cases two : 2 * pow23 b t ≤ residue n b (t + 1)
    · right
      rw [← Int.sub_emod_right, ← Int.sub_emod_right, Int.emod_eq_of_lt (by omega) (by omega)]
      ring
    · left
      rw [← Int.sub_emod_right, Int.emod_eq_of_lt (by omega) (by omega)]
      ring
  · left
    rw [Int.emod_eq_of_lt nonneg (by omega)]

/-- With `six_n = 6 * n` the digit is `⌊6 * x / M⌋` for the residue `x`. -/
theorem classified_of_eq : Classified (6 * n) n b t := by
  have value : digit (6 * n) b t = 6 * (n % (2 ^ b * 3 ^ t)) / (2 ^ b * 3 ^ t) := by
    rw [digit, ← Nat.mod_mul_right_div_self, mul_comm _ 6, Nat.mul_mod_mul_left]
  have divide := Nat.div_add_mod (6 * (n % (2 ^ b * 3 ^ t))) (2 ^ b * 3 ^ t)
  have rest := Nat.mod_lt (6 * (n % (2 ^ b * 3 ^ t))) (show 0 < 2 ^ b * 3 ^ t by positivity)
  rw [← value] at divide
  have modulus : pow23 b t = ((2 ^ b * 3 ^ t : ℕ) : ℤ) := by simp [pow23]
  have expand := residue_eq_natCast n b t
  have small := residue_lt n b t
  generalize n % (2 ^ b * 3 ^ t) = x at *
  generalize 2 ^ b * 3 ^ t = M at *
  constructor <;> intro range
  · have : M * digit (6 * n) b t ≤ M * 1 := Nat.mul_le_mul_left M (by omega)
    omega
  · rw [range] at divide
    omega
  · rw [range] at divide
    omega
  · have : M * 4 ≤ M * digit (6 * n) b t := Nat.mul_le_mul_left M range
    omega

variable {b t}

theorem residue_pred_left (positive : 0 < b) : pow23 b t = 2 * pow23 (b - 1) t ∧
    (2 * residue n b t < pow23 b t → residue n (b - 1) t = residue n b t) ∧
    (pow23 b t ≤ 2 * residue n b t → residue n (b - 1) t = residue n b t - pow23 (b - 1) t) := by
  obtain ⟨b', rfl⟩ : ∃ b', b = b' + 1 := ⟨b - 1, by omega⟩
  have nonneg := residue_nonneg n b' t
  have small := residue_lt n b' t
  have split := residue_half n b' t
  rw [Nat.add_sub_cancel, pow23_succ_left]
  omega

theorem residue_pred_right (positive : 0 < t) : pow23 b t = 3 * pow23 b (t - 1) ∧
    (3 * residue n b t < pow23 b t → residue n b (t - 1) = residue n b t) ∧
    (pow23 b t ≤ 3 * residue n b t → 3 * residue n b t < 2 * pow23 b t →
      residue n b (t - 1) = residue n b t - pow23 b (t - 1)) ∧
    (2 * pow23 b t ≤ 3 * residue n b t → residue n b (t - 1) = residue n b t - 2 * pow23 b (t - 1)) := by
  obtain ⟨t', rfl⟩ : ∃ t', t = t' + 1 := ⟨t - 1, by omega⟩
  have nonneg := residue_nonneg n b t'
  have small := residue_lt n b t'
  have split := residue_third n b t'
  rw [Nat.add_sub_cancel, pow23_succ_right]
  omega

end Residues

/-! ## One visit -/

/-- A cell and every extension of it by a term denote chains. -/
def Extends (s : State) (done : Set (ℕ × ℕ)) (table : Table) (b t : ℤ) (o : Option (List Chain)) : Prop :=
  Denotes s.cells done (s.cells ⟨table, b, t⟩) o ∧
    ∀ dbl tpl coef, Denotes s.cells done (s.addTo table b t dbl tpl coef) (o.map (⟨dbl, tpl, coef != 1⟩ :: ·))

/-- The chains denoted by the cells around `(b, t)`. -/
structure Around (n b t : ℕ) (s : State) (done : Set (ℕ × ℕ)) (h h_ d d_ : Option (List Chain)) : Prop where
  half : Extends s done .w (b - 1) t h
  half_ : Extends s done .w_ (b - 1) t h_
  third : Extends s done .w b (t - 1) d
  third_ : Extends s done .w_ b (t - 1) d_
  bestHalf : ∀ v, (0 < b → v = residue n (b - 1) t) → BestHalf b t v h
  bestHalf_ : ∀ v, (0 < b → v = residue n (b - 1) t - pow23 (b - 1) t) → BestHalf b t v h_
  bestThird : ∀ v, (0 < t → v = residue n b (t - 1)) → BestThird b t v d
  bestThird_ : ∀ v, (0 < t → v = residue n b (t - 1) - pow23 b (t - 1)) → BestThird b t v d_

section Visit

variable {n b t : ℕ} {s : State} {done : Set (ℕ × ℕ)} {h h_ d d_ : Option (List Chain)}

theorem Extends.of_denotes {table : Table} {p : ℕ × ℕ} {o : Option (List Chain)} (member : p ∈ done)
    (denotes : Denotes s.cells done (s.cells (.of table p)) o) : Extends s done table p.1 p.2 o :=
  ⟨denotes, fun dbl tpl coef => denotes.add member dbl tpl coef⟩

theorem Extends.of_null {table : Table} {b t : ℤ} (null : Denotes s.cells ∅ (s.cells ⟨table, b, t⟩) none) :
    Extends s done table b t none := by
  refine ⟨null, fun dbl tpl coef => ?_⟩
  rw [State.addTo, OptimalDBC.add, null.1, if_pos rfl]
  exact null

/-- The neighbours of a cell denote best chains when they have been visited or lie on the border. -/
theorem exists_around {m : Macros} (ready : Ready m s) (column : b < m.MAX_2) (row : t < m.MAX_3)
    (left : 0 < b → (b - 1, t) ∈ done ∧ Correct n done s (b - 1, t))
    (down : 0 < t → (b, t - 1) ∈ done ∧ Correct n done s (b, t - 1)) :
    ∃ h h_ d d_, Around n b t s done h h_ d d_ := by
  have halves : ∃ h h_, Extends s done .w (b - 1) t h ∧ Extends s done .w_ (b - 1) t h_ ∧
      (∀ v, (0 < b → v = residue n (b - 1) t) → BestHalf b t v h) ∧
      ∀ v, (0 < b → v = residue n (b - 1) t - pow23 (b - 1) t) → BestHalf b t v h_ := by
    rcases b with _ | b
    · have border := fun table => ready.left table t row
      exact ⟨none, none, .of_null (border .w), .of_null (border .w_), fun _ _ => rfl, fun _ _ => rfl⟩
    · obtain ⟨member, ⟨h, denotes, best⟩, h_, denotes_, best_⟩ := left (Nat.succ_pos b)
      have index : ((b + 1 : ℕ) : ℤ) - 1 = b := by omega
      rw [index]
      refine ⟨h, h_, .of_denotes member denotes, .of_denotes member denotes_, fun v value => ?_, fun v value => ?_⟩
      · rw [value (Nat.succ_pos b)]
        exact best
      · rw [value (Nat.succ_pos b)]
        exact best_
  have thirds : ∃ d d_, Extends s done .w b (t - 1) d ∧ Extends s done .w_ b (t - 1) d_ ∧
      (∀ v, (0 < t → v = residue n b (t - 1)) → BestThird b t v d) ∧
      ∀ v, (0 < t → v = residue n b (t - 1) - pow23 b (t - 1)) → BestThird b t v d_ := by
    rcases t with _ | t
    · have border := fun table => ready.down table b column
      exact ⟨none, none, .of_null (border .w), .of_null (border .w_), fun _ _ => rfl, fun _ _ => rfl⟩
    · obtain ⟨member, ⟨d, denotes, best⟩, d_, denotes_, best_⟩ := down (Nat.succ_pos t)
      have index : ((t + 1 : ℕ) : ℤ) - 1 = t := by omega
      rw [index]
      refine ⟨d, d_, .of_denotes member denotes, .of_denotes member denotes_, fun v value => ?_, fun v value => ?_⟩
      · rw [value (Nat.succ_pos t)]
        exact best
      · rw [value (Nat.succ_pos t)]
        exact best_
  obtain ⟨h, h_, half, half_, bestHalf, bestHalf_⟩ := halves
  obtain ⟨d, d_, third, third_, bestThird, bestThird_⟩ := thirds
  exact ⟨h, h_, d, d_, half, half_, third, third_, bestHalf, bestHalf_, bestThird, bestThird_⟩

private theorem forall_mem_three {P : Option (List Chain) → Prop} {o₁ o₂ o₃ : Option (List Chain)} (one : P o₁)
    (two : P o₂) (three : P o₃) : ∀ o ∈ [o₁, o₂, o₃], P o := by
  simp [one, two, three]

private theorem coef_neg : ((-1 : ℤ) != 1) = true := rfl

variable (around : Around n b t s done h h_ d d_) (proper : 0 < b + t) (small : b + t < 99999999)
include around

include proper small in
theorem Around.w_low (low : 3 * residue n b t < pow23 b t) :
    ∃ o, Denotes s.cells done
      (.minL (s.w (b - 1) t) (s.w b (t - 1)) (s.addTo .w_ b (t - 1) b (t - 1) 1)) o ∧
        Best b t (residue n b t) o := by
  have nonneg := residue_nonneg n b t
  have half := around.bestHalf (residue n b t) fun positive => by
    have := residue_pred_left n positive (t := t)
    omega
  have third := around.bestThird (residue n b t) fun positive => by
    have := residue_pred_right n positive (b := b)
    omega
  have step := around.bestThird_ (residue n b t - pow23 b (t - 1)) fun positive => by
    have := residue_pred_right n positive (b := b)
    omega
  have split : Term.value ⟨b, t - 1, false⟩ + (residue n b t - pow23 b (t - 1)) = residue n b t := by
    simp only [Term.value, Term.weight, Bool.false_eq_true, if_false]
    ring
  obtain ⟨o, denotes, least⟩ := Denotes.minL small around.half.1 around.third.1
    (around.third_.2 b (t - 1) 1) (forall_mem_three (P := fun o => ∀ c ∈ o, Below b t c)
      (fun c member => (half.drop_sound c member).1) (fun c member => (third.drop_sound c member).1)
      (fun c member => (step.step_sound split c member).1))
  exact ⟨o, denotes, Best.low proper nonneg low.le half third step split least⟩

include proper small in
theorem Around.w_mid (large : pow23 b t ≤ 3 * residue n b t) (below : 2 * residue n b t < pow23 b t) :
    ∃ o, Denotes s.cells done
      (.minL (s.w (b - 1) t) (s.addTo .w_ (b - 1) t (b - 1) t 1) (s.addTo .w b (t - 1) b (t - 1) 1)) o ∧
        Best b t (residue n b t) o := by
  have half := around.bestHalf (residue n b t) fun positive => by
    have := residue_pred_left n positive (t := t)
    omega
  have halfStep := around.bestHalf_ (residue n b t - pow23 (b - 1) t) fun positive => by
    have := residue_pred_left n positive (t := t)
    omega
  have thirdStep := around.bestThird (residue n b t - pow23 b (t - 1)) fun positive => by
    have := residue_pred_right n positive (b := b)
    have := pow23_pos b t
    omega
  have split₂ : Term.value ⟨b - 1, t, false⟩ + (residue n b t - pow23 (b - 1) t) = residue n b t := by
    simp only [Term.value, Term.weight, Bool.false_eq_true, if_false]
    ring
  have split₃ : Term.value ⟨b, t - 1, false⟩ + (residue n b t - pow23 b (t - 1)) = residue n b t := by
    simp only [Term.value, Term.weight, Bool.false_eq_true, if_false]
    ring
  obtain ⟨o, denotes, least⟩ := Denotes.minL small around.half.1 (around.half_.2 (b - 1) t 1)
    (around.third.2 b (t - 1) 1) (forall_mem_three (P := fun o => ∀ c ∈ o, Below b t c)
      (fun c member => (half.drop_sound c member).1) (fun c member => (halfStep.step_sound split₂ c member).1)
      (fun c member => (thirdStep.step_sound split₃ c member).1))
  exact ⟨o, denotes, Best.mid proper large half halfStep split₂ thirdStep split₃ least⟩

theorem Around.w_high (large : pow23 b t ≤ 2 * residue n b t) :
    ∃ o, Denotes s.cells done (s.addTo .w (b - 1) t (b - 1) t 1) o ∧ Best b t (residue n b t) o := by
  have step := around.bestHalf (residue n b t - pow23 (b - 1) t) fun positive => by
    have := residue_pred_left n positive (t := t)
    omega
  refine ⟨_, around.half.2 (b - 1) t 1, Best.high large step ?_⟩
  simp only [Term.value, Term.weight, Bool.false_eq_true, if_false]
  ring

theorem Around.w_Low (below : 2 * residue n b t < pow23 b t) :
    ∃ o, Denotes s.cells done (s.addTo .w_ (b - 1) t (b - 1) t (-1)) o ∧
      Best b t (residue n b t - pow23 b t) o := by
  have step := around.bestHalf_ (residue n b t - pow23 b t + pow23 (b - 1) t) fun positive => by
    have := residue_pred_left n positive (t := t)
    omega
  refine ⟨_, around.half_.2 (b - 1) t (-1), Best.high_neg (by omega) step ?_⟩
  simp only [Term.value, Term.weight, if_true]
  ring

include proper small in
theorem Around.w_High (large : pow23 b t ≤ 2 * residue n b t) (below : 3 * residue n b t < 2 * pow23 b t) :
    ∃ o, Denotes s.cells done
      (.minL (s.addTo .w (b - 1) t (b - 1) t (-1)) (s.w_ (b - 1) t) (s.addTo .w_ b (t - 1) b (t - 1) (-1))) o ∧
        Best b t (residue n b t - pow23 b t) o := by
  have positive := pow23_pos b t
  have halfStep := around.bestHalf (residue n b t - pow23 b t + pow23 (b - 1) t) fun positive => by
    have := residue_pred_left n positive (t := t)
    omega
  have half := around.bestHalf_ (residue n b t - pow23 b t) fun positive => by
    have := residue_pred_left n positive (t := t)
    omega
  have thirdStep := around.bestThird_ (residue n b t - pow23 b t + pow23 b (t - 1)) fun positive => by
    have := residue_pred_right n positive (b := b)
    omega
  have split₁ : Term.value ⟨b - 1, t, true⟩ + (residue n b t - pow23 b t + pow23 (b - 1) t) =
      residue n b t - pow23 b t := by
    simp only [Term.value, Term.weight, if_true]
    ring
  have split₃ : Term.value ⟨b, t - 1, true⟩ + (residue n b t - pow23 b t + pow23 b (t - 1)) =
      residue n b t - pow23 b t := by
    simp only [Term.value, Term.weight, if_true]
    ring
  obtain ⟨o, denotes, least⟩ := Denotes.minL small (coef_neg ▸ around.half.2 (b - 1) t (-1))
    around.half_.1 (coef_neg ▸ around.third_.2 b (t - 1) (-1)) (forall_mem_three (P := fun o => ∀ c ∈ o, Below b t c)
      (fun c member => (halfStep.step_sound split₁ c member).1) (fun c member => (half.drop_sound c member).1)
      (fun c member => (thirdStep.step_sound split₃ c member).1))
  exact ⟨o, denotes, Best.mid_neg proper (by omega) halfStep split₁ half thirdStep split₃ least⟩

include proper small in
theorem Around.w_Top (large : 2 * pow23 b t ≤ 3 * residue n b t) :
    ∃ o, Denotes s.cells done
      (.minL (s.w_ (b - 1) t) (s.addTo .w b (t - 1) b (t - 1) (-1)) (s.w_ b (t - 1))) o ∧
        Best b t (residue n b t - pow23 b t) o := by
  have positive := pow23_pos b t
  have below := residue_lt n b t
  have half := around.bestHalf_ (residue n b t - pow23 b t) fun positive => by
    have := residue_pred_left n positive (t := t)
    omega
  have step := around.bestThird (residue n b t - pow23 b t + pow23 b (t - 1)) fun positive => by
    have := residue_pred_right n positive (b := b)
    omega
  have third := around.bestThird_ (residue n b t - pow23 b t) fun positive => by
    have := residue_pred_right n positive (b := b)
    omega
  have split : Term.value ⟨b, t - 1, true⟩ + (residue n b t - pow23 b t + pow23 b (t - 1)) =
      residue n b t - pow23 b t := by
    simp only [Term.value, Term.weight, if_true]
    ring
  obtain ⟨o, denotes, least⟩ := Denotes.minL small around.half_.1
    (coef_neg ▸ around.third.2 b (t - 1) (-1)) around.third_.1 (forall_mem_three (P := fun o => ∀ c ∈ o, Below b t c)
      (fun c member => (half.drop_sound c member).1) (fun c member => (step.step_sound split c member).1)
      (fun c member => (third.drop_sound c member).1))
  exact ⟨o, denotes, Best.low_neg proper (by omega) (by omega) half step split third least⟩

end Visit

/-- A visit leaves best chains in its own cell, read in the memory before the visit. -/
theorem fillCell_denotes {m : Macros} {six n b t : ℕ} {s : State} {done : Set (ℕ × ℕ)} (ready : Ready m s)
    (column : b < m.MAX_2) (row : t < m.MAX_3) (proper : 0 < b + t) (small : b + t < 99999999)
    (classified : Classified six n b t)
    (left : 0 < b → (b - 1, t) ∈ done ∧ Correct n done s (b - 1, t))
    (down : 0 < t → (b, t - 1) ∈ done ∧ Correct n done s (b, t - 1)) :
    (∃ o, Denotes s.cells done ((fillCell b t (digit six b t) s).w b t) o ∧ Best b t (residue n b t) o) ∧
      ∃ o, Denotes s.cells done ((fillCell b t (digit six b t) s).w_ b t) o ∧
        Best b t (residue n b t - pow23 b t) o := by
  obtain ⟨h, h_, d, d_, around⟩ := exists_around ready column row left down
  have positive := pow23_pos b t
  rw [fillCell_w, fillCell_w_]
  obtain low | mid | high | top : digit six b t < 2 ∨ digit six b t = 2 ∨ digit six b t = 3 ∨ 4 ≤ digit six b t := by
    omega
  · have range := classified.low low
    have nonneg := residue_nonneg n b t
    rw [if_pos low, if_pos (by omega)]
    exact ⟨around.w_low proper small range, around.w_Low (by omega)⟩
  · obtain ⟨large, below⟩ := classified.mid mid
    rw [mid, if_neg (by norm_num), if_pos rfl, if_pos (by norm_num)]
    exact ⟨around.w_mid proper small large below, around.w_Low below⟩
  · obtain ⟨large, below⟩ := classified.high high
    rw [high, if_neg (by norm_num), if_neg (by norm_num), if_neg (by norm_num), if_pos rfl]
    exact ⟨around.w_high large, around.w_High proper small large below⟩
  · have large := classified.top top
    rw [if_neg (by omega), if_neg (by omega), if_neg (by omega), if_neg (by omega)]
    exact ⟨around.w_high (by omega), around.w_Top proper small large⟩

/-! ## All visits -/

/-- The frontier of a call lies inside the tables and descends. -/
structure Grid (m : Macros) (bBound : ℕ → ℕ) (log2B log3B : ℕ) : Prop where
  rows : log3B < m.MAX_3
  columns : log2B < m.MAX_2
  first : bBound 0 ≤ log2B
  antitone : ∀ t t', t ≤ t' → t' ≤ log3B → bBound t' ≤ bBound t

/-- The origin and the visited cells below the frontier. -/
def doneBy (bBound : ℕ → ℕ) (visited : List (ℕ × ℕ)) : Set (ℕ × ℕ) :=
  {p | p = (0, 0) ∨ p ∈ visited ∧ p.1 ≤ bBound p.2}

theorem doneBy_subset (bBound : ℕ → ℕ) (visited : List (ℕ × ℕ)) (q : ℕ × ℕ) :
    doneBy bBound visited ⊆ doneBy bBound (visited ++ [q]) := by
  rintro p (origin | ⟨present, limit⟩)
  · exact .inl origin
  · exact .inr ⟨List.mem_append_left _ present, limit⟩

theorem mem_doneBy_append {bBound : ℕ → ℕ} {visited : List (ℕ × ℕ)} {p q : ℕ × ℕ}
    (done : p ∈ doneBy bBound (visited ++ [q])) : p ∈ doneBy bBound visited ∨ p = q := by
  rcases done with origin | ⟨present, limit⟩
  · exact .inl (.inl origin)
  · rcases List.mem_append.mp present with present | present
    · exact .inl (.inr ⟨present, limit⟩)
    · exact .inr (by simpa using present)

/-- A visit of the origin or of a cell beyond the frontier adds nothing. -/
theorem doneBy_append_of_not {bBound : ℕ → ℕ} {visited : List (ℕ × ℕ)} {b t : ℕ}
    (outside : ¬(b + t > 0 ∧ b ≤ bBound t)) : doneBy bBound (visited ++ [(b, t)]) = doneBy bBound visited := by
  apply Set.Subset.antisymm _ (doneBy_subset bBound visited (b, t))
  intro p done
  obtain old | rfl := mem_doneBy_append done
  · exact old
  · rcases done with origin | ⟨-, limit⟩
    · exact .inl origin
    · left
      simp only at limit
      simp only [Prod.mk.injEq]
      omega

/-- All cells in `done` hold what they should. -/
structure Filled (m : Macros) (n : ℕ) (done : Set (ℕ × ℕ)) (s : State) : Prop where
  ready : Ready m s
  correct : ∀ p ∈ done, Correct n done s p

/-- The state after the recurrence of a visit, before the frontier test. -/
def fillBelow (b t quot : ℕ) (s : State) : State :=
  if b + t > 0 ∧ b ≤ s.bBound t then fillCell b t quot s else s

theorem visit_eq {m : Macros} (pow23_all : ℕ → ℕ → MyBigInt m.INTS) (n : MyBigInt m.INTS) (b t quot : ℕ)
    (s : State) : visit m pow23_all n b t quot s =
      if b = (fillBelow b t quot s).bBound t then closeCell m pow23_all n b t (fillBelow b t quot s)
      else fillBelow b t quot s := rfl

/-- The globals a visit of a cell leaves alone before the frontier test. -/
structure SameOn (done : Set (ℕ × ℕ)) (s s' : State) : Prop where
  cells : ∀ table, ∀ p ∈ done, s'.cells (.of table p) = s.cells (.of table p)
  w_min : s'.w_min = s.w_min
  now_DBC : s'.now_DBC = s.now_DBC
  bBound : s'.bBound = s.bBound

theorem Ready.of_cells {m : Macros} {s s' : State} (ready : Ready m s) (same : s'.cells = s.cells) : Ready m s' := by
  obtain ⟨origin, origin_, left, down⟩ := ready
  simp only [State.w, State.w_, ← same] at origin origin_ left down
  exact ⟨origin, origin_, left, down⟩

theorem Ready.fillCell {m : Macros} {s : State} (ready : Ready m s) {b t : ℕ} (quot : ℕ) (proper : 0 < b + t) :
    Ready m (fillCell b t quot s) := by
  have border : ∀ l : Loc, (l.dbl = -1 ∨ l.tri = -1 ∨ l.dbl = 0 ∧ l.tri = 0) →
      (DBCTest.fillCell b t quot s).cells l = s.cells l := by
    intro l edge
    apply fillCell_cells_of_ne <;> rintro rfl <;> simp only at edge <;> omega
  constructor
  · rw [State.w, border _ (by simp)]
    exact ready.origin
  · rw [State.w_, border _ (by simp)]
    exact ready.origin_
  · intro table t' row
    rw [border _ (by simp)]
    exact ready.left table t' row
  · intro table b' column
    rw [border _ (by simp)]
    exact ready.down table b' column

theorem Ready.correct_origin {m : Macros} {s : State} (ready : Ready m s) (n : ℕ) (done : Set (ℕ × ℕ)) :
    Correct n done s (0, 0) := by
  have origin : residue n 0 0 = 0 := by simp [residue]
  refine ⟨⟨some [], ready.origin, ⟨?_, ?_⟩⟩, none, ready.origin_, ⟨?_, ?_⟩⟩
  · rintro c ⟨⟩
    simp [origin]
  · intro d _ _
    exact ⟨[], rfl, by simp⟩
  · rintro c ⟨⟩
  · intro d chain sum
    have bound := chain.value_lt
    simp only [origin, pow23_zero_zero] at sum bound
    omega

section Rule

variable {m : Macros} {bBound : ℕ → ℕ} {log2B log3B : ℕ} {six n : ℕ} {s : State}

/-- A cell on or below the frontier is visited, and so are the cells of its column in earlier rows. -/
theorem Grid.mem_schedule (grid : Grid m bBound log2B log3B) {b t t' : ℕ} (row : t ≤ log3B)
    (below : b ≤ bBound t) (earlier : t' ≤ t) :
    (b, t') ∈ schedule bBound log2B log3B ∧ b ≤ bBound t' := by
  have bound := grid.antitone t' t earlier row
  have block := grid.antitone (t' / 18 * 18) t' (by omega) (by omega)
  have first := grid.antitone 0 t (by omega) row
  have top := grid.first
  rw [DBCTest.mem_schedule]
  omega

/-- The two neighbours that a cell is computed from have been visited before it. -/
theorem Grid.neighbours_done (grid : Grid m bBound log2B log3B) {visited later : List (ℕ × ℕ)} {b t : ℕ}
    (split : schedule bBound log2B log3B = visited ++ (b, t) :: later) (below : b ≤ bBound t) :
    (0 < b → (b - 1, t) ∈ doneBy bBound visited) ∧ (0 < t → (b, t - 1) ∈ doneBy bBound visited) := by
  have member : (b, t) ∈ schedule bBound log2B log3B := by simp [split]
  have row := (DBCTest.mem_schedule.mp member).1
  have sorted := schedule_sorted bBound log2B log3B
  rw [split] at sorted
  have seen : ∀ q ∈ schedule bBound log2B log3B, Before q (b, t) → q ∈ visited := by
    intro q scheduled before
    rw [split] at scheduled
    exact (mem_visited_iff Before.asymm sorted q scheduled).mpr before
  constructor
  · intro positive
    obtain ⟨scheduled, limit⟩ := grid.mem_schedule row (show b - 1 ≤ bBound t by omega) le_rfl
    refine .inr ⟨seen _ scheduled ?_, limit⟩
    rw [before_iff]
    omega
  · intro positive
    obtain ⟨scheduled, limit⟩ := grid.mem_schedule row below (Nat.sub_le t 1)
    refine .inr ⟨seen _ scheduled ?_, limit⟩
    rw [before_iff]
    omega

/-- A cell is visited once. -/
private theorem not_mem_doneBy {visited later : List (ℕ × ℕ)} {b t : ℕ}
    (split : schedule bBound log2B log3B = visited ++ (b, t) :: later) (proper : 0 < b + t) :
    (b, t) ∉ doneBy bBound visited := by
  have sorted := schedule_sorted bBound log2B log3B
  rw [split] at sorted
  rintro (origin | ⟨present, -⟩)
  · simp only [Prod.mk.injEq] at origin
    omega
  · have self := (mem_visited_iff Before.asymm sorted (b, t) (by simp)).mp present
    exact Before.asymm _ _ self self

/-- A visit extends the filled cells by its own and changes nothing else they depend on. -/
theorem fillBelow_spec (grid : Grid m bBound log2B log3B)
    (classified : ∀ b t, 0 < b + t → Classified six n b t) {visited later : List (ℕ × ℕ)} {b t : ℕ}
    (split : schedule bBound log2B log3B = visited ++ (b, t) :: later) (bounds : s.bBound = bBound)
    (filled : Filled m n (doneBy bBound visited) s) :
    Filled m n (doneBy bBound (visited ++ [(b, t)])) (fillBelow b t (digit six b t) s) ∧
      SameOn (doneBy bBound visited) s (fillBelow b t (digit six b t) s) := by
  have member : (b, t) ∈ schedule bBound log2B log3B := by simp [split]
  obtain ⟨row, column, -⟩ := mem_schedule.mp member
  have rows := grid.rows
  have columns := grid.columns
  by_cases inside : b + t > 0 ∧ b ≤ s.bBound t
  · obtain ⟨proper, below⟩ := inside
    rw [bounds] at below
    obtain ⟨left, down⟩ := grid.neighbours_done split below
    have small : b + t < 99999999 := by
      have := m.covered
      unfold Macros.MAX_2 at columns
      unfold Macros.MAX_3 at rows
      omega
    obtain ⟨here, here_⟩ := fillCell_denotes filled.ready (by omega) (by omega) proper small
      (classified b t proper) (fun positive => ⟨left positive, filled.correct _ (left positive)⟩)
      (fun positive => ⟨down positive, filled.correct _ (down positive)⟩)
    have fresh := not_mem_doneBy split proper
    have kept : ∀ table, ∀ p ∈ doneBy bBound visited,
        (fillCell b t (digit six b t) s).cells (.of table p) = s.cells (.of table p) := by
      rintro table ⟨b', t'⟩ done
      apply fillCell_cells_of_ne <;>
      · intro same
        simp only [Loc.of, Loc.mk.injEq, Nat.cast_inj] at same
        obtain ⟨-, rfl, rfl⟩ := same
        exact fresh done
    have grown := doneBy_subset bBound visited (b, t)
    rw [fillBelow, if_pos ⟨proper, by rwa [bounds]⟩]
    refine ⟨⟨filled.ready.fillCell _ proper, ?_⟩, kept, ?_, ?_, fillCell_bBound b t _ s⟩
    · intro p done
      by_cases old : p ∈ doneBy bBound visited
      · obtain ⟨⟨o, denotes, best⟩, o_, denotes_, best_⟩ := filled.correct p old
        refine ⟨⟨o, ?_, best⟩, o_, ?_, best_⟩
        · have same := kept .w p old
          simp only [Loc.of] at same
          rw [State.w, same]
          exact denotes.frame kept grown
        · have same := kept .w_ p old
          simp only [Loc.of] at same
          rw [State.w_, same]
          exact denotes_.frame kept grown
      · obtain rfl : p = (b, t) := (mem_doneBy_append done).resolve_left old
        obtain ⟨o, denotes, best⟩ := here
        obtain ⟨o_, denotes_, best_⟩ := here_
        exact ⟨⟨o, denotes.frame kept grown, best⟩, o_, denotes_.frame kept grown, best_⟩
    · unfold fillCell
      split_ifs <;> rfl
    · unfold fillCell
      split_ifs <;> rfl
  · rw [fillBelow, if_neg inside, doneBy_append_of_not (by rwa [← bounds])]
    exact ⟨filled, fun _ _ _ => rfl, rfl, rfl, rfl⟩

/-- Induction over the visits of a call, with all cells visited so far filled. The frontier test is the
only part of a visit left to the invariant. -/
theorem visitAll_induction (pow23_all : ℕ → ℕ → MyBigInt m.INTS) (big : MyBigInt m.INTS)
    (grid : Grid m bBound log2B log3B) (classified : ∀ b t, 0 < b + t → Classified six n b t)
    (P : List (ℕ × ℕ) → State → Prop) (bounds : s.bBound = bBound) (ready : Ready m s) (start : P [] s)
    (step : ∀ visited b t s s', (b, t) ∈ schedule bBound log2B log3B → s'.bBound = bBound →
      Filled m n (doneBy bBound (visited ++ [(b, t)])) s' → SameOn (doneBy bBound visited) s s' → P visited s →
      P (visited ++ [(b, t)]) (if b = bBound t then closeCell m pow23_all big b t s' else s')) :
    Filled m n (doneBy bBound (schedule bBound log2B log3B))
        (visitAll pow23_all big six (schedule bBound log2B log3B) s) ∧
      P (schedule bBound log2B log3B) (visitAll pow23_all big six (schedule bBound log2B log3B) s) := by
  have all := foldl_induction (fun visited s => s.bBound = bBound ∧ Filled m n (doneBy bBound visited) s ∧ P visited s)
    (fun s p => visit m pow23_all big p.1 p.2 (digit six p.1 p.2) s) (schedule bBound log2B log3B) s
    ⟨bounds, ⟨ready, ?_⟩, start⟩ ?_
  · exact all.2
  · rintro p (rfl | ⟨absent, -⟩)
    · exact ready.correct_origin n _
    · simp at absent
  · rintro visited ⟨b, t⟩ later s split ⟨bounds, filled, holds⟩
    obtain ⟨filled', same⟩ := fillBelow_spec grid classified split bounds filled
    have bounds' := same.bBound.trans bounds
    have next := step visited b t s _ (by simp [split]) bounds' filled' same holds
    refine ⟨by rw [visit_bBound, bounds], ?_, ?_⟩
    · rw [visit_eq]
      split_ifs
      · -- the frontier test writes `w_min` only
        unfold closeCell
        split_ifs <;> exact ⟨filled'.ready.of_cells rfl, filled'.correct⟩
      · exact filled'
    · rw [visit_eq, bounds']
      exact next

end Rule

end DbcSnark.DBCTest
