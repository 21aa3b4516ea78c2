import DbcSnark.Proofs.DBCTest.OptimalDBC

/-! # The cells a call of `getOptimalDBC` reads

Besides the cells that `init` prepares a call reads only cells it has written itself: the recurrence reads the
two neighbours, the frontier test the cell just filled, and `simDBC` the cells its chain runs through. What an
earlier call left in the tables therefore has no effect on the result.
-/

namespace DbcSnark.DBCTest

open DoubleBase MyBigInt

/-- The cells that `init` prepares and no call writes: the origin and the border. -/
def Border (m : Macros) (l : Loc) : Prop :=
  l.dbl = 0 ∧ l.tri = 0 ∨ l.tri = -1 ∧ 0 ≤ l.dbl ∧ l.dbl < m.MAX_2 ∨ l.dbl = -1 ∧ 0 ≤ l.tri ∧ l.tri < m.MAX_3

/-- The visits of `visited` wrote the cell. -/
def Written (bBound : ℕ → ℕ) (visited : List (ℕ × ℕ)) (l : Loc) : Prop :=
  ∃ table, ∃ p ∈ visited, 0 < p.1 + p.2 ∧ p.1 ≤ bBound p.2 ∧ l = .of table p

/-- A cell whose contents do not come from an earlier call. -/
def Fresh (m : Macros) (bBound : ℕ → ℕ) (visited : List (ℕ × ℕ)) (l : Loc) : Prop :=
  Border m l ∨ Written bBound visited l

/-- The cells read by the four cases of the recurrence at `(b, t)`. -/
def fillReads (b t quot : ℕ) : List Loc :=
  if quot < 2 then [⟨.w, b - 1, t⟩, ⟨.w, b, t - 1⟩, ⟨.w_, b, t - 1⟩, ⟨.w_, b - 1, t⟩]
  else if quot = 2 then [⟨.w, b - 1, t⟩, ⟨.w_, b - 1, t⟩, ⟨.w, b, t - 1⟩]
  else if quot = 3 then [⟨.w, b - 1, t⟩, ⟨.w_, b - 1, t⟩, ⟨.w_, b, t - 1⟩]
  else [⟨.w, b - 1, t⟩, ⟨.w_, b - 1, t⟩, ⟨.w, b, t - 1⟩, ⟨.w_, b, t - 1⟩]

/-- The cells that the loop of `simDBC` follows `present.parent` to. -/
def simReads (cells : Loc → OptimalDBC) : ℕ → OptimalDBC → List Loc
  | 0, _ => []
  | i + 1, present => present.parent.toList ++ simReads cells i (present.parent.elim {} cells)

section Reads

variable {m : Macros} {bBound : ℕ → ℕ} {log2B log3B : ℕ} {visited later : List (ℕ × ℕ)} {b t quot : ℕ}
variable {s s' : State}

private theorem fillReads_neighbour {l : Loc} (read : l ∈ fillReads b t quot) :
    ∃ table, l = ⟨table, b - 1, t⟩ ∨ l = ⟨table, b, t - 1⟩ := by
  have which : l ∈ [⟨.w, b - 1, t⟩, ⟨.w_, b - 1, t⟩, ⟨.w, b, t - 1⟩, (⟨.w_, b, t - 1⟩ : Loc)] := by
    unfold fillReads at read
    split_ifs at read <;> simp only [List.mem_cons, List.not_mem_nil, or_false] at read ⊢ <;> tauto
  simp only [List.mem_cons, List.not_mem_nil, or_false] at which
  rcases which with rfl | rfl | rfl | rfl
  · exact ⟨.w, .inl rfl⟩
  · exact ⟨.w_, .inl rfl⟩
  · exact ⟨.w, .inr rfl⟩
  · exact ⟨.w_, .inr rfl⟩

/-- The recurrence depends on the cells it reads and on no other. -/
theorem fillCell_congr (agree : ∀ l ∈ fillReads b t quot, s'.cells l = s.cells l) (table : Table) :
    (fillCell b t quot s').cells ⟨table, b, t⟩ = (fillCell b t quot s).cells ⟨table, b, t⟩ := by
  cases table with
  | w =>
    change (fillCell b t quot s').w b t = (fillCell b t quot s).w b t
    rw [fillCell_w, fillCell_w]
    unfold fillReads at agree
    split_ifs at agree ⊢ <;> simp_all [State.w, State.addTo]
  | w_ =>
    change (fillCell b t quot s').w_ b t = (fillCell b t quot s).w_ b t
    rw [fillCell_w_, fillCell_w_]
    unfold fillReads at agree
    split_ifs at agree ⊢ <;> first | omega | simp_all [State.w_, State.addTo]

/-- The loop of `simDBC` depends on the cells it follows and on no other. -/
theorem simDBCFrom_congr {cells cells' : Loc → OptimalDBC} {k : ℕ} {present : OptimalDBC}
    (agree : ∀ l ∈ simReads cells k present, cells' l = cells l) (now_DBC : ℕ → Chain) :
    simDBCFrom cells' k present now_DBC = simDBCFrom cells k present now_DBC := by
  induction k generalizing present now_DBC with
  | zero => rfl
  | succ k ih =>
    have next : present.parent.elim {} cells' = present.parent.elim {} cells := by
      cases parent : present.parent with
      | none => rfl
      | some l => exact agree l (by simp [simReads, parent])
    rw [simDBCFrom, simDBCFrom, next]
    exact ih (fun l read => agree l (List.mem_append_right _ read)) _

private theorem fresh_of_done {p : ℕ × ℕ} (table : Table) (done : p ∈ doneBy bBound visited) :
    Fresh m bBound visited (.of table p) := by
  rcases done with rfl | ⟨present, limit⟩
  · exact .inl (.inl ⟨rfl, rfl⟩)
  · by_cases proper : 0 < p.1 + p.2
    · exact .inr ⟨table, p, present, proper, limit, rfl⟩
    · refine .inl (.inl ⟨?_, ?_⟩) <;> simp only [Loc.of] <;> omega

private theorem Fresh.mono {l : Loc} (fresh : Fresh m bBound visited l) (q : ℕ × ℕ) :
    Fresh m bBound (visited ++ [q]) l := by
  obtain border | ⟨table, p, present, rest⟩ := fresh
  · exact .inl border
  · exact .inr ⟨table, p, List.mem_append_left _ present, rest⟩

/-- What the recurrence reads was written by an earlier visit of the call or prepared by `init`. -/
theorem fillReads_fresh (grid : Grid m bBound log2B log3B)
    (split : schedule bBound log2B log3B = visited ++ (b, t) :: later) (below : b ≤ bBound t) :
    ∀ l ∈ fillReads b t quot, Fresh m bBound visited l := by
  obtain ⟨row, column, -⟩ := mem_schedule.mp (show (b, t) ∈ schedule bBound log2B log3B by simp [split])
  obtain ⟨left, down⟩ := grid.neighbours_done split below
  have rows := grid.rows
  have columns := grid.columns
  intro l read
  obtain ⟨table, rfl | rfl⟩ := fillReads_neighbour read
  · rcases b with _ | b
    · refine .inl (.inr (.inr ⟨?_, ?_, ?_⟩)) <;> simp only <;> omega
    · have fresh := fresh_of_done (m := m) table (left (Nat.succ_pos b))
      simpa [Loc.of] using fresh
  · rcases t with _ | t
    · refine .inl (.inr (.inl ⟨?_, ?_, ?_⟩)) <;> simp only <;> omega
    · have fresh := fresh_of_done (m := m) table (down (Nat.succ_pos t))
      simpa [Loc.of] using fresh

/-- Above the frontier of its row no cell is fresh but the origin. -/
theorem not_fresh_above (above : bBound t < b) (table : Table) (visited : List (ℕ × ℕ)) :
    ¬Fresh m bBound visited (.of table (b, t)) := by
  rintro (border | ⟨table', p, -, -, limit, same⟩)
  · simp only [Border, Loc.of] at border
    omega
  · simp only [Loc.of, Loc.mk.injEq, Nat.cast_inj] at same
    rw [← same.2.1, ← same.2.2] at limit
    omega

/-- What `simDBC` reads are cells the chain runs through. -/
theorem simReads_done {cells : Loc → OptimalDBC} {done : Set (ℕ × ℕ)} {cell : OptimalDBC} {c : List Chain}
    (represents : Represents cells done cell c) :
    ∀ l ∈ simReads cells c.length cell, ∃ table, ∃ p ∈ done, l = .of table p := by
  induction c generalizing cell with
  | nil => simp [simReads]
  | cons x c ih =>
    obtain ⟨-, table, p, member, pointer, rest⟩ := represents
    intro l read
    rw [List.length_cons, simReads, pointer, Option.toList_some, Option.elim_some, List.singleton_append,
      List.mem_cons] at read
    rcases read with rfl | read
    · exact ⟨table, p, member, rfl⟩
    · exact ih rest l read

/-- Two states that a call cannot tell apart: they differ in stale cells only. -/
structure Agrees (m : Macros) (bBound : ℕ → ℕ) (visited : List (ℕ × ℕ)) (s s' : State) : Prop where
  cells : ∀ l, Fresh m bBound visited l → s'.cells l = s.cells l
  w_min : s'.w_min = s.w_min
  now_DBC : s'.now_DBC = s.now_DBC
  bBound : s'.bBound = s.bBound
  DBC_store : s'.DBC_store = s.DBC_store
  DBC_len : s'.DBC_len = s.DBC_len

/-- The recurrence changes cells only. -/
private theorem fillCell_eq (b t quot : ℕ) (s : State) :
    fillCell b t quot s = { s with cells := (fillCell b t quot s).cells } := by
  unfold fillCell
  split_ifs <;> rfl

private theorem fresh_or_own {l : Loc} (fresh : Fresh m bBound (visited ++ [(b, t)]) l) :
    Fresh m bBound visited l ∨ (0 < b + t ∧ b ≤ bBound t ∧ ∃ table, l = .of table (b, t)) := by
  obtain border | ⟨table, p, present, proper, limit, rfl⟩ := fresh
  · exact .inl (.inl border)
  · rcases List.mem_append.mp present with old | own
    · exact .inl (.inr ⟨table, p, old, proper, limit, rfl⟩)
    · obtain rfl := List.mem_singleton.mp own
      exact .inr ⟨proper, limit, table, rfl⟩

private theorem Agrees.fillBelow (quot : ℕ) (grid : Grid m bBound log2B log3B)
    (split : schedule bBound log2B log3B = visited ++ (b, t) :: later) (bounds : s.bBound = bBound)
    (agrees : Agrees m bBound visited s s') :
    Agrees m bBound (visited ++ [(b, t)]) (fillBelow b t quot s) (fillBelow b t quot s') := by
  unfold DBCTest.fillBelow
  rw [agrees.bBound, bounds]
  split_ifs with inside
  · rw [fillCell_eq b t quot s, fillCell_eq b t quot s']
    have read : ∀ l ∈ fillReads b t quot, Fresh m bBound visited l := fillReads_fresh grid split inside.2
    refine ⟨fun l fresh => ?_, agrees.w_min, agrees.now_DBC, agrees.bBound, agrees.DBC_store, agrees.DBC_len⟩
    by_cases own : ∃ table, l = .of table (b, t)
    · obtain ⟨table, rfl⟩ := own
      exact fillCell_congr (fun l member => agrees.cells l (read l member)) table
    · have other (table : Table) : l ≠ ⟨table, b, t⟩ := fun same => own ⟨table, same⟩
      have old : Fresh m bBound visited l :=
        (fresh_or_own fresh).resolve_right fun ⟨_, _, table, same⟩ => own ⟨table, same⟩
      have kept (s : State) : (fillCell b t quot s).cells l = s.cells l :=
        fillCell_cells_of_ne b t quot s (other .w) (other .w_)
      exact (kept s').trans ((agrees.cells l old).trans (kept s).symm)
  · refine { agrees with cells := fun l fresh => agrees.cells l ?_ }
    exact (fresh_or_own fresh).resolve_right fun ⟨proper, limit, _⟩ => inside ⟨proper, limit⟩

private theorem own_fresh (top : b = bBound t) (table : Table) :
    Fresh m bBound (visited ++ [(b, t)]) (.of table (b, t)) :=
  fresh_of_done table (.inr ⟨by simp, top.le⟩)

private theorem Agrees.closeCell (pow23_all : ℕ → ℕ → MyBigInt m.INTS) (n : MyBigInt m.INTS) (top : b = bBound t)
    (agrees : Agrees m bBound (visited ++ [(b, t)]) s s') :
    Agrees m bBound (visited ++ [(b, t)]) (closeCell m pow23_all n b t s) (closeCell m pow23_all n b t s') := by
  have own (table : Table) : s'.cells ⟨table, b, t⟩ = s.cells ⟨table, b, t⟩ :=
    agrees.cells _ (own_fresh top table)
  unfold DBCTest.closeCell
  split_ifs
  · refine { agrees with w_min := ?_ }
    simp only [State.addTo, own, agrees.w_min]
  · refine { agrees with w_min := ?_ }
    simp only [State.addTo, State.w, own, agrees.w_min]

/-- The visits of a call keep two such states indistinguishable. -/
theorem visitAll_agrees (pow23_all : ℕ → ℕ → MyBigInt m.INTS) (n : MyBigInt m.INTS) (six : ℕ)
    (grid : Grid m bBound log2B log3B) (split : schedule bBound log2B log3B = visited ++ later)
    (bounds : s.bBound = bBound) (agrees : Agrees m bBound visited s s') :
    Agrees m bBound (visited ++ later) (visitAll pow23_all n six later s) (visitAll pow23_all n six later s') := by
  induction later generalizing visited s s' with
  | nil =>
    rw [List.append_nil]
    exact agrees
  | cons p later ih =>
    have filled := agrees.fillBelow (digit six p.1 p.2) grid split bounds
    have turn : Agrees m bBound (visited ++ [p]) (visit m pow23_all n p.1 p.2 (digit six p.1 p.2) s)
        (visit m pow23_all n p.1 p.2 (digit six p.1 p.2) s') := by
      rw [visit_eq, visit_eq, filled.bBound]
      have kept : (DBCTest.fillBelow p.1 p.2 (digit six p.1 p.2) s).bBound = bBound := by
        unfold DBCTest.fillBelow
        split_ifs <;> simp [bounds]
      rw [kept]
      split_ifs with top
      · exact filled.closeCell pow23_all n top
      · exact filled
    rw [List.append_cons] at split ⊢
    exact ih split (by rw [visit_bBound, bounds]) turn

private theorem simReads_fresh {c : List Chain} (holds : Holds m (doneBy bBound visited) s c)
    (stored : s.w_min.isBasic = false) :
    ∀ l ∈ simReads s.cells s.w_min.length s.w_min, Fresh m bBound visited l := by
  obtain ⟨basic, -⟩ | ⟨-, represents⟩ := holds
  · rw [stored] at basic
    exact absurd basic (by simp)
  · intro l read
    rw [represents.length] at read
    obtain ⟨table, p, done, rfl⟩ := simReads_done represents l read
    exact fresh_of_done table done

private theorem Agrees.store {c : List Chain} (holds : Holds m (doneBy bBound visited) s c)
    (agrees : Agrees m bBound visited s s') : Agrees m bBound visited (store (simDBC s)) (store (simDBC s')) := by
  have simulated : Agrees m bBound visited (simDBC s) (simDBC s') := by
    unfold simDBC
    rw [agrees.w_min]
    cases basic : s.w_min.isBasic with
    | true => exact agrees
    | false =>
      simp only [Bool.false_eq_true, if_false, agrees.now_DBC]
      refine { agrees with w_min := rfl, now_DBC := ?_ }
      exact simDBCFrom_congr (fun l read => agrees.cells l (simReads_fresh holds basic l read)) s.now_DBC
  refine { simulated with DBC_store := ?_, DBC_len := ?_ }
  · simp only [DBCTest.store, simulated.w_min, simulated.now_DBC, simulated.DBC_store]
  · simp only [DBCTest.store, simulated.w_min]

end Reads

section Call

variable {m : Macros} {pow23_all : ℕ → ℕ → MyBigInt m.INTS} {n : MyBigInt m.INTS} {s : State} {log2B log3B : ℕ}

private theorem store_cells (s : State) : (store (simDBC s)).cells = s.cells := by
  rw [store, simDBC]
  split <;> rfl

private theorem store_bBound (s : State) : (store (simDBC s)).bBound = s.bBound := by
  rw [store, simDBC]
  split <;> rfl

private theorem store_w_min (s : State) : (store (simDBC s)).w_min = s.w_min := by
  rw [store, simDBC]
  split <;> rfl

private theorem Correct.of_cells {s' : State} {k : ℕ} {done : Set (ℕ × ℕ)} {p : ℕ × ℕ} (correct : Correct k done s p)
    (same : s'.cells = s.cells) : Correct k done s' p := by
  unfold Correct State.w State.w_ at *
  rwa [same]

theorem getOptimalDBC_bBound :
    (getOptimalDBC m pow23_all log2B log3B n s).bBound = callBound pow23_all n log2B log3B s := by
  change (store (simDBC (fillTables m pow23_all n n.mul2.mul3 log2B log3B
    (prepared pow23_all n log2B log3B s)))).bBound = _
  rw [store_bBound, fillTables_eq, visitAll_bBound]
  rfl

/-- At the end of a call every cell up to the frontier denotes a shortest chain of its residue, or of the residue
less the modulus, and is null when there is none. Every cell the call read had been written by one of its own
earlier visits or prepared by `init`, so the call ends alike whatever else the tables held before. -/
theorem getOptimalDBC_cells (tables : Exact pow23_all) (positive : 1 ≤ n.toNat)
    (exactly : n.mul2.mul3.toNat = 6 * n.toNat) (logs : Logs n.toNat log2B log3B)
    (reachable : Reachable m pow23_all s) :
    let s' := getOptimalDBC m pow23_all log2B log3B n s
    let cells := schedule s'.bBound log2B log3B
    (∀ t ≤ log3B, ∀ b ≤ s'.bBound t, 0 < b + t → Correct n.toNat (doneBy s'.bBound cells) s' (b, t)) ∧
      (∀ visited b t later, cells = visited ++ (b, t) :: later →
        (0 < b + t → b ≤ s'.bBound t → ∀ l ∈ fillReads b t (digit (6 * n.toNat) b t), Fresh m s'.bBound visited l) ∧
          (b = s'.bBound t → ∀ table, Fresh m s'.bBound (visited ++ [(b, t)]) (.of table (b, t)))) ∧
      (s'.w_min.isBasic = false → ∀ l ∈ simReads s'.cells s'.w_min.length s'.w_min, Fresh m s'.bBound cells l) ∧
      ∀ stale : Loc → OptimalDBC, (∀ l, Border m l → stale l = s.cells l) →
        Agrees m s'.bBound cells s' (getOptimalDBC m pow23_all log2B log3B n { s with cells := stale }) := by
  have input : Input m n := ⟨positive, by
    have fits := n.mul2.mul3.toNat_lt
    rwa [exactly, ← pow_mul] at fits⟩
  have grid := grid_of_input (s := s) tables input logs
  obtain ⟨filled, c, current, -⟩ := fillTables_spec tables input logs reachable.ready exactly
  intro s' cells
  have bounds : s'.bBound = callBound pow23_all n log2B log3B s := getOptimalDBC_bBound
  rw [← bounds] at grid filled current
  have scheduled : schedule (prepared pow23_all n log2B log3B s).bBound log2B log3B = cells := by
    rw [show (prepared pow23_all n log2B log3B s).bBound = s'.bBound from bounds.symm]
  refine ⟨?_, ?_, ?_, ?_⟩
  · intro t row b column proper
    have done : (b, t) ∈ doneBy s'.bBound cells := .inr ⟨(grid.mem_schedule row column le_rfl).1, column⟩
    exact (filled.correct _ done).of_cells (store_cells _)
  · intro visited b t later split
    exact ⟨fun _ below => fillReads_fresh grid split below, fun top => own_fresh top⟩
  · intro stored
    have fresh := simReads_fresh current.holds (by rwa [← store_w_min])
    rw [← store_w_min, ← store_cells] at fresh
    exact fresh
  · intro stale border
    have started : Agrees m s'.bBound [] (prepared pow23_all n log2B log3B s)
        (prepared pow23_all n log2B log3B { s with cells := stale }) := by
      refine ⟨?_, rfl, rfl, rfl, rfl, rfl⟩
      rintro l (edge | ⟨_, _, absent, -⟩)
      · exact border l edge
      · exact absurd absent (by simp)
    have split : schedule s'.bBound log2B log3B = [] ++ cells := rfl
    have visits := visitAll_agrees pow23_all n n.mul2.mul3.toNat grid split bounds.symm started
    have flat := fillTables_eq pow23_all n n.mul2.mul3 log2B log3B (prepared pow23_all n log2B log3B s)
    have flat' := fillTables_eq pow23_all n n.mul2.mul3 log2B log3B
      (prepared pow23_all n log2B log3B { s with cells := stale })
    rw [started.bBound, scheduled] at flat'
    rw [scheduled] at flat
    rw [← flat, ← flat', List.nil_append] at visits
    exact visits.store current.holds

/-- The state after a call with `n = 5`. -/
def afterFive : State := getOptimalDBC .secp256k1 (powTable 9) 3 2 (.ofNat 9 5) (State.start.init .secp256k1)

theorem getOptimalDBC_cells_five :
    Correct (MyBigInt.ofNat 9 5).toNat (doneBy afterFive.bBound (schedule afterFive.bBound 3 2)) afterFive (0, 1) :=
  (getOptimalDBC_cells (m := .secp256k1) (n := .ofNat 9 5) (powTable_exact 9) (by decide +kernel)
    (by decide +kernel) logs_five .init).1 1 (by decide) 0 (Nat.zero_le _) (by decide)

/-- A number with `B = 3 ^ 72 - 1`, for which `log(B.to_double()) / log(3)` is 72 in doubles. -/
def belowPower : MyBigInt Macros.secp256k1.INTS := .ofNat _ ((3 ^ 72 - 1) / 2)

/-- The state after a call with `n = 4 * 3 ^ 72`, which leaves `bBound[72] = 3`. -/
def afterRaised : State :=
  getOptimalDBC .secp256k1 (powTable _) 117 73 (.ofNat _ (4 * 3 ^ 72)) (State.start.init .secp256k1)

/-- The state after a further call, with `log3B = 72` where the floor is 71. -/
def afterStale : State := getOptimalDBC .secp256k1 (powTable _) 114 72 belowPower afterRaised

private theorem afterStale_bBound : afterStale.bBound 71 = 1 ∧ afterStale.bBound 72 = 3 := by
  rw [afterStale, getOptimalDBC_bBound, callBound, afterRaised, getOptimalDBC_bBound, callBound]
  decide +kernel

/-- That call visits `(2, 72)` below the bound it did not set and reads `w(2, 71)`, which lies above the frontier of
its row: no visit of the call writes it. -/
theorem getOptimalDBC_cells_stale :
    Reachable .secp256k1 (powTable _) afterRaised ∧ Logs (4 * 3 ^ 72) 117 73 ∧ Logs belowPower.toNat 114 71 ∧
      belowPower.mul2.mul3.toNat = 6 * belowPower.toNat ∧
      (2, 72) ∈ schedule afterStale.bBound 114 72 ∧ 2 ≤ afterStale.bBound 72 ∧
        ∃ l ∈ fillReads 2 72 (digit (6 * belowPower.toNat) 2 72), ∀ visited,
          ¬Fresh .secp256k1 afterStale.bBound visited l := by
  obtain ⟨below, left⟩ := afterStale_bBound
  have raised : Logs (4 * 3 ^ 72) 117 73 :=
    ⟨.symm (Nat.log_eq_of_pow_le_of_lt_pow (by norm_num) (by norm_num)),
      .symm (Nat.log_eq_of_pow_le_of_lt_pow (by norm_num) (by norm_num))⟩
  have floors : Logs belowPower.toNat 114 71 := by
    rw [show belowPower.toNat = (3 ^ 72 - 1) / 2 by decide +kernel]
    exact ⟨.symm (Nat.log_eq_of_pow_le_of_lt_pow (by norm_num) (by norm_num)),
      .symm (Nat.log_eq_of_pow_le_of_lt_pow (by norm_num) (by norm_num))⟩
  have exactly : belowPower.mul2.mul3.toNat = 6 * belowPower.toNat := by decide +kernel
  have reads : .of .w (2, 71) ∈ fillReads 2 72 (digit (6 * belowPower.toNat) 2 72) := by decide +kernel
  have above : afterStale.bBound 71 < 2 := by omega
  refine ⟨.call 117 73 _ _ .init, raised, floors, exactly, ?_, by omega, _, reads, not_fresh_above above .w⟩
  rw [mem_schedule]
  omega

end Call

end DbcSnark.DBCTest
