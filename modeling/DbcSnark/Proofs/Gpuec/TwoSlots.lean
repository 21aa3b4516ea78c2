import DbcSnark.Proofs.DBCTest.SubOptimal
import DbcSnark.Proofs.Gpuec.GetDBC

/-! # The cheapest of the candidate chains on the GPU

`get_DBC` writes the rows of a chain during its search, to the same slots and with the same comparison as the
searches of the CPU; only the room for a chain and the prices differ. So the slot it returns holds a cheapest chain
among those of the accepted exponents, as long as each of them fits its slot: nothing keeps the rows of slot 0 from
running into slot 1.
-/

namespace DbcSnark.Gpuec

open DBCTest DBCTest.Greedy

/-- The store of `get_DBC`. -/
def gpu : Layout := ⟨DBC_MAXLENGTH, 7, 15, 22, by decide⟩

/-- The memory of `get_DBC` as slots. -/
def Memory.slots (memory : Memory) : Slots := ⟨memory.DBC_store, memory.DBC_len⟩

theorem price_eq (memory : Memory) (x : ℕ) : price memory x = gpu.price memory.slots x := rfl

theorem writeRow_eq (store : ℕ → ℤ) (x y : ℕ) (row : ℤ × ℕ × ℕ) :
    writeRow store x y row = gpu.writeRow store x y row := rfl

section Candidates

variable (u_pow23 : ℕ → ℕ → UInt288) (fuel : ℕ) (n : UInt288)

/-- The chain that the search for the candidate `b` stores. -/
def chainOf (b : ℕ) : Option (List (ℤ × ℕ × ℕ)) :=
  (loopWith UInt288.sub (.exact 9) 6 u_pow23 fuel (initial n b)).map Greedy.stored

/-- The candidate chains of a call, in order. -/
def candidates (bs : List ℕ) : Option (List (List (ℤ × ℕ × ℕ))) :=
  (bs.filter fun b => Accepted n.toNat b).mapM (chainOf u_pow23 fuel n)

end Candidates

variable {u_pow23 : ℕ → ℕ → UInt288} {fuel : ℕ} {n : UInt288}

/-- A search that meets no fault has written the rows that the loop stores. -/
private theorem search_writes {x : ℕ} {y : Greedy 9} {store store' : ℕ → ℤ} {i : ℕ}
    (ends : search u_pow23 x fuel y store = .ok (i, store')) : ∃ z rows,
      loopWith UInt288.sub (.exact 9) 6 u_pow23 fuel y = some z ∧ z.stored = y.stored ++ rows ∧
        i = z.stored.length ∧ store' = gpu.writeRows x y.stored.length rows store := by
  induction fuel generalizing y store with
  | zero =>
    rw [search] at ends
    split at ends
    · rename_i finished
      cases ends
      exact ⟨y, [], if_pos finished, (List.append_nil _).symm, rfl, rfl⟩
    · cases ends
  | succ fuel ih =>
    rw [search] at ends
    split at ends
    · rename_i finished
      cases ends
      exact ⟨y, [], if_pos finished, (List.append_nil _).symm, rfl, rfl⟩
    · rename_i running
      split at ends
      · obtain ⟨z, rows, later, stored, length, written⟩ := ih ends
        refine ⟨z, (y.s, (picked 6 y).1, (picked 6 y).2) :: rows, ?_, ?_, length, ?_⟩
        · rw [loopWith, if_neg running]
          exact later
        · rw [stored, next, List.append_assoc]
          rfl
        · rw [written, next, List.length_append, writeRow_eq]
          rfl
      · cases ends

/-- A candidate that meets no fault is recorded. -/
private theorem tryCandidate_records (positive : 0 < n.toNat) {b : ℕ} (accepted : Accepted n.toNat b)
    {st st' : ℕ × Memory} (turn : tryCandidate u_pow23 fuel n st b = .ok st') :
    ∃ rows, chainOf u_pow23 fuel n b = some rows ∧
      gpu.record (st.1, st.2.slots) rows = (st'.1, st'.2.slots) := by
  rw [tryCandidate, if_pos accepted] at turn
  cases ends : candidate u_pow23 fuel n st.1 b st.2.DBC_store with
  | error fault => simp [ends, bind, Except.bind] at turn
  | ok result =>
    obtain ⟨i, store⟩ := result
    simp only [ends, bind, Except.bind, pure, Except.pure, Except.ok.injEq] at turn
    have nonzero : n.iszero = false := by
      rw [← Bool.not_eq_true, MyBigInt.iszero_iff]
      exact positive.ne'
    rw [candidate] at ends
    split at ends
    · rename_i a bound
      obtain ⟨z, rows, loop, stored, length, written⟩ := search_writes ends
      have chain : z.stored = rows := stored
      refine ⟨rows, ?_, ?_⟩
      · rw [chainOf, initial, bound]
        change (loopWith UInt288.sub (.exact 9) 6 u_pow23 fuel (.start n a b)).map Greedy.stored = some rows
        rw [loop, Option.map_some, chain]
      · rw [← turn, length, chain, written, price_eq, price_eq]
        rfl
    · rw [nonzero] at ends
      cases ends

/-- A call that meets no fault records its candidates one after the other. -/
theorem foldlM_records (positive : 0 < n.toNat) (bs : List ℕ) {st st' : ℕ × Memory}
    (run : bs.foldlM (tryCandidate u_pow23 fuel n) st = .ok st') :
    ∃ chains, candidates u_pow23 fuel n bs = some chains ∧
      chains.foldl gpu.record (st.1, st.2.slots) = (st'.1, st'.2.slots) := by
  induction bs generalizing st with
  | nil =>
    cases run
    exact ⟨[], rfl, rfl⟩
  | cons b bs ih =>
    rw [List.foldlM_cons] at run
    cases turn : tryCandidate u_pow23 fuel n st b with
    | error fault => simp [turn, bind, Except.bind] at run
    | ok middle =>
      simp only [turn, bind, Except.bind] at run
      obtain ⟨chains, later, recorded⟩ := ih run
      by_cases accepted : Accepted n.toNat b
      · obtain ⟨rows, here, first⟩ := tryCandidate_records positive accepted turn
        refine ⟨rows :: chains, ?_, ?_⟩
        · rw [candidates, List.filter_cons_of_pos (by simpa using accepted), List.mapM_cons, here, ← candidates, later]
          rfl
        · rw [List.foldl_cons, first, recorded]
      · refine ⟨chains, ?_, ?_⟩
        · rw [candidates, List.filter_cons_of_neg (by simpa using accepted), ← candidates, later]
        · have same : middle = st := by simpa [tryCandidate, accepted, pure, Except.pure] using turn.symm
          rw [← same, recorded]

private theorem loopWith_stored {y z : Greedy 9} (ends : loopWith UInt288.sub (.exact 9) 6 u_pow23 fuel y = some z) :
    ∃ rows, z.stored = y.stored ++ rows ∧ (y.t.iszero = false → rows ≠ []) := by
  induction fuel generalizing y with
  | zero =>
    rw [loopWith] at ends
    split at ends
    · cases ends
      exact ⟨[], (List.append_nil _).symm, fun running => by simp_all⟩
    · cases ends
  | succ fuel ih =>
    rw [loopWith] at ends
    split at ends
    · cases ends
      exact ⟨[], (List.append_nil _).symm, fun running => by simp_all⟩
    · obtain ⟨rows, stored, -⟩ := ih ends
      refine ⟨(y.s, (picked 6 y).1, (picked 6 y).2) :: rows, ?_, fun _ => List.cons_ne_nil _ _⟩
      rw [stored, next, List.append_assoc]
      rfl

/-- A search that ends with at most `DBC_MAXLENGTH` rows meets no fault from exponents inside the tables. -/
private theorem search_ends {x : ℕ} (slot : x < 2) {y z : Greedy 9} (store : ℕ → ℤ)
    (ends : loopWith UInt288.sub (.exact 9) 6 u_pow23 fuel y = some z) (fits : z.stored.length ≤ DBC_MAXLENGTH)
    (left : y.a < MAX_2) (right : y.b_temp < MAX_3) : ∃ result, search u_pow23 x fuel y store = .ok result := by
  induction fuel generalizing y store with
  | zero =>
    rw [loopWith] at ends
    split at ends
    · rename_i finished
      exact ⟨_, if_pos finished⟩
    · cases ends
  | succ fuel ih =>
    obtain ⟨rows, stored, grows⟩ := loopWith_stored ends
    rw [loopWith] at ends
    split at ends
    · rename_i finished
      exact ⟨_, by rw [search, if_pos finished]⟩
    · rename_i running
      have some : 0 < rows.length := List.length_pos_of_ne_nil (grows (by simpa using running))
      have index : storeIndex x y.stored.length 2 < storeSize := by
        rw [stored, List.length_append] at fits
        unfold storeIndex storeSize DBC_MAXLENGTH at *
        omega
      have inside := pick_window (.exact 9) 6 y.a y.b_temp y.t
      rw [search, if_neg running, if_pos ⟨left, right, index⟩]
      exact ih _ ends (inside.1.trans_lt left) (inside.2.1.trans_lt right)

/-- The search for an accepted candidate starts inside the tables, unless its bound is negative. -/
private theorem initial_inside {b : ℕ} (member : b ∈ b_try.take DBC_COEF) : (initial n b).a < MAX_2 ∧ b < MAX_3 := by
  have exponent : 67 ≤ b ∧ b < MAX_3 := by
    have all : ∀ b ∈ b_try.take DBC_COEF, 67 ≤ b ∧ b < MAX_3 := by decide
    exact all b member
  refine ⟨?_, exponent.2⟩
  have bound : n.toNat < (2 ^ 32) ^ 9 := n.toNat_lt
  change (RBound n.toNat b).toNat < MAX_2
  unfold RBound truncLog2
  split
  · rename_i reach
    rw [Int.toNat_natCast]
    apply Nat.log_lt_of_lt_pow (Nat.div_pos reach (by positivity)).ne'
    have power : 3 ^ 67 ≤ 3 ^ b := Nat.pow_le_pow_right (by norm_num) exponent.1
    rw [Nat.div_lt_iff_lt_mul (by positivity), MAX_2]
    omega
  · have none : (-(Nat.log 2 (10 ^ 16 * 3 ^ b / (10774960475223583 * n.toNat)) : ℤ)).toNat = 0 := by omega
    rw [none]
    decide

/-- A candidate whose chain is found and fits its slot meets no fault. -/
private theorem tryCandidate_ends {b : ℕ} (member : b ∈ b_try.take DBC_COEF) {rows : List (ℤ × ℕ × ℕ)}
    (nonneg : 0 ≤ RBound n.toNat b) (found : chainOf u_pow23 fuel n b = some rows)
    (fits : rows.length ≤ DBC_MAXLENGTH) {st : ℕ × Memory} (slot : st.1 < 2) :
    ∃ st', tryCandidate u_pow23 fuel n st b = .ok st' ∧ st'.1 < 2 := by
  obtain ⟨z, loop, rfl⟩ := Option.map_eq_some_iff.mp found
  obtain ⟨left, right⟩ := initial_inside (n := n) member
  obtain ⟨result, ends⟩ := search_ends slot st.2.DBC_store loop fits left right
  have candidate : candidate u_pow23 fuel n st.1 b st.2.DBC_store = .ok result := by
    obtain ⟨a, bound⟩ := Int.eq_ofNat_of_zero_le nonneg
    rw [initial, bound, Int.toNat_natCast] at ends
    simp only [Gpuec.candidate, bound]
    exact ends
  by_cases accepted : Accepted n.toNat b
  · refine ⟨_, by simp [tryCandidate, accepted, candidate, pure, Except.pure, bind, Except.bind]; rfl, ?_⟩
    dsimp only
    split <;> norm_num
  · exact ⟨st, by simp [tryCandidate, accepted, pure, Except.pure], slot⟩

/-- A call whose candidates are found and fit their slots meets no fault. -/
private theorem foldlM_ends {bs : List ℕ} (tried : ∀ b ∈ bs, b ∈ b_try.take DBC_COEF)
    (nonneg : ∀ b ∈ bs, Accepted n.toNat b → 0 ≤ RBound n.toNat b) {chains : List (List (ℤ × ℕ × ℕ))}
    (produced : candidates u_pow23 fuel n bs = some chains) (fits : ∀ rows ∈ chains, rows.length ≤ DBC_MAXLENGTH)
    {st : ℕ × Memory} (slot : st.1 < 2) : ∃ st', bs.foldlM (tryCandidate u_pow23 fuel n) st = .ok st' := by
  induction bs generalizing st chains with
  | nil => exact ⟨st, rfl⟩
  | cons b bs ih =>
    have member := tried b List.mem_cons_self
    have tried' : ∀ b ∈ bs, b ∈ b_try.take DBC_COEF := fun b later => tried b (List.mem_cons_of_mem _ later)
    have nonneg' : ∀ b ∈ bs, Accepted n.toNat b → 0 ≤ RBound n.toNat b :=
      fun b later => nonneg b (List.mem_cons_of_mem _ later)
    rw [List.foldlM_cons]
    by_cases accepted : Accepted n.toNat b
    · rw [candidates, List.filter_cons_of_pos (by simpa using accepted), List.mapM_cons, ← candidates] at produced
      obtain ⟨rows, found, rest⟩ := Option.bind_eq_some_iff.mp produced
      obtain ⟨later, produced', same⟩ := Option.bind_eq_some_iff.mp rest
      obtain rfl : rows :: later = chains := Option.some.inj same
      obtain ⟨middle, turn, slot'⟩ := tryCandidate_ends member (nonneg b List.mem_cons_self accepted) found
        (fits rows List.mem_cons_self) slot
      rw [turn]
      exact ih tried' nonneg' produced' (fun rows inside => fits rows (List.mem_cons_of_mem _ inside)) slot'
    · rw [candidates, List.filter_cons_of_neg (by simpa using accepted), ← candidates] at produced
      have turn : tryCandidate u_pow23 fuel n st b = .ok st := by simp [tryCandidate, accepted, pure, Except.pure]
      rw [turn]
      exact ih tried' nonneg' produced fits slot

/-- `get_DBC` returns when all its candidates are found, fit their slots and start from no negative bound. -/
theorem get_DBC_ends (memory : Memory) {chains : List (List (ℤ × ℕ × ℕ))}
    (nonneg : ∀ b ∈ b_try.take DBC_COEF, Accepted n.toNat b → 0 ≤ RBound n.toNat b)
    (produced : candidates u_pow23 fuel n (b_try.take DBC_COEF) = some chains)
    (fits : ∀ rows ∈ chains, rows.length ≤ DBC_MAXLENGTH) :
    ∃ slot after, get_DBC u_pow23 fuel n memory = .ok (slot, after) := by
  obtain ⟨st, run⟩ := foldlM_ends (fun _ member => member) nonneg produced fits
    (show ((0, opened memory) : ℕ × Memory).1 < 2 by norm_num)
  exact ⟨1 - st.1, st.2, by simp [get_DBC, run, bind, Except.bind, pure, Except.pure]⟩

/-- `get_DBC` returns a cheapest of its candidates, if each of them fits its slot. -/
theorem get_DBC_returns {memory after : Memory} {slot : ℕ} {chains : List (List (ℤ × ℕ × ℕ))} (positive : 0 < n.toNat)
    (left : gpu.Left memory.slots) (produced : candidates u_pow23 fuel n (b_try.take DBC_COEF) = some chains)
    (nonempty : chains ≠ []) (fits : ∀ rows ∈ chains, rows.length ≤ DBC_MAXLENGTH)
    (cheap : ∀ rows ∈ chains, gpu.cost rows < 2 ^ 20 * gpu.ADD_COST)
    (ends : get_DBC u_pow23 fuel n memory = .ok (slot, after)) : gpu.Returns chains slot after.slots := by
  cases run : (b_try.take DBC_COEF).foldlM (tryCandidate u_pow23 fuel n) (0, opened memory) with
  | error fault => simp [get_DBC, run, bind, Except.bind] at ends
  | ok st =>
    simp only [get_DBC, run, bind, Except.bind, pure, Except.pure, Except.ok.injEq, Prod.mk.injEq] at ends
    obtain ⟨rfl, rfl⟩ := ends
    obtain ⟨chains', produced', recorded⟩ := foldlM_records positive _ run
    obtain rfl : chains' = chains := Option.some.inj (produced'.symm.trans produced)
    have good : ∀ rows ∈ chains', gpu.Good rows := by
      intro rows member
      refine ⟨?_, fits rows member, cheap rows member⟩
      obtain ⟨b, -, chain⟩ := Loops.exists_of_mem_mapM produced rows member
      obtain ⟨z, loop, rfl⟩ := Option.map_eq_some_iff.mp chain
      obtain ⟨rows, stored, some⟩ := loopWith_stored loop
      rw [stored]
      apply some
      rw [← Bool.not_eq_true, MyBigInt.iszero_iff]
      exact positive.ne'
    have returns := gpu.returns_foldl_record left nonempty good
    change gpu.Returns chains' (1 - (chains'.foldl gpu.record (0, (opened memory).slots)).1)
      (chains'.foldl gpu.record (0, (opened memory).slots)).2 at returns
    rwa [recorded] at returns

/-- The chain of a searchable candidate is found within `DBC_MAXLENGTH` turns, fits its slot and costs less than the
opening price. -/
theorem chainOf_searchable (tables : Exact u_pow23) (positive : 0 < n.toNat) (bound : n.toNat < 2 ^ 256) {b : ℕ}
    (searchable : Searchable n.toNat b) : ∃ rows, chainOf u_pow23 DBC_MAXLENGTH n b = some rows ∧
      rows.length ≤ DBC_MAXLENGTH ∧ gpu.cost rows < 2 ^ 20 * gpu.ADD_COST := by
  obtain ⟨y, -, -, run, finished, short, -, -, -, inside⟩ :=
    candidate_fills tables positive bound searchable (show 0 < 2 by norm_num) fun _ => 0
  have ends := loopWith_of_run run finished (short.trans (Nat.le_add_left _ _))
  refine ⟨y.stored, by rw [chainOf, ends, Option.map_some], short, ?_⟩
  have leading : (y.stored.headD (0, 0, 0)).2.1 < MAX_2 ∧ (y.stored.headD (0, 0, 0)).2.2 < MAX_3 := by
    cases first : y.stored with
    | nil => decide
    | cons r rows => exact inside r (first ▸ List.mem_cons_self)
  change (y.stored.length : ℤ) * 15 + (y.stored.headD (0, 0, 0)).2.1 * 7 + (y.stored.headD (0, 0, 0)).2.2 * 22 <
    2 ^ 20 * 15
  unfold DBC_MAXLENGTH MAX_2 MAX_3 at *
  omega

/-- Where all accepted candidates are searchable, there is at least one chain, and all are fit for the slots. -/
theorem candidates_searchable (tables : Exact u_pow23) (positive : 0 < n.toNat) (bound : n.toNat < 2 ^ 256)
    (searchable : ∀ b ∈ b_try.take DBC_COEF, Accepted n.toNat b → Searchable n.toNat b) :
    ∃ chains, candidates u_pow23 DBC_MAXLENGTH n (b_try.take DBC_COEF) = some chains ∧ chains ≠ [] ∧
      (∀ rows ∈ chains, rows.length ≤ DBC_MAXLENGTH) ∧ ∀ rows ∈ chains, gpu.cost rows < 2 ^ 20 * gpu.ADD_COST := by
  have found : ∀ b ∈ (b_try.take DBC_COEF).filter fun b => Accepted n.toNat b,
      ∃ rows, chainOf u_pow23 DBC_MAXLENGTH n b = some rows ∧
        rows.length ≤ DBC_MAXLENGTH ∧ gpu.cost rows < 2 ^ 20 * gpu.ADD_COST := by
    intro b member
    obtain ⟨tried, accepted⟩ := List.mem_filter.mp member
    exact chainOf_searchable tables positive bound (searchable b tried (of_decide_eq_true accepted))
  obtain ⟨chains, produced, size⟩ := Loops.exists_mapM fun b member => (found b member).imp fun _ rows => rows.1
  have each : ∀ rows ∈ chains, rows.length ≤ DBC_MAXLENGTH ∧ gpu.cost rows < 2 ^ 20 * gpu.ADD_COST := by
    intro rows member
    obtain ⟨b, tried, chain⟩ := Loops.exists_of_mem_mapM produced rows member
    obtain ⟨rows', chain', fit⟩ := found b tried
    obtain rfl : rows = rows' := Option.some.inj (chain.symm.trans chain')
    exact fit
  refine ⟨chains, produced, ?_, fun rows member => (each rows member).1, fun rows member => (each rows member).2⟩
  obtain ⟨b, tried, accepted⟩ := exists_accepted positive
  have some : b ∈ (b_try.take DBC_COEF).filter fun b => Accepted n.toNat b :=
    List.mem_filter.mpr ⟨tried, decide_eq_true accepted⟩
  exact List.ne_nil_of_length_pos (size ▸ List.length_pos_of_mem some)

/-- In any sequence of candidate chains that fit the slots, the slot returned ends up with a cheapest one, whatever
an earlier call left in the slots, and what the call leaves there is fit for the next one. `getSubOptimalDBC`,
`getEOSDBC` and `get_DBC` return when their candidates are found, and play them so; on the GPU they are found, and fit,
for every scalar whose expansions have room. A larger `dbc_coef` never raises the cost. -/
theorem two_slot_tournament {INTS : ℕ} (bounds : Bounds INTS) (floats : Floats INTS)
    (pow23_all : ℕ → ℕ → MyBigInt INTS) (u_pow23 : ℕ → ℕ → UInt288) (fuel : ℕ) (bs : List ℕ) {n : MyBigInt INTS}
    {m : UInt288} (positive : 0 < n.toNat) (positive' : 0 < m.toNat) {slots slots' : Slots} {memory : Memory}
    (left : (cpu INTS).Left slots) (left' : (cpu INTS).Left slots') (leftOnGpu : gpu.Left memory.slots) :
    (∀ (S : Layout) (any : Slots) (chains : List (List (ℤ × ℕ × ℕ))), S.Left any → chains ≠ [] →
      (∀ rows ∈ chains, S.Good rows) →
        let st := chains.foldl S.record (0, any.opened)
        S.Returns chains (1 - st.1) st.2 ∧ S.Left st.2) ∧
    (∀ dbc_coef chains,
      DBCTest.candidates bounds floats pow23_all fuel 6 (some dbc_coef) n bs 0 = some chains → chains ≠ [] →
      (∀ rows ∈ chains, (cpu INTS).cost rows < 2 ^ 20 * (cpu INTS).ADD_COST) →
      ∃ slot after, getSubOptimalDBC bounds floats pow23_all fuel bs n dbc_coef slots = some (slot, after) ∧
        (cpu INTS).Returns chains slot after) ∧
    (∀ chains,
      DBCTest.candidates bounds floats pow23_all fuel 4 none n (List.range (DBCTest.MAX_3 INTS)) 0 = some chains →
      chains ≠ [] → (∀ rows ∈ chains, (cpu INTS).cost rows < 2 ^ 20 * (cpu INTS).ADD_COST) →
      ∃ slot after, getEOSDBC bounds floats pow23_all fuel n slots = some (slot, after) ∧
        (cpu INTS).Returns chains slot after) ∧
    (∀ chains, (∀ b ∈ b_try.take DBC_COEF, Accepted m.toNat b → 0 ≤ RBound m.toNat b) →
      candidates u_pow23 fuel m (b_try.take DBC_COEF) = some chains → chains ≠ [] →
      (∀ rows ∈ chains, rows.length ≤ DBC_MAXLENGTH) → (∀ rows ∈ chains, gpu.cost rows < 2 ^ 20 * gpu.ADD_COST) →
      ∃ slot after, get_DBC u_pow23 fuel m memory = .ok (slot, after) ∧ gpu.Returns chains slot after.slots) ∧
    (Exact u_pow23 → m.toNat < 2 ^ 256 →
      (∀ b ∈ b_try.take DBC_COEF, Accepted m.toNat b → Searchable m.toNat b) →
      ∃ chains slot after, candidates u_pow23 DBC_MAXLENGTH m (b_try.take DBC_COEF) = some chains ∧
        get_DBC u_pow23 DBC_MAXLENGTH m memory = .ok (slot, after) ∧ gpu.Returns chains slot after.slots) ∧
    (∀ dbc_coef dbc_coef' chains chains', dbc_coef ≤ dbc_coef' →
      DBCTest.candidates bounds floats pow23_all fuel 6 (some dbc_coef) n bs 0 = some chains → chains ≠ [] →
      DBCTest.candidates bounds floats pow23_all fuel 6 (some dbc_coef') n bs 0 = some chains' →
      (∀ rows ∈ chains', (cpu INTS).cost rows < 2 ^ 20 * (cpu INTS).ADD_COST) →
      ∃ slot after slot' after',
        getSubOptimalDBC bounds floats pow23_all fuel bs n dbc_coef slots = some (slot, after) ∧
        getSubOptimalDBC bounds floats pow23_all fuel bs n dbc_coef' slots' = some (slot', after') ∧
          (cpu INTS).price after' slot' ≤ (cpu INTS).price after slot) := by
  refine ⟨?_, ?_, ?_, ?_, ?_, ?_⟩
  · intro S any chains leftAny nonempty good
    refine ⟨S.returns_foldl_record leftAny nonempty good, Layout.Left.foldl_record S ?_ chains good 0⟩
    exact ⟨leftAny.dbl, leftAny.tpl, leftAny.cheap⟩
  · intro dbc_coef chains produced nonempty cheap
    obtain ⟨slot, after, ends⟩ := getSubOptimalDBC_ends slots produced
    exact ⟨slot, after, ends, getSubOptimalDBC_returns positive left produced nonempty cheap ends⟩
  · intro chains produced nonempty cheap
    obtain ⟨slot, after, ends⟩ := getEOSDBC_ends slots produced
    exact ⟨slot, after, ends, getEOSDBC_returns positive left produced nonempty cheap ends⟩
  · intro chains nonneg produced nonempty fits cheap
    obtain ⟨slot, after, ends⟩ := get_DBC_ends memory nonneg produced fits
    exact ⟨slot, after, ends, get_DBC_returns positive' leftOnGpu produced nonempty fits cheap ends⟩
  · intro tables bound searchable
    obtain ⟨chains, produced, nonempty, fits, cheap⟩ := candidates_searchable tables positive' bound searchable
    obtain ⟨slot, after, ends⟩ := get_DBC_ends memory (fun b tried accepted => (searchable b tried accepted).rBound)
      produced fits
    exact ⟨chains, slot, after, produced, ends,
      get_DBC_returns positive' leftOnGpu produced nonempty fits cheap ends⟩
  · intro dbc_coef dbc_coef' chains chains' larger produced nonempty produced' cheap
    obtain ⟨slot, after, ends⟩ := getSubOptimalDBC_ends slots produced
    obtain ⟨slot', after', ends'⟩ := getSubOptimalDBC_ends slots' produced'
    refine ⟨slot, after, slot', after', ends, ends', ?_⟩
    exact getSubOptimalDBC_antitone larger positive left left' produced produced' nonempty cheap ends ends'

/-- Outcomes of the logarithms that accept the exponent 0 only, with the bound 2. -/
def onlyZero : Bounds 9 := ⟨fun _ b => if b = 0 then 2 else 3, fun _ _ => 2⟩

/-- Two chains of 5 in the slots of the GPU, the searches of the CPU for 5 from `b = 0`, with one and with three
candidates allowed, and the search of the GPU for `2 ^ 100 * 3 ^ 60`. -/
theorem two_slot_tournament_five :
    gpu.Returns [[(1, 0, 1), (1, 1, 0)], [(1, 2, 0), (1, 0, 0)]]
      (1 - ([[(1, 0, 1), (1, 1, 0)], [(1, 2, 0), (1, 0, 0)]].foldl gpu.record (0, zeroed.slots.opened)).1)
      ([[(1, 0, 1), (1, 1, 0)], [(1, 2, 0), (1, 0, 0)]].foldl gpu.record (0, zeroed.slots.opened)).2 ∧
    (∃ slot after, getSubOptimalDBC onlyZero (.exact 9) (powTable 9) 20 [0] (.ofNat 9 5) 10
      zeroed.slots = some (slot, after) ∧ (cpu 9).Returns [[(1, 2, 0), (1, 0, 0)]] slot after) ∧
    (∃ slot after, getEOSDBC onlyZero (.exact 9) (powTable 9) 20 (.ofNat 9 5) zeroed.slots = some (slot, after) ∧
      (cpu 9).Returns [[(1, 2, 0), (1, 0, 0)]] slot after) ∧
    (∃ chains slot after, candidates (powTable 9) 20 (.ofNat 9 (2 ^ 100 * 3 ^ 60)) (b_try.take DBC_COEF) = some chains ∧
      get_DBC (powTable 9) 20 (.ofNat 9 (2 ^ 100 * 3 ^ 60)) zeroed = .ok (slot, after) ∧
      gpu.Returns chains slot after.slots) ∧
    (∃ chains slot after,
      candidates (powTable 9) DBC_MAXLENGTH (.ofNat 9 (2 ^ 100 * 3 ^ 60)) (b_try.take DBC_COEF) = some chains ∧
      get_DBC (powTable 9) DBC_MAXLENGTH (.ofNat 9 (2 ^ 100 * 3 ^ 60)) zeroed = .ok (slot, after) ∧
      gpu.Returns chains slot after.slots) ∧
    ∃ slot after slot' after',
      getSubOptimalDBC onlyZero (.exact 9) (powTable 9) 20 [0] (.ofNat 9 5) 1 zeroed.slots = some (slot, after) ∧
      getSubOptimalDBC onlyZero (.exact 9) (powTable 9) 20 [0] (.ofNat 9 5) 3 zeroed.slots = some (slot', after') ∧
        (cpu 9).price after' slot' ≤ (cpu 9).price after slot := by
  have empty : ∀ S : Layout, 0 < S.ADD_COST → S.Left zeroed.slots := by
    intro S positive
    refine ⟨le_rfl, le_rfl, ?_⟩
    change (0 : ℤ) * S.DBL_COST + 0 * S.TPL_COST < 2 ^ 20 * S.ADD_COST
    omega
  have cpuEmpty := empty (cpu 9) (by decide)
  have gpuEmpty := empty gpu (by decide)
  obtain ⟨any, sub, eos, onGpu, searched, larger⟩ := two_slot_tournament onlyZero (.exact 9) (powTable 9) (powTable 9) 20 [0]
    (n := .ofNat 9 5) (m := .ofNat 9 (2 ^ 100 * 3 ^ 60)) (by decide) searchable_pow23.1 cpuEmpty cpuEmpty gpuEmpty
  refine ⟨?_, ?_, ?_, ?_, ?_, ?_⟩
  · refine (any gpu zeroed.slots _ gpuEmpty (by decide) ?_).1
    intro rows member
    fin_cases member <;> exact ⟨by decide, by decide, by decide⟩
  · exact sub 10 [[(1, 2, 0), (1, 0, 0)]] (by decide) (by decide) (by decide)
  · exact eos [[(1, 2, 0), (1, 0, 0)]] (by decide +kernel) (by decide) (by decide)
  · have found : (candidates (powTable 9) 20 (.ofNat 9 (2 ^ 100 * 3 ^ 60)) (b_try.take DBC_COEF)).any (fun chains =>
        chains ≠ [] ∧ (∀ rows ∈ chains, rows.length ≤ DBC_MAXLENGTH) ∧
          ∀ rows ∈ chains, gpu.cost rows < 2 ^ 20 * gpu.ADD_COST) = true := by decide +kernel
    obtain ⟨chains, produced, passed⟩ := (Option.any_eq_true _ _).mp found
    obtain ⟨nonempty, fits, cheap⟩ := of_decide_eq_true passed
    obtain ⟨slot, after, ends, returns⟩ := onGpu chains (by decide +kernel) produced nonempty fits cheap
    exact ⟨chains, slot, after, produced, ends, returns⟩
  · exact searched (powTable_exact 9) searchable_pow23.2.1 searchable_pow23.2.2
  · exact larger 1 3 [[(1, 2, 0), (1, 0, 0)]] [[(1, 2, 0), (1, 0, 0)]] (by decide) (by decide) (by decide) (by decide)
      (by decide)

/-- A scalar with three candidates: `b = 74` and `b = 76` need 101 rows in slot 0, and `b = 69` gives the cheapest chain. -/
def spillingScalar : ℕ := 8601206592495917410768164505715895407952959150734031179927882963

/-- The last row of a chain that is too long for slot 0 is the first row of slot 1, where the cheapest chain is kept. -/
theorem two_slot_tournament_overflow : ∃ chains slot after,
    (∀ b ∈ b_try.take DBC_COEF, Accepted (MyBigInt.ofNat 9 spillingScalar).toNat b →
      0 ≤ RBound (MyBigInt.ofNat 9 spillingScalar).toNat b) ∧
    candidates (powTable 9) 101 (.ofNat 9 spillingScalar) (b_try.take DBC_COEF) = some chains ∧ chains ≠ [] ∧
    (∀ rows ∈ chains, gpu.cost rows < 2 ^ 20 * gpu.ADD_COST) ∧ gpu.Left zeroed.slots ∧
    get_DBC (powTable 9) 101 (.ofNat 9 spillingScalar) zeroed = .ok (slot, after) ∧
    ¬ gpu.Returns chains slot after.slots := by
  have run : (candidates (powTable 9) 101 (.ofNat 9 spillingScalar) (b_try.take DBC_COEF)).any (fun chains =>
      (get_DBC (powTable 9) 101 (.ofNat 9 spillingScalar) zeroed).toOption.any fun result =>
        chains ≠ [] ∧ (∀ rows ∈ chains, gpu.cost rows < 2 ^ 20 * gpu.ADD_COST) ∧ ∀ rows ∈ chains, ∃ row ∈ rows[0]?,
          gpu.readRow result.2.DBC_store result.1 0 ≠ (row.1, (row.2.1 : ℤ), (row.2.2 : ℤ))) = true := by
    decide +kernel
  obtain ⟨chains, produced, passed⟩ := (Option.any_eq_true _ _).mp run
  obtain ⟨⟨slot, after⟩, ends, checked⟩ := (Option.any_eq_true _ _).mp passed
  obtain ⟨nonempty, cheap, changed⟩ := of_decide_eq_true checked
  cases call : get_DBC (powTable 9) 101 (.ofNat 9 spillingScalar) zeroed with
  | error fault => simp [call, Except.toOption] at ends
  | ok result =>
    obtain rfl : result = (slot, after) := by simpa [call, Except.toOption] using ends
    refine ⟨chains, slot, after, by decide +kernel, produced, nonempty, cheap, ⟨le_rfl, le_rfl, by decide⟩, rfl, ?_⟩
    rintro ⟨-, rows, member, holds, -⟩
    obtain ⟨row, first, differs⟩ := changed rows member
    exact differs (holds.stored 0 row first)

end DbcSnark.Gpuec
