import DbcSnark.Model.DBCTest.MSMTest
import DbcSnark.Proofs.DBCTest.Decode
import DbcSnark.Proofs.DBCTest.PartialSums
import DbcSnark.Proofs.Ec.Ladder

/-! # The comparison program counts no error

Every loop writes the results of one method, each at its own address and each a well-formed representation of the
multiple, whichever point the program starts from. So the comparisons find them equal.
-/

namespace DbcSnark.DBCTest

open DoubleBase Hexadecimal MyBigInt

/-! ## The two readings of a string -/

section Words

private theorem isxdigit_eq (c : Char) : isxdigit c = (digit? c).isSome := by
  have below (a b : Char) : (a ≤ b) = (a.toNat ≤ b.toNat) := rfl
  have zero : '0'.toNat = 48 := rfl
  have nine : '9'.toNat = 57 := rfl
  have A : 'A'.toNat = 65 := rfl
  have F : 'F'.toNat = 70 := rfl
  have a : 'a'.toNat = 97 := rfl
  have f : 'f'.toNat = 102 := rfl
  rw [Bool.eq_iff_iff]
  simp only [isxdigit, digit?, below, zero, nine, A, F, a, f, Bool.or_eq_true, Bool.and_eq_true, decide_eq_true_eq]
  split_ifs <;> simp only [Option.isSome_some, Option.isSome_none, Bool.false_eq_true, iff_true, iff_false] <;> omega

private theorem hexchar2int_eq (c : Char) : hexchar2int c = (digit? c).getD 0 := by
  have below (a b : Char) : (a ≤ b) = (a.toNat ≤ b.toNat) := rfl
  have zero : '0'.toNat = 48 := rfl
  have nine : '9'.toNat = 57 := rfl
  have A : 'A'.toNat = 65 := rfl
  have F : 'F'.toNat = 70 := rfl
  have a : 'a'.toNat = 97 := rfl
  have f : 'f'.toNat = 102 := rfl
  simp only [hexchar2int, digit?, below, zero, nine, A, F, a, f, Bool.and_eq_true, decide_eq_true_eq]
  split_ifs <;> simp only [Option.getD_some, Option.getD_none] <;> omega

private theorem foldl_digits (s : List Char) (l : ℕ) :
    s.foldl (fun l c => l * 16 + hexchar2int c) l = l * 16 ^ s.length + number s := by
  induction s generalizing l with
  | nil => simp [number]
  | cons c s ih =>
    rw [List.foldl_cons, ih, hexchar2int_eq, number, number, List.map_cons, BigEndian.value_cons, List.length_map,
      List.length_cons, pow_succ]
    ring

/-- The library reads the number of a string of digits. -/
theorem BN_hex2bn_of_isHex {hexwords : String} (hex : IsHex hexwords.toList) (short : hexwords.toList.length ≤ maxWords) :
    BN_hex2bn hexwords = number hexwords.toList := by
  have plain : hexwords.toList.head? ≠ some '-' := by
    intro sign
    have digit := hex '-' (List.mem_of_mem_head? sign)
    exact absurd digit (by decide)
  have digits : hexwords.toList.takeWhile isxdigit = hexwords.toList :=
    List.takeWhile_eq_self_iff.mpr fun c member => (isxdigit_eq c).trans (hex c member)
  have words : maxWords ≤ maxDigits := by decide
  have positive : 1 ≤ maxWords := by decide
  rw [BN_hex2bn]
  simp only [plain, if_false, digits]
  split_ifs with empty long
  · rcases empty with none | many
    · rw [List.length_eq_zero_iff.mp none]
      rfl
    · omega
  · omega
  · rw [foldl_digits, zero_mul, zero_add]

end Words

namespace MSMTest

open Ec EC_GROUP OnPoints

/-! ## The results -/

section Points

variable {p : ℕ} [Fact p.Prime] {group : SimpleGroup p} {c : ZMod p} {P Q : (group.curve c).Point}
  {h h' : Heap p} {a TEST_TIMES : ℕ} {r : ℕ → ℕ → ℕ} {done done' : ℕ → ℕ → Prop} {multiple : ℕ → (group.curve c).Point}

/-- Among the points allocated before, the step writes the target only. -/
structure Wrote (group : SimpleGroup p) (h h' : Heap p) (target : ℕ) (Q : (group.curve c).Point) : Prop where
  stored : group.Represents (h'.m target) Q
  others : ∀ i < h.next, i ≠ target → h'.m i = h.m i
  grows : h.next ≤ h'.next

/-- The results have addresses of their own. -/
structure Placed (a TEST_TIMES next : ℕ) (r : ℕ → ℕ → ℕ) : Prop where
  base : a < next
  room : ∀ i < TEST_TIMES, ∀ k < 6, r i k < next
  apart : ∀ i < TEST_TIMES, ∀ k < 6, r i k ≠ a
  distinct : ∀ i < TEST_TIMES, ∀ k < 6, ∀ j < TEST_TIMES, ∀ l < 6, r i k = r j l → i = j ∧ k = l

/-- The base point is as at the start, the results that are done hold their multiples, and the others infinity. -/
structure Progress (group : SimpleGroup p) (point : EC_POINT (ZMod p)) (a TEST_TIMES : ℕ) (r : ℕ → ℕ → ℕ)
    (multiple : ℕ → (group.curve c).Point) (done : ℕ → ℕ → Prop) (h : Heap p) : Prop where
  placed : Placed a TEST_TIMES h.next r
  base : h.m a = point
  results : ∀ i < TEST_TIMES, ∀ k < 6, done i k → group.Represents (h.m (r i k)) (multiple i)
  fresh : ∀ i < TEST_TIMES, ∀ k < 6, ¬ done i k → group.Represents (h.m (r i k)) (0 : (group.curve c).Point)

variable {point : EC_POINT (ZMod p)}

theorem Progress.congr (progress : Progress group point a TEST_TIMES r multiple done h)
    (same : ∀ i < TEST_TIMES, ∀ k < 6, done i k ↔ done' i k) : Progress group point a TEST_TIMES r multiple done' h :=
  ⟨progress.placed, progress.base,
    fun i inside k below holds => progress.results i inside k below ((same i inside k below).mpr holds),
    fun i inside k below fails => progress.fresh i inside k below fun holds => fails ((same i inside k below).mp holds)⟩

/-- A step that writes a result does it. -/
theorem Progress.wrote (progress : Progress group point a TEST_TIMES r multiple done h) {i k : ℕ} (inside : i < TEST_TIMES)
    (below : k < 6) (wrote : Wrote group h h' (r i k) (multiple i)) :
    Progress group point a TEST_TIMES r multiple (fun j l => done j l ∨ j = i ∧ l = k) h' := by
  obtain ⟨placed, base, results, fresh⟩ := progress
  have kept {j l : ℕ} (inside' : j < TEST_TIMES) (below' : l < 6) (other : ¬ (j = i ∧ l = k)) :
      h'.m (r j l) = h.m (r j l) :=
    wrote.others _ (placed.room j inside' l below') fun same =>
      other (placed.distinct j inside' l below' i inside k below same)
  refine ⟨⟨placed.base.trans_le wrote.grows, fun j inside' l below' => (placed.room j inside' l below').trans_le wrote.grows,
    placed.apart, placed.distinct⟩, ?_, fun j inside' l below' holds => ?_, fun j inside' l below' fails => ?_⟩
  · rw [wrote.others a placed.base (placed.apart i inside k below).symm, base]
  · by_cases here : j = i ∧ l = k
    · rw [here.1, here.2]
      exact wrote.stored
    · rw [kept inside' below' here]
      exact results j inside' l below' (holds.resolve_right here)
  · rw [kept inside' below' fun here => fails (.inr here)]
    exact fresh j inside' l below' fun holds => fails (.inl holds)

/-- The results of the first `k` loops, and of the first `i` turns of the next one. -/
def Upto (k i j l : ℕ) : Prop := l < k ∨ l = k ∧ j < i

theorem upto_turn (k i j l : ℕ) : Upto k i j l ∨ j = i ∧ l = k ↔ Upto k (i + 1) j l := by
  unfold Upto
  omega

theorem Progress.turn {k i : ℕ} (progress : Progress group point a TEST_TIMES r multiple (Upto k i) h)
    (inside : i < TEST_TIMES) (below : k < 6) (wrote : Wrote group h h' (r i k) (multiple i)) :
    Progress group point a TEST_TIMES r multiple (Upto k (i + 1)) h' := by
  exact (progress.wrote inside below wrote).congr fun j _ l _ => upto_turn k i j l

theorem Progress.next {k : ℕ} (progress : Progress group point a TEST_TIMES r multiple (Upto k TEST_TIMES) h) :
    Progress group point a TEST_TIMES r multiple (Upto (k + 1) 0) h := by
  refine progress.congr fun j inside l _ => ?_
  unfold Upto
  omega

/-- The addresses that the allocating loop hands out before result `k` of turn `i`. -/
private structure Allocated (h₀ : Heap p) (i k : ℕ) (st : Heap p × (ℕ → ℕ → ℕ)) : Prop where
  next : st.1.next = h₀.next + 6 * i + k
  address : ∀ j l, l < 6 → j < i ∨ j = i ∧ l < k → st.2 j l = h₀.next + 6 * j + l
  old : ∀ x < h₀.next, st.1.m x = h₀.m x
  new : ∀ x, h₀.next ≤ x → x < st.1.next → st.1.m x = ⟨0, 0, 0, false⟩

private theorem Allocated.turn {h₀ : Heap p} {i k : ℕ} {st : Heap p × (ℕ → ℕ → ℕ)} (allocated : Allocated h₀ i k st) :
    Allocated h₀ i (k + 1) (let (h, address) := EC_POINT_new st.1
      (h, Function.update st.2 i (Function.update (st.2 i) k address))) := by
  obtain ⟨next, address, old, new⟩ := allocated
  refine ⟨?_, fun j l below earlier => ?_, fun x before => ?_, fun x after before => ?_⟩
  · change st.1.next + 1 = _
    omega
  · change Function.update st.2 i (Function.update (st.2 i) k st.1.next) j l = _
    by_cases row : j = i
    · subst row
      rw [Function.update_self]
      by_cases here : l = k
      · rw [here, Function.update_self, next]
      · rw [Function.update_of_ne here]
        exact address j l below (by omega)
    · rw [Function.update_of_ne row]
      exact address j l below (by omega)
  · exact (Function.update_of_ne (by omega) _ _).trans (old x before)
  · change x < st.1.next + 1 at before
    by_cases here : x = st.1.next
    · rw [here]
      exact Function.update_self _ _ _
    · exact (Function.update_of_ne here _ _).trans (new x after (by omega))

/-- After the allocating loop all results are infinite. -/
theorem progress_allocate (group : SimpleGroup p) (multiple : ℕ → (group.curve c).Point) (TEST_TIMES : ℕ) (h₀ : Heap p)
    (base : a < h₀.next) :
    Progress group (h₀.m a) a TEST_TIMES (allocate TEST_TIMES h₀).2 multiple (Upto 0 0) (allocate TEST_TIMES h₀).1 := by
  have allocated : Allocated h₀ TEST_TIMES 0 (allocate TEST_TIMES h₀) := by
    apply Loops.foldl_range_induction (P := fun i st => Allocated h₀ i 0 st)
    · exact ⟨rfl, fun j l _ earlier => by omega, fun _ _ => rfl,
        fun x after (before : x < h₀.next) => by omega⟩
    · intro i _ st allocated
      have row := Loops.foldl_range_induction (P := fun k st => Allocated h₀ i k st) (n := 6) allocated
        fun k _ st allocated => allocated.turn
      refine ⟨row.next, fun j l below earlier => ?_, row.old, row.new⟩
      exact row.address j l below (by omega)
  obtain ⟨next, address, old, new⟩ := allocated
  have at_address {i k : ℕ} (inside : i < TEST_TIMES) (below : k < 6) :
      (allocate TEST_TIMES h₀).2 i k = h₀.next + 6 * i + k := address i k below (.inl inside)
  refine ⟨⟨by omega, fun i inside k below => ?_, fun i inside k below => ?_,
    fun i inside k below j inside' l below' same => ?_⟩,
    old a base, fun i _ k _ done => ?_, fun i inside k below _ => ?_⟩
  · rw [at_address inside below]
    omega
  · rw [at_address inside below]
    omega
  · rw [at_address inside below, at_address inside' below'] at same
    omega
  · exact absurd done (by unfold Upto; omega)
  · have address := at_address inside below
    rw [new _ (by omega) (by omega)]
    exact represents_zero 0 0

/-- An evaluator writes its result and the point it allocates. -/
theorem wrote_call {evaluate : Points (ZMod p) → ℕ → Points (ZMod p)} {target : ℕ}
    (result : group.Represents (evaluate h.m h.next target) Q)
    (others : ∀ i, i ≠ target → i ≠ h.next → evaluate h.m h.next i = h.m i) :
    Wrote group h (h.call evaluate) target Q :=
  ⟨result, fun i before other => others i other before.ne, Nat.le_succ _⟩

/-- The evaluator of a stored chain. -/
theorem Progress.wrote_DBC (progress : Progress group point a TEST_TIMES r multiple done h)
    (represents : group.Represents point P) {chain : List Chain} (staircase : IsStaircase chain)
    {DBC_store : ℕ → ℕ → ℤ × ℕ × ℕ} {DBC_len : ℕ → ℕ} {min_index : ℕ}
    (stored : (List.range (DBC_len min_index)).map (DBC_store min_index) = chain.map row) (proper : Proper P chain) {i k : ℕ}
    (inside : i < TEST_TIMES) (below : k < 6) :
    Wrote group h
      (h.call fun m invert_a => OnPoints.DBC_POINT_mul group DBC_store DBC_len m invert_a (r i k) a min_index)
      (r i k) (value chain • P) := by
  have there : group.Represents (h.m a) P := by rwa [progress.base]
  obtain ⟨result, others⟩ := OnPoints.DBC_POINT_mul_result staircase stored there
    (progress.placed.apart i inside k below).symm
    progress.placed.base.ne' (progress.placed.room i inside k below).ne' fun _ => proper
  exact wrote_call result others

end Points

/-! ## The searches -/

section Searches

variable {INTS n : ℕ}

/-- The returned slot as the evaluator reads it. -/
theorem map_rows {S : Layout} {slots : Slots} {slot : ℕ} {chain : List Chain} (holds : S.Holds slots slot (chain.map row)) :
    (List.range (len slots slot)).map (rows S slots slot) = chain.map row := by
  have length : len slots slot = (chain.map row).length := by rw [len, holds.len, Int.toNat_natCast]
  refine List.ext_getElem (by rw [List.length_map, List.length_range, length]) fun y inside inside' => ?_
  have stored := holds.stored y _ (List.getElem?_eq_getElem inside')
  simp only [Layout.readRow, Prod.mk.injEq] at stored
  rw [List.getElem_map, List.getElem_range, rows, stored.1, stored.2.1, stored.2.2, Int.toNat_natCast, Int.toNat_natCast]

/-- A chain of `n` that the evaluators accept for a point of prime order above `n`. -/
def Sound (n : ℕ) (rows : List (ℤ × ℕ × ℕ)) : Prop :=
  ∃ chain : List Chain, rows = chain.map row ∧ IsStaircase chain ∧ value chain = n ∧
    ∀ earlier x later, chain = earlier ++ x :: later → earlier ≠ [] → x.tpl ≠ 0 →
      ∃ v b t, value earlier = v * pow23 b t ∧ 0 < v ∧ v ≤ n

/-- What `getOptimalDBC` stores. -/
theorem sound_getOptimalDBC {m : Macros} {pow23_all : ℕ → ℕ → MyBigInt m.INTS} {n : MyBigInt m.INTS} {s : State}
    {log2B log3B : ℕ} (tables : Exact pow23_all) (input : Input m n) (logs : Logs n.toNat log2B log3B)
    (reachable : Reachable m pow23_all s) (kept : NoLostCarry n.mul2) :
    Sound n.toNat (getOptimalDBC m pow23_all log2B log3B n s).chain := by
  have exactly : n.mul2.mul3.toNat = 6 * n.toNat := by
    rw [toNat_mul3 n.mul2 kept input.room.triple, input.toNat_mul2]
    omega
  obtain ⟨chain, strict, sum, stored, -⟩ := getOptimalDBC_spec tables input logs reachable.ready exactly
  have staircase := (isDoubleBaseChain_of_isChain input.positive strict sum).staircase.1
  have positive : 0 < value chain := by
    have := input.positive
    omega
  refine ⟨chain, stored, staircase, sum, fun earlier x later split nonempty _ => ?_⟩
  obtain ⟨v, b, t, initial, above, below⟩ := isChain_initial strict staircase split nonempty
  exact ⟨v, b, t, initial, above, sum ▸ below positive⟩

variable {pow23_all : ℕ → ℕ → MyBigInt INTS} {n : MyBigInt INTS} {b fuel window : ℕ}

/-- What a greedy search stores that lends nothing falsely. -/
theorem sound_chainOf (size : INTS ∈ [5, 9, 13, 17]) (deep : 4 ≤ window) (tables : Exact pow23_all)
    (positive : 0 < n.toNat) (top : n.toNat < 2 ^ (32 * (INTS - 1)))
    (equal : (Bounds.exact INTS).LBound n b = (Bounds.exact INTS).RBound n b) (nonneg : 0 ≤ (Bounds.exact INTS).RBound n b)
    (clean : Greedy.Clean NoFalseBorrow window MyBigInt.sub pow23_all (initial n b)) (enough : 32 * INTS ≤ fuel) :
    ∃ rows, chainOf (.exact INTS) (.exact INTS) pow23_all fuel window n b = some rows ∧
      (cpu INTS).cost rows < 2 ^ 20 * (cpu INTS).ADD_COST ∧ Sound n.toNat rows := by
  obtain ⟨y, run, finished, ends, low⟩ := chainOf_clean size deep tables positive top equal nonneg clean enough
  have power : 2 ^ (initial n b).a * 3 ^ b ≤ 3 * n.toNat := Gpuec.pow_rBound_le positive nonneg
  have fits := Greedy.start_fits top power
  have small := clean.small toNat_sub tables (by omega) fits power run
  have balanced := (Greedy.Balanced.start fits).run toNat_sub tables (clean.run run)
  have chain := balanced.chain positive finished
  obtain ⟨c, stored⟩ := chain.exists_chain
  rw [stored] at chain
  obtain ⟨staircase, sum⟩ := chain.staircase
  refine ⟨y.stored, ends, low, c, stored, staircase, sum, fun earlier x later split nonempty triples => ?_⟩
  obtain ⟨v, b, t, initial, above, below⟩ := small.initial_chain stored staircase split nonempty triples
  exact ⟨v, b, t, initial, above, below.le⟩

variable {coef : Option ℤ} {bs : List ℕ} {slots : Slots}

/-- The candidates of a call none of whose searches lends falsely. -/
theorem candidates_sound (size : INTS ∈ [5, 9, 13, 17]) (deep : 4 ≤ window) (tables : Exact pow23_all)
    (positive : 0 < n.toNat) (top : n.toNat < 2 ^ (32 * (INTS - 1))) (enough : 32 * INTS ≤ fuel)
    (opens : Opens (.exact INTS) n bs) (clean : ∀ b ∈ accepted (.exact INTS) coef n bs 0,
      Greedy.Clean NoFalseBorrow window MyBigInt.sub pow23_all (initial n b)) :
    ∃ chains, candidates (.exact INTS) (.exact INTS) pow23_all fuel window coef n bs 0 = some chains ∧ chains ≠ [] ∧
      ∀ rows ∈ chains, (cpu INTS).cost rows < 2 ^ 20 * (cpu INTS).ADD_COST ∧ Sound n.toNat rows := by
  have found : ∀ b ∈ accepted (.exact INTS) coef n bs 0,
      ∃ rows, chainOf (.exact INTS) (.exact INTS) pow23_all fuel window n b = some rows ∧
        (cpu INTS).cost rows < 2 ^ 20 * (cpu INTS).ADD_COST ∧ Sound n.toNat rows := by
    intro b member
    obtain ⟨equal, nonneg⟩ := accepted_spec member
    exact sound_chainOf size deep tables positive top equal nonneg (clean b member) enough
  obtain ⟨chains, produced, count⟩ := Loops.exists_mapM fun b member => (found b member).imp fun rows ends => ends.1
  refine ⟨chains, produced, ?_, fun rows member => ?_⟩
  · rintro rfl
    exact (accepted_ne_nil_iff _ _ _).mpr opens (List.length_eq_zero_iff.mp count.symm)
  · obtain ⟨b, inside, ends⟩ := Loops.exists_of_mem_mapM produced rows member
    obtain ⟨rows', ends', good⟩ := found b inside
    rwa [Option.some.inj (ends.symm.trans ends')]

/-- A search returns a slot with a chain of `n` and leaves what the next call allows for. -/
def Finds (search : Slots → Option (ℕ × Slots)) (INTS n : ℕ) : Prop :=
  ∀ slots, (cpu INTS).Left slots → ∃ slot after rows, search slots = some (slot, after) ∧ (cpu INTS).Left after ∧
    (cpu INTS).Holds after slot rows ∧ Sound n rows

private theorem left_foldl {chains : List (List (ℤ × ℕ × ℕ))} (left : (cpu INTS).Left slots)
    (good : ∀ rows ∈ chains, (cpu INTS).Good rows) : (cpu INTS).Left (chains.foldl (cpu INTS).record (0, slots.opened)).2 :=
  have opened : (cpu INTS).Left slots.opened := ⟨left.dbl, left.tpl, left.cheap⟩
  Layout.Left.foldl_record (cpu INTS) opened chains good 0

/-- From whatever a search leaves, it returns a cheapest of the chains and leaves what the next call allows for. -/
def Yields (search : Slots → Option (ℕ × Slots)) (INTS : ℕ) (chains : List (List (ℤ × ℕ × ℕ))) : Prop :=
  ∀ slots, (cpu INTS).Left slots → ∃ slot after, search slots = some (slot, after) ∧ (cpu INTS).Left after ∧
    (cpu INTS).Returns chains slot after

theorem Yields.finds {search : Slots → Option (ℕ × Slots)} {chains : List (List (ℤ × ℕ × ℕ))} {k : ℕ}
    (yields : Yields search INTS chains) (sound : ∀ rows ∈ chains, Sound k rows) : Finds search INTS k := by
  intro slots left
  obtain ⟨slot, after, returned, left', -, rows, member, holds, -⟩ := yields slots left
  exact ⟨slot, after, rows, returned, left', holds, sound rows member⟩

theorem yields_getEOSDBC (size : INTS ∈ [5, 9, 13, 17]) (tables : Exact pow23_all)
    (positive : 0 < n.toNat) (top : n.toNat < 2 ^ (32 * (INTS - 1))) (enough : 32 * INTS ≤ fuel)
    (opens : Opens (.exact INTS) n (List.range (MAX_3 INTS)))
    (clean : ∀ b ∈ accepted (.exact INTS) none n (List.range (MAX_3 INTS)) 0,
      Greedy.Clean NoFalseBorrow 4 MyBigInt.sub pow23_all (initial n b)) :
    ∃ chains, candidates (.exact INTS) (.exact INTS) pow23_all fuel 4 none n (List.range (MAX_3 INTS)) 0 = some chains ∧
      (∀ rows ∈ chains, Sound n.toNat rows) ∧
        Yields (getEOSDBC (.exact INTS) (.exact INTS) pow23_all fuel n) INTS chains := by
  obtain ⟨chains, produced, nonempty, sound⟩ := candidates_sound size le_rfl tables positive top enough opens clean
  have cheap := fun rows member => (sound rows member).1
  refine ⟨chains, produced, fun rows member => (sound rows member).2, fun slots left => ?_⟩
  obtain ⟨slot, after, ends⟩ := getEOSDBC_ends slots produced
  refine ⟨slot, after, ends, ?_, getEOSDBC_returns positive left produced nonempty cheap ends⟩
  rw [getEOSDBC, tryAll_eq, produced] at ends
  cases ends
  exact left_foldl left (candidates_good positive produced cheap)

theorem yields_getSubOptimalDBC (size : INTS ∈ [5, 9, 13, 17]) (tables : Exact pow23_all)
    (positive : 0 < n.toNat) (top : n.toNat < 2 ^ (32 * (INTS - 1))) (enough : 32 * INTS ≤ fuel) {dbc_coef : ℤ}
    (opens : Opens (.exact INTS) n bs) (clean : ∀ b ∈ accepted (.exact INTS) (some dbc_coef) n bs 0,
      Greedy.Clean NoFalseBorrow 6 MyBigInt.sub pow23_all (initial n b)) :
    ∃ chains, candidates (.exact INTS) (.exact INTS) pow23_all fuel 6 (some dbc_coef) n bs 0 = some chains ∧
      (∀ rows ∈ chains, Sound n.toNat rows) ∧
        Yields (getSubOptimalDBC (.exact INTS) (.exact INTS) pow23_all fuel bs n dbc_coef) INTS chains := by
  obtain ⟨chains, produced, nonempty, sound⟩ := candidates_sound size (by decide) tables positive top enough opens clean
  have cheap := fun rows member => (sound rows member).1
  refine ⟨chains, produced, fun rows member => (sound rows member).2, fun slots left => ?_⟩
  obtain ⟨slot, after, ends⟩ := getSubOptimalDBC_ends slots produced
  refine ⟨slot, after, ends, ?_, getSubOptimalDBC_returns positive left produced nonempty cheap ends⟩
  rw [getSubOptimalDBC, tryAll_eq, produced] at ends
  cases ends
  exact left_foldl left (candidates_good positive produced cheap)

end Searches

/-! ## The program -/

section Program

variable {p : ℕ} [Fact p.Prime]

/-- The order of the group is a prime above 3, and the generator has it. -/
structure Generated (c : Setting p) : Prop where
  prime : c.group.order.Prime
  large : 3 < c.group.order
  generator : ∃ G : (c.group.curve (c.group.decode c.group.b)).Point, c.group.Represents c.group.generator G ∧
    addOrderOf G = c.group.order

/-- What the multiplications with the chains of `getOptimalDBC` rely on besides: a width of the code and exact tables. -/
structure Tabled (c : Setting p) : Prop extends Generated c where
  size : c.macros.INTS ∈ [5, 9, 13, 17]
  tables : Exact c.pow23_all

/-- What the greedy searches rely on besides: bounds and comparisons that are exact although they are computed in
floating point, and enough turns. -/
structure Linked (c : Setting p) : Prop extends Tabled c where
  bounds : c.bounds = .exact c.macros.INTS
  floats : c.floats = .exact c.macros.INTS
  enough : 32 * c.macros.INTS ≤ c.fuel

/-- The scalars that `getOptimalDBC` handles: digits that fit the buffer, logarithms that come out as the floors, and no
lost carry. -/
structure Handled (c : Setting p) (w : String) : Prop where
  hex : IsHex w.toList
  short : w.toList.length ≤ 8 * c.macros.INTS
  input : Input c.macros (ofString c.macros.INTS w.toList)
  logs : Logs (ofString c.macros.INTS w.toList).toNat (c.log2B (ofString c.macros.INTS w.toList))
    (c.log3B (ofString c.macros.INTS w.toList))
  kept : NoLostCarry (ofString c.macros.INTS w.toList).mul2

/-- The scalars that all methods handle: those of them below the order that have a candidate for each greedy search, none
of which lends falsely. -/
structure Suitable (c : Setting p) (w : String) : Prop extends Handled c w where
  below : (ofString c.macros.INTS w.toList).toNat < c.group.order
  top : (ofString c.macros.INTS w.toList).toNat < 2 ^ (32 * (c.macros.INTS - 1))
  opensEOS : Opens (.exact c.macros.INTS) (ofString c.macros.INTS w.toList) (List.range (MAX_3 c.macros.INTS))
  cleanEOS : ∀ b ∈ accepted (.exact c.macros.INTS) none (ofString c.macros.INTS w.toList)
    (List.range (MAX_3 c.macros.INTS)) 0,
      Greedy.Clean NoFalseBorrow 4 MyBigInt.sub c.pow23_all (initial (ofString c.macros.INTS w.toList) b)
  opens : Opens (.exact c.macros.INTS) (ofString c.macros.INTS w.toList) c.b_try
  clean : ∀ b ∈ accepted (.exact c.macros.INTS) (some 1) (ofString c.macros.INTS w.toList) c.b_try 0,
    Greedy.Clean NoFalseBorrow 6 MyBigInt.sub c.pow23_all (initial (ofString c.macros.INTS w.toList) b)

variable {c : Setting p} {TEST_TIMES : ℕ} {hexwords : ℕ → String} {P : (c.group.curve (c.group.decode c.group.b)).Point}
  {point : EC_POINT (ZMod p)} {a : ℕ} {r : ℕ → ℕ → ℕ} {h : Heap p} {done : ℕ → ℕ → Prop}

/-- The multiples that the results should hold. -/
def product (c : Setting p) (hexwords : ℕ → String) (P : (c.group.curve (c.group.decode c.group.b)).Point) (i : ℕ) :
    (c.group.curve (c.group.decode c.group.b)).Point := (u c hexwords i).toNat • P

/-- The library reads the number of the digits that fit the buffer. -/
theorem Tabled.scalar (tabled : Tabled c) {w : String} (hex : IsHex w.toList)
    (short : w.toList.length ≤ 8 * c.macros.INTS) : BN_hex2bn w = number w.toList := by
  have size := tabled.size
  have covered : c.macros.INTS ≤ 17 := by
    simp only [List.mem_cons, List.not_mem_nil, or_false] at size
    omega
  have room : 8 * 17 ≤ maxWords := by decide
  exact BN_hex2bn_of_isHex hex (by omega)

theorem Suitable.scalar (tabled : Tabled c) {i : ℕ} (suitable : Suitable c (hexwords i)) :
    BN_hex2bn (hexwords i) = ((u c hexwords i).toNat : ℕ) := by
  rw [tabled.scalar suitable.hex suitable.short, u, toNat_ofString suitable.hex suitable.short]

/-- The cardinality kills a point of the order of the group. -/
theorem period_of_order {group : CurveGroup p} {c : ZMod p} {P : (group.curve c).Point}
    (order : addOrderOf P = group.order) :
    (group.order * group.cofactor) • P = 0 := by
  rw [mul_nsmul, ← order, addOrderOf_nsmul_eq_zero, nsmul_zero]

/-- A run on suitable scalars and a well-formed representation of a point of the order of the group. -/
structure Run (c : Setting p) (TEST_TIMES : ℕ) (hexwords : ℕ → String) (point : EC_POINT (ZMod p))
    (P : (c.group.curve (c.group.decode c.group.b)).Point) : Prop where
  linked : Linked c
  represents : c.group.Represents point P
  order : addOrderOf P = c.group.order
  words : ∀ i < TEST_TIMES, Suitable c (hexwords i)

/-- A sound chain, evaluated. -/
theorem Progress.wrote_sound (progress : Progress c.group.toSimpleGroup point a TEST_TIMES r (product c hexwords P) done h)
    (run : Run c TEST_TIMES hexwords point P) {i k : ℕ} (inside : i < TEST_TIMES) (below : k < 6)
    {rows : List (ℤ × ℕ × ℕ)} (sound : Sound (u c hexwords i).toNat rows) {DBC_store : ℕ → ℕ → ℤ × ℕ × ℕ}
    {DBC_len : ℕ → ℕ} {min_index : ℕ} (stored : (List.range (DBC_len min_index)).map (DBC_store min_index) = rows) :
    Wrote c.group.toSimpleGroup h
      (h.call fun m invert_a =>
        OnPoints.DBC_POINT_mul c.group.toSimpleGroup DBC_store DBC_len m invert_a (r i k) a min_index)
      (r i k) (product c hexwords P i) := by
  obtain ⟨chain, rfl, staircase, sum, initial⟩ := sound
  have proper : Proper P chain := by
    refine Proper.of_order run.linked.prime run.linked.large run.order fun earlier x later split nonempty triples => ?_
    obtain ⟨v, b, t, scaled, positive, limit⟩ := initial earlier x later split nonempty triples
    have small := (run.words i inside).below
    exact ⟨v, b, t, scaled, positive, lt_of_le_of_lt limit (by exact_mod_cast small)⟩
  rw [product, ← natCast_zsmul, ← sum]
  exact progress.wrote_DBC run.represents staircase stored proper inside below

namespace Run

theorem optimalLoop (run : Run c TEST_TIMES hexwords point P) {s : State} (reachable : Reachable c.macros c.pow23_all s)
    (progress : Progress c.group.toSimpleGroup point a TEST_TIMES r (product c hexwords P) (Upto 0 0) h) :
    ∃ s' h', optimalLoop c TEST_TIMES hexwords a r (s, h) = (s', h') ∧ Reachable c.macros c.pow23_all s' ∧
      Progress c.group.toSimpleGroup point a TEST_TIMES r (product c hexwords P) (Upto 1 0) h' := by
  refine ⟨_, _, rfl, (Loops.foldl_range_induction (P := fun i (st : State × Heap p) => Reachable c.macros c.pow23_all st.1 ∧
    Progress c.group.toSimpleGroup point a TEST_TIMES r (product c hexwords P) (Upto 0 i) st.2)
    ⟨reachable, progress⟩ ?_).imp_right Progress.next⟩
  rintro i inside ⟨s, h⟩ ⟨reachable, progress⟩
  have suitable := run.words i inside
  have sound := sound_getOptimalDBC run.linked.tables suitable.input suitable.logs reachable suitable.kept
  exact ⟨.call _ _ _ _ reachable, progress.turn inside (by decide)
    (progress.wrote_sound run inside (by decide) sound rfl)⟩

/-- The turns of a loop, which write result `k`, whether it is done before or not. -/
theorem greedyTurns (run : Run c TEST_TIMES hexwords point P)
    (search : MyBigInt c.macros.INTS → Slots → Option (ℕ × Slots))
    (finds : ∀ i < TEST_TIMES, Finds (search (u c hexwords i)) c.macros.INTS (u c hexwords i).toNat) {slots : Slots}
    (left : (cpu c.macros.INTS).Left slots) {k : ℕ} (below : k < 6) {steps : ℕ → ℕ → ℕ → Prop}
    (turns : ∀ i j l, steps i j l ∨ j = i ∧ l = k ↔ steps (i + 1) j l)
    (progress : Progress c.group.toSimpleGroup point a TEST_TIMES r (product c hexwords P) (steps 0) h) :
    ∃ st, MSMTest.greedyLoop c TEST_TIMES hexwords a r search k (slots, h) = some st ∧ (cpu c.macros.INTS).Left st.1 ∧
      Progress c.group.toSimpleGroup point a TEST_TIMES r (product c hexwords P) (steps TEST_TIMES) st.2 := by
  refine Loops.exists_foldlM_range (P := fun i (st : Slots × Heap p) => (cpu c.macros.INTS).Left st.1 ∧
    Progress c.group.toSimpleGroup point a TEST_TIMES r (product c hexwords P) (steps i) st.2)
    ⟨left, progress⟩ fun i inside st holds => ?_
  obtain ⟨slot, after, rows, returned, left', found, sound⟩ := finds i inside st.1 holds.1
  obtain ⟨chain, stored, -⟩ := id sound
  refine ⟨_, by rw [returned]; rfl, left', (holds.2.wrote inside below ?_).congr fun j _ l _ => turns i j l⟩
  refine holds.2.wrote_sound run inside below sound ?_
  rw [stored] at found ⊢
  exact map_rows found

theorem greedyLoop (run : Run c TEST_TIMES hexwords point P)
    (search : MyBigInt c.macros.INTS → Slots → Option (ℕ × Slots))
    (finds : ∀ i < TEST_TIMES, Finds (search (u c hexwords i)) c.macros.INTS (u c hexwords i).toNat) {slots : Slots}
    (left : (cpu c.macros.INTS).Left slots) {k : ℕ} (below : k < 6)
    (progress : Progress c.group.toSimpleGroup point a TEST_TIMES r (product c hexwords P) (Upto k 0) h) :
    ∃ st, MSMTest.greedyLoop c TEST_TIMES hexwords a r search k (slots, h) = some st ∧ (cpu c.macros.INTS).Left st.1 ∧
      Progress c.group.toSimpleGroup point a TEST_TIMES r (product c hexwords P) (Upto (k + 1) 0) st.2 := by
  obtain ⟨st, ends, left', progress'⟩ := run.greedyTurns search finds left below (upto_turn k) progress
  exact ⟨st, ends, left', progress'.next⟩

theorem binaryLoop (run : Run c TEST_TIMES hexwords point P)
    (progress : Progress c.group.toSimpleGroup point a TEST_TIMES r (product c hexwords P) (Upto 3 0) h) :
    Progress c.group.toSimpleGroup point a TEST_TIMES r (product c hexwords P) (Upto 4 0)
      (binaryLoop c TEST_TIMES hexwords a r h) := by
  refine (Loops.foldl_range_induction (P := fun i h =>
    Progress c.group.toSimpleGroup point a TEST_TIMES r (product c hexwords P) (Upto 3 i) h) progress ?_).next
  intro i inside h progress
  refine progress.turn inside (by decide) ?_
  have there : c.group.Represents (h.m a) P := by
    rw [progress.base]
    exact run.represents
  have infinite := progress.fresh i inside 3 (by decide) (by unfold Upto; omega)
  obtain ⟨result, others⟩ := binary_POINT_mul_result infinite there progress.placed.base.ne'
    (progress.placed.room i inside 3 (by decide)).ne' (hexwords i)
  rw [(run.words i inside).scalar run.linked.toTabled, Int.natAbs_natCast, zero_add] at result
  exact wrote_call result others

/-- A turn of the signed-digit loop. -/
theorem nafTurn (run : Run c TEST_TIMES hexwords point P) {i : ℕ} (inside : i < TEST_TIMES)
    (progress : Progress c.group.toSimpleGroup point a TEST_TIMES r (product c hexwords P) (Upto 4 i) h) :
    ∃ after, OnPoints.NAF_POINT_mul c.group.toSimpleGroup h.m h.next (r i 4) a (hexwords i) = some after ∧
      Progress c.group.toSimpleGroup point a TEST_TIMES r (product c hexwords P) (Upto 4 (i + 1)) ⟨after.1, h.next + 1⟩ := by
  have there : c.group.Represents (h.m a) P := by
    rw [progress.base]
    exact run.represents
  have suitable := run.words i inside
  obtain ⟨after, ends, result, others⟩ := NAF_POINT_mul_result there
    (progress.placed.apart i inside 4 (by decide)).symm progress.placed.base.ne'
    (progress.placed.room i inside 4 (by decide)).ne' (suitable.scalar run.linked.toTabled)
    (Nat.one_le_iff_ne_zero.mp suitable.input.positive)
  exact ⟨after, ends, progress.turn inside (by decide)
    ⟨result, fun i before other => others i other before.ne, Nat.le_succ _⟩⟩

theorem nafLoop (run : Run c TEST_TIMES hexwords point P)
    (progress : Progress c.group.toSimpleGroup point a TEST_TIMES r (product c hexwords P) (Upto 4 0) h) :
    ∃ h', nafLoop c TEST_TIMES hexwords a r h = some h' ∧
      Progress c.group.toSimpleGroup point a TEST_TIMES r (product c hexwords P) (Upto 5 0) h' := by
  have run : ∃ h', MSMTest.nafLoop c TEST_TIMES hexwords a r h = some h' ∧
      Progress c.group.toSimpleGroup point a TEST_TIMES r (product c hexwords P) (Upto 4 TEST_TIMES) h' :=
    Loops.exists_foldlM_range
      (P := fun i h => Progress c.group.toSimpleGroup point a TEST_TIMES r (product c hexwords P) (Upto 4 i) h) progress
      fun i inside h progress => by
        obtain ⟨after, ends, progress'⟩ := run.nafTurn inside progress
        exact ⟨_, by rw [ends]; rfl, progress'⟩
  obtain ⟨h', ends, progress'⟩ := run
  exact ⟨h', ends, progress'.next⟩

theorem directLoop (run : Run c TEST_TIMES hexwords point P)
    (progress : Progress c.group.toSimpleGroup point a TEST_TIMES r (product c hexwords P) (Upto 5 0) h) :
    ∃ h', directLoop c TEST_TIMES hexwords a r h = some h' ∧
      Progress c.group.toSimpleGroup point a TEST_TIMES r (product c hexwords P) (Upto 6 0) h' := by
  obtain ⟨h', ends, progress'⟩ := Loops.exists_foldlM_range (n := TEST_TIMES) (s := h)
    (P := fun i h => Progress c.group.toSimpleGroup point a TEST_TIMES r (product c hexwords P) (Upto 5 i) h)
    (f := fun h i => do
      let m ← EC_POINT_mul c.group (c.blinds i) h.m (r i 5) (BN_hex2bn (hexwords i)) (some a)
      return ⟨m, h.next⟩) progress fun i inside h progress => by
      have there : c.group.Represents (operand c.group h.m (some a)) P := by
        change c.group.Represents (h.m a) P
        rw [progress.base]
        exact run.represents
      obtain ⟨m, ends, multiplied⟩ := mul_leaves_of_cardinality (c.blinds i) (r i 5) (BN_hex2bn (hexwords i)) there
        (fun none => absurd none (Option.some_ne_none a)) (period_of_order run.order)
      rw [(run.words i inside).scalar run.linked.toTabled, natCast_zsmul] at multiplied
      exact ⟨⟨m, h.next⟩, by rw [ends]; rfl, progress.turn inside (by decide)
        ⟨multiplied.stored, fun i _ other => multiplied.others i other, le_rfl⟩⟩
  exact ⟨h', ends, progress'.next⟩

end Run

/-- Results that hold the same multiples compare equal. -/
theorem compareLoop_of_done
    (progress : Progress c.group.toSimpleGroup point a TEST_TIMES r (product c hexwords P) (Upto 6 0) h) :
    compareLoop c TEST_TIMES r h = 0 := by
  refine Loops.foldl_range_induction (P := fun _ error => error = 0) rfl fun i inside error none => ?_
  refine Loops.foldl_range_induction (P := fun _ error => error = 0) none fun k below error none => ?_
  have left := progress.results i inside k (by omega) (.inl (by omega))
  have right := progress.results i inside 5 (by decide) (.inl (by decide))
  rw [(cmp_spec left right).1 rfl, if_neg (by decide), none]

/-- Chain 1 is untouched by `getOptimalDBC`. -/
theorem left_arrays (INTS : ℕ) (s : State) : (cpu INTS).Left (arrays INTS s) := by
  have untouched (z : ℕ) : (arrays INTS s).DBC_store ((cpu INTS).index 1 0 z) = 0 := by
    have outside : ¬ (cpu INTS).index 1 0 z < 3 * (32 * INTS) := by
      simp only [Layout.index, cpu]
      omega
    rw [arrays]
    exact if_neg outside
  refine ⟨(untouched 1).ge, (untouched 2).ge, ?_⟩
  rw [untouched, untouched]
  norm_num [cpu]

/-- The key is the multiple of the generator by the private key, and of the same order. -/
theorem generate_key_spec (generated : Generated c) {G : (c.group.curve (c.group.decode c.group.b)).Point}
    (stored : c.group.Represents c.group.generator G) (order : addOrderOf G = c.group.order) (h : Heap p) :
    ∃ h' a, ec_generate_key c.group c.keyBlinds c.priv_key h = some (h', a) ∧ a < h'.next ∧
      c.group.Represents (h'.m a) (c.priv_key • G) ∧ addOrderOf (c.priv_key • G) = c.group.order := by
  have finite : G ≠ 0 := by
    rintro rfl
    have large := generated.large
    rw [← order, addOrderOf_zero] at large
    omega
  have copied : c.group.Represents (operand c.group (EC_POINT_new h).1.m none) G := stored
  obtain ⟨m, ends, result⟩ := mul_leaves_of_cardinality c.keyBlinds (EC_POINT_new h).2 c.priv_key copied (fun _ => finite)
    (period_of_order order)
  have coprime : (addOrderOf G).Coprime c.priv_key := by
    rw [order]
    exact generated.prime.coprime_iff_not_dvd.mpr (Nat.not_dvd_of_pos_of_lt c.positive c.inside)
  refine ⟨_, _, by rw [ec_generate_key]; simp only [ends, Option.bind_eq_bind, Option.bind_some]; rfl, Nat.lt_succ_self _,
    ?_, by rw [coprime.addOrderOf_nsmul, order]⟩
  rw [← natCast_zsmul]
  exact result.stored

/-- On suitable scalars the program ends and counts no error, whatever it draws. -/
theorem main_counts_none (linked : Linked c) (words : ∀ i < TEST_TIMES, Suitable c (hexwords i)) :
    main c TEST_TIMES hexwords = some 0 := by
  obtain ⟨G, generator, prime⟩ := linked.generator
  obtain ⟨h, a, generated, stored, represents, order⟩ :=
    generate_key_spec linked.toGenerated generator prime ⟨fun _ => ⟨0, 0, 0, false⟩, 0⟩
  generalize c.priv_key • G = P at represents order
  have run : Run c TEST_TIMES hexwords (h.m a) P := ⟨linked, represents, order, words⟩
  obtain ⟨⟨-, size, tables⟩, bounds, floats, enough⟩ := id linked
  have searchEOS : ∀ i < TEST_TIMES, Finds (getEOSDBC c.bounds c.floats c.pow23_all c.fuel (u c hexwords i)) c.macros.INTS
      (u c hexwords i).toNat := by
    intro i inside
    have suitable := words i inside
    rw [bounds, floats]
    obtain ⟨chains, -, sound, yields⟩ := yields_getEOSDBC size tables suitable.input.positive suitable.top enough
      suitable.opensEOS suitable.cleanEOS
    exact yields.finds sound
  have search : ∀ i < TEST_TIMES, Finds (getSubOptimalDBC c.bounds c.floats c.pow23_all c.fuel c.b_try (u c hexwords i) 1)
      c.macros.INTS (u c hexwords i).toNat := by
    intro i inside
    have suitable := words i inside
    rw [bounds, floats]
    obtain ⟨chains, -, sound, yields⟩ := yields_getSubOptimalDBC size tables suitable.input.positive suitable.top enough
      suitable.opens suitable.clean
    exact yields.finds sound
  obtain ⟨s, h₀, optimal, -, progress₀⟩ := run.optimalLoop .init
    (progress_allocate c.group.toSimpleGroup (product c hexwords P) TEST_TIMES h stored)
  obtain ⟨⟨slots₁, h₁⟩, eos, left₁, progress₁⟩ := run.greedyLoop _ searchEOS (left_arrays _ s) (by decide) progress₀
  obtain ⟨⟨slots₂, h₂⟩, sub, -, progress₂⟩ := run.greedyLoop
    (fun u slots => getSubOptimalDBC c.bounds c.floats c.pow23_all c.fuel c.b_try u 1 slots) search left₁ (by decide)
    progress₁
  obtain ⟨h₃, naf, progress₃⟩ := run.nafLoop (run.binaryLoop progress₂)
  obtain ⟨h₄, direct, progress₄⟩ := run.directLoop progress₃
  rw [main]
  simp only [generated, optimal, eos, sub, naf, direct, Option.bind_eq_bind, Option.bind_some]
  exact congrArg some (compareLoop_of_done progress₄)

end Program

/-! ## One scalar on `secp256k1` -/

section BasePoint

open Gpuec

/-- The program as it is built for `secp256k1`, with the private key one and no blinding. -/
def setting : Setting modP.Pa.toNat where
  macros := .secp256k1
  pow23_all := powTable 9
  log2B u := Nat.log 2 (2 * u.toNat)
  log3B u := Nat.log 3 (2 * u.toNat)
  bounds := .exact 9
  floats := .exact 9
  fuel := 288
  b_try := b_try
  group := secp256k1
  priv_key := 1
  positive := Nat.one_pos
  inside := by decide +kernel
  keyBlinds := ⟨1, 1⟩
  blinds _ := ⟨1, 1⟩

theorem linked_setting : Linked setting where
  prime := (Fact.out : modN.Pa.toNat.Prime)
  large := by decide +kernel
  generator := represents_generator
  size := by decide
  tables := powTable_exact 9
  bounds := rfl
  floats := rfl
  enough := le_rfl

/-- The digits of `3 ^ 72`. -/
def powerWord : String := "456bc60e76c111e679735c929f6a1"

-- The kernel compares the letters with the literal; it does not read them back from its bytes.
private theorem powerWord_toList : powerWord.toList = spell (3 ^ 72) := by
  have letters : powerWord = .ofList (spell (3 ^ 72)) := rfl
  rw [letters, String.toList_ofList]

theorem powerWord_number : ofString 9 powerWord.toList = .ofNat 9 (3 ^ 72) := by
  rw [powerWord_toList]
  decide +kernel

/-- No search of `getEOSDBC` lends falsely. -/
private theorem clean_powerWord : ∀ b ∈ accepted (.exact 9) none (.ofNat 9 (3 ^ 72)) (List.range (MAX_3 9)) 0,
    Greedy.Clean NoFalseBorrow 4 MyBigInt.sub (powTable 9) (initial (.ofNat 9 (3 ^ 72)) b) := by
  have passed : (accepted (.exact 9) none (.ofNat 9 (3 ^ 72)) (List.range (MAX_3 9)) 0).all (fun b =>
      Greedy.survey NoFalseBorrow 4 MyBigInt.sub (powTable 9) 40 (initial (.ofNat 9 (3 ^ 72)) b)) = true := by
    decide +kernel
  exact fun b member => Greedy.clean_of_survey (List.all_eq_true.mp passed b member)

/-- No search of `getSubOptimalDBC` with a limit up to 20 lends falsely. -/
theorem clean20_powerWord : ∀ b ∈ accepted (.exact 9) (some 20) (.ofNat 9 (3 ^ 72)) b_try 0,
    Greedy.Clean NoFalseBorrow 6 MyBigInt.sub (powTable 9) (initial (.ofNat 9 (3 ^ 72)) b) := by
  have passed : (accepted (.exact 9) (some 20) (.ofNat 9 (3 ^ 72)) b_try 0).all (fun b =>
      Greedy.survey NoFalseBorrow 6 MyBigInt.sub (powTable 9) 40 (initial (.ofNat 9 (3 ^ 72)) b)) = true := by
    decide +kernel
  exact fun b member => Greedy.clean_of_survey (List.all_eq_true.mp passed b member)

theorem suitable_powerWord : Suitable setting powerWord := by
  have number : ofString setting.macros.INTS powerWord.toList = .ofNat 9 (3 ^ 72) := powerWord_number
  have hex : IsHex powerWord.toList := powerWord_toList ▸ spell_isHex _
  have short : powerWord.toList.length ≤ 8 * 9 := by
    rw [powerWord_toList]
    decide +kernel
  refine ⟨⟨hex, short, ?_, ⟨rfl, rfl⟩, ?_⟩, ?_, ?_, ?_, ?_, ?_, ?_⟩ <;> rw [number]
  · exact ⟨by decide +kernel, by decide +kernel⟩
  · decide +kernel
  · decide +kernel
  · decide +kernel
  · exact (accepted_ne_nil_iff none _ 0).mp (by decide +kernel)
  · exact clean_powerWord
  · exact (accepted_ne_nil_iff (some 1) b_try 0).mp (by decide +kernel)
  · exact fun b member => clean20_powerWord b ((accepted_grows (by decide) _ _ _).subset member)

theorem main_counts_none_powerWord : main setting 1 (fun _ => powerWord) = some 0 :=
  main_counts_none linked_setting fun _ _ => suitable_powerWord

end BasePoint

end MSMTest

end DbcSnark.DBCTest
