import DbcSnark.Model.Gpuec.MultiNormalise
import DbcSnark.Proofs.Gpuec.MonMult
import DbcSnark.Proofs.Gpuec.Normalise
import DbcSnark.ToMathlib.Loops

/-! # Normalising an array of points never succeeds

Lane 0 stores `z` of the first point in every launch, and no other lane nor any later round writes there. What it stores
is the one of another field, which `d_mon2normal_J` does not take to one.
-/

namespace DbcSnark.Gpuec

theorem le_of_mem_strided {n step fuel i k : ℕ} (member : k ∈ strided n step fuel i) : i ≤ k := by
  induction fuel generalizing i with
  | zero => exact absurd member List.not_mem_nil
  | succ fuel ih =>
    rw [strided] at member
    split at member
    · rcases List.mem_cons.mp member with rfl | later
      · exact le_rfl
      · exact (Nat.le_add_right i step).trans (ih later)
    · exact absurd member List.not_mem_nil

/-- The first index is visited and all others lie a step behind it. -/
theorem strided_eq_cons {n step fuel i : ℕ} (inside : i < n) (some : 0 < fuel) :
    ∃ later, strided n step fuel i = i :: later ∧ ∀ k ∈ later, i + step ≤ k := by
  obtain ⟨fuel, rfl⟩ := Nat.exists_eq_succ_of_ne_zero some.ne'
  exact ⟨_, if_pos inside, fun k member => le_of_mem_strided member⟩

namespace Ram

variable {A n i k threadnum : ℕ} {m m' z : Ram}

/-- `z` of the first point when lane 0 is done. -/
def strayOne : Big := modP.monmult ⟨0x0000000000000001, 0x0000000100000000, 0x0000000000000000, 0x0000000100000000⟩ dc_ONE

/-- The lines for a point write nothing in front of the point. -/
theorem normaliseOne_before {j c : ℕ} (before : c < A + 12 * (i + j)) : normaliseOne A i z m j c = m c := by
  simp (disch := omega) only [normaliseOne, d_mon2normal_J, putBig_of_outside, putWords_of_outside]

theorem normaliseOne_z (j : ℕ) : (normaliseOne A i z m j).big (A + 12 * (i + j) + 8) = strayOne := by
  have words (m : Ram) (pt : ℕ) : (m.putWords (pt + 8) Wide.mon_ONE).big (pt + 8) =
      ⟨0x0000000000000001, 0x0000000100000000, 0x0000000000000000, 0x0000000100000000⟩ := by
    simp (disch := omega) only [Wide.mon_ONE, putWords, put, big, Function.update_of_ne, Function.update_self]
  simp (disch := omega) only [normaliseOne, d_mon2normal_J, big_putBig, big_putBig_of_apart, words]
  rfl

private theorem fold_before {c : ℕ} (before : c < A + 12 * i) (js : List ℕ) :
    js.foldl (normaliseOne A i z) m c = m c := by
  induction js generalizing m with
  | nil => rfl
  | cons j js ih => rw [List.foldl_cons, ih, normaliseOne_before (by omega)]

/-- A group behind the first point does not touch it. -/
theorem normaliseGroup_before (behind : 0 < i) (ends : normaliseGroup A m i = some m') : m'.big (A + 8) = m.big (A + 8) := by
  rw [normaliseGroup] at ends
  obtain ⟨z, -, ends⟩ := Option.bind_eq_some_iff.mp ends
  cases ends
  exact big_congr fun c _ _ => fold_before (by omega) _

/-- The group of the first point stores its `z`. -/
theorem normaliseGroup_first (ends : normaliseGroup A m 0 = some m') : m'.big (A + 8) = strayOne := by
  rw [normaliseGroup] at ends
  obtain ⟨z, -, ends⟩ := Option.bind_eq_some_iff.mp ends
  cases ends
  have later (js : List ℕ) (m : Ram) : ((js.map (· + 1)).foldl (normaliseOne A 0 z) m).big (A + 8) = m.big (A + 8) := by
    induction js generalizing m with
    | nil => rfl
    | cons j js ih =>
      rw [List.map_cons, List.foldl_cons, ih]
      exact big_congr fun c _ _ => normaliseOne_before (by omega)
  rw [show List.range PARAL = 0 :: (List.range 63).map (· + 1) from rfl, List.foldl_cons, later]
  exact normaliseOne_z 0

theorem normaliseLane_first (some : 0 < n) (ends : normaliseLane threadnum A n m 0 = .some m') (lanes : 0 < threadnum) :
    m'.big (A + 8) = strayOne := by
  rw [normaliseLane, Nat.zero_mul] at ends
  have step : 0 < threadnum * PARAL := Nat.mul_pos lanes (by decide)
  obtain ⟨later, visits, behind⟩ := @strided_eq_cons n (threadnum * PARAL) n 0 some some
  rw [visits, List.foldlM_cons] at ends
  obtain ⟨m₁, first, rest⟩ := Option.bind_eq_some_iff.mp ends
  refine Loops.foldlM_keeps (P := fun m => m.big (A + 8) = strayOne) (fun i member s s' turn holds => ?_) rest
    (normaliseGroup_first first)
  have := behind i member
  rw [normaliseGroup_before (by omega) turn, holds]

theorem normaliseLane_other {mytid : ℕ} (other : mytid ≠ 0) (ends : normaliseLane threadnum A n m mytid = some m')
    (holds : m.big (A + 8) = strayOne) : m'.big (A + 8) = strayOne := by
  refine Loops.foldlM_keeps (P := fun m => m.big (A + 8) = strayOne) (fun i member s s' turn holds => ?_) ends holds
  have inside := le_of_mem_strided member
  have : 0 < mytid * PARAL := Nat.mul_pos (Nat.pos_of_ne_zero other) (by decide)
  rw [normaliseGroup_before (by omega) turn, holds]

/-- Every launch that ends leaves that number in `z` of the first point. -/
theorem d_multi_normlize_J_first {lanes : List ℕ} (all : lanes.Perm (List.range threadnum)) (launched : 0 < threadnum)
    (some : 0 < n) (ends : d_multi_normlize_J threadnum lanes m A n = .some m') : m'.big (A + 8) = strayOne := by
  refine Loops.foldlM_establishes (P := fun m => m.big (A + 8) = strayOne) (a := 0) ?_
    (fun s s' turn => normaliseLane_first some turn launched) (fun mytid _ s s' turn holds => ?_) ends
  · rw [all.mem_iff, List.mem_range]
    exact launched
  · rcases eq_or_ne mytid 0 with rfl | other
    · exact normaliseLane_first some turn launched
    · exact normaliseLane_other other turn holds

/-- What the kernel is to leave in place of `m`: each point as `dh_normlize_J` and `d_mon2normal_J` leave it, and all
else as it was. -/
structure NormalisesEach (m m' : Ram) (A n : ℕ) : Prop where
  points : ∀ i < n, ∃ s, m.dh_normlize_J (A + 12 * i) = some s ∧
    m'.jpoint (A + 12 * i) = (s.d_mon2normal_J (A + 12 * i)).jpoint (A + 12 * i)
  frame : ∀ c, c < A ∨ A + 12 * n ≤ c → m' c = m c

/-- The single normalisation leaves another number in `z` than the kernel. -/
theorem stray_ne_single {pt : ℕ} {s : Ram} (reduced : (m.jpoint pt).Reduced) (finite : (m.jpoint pt).z.toNat ≠ 0)
    (single : m.dh_normlize_J pt = some s) : (s.d_mon2normal_J pt).big (pt + 8) ≠ strayOne := by
  obtain ⟨X, Y, Z, residues⟩ := reduced.exists_residues
  have nonzero : Z ≠ 0 := by
    rw [ne_eq, ← residues.z.iszero_iff, Big.iszero_iff]
    exact finite
  obtain ⟨s', body, normal, -⟩ := dh_normlize_J_spec residues nonzero
  cases single.symm.trans body
  have one : s.big (pt + 8) = dc_mon_ONE := normal.z.injective mont_ONE
  have stored : (s.d_mon2normal_J pt).big (pt + 8) = modP.monmult (s.big (pt + 8)) dc_ONE := by
    simp (disch := omega) only [d_mon2normal_J, big_putBig, big_putBig_of_apart]
    rfl
  rw [stored, one]
  decide

private theorem normalises_none {threadnum : ℕ} {lanes : List ℕ} : d_multi_normlize_J threadnum lanes m A 0 = some m := by
  rw [d_multi_normlize_J]
  induction lanes with
  | nil => rfl
  | cons mytid lanes ih => exact ih

private theorem not_normalises {lanes : List ℕ} (all : lanes.Perm (List.range threadnum)) (launched : 0 < threadnum)
    (some : 0 < n) (reduced : (m.jpoint A).Reduced) (finite : (m.jpoint A).z.toNat ≠ 0) :
    ¬ ∃ m', d_multi_normlize_J threadnum lanes m A n = .some m' ∧ NormalisesEach m m' A n := by
  rintro ⟨m', ends, each⟩
  obtain ⟨s, single, same⟩ := each.points 0 some
  refine stray_ne_single reduced finite single ?_
  rw [← d_multi_normlize_J_first all launched some ends]
  exact (congrArg Jpoint.z same).symm

/-- The kernel agrees with the single normalisation on the empty array only, whatever its launch and the order of its
lanes. -/
theorem batch_normalisation_iff {lanes : List ℕ} (all : lanes.Perm (List.range threadnum)) (launched : 0 < threadnum)
    (groups : PARAL ∣ n) (reduced : ∀ i < n, (m.jpoint (A + 12 * i)).Reduced)
    (finite : ∀ i < n, (m.jpoint (A + 12 * i)).z.toNat ≠ 0) :
    (∃ m', d_multi_normlize_J threadnum lanes m A n = some m' ∧ NormalisesEach m m' A n) ↔ n = 0 := by
  constructor
  · intro normalises
    by_contra some
    have first := Nat.pos_of_ne_zero some
    exact not_normalises all launched first (reduced 0 first) (finite 0 first) normalises
  · rintro rfl
    exact ⟨m, normalises_none, fun i inside => absurd inside (Nat.not_lt_zero i), fun _ _ => rfl⟩

/-- Points with one in every word. -/
def ones : Ram := fun _ => 1

private theorem ones_reduced (pt : ℕ) : (ones.jpoint pt).Reduced := by
  have same : ones.jpoint pt = ⟨⟨1, 1, 1, 1⟩, ⟨1, 1, 1, 1⟩, ⟨1, 1, 1, 1⟩⟩ := rfl
  rw [same]
  exact ⟨by decide, by decide, by decide⟩

private theorem ones_finite (pt : ℕ) : (ones.jpoint pt).z.toNat ≠ 0 := by
  have same : ones.jpoint pt = ⟨⟨1, 1, 1, 1⟩, ⟨1, 1, 1, 1⟩, ⟨1, 1, 1, 1⟩⟩ := rfl
  rw [same]
  decide

theorem batch_normalisation_iff_ones :
    (∃ m', d_multi_normlize_J 1 [0] ones 0 64 = some m' ∧ NormalisesEach ones m' 0 64) ↔ 64 = 0 :=
  batch_normalisation_iff (List.Perm.refl _) (by decide) (by decide) (fun i _ => ones_reduced _) fun i _ => ones_finite _

/-- One lane on 64 points. -/
theorem batch_normalisation_wrong :
    ¬ ∃ m', d_multi_normlize_J 1 [0] ones 0 64 = some m' ∧ NormalisesEach ones m' 0 64 :=
  not_normalises (List.Perm.refl _) (by decide) (by decide) (ones_reduced 0) (ones_finite 0)

end Ram

end DbcSnark.Gpuec
