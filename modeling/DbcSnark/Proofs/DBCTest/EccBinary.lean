import DbcSnark.Model.DBCTest.EccBinary
import DbcSnark.Proofs.DBCTest.OptimalDBC2

/-! # What `ECC_binary.cpp` reports

The bitwise method multiplies by the magnitude of the scalar and `EC_POINT_mul` by the scalar itself, so the results
differ where the scalar is negative and no multiple of the order.
-/

namespace DbcSnark.DBCTest.EccBinary

open Ec EC_GROUP OnPoints MSMTest

/-! ## The bitwise method -/

theorem hex2bn_zero (a : String) : hex2bn 0 a = BN_hex2bn a := by
  rw [hex2bn]
  split_ifs with found
  · rfl
  · simp only [reads, Bool.and_eq_true, bne_iff_ne, decide_eq_true_eq, not_and_or, not_not, not_le] at found
    exact (if_pos found).symm

section Points

variable {p : ℕ} [Fact p.Prime]

theorem loop_eq (group : SimpleGroup p) (r mult_points n : ℕ) (m : Points (ZMod p)) (TTV : ℕ) :
    loop group r mult_points n m = (OnPoints.binaryLoop group r mult_points n m TTV).1 := by
  induction n using Nat.strong_induction_on generalizing m TTV with
  | _ n ih =>
    rw [loop, OnPoints.binaryLoop]
    by_cases zero : n = 0
    · rw [if_pos zero, if_pos zero]
    · rw [if_neg zero, if_neg zero]
      by_cases even : n % 2 = 0
      · rw [if_pos even, if_neg (by omega), ih (n / 2) (by omega)]
      · rw [if_neg even, if_pos (by omega), ih (n / 2) (by omega)]

/-- The method of this file and the one of `functions.h` leave the same points. -/
theorem DBC_POINT_mul_eq (group : SimpleGroup p) (m : Points (ZMod p)) (mult_points r a : ℕ) (hexwords : String) :
    DBC_POINT_mul group m mult_points r a (BN_hex2bn hexwords) =
      (OnPoints.binary_POINT_mul group m mult_points r a hexwords).1 :=
  loop_eq group r mult_points _ _ 0

end Points

/-! ## The program -/

section Program

variable {p : ℕ} [Fact p.Prime] {c : Setting p} {TEST_TIMES : ℕ} {hexwords : ℕ → String}
  {P : (c.group.curve (c.group.decode c.group.b)).Point} {a start : ℕ} {r1 r2 : ℕ → ℕ} {h : Heap p}

/-- The points after `i` turns of the first loop. -/
structure First (c : Setting p) (P : (c.group.curve (c.group.decode c.group.b)).Point) (hexwords : ℕ → String)
    (TEST_TIMES a start : ℕ) (r1 : ℕ → ℕ) (i : ℕ) (h : Heap p) : Prop where
  base : c.group.Represents (h.m a) P
  room : start + 2 * TEST_TIMES ≤ h.next
  results : ∀ j < i, c.group.Represents (h.m (r1 j)) ((BN_hex2bn (hexwords j)).natAbs • P)
  fresh : ∀ j, i ≤ j → j < TEST_TIMES →
    c.group.Represents (h.m (r1 j)) (0 : (c.group.curve (c.group.decode c.group.b)).Point)

/-- The points after `i` turns of the second loop. -/
structure Second (c : Setting p) (P : (c.group.curve (c.group.decode c.group.b)).Point) (hexwords : ℕ → String)
    (TEST_TIMES a : ℕ) (r1 r2 : ℕ → ℕ) (i : ℕ) (m : Points (ZMod p)) : Prop where
  base : c.group.Represents (m a) P
  first : ∀ j < TEST_TIMES, c.group.Represents (m (r1 j)) ((BN_hex2bn (hexwords j)).natAbs • P)
  second : ∀ j < i, c.group.Represents (m (r2 j)) (BN_hex2bn (hexwords j) • P)

theorem binaryLoop_spec (first : First c P hexwords TEST_TIMES a start r1 0 h) (early : a < start)
    (placed : OptimalDBC2.Placed start TEST_TIMES r1 r2) :
    First c P hexwords TEST_TIMES a start r1 TEST_TIMES (binaryLoop c TEST_TIMES hexwords a r1 h).1 := by
  refine (Loops.foldl_range_induction (P := fun i (st : Heap p × ℤ) =>
    First c P hexwords TEST_TIMES a start r1 i st.1 ∧ st.2 = 0) ⟨first, rfl⟩ ?_).1
  rintro i inside ⟨h, n⟩ ⟨⟨base, room, results, fresh⟩, rfl⟩
  dsimp only at base room results fresh ⊢
  have here := placed.first i inside
  obtain ⟨result, others⟩ := binary_POINT_mul_result (s := h.next) (fresh i le_rfl inside) base (by omega) (by omega)
    (hexwords i)
  rw [hex2bn_zero]
  simp only [DBC_POINT_mul_eq, Heap.call]
  rw [zero_add] at result
  refine ⟨⟨?_, ?_, fun j before => ?_, fun j later inside' => ?_⟩, trivial⟩
  · dsimp only
    rwa [others a (by omega) (by omega)]
  · dsimp only
    omega
  · dsimp only
    rcases Nat.lt_succ_iff_lt_or_eq.mp before with earlier | rfl
    · have there := placed.first j (by omega)
      rw [others _ (by omega) (by omega)]
      exact results j earlier
    · exact result
  · have there := placed.first j inside'
    dsimp only
    rw [others _ (by omega) (by omega)]
    exact fresh j (by omega) inside'

theorem directLoop_spec (order : addOrderOf P = c.group.order) (early : a < start)
    (placed : OptimalDBC2.Placed start TEST_TIMES r1 r2) (words : ∀ i < TEST_TIMES, reads (hexwords i) = true)
    (st : Points (ZMod p) × ℤ) (second : Second c P hexwords TEST_TIMES a r1 r2 0 st.1) :
    ∃ st', directLoop c TEST_TIMES hexwords a r2 st = some st' ∧
      Second c P hexwords TEST_TIMES a r1 r2 TEST_TIMES st'.1 := by
  refine Loops.exists_foldlM_range (P := fun i (st : Points (ZMod p) × ℤ) =>
    Second c P hexwords TEST_TIMES a r1 r2 i st.1) second fun i inside st holds => ?_
  obtain ⟨base, first, second⟩ := holds
  have here := placed.second i inside
  have read : hex2bn st.2 (hexwords i) = BN_hex2bn (hexwords i) := if_pos (words i inside)
  have there : c.group.Represents (operand c.group st.1 (some a)) P := base
  obtain ⟨m, ends, multiplied⟩ := mul_leaves_of_cardinality (c.blinds i) (r2 i) (BN_hex2bn (hexwords i)) there
    (fun none => absurd none (Option.some_ne_none a)) (period_of_order order)
  refine ⟨(m, BN_hex2bn (hexwords i)), by dsimp only; rw [read, ends]; rfl, ?_, fun j inside' => ?_, fun j before => ?_⟩
  · dsimp only
    rwa [multiplied.others a (by omega)]
  · have address := placed.first j inside'
    dsimp only
    rw [multiplied.others _ (by omega)]
    exact first j inside'
  · dsimp only
    rcases Nat.lt_succ_iff_lt_or_eq.mp before with earlier | rfl
    · have address := placed.second j (by omega)
      rw [multiplied.others _ (by omega)]
      exact second j earlier
    · exact multiplied.stored

/-- The magnitude and the number give different multiples when the number is negative and no multiple of the order. -/
theorem natAbs_nsmul_eq_iff {A : Type*} [AddCommGroup A] {P : A} {n : ℤ} (prime : (addOrderOf P).Prime)
    (large : 3 < addOrderOf P) : n.natAbs • P = n • P ↔ ¬ (n < 0 ∧ ¬ (addOrderOf P : ℤ) ∣ n) := by
  rcases Int.natAbs_eq n with positive | negative
  · rw [← natCast_zsmul, ← positive]
    exact iff_of_true rfl fun below => by omega
  · have opposite : n.natAbs • P = n • P ↔ (addOrderOf P : ℤ) ∣ 2 * n := by
      have magnitude : ((n.natAbs : ℕ) : ℤ) = -n := by omega
      rw [addOrderOf_dvd_iff_zsmul_eq_zero, two_mul, add_zsmul, ← neg_eq_iff_add_eq_zero, ← neg_zsmul, ← natCast_zsmul,
        magnitude]
    have odd : IsCoprime (addOrderOf P : ℤ) 2 :=
      Nat.isCoprime_iff_coprime.mpr ((Nat.coprime_primes prime Nat.prime_two).mpr (by omega))
    have half : (addOrderOf P : ℤ) ∣ 2 * n ↔ (addOrderOf P : ℤ) ∣ n :=
      ⟨odd.dvd_of_dvd_mul_left, fun divides => divides.mul_left 2⟩
    rw [opposite, half]
    rcases eq_or_ne n 0 with rfl | nonzero
    · exact iff_of_true (dvd_zero _) fun below => absurd below.1 (lt_irrefl 0)
    · have below : n < 0 := by omega
      rw [not_and_not_right]
      exact ⟨fun divides _ => divides, fun implied => implied below⟩

/-- Where both loops find digits, the program reports the first scalar that is negative and no multiple of the order, and
nothing if there is none. -/
theorem main_reports (keyed : Generated c) (words : ∀ i < TEST_TIMES, reads (hexwords i) = true) :
    main c TEST_TIMES hexwords = some ((List.range TEST_TIMES).find? fun i =>
      BN_hex2bn (hexwords i) < 0 ∧ ¬ (c.group.order : ℤ) ∣ BN_hex2bn (hexwords i)) := by
  obtain ⟨G, generator, prime⟩ := keyed.generator
  obtain ⟨h, a, generated, early, represents, order⟩ :=
    generate_key_spec keyed generator prime ⟨fun _ => ⟨0, 0, 0, false⟩, 0⟩
  generalize c.priv_key • G = P at represents order
  obtain ⟨next, placed, old, new⟩ := OptimalDBC2.allocated_allocate TEST_TIMES h
  obtain ⟨⟨h₁, r1, r2⟩, allocated⟩ : ∃ st, OptimalDBC2.allocate TEST_TIMES h = st := ⟨_, rfl⟩
  rw [allocated] at next placed old new
  dsimp only at next placed old new
  have start : First c P hexwords TEST_TIMES a h.next r1 0 h₁ := by
    refine ⟨by rwa [old a early], next.ge, fun j before => absurd before (Nat.not_lt_zero j), fun j _ inside => ?_⟩
    have address := placed.first j inside
    rw [new _ (by omega) (by omega)]
    exact represents_zero 0 0
  have first := binaryLoop_spec start early placed
  obtain ⟨⟨m, n⟩, direct, second⟩ := directLoop_spec order early placed words
    ((binaryLoop c TEST_TIMES hexwords a r1 h₁).1.m, (binaryLoop c TEST_TIMES hexwords a r1 h₁).2)
    ⟨first.base, first.results, fun j before => absurd before (Nat.not_lt_zero j)⟩
  rw [main]
  simp only [generated, allocated, direct, Option.bind_eq_bind, Option.bind_some]
  refine congrArg some (List.find?_congr fun i member => ?_)
  have inside := List.mem_range.mp member
  obtain ⟨same, other⟩ := cmp_spec (second.first i inside) (second.second i inside)
  have reported : ossl_ec_GFp_simple_cmp c.group.toSimpleGroup (m (r1 i)) (m (r2 i)) = 1 ↔
      (BN_hex2bn (hexwords i)).natAbs • P ≠ BN_hex2bn (hexwords i) • P :=
    ⟨fun one equal => absurd ((same equal).symm.trans one) (by decide), other⟩
  have differ := (natAbs_nsmul_eq_iff (n := BN_hex2bn (hexwords i)) (order ▸ keyed.prime) (order ▸ keyed.large)).not
  rw [not_not, order] at differ
  exact decide_eq_decide.mpr (reported.trans differ)

theorem main_reports_minus_one : main setting 1 (fun _ => "-1") = some (some 0) := by
  have digits : reads "-1" = true := by decide +kernel
  have read : BN_hex2bn "-1" = -1 := by decide +kernel
  rw [main_reports linked_setting.toGenerated fun _ _ => digits, read]
  decide +kernel

end Program

end DbcSnark.DBCTest.EccBinary
