import DbcSnark.Proofs.Ec.Affine

/-! # Sequences of point operations

A sequence of calls on points at addresses refines the same sequence in the group of the curve, as long as no tripling
writes its coordinates beside a flag that is wrong for them. Then the comparison at the end decides equality.
-/

namespace DbcSnark.Ec

open EC_GROUP Gpuec
open WeierstrassCurve.Affine (Point)

variable {p : ℕ} [Fact p.Prime]

/-- A call that writes a point. -/
inductive Command
  | init (r : ℕ)
  | set_to_infinity (r : ℕ)
  | copy (dest src : ℕ)
  | add (r a b : ℕ)
  | dbl (r a : ℕ)
  | tpl (r a : ℕ)
  | invert (a : ℕ)
  | make_affine (a : ℕ)

namespace Command

/-- The points after the call. -/
def run (group : SimpleGroup p) (m : Points (ZMod p)) : Command → Option (Points (ZMod p))
  | init r => some (ossl_ec_GFp_simple_point_init m r)
  | set_to_infinity r => some (Function.update m r (EC_POINT_set_to_infinity (m r)))
  | copy dest src => some (EC_POINT_copy m dest src)
  | add r a b => some (ossl_ec_GFp_simple_add group m r a b)
  | dbl r a => some (ossl_ec_GFp_simple_dbl group m r a)
  | tpl r a => some (ossl_ec_GFp_simple_tpl group.toEC_GROUP m r a)
  | invert a => some (ossl_ec_GFp_simple_invert m a)
  | make_affine a => (ossl_ec_GFp_simple_make_affine group (m a)).map (Function.update m a)

/-- The address that the call writes, and the point it leaves there. -/
def result {G : Type*} [AddCommGroup G] (v : ℕ → G) : Command → ℕ × G
  | init r => (r, 0)
  | set_to_infinity r => (r, 0)
  | copy dest src => (dest, v src)
  | add r a b => (r, v a + v b)
  | dbl r a => (r, v a + v a)
  | tpl r a => (r, v a + v a + v a)
  | invert a => (a, -v a)
  | make_affine a => (a, v a)

/-- The points of the group after the call. -/
def value {G : Type*} [AddCommGroup G] (v : ℕ → G) (c : Command) : ℕ → G := Function.update v (c.result v).1 (c.result v).2

/-- A tripling is safe for infinity, on a clear flag, and where the last coordinate of the triple is one. -/
def Safe (group : SimpleGroup p) (m : Points (ZMod p)) : Command → Prop
  | tpl r a => (m a).Z = 0 ∨ (m r).Z_is_one = false ∨ group.tripleZ (m a) = 1
  | _ => True

end Command

variable {group : SimpleGroup p} {m m' : Points (ZMod p)} {v : ℕ → (group.curve (group.decode group.b)).Point} {r : ℕ}
  {P : (group.curve (group.decode group.b)).Point}

/-- Every address holds a well-formed representation of its point. -/
def Refines (group : SimpleGroup p) (m : Points (ZMod p)) (v : ℕ → (group.curve (group.decode group.b)).Point) : Prop :=
  ∀ i, group.Represents (m i) (v i)

theorem Refines.update (refines : Refines group m v) (leaves : Leaves group m m' r P) :
    Refines group m' (Function.update v r P) := by
  intro i
  by_cases here : i = r
  · rw [here, Function.update_self]
    exact leaves.stored
  · rw [Function.update_of_ne here, leaves.others i here]
    exact refines i

/-- A call refines its meaning just when it is safe. -/
theorem Refines.run_iff (refines : Refines group m v) (c : Command) :
    (∃ m', c.run group m = some m' ∧ Refines group m' (c.value v)) ↔ c.Safe group m := by
  cases c with
  | init r => exact iff_of_true ⟨_, rfl, refines.update (.of_update (represents_zero _ _))⟩ trivial
  | set_to_infinity r => exact iff_of_true ⟨_, rfl, refines.update (.of_update (represents_zero _ _))⟩ trivial
  | copy dest src => exact iff_of_true ⟨_, rfl, refines.update (copy_leaves (refines src))⟩ trivial
  | add r a b => exact iff_of_true ⟨_, rfl, refines.update (add_leaves (refines a) (refines b)).1⟩ trivial
  | dbl r a => exact iff_of_true ⟨_, rfl, refines.update (dbl_leaves (refines a)).1⟩ trivial
  | invert a => exact iff_of_true ⟨_, rfl, refines.update (invert_leaves (refines a)).1⟩ trivial
  | make_affine a =>
    refine iff_of_true ⟨Function.update m a (affine group (m a)), ?_,
      refines.update (.of_update (affine_spec (refines a)).1)⟩
      trivial
    rw [Command.run, make_affine_eq (refines a), Option.map_some]
  | tpl r a =>
    have exactly : group.Represents (ossl_ec_GFp_simple_tpl group.toEC_GROUP m r a r) (v a + v a + v a) ↔
        (m a).Z = 0 ∨ (m r).Z_is_one = false ∨ group.tripleZ (m a) = 1 := by
      have triple : v a + v a + v a = 3 • v a := by rw [succ_nsmul, two_nsmul]
      rw [triple, Z_eq_zero_iff (refines a)]
      by_cases infinite : v a = 0
      · exact iff_of_true (tpl_of_infinite (refines a) infinite) (.inl infinite)
      · rw [tpl_of_finite group.two_ne_zero (refines a) infinite, or_iff_right infinite, ← Bool.not_eq_true, imp_iff_not_or]
    rw [Command.Safe, ← exactly]
    constructor
    · rintro ⟨m', ran, refines'⟩
      obtain rfl := Option.some.inj ran
      have stored := refines' r
      rwa [Command.value, Command.result, Function.update_self] at stored
    · intro stored
      exact ⟨_, rfl, refines.update ⟨stored, fun i other => tpl_others other⟩⟩

/-! ## Sequences -/

/-- The points after a sequence of calls. -/
def runs (group : SimpleGroup p) (m : Points (ZMod p)) (calls : List Command) : Option (Points (ZMod p)) :=
  calls.foldlM (Command.run group) m

/-- The points of the group after the sequence. -/
def values {G : Type*} [AddCommGroup G] (v : ℕ → G) (calls : List Command) : ℕ → G := calls.foldl Command.value v

/-- Every call is safe where it is made. -/
def AllSafe (group : SimpleGroup p) (m : Points (ZMod p)) (calls : List Command) : Prop :=
  ∀ earlier c later, calls = earlier ++ c :: later → ∀ m', runs group m earlier = some m' → c.Safe group m'

theorem AllSafe.head {c : Command} {calls : List Command} (safe : AllSafe group m (c :: calls)) : c.Safe group m :=
  safe [] c calls rfl m rfl

theorem AllSafe.tail {c : Command} {calls : List Command} (safe : AllSafe group m (c :: calls))
    (ran : c.run group m = some m') : AllSafe group m' calls := by
  intro earlier d later split m'' ran'
  refine safe (c :: earlier) d later (by rw [split, List.cons_append]) m'' ?_
  rw [runs, List.foldlM_cons, ran]
  exact ran'

theorem AllSafe.nil : AllSafe group m [] :=
  fun earlier c later split => absurd split (by simp)

theorem AllSafe.cons {c : Command} {calls : List Command} (safe : c.Safe group m)
    (rest : ∀ m', c.run group m = some m' → AllSafe group m' calls) : AllSafe group m (c :: calls) := by
  intro earlier d later split m'' ran
  cases earlier with
  | nil =>
    obtain ⟨rfl, -⟩ := List.cons.inj split
    obtain rfl := Option.some.inj ran
    exact safe
  | cons e earlier =>
    obtain ⟨rfl, split'⟩ := List.cons.inj split
    rw [runs, List.foldlM_cons] at ran
    obtain ⟨m₁, first, later'⟩ := Option.bind_eq_some_iff.mp ran
    exact rest m₁ first earlier d later split' m'' later'

/-- A safe sequence refines its meaning. -/
theorem Refines.runs (refines : Refines group m v) {calls : List Command} (safe : AllSafe group m calls) :
    ∃ m', Ec.runs group m calls = some m' ∧ Refines group m' (values v calls) := by
  induction calls generalizing m v with
  | nil => exact ⟨m, rfl, refines⟩
  | cons c calls ih =>
    obtain ⟨m₁, ran, refines₁⟩ := (refines.run_iff c).mpr safe.head
    obtain ⟨m', rest, refines'⟩ := ih refines₁ (safe.tail ran)
    refine ⟨m', ?_, refines'⟩
    rw [Ec.runs, List.foldlM_cons, ran]
    exact rest

/-- All states on the way refine their meanings just when all calls are safe where they are made. -/
theorem runs_refine_iff (refines : Refines group m v) (calls : List Command) :
    (∀ earlier later, calls = earlier ++ later →
      ∃ m', runs group m earlier = some m' ∧ Refines group m' (values v earlier)) ↔ AllSafe group m calls := by
  constructor
  · intro reached earlier c later split m₁ ran
    obtain ⟨m₁', ran', refines₁⟩ := reached earlier (c :: later) split
    obtain rfl := Option.some.inj (ran.symm.trans ran')
    obtain ⟨m₂, ran₂, refines₂⟩ := reached (earlier ++ [c]) later (by rw [split, List.append_assoc, List.singleton_append])
    refine (refines₁.run_iff c).mp ⟨m₂, ?_, ?_⟩
    · rw [runs, List.foldlM_append, ← runs, ran] at ran₂
      simpa using ran₂
    · rwa [values, List.foldl_append] at refines₂
  · intro safe earlier later split
    refine refines.runs fun before c after split' => safe before c (after ++ later) ?_
    rw [split, split', List.append_assoc, List.cons_append]

/-- The generator at every address. -/
private def generators : Points modP.Residue := fun _ => secp256k1.generator

theorem runs_refine_iff_generators : ∃ P : (secp256k1.curve (secp256k1.decode secp256k1.b)).Point,
    (∀ earlier later, [Command.dbl 1 0, .tpl 1 1, .add 2 1 0] = earlier ++ later → ∃ m',
      runs secp256k1.toSimpleGroup generators earlier = some m' ∧
        Refines secp256k1.toSimpleGroup m' (values (fun _ => P) earlier)) ↔
      AllSafe secp256k1.toSimpleGroup generators [.dbl 1 0, .tpl 1 1, .add 2 1 0] := by
  obtain ⟨P, stored, -⟩ := represents_generator
  exact ⟨P, runs_refine_iff (fun _ => stored) _⟩

/-- After a safe sequence the comparison decides equality, and the membership test accepts every point. -/
theorem runs_compare (refines : Refines group m v) {calls : List Command} (safe : AllSafe group m calls) :
    ∃ m', runs group m calls = some m' ∧
      (∀ i j, ossl_ec_GFp_simple_cmp group (m' i) (m' j) = 0 ↔ values v calls i = values v calls j) ∧
      ∀ i, ossl_ec_GFp_simple_is_on_curve group (m' i) = true := by
  obtain ⟨m', ran, refines'⟩ := refines.runs safe
  refine ⟨m', ran, fun i j => ?_, fun i => is_on_curve_of_represents (refines' i)⟩
  obtain ⟨equal, differ⟩ := cmp_spec (refines' i) (refines' j)
  refine ⟨fun zero => ?_, equal⟩
  by_contra other
  rw [differ other] at zero
  exact absurd zero (by decide)

theorem runs_compare_generators : ∃ P : (secp256k1.curve (secp256k1.decode secp256k1.b)).Point,
    ∃ m', runs secp256k1.toSimpleGroup generators [.dbl 1 0, .tpl 1 1, .add 2 1 0] = some m' ∧
      (∀ i j, ossl_ec_GFp_simple_cmp secp256k1.toSimpleGroup (m' i) (m' j) = 0 ↔
        values (fun _ => P) [.dbl 1 0, .tpl 1 1, .add 2 1 0] i = values (fun _ => P) [.dbl 1 0, .tpl 1 1, .add 2 1 0] j) ∧
      ∀ i, ossl_ec_GFp_simple_is_on_curve secp256k1.toSimpleGroup (m' i) = true := by
  obtain ⟨P, stored, -⟩ := represents_generator
  refine ⟨P, runs_compare (fun _ => stored) ?_⟩
  refine .cons trivial fun m₁ doubled => .cons ?_ fun m₂ _ => .cons trivial fun m₃ _ => .nil
  obtain rfl := Option.some.inj doubled
  exact .inr (.inl (dbl_leaves (r := 1) (a := 0) (m := generators) stored).2)

end DbcSnark.Ec
