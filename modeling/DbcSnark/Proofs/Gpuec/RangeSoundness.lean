import DbcSnark.Proofs.Gpuec.RangeSystem

/-! # Soundness of the verifier

Runs of `main` of `cuverify.cu` under hashes that give other challenges to the same commitments, in which the proof passes
every time, yield the bits of a number below `2 ^ 32` and the blinding of a commitment `V` to it, unless they yield a
nontrivial relation between the generators.
-/

namespace DbcSnark.Gpuec

/-- The same functions on points with another hash. -/
def JpointOps.withHash {J : Type} (ops : JpointOps J) (hash : J → J → Big × Big) : JpointOps J :=
  { ops with device_hashBP := hash }

theorem JpointOps.Interprets.withHash {J : Type} {A : Type*} [AddCommGroup A] {ops : JpointOps J} {mon plain : J → A → Prop}
    {G : A} (points : ops.Interprets mon plain G) (hash : J → J → Big × Big) :
    (ops.withHash hash).Interprets mon plain G :=
  ⟨points.base, points.add, points.mult, points.base_mul, points.minus, points.to_mon, points.from_mon⟩

namespace RangeVerify

open RangeArgument RangeProof

/-- A run of the verifier, under a hash of its own, and a position of its batch. -/
structure Run (J : Type) where
  hash : J → J → Big × Big
  batch : Batch J
  N_DATA : ℕ
  idx : ℕ
  old : Unwritten J

/-- The proof at the position. -/
def Run.prove {J : Type} (run : Run J) : BPProve J := run.batch.h_prove run.idx

variable {J : Type} {A : Type*} [AddCommGroup A] [Module modN.Residue A] {ops : JpointOps J} {mon plain : J → A → Prop}
  {gens : Generators A} {tree : Tree modN.Residue A}

/-- The position of the run passes, and it holds what the tree has below the challenges `i`, `j` and `k`: the points, the
hashed challenges and the numbers. -/
structure Run.Supports (ops : JpointOps J) (mon plain : J → A → Prop) (gens : Generators A) (tree : Tree modN.Residue A)
    (i j k : ℕ) (run : Run J) : Prop where
  inside : run.idx < run.N_DATA
  sizes : ∀ idx < run.N_DATA, (run.batch.h_params idx).N = 32
  usable : ∀ idx < run.N_DATA, Usable (hashedY (ops.withHash run.hash) (run.batch.h_prove idx))
  stands : Stands plain run.batch run.idx gens tree.V tree.A tree.S (tree.T1 i j) (tree.T2 i j)
    ((tree.answer i j k).commitment gens 32 (tree.y i))
  y : (hashedY (ops.withHash run.hash) run.prove).toNat = tree.y i
  z : (hashedZ (ops.withHash run.hash) run.prove).toNat = tree.z i j
  x : (hashedX (ops.withHash run.hash) run.prove).toNat = tree.x i j k
  answer : answer run.batch run.idx = tree.answer i j k
  passes : ∃ results, main (ops.withHash run.hash) run.batch run.N_DATA run.old = some results ∧
    Passes mon plain results run.N_DATA run.idx run.prove.Tprime.toNat

private theorem accepted_of_supports (points : ops.Interprets mon plain gens.G)
    (mon_unique : ∀ p a b, mon p a → mon p b → a = b) (plain_unique : ∀ p a b, plain p a → plain p b → a = b)
    {runs : ℕ → ℕ → ℕ → Run J}
    (supports : ∀ i < 32, ∀ j < 3, ∀ k < 3, (runs i j k).Supports ops mon plain gens tree i j k) :
    tree.Accepted gens 32 := by
  intro i first j second k third
  have support := supports i first j second k third
  obtain ⟨results, ran, passes⟩ := support.passes
  obtain ⟨results', ran', sides⟩ := main_spec (points.withHash (runs i j k).hash) support.sizes support.usable
    (runs i j k).old
  rw [ran] at ran'
  obtain rfl := Option.some.inj ran'
  have side := sides (runs i j k).idx support.inside gens _ _ _ _ _ _ rfl support.stands
  have x := support.x
  have y := support.y
  have z := support.z
  rw [Run.prove] at x y z
  rw [support.answer, x, y, z] at side
  have inner : ((runs i j k).prove.Tprime.toNat : modN.Residue) = (tree.answer i j k).t := by
    rw [← support.answer]
    rfl
  rw [inner] at passes
  exact accepts_iff_checks.mpr (side.checks mon_unique plain_unique passes)

/-- Unless the runs yield a nontrivial relation between the generators, `V` is a commitment to a number below `2 ^ 32`. -/
theorem main_sound (points : ops.Interprets mon plain gens.G)
    (mon_unique : ∀ p a b, mon p a → mon p b → a = b) (plain_unique : ∀ p a b, plain p a → plain p b → a = b)
    (fresh : tree.Fresh 32) {runs : ℕ → ℕ → ℕ → Run J}
    (supports : ∀ i < 32, ∀ j < 3, ∀ k < 3, (runs i j k).Supports ops mon plain gens tree i j k) :
    (∃ c ∈ tree.relations 32, gens.combine 32 c = 0 ∧ ¬ Trivial 32 c) ∨
      ∃ m < 2 ^ 32, ∑ i ∈ Finset.range 32, tree.openA.2.1 i * 2 ^ i = (m : ℕ) ∧
        tree.V = (m : modN.Residue) • gens.G + (tree.openV 32).1.2 • gens.H := by
  rcases Tree.extract fresh (accepted_of_supports points mon_unique plain_unique supports)
    (by decide) with relation | ⟨bits, opened⟩
  · exact .inl relation
  · obtain ⟨m, small, number⟩ := Tree.exists_nat_of_bits bits
    rw [number] at opened
    exact .inr ⟨m, small, number, opened⟩

/-! ## Runs on the residues -/

private theorem natCast_ne {a b : ℕ} (small : a < 2 ^ 64) (small' : b < 2 ^ 64) (other : a ≠ b) :
    (a : modN.Residue) ≠ b := by
  have below : 2 ^ 64 < modN.Pa.toNat := by decide
  intro same
  rw [ZMod.natCast_eq_natCast_iff', Nat.mod_eq_of_lt (by omega), Nat.mod_eq_of_lt (by omega)] at same
  exact other same

/-- A number that is hashed to. -/
private def small (n : ℕ) : Big := ⟨.ofNat n, 0, 0, 0⟩

private theorem toNat_small {n : ℕ} (below : n < 2 ^ 64) : (small n).toNat = n := by
  rw [small, Big.toNat, UInt64.toNat_ofNat_of_lt' below]
  simp

/-- A residue as a number of the proof. -/
private def number (a : modN.Residue) : Big := .ofNat a.val

private theorem cast_number (a : modN.Residue) : ((number a).toNat : modN.Residue) = a := by
  have below : a.val < 2 ^ 256 := (ZMod.val_lt a).trans modN.Pa.toNat_lt
  rw [number, Big.toNat_ofNat, Nat.mod_eq_of_lt below, ZMod.natCast_zmod_val]

/-- The setup whose vectors of generators are zero. -/
private def sparseParams : BPSetupParams modN.Residue := ⟨1, 1, 32, fun _ => 0, fun _ => 0, 0, 0, 0, 0⟩

private def sparseGenerators : Generators modN.Residue := ⟨1, 1, fun _ => 0, fun _ => 0⟩

/-- The answer about the number zero, with the blinding `1` for its bits and no other. -/
private def zeroReply (i j k : ℕ) : Answer modN.Residue :=
  .honest 32 (bitsL 0) (bitsR 0) (fun _ => 0) (fun _ => 0) 1 0 0 0 0 ((k + 1 : ℕ) : modN.Residue)
    ((i + 2 : ℕ) : modN.Residue)
    ((j + 1 : ℕ) : modN.Residue)

/-- The run on this answer, with a hash that tells `A` from `T1`. -/
private def zeroRun (i j k : ℕ) : Run modN.Residue where
  hash p _ := if p = 1 then (small (i + 2), small (j + 1)) else (small (k + 1), 0)
  batch :=
    { h_params := fun _ => sparseParams
      h_prove := fun _ => ⟨1, 0, 0, 0, 0, number (zeroReply i j k).taux, number (zeroReply i j k).mu,
        number (zeroReply i j k).t⟩
      h_ipcommit := fun _ => 0
      h_bLR := fun c => if c < 32 then number ((zeroReply i j k).l c) else number ((zeroReply i j k).r (c - 32)) }
  N_DATA := 1
  idx := 0
  old := ⟨fun _ => 0, fun _ => 0, fun _ => 0, fun _ _ => 0, fun _ _ => 0⟩

private def zeroTree : Tree modN.Residue modN.Residue where
  V := 0
  A := 1
  S := 0
  y i := ((i + 2 : ℕ) : modN.Residue)
  z _ j := ((j + 1 : ℕ) : modN.Residue)
  T1 _ _ := 0
  T2 _ _ := 0
  x _ _ k := ((k + 1 : ℕ) : modN.Residue)
  answer i j k := answer (zeroRun i j k).batch 0

private theorem zeroTree_fresh : zeroTree.Fresh 32 where
  y i first i' first' same := by
    by_contra other
    have below := Finset.mem_range.mp first
    have below' := Finset.mem_range.mp first'
    exact natCast_ne (by omega) (by omega) (fun equal => other (by omega)) same
  z _ _ j second j' second' same := by
    by_contra other
    have below := Finset.mem_range.mp second
    have below' := Finset.mem_range.mp second'
    exact natCast_ne (by omega) (by omega) (fun equal => other (by omega)) same
  x _ _ _ _ k third k' third' same := by
    by_contra other
    have below := Finset.mem_range.mp third
    have below' := Finset.mem_range.mp third'
    exact natCast_ne (by omega) (by omega) (fun equal => other (by omega)) same
  y_ne_zero i first := by
    have nonzero := @natCast_ne (i + 2) 0 (by omega) (by norm_num) (by omega)
    rwa [Nat.cast_zero] at nonzero
  z_ne_zero := by
    have nonzero := @natCast_ne 1 0 (by norm_num) (by norm_num) (by decide)
    rwa [Nat.cast_zero] at nonzero

private theorem zeroReply_agrees (i j k : ℕ) : (zeroTree.answer i j k).Agrees 32 (zeroReply i j k) where
  taux := cast_number _
  mu := cast_number _
  t := cast_number _
  l m inside := by
    change ((if 0 * 64 + m < 32 then number ((zeroReply i j k).l (0 * 64 + m))
      else number ((zeroReply i j k).r (0 * 64 + m - 32))).toNat : modN.Residue) = _
    rw [Nat.zero_mul, Nat.zero_add, if_pos inside]
    exact cast_number _
  r m inside := by
    change ((if 0 * 64 + (32 + m) < 32 then number ((zeroReply i j k).l (0 * 64 + (32 + m)))
      else number ((zeroReply i j k).r (0 * 64 + (32 + m) - 32))).toNat : modN.Residue) = _
    rw [Nat.zero_mul, Nat.zero_add, if_neg (by omega), Nat.add_sub_cancel_left]
    exact cast_number _

private theorem zeroTree_accepts {i : ℕ} (first : i < 32) (j k : ℕ) :
    Accepts sparseGenerators 32 (zeroTree.V) zeroTree.A zeroTree.S (zeroTree.T1 i j) (zeroTree.T2 i j) (zeroTree.x i j k)
      (zeroTree.y i) (zeroTree.z i j) (zeroTree.answer i j k) := by
  have honestly := (@accepts_honest_iff modN.Residue modN.Residue _ _ _ sparseGenerators 32 (bitsL 0) (bitsR 0)
    (fun _ => 0) (fun _ => 0) 1 0 0 0 0 ((k + 1 : ℕ) : modN.Residue) ((i + 2 : ℕ) : modN.Residue)
    ((j + 1 : ℕ) : modN.Residue) (bitsL_spec 0 32) (zeroTree_fresh.y_ne_zero i first) 0).mpr (by simp)
  have bits : ∀ m, bitsL 0 m = 0 := fun m => by simp [bitsL]
  have V : (∑ m ∈ Finset.range 32, bitsL 0 m * 2 ^ m + 0) • sparseGenerators.G +
    (0 : modN.Residue) • sparseGenerators.H = 0 := by
    simp [bits]
  have A : commit 32 1 sparseGenerators.H (bitsL 0) (bitsR 0) sparseGenerators.g sparseGenerators.h =
    (1 : modN.Residue) := by
    simp [commit, sparseGenerators]
  have S : commit 32 (0 : modN.Residue) sparseGenerators.H (fun _ => 0)
    (fun _ => 0) sparseGenerators.g sparseGenerators.h = 0 := by
    simp [commit]
  have T1 : t1 32 (bitsL 0) (bitsR 0) (fun _ => 0) (fun _ => 0) ((i + 2 : ℕ) : modN.Residue) ((j + 1 : ℕ) : modN.Residue) •
      sparseGenerators.G + (0 : modN.Residue) • sparseGenerators.H = 0 := by
    simp [t1]
  have T2 : t2 32 (fun _ => 0) (fun _ => 0) ((i + 2 : ℕ) : modN.Residue) • sparseGenerators.G +
      (0 : modN.Residue) • sparseGenerators.H = 0 := by
    simp [t2]
  rw [V, A, S, T1, T2] at honestly
  exact honestly.congr (zeroReply_agrees i j k)

private theorem zeroTree_commitment (i j k : ℕ) :
    (zeroTree.answer i j k).commitment sparseGenerators 32 (zeroTree.y i) = 0 := by
  simp [Answer.commitment, sparseGenerators]

private def sparseJpoints : JpointOps modN.Residue := groupJpoints 1 fun _ _ => (0, 0)

private theorem zeroRun_supports {i j k : ℕ} (first : i < 32) (second : j < 3) (third : k < 3) :
    (zeroRun i j k).Supports sparseJpoints Eq Eq sparseGenerators zeroTree i j k := by
  have points : sparseJpoints.Interprets Eq Eq sparseGenerators.G := groupJpoints_interprets _ _
  have y : hashedY (sparseJpoints.withHash (zeroRun i j k).hash) ((zeroRun i j k).batch.h_prove 0) = small (i + 2) := rfl
  have z : hashedZ (sparseJpoints.withHash (zeroRun i j k).hash) ((zeroRun i j k).batch.h_prove 0) = small (j + 1) := rfl
  have x : hashedX (sparseJpoints.withHash (zeroRun i j k).hash) ((zeroRun i j k).batch.h_prove 0) = small (k + 1) := by
    have other : (0 : modN.Residue) ≠ 1 := zero_ne_one
    change (if (0 : modN.Residue) = 1 then (small (i + 2), small (j + 1)) else (small (k + 1), 0)).1 = _
    rw [if_neg other]
  have usable : ∀ idx < 1, Usable (hashedY (sparseJpoints.withHash (zeroRun i j k).hash)
    ((zeroRun i j k).batch.h_prove idx)) := by
    intro idx inside
    rw [Nat.lt_one_iff.mp inside, y]
    have large : 2 ^ 64 < modN.Pa.toNat := by decide
    constructor
    · rw [toNat_small (by omega)]
      omega
    · rw [toNat_small (by omega)]
      omega
  have stands : Stands Eq (zeroRun i j k).batch 0 sparseGenerators zeroTree.V zeroTree.A zeroTree.S (zeroTree.T1 i j)
      (zeroTree.T2 i j) ((zeroTree.answer i j k).commitment sparseGenerators 32 (zeroTree.y i)) :=
    ⟨rfl, fun _ _ => rfl, fun _ _ => rfl, rfl, rfl, rfl, rfl, rfl, (zeroTree_commitment i j k).symm⟩
  obtain ⟨results, ran, sides⟩ := main_spec (points.withHash (zeroRun i j k).hash) (fun _ _ => rfl) usable
    (zeroRun i j k).old
  have side := sides 0 one_pos sparseGenerators _ _ _ _ _ _ rfl stands
  rw [x, y, z, toNat_small (by omega), toNat_small (by omega), toNat_small (by omega)] at side
  refine ⟨one_pos, fun _ _ => rfl, usable, stands, ?_, ?_, ?_, rfl, results, ran, ?_⟩
  · rw [Run.prove, show (zeroRun i j k).idx = 0 from rfl, y, toNat_small (by omega)]
    rfl
  · rw [Run.prove, show (zeroRun i j k).idx = 0 from rfl, z, toNat_small (by omega)]
    rfl
  · rw [Run.prove, show (zeroRun i j k).idx = 0 from rfl, x, toNat_small (by omega)]
    rfl
  · exact side.passes (accepts_iff_checks.mp (zeroTree_accepts first j k))

theorem main_sound_zero :
    (∃ c ∈ zeroTree.relations 32, sparseGenerators.combine 32 c = 0 ∧ ¬ Trivial 32 c) ∨
      ∃ m < 2 ^ 32, ∑ i ∈ Finset.range 32, zeroTree.openA.2.1 i * 2 ^ i = (m : ℕ) ∧
        zeroTree.V = (m : modN.Residue) • sparseGenerators.G + (zeroTree.openV 32).1.2 • sparseGenerators.H :=
  @main_sound _ _ _ _ sparseJpoints Eq Eq sparseGenerators zeroTree (groupJpoints_interprets _ _)
    (fun _ _ _ left right => left.symm.trans right)
    (fun _ _ _ left right => left.symm.trans right) zeroTree_fresh zeroRun fun _ first _ second _ third =>
      zeroRun_supports first second third

end RangeVerify

end DbcSnark.Gpuec
