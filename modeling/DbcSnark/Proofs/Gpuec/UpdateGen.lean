import DbcSnark.Model.Gpuec.UpdateGen
import DbcSnark.Proofs.Gpuec.MonInv
import DbcSnark.Proofs.Gpuec.Normalise
import DbcSnark.Proofs.Gpuec.PointMult

/-! # Correctness of the rescaled generators

The inverse of a number in Montgomery form is plain, so both functions multiply by the inverse of the power itself. On
the host `expy` is the power of the index of the turn; a thread of the device raises `y` to its lane, which is zero for
the first generator.
-/

namespace DbcSnark.Gpuec

open Modulus (Mont Plain)

/-- The coordinates, as they are, hold the point. -/
def Jpoint.PlainHolds (J : Jpoint) (P : curve.Point) : Prop :=
  Jacobian.Holds (J.x.toNat : modP.Residue) (J.y.toNat : modP.Residue) (J.z.toNat : modP.Residue) P

/-- The scalar that the inverse of a number in Montgomery form is read as. -/
theorem toNat_plain {v : Big} {a : modN.Residue} (plain : modN.Plain v a) : v.toNat = a.val := by
  rw [← plain.value, ZMod.val_natCast_of_lt plain.reduced]

private theorem val_pos {a : modN.Residue} (nonzero : a ≠ 0) : 0 < a.val := ZMod.val_pos.mpr nonzero

theorem mont_R2modN (v : Big) : modN.Mont (modN.monmult v h_R2modN) v.toNat := by
  have form : modN.Mont h_R2modN (2 ^ 256 : ℕ) := Modulus.mont_natCast_iff.mpr (by decide)
  refine Modulus.mont_monmult_square form.reduced ?_ v
  rw [form.value, Nat.cast_pow, Nat.cast_ofNat]

private theorem mont_R2 (v : Big) : modP.Mont (modP.monmult v dc_R2) v.toNat :=
  Modulus.mont_monmult_square (by decide) cast_R2 v

namespace Ram

variable {s m : Ram} {yinv tp pt1 pt2 : ℕ} {P : curve.Point}

theorem pointToMon_spec (place : pt1 = pt2 ∨ Separate pt1 pt2) (holds : (m.jpoint pt1).PlainHolds P) :
    ((m.pointToMon pt1 pt2).jpoint pt2).Represents P := by
  have stored : (m.pointToMon pt1 pt2).jpoint pt2 = ⟨modP.monmult (m.big pt1) dc_R2,
      modP.monmult (m.big (pt1 + 4)) dc_R2, modP.monmult (m.big (pt1 + 8)) dc_R2⟩ := by
    rw [Separate] at place
    rcases place with rfl | apart
    all_goals
      simp (disch := omega) only [jpoint, pointToMon, big_putBig, big_putBig_of_apart]
      rfl
  rw [stored]
  exact (Jpoint.Residues.of_mont (mont_R2 _) (mont_R2 _) (mont_R2 _)).represents holds

theorem pointToMon_of_outside {i : ℕ} (outside : i < pt2 ∨ pt2 + 12 ≤ i) : m.pointToMon pt1 pt2 i = m i := by
  simp (disch := omega) only [pointToMon, putBig_of_outside]

/-- The multiplication in place by the inverse of `a`. -/
private theorem rescale {a : modN.Residue} (nonzero : a ≠ 0) (order : addOrderOf P = modN.Pa.toNat)
    (point : (m.jpoint pt1).Represents P) (scalar : modN.Plain (m.big yinv) a) (apart : Separate pt1 tp)
    (aside : Aside yinv pt1) (local_aside : Aside yinv tp) :
    ∃ m', m.dh_point_mult_finalversion tp pt1 yinv pt1 = some m' ∧ Stored m m' pt1 tp (a.val • P) := by
  have value := toNat_plain scalar
  obtain ⟨m', same, stored⟩ := dh_point_mult_finalversion_same order point (value ▸ val_pos nonzero) scalar.reduced
    apart aside local_aside
  rw [value] at stored
  exact ⟨m', same _ agrees_dh_ellipticAdd_JJ, stored⟩

/-! ## The host -/

section Host

variable {hprime Hh y N i : ℕ} {H : ℕ → curve.Point} {mony expy : Big} {b : modN.Residue}

/-- Points of the order of the group in plain coordinates, beside the objects that are written. -/
structure Generators (s : Ram) (yinv tp hprime Hh N : ℕ) (H : ℕ → curve.Point) : Prop where
  order : ∀ i < N, addOrderOf (H i) = modN.Pa.toNat
  points : ∀ i < N, (s.jpoint (Hh + 12 * i)).PlainHolds (H i)
  objects : Objects [(hprime, 12 * N), (Hh, 12 * N), (yinv, 4), (tp, 12)]

/-- In front of the turn `i` the generators below `i` are rescaled, and nothing is written but them and the locals. -/
structure Rescaled (s : Ram) (yinv tp hprime N : ℕ) (H : ℕ → curve.Point) (b : modN.Residue) (i : ℕ) (m : Ram) : Prop where
  scaled : ∀ j < i, (m.jpoint (hprime + 12 * j)).Represents ((b ^ j)⁻¹.val • H j)
  frame : ∀ a, a < hprime ∨ hprime + 12 * N ≤ a → a < yinv ∨ yinv + 4 ≤ a → a < tp ∨ tp + 12 ≤ a → m a = s a

/-- A turn rescales the next generator. -/
private theorem Rescaled.step (generators : Generators s yinv tp hprime Hh N H) (nonzero : b ≠ 0)
    (power : modN.Mont expy (b ^ i))
    (rescaled : Rescaled s yinv tp hprime N H b i m) (inside : i < N) :
    ∃ m', updateGenStep yinv tp hprime Hh mony (m, expy) i = some (m', modN.monmult expy mony) ∧
      Rescaled s yinv tp hprime N H b (i + 1) m' := by
  obtain ⟨order, points, objects⟩ := generators
  simp only [Objects, List.pairwise_cons, List.mem_cons, List.not_mem_nil, or_false, forall_eq_or_imp, forall_eq,
    List.Pairwise.nil, and_true] at objects
  obtain ⟨⟨h_Hh, h_yinv, h_tp⟩, ⟨Hh_yinv, Hh_tp⟩, yinv_tp, -⟩ := objects
  obtain ⟨inv, found, inverse⟩ := power.moninv (pow_ne_zero i nonzero)
  obtain ⟨m₁, store⟩ : ∃ m₁, m₁ = (m.putBig yinv inv).pointToMon (Hh + 12 * i) (hprime + 12 * i) := ⟨_, rfl⟩
  have untouched {a : ℕ} (beside : a < yinv ∨ yinv + 4 ≤ a) (outside : a < hprime + 12 * i ∨ hprime + 12 * i + 12 ≤ a) :
      m₁ a = m a := by
    rw [store, pointToMon_of_outside outside, putBig_of_outside m yinv inv beside]
  have scalar : m₁.big yinv = inv := by
    rw [store, big_congr fun a _ _ => pointToMon_of_outside (by omega), big_putBig]
  have source : ((m.putBig yinv inv).jpoint (Hh + 12 * i)).PlainHolds (H i) := by
    rw [jpoint_congr fun a _ _ => (putBig_of_outside m yinv inv (by omega)).trans
      (rescaled.frame a (by omega) (by omega) (by omega))]
    exact points i inside
  have point : (m₁.jpoint (hprime + 12 * i)).Represents (H i) := by
    rw [store]
    refine pointToMon_spec (.inr ?_) source
    rw [Separate]
    omega
  have apart : Separate (hprime + 12 * i) tp := by
    rw [Separate]
    omega
  have aside : Aside yinv (hprime + 12 * i) := by
    rw [Aside]
    omega
  obtain ⟨m₂, body, stored⟩ := rescale (inv_ne_zero (pow_ne_zero i nonzero)) (order i inside) point (by rwa [scalar])
    apart aside yinv_tp
  refine ⟨m₂, ?_, fun j less => ?_, fun a outside beside beyond => ?_⟩
  · have same : Gpuec.dh_mybig_moninv_modN expy = some inv := found
    rw [updateGenStep]
    simp only [Option.bind_eq_bind, same, Option.bind_some, ← store, body]
    rfl
  · rcases Nat.lt_succ_iff_lt_or_eq.mp less with earlier | rfl
    · have kept : m₂.jpoint (hprime + 12 * j) = m.jpoint (hprime + 12 * j) :=
        jpoint_congr fun a _ _ => (stored.frame a (by omega) (by omega)).trans (untouched (by omega) (by omega))
      rw [kept]
      exact rescaled.scaled j earlier
    · exact stored.point
  · rw [stored.frame a (by omega) beyond, untouched beside (by omega), rescaled.frame a outside beside beyond]

/-- The loop rescales the generators that are left. -/
private theorem Rescaled.run (generators : Generators s yinv tp hprime Hh N H) (nonzero : b ≠ 0)
    (base : modN.Mont mony b) (power : modN.Mont expy (b ^ i)) (rescaled : Rescaled s yinv tp hprime N H b i m)
    (inside : i ≤ N) :
    ∃ r, (List.range' i (N - i)).foldlM (updateGenStep yinv tp hprime Hh mony) (m, expy) = some r ∧
      Rescaled s yinv tp hprime N H b N r.1 := by
  obtain ⟨left, count⟩ := Nat.exists_eq_add_of_le inside
  induction left generalizing i m expy with
  | zero =>
    obtain rfl : N = i := count
    rw [Nat.sub_self]
    exact ⟨_, rfl, rescaled⟩
  | succ left ih =>
    obtain ⟨m₁, turn, next⟩ := Rescaled.step generators nonzero power rescaled (by omega)
    have product := power.mul base
    rw [← pow_succ] at product
    obtain ⟨r, rest, last⟩ := ih product next (by omega) (by omega)
    refine ⟨r, ?_, last⟩
    rw [show N - i = N - (i + 1) + 1 by omega, List.range'_succ, List.foldlM_cons, turn]
    exact rest

/-- The host rescales every list of generators. -/
theorem updateGen_spec (generators : Generators s yinv tp hprime Hh N H) (some : 0 < N)
    (apart : y + 4 ≤ hprime ∨ hprime + 12 * N ≤ y) (nonzero : ((s.big y).toNat : modN.Residue) ≠ 0) :
    ∃ m', updateGen yinv tp hprime Hh s y N = .some m' ∧
      Rescaled s yinv tp hprime N H ((s.big y).toNat : modN.Residue) N m' := by
  have objects := generators.objects
  simp only [Objects, List.pairwise_cons, List.mem_cons, List.not_mem_nil, or_false, forall_eq_or_imp, forall_eq,
    List.Pairwise.nil, and_true] at objects
  obtain ⟨⟨h_Hh, h_yinv, h_tp⟩, -⟩ := objects
  have read : (s.JpointCpy hprime Hh).big y = s.big y :=
    big_congr fun a _ _ => copyPoint_of_outside s (by omega)
  have base := mont_R2modN (s.big y)
  obtain ⟨inv, found, -⟩ := base.moninv nonzero
  obtain ⟨m₁, store⟩ : ∃ m₁, m₁ = ((s.JpointCpy hprime Hh).putBig yinv inv).pointToMon hprime hprime := ⟨_, rfl⟩
  have start : Rescaled s yinv tp hprime N H ((s.big y).toNat : modN.Residue) 1 m₁ := by
    refine ⟨fun j first => ?_, fun a outside beside _ => ?_⟩
    · obtain rfl : j = 0 := by omega
      have one : (1 : modN.Residue).val = 1 := ZMod.val_one _
      rw [pow_zero, inv_one, one, one_nsmul, Nat.mul_zero, Nat.add_zero, store]
      refine pointToMon_spec (.inl rfl) ?_
      have apart : Separate Hh hprime := by
        rw [Separate]
        omega
      rw [jpoint_congr fun a _ _ => putBig_of_outside _ yinv inv (by omega), JpointCpy, jpoint_copyPoint s apart]
      exact generators.points 0 some
    · rw [store, pointToMon_of_outside (by omega), putBig_of_outside _ yinv inv beside, JpointCpy,
        copyPoint_of_outside s (by omega)]
  obtain ⟨r, loop, last⟩ := Rescaled.run generators nonzero base (by rwa [pow_one]) start some
  refine ⟨r.1, ?_, last⟩
  have same : Gpuec.dh_mybig_moninv_modN (modN.monmult (s.big y) h_R2modN) = .some inv := found
  rw [updateGen, read]
  simp only [Option.bind_eq_bind, Gpuec.dh_mybig_monmult_64_modN, same, Option.bind_some, ← store, loop]
  rfl

end Host

/-! ## The device -/

section Device

variable {hprime params xyz N totalN idx : ℕ} {H : ℕ → ℕ → curve.Point} {b : ℕ → modN.Residue}

/-- The generators of all proofs, in plain coordinates, and their challenges, in Montgomery form, beside the objects that
are written. -/
structure Batch (s : Ram) (yinv tp hprime params xyz N totalN : ℕ) (H : ℕ → ℕ → curve.Point) (b : ℕ → modN.Residue) :
    Prop where
  order : ∀ curp < totalN, ∀ i < N, addOrderOf (H curp i) = modN.Pa.toNat
  points : ∀ curp < totalN, ∀ i < N,
    (s.jpoint (params + sizeofParams * curp + offsetHh + 12 * i)).PlainHolds (H curp i)
  challenge : ∀ curp < totalN, modN.Mont (s.big (xyz + curp * 16 + 4)) (b curp)
  nonzero : ∀ curp < totalN, b curp ≠ 0
  sources : ∀ curp < totalN,
    Objects [(hprime, 12 * (totalN * N)), (params + sizeofParams * curp + offsetHh, 12 * N), (yinv, 4), (tp, 12)]
  challenges : ∀ curp < totalN, Objects [(hprime, 12 * (totalN * N)), (xyz + curp * 16 + 4, 4), (yinv, 4), (tp, 12)]

/-- Nothing has been written but the rescaled generators and the locals. -/
def Framed (s : Ram) (yinv tp hprime N totalN : ℕ) (m : Ram) : Prop :=
  ∀ a, a < hprime ∨ hprime + 12 * (totalN * N) ≤ a → a < yinv ∨ yinv + 4 ≤ a → a < tp ∨ tp + 12 ≤ a → m a = s a

/-- The generator `idx` is rescaled, unless there is none. -/
def LaneRescaled (hprime N totalN : ℕ) (H : ℕ → ℕ → curve.Point) (b : ℕ → modN.Residue) (idx : ℕ) (m : Ram) : Prop :=
  idx / N < totalN →
    (m.jpoint (hprime + 12 * idx)).Represents ((b (idx / N) ^ (idx % N))⁻¹.val • H (idx / N) (idx % N))

/-- A thread rescales its generator and leaves the others alone. -/
private theorem kernel_updateGen_thread_spec (batch : Batch s yinv tp hprime params xyz N totalN H b) (some : 0 < N)
    (int : N < 2 ^ 31) (framed : Framed s yinv tp hprime N totalN m) :
    ∃ m', kernel_updateGen_thread yinv tp hprime params xyz N totalN m idx = .some m' ∧
      Framed s yinv tp hprime N totalN m' ∧ LaneRescaled hprime N totalN H b idx m' ∧
      ∀ idx', LaneRescaled hprime N totalN H b idx' m → LaneRescaled hprime N totalN H b idx' m' := by
  rw [kernel_updateGen_thread]
  by_cases outside : idx / N ≥ totalN
  · exact ⟨m, if_pos outside, framed, fun inside => absurd inside (Nat.not_lt.mpr outside), fun _ holds => holds⟩
  rw [if_neg outside]
  have proof : idx / N < totalN := Nat.not_le.mp outside
  have lane : idx % N < N := Nat.mod_lt idx some
  have index (i : ℕ) (inside : i / N < totalN) : i < totalN * N := (Nat.div_lt_iff_lt_mul some).mp inside
  have here := index idx proof
  have sources := batch.sources _ proof
  have challenges := batch.challenges _ proof
  simp only [Objects, List.pairwise_cons, List.mem_cons, List.not_mem_nil, or_false, forall_eq_or_imp, forall_eq,
    List.Pairwise.nil, and_true] at sources challenges
  obtain ⟨⟨h_Hh, h_yinv, h_tp⟩, ⟨Hh_yinv, Hh_tp⟩, yinv_tp, -⟩ := sources
  obtain ⟨⟨h_y, -, -⟩, ⟨y_yinv, y_tp⟩, -⟩ := challenges
  -- the power and its inverse
  have read : m.big (xyz + idx / N * 16 + 4) = s.big (xyz + idx / N * 16 + 4) :=
    big_congr fun a _ _ => framed a (by omega) (by omega) (by omega)
  obtain ⟨mony, raised, power⟩ := mont_ONE_modN.modexp_ui32 (batch.challenge _ proof) (.ofNat (idx % N))
  rw [UInt32.toNat_ofNat_of_lt' (by rw [UInt32.size]; omega)] at power
  have nonzero := pow_ne_zero (idx % N) (batch.nonzero _ proof)
  obtain ⟨inv, found, inverse⟩ := power.moninv nonzero
  -- the generator in Montgomery form
  have source : (m.jpoint (params + sizeofParams * (idx / N) + offsetHh + 12 * (idx % N))).PlainHolds
      (H (idx / N) (idx % N)) := by
    rw [jpoint_congr fun a _ _ => framed a (by omega) (by omega) (by omega)]
    exact batch.points _ proof _ lane
  obtain ⟨m₁, store⟩ : ∃ m₁, m₁ = (m.pointToMon (params + sizeofParams * (idx / N) + offsetHh + 12 * (idx % N))
      (hprime + 12 * idx)).putBig yinv inv := ⟨_, rfl⟩
  have untouched {a : ℕ} (beside : a < yinv ∨ yinv + 4 ≤ a) (outside : a < hprime + 12 * idx ∨ hprime + 12 * idx + 12 ≤ a) :
      m₁ a = m a := by
    rw [store, putBig_of_outside _ yinv inv beside, pointToMon_of_outside outside]
  have scalar : m₁.big yinv = inv := by
    rw [store, big_putBig]
  have point : (m₁.jpoint (hprime + 12 * idx)).Represents (H (idx / N) (idx % N)) := by
    rw [store, jpoint_congr fun a _ _ => putBig_of_outside _ yinv inv (by omega)]
    refine pointToMon_spec (.inr ?_) source
    rw [Separate]
    omega
  have apart : Separate (hprime + 12 * idx) tp := by
    rw [Separate]
    omega
  have aside : Aside yinv (hprime + 12 * idx) := by
    rw [Aside]
    omega
  obtain ⟨m₂, body, stored⟩ := rescale (inv_ne_zero nonzero) (batch.order _ proof _ lane) point (by rwa [scalar])
    apart aside yinv_tp
  refine ⟨m₂, ?_, fun a outside beside beyond => ?_, fun _ => stored.point, fun idx' holds inside => ?_⟩
  · have same : Gpuec.dh_mybig_moninv_modN mony = .some inv := found
    simp only [Option.bind_eq_bind, read, raised, same, Option.bind_some, ← store]
    exact body
  · rw [stored.frame a (by omega) beyond, untouched beside (by omega), framed a outside beside beyond]
  · rcases eq_or_ne idx' idx with rfl | other
    · exact stored.point
    · have there := index idx' inside
      have kept : m₂.jpoint (hprime + 12 * idx') = m.jpoint (hprime + 12 * idx') :=
        jpoint_congr fun a _ _ => (stored.frame a (by omega) (by omega)).trans (untouched (by omega) (by omega))
      rw [kept]
      exact holds inside

/-- Every launch that has a thread for each generator rescales all of them, in whatever order its threads run. -/
theorem kernel_updateGen_spec (batch : Batch s yinv tp hprime params xyz N totalN H b) (some : 0 < N) (int : N < 2 ^ 31)
    {blockDim : ℕ} {threads : List (ℕ × ℕ)}
    (covers : ∀ idx < totalN * N, ∃ thread ∈ threads, thread.1 * blockDim + thread.2 = idx) :
    ∃ m', kernel_updateGen yinv tp hprime params xyz N totalN blockDim threads s = .some m' ∧ ∀ curp < totalN, ∀ i < N,
      (m'.jpoint (hprime + 12 * (curp * N + i))).Represents ((b curp ^ i)⁻¹.val • H curp i) := by
  have loop : ∃ m', threads.foldlM (fun m thread =>
      kernel_updateGen_thread yinv tp hprime params xyz N totalN m (thread.1 * blockDim + thread.2)) s = .some m' ∧
      ∀ thread ∈ threads, LaneRescaled hprime N totalN H b (thread.1 * blockDim + thread.2) m' := by
    apply Loops.foldlM_covers (I := Framed s yinv tp hprime N totalN)
      (R := fun thread : ℕ × ℕ => LaneRescaled hprime N totalN H b (thread.1 * blockDim + thread.2))
    · intro thread _ m framed
      obtain ⟨m', turn, kept, here, others⟩ := kernel_updateGen_thread_spec batch some int framed
      exact ⟨m', turn, kept, here, fun other => others _⟩
    · exact fun _ _ _ _ => rfl
  obtain ⟨m', ends, all⟩ := loop
  refine ⟨m', ends, fun curp proof i lane => ?_⟩
  have inside : curp * N + i < totalN * N := by
    have next := Nat.mul_le_mul_right N (Nat.succ_le_of_lt proof)
    rw [Nat.succ_mul] at next
    omega
  obtain ⟨thread, member, index⟩ := covers _ inside
  have quotient : (curp * N + i) / N = curp := by
    rw [Nat.mul_comm, Nat.mul_add_div some, Nat.div_eq_of_lt lane, Nat.add_zero]
  have remainder : (curp * N + i) % N = i := by
    rw [Nat.mul_comm, Nat.mul_add_mod, Nat.mod_eq_of_lt lane]
  have rescaled := all thread member
  rw [index] at rescaled
  have result := rescaled (by rwa [quotient])
  rwa [quotient, remainder] at result

/-- The launch has a thread for each generator. -/
private theorem updateGenBlocks_cover {n N_DATA : ℕ} (some : 0 < n) (block : n ≤ 256) (inside : idx < N_DATA * n) :
    idx / 256 < updateGenBlocks n N_DATA := by
  have positive : 0 < 256 / n := Nat.div_pos block some
  have proofs : N_DATA ≤ updateGenBlocks n N_DATA * (256 / n) := by
    have remainder := Nat.div_add_mod (N_DATA + 256 / n - 1) (256 / n)
    have small := Nat.mod_lt (N_DATA + 256 / n - 1) positive
    rw [← updateGenBlocks, Nat.mul_comm] at remainder
    omega
  rw [Nat.div_lt_iff_lt_mul (by decide)]
  calc idx < N_DATA * n := inside
    _ ≤ updateGenBlocks n N_DATA * (256 / n) * n := Nat.mul_le_mul_right n proofs
    _ = updateGenBlocks n N_DATA * (256 / n * n) := Nat.mul_assoc ..
    _ ≤ updateGenBlocks n N_DATA * 256 := Nat.mul_le_mul_left _ (Nat.div_mul_le_self 256 n)

/-- `gpu_updateGen` rescales all generators, as long as those of a proof fit into a block. -/
theorem gpu_updateGen_spec (batch : Batch s yinv tp hprime params xyz N totalN H b) (some : 0 < N) (block : N ≤ 256)
    {threads : List (ℕ × ℕ)} (launched : ∀ bx < updateGenBlocks N totalN, ∀ tx < 256, (bx, tx) ∈ threads) :
    ∃ m', gpu_updateGen yinv tp hprime params xyz N totalN threads s = .some m' ∧ ∀ curp < totalN, ∀ i < N,
      (m'.jpoint (hprime + 12 * (curp * N + i))).Represents ((b curp ^ i)⁻¹.val • H curp i) := by
  apply kernel_updateGen_spec batch some (by omega)
  intro idx inside
  have member := launched _ (updateGenBlocks_cover some block inside) _ (Nat.mod_lt idx (by decide))
  exact ⟨_, member, Nat.div_add_mod' idx 256⟩

end Device

/-- The host and the device leave the generator `i`, also the first one, multiplied by `y ^ -i`, in Montgomery form. -/
theorem generator_rescaling (s : Ram) (yinv tp hprime N : ℕ) :
    (∀ Hh y H, Generators s yinv tp hprime Hh N H → y + 4 ≤ hprime ∨ hprime + 12 * N ≤ y →
      ((s.big y).toNat : modN.Residue) ≠ 0 → ∀ i < N, ∃ m', updateGen yinv tp hprime Hh s y N = some m' ∧
        (m'.jpoint (hprime + 12 * i)).Represents ((((s.big y).toNat : modN.Residue) ^ i)⁻¹.val • H i)) ∧
    ∀ params xyz totalN H b blockDim threads, Batch s yinv tp hprime params xyz N totalN H b → N < 2 ^ 31 →
      (∀ idx < totalN * N, ∃ thread ∈ threads, thread.1 * blockDim + thread.2 = idx) →
      ∀ curp < totalN, ∀ i < N,
        ∃ m', kernel_updateGen yinv tp hprime params xyz N totalN blockDim threads s = some m' ∧
          (m'.jpoint (hprime + 12 * (curp * N + i))).Represents ((b curp ^ i)⁻¹.val • H curp i) := by
  constructor
  · intro Hh y H generators apart nonzero i inside
    obtain ⟨m', ends, rescaled⟩ := updateGen_spec generators (Nat.zero_lt_of_lt inside) apart nonzero
    exact ⟨m', ends, rescaled.scaled i inside⟩
  · intro params xyz totalN H b blockDim threads batch int covers curp proof i lane
    obtain ⟨m', ends, rescaled⟩ := kernel_updateGen_spec batch (Nat.zero_lt_of_lt lane) int covers
    exact ⟨m', ends, rescaled curp proof i lane⟩

/-- The base point in plain coordinates. -/
private def plainBase : Jpoint where
  x := ⟨0x59f2815b16f81798, 0x029bfcdb2dce28d9, 0x55a06295ce870b07, 0x79be667ef9dcbbac⟩
  y := ⟨0x9c47d08ffb10d4b8, 0xfd17b448a6855419, 0x5da4fbfc0e1108a8, 0x483ada7726a3c465⟩
  z := ⟨1, 0, 0, 0⟩

private theorem plainBase_holds : plainBase.PlainHolds basePoint := by
  have abscissa : plainBase.x.toNat = 55066263022277343669578718895168534326250603453777594175500187360389116729240 := by
    decide
  have ordinate : plainBase.y.toNat = 32670510020758816978083085130507043184471273380659243275938904335757337482424 := by
    decide
  have one : plainBase.z.toNat = 1 := rfl
  rw [Jpoint.PlainHolds, abscissa, ordinate, one, Nat.cast_one]
  refine ⟨one_ne_zero, ?_, ?_⟩
  · rw [one_pow, mul_one]
    exact Nat.cast_ofNat
  · rw [one_pow, mul_one]
    exact Nat.cast_ofNat

/-- The base point twice from address 409 on, and the number two at address 436 and in Montgomery form at address 444. -/
def twoGenerators : Ram := fun i =>
  if 409 ≤ i ∧ i < 433 then [0x59f2815b16f81798, 0x029bfcdb2dce28d9, 0x55a06295ce870b07, 0x79be667ef9dcbbac,
    0x9c47d08ffb10d4b8, 0xfd17b448a6855419, 0x5da4fbfc0e1108a8, 0x483ada7726a3c465, 1, 0, 0, 0].getD ((i - 409) % 12) 0
  else if i = 436 then 2
  else if 444 ≤ i ∧ i < 448 then [0x805b42e65f937d7e, 0x8aa24632a16ebf88, 2, 0].getD (i - 444) 0
  else 0

private theorem twoGenerators_points {i : ℕ} (inside : i < 2) :
    (twoGenerators.jpoint (409 + 12 * i)).PlainHolds basePoint := by
  have same : twoGenerators.jpoint (409 + 12 * i) = plainBase := by
    interval_cases i
    all_goals rfl
  rw [same]
  exact plainBase_holds

theorem generator_rescaling_two :
    (∃ m', updateGen 450 460 480 409 twoGenerators 436 2 = some m' ∧
      (m'.jpoint 492).Represents (((2 : ℕ) ^ 1 : modN.Residue)⁻¹.val • basePoint)) ∧
    ∃ m', kernel_updateGen 450 460 480 0 440 2 1 2 [(0, 1), (0, 0)] twoGenerators = some m' ∧
      (m'.jpoint 492).Represents (((2 : ℕ) ^ 1 : modN.Residue)⁻¹.val • basePoint) := by
  obtain ⟨host, device⟩ := generator_rescaling twoGenerators 450 460 480 2
  have two : ((2 : ℕ) : modN.Residue) ≠ 0 := by
    rw [ne_eq, ZMod.natCast_eq_zero_iff]
    decide
  constructor
  · refine host 409 436 (fun _ => basePoint) ⟨fun _ _ => addOrderOf_basePoint, fun i inside => ?_, by decide⟩ (by decide)
      two 1 (by decide)
    exact twoGenerators_points inside
  · refine device 0 440 1 (fun _ _ => basePoint) (fun _ => (2 : ℕ)) 2 [(0, 1), (0, 0)] ?_ (by decide) (by decide) 0
      (by decide) 1 (by decide)
    refine ⟨fun _ _ _ _ => addOrderOf_basePoint, fun curp first i inside => ?_, fun curp first => ?_, fun _ _ => two,
      by decide, by decide⟩
    · obtain rfl : curp = 0 := Nat.lt_one_iff.mp first
      exact twoGenerators_points inside
    · obtain rfl : curp = 0 := Nat.lt_one_iff.mp first
      exact Modulus.mont_natCast_iff.mpr (by decide)

end Ram

end DbcSnark.Gpuec
