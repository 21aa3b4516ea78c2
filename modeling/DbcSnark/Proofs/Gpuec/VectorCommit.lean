import DbcSnark.Proofs.Gpuec.RangeVerify

/-! # Completeness of the vector commitments

`kernel_calP` forms the commitment to the vectors `l` and `r` from the commitments `A` and `S` and the challenges, and
`kernel_calP67` from the vectors themselves. Both trees of `kernel_calP` and `kernel_cal_S` are the same on the even cells
and on all cells.
-/

namespace DbcSnark.Gpuec

open Modulus (Mont Plain)

namespace RangeVerify

open RangeArgument RangeProof

variable {J : Type} {A : Type*} [AddCommGroup A] [Module modN.Residue A] {ops : JpointOps J} {mon plain : J → A → Prop}
  {G H : A} {x y z : modN.Residue} {xyz : ℕ → Big} {prove : BPProve J}

/-- The lane `tx` works on the cell `tx * 2`, so a round takes in the cells of a tree over all 64 cells. -/
private theorem calPRound_eq {i : ℕ} : calPRound ops i = Reduction.merge ops.dh_ellipticAdd_JJ 64 i := by
  funext sh c
  rw [calPRound, Reduction.merge]
  refine if_congr ?_ rfl rfl
  constructor
  · rintro ⟨even, below, aligned⟩
    obtain ⟨k, rfl⟩ := Nat.dvd_of_mod_eq_zero even
    rw [Nat.mul_div_cancel_left k (by decide)] at below aligned
    exact ⟨by omega, by rw [Nat.mul_mod_mul_left, aligned, Nat.mul_zero]⟩
  · rintro ⟨below, aligned⟩
    obtain ⟨k, rfl⟩ : 2 ∣ c := (Dvd.intro i rfl).trans (Nat.dvd_of_mod_eq_zero aligned)
    rw [Nat.mul_mod_mul_left] at aligned
    rw [Nat.mul_div_cancel_left k (by decide)]
    omega

variable {g h' : ℕ → A}

private theorem mont_zero : modN.Mont 0 0 := by
  have form : modN.Mont 0 ((0 : ℕ) : modN.Residue) := Modulus.mont_natCast_iff.mpr (by decide)
  rwa [Nat.cast_zero] at form

private theorem calPLane_spec (points : ops.Interprets mon plain G) (challenges : Challenges xyz x y z) {z2 : Big}
    (square : modN.Mont z2 (z * z)) {curhprime : ℕ → J} {tx : ℕ} (inside : tx < 32) (rescaled : mon (curhprime tx) (h' tx)) :
    ∃ p, calPLane ops xyz curhprime (xyz 2) z2 tx = some p ∧ mon p ((z * y ^ tx + z ^ 2 * 2 ^ tx) • h' tx) := by
  have index : (UInt32.ofNat tx).toNat = tx := UInt32.toNat_ofNat_of_lt' (by rw [UInt32.size]; omega)
  obtain ⟨t1, raised, power⟩ := Ram.mont_ONE_modN.modexp_ui32 challenges.y (.ofNat tx)
  obtain ⟨t2, raised', power'⟩ := Ram.mont_ONE_modN.modexp_ui32 mont_TWO_modN (.ofNat tx)
  rw [index] at power power'
  refine ⟨_, by rw [calPLane, raised, raised']; rfl, ?_⟩
  rw [mul_comm z, sq, mul_comm (z * z)]
  exact points.mult_mont rescaled ((power.mul challenges.z).add (power'.mul square))

theorem calPBlock_spec (points : ops.Interprets mon plain G) {param : BPSetupParams J} {curhprime : ℕ → J} {P Q : A}
    (challenges : Challenges xyz x y z) (Gg : ∀ i < 32, mon (param.Gg i) (g i))
    (rescaled : ∀ i < 32, mon (curhprime i) (h' i))
    (A_point : mon prove.A P) (S_point : mon prove.S Q) (sh : ℕ → J) :
    ∃ R, calPBlock ops param xyz curhprime prove sh = some R ∧
      plain R (∑ i ∈ Finset.range 32, (-z) • g i + ∑ i ∈ Finset.range 32, (z * y ^ i + z ^ 2 * 2 ^ i) • h' i + P +
        x • Q) := by
  unfold calPBlock
  extract_lets x₁ z₁ mz mz' z2 sh₁ x' sh1
  have square : modN.Mont z2 (z * z) := challenges.z.mul challenges.z
  have minus : modN.Mont mz (-z) := by
    rw [← zero_sub]
    exact mont_zero.sub challenges.z
  obtain ⟨sh₂, stored, second, same⟩ := @Lanes.storeM_spec _ 32 32 sh₁ _
    (fun i p => mon p ((z * y ^ i + z ^ 2 * 2 ^ i) • h' i))
    fun i inside => calPLane_spec points challenges square inside (rescaled i inside)
  rw [stored, Option.bind_eq_bind, Option.bind_some]
  have cells : ∀ c < 64, mon (sh₂ c) (if c < 32 then (-z) • g c
      else (z * y ^ (c - 32) + z ^ 2 * 2 ^ (c - 32)) • h' (c - 32)) := by
    intro c inside
    split
    · rw [same c (by omega), show sh₁ = Lanes.store 32 0 _ sh from rfl, Lanes.store_first ‹_›]
      exact points.mult_mont (Gg c ‹_›) minus
    · obtain ⟨i, rfl⟩ := Nat.exists_eq_add_of_le (Nat.not_lt.mp ‹_›)
      rw [Nat.add_sub_cancel_left]
      exact second i (by omega)
  have sums : ∀ p q P Q, mon p P → mon q Q → mon (ops.dh_ellipticAdd_JJ p q) (P + Q) :=
    fun _ _ _ _ left right => points.add left right
  have tree := Reduction.foldl_merge sums 6 sh₂ _ cells
  rw [show 2 ^ 6 = 32 + 32 from rfl,
    sum_halves 32 (fun i => (-z) • g i) fun i => (z * y ^ i + z ^ 2 * 2 ^ i) • h' i] at tree
  refine ⟨_, rfl, points.from_mon (points.add (points.add ?_ A_point) (points.mult_mont S_point challenges.x))⟩
  simp only [calPRound_eq]
  exact tree

theorem calPBlock_total (param : BPSetupParams J) (xyz : ℕ → Big) (curhprime : ℕ → J) (prove : BPProve J)
    (sh : ℕ → J) : ∃ v, calPBlock ops param xyz curhprime prove sh = some v := by
  unfold calPBlock
  extract_lets x₁ z₁ mz mz' z2 sh₁ x' sh1
  have lanes : ∀ tx < 32, ∃ p, calPLane ops xyz curhprime z₁ z2 tx = some p ∧ True := by
    intro tx _
    obtain ⟨t1, raised⟩ := modN.modexp_ui32_total dc_mon_ONE_modN (xyz 1) (.ofNat tx)
    obtain ⟨t2, raised'⟩ := modN.modexp_ui32_total dc_mon_ONE_modN dc_mon_TWO_modN (.ofNat tx)
    exact ⟨_, by rw [calPLane, raised, raised']; rfl, trivial⟩
  obtain ⟨sh₂, stored, -, -⟩ := @Lanes.storeM_spec _ 32 32 sh₁ _ (fun _ _ => True) lanes
  rw [stored]
  exact ⟨_, rfl⟩

section Completeness

variable {setup : BPSetupParams J} {g' : ℕ → A} {rand : InitParamR} {rounds m : ℕ} {VLR : ℕ → Big}
  {params : ℕ → BPSetupParams J} {proves : ℕ → BPProve J} {d_xyz : ℕ → Big} {hprime commits : ℕ → J} {idx nB : ℕ}
  {l r : ℕ → modN.Residue}

/-- The terms of `SR` that a commitment `S` lacks when the second warp has taken some rounds only. -/
theorem commit_gathered (few : rounds ≤ 5) (blind : modN.Residue) (sl sr : ℕ → modN.Residue) :
    commit 32 blind H sl sr g g' =
      commit 32 blind H sl (gathered rounds sr) g g' + ∑ i ∈ Finset.Ico (2 ^ rounds) 32, sr i • g' i := by
  have fewer : 2 ^ rounds ≤ 32 := Nat.pow_le_pow_right two_pos few
  rw [commit, commit, sum_gathered few, ← Finset.sum_range_add_sum_Ico (fun i => sr i • g' i) fewer]
  abel

/-- After five rounds of the second warp nothing is left out. -/
theorem commit_gathered_five (blind : modN.Residue) (sl sr : ℕ → modN.Residue) :
    commit 32 blind H sl (gathered 5 sr) g g' = commit 32 blind H sl sr g g' := by
  rw [commit_gathered le_rfl blind sl sr, Finset.Ico_eq_empty (by norm_num), Finset.sum_empty, add_zero]

/-- The sides of the equation 66 differ by what `S` lacks. -/
theorem equation66 (points : ops.Interprets mon plain G) (generators : Setup mon (params idx) H g g') (few : rounds ≤ 5)
    (honest : Honest mon G H g g' rand rounds m x y z (proves idx) VLR)
    (challenges : Challenges (fun i => d_xyz (idx * 4 + i)) x y z)
    (rescaled : ∀ i < 32, mon (hprime (idx * 32 + i)) (h' i)) (scale : ∀ i < 32, y ^ i • h' i = g' i)
    (commitment : mon (commits idx) (∑ i ∈ Finset.range 32, left (bitsL m) (residues rand.SL) x z i • g i +
      ∑ i ∈ Finset.range 32, right (bitsR m) (residues rand.SR) x y z i • h' i))
    (inside : idx < nB) (res res' : ℕ → J) (sh : ℕ → ℕ → J) :
    ∃ out, kernel_calP ops res params d_xyz hprime proves nB sh = some out ∧
      (∀ P Q, mon (proves idx).A P → mon (proves idx).S Q → plain (out idx) (∑ i ∈ Finset.range 32, (-z) • g i +
        ∑ i ∈ Finset.range 32, (z * y ^ i + z ^ 2 * 2 ^ i) • h' i + P + x • Q)) ∧
      ∃ X, plain (out idx) X ∧ plain (kernel_calP67 ops res' commits params proves nB idx)
        (X + x • ∑ i ∈ Finset.Ico (2 ^ rounds) 32, residues rand.SR i • g' i) := by
  obtain ⟨R, block, from_challenges⟩ := calPBlock_spec points challenges generators.Gg rescaled honest.A honest.S (sh idx)
  obtain ⟨out, stored, cell⟩ := @storeM_block _ _ _ _ res _ inside
    (fun bx _ => calPBlock_total (params bx) (fun i => d_xyz (bx * 4 + i)) (fun i => hprime (bx * 32 + i)) (proves bx)
    (sh bx))
    block
  have from_vectors := points.from_mon (points.add (points.mult (proves idx).Mu generators.H) commitment)
  rw [nsmul_plain honest.Mu] at from_vectors
  refine ⟨out, stored, fun P Q A_point S_point => ?_, _, cell ▸ from_challenges, ?_⟩
  · obtain ⟨R', same, described⟩ := calPBlock_spec points challenges generators.Gg rescaled A_point S_point (sh idx)
    rw [block] at same
    rwa [cell, Option.some.inj same]
  rw [kernel_calP67, Lanes.store_first inside]
  convert from_vectors using 1
  have identity := commit_left_right (bitsL m) (bitsR m) (residues rand.SL) (residues rand.SR) x y z
    rand.alpha.toNat rand.rho.toNat H (g := g) scale
  rw [commit_gathered few (rand.rho.toNat : modN.Residue) (residues rand.SL) (residues rand.SR)] at identity
  calc _ = commit 32 (rand.alpha.toNat : modN.Residue) H (bitsL m) (bitsR m) g g' +
          x • (commit 32 (rand.rho.toNat : modN.Residue) H (residues rand.SL)
            (gathered rounds (residues rand.SR)) g g' + ∑ i ∈ Finset.Ico (2 ^ rounds) 32, residues rand.SR i • g' i) +
          ∑ i ∈ Finset.range 32, (-z) • g i + ∑ i ∈ Finset.range 32, (z * y ^ i + z ^ 2 * 2 ^ i) • h' i := by
            rw [smul_add]
            abel
    _ = _ := identity
    _ = _ := by rw [commit, add_assoc]

/-- The inner product of the vectors, in Montgomery form. -/
theorem kernel_calip68_spec {blr : ℕ → Big} {l r : ℕ → modN.Residue} (lefts : Holds (fun c => blr (idx * 64 + c)) 0 l)
    (rights : Holds (fun c => blr (idx * 64 + c)) 32 r) (inside : idx < nB) :
    modN.Mont (kernel_calip68 blr nB (idx * 64)) (∑ i ∈ Finset.range 32, l i * r i) := by
  have products : Holds (Lanes.store 32 0
    (fun tx => dh_mybig_monmult_64_modN (blr (idx * 64 + tx)) (blr (idx * 64 + (tx + 32))))
      (fun c => blr (idx * 64 + c))) 0 (fun i => l i * r i) := by
    refine Holds.stored fun i below => (lefts.lane below).mul ?_
    rw [Nat.add_comm i]
    exact rights i below
  have block : idx * 64 / 64 = idx := Nat.mul_div_cancel idx (by decide)
  rw [kernel_calip68, block, if_pos inside, Nat.mul_mod_left]
  exact products.reduce_sum

end Completeness

theorem groupJpoints_interprets {A : Type} [AddCommGroup A] (G : A) (hash : A → A → Big × Big) :
    (groupJpoints G hash).Interprets Eq Eq G := by
  refine ⟨rfl, ?_, ?_, fun _ => rfl, ?_, fun same => same, fun same => same⟩
  · rintro p q _ _ rfl rfl
    rfl
  · rintro p _ k rfl
    rfl
  · rintro p _ rfl
    rfl

section Check

variable {A : Type} [AddCommGroup A] [Module modN.Residue A] {G : A} {hash : A → A → Big × Big} {setup : BPSetupParams A}
  {rand : InitParamR} {rounds m : ℕ} {prove : BPProve A} {VLR : ℕ → Big} {params : ℕ → BPSetupParams A}
  {proves : ℕ → BPProve A} {d_xyz : ℕ → Big} {hprime commits : ℕ → A} {idx nB : ℕ}

/-- What the verifier finds on both sides for a proof whose `S` has been made with the given rounds of the second warp. -/
private theorem commitments_of_honest (few : rounds ≤ 5)
    (honest : Honest Eq G setup.H setup.Gg setup.Hh rand rounds m x y z prove VLR) (invertible : y ≠ 0) (inside : idx < nB)
    (same : params idx = setup) (sent : proves idx = BPProve_to_mon (groupJpoints G hash) prove)
    (batch : Challenges (fun i => d_xyz (idx * 4 + i)) x y z)
    (rescaled : ∀ i < 32, hprime (idx * 32 + i) = (y ^ i)⁻¹.val • setup.Hh i)
    (commitment : commits idx = ∑ i ∈ Finset.range 32, (left (bitsL m) (residues rand.SL) x z i).val • setup.Gg i +
      ∑ i ∈ Finset.range 32, (right (bitsR m) (residues rand.SR) x y z i).val • hprime (idx * 32 + i))
    (res res' : ℕ → A) (sh : ℕ → ℕ → A) :
    ∃ out, kernel_calP (groupJpoints G hash) res params d_xyz hprime proves nB sh = some out ∧
      out idx = prove.A + x.val • prove.S - ∑ i ∈ Finset.range 32, z.val • setup.Gg i +
        ∑ i ∈ Finset.range 32, (z * y ^ i + z ^ 2 * 2 ^ i).val • hprime (idx * 32 + i) ∧
      kernel_calP67 (groupJpoints G hash) res' commits params proves nB idx = prove.Mu.toNat • setup.H + commits idx ∧
      (out idx = prove.Mu.toNat • setup.H + commits idx ↔
        x.val • ∑ i ∈ Finset.Ico (2 ^ rounds) 32, (rand.SR i).toNat • setup.Hh i = 0) := by
  have points := groupJpoints_interprets G hash
  have generators : Setup Eq (params idx) setup.H setup.Gg setup.Hh := by
    rw [same]
    exact ⟨rfl, fun _ _ => rfl, fun _ _ => rfl⟩
  have taken := received points honest
  rw [← sent] at taken
  have vectors : kernel_calP67 (groupJpoints G hash) res' commits params proves nB idx =
      prove.Mu.toNat • setup.H + commits idx := by
    rw [kernel_calP67, Lanes.store_first inside, same, sent]
    rfl
  simp only [val_nsmul] at rescaled commitment ⊢
  have scale : ∀ i < 32, y ^ i • hprime (idx * 32 + i) = setup.Hh i := by
    intro i below
    rw [rescaled i below, smul_smul, mul_inv_cancel₀ (pow_ne_zero i invertible), one_smul]
  obtain ⟨out, ends, described, X, from_challenges, from_vectors⟩ := equation66 points generators few taken batch
    (fun i _ => rfl) scale commitment inside res res' sh
  refine ⟨out, ends, ?_, vectors, ?_⟩
  · have point := described prove.A prove.S (by rw [sent]; rfl) (by rw [sent]; rfl)
    simp only [neg_smul, Finset.sum_neg_distrib] at point
    rw [point]
    abel
  · have lacking : ∑ i ∈ Finset.Ico (2 ^ rounds) 32, residues rand.SR i • setup.Hh i =
        ∑ i ∈ Finset.Ico (2 ^ rounds) 32, (rand.SR i).toNat • setup.Hh i :=
      Finset.sum_congr rfl fun i _ => Nat.cast_smul_eq_nsmul ..
    rw [lacking, vectors] at from_vectors
    rw [from_vectors, from_challenges, left_eq_add]

end Check

/-- On the proof of any number, for any randomness and challenges, `kernel_calP` and `kernel_calP67` find the same point if
and only if the terms of `SR` that the lane 0 of `kernel_cal_S` did not wait for make no difference, and `kernel_calip68`
finds the inner product that the prover sent. -/
theorem vector_commitment_check_iff {A : Type} [AddCommGroup A] (order : Nat.card A = modN.Pa.toNat) (G : A)
    (hash : A → A → Big × Big) (setup : BPSetupParams A) (rand : InitParamR) {v : ℤ} (nonnegative : 0 ≤ v) (int : v < 2 ^ 31)
    {x y z : modN.Residue} (invertible : y ≠ 0) {xyz : ℕ → Big} (challenges : Challenges xyz x y z) (pace : Warps.Order 2 6)
    (old : Garbage A) :
    ∃ prove VLR l r, RangeProof.main (groupJpoints G hash) pace setup rand v xyz old = some (prove, VLR) ∧
      Holds VLR 0 l ∧ Holds VLR 32 r ∧
      ∀ (params : ℕ → BPSetupParams A) (proves : ℕ → BPProve A) (d_xyz blr : ℕ → Big) (hprime commits res res' : ℕ → A)
        (sh : ℕ → ℕ → A) (idx nB : ℕ), idx < nB → params idx = setup →
        proves idx = BPProve_to_mon (groupJpoints G hash) prove → Challenges (fun i => d_xyz (idx * 4 + i)) x y z →
        (∀ i < 32, hprime (idx * 32 + i) = (y ^ i)⁻¹.val • setup.Hh i) →
        commits idx = ∑ i ∈ Finset.range 32, (l i).val • setup.Gg i +
          ∑ i ∈ Finset.range 32, (r i).val • hprime (idx * 32 + i) →
        Holds (fun c => blr (idx * 64 + c)) 0 l → Holds (fun c => blr (idx * 64 + c)) 32 r →
          (∃ out, kernel_calP (groupJpoints G hash) res params d_xyz hprime proves nB sh = some out ∧
            out idx = prove.A + x.val • prove.S - ∑ i ∈ Finset.range 32, z.val • setup.Gg i +
              ∑ i ∈ Finset.range 32, (z * y ^ i + z ^ 2 * 2 ^ i).val • hprime (idx * 32 + i) ∧
            kernel_calP67 (groupJpoints G hash) res' commits params proves nB idx =
              prove.Mu.toNat • setup.H + commits idx ∧
            (out idx = prove.Mu.toNat • setup.H + commits idx ↔
              x.val • ∑ i ∈ Finset.Ico (2 ^ roundsRead pace) 32, (rand.SR i).toNat • setup.Hh i = 0)) ∧
          ∃ t, modN.Mont (kernel_calip68 blr nB (idx * 64)) t ∧ modN.Plain prove.Tprime t := by
  obtain ⟨m, rfl⟩ := Int.eq_ofNat_of_zero_le nonnegative
  let _ : Module modN.Residue A := AddCommGroup.zmodModule fun a => by
    rw [← order]
    exact card_nsmul_eq_zero'
  have small : m < 2 ^ 31 := by omega
  have generators : Setup Eq setup setup.H setup.Gg setup.Hh := ⟨rfl, fun _ _ => rfl, fun _ _ => rfl⟩
  obtain ⟨prove, VLR, made, honest⟩ := main_spec (groupJpoints_interprets G hash) generators small challenges pace old
  refine ⟨prove, VLR, _, _, made, honest.lefts, honest.rights, ?_⟩
  intro params proves d_xyz blr hprime commits res res' sh idx nB inside same sent batch rescaled commitment lefts rights
  refine ⟨?_, _, kernel_calip68_spec lefts rights inside, honest.Tprime⟩
  exact commitments_of_honest (roundsRead_le pace) honest invertible inside same sent batch rescaled commitment res res' sh

private def oneSetup : BPSetupParams modN.Residue := ⟨1, 1, 32, fun _ => 1, fun _ => 1, 0, 0, 1, 1⟩

private def oneGarbage : Garbage modN.Residue := ⟨fun _ => 0, fun _ => 0, fun _ => 0, fun _ => 0, fun _ => 0, fun _ => 0⟩

private theorem natCast_ne_zero {k : ℕ} (positive : 0 < k) (small : k < 2 ^ 32) : (k : modN.Residue) ≠ 0 := by
  rw [Ne, ZMod.natCast_eq_zero_iff]
  exact Nat.not_dvd_of_pos_of_lt positive (small.trans (by decide))

private theorem two_ne_zero_modN : (2 : modN.Residue) ≠ 0 := by
  exact_mod_cast natCast_ne_zero two_pos (by norm_num)

theorem vector_commitment_check_iff_one : ∃ prove VLR hprime commits out,
    RangeProof.main (groupJpoints 1 fun _ _ => (0, 0)) inStep oneSetup unitRandom 1 unitXyz oneGarbage = some (prove, VLR) ∧
      kernel_calP (groupJpoints 1 fun _ _ => (0, 0)) (fun _ => 0) (fun _ => oneSetup) unitXyz hprime (fun _ => prove) 1
        (fun _ _ => 0) = some out ∧
      out 0 = kernel_calP67 (groupJpoints 1 fun _ _ => (0, 0)) (fun _ => 0) commits (fun _ => oneSetup)
        (fun _ => prove) 1 0 ∧
      ∃ t, modN.Mont (kernel_calip68 VLR 1 0) t ∧ modN.Plain prove.Tprime t := by
  obtain ⟨prove, VLR, l, r, made, lefts, rights, check⟩ :=
    vector_commitment_check_iff (Nat.card_zmod _) 1 (fun _ _ => (0, 0))
    oneSetup unitRandom zero_le_one (by norm_num) two_ne_zero_modN unitXyz_challenges inStep oneGarbage
  have window : (fun c => VLR (0 * 64 + c)) = VLR := funext fun c => by rw [Nat.zero_mul, Nat.zero_add]
  obtain ⟨⟨out, ends, -, vectors, agree⟩, inner⟩ := check (fun _ => oneSetup) (fun _ => prove) unitXyz VLR
    (fun i => (2 ^ i : modN.Residue)⁻¹.val • 1) (fun _ => ∑ i ∈ Finset.range 32, (l i).val • 1 +
      ∑ i ∈ Finset.range 32, (r i).val • ((2 ^ (0 * 32 + i) : modN.Residue)⁻¹.val • 1)) (fun _ => 0) (fun _ => 0)
        (fun _ _ => 0)
    0 1 one_pos rfl rfl ⟨Ram.mont_ONE_modN, mont_TWO_modN, Ram.mont_ONE_modN⟩
    (fun i _ => by rw [Nat.zero_mul, Nat.zero_add]; rfl) rfl (by rwa [window]) (by rwa [window])
  have waited : roundsRead inStep = 5 := by decide
  have complete := agree.mpr (by rw [waited, Finset.Ico_eq_empty (by norm_num), Finset.sum_empty, nsmul_zero])
  exact ⟨prove, VLR, _, _, out, made, ends, complete.trans vectors.symm, inner⟩

/-- The first warp takes all its rounds before the second one takes any. -/
def secondLate : Warps.Order 2 6 := ⟨[1, 1, 1, 1, 1, 1, 0, 0, 0, 0, 0, 0], by decide, by decide⟩

/-- The lane 0 does not wait for the second warp: 31 of the 32 terms of `SR` are not in `S`, and an honest proof fails. -/
theorem vector_commitment_check_late : ∃ (prove : BPProve modN.Residue) (VLR : ℕ → Big)
    (l r hprime commits out : ℕ → modN.Residue),
    RangeProof.main (groupJpoints 1 fun _ _ => (0, 0)) secondLate oneSetup unitRandom 1 unitXyz oneGarbage =
      some (prove, VLR) ∧
      Holds VLR 0 l ∧ Holds VLR 32 r ∧ (∀ i < 32, hprime i = ((2 : modN.Residue) ^ i)⁻¹.val • oneSetup.Hh i) ∧
      commits 0 = ∑ i ∈ Finset.range 32, (l i).val • oneSetup.Gg i + ∑ i ∈ Finset.range 32, (r i).val • hprime i ∧
      kernel_calP (groupJpoints 1 fun _ _ => (0, 0)) (fun _ => 0) (fun _ => oneSetup) unitXyz hprime
        (fun _ => BPProve_to_mon (groupJpoints 1 fun _ _ => (0, 0)) prove) 1 (fun _ _ => 0) = some out ∧
      out 0 ≠ prove.Mu.toNat • oneSetup.H + commits 0 := by
  have generators : Setup Eq oneSetup oneSetup.H oneSetup.Gg oneSetup.Hh := ⟨rfl, fun _ _ => rfl, fun _ _ => rfl⟩
  have small : 1 < 2 ^ 31 := by norm_num
  have points := groupJpoints_interprets (1 : modN.Residue) fun _ _ => (0, 0)
  obtain ⟨prove, VLR, made, honest⟩ := @main_spec _ _ _ _ _ _ _ _ _ _ _ _ _ _ _ unitRandom _ _ points generators small
    unitXyz_challenges secondLate oneGarbage
  obtain ⟨hprime, rescaled⟩ : ∃ hprime : ℕ → modN.Residue, ∀ i, hprime i = ((2 : modN.Residue) ^ i)⁻¹.val • oneSetup.Hh i :=
    ⟨_, fun _ => rfl⟩
  obtain ⟨C, opened⟩ : ∃ C, C = ∑ i ∈ Finset.range 32, (left (bitsL 1) (residues unitRandom.SL) 1 1 i).val • oneSetup.Gg i +
      ∑ i ∈ Finset.range 32, (right (bitsR 1) (residues unitRandom.SR) 1 2 1 i).val • hprime i := ⟨_, rfl⟩
  have batch : Challenges (fun i => unitXyz (0 * 4 + i)) 1 2 1 := ⟨Ram.mont_ONE_modN, mont_TWO_modN, Ram.mont_ONE_modN⟩
  obtain ⟨out, ends, -, -, agree⟩ := @commitments_of_honest 1 2 1 _ _ _ _ (fun _ _ => (0, 0)) _ _ _ _ _ _
    (fun _ => oneSetup) (fun _ => BPProve_to_mon (groupJpoints 1 fun _ _ => (0, 0)) prove) unitXyz hprime (fun _ => C) 0 1
    (roundsRead_le secondLate) honest two_ne_zero_modN one_pos rfl rfl batch
    (fun i _ => by rw [Nat.zero_mul, Nat.zero_add]; exact rescaled i)
    (by simpa only [Nat.zero_mul, Nat.zero_add] using opened)
    (fun _ => 0) (fun _ => 0) (fun _ _ => 0)
  refine ⟨prove, VLR, _, _, hprime, fun _ => C, out, made, honest.lefts, honest.rights, fun i _ => rescaled i, opened, ends,
    fun same => ?_⟩
  have waited : roundsRead secondLate = 0 := by decide
  have lacking : ((31 : ℕ) : modN.Residue) = 0 := by
    have terms := agree.mp same
    have one : dc_ONE.toNat = 1 := by decide
    rw [waited, val_nsmul] at terms
    simpa [oneSetup, unitRandom, one] using terms
  exact natCast_ne_zero (by norm_num) (by norm_num) lacking

end RangeVerify

end DbcSnark.Gpuec
