import DbcSnark.Model.Gpuec.IpVerify
import DbcSnark.Proofs.Gpuec.RangeProof
import DbcSnark.ToMathlib.Loops

/-! # What a batch of inner-product arguments is folded to

Each lane multiplies its generator by the challenges, and each half of a group adds up its own in a tree. The second half
copies the generators behind those of its proof, and the second result is taken from the second cell of this half, which
the tree leaves with every other one of them. The lanes find the challenges of their proof as long as those of all groups
in front of it are hashed by the lanes of the first group.
-/

namespace DbcSnark.Gpuec

namespace IpVerify

/-! ## Points in the shared array -/

section Points

variable {active : ℕ → Prop} [DecidablePred active] {n off k c : ℕ} {val : ℕ → Jpoint} {sh sh' : ℕ → Big}

theorem point_congr (same : ∀ c, 3 * k ≤ c → c < 3 * k + 3 → sh' c = sh c) : point sh' k = point sh k := by
  rw [point, point, same _ (by omega) (by omega), same _ (by omega) (by omega), same _ (by omega) (by omega)]

theorem storePoints_outside (outside : 3 * (off + n) ≤ c) : storePoints active n off val sh c = sh c :=
  Lanes.storeIf_outside (by omega)

/-- The third `r` of the point `k` after the statement. -/
private theorem storePoints_number {r : ℕ} (lane : k < n) (third : r < 3) :
    storePoints active n off val sh (3 * (off + k) + r) =
      if active k then (val k).number r else sh (3 * (off + k) + r) := by
  have cell : 3 * (off + k) + r = 3 * off + (3 * k + r) := by ring
  have quotient : (3 * k + r) / 3 = k := by omega
  have remainder : (3 * k + r) % 3 = r := by omega
  rw [storePoints, cell, Lanes.storeIf_lane (by omega), quotient, remainder]

/-- A cell of no point that an active lane stores. -/
theorem storePoints_untouched (untouched : ∀ k < n, active k → c / 3 ≠ off + k) :
    storePoints active n off val sh c = sh c := by
  by_cases inside : 3 * off ≤ c ∧ c < 3 * (off + n)
  · have cell : c = 3 * (off + (c / 3 - off)) + c % 3 := by omega
    have lane : c / 3 - off < n := by omega
    rw [cell, storePoints_number lane (Nat.mod_lt c (by decide)), if_neg fun works => untouched _ lane works (by omega)]
  · exact Lanes.storeIf_outside (by omega)

/-- The cell `c` after a statement that stores from the start on. -/
theorem storePoints_zero (lane : c / 3 < n) :
    storePoints active n 0 val sh c = if active (c / 3) then (val (c / 3)).number (c % 3) else sh c := by
  have stored := @storePoints_number active _ n 0 (c / 3) val sh (c % 3) lane (Nat.mod_lt c (by decide))
  rwa [Nat.zero_add, Nat.div_add_mod] at stored

theorem point_storePoints (lane : k < n) :
    point (storePoints active n off val sh) (off + k) = if active k then val k else point sh (off + k) := by
  rw [point, storePoints_number lane (by decide : 1 < 3), storePoints_number lane (by decide : 2 < 3),
    show 3 * (off + k) = 3 * (off + k) + 0 from rfl, storePoints_number lane (by decide : 0 < 3)]
  split
  · rfl
  · rfl

/-- The same for the points from the start on. -/
theorem point_storePoints_zero (lane : k < n) :
    point (storePoints active n 0 val sh) k = if active k then val k else point sh k := by
  have stored := @point_storePoints active _ n 0 k val sh lane
  rwa [Nat.zero_add] at stored

end Points

/-! ## Lanes of a group -/

section Lane

variable {v : IpVerify} {groups bx g c : ℕ} (whole : v.blockDim = groups * v.NperGroup)

include whole

private theorem lane_index : bx * v.blockDim + (g * v.NperGroup + c) = v.NperGroup * (bx * groups + g) + c := by
  rw [whole]
  ring

theorem curp_lane (lane : c < v.NperGroup) : v.curp bx (g * v.NperGroup + c) = bx * groups + g := by
  rw [curp, lane_index whole, Nat.mul_add_div (Nat.zero_lt_of_lt lane), Nat.div_eq_of_lt lane, Nat.add_zero]

theorem laneid_lane (lane : c < v.NperGroup) : v.laneid bx (g * v.NperGroup + c) = c := by
  rw [laneid, lane_index whole, Nat.mul_add_mod, Nat.mod_eq_of_lt lane]

theorem lane_lt (group : g < groups) (lane : c < v.NperGroup) : g * v.NperGroup + c < v.blockDim := by
  have next := Nat.mul_le_mul_right v.NperGroup (Nat.succ_le_of_lt group)
  rw [whole]
  rw [Nat.succ_mul] at next
  omega

theorem alive_lane (group : g < groups) (lane : c < v.NperGroup) :
    v.Alive bx (g * v.NperGroup + c) ↔ bx * groups + g < v.totalN := by
  rw [Alive, curp_lane whole lane]
  exact and_iff_right (lane_lt whole group lane)

theorem groupPerBlock_eq (some : 0 < v.NperGroup) : v.groupPerBlock = groups := by
  rw [groupPerBlock, whole, Nat.mul_div_cancel groups some]

end Lane

/-! ## The challenges -/

section Challenges

variable (ops : JpointOps Jpoint) (v : IpVerify) (bx : ℕ)

/-- The number hashed from the pair `j` behind the first one of the proof `row`. -/
def challenge (row j : ℕ) : modN.Residue :=
  (ops.device_hashBP (v.LsRs (row * v.logN + j)) (v.LsRs ((v.totalN + row) * v.logN + j))).1.toNat

/-- The number that the lane `t` of the block hashes. -/
def hashed (t : ℕ) : modN.Residue := v.challenge ops (v.curp bx t) t

/-- The numbers and their inverses are behind the points. -/
structure Found (sh : ℕ → Big) : Prop where
  number : ∀ t < v.logN * v.groupPerBlock, v.Alive bx t → ((sh (v.curx + t)).toNat : modN.Residue) = v.hashed ops bx t
  inverse : ∀ t < v.logN * v.groupPerBlock, v.Alive bx t →
    ((sh (v.curxinv + t)).toNat : modN.Residue) = (v.hashed ops bx t)⁻¹

variable {ops v bx} {sh sh' : ℕ → Big}

theorem Found.congr (found : v.Found ops bx sh) (same : ∀ c, v.curx ≤ c → sh' c = sh c) : v.Found ops bx sh' := by
  constructor
  · intro t lane alive
    rw [same _ (Nat.le_add_right _ _)]
    exact found.number t lane alive
  · intro t lane alive
    rw [same _ (by rw [curxinv]; omega)]
    exact found.inverse t lane alive

theorem challenges_spec (nonzero : ∀ t < v.logN * v.groupPerBlock, v.Alive bx t → v.hashed ops bx t ≠ 0) :
    ∃ sh', v.challenges ops bx sh = some sh' ∧ v.Found ops bx sh' ∧
      ∀ c, c < v.curx ∨ v.curxinv + v.logN * v.groupPerBlock ≤ c → sh' c = sh c := by
  unfold challenges
  extract_lets lanes sh₁ sh₂
  have behind : v.curxinv = v.curx + lanes := rfl
  have number : ∀ t < lanes, v.Alive bx t → ((sh₁ (v.curx + t)).toNat : modN.Residue) = v.hashed ops bx t := by
    intro t lane alive
    rw [show sh₁ (v.curx + t) = _ from Lanes.storeIf_lane lane, if_pos alive]
    rfl
  have values : ∀ t < lanes, v.Alive bx t → ∃ w, dh_mybig_moninv_modN (sh₂ (v.curxinv + t)) = some w ∧
      (w.toNat : modN.Residue) = (v.hashed ops bx t)⁻¹ := by
    intro t lane alive
    have form := mont_R2modN (sh₁ (v.curx + t))
    rw [number t lane alive] at form
    obtain ⟨w, inverted, plain⟩ := form.moninv (nonzero t lane alive)
    refine ⟨w, ?_, plain.value⟩
    rw [show sh₂ (v.curxinv + t) = _ from Lanes.storeIf_lane lane, if_pos alive]
    exact inverted
  obtain ⟨sh', stored, inverse, frame⟩ := @Lanes.storeIfM_spec _ lanes v.curxinv sh₂ (v.Alive bx) _ _ _ values
  refine ⟨sh', stored, ⟨fun t lane alive => ?_, inverse⟩, fun c outside => ?_⟩
  · have inside : t < lanes := lane
    rw [frame _ (by omega), show sh₂ (v.curx + t) = _ from Lanes.storeIf_outside (by omega)]
    exact number t lane alive
  · rw [frame c (by omega), show sh₂ c = _ from Lanes.storeIf_outside (by omega),
      show sh₁ c = _ from Lanes.storeIf_outside (by omega)]

/-- The sum over `L` and `R` stays in front of the cells from three points a pair on. -/
theorem sumLR_outside {c : ℕ} (outside : 3 * (v.logN * v.groupPerBlock * 3) ≤ c) : v.sumLR ops bx sh c = sh c := by
  have turns : ∀ (strides : List ℕ) (sh : ℕ → Big), strides.foldl (fun sh i =>
      storePoints (fun tx => v.Alive bx tx ∧ tx % 10 + i < 10 ∧ tx % 10 < i) (v.logN * v.groupPerBlock * 2)
        (v.logN * v.groupPerBlock) (fun tx => ops.dh_ellipticAdd_JJ (point sh (v.logN * v.groupPerBlock + tx))
          (point sh (v.logN * v.groupPerBlock + tx + i))) sh) sh c = sh c := by
    intro strides
    induction strides with
    | nil => exact fun _ => rfl
    | cons i strides ih =>
      intro sh
      rw [List.foldl_cons, ih, storePoints_outside (by omega)]
  simp only [sumLR]
  rw [turns, storePoints_outside (by omega), Lanes.storeIf_outside (by omega), Lanes.storeIf_outside (by omega),
    Lanes.storeIf_outside (by omega)]

end Challenges

/-! ## The generators of a group -/

/-- The group `g` of the block has a proof of the batch to work on, in a block that is made up of whole groups. -/
structure Group (v : IpVerify) (groups bx g : ℕ) : Prop where
  size : v.N = 2 ^ v.logN
  whole : v.blockDim = groups * v.NperGroup
  group : g < groups
  proof : bx * groups + g < v.totalN

/-- The product of the challenges or their inverses by which the generator `i` is multiplied. -/
def weight (x : ℕ → modN.Residue) (n i : ℕ) : modN.Residue :=
  ∏ k ∈ Finset.range n, if i.testBit k then x (n - 1 - k) else (x (n - 1 - k))⁻¹

theorem inv_weight (x : ℕ → modN.Residue) (n i : ℕ) :
    (weight x n i)⁻¹ = ∏ k ∈ Finset.range n, if i.testBit k then (x (n - 1 - k))⁻¹ else x (n - 1 - k) := by
  rw [weight, ← Finset.prod_inv_distrib]
  refine Finset.prod_congr rfl fun k _ => ?_
  split
  · rfl
  · exact inv_inv _

/-- The factor of the lane `c` of a group in the turn `k`. -/
def factor (v : IpVerify) (x : ℕ → modN.Residue) (c k : ℕ) : modN.Residue :=
  if c.testBit k then if c < v.N then x (v.logN - 1 - k) else (x (v.logN - 1 - k))⁻¹
  else if c < v.N then (x (v.logN - 1 - k))⁻¹ else x (v.logN - 1 - k)

section Generators

variable {A : Type*} [AddCommGroup A] [Module modN.Residue A] {ops : JpointOps Jpoint} {pt : Jpoint → A}
  {plain : Jpoint → A → Prop} {G : A} {v : IpVerify} {groups bx g c k w : ℕ} {sh : ℕ → Big}

theorem Group.pos (group : v.Group groups bx g) : 0 < v.N := by
  rw [group.size]
  exact Nat.two_pow_pos _

theorem Group.alive (group : v.Group groups bx g) (lane : c < v.NperGroup) : v.Alive bx (g * v.NperGroup + c) :=
  (alive_lane group.whole group.group lane).mpr group.proof

/-- The lanes that hash the challenges of the group have not returned. -/
theorem Group.hashes (group : v.Group groups bx g) {j : ℕ} (inside : j < v.logN) :
    g * v.logN + j < v.logN * v.groupPerBlock ∧ v.Alive bx (g * v.logN + j) := by
  have width : v.logN < v.NperGroup := by
    have := @Nat.lt_two_pow_self v.logN
    rw [NperGroup, group.size]
    omega
  have below : g * v.logN + j < (g + 1) * v.logN := by
    rw [Nat.succ_mul]
    omega
  have lanes : (g + 1) * v.logN ≤ (g + 1) * v.NperGroup := Nat.mul_le_mul_left _ width.le
  refine ⟨?_, ?_, ?_⟩
  · rw [groupPerBlock_eq group.whole (by omega), Nat.mul_comm v.logN]
    exact below.trans_le (Nat.mul_le_mul_right _ group.group)
  · rw [group.whole]
    exact below.trans_le (lanes.trans (Nat.mul_le_mul_right _ group.group))
  · rw [curp, Nat.div_lt_iff_lt_mul (by omega), group.whole]
    calc bx * (groups * v.NperGroup) + (g * v.logN + j)
        < bx * (groups * v.NperGroup) + (g + 1) * v.NperGroup := Nat.add_lt_add_left (below.trans_le lanes) _
      _ = (bx * groups + g + 1) * v.NperGroup := by ring
      _ ≤ v.totalN * v.NperGroup := Nat.mul_le_mul_right _ group.proof

theorem Group.active (group : v.Group groups bx g) (lane : c < v.NperGroup) (warp : (g * v.NperGroup + c) / 32 = w) :
    v.Active bx w (g * v.NperGroup + c) := ⟨group.alive lane, warp⟩

theorem point_load (group : v.Group groups bx g) (lane : c < v.NperGroup) (warp : (g * v.NperGroup + c) / 32 = w) :
    point (v.load bx w sh) (g * v.NperGroup + c) =
      if c < v.N then (v.params (bx * groups + g)).Gg c else v.hprime ((bx * groups + g) * v.N + c) := by
  rw [load, point_storePoints_zero (lane_lt group.whole group.group lane), if_pos (group.active lane warp),
    laneid_lane group.whole lane, curp_lane group.whole lane]

theorem mult_residue (points : ops.Interprets (fun p a => pt p = a) plain G) {w : Big} {a : modN.Residue}
    (value : (w.toNat : modN.Residue) = a) (p : Jpoint) : pt (ops.dh_point_mult_finalversion p w) = a • pt p := by
  rw [← value, Nat.cast_smul_eq_nsmul]
  exact points.mult w rfl

/-- A turn multiplies each point by its factor. -/
theorem scale_spec (points : ops.Interprets (fun p a => pt p = a) plain G) (group : v.Group groups bx g)
    (found : v.Found ops bx sh) (inside : k < v.logN) (lane : c < v.NperGroup) (warp : (g * v.NperGroup + c) / 32 = w) :
    pt (point (v.scale ops bx k w sh) (g * v.NperGroup + c)) =
      v.factor (fun j => v.hashed ops bx (g * v.logN + j)) c k • pt (point sh (g * v.NperGroup + c)) := by
  obtain ⟨hashes, alive⟩ := group.hashes (show v.logN - 1 - k < v.logN by omega)
  have number := found.number _ hashes alive
  have inverse := found.inverse _ hashes alive
  have quotient : (g * v.NperGroup + c) / v.NperGroup = g := by
    rw [Nat.mul_comm, Nat.mul_add_div (Nat.zero_lt_of_lt lane), Nat.div_eq_of_lt lane, Nat.add_zero]
  have bit : c >>> k &&& 1 = 1 ↔ c.testBit k = true := by
    rw [Nat.testBit_eq_decide_div_mod_eq, Nat.shiftRight_eq_div_pow, Nat.and_one_is_mod, decide_eq_true_iff]
  rw [scale, point_storePoints_zero (lane_lt group.whole group.group lane), if_pos (group.active lane warp)]
  simp only [laneid_lane group.whole lane, quotient, Nat.add_assoc, bit, factor]
  split
  · split
    · exact mult_residue points number _
    · exact mult_residue points inverse _
  · split
    · exact mult_residue points inverse _
    · exact mult_residue points number _

theorem scale_found (found : v.Found ops bx sh) : v.Found ops bx (v.scale ops bx k w sh) := by
  refine found.congr fun c behind => storePoints_outside ?_
  rw [curx] at behind
  omega

/-- The loop multiplies each point by the product of its factors. -/
theorem scales_spec (points : ops.Interprets (fun p a => pt p = a) plain G) (group : v.Group groups bx g)
    (found : v.Found ops bx sh) (lane : c < v.NperGroup) (warp : (g * v.NperGroup + c) / 32 = w) {n : ℕ}
    (inside : n ≤ v.logN) :
    pt (point ((List.range n).reverse.foldl (fun sh k => v.scale ops bx k w sh) sh) (g * v.NperGroup + c)) =
      (∏ k ∈ Finset.range n, v.factor (fun j => v.hashed ops bx (g * v.logN + j)) c k) •
        pt (point sh (g * v.NperGroup + c)) := by
  induction n generalizing sh with
  | zero => rw [List.range_zero, List.reverse_nil, List.foldl_nil, Finset.prod_range_zero, one_smul]
  | succ n ih =>
    rw [Loops.foldl_reverse_range_succ, ih (scale_found found) (by omega), scale_spec points group found inside lane warp,
      smul_smul, Finset.prod_range_succ]

/-! ## The sums of a group -/

/-- In each half of a group a stride is a round of a tree. -/
private theorem addUp_spec (group : v.Group groups bx g) {half i : ℕ} (two : half < 2)
    (warp : ∀ c < v.N, (g * v.NperGroup + (half * v.N + c)) / 32 = w) (inside : c < v.N) :
    point (v.addUp ops bx i w sh) (g * v.NperGroup + (half * v.N + c)) =
      Reduction.round ops.dh_ellipticAdd_JJ i (fun c => point sh (g * v.NperGroup + (half * v.N + c))) c := by
  have lane : half * v.N + c < v.NperGroup := by
    have := Nat.mul_le_mul_right v.N (Nat.le_of_lt_succ two)
    rw [NperGroup]
    omega
  have remainder : (half * v.N + c) % v.N = c := by
    rw [Nat.mul_comm, Nat.mul_add_mod, Nat.mod_eq_of_lt inside]
  rw [addUp, point_storePoints_zero (lane_lt group.whole group.group lane)]
  simp only [group.active lane (warp c inside), laneid_lane group.whole lane, remainder, true_and, Reduction.round,
    Nat.add_assoc]

/-- The loop over the strides leaves what the tree over a half leaves. -/
theorem addUps_spec (group : v.Group groups bx g) {half : ℕ} (two : half < 2)
    (warp : ∀ c < v.N, (g * v.NperGroup + (half * v.N + c)) / 32 = w) (inside : c < v.N) :
    point ((Reduction.strides (v.N / 2)).foldl (fun sh i => v.addUp ops bx i w sh) sh) (g * v.NperGroup + (half * v.N + c)) =
      Reduction.reduce ops.dh_ellipticAdd_JJ (v.N / 2) (fun c => point sh (g * v.NperGroup + (half * v.N + c))) c := by
  have rounds : ∀ (strides : List ℕ) (sh : ℕ → Big) (s : ℕ → Jpoint), (∀ i ∈ strides, 2 * i ≤ v.N) →
      (∀ c < v.N, point sh (g * v.NperGroup + (half * v.N + c)) = s c) → ∀ c < v.N,
        point (strides.foldl (fun sh i => v.addUp ops bx i w sh) sh) (g * v.NperGroup + (half * v.N + c)) =
          strides.foldl (fun s i => Reduction.round ops.dh_ellipticAdd_JJ i s) s c := by
    intro strides
    induction strides with
    | nil => exact fun _ _ _ same => same
    | cons i strides ih =>
      intro sh s below same
      have stride := below i List.mem_cons_self
      refine ih _ _ (fun i' member => below i' (List.mem_cons_of_mem i member)) fun c inside => ?_
      rw [addUp_spec group two warp inside]
      simp only [Reduction.round]
      split
      · rw [same c inside, same (c + i) (by omega)]
      · exact same c inside
  refine rounds _ sh _ (fun i member => ?_) (fun _ _ => rfl) c inside
  have := Reduction.le_of_mem_strides member
  omega

private theorem three_mul_le (n : ℕ) : 3 * n ≤ 2 * 2 ^ n := by
  induction n with
  | zero => decide
  | succ n ih =>
    rcases Nat.eq_zero_or_pos n with rfl | more
    · decide
    · have two : 2 ^ 1 ≤ 2 ^ n := Nat.pow_le_pow_right (by decide) more
      rw [pow_succ]
      omega

/-- The points of the sum over `L` and `R` end in front of the challenges. -/
private theorem pairs_le (size : v.N = 2 ^ v.logN) (whole : v.blockDim = groups * v.NperGroup) :
    v.logN * v.groupPerBlock * 3 ≤ v.blockDim := by
  have width : 3 * v.logN ≤ v.NperGroup := by
    rw [NperGroup, size, Nat.mul_comm (2 ^ v.logN)]
    exact three_mul_le v.logN
  have some : 0 < v.NperGroup := by
    have := Nat.two_pow_pos v.logN
    rw [NperGroup, size]
    omega
  rw [groupPerBlock_eq whole some, whole]
  calc v.logN * groups * 3 = groups * (3 * v.logN) := by ring
    _ ≤ groups * v.NperGroup := Nat.mul_le_mul_left _ width

private theorem load_found (group : v.Group groups bx g) (found : v.Found ops bx sh) :
    v.Found ops bx (v.load bx w (v.sumLR ops bx sh)) := by
  have pairs := pairs_le group.size group.whole
  refine found.congr fun c behind => ?_
  rw [curx] at behind
  rw [load, storePoints_outside (by omega), sumLR_outside (by omega)]

/-- What the warp `w` makes of the shared array behind the copies, the loop over the challenges and the loop over the
strides, alone. -/
def folded (ops : JpointOps Jpoint) (v : IpVerify) (bx w : ℕ) (sh : ℕ → Big) : ℕ → Big :=
  (Reduction.strides (v.N / 2)).foldl (fun sh i => v.addUp ops bx i w sh)
    ((List.range v.logN).reverse.foldl (fun sh k => v.scale ops bx k w sh) (v.load bx w sh))

/-- A half of a group is in one warp. -/
private theorem half_warp (group : v.Group groups bx g) (fits : v.N ≤ 32) (half : ℕ) {c : ℕ} (inside : c < v.N) :
    (g * v.NperGroup + (half * v.N + c)) / 32 = (g * v.NperGroup + half * v.N) / 32 := by
  obtain ⟨q, power⟩ : v.N ∣ 2 ^ 5 := by
    rw [group.size] at fits ⊢
    exact pow_dvd_pow 2 ((Nat.pow_le_pow_iff_right one_lt_two).mp fits)
  have left : g * v.NperGroup + (half * v.N + c) = v.N * (g * 2 + half) + c := by
    rw [NperGroup]
    ring
  have right : g * v.NperGroup + half * v.N = v.N * (g * 2 + half) := by
    rw [NperGroup]
    ring
  rw [show 32 = v.N * q from power, ← Nat.div_div_eq_div_mul, ← Nat.div_div_eq_div_mul, left, right,
    Nat.mul_add_div group.pos, Nat.mul_div_cancel_left _ group.pos, Nat.div_eq_of_lt inside, Nat.add_zero]

/-- The points of a half in front of the loop over the strides. -/
private theorem scaled (points : ops.Interprets (fun p a => pt p = a) plain G) (group : v.Group groups bx g)
    (found : v.Found ops bx sh) (lane : c < v.NperGroup) (warp : (g * v.NperGroup + c) / 32 = w) :
    pt (point ((List.range v.logN).reverse.foldl (fun sh k => v.scale ops bx k w sh) (v.load bx w (v.sumLR ops bx sh)))
        (g * v.NperGroup + c)) =
      (∏ k ∈ Finset.range v.logN, v.factor (fun j => v.hashed ops bx (g * v.logN + j)) c k) •
        pt (if c < v.N then (v.params (bx * groups + g)).Gg c else v.hprime ((bx * groups + g) * v.N + c)) := by
  rw [scales_spec points group (load_found group found) lane warp le_rfl, point_load group lane warp]

omit [Module modN.Residue A] in
private theorem sums (points : ops.Interprets (fun p a => pt p = a) plain G) (p q : Jpoint) (a b : A) (left : pt p = a)
    (right : pt q = b) : pt (ops.dh_ellipticAdd_JJ p q) = a + b := points.add left right

/-- The first half is left with the sum over `Gg`. -/
theorem folded_first (points : ops.Interprets (fun p a => pt p = a) plain G) (group : v.Group groups bx g) (fits : v.N ≤ 32)
    (found : v.Found ops bx sh) : pt (point (v.folded ops bx (g * v.NperGroup / 32) (v.sumLR ops bx sh)) (g * v.NperGroup)) =
      ∑ i ∈ Finset.range v.N,
        weight (fun j => v.hashed ops bx (g * v.logN + j)) v.logN i • pt ((v.params (bx * groups + g)).Gg i) := by
  have warp : ∀ c < v.N, (g * v.NperGroup + (0 * v.N + c)) / 32 = g * v.NperGroup / 32 := by
    intro c inside
    rw [half_warp group fits 0 inside, Nat.zero_mul, Nat.add_zero]
  have start : ∀ i < 2 ^ v.logN, pt (point ((List.range v.logN).reverse.foldl
      (fun sh k => v.scale ops bx k (g * v.NperGroup / 32) sh) (v.load bx (g * v.NperGroup / 32) (v.sumLR ops bx sh)))
        (g * v.NperGroup + (0 * v.N + i))) =
      weight (fun j => v.hashed ops bx (g * v.logN + j)) v.logN i • pt ((v.params (bx * groups + g)).Gg i) := by
    intro i inside
    rw [← group.size] at inside
    have here := warp i inside
    rw [Nat.zero_mul, Nat.zero_add] at here ⊢
    rw [scaled points group found (by rw [NperGroup]; omega) here, if_pos inside, weight]
    simp only [factor, if_pos inside]
  have tree := Reduction.reduce_half (sums points) v.logN _ _ start
  rw [← group.size] at tree
  rw [← tree, folded, ← addUps_spec group (by decide) warp group.pos, Nat.zero_mul, Nat.add_zero]

/-- The second cell of the second half is left with the sum over every other generator of the next proof. -/
theorem folded_second (points : ops.Interprets (fun p a => pt p = a) plain G) (group : v.Group groups bx g) (fits : v.N ≤ 32)
    (found : v.Found ops bx sh) (more : 1 < v.N) :
    pt (point (v.folded ops bx ((g * v.NperGroup + 1 + v.N) / 32) (v.sumLR ops bx sh)) (g * v.NperGroup + 1 + v.N)) =
      ∑ j ∈ Finset.range (v.N / 2), (weight (fun j => v.hashed ops bx (g * v.logN + j)) v.logN (2 * j + 1))⁻¹ •
        pt (v.hprime ((bx * groups + g + 1) * v.N + (2 * j + 1))) := by
  obtain ⟨w, second⟩ : ∃ w, w = (g * v.NperGroup + 1 + v.N) / 32 := ⟨_, rfl⟩
  have cell : g * v.NperGroup + 1 + v.N = g * v.NperGroup + (1 * v.N + 1) := by ring
  have warp : ∀ c < v.N, (g * v.NperGroup + (1 * v.N + c)) / 32 = w := by
    intro c inside
    rw [second, cell, half_warp group fits 1 inside, half_warp group fits 1 more]
  have start : ∀ i < 2 ^ v.logN, pt (point ((List.range v.logN).reverse.foldl (fun sh k => v.scale ops bx k w sh)
      (v.load bx w (v.sumLR ops bx sh))) (g * v.NperGroup + (1 * v.N + i))) =
      (weight (fun j => v.hashed ops bx (g * v.logN + j)) v.logN i)⁻¹ • pt (v.hprime ((bx * groups + g + 1) * v.N + i)) := by
    intro i inside
    rw [← group.size] at inside
    have behind : ¬ v.N + i < v.N := by omega
    have here := warp i inside
    rw [Nat.one_mul] at here ⊢
    rw [scaled points group found (by rw [NperGroup]; omega) here, if_neg behind, inv_weight, Nat.succ_mul,
      Nat.add_assoc (_ * v.N)]
    congr 1
    refine Finset.prod_congr rfl fun k member => ?_
    rw [factor, if_neg behind, if_neg behind, group.size, Nat.testBit_two_pow_add_gt (Finset.mem_range.mp member)]
  obtain ⟨k, bits⟩ : ∃ k, v.logN = k + 1 := by
    refine Nat.exists_eq_add_one.mpr (Nat.pos_of_ne_zero fun none => ?_)
    rw [group.size, none] at more
    omega
  have half : v.N / 2 = 2 ^ k := by
    rw [group.size, bits, pow_succ, Nat.mul_div_cancel _ (by decide)]
  rw [bits] at start
  have tree := Reduction.reduce_odd (sums points) k _ _ start
  rw [← half, ← bits] at tree
  rw [← second, ← tree, folded, cell, addUps_spec group (by decide) warp more]

end Generators

/-! ## The pace of the warps -/

/-- The cells of the lanes of a warp. -/
def own (v : IpVerify) (bx w : ℕ) : Set ℕ := {c | v.Active bx w (c / 3)}

/-- The cells behind the points, and where no `ipP` is added, those of the lanes that have returned. -/
def fixed (v : IpVerify) (bx : ℕ) : Set ℕ := {c | ¬ v.Alive bx (c / 3) ∧ (v.curx ≤ c ∨ v.logN = 0)}

/-- A lane of the warp `u` adds `ipP` to the cells of a lane of the warp `w`. -/
def Hits (v : IpVerify) (bx u w : ℕ) : Prop :=
  ∃ tx < v.logN * v.groupPerBlock * 2, v.Active bx u tx ∧ tx % 10 = 0 ∧ v.Active bx w (v.logN * v.groupPerBlock + tx)

/-- No warp copies its generators before another one has added `ipP` to its cells. -/
def Settled (v : IpVerify) (bx : ℕ) (history : List ℕ) : Prop :=
  ∀ u w, u ≠ w → v.Hits bx u w → Warps.ahead u 0 w history ≤ 1

/-- All warps take each statement together. -/
def inStep (v : IpVerify) (_bx : ℕ) : Warps.Order v.warps v.statements := .inStep _ _

theorem settled_inStep (v : IpVerify) (bx : ℕ) : v.Settled bx (v.inStep bx).history := fun u w _ _ =>
  Warps.Order.ahead_inStep v.warps v.statements u w

section Pace

variable {ops : JpointOps Jpoint} {v : IpVerify} {groups bx w k i tx : ℕ} {sh : ℕ → Big}

private theorem cells_apart : Warps.Apart (v.own bx) (v.fixed bx) where
  warps _ _ other _ second first := other (first.2.symm.trans second.2)
  fixed _ _ constant mine := constant.1 mine.1

private theorem storePoints_frame {active : ℕ → Prop} [DecidablePred active] {n c : ℕ} {val : ℕ → Jpoint}
    (own : ∀ tx, active tx → v.Active bx w tx) (outside : c ∉ v.own bx w) : storePoints active n 0 val sh c = sh c := by
  refine storePoints_untouched fun tx _ works same => outside ?_
  change v.Active bx w (c / 3)
  rw [same, Nat.zero_add]
  exact own tx works

private theorem addIpP_untouched {c : ℕ} (untouched : ∀ tx < v.logN * v.groupPerBlock * 2, v.Active bx w tx → tx % 10 = 0 →
    c / 3 ≠ v.logN * v.groupPerBlock + tx) : v.addIpP ops bx w sh c = sh c := by
  unfold addIpP
  exact storePoints_untouched fun tx lane works => untouched tx lane works.1 works.2

private theorem folds_frames : ∀ statement ∈ v.folds ops bx, Warps.Frames (v.own bx) statement := by
  intro statement member w s c outside
  rw [folds, List.mem_cons, List.mem_append, List.mem_map, List.mem_map] at member
  obtain rfl | ⟨k, -, rfl⟩ | ⟨i, -, rfl⟩ := member
  · exact storePoints_frame (fun _ works => works) outside
  · exact storePoints_frame (fun _ works => works) outside
  · exact storePoints_frame (fun _ works => works.1) outside

private theorem load_loads : Warps.Loads (v.own bx) (v.fixed bx) w (v.load bx) := by
  intro s s' _ c mine
  have active : v.Active bx w (c / 3) := mine
  rw [load, load, storePoints_zero active.1.1, storePoints_zero active.1.1, if_pos active, if_pos active]

/-- Where two memories agree on the cells of the warp, its lanes find the same points in them. -/
private theorem point_agree {s s' : ℕ → Big} (same : ∀ c ∈ v.own bx w ∪ v.fixed bx, s c = s' c) (active : v.Active bx w tx) :
    point s tx = point s' tx := by
  refine point_congr fun c low high => same c (.inl ?_)
  change v.Active bx w (c / 3)
  rwa [show c / 3 = tx by omega]

private theorem scale_reads : Warps.Reads (v.own bx) (v.fixed bx) w (v.scale ops bx k) := by
  intro s s' same c mine
  have behind (j : ℕ) : s (v.curx + j) = s' (v.curx + j) := by
    refine same _ (.inr ⟨fun alive => ?_, .inl (Nat.le_add_right _ _)⟩)
    have lane := alive.1
    rw [curx] at lane
    omega
  have behind' (j : ℕ) : s (v.curxinv + j) = s' (v.curxinv + j) := by
    rw [curxinv, Nat.add_assoc]
    exact behind _
  have active : v.Active bx w (c / 3) := mine
  rw [scale, scale, storePoints_zero active.1.1, storePoints_zero active.1.1, if_pos active, if_pos active]
  simp only [Nat.add_assoc, behind, behind', point_agree same active]

private theorem add_div_same {x n : ℕ} (room : x % n + i < n) : (x + i) / n = x / n := by
  have split : x + i = n * (x / n) + (x % n + i) := by
    rw [← Nat.add_assoc, Nat.div_add_mod]
  rw [split, Nat.mul_add_div (by omega), Nat.div_eq_of_lt room, Nat.add_zero]

/-- Within its half of a group a lane reads a cell of its own warp and its own proof. -/
private theorem Active.add (active : v.Active bx w tx) (size : v.N = 2 ^ v.logN) (whole : v.blockDim = groups * v.NperGroup)
    (fits : v.N ≤ 32) (low : v.laneid bx tx % v.N < i) (stride : 2 * i ≤ v.N) : v.Active bx w (tx + i) := by
  obtain ⟨q, power⟩ : v.N ∣ 2 ^ 5 := by
    rw [size] at fits ⊢
    exact pow_dvd_pow 2 ((Nat.pow_le_pow_iff_right one_lt_two).mp fits)
  have blocks : bx * v.blockDim = v.N * (bx * groups * 2) := by
    rw [whole, NperGroup]
    ring
  rw [laneid, NperGroup, Nat.mod_mul_right_mod, blocks, Nat.mul_add_mod] at low
  have own : (tx + i) / v.N = tx / v.N := add_div_same (by omega)
  have index : (bx * v.blockDim + (tx + i)) / v.N = (bx * v.blockDim + tx) / v.N := by
    rw [← Nat.add_assoc]
    refine add_div_same ?_
    rw [blocks, Nat.mul_add_mod]
    omega
  refine ⟨⟨?_, ?_⟩, ?_⟩
  · have inside := active.1.1
    have rows : v.blockDim = groups * 2 * v.N := by
      rw [whole, NperGroup]
      ring
    rw [rows] at inside ⊢
    exact (Nat.div_lt_iff_lt_mul (by omega)).mp (own ▸ (Nat.div_lt_iff_lt_mul (by omega)).mpr inside)
  · have proof := active.1.2
    rw [curp, NperGroup, ← Nat.div_div_eq_div_mul] at proof ⊢
    rwa [index]
  · have warp := active.2
    rw [show 32 = v.N * q from power, ← Nat.div_div_eq_div_mul] at warp ⊢
    rwa [own]

/-- With a stride below the half of a group that fits in a warp, a lane reads the cells of its own warp only. -/
private theorem addUp_reads (size : v.N = 2 ^ v.logN) (whole : v.blockDim = groups * v.NperGroup) (fits : v.N ≤ 32)
    (stride : 2 * i ≤ v.N) : Warps.Reads (v.own bx) (v.fixed bx) w (v.addUp ops bx i) := by
  intro s s' same c mine
  have lane : c / 3 < v.blockDim := mine.1.1
  rw [addUp, addUp, storePoints_zero lane, storePoints_zero lane]
  refine if_ctx_congr Iff.rfl ?_ fun _ => same c (.inl mine)
  rintro ⟨active, low⟩
  rw [point_agree same active, point_agree same (active.add size whole fits low stride)]

private theorem folds_reads (size : v.N = 2 ^ v.logN) (whole : v.blockDim = groups * v.NperGroup) (fits : v.N ≤ 32) :
    ∀ statement ∈ v.folds ops bx, Warps.Reads (v.own bx) (v.fixed bx) w statement := by
  intro statement member
  rw [folds, List.mem_cons, List.mem_append, List.mem_map, List.mem_map] at member
  obtain rfl | ⟨k, -, rfl⟩ | ⟨i, stride, rfl⟩ := member
  · exact fun s s' same => load_loads s s' fun c constant => same c (.inr constant)
  · exact scale_reads
  · have := Reduction.le_of_mem_strides stride
    exact addUp_reads size whole fits (by omega)

/-- In a settled order each warp ends as it would alone. -/
theorem run_folds (size : v.N = 2 ^ v.logN) (whole : v.blockDim = groups * v.NperGroup) (fits : v.N ≤ 32)
    (order : Warps.Order v.warps v.statements) (settled : v.Settled bx order.history) (sh : ℕ → Big) :
    (∀ c ∈ v.fixed bx, Warps.run (v.addIpP ops bx :: v.folds ops bx) order.history sh c = sh c) ∧
      ∀ tx w, v.Active bx w tx →
        point (Warps.run (v.addIpP ops bx :: v.folds ops bx) order.history sh) tx = point (v.folded ops bx w sh) tx := by
  have pairs := pairs_le size whole
  have kept : ∀ u s, ∀ c ∈ v.fixed bx, v.addIpP ops bx u s c = s c := by
    rintro u s c ⟨_, behind | none⟩
    · rw [curx] at behind
      exact addIpP_untouched fun tx lane _ _ => by omega
    · exact addIpP_untouched fun tx lane _ _ => by simp [none] at lane
  have misses (w u : ℕ) (other : u ≠ w) :
      Warps.ahead u 0 w order.history ≤ 1 ∨ ∀ s, ∀ c ∈ v.own bx w, v.addIpP ops bx u s c = s c := by
    by_cases hits : v.Hits bx u w
    · exact .inl (settled u w other hits)
    · refine .inr fun s c mine => addIpP_untouched fun tx lane active tens same => hits ⟨tx, lane, active, tens, ?_⟩
      rw [← same]
      exact mine
  have paces (w : ℕ) := @Warps.run_settled _ (v.own bx) (v.fixed bx) (v.folds ops bx) (v.addIpP ops bx) order.history w
    cells_apart kept (misses w) folds_frames load_loads (folds_reads size whole fits) sh
  refine ⟨(paces 0).1, fun tx w active => point_congr fun c low high => ?_⟩
  have lane := active.1.1
  have warp := active.2
  have inside : w < v.warps := by
    rw [warps]
    omega
  have all : (v.folds ops bx).take (v.logN + (Reduction.strides (v.N / 2)).length + 1) = v.folds ops bx :=
    List.take_of_length_le (by simp [folds])
  have mine : c ∈ v.own bx w := by
    change v.Active bx w (c / 3)
    rwa [show c / 3 = tx by omega]
  rw [(paces w).2 (v.logN + (Reduction.strides (v.N / 2)).length)
    (by rw [order.complete w inside, statements]; omega) c mine, all]
  simp only [Warps.alone, folds, folded, List.foldl_cons, List.foldl_append, List.foldl_map]

/-- With one generator there are no challenges, and the second lane copies what is behind the points of its group. -/
theorem run_folds_single {g : ℕ} (group : v.Group groups bx g) (single : v.N = 1) (order : Warps.Order v.warps v.statements)
    (settled : v.Settled bx order.history) :
    point (Warps.run (v.addIpP ops bx :: v.folds ops bx) order.history (v.sumLR ops bx sh)) (g * v.NperGroup + 1 + v.N) =
      if g + 1 < groups ∧ bx * groups + g + 1 < v.totalN then (v.params (bx * groups + g + 1)).Gg 0
      else point sh (2 * (g + 1)) := by
  have bits : v.logN = 0 := by
    have power := group.size
    rw [single] at power
    exact (Nat.pow_eq_one.mp power.symm).resolve_left (by decide)
  have width : v.NperGroup = 2 := by rw [NperGroup, single]
  have cell : g * v.NperGroup + 1 + v.N = (g + 1) * v.NperGroup + 0 := by
    rw [width, single]
    ring
  have fits : v.N ≤ 32 := by omega
  obtain ⟨constant, paces⟩ := @run_folds ops v groups bx group.size group.whole fits order settled (v.sumLR ops bx sh)
  rw [cell]
  split
  · rename_i next
    have following : v.Group groups bx (g + 1) := ⟨group.size, group.whole, next.1, next.2⟩
    have lane : 0 < v.NperGroup := by omega
    rw [paces _ _ (following.active lane rfl), folded, single, bits, show 1 / 2 = 0 from rfl, Reduction.strides_zero]
    refine (point_load following lane rfl).trans ?_
    rw [if_pos (by omega)]
    rfl
  · rename_i last
    have returned : ¬ v.Alive bx (2 * (g + 1)) := by
      intro alive
      have inside : g + 1 < groups := by
        have lane := alive.1
        rw [group.whole, width] at lane
        omega
      have same : 2 * (g + 1) = (g + 1) * v.NperGroup + 0 := by
        rw [width]
        ring
      rw [same, alive_lane group.whole inside (by omega)] at alive
      exact last ⟨inside, alive⟩
    rw [width, Nat.mul_comm, Nat.add_zero]
    refine point_congr fun c low high => ?_
    have here : c / 3 = 2 * (g + 1) := by omega
    rw [constant c ⟨by rwa [here], .inr bits⟩, sumLR_outside (by rw [bits]; omega)]

end Pace

/-! ## The results of a block -/

section Block

variable {A : Type*} [AddCommGroup A] {ops : JpointOps Jpoint} {pt : Jpoint → A} {plain : Jpoint → A → Prop} {G : A}
  {v : IpVerify} {groups bx g : ℕ} {sh : ℕ → Big} {tmpgphp : ℕ → Jpoint}

/-- The challenge that the lanes of the proof find for the index `j`. -/
def taken (ops : JpointOps Jpoint) (v : IpVerify) (groups curp j : ℕ) : modN.Residue :=
  v.hashed ops (curp / groups) (curp % groups * v.logN + j)

/-- The point behind those of the group, where a proof has one generator. -/
def neighbour (v : IpVerify) (groups : ℕ) (sh : ℕ → ℕ → Big) (curp : ℕ) : Jpoint :=
  if curp % groups + 1 < groups ∧ curp + 1 < v.totalN then (v.params (curp + 1)).Gg 0
  else point (sh (curp / groups)) (2 * (curp % groups + 1))

/-- What the second result of a proof is: a sum over every other rescaled generator of the next proof. -/
def leftOver (pt : Jpoint → A) (ops : JpointOps Jpoint) (v : IpVerify) (groups : ℕ) (sh : ℕ → ℕ → Big) (curp : ℕ) : A :=
  if v.N = 1 then pt (v.neighbour groups sh curp)
  else ∑ j ∈ Finset.range (v.N / 2), (weight (v.taken ops groups curp) v.logN (2 * j + 1))⁻¹.val •
    pt (v.hprime ((curp + 1) * v.N + (2 * j + 1)))

/-- Both results of a proof. -/
structure Result (pt : Jpoint → A) (ops : JpointOps Jpoint) (v : IpVerify) (groups : ℕ) (sh : ℕ → ℕ → Big) (curp : ℕ)
    (tmpgphp : ℕ → Jpoint) : Prop where
  first : pt (tmpgphp (2 * curp)) = ∑ i ∈ Finset.range v.N,
    (weight (v.taken ops groups curp) v.logN i).val • pt ((v.params curp).Gg i)
  second : pt (tmpgphp (2 * curp + 1)) = v.leftOver pt ops groups sh curp

/-- The two lanes that store do it for their own proof. -/
private theorem scatter_group (group : v.Group groups bx g) {l : ℕ} (two : l < 2) :
    Lanes.scatter (fun tx => v.Alive bx tx ∧ v.laneid bx tx < 2) v.blockDim (fun tx => v.curp bx tx * 2 + v.laneid bx tx)
      (fun tx => point sh (tx + v.laneid bx tx * v.N)) tmpgphp (2 * (bx * groups + g) + l) =
        point sh (g * v.NperGroup + l + l * v.N) := by
  have lane : l < v.NperGroup := by
    have := group.pos
    rw [NperGroup]
    omega
  have address : v.curp bx (g * v.NperGroup + l) * 2 + v.laneid bx (g * v.NperGroup + l) = 2 * (bx * groups + g) + l := by
    rw [curp_lane group.whole lane, laneid_lane group.whole lane, Nat.mul_comm]
  have stored := @Lanes.scatter_lane _ v.blockDim tmpgphp (fun tx => v.Alive bx tx ∧ v.laneid bx tx < 2) _
    (fun tx => v.curp bx tx * 2 + v.laneid bx tx) (fun tx => point sh (tx + v.laneid bx tx * v.N)) (g * v.NperGroup + l)
    (lane_lt group.whole group.group lane) ⟨group.alive lane, by rwa [laneid_lane group.whole lane]⟩
  rw [address, laneid_lane group.whole lane] at stored
  apply stored
  intro tx _ active same
  -- the address tells the proof and the lane of the group
  have quotient : v.curp bx tx = bx * groups + g := by omega
  have remainder : v.laneid bx tx = l := by omega
  have index := Nat.div_add_mod (bx * v.blockDim + tx) v.NperGroup
  rw [← curp, ← laneid, quotient, remainder, ← lane_index group.whole] at index
  omega

/-- A block stores for none but its own proofs. -/
private theorem scatter_other (whole : v.blockDim = groups * v.NperGroup) {c : ℕ} (other : c / 2 / groups ≠ bx)
    (val : ℕ → Jpoint) : Lanes.scatter (fun tx => v.Alive bx tx ∧ v.laneid bx tx < 2) v.blockDim
      (fun tx => v.curp bx tx * 2 + v.laneid bx tx) val tmpgphp c = tmpgphp c := by
  refine Lanes.scatter_outside fun tx lane active same => other ?_
  have proof : c / 2 = v.curp bx tx := by omega
  rw [proof, curp, Nat.div_div_eq_div_mul, Nat.mul_comm v.NperGroup, ← whole, Nat.mul_comm,
    Nat.mul_add_div (Nat.zero_lt_of_lt lane), Nat.div_eq_of_lt lane, Nat.add_zero]

/-- A block leaves both results of each of its proofs. -/
theorem block_spec [Module modN.Residue A] (points : ops.Interprets (fun p a => pt p = a) plain G)
    (size : v.N = 2 ^ v.logN) (fits : v.N ≤ 32) (whole : v.blockDim = groups * v.NperGroup) (some : 0 < groups)
    (nonzero : ∀ t < v.logN * groups, v.curp bx t < v.totalN → v.hashed ops bx t ≠ 0)
    (order : Warps.Order v.warps v.statements) (settled : v.Settled bx order.history) (sh : ℕ → ℕ → Big) :
    ∃ out, v.block ops bx order tmpgphp (sh bx) = .some out ∧
      (∀ curp < v.totalN, curp / groups = bx → v.Result pt ops groups sh curp out) ∧
      ∀ c, c / 2 / groups ≠ bx → out c = tmpgphp c := by
  have width : 0 < v.NperGroup := by
    have := Nat.two_pow_pos v.logN
    rw [NperGroup, size]
    omega
  obtain ⟨sh₁, hashes, found, frame⟩ := @challenges_spec ops v bx (sh bx) fun t lane alive => by
    rw [groupPerBlock_eq whole width] at lane
    exact nonzero t lane alive.2
  refine ⟨_, by rw [block, hashes]; rfl, ?_, fun c other => scatter_other whole other _⟩
  intro curp proof place
  have index : bx * groups + curp % groups = curp := by
    rw [← place]
    exact Nat.div_add_mod' curp groups
  have group : v.Group groups bx (curp % groups) := ⟨size, whole, Nat.mod_lt curp some, by rwa [index]⟩
  have challenges : v.taken ops groups curp = fun j => v.hashed ops bx (curp % groups * v.logN + j) := by
    funext j
    rw [taken, place]
  obtain ⟨ended, last⟩ : ∃ ended, ended = Warps.run (v.addIpP ops bx :: v.folds ops bx) order.history (v.sumLR ops bx sh₁) :=
    ⟨_, rfl⟩
  have paces := (@run_folds ops v groups bx size whole fits order settled (v.sumLR ops bx sh₁)).2
  rw [← last] at paces
  constructor
  · have stored := @scatter_group v groups bx _ ended tmpgphp group 0 (by decide)
    have active : v.Active bx (curp % groups * v.NperGroup / 32) (curp % groups * v.NperGroup) := group.active width rfl
    have sum := folded_first points group fits found
    rw [index, Nat.zero_mul, Nat.add_zero, Nat.add_zero, paces _ _ active] at stored
    rw [index] at sum
    simp only [val_nsmul, challenges]
    rw [← sum, ← stored, last]
  · have stored := @scatter_group v groups bx _ ended tmpgphp group 1 (by decide)
    rw [index, Nat.one_mul] at stored
    rw [last] at stored
    refine (congrArg pt stored).trans ?_
    rw [leftOver]
    split
    · rename_i single
      have bits : v.logN = 0 := by
        rw [single] at size
        exact (Nat.pow_eq_one.mp size.symm).resolve_left (by decide)
      have behind := @run_folds_single ops v groups bx sh₁ _ group single order settled
      have initial : point sh₁ (2 * (curp % groups + 1)) = point (sh bx) (2 * (curp % groups + 1)) := by
        refine point_congr fun c _ _ => frame c ?_
        rw [curxinv, bits]
        omega
      rw [index, initial] at behind
      rw [behind, neighbour, place]
    · have more : 1 < v.N := by
        have := group.pos
        omega
      have sum := folded_second points group fits found more
      have lane : 1 + v.N < v.NperGroup := by
        rw [NperGroup]
        omega
      have active : v.Active bx ((curp % groups * v.NperGroup + 1 + v.N) / 32) (curp % groups * v.NperGroup + 1 + v.N) := by
        rw [Nat.add_assoc]
        exact group.active lane rfl
      rw [index] at sum
      rw [← last, paces _ _ active]
      simp only [val_nsmul, challenges]
      exact sum

/-- A launch leaves both results of every proof whose block it has, in whatever order its blocks run. -/
theorem kernel_ipverify_spec [Module modN.Residue A] (points : ops.Interprets (fun p a => pt p = a) plain G)
    (size : v.N = 2 ^ v.logN) (fits : v.N ≤ 32) (whole : v.blockDim = groups * v.NperGroup) (some : 0 < groups)
    {blocks : List ℕ}
    (nonzero : ∀ bx ∈ blocks, ∀ t < v.logN * groups, v.curp bx t < v.totalN → v.hashed ops bx t ≠ 0)
    (orders : ℕ → Warps.Order v.warps v.statements) (settled : ∀ bx ∈ blocks, v.Settled bx (orders bx).history)
    (tmpgphp : ℕ → Jpoint) (sh : ℕ → ℕ → Big) :
    ∃ out, v.kernel_ipverify ops tmpgphp blocks orders sh = .some out ∧
      ∀ curp < v.totalN, curp / groups ∈ blocks → v.Result pt ops groups sh curp out := by
  have loop : ∃ out, blocks.foldlM (fun tmpgphp bx => v.block ops bx (orders bx) tmpgphp (sh bx)) tmpgphp = .some out ∧
      ∀ bx ∈ blocks, ∀ curp < v.totalN, curp / groups = bx → v.Result pt ops groups sh curp out := by
    apply Loops.foldlM_covers (I := fun _ => True)
      (R := fun bx out => ∀ curp < v.totalN, curp / groups = bx → v.Result pt ops groups sh curp out)
    · intro bx member tmpgphp _
      obtain ⟨out, ends, here, others⟩ := @block_spec _ _ ops pt plain G v groups bx tmpgphp _ points size fits whole
        some (nonzero bx member) (orders bx) (settled bx member) sh
      refine ⟨out, ends, trivial, here, fun bx' before curp proof place => ?_⟩
      rcases eq_or_ne bx' bx with rfl | other
      · exact here curp proof place
      · obtain ⟨first, second⟩ := before curp proof place
        have even : 2 * curp / 2 / groups ≠ bx := by
          rwa [Nat.mul_div_cancel_left curp (by decide), place]
        have odd : (2 * curp + 1) / 2 / groups ≠ bx := by
          rwa [show (2 * curp + 1) / 2 = curp by omega, place]
        exact ⟨by rw [others _ even, first], by rw [others _ odd, second]⟩
    · trivial
  obtain ⟨out, ends, all⟩ := loop
  exact ⟨out, ends, fun curp proof launched => all _ launched curp proof rfl⟩

/-- The challenges of the first groups of a block are those of their proofs. -/
theorem taken_eq_challenge (whole : v.blockDim = groups * v.NperGroup) {curp j : ℕ}
    (early : curp % groups * v.logN + j < v.NperGroup) : v.taken ops groups curp j = v.challenge ops curp j := by
  have lane : v.curp (curp / groups) (curp % groups * v.logN + j) = curp / groups * groups := by
    have first := @curp_lane v groups (curp / groups) 0 _ whole early
    rwa [Nat.zero_mul, Nat.zero_add, Nat.add_zero] at first
  have index := Nat.div_add_mod' curp groups
  have left : curp / groups * groups * v.logN + (curp % groups * v.logN + j) = curp * v.logN + j := by
    calc curp / groups * groups * v.logN + (curp % groups * v.logN + j)
        = (curp / groups * groups + curp % groups) * v.logN + j := by ring
      _ = curp * v.logN + j := by rw [index]
  have right : (v.totalN + curp / groups * groups) * v.logN + (curp % groups * v.logN + j) =
      (v.totalN + curp) * v.logN + j := by
    rw [Nat.add_mul, Nat.add_assoc, left, Nat.add_mul, Nat.add_assoc]
  rw [taken, hashed, lane, challenge, challenge, left, right]

end Block

/-- Where the functions on points are the operations of a group, there are at most the 32 generators of a setup, and no warp
copies them before `ipP` has been added in its cells, each proof of a batch is left with the sums over its own generators
under its own challenges if and only if the challenges that its lanes find give the same first sum, and the second one
happens to be what the generators of the next proof give. -/
theorem batch_folds_iff {A : Type} [AddCommGroup A] (order : Nat.card A = modN.Pa.toNat) {ops : JpointOps Jpoint}
    {pt : Jpoint → A} {plain : Jpoint → A → Prop} {G : A} (points : ops.Interprets (fun p a => pt p = a) plain G)
    (v : IpVerify) (size : v.N = 2 ^ v.logN) (fits : v.N ≤ 32) {groups : ℕ} (whole : v.blockDim = groups * (v.N * 2))
    (some : 0 < groups) {blocks : List ℕ}
    (nonzero : ∀ bx ∈ blocks, ∀ t < v.logN * groups, v.curp bx t < v.totalN → v.challenge ops (v.curp bx t) t ≠ 0)
    (orders : ℕ → Warps.Order v.warps v.statements) (settled : ∀ bx ∈ blocks, v.Settled bx (orders bx).history)
    (tmpgphp : ℕ → Jpoint) (sh : ℕ → ℕ → Big) :
    ∃ out, v.kernel_ipverify ops tmpgphp blocks orders sh = .some out ∧ ∀ curp < v.totalN, curp / groups ∈ blocks →
      (pt (out (2 * curp)) = ∑ i ∈ Finset.range v.N,
          (weight (v.challenge ops curp) v.logN i).val • pt ((v.params curp).Gg i) ∧
        pt (out (2 * curp + 1)) = ∑ i ∈ Finset.range v.N,
          (weight (v.challenge ops curp) v.logN i)⁻¹.val • pt (v.hprime (curp * v.N + i)) ↔
      ∑ i ∈ Finset.range v.N, (weight (v.taken ops groups curp) v.logN i).val • pt ((v.params curp).Gg i) =
          ∑ i ∈ Finset.range v.N, (weight (v.challenge ops curp) v.logN i).val • pt ((v.params curp).Gg i) ∧
        v.leftOver pt ops groups sh curp = ∑ i ∈ Finset.range v.N,
          (weight (v.challenge ops curp) v.logN i)⁻¹.val • pt (v.hprime (curp * v.N + i))) := by
  let _ : Module modN.Residue A := AddCommGroup.zmodModule fun a => by
    rw [← order]
    exact card_nsmul_eq_zero'
  obtain ⟨out, ends, all⟩ := kernel_ipverify_spec points size fits whole some nonzero orders settled tmpgphp sh
  refine ⟨out, ends, fun curp proof launched => ?_⟩
  obtain ⟨first, second⟩ := all curp proof launched
  rw [first, second]

/-! ## Two proofs with two generators -/

/-- The residue of the abscissa. -/
def abscissa (p : Jpoint) : modN.Residue := p.x.toNat

/-- The operations of the residues on the abscissas, under a hash that is always one. -/
def abscissaOps : JpointOps Jpoint where
  pG_mon := ⟨dc_ONE, 0, 0⟩
  dh_ellipticAdd_JJ p q := ⟨.ofNat ((p.x.toNat + q.x.toNat) % modN.Pa.toNat), 0, 0⟩
  dh_point_mult_finalversion p k := ⟨.ofNat (k.toNat * p.x.toNat % modN.Pa.toNat), 0, 0⟩
  d_base_point_mul k := ⟨.ofNat (k.toNat % modN.Pa.toNat), 0, 0⟩
  cal_minus_Jpoint p := ⟨.ofNat ((modN.Pa.toNat - 1) * p.x.toNat % modN.Pa.toNat), 0, 0⟩
  jpoint_to_mon := id
  jpoint_from_mon := id
  Jpoint2Apoint := id
  device_hashBP _ _ := (dc_ONE, dc_ONE)

private theorem residue_ofNat (k : ℕ) : ((Big.ofNat (k % modN.Pa.toNat)).toNat : modN.Residue) = k := by
  have positive : 0 < modN.Pa.toNat := by decide
  have small : k % modN.Pa.toNat < 2 ^ 256 := (Nat.mod_lt k positive).trans modN.Pa.toNat_lt
  rw [Big.toNat_ofNat, Nat.mod_eq_of_lt small, ZMod.natCast_mod]

private theorem abscissaOps_interprets :
    abscissaOps.Interprets (fun p a => abscissa p = a) (fun p a => abscissa p = a) 1 := by
  have one : (dc_ONE.toNat : modN.Residue) = 1 := by
    rw [show dc_ONE.toNat = 1 from rfl, Nat.cast_one]
  have last : ((modN.Pa.toNat - 1 : ℕ) : modN.Residue) = -1 := by
    rw [Nat.cast_sub (by decide), ZMod.natCast_self, Nat.cast_one, zero_sub]
  refine ⟨one, ?_, ?_, ?_, ?_, fun point => point, fun point => point⟩
  all_goals simp only [abscissa, abscissaOps, residue_ofNat]
  · rintro p q _ _ rfl rfl
    exact Nat.cast_add _ _
  · rintro p _ k rfl
    rw [Nat.cast_mul, nsmul_eq_mul]
  · intro k
    rw [nsmul_eq_mul, mul_one]
  · rintro p _ rfl
    rw [Nat.cast_mul, last, neg_one_mul]

/-- Two proofs with the generators one in `Gg`, of which each takes a block. -/
def twoProofs (hprime : ℕ → Jpoint) : IpVerify where
  LsRs _ := ⟨dc_ONE, 0, 0⟩
  params _ := ⟨⟨dc_ONE, 0, 0⟩, ⟨dc_ONE, 0, 0⟩, 2, fun _ => ⟨dc_ONE, 0, 0⟩, fun _ => ⟨dc_ONE, 0, 0⟩, 0, 0,
    ⟨dc_ONE, 0, 0⟩, ⟨dc_ONE, 0, 0⟩⟩
  hprime := hprime
  N := 2
  logN := 1
  totalN := 2
  N_DATA := 2
  blockDim := 4

private theorem twoProofs_challenge (hprime : ℕ → Jpoint) (row j : ℕ) :
    (twoProofs hprime).challenge abscissaOps row j = 1 := by
  rw [challenge, show (abscissaOps.device_hashBP _ _).1.toNat = 1 from rfl, Nat.cast_one]

private theorem weight_ones {x : ℕ → modN.Residue} (ones : ∀ j, x j = 1) (n i : ℕ) : weight x n i = 1 := by
  refine Finset.prod_eq_one fun k _ => ?_
  rw [ones]
  split
  · rfl
  · exact inv_one

private theorem val_one_nsmul (a : modN.Residue) : (1 : modN.Residue).val • a = a := by
  rw [val_nsmul, one_smul]

/-- What the second result of the first proof is. -/
private theorem twoProofs_leftOver (hprime : ℕ → Jpoint) (sh : ℕ → ℕ → Big) :
    (twoProofs hprime).leftOver abscissa abscissaOps 1 sh 0 = abscissa (hprime 3) := by
  have ones (j : ℕ) : (twoProofs hprime).taken abscissaOps 1 0 j = 1 := twoProofs_challenge hprime _ _
  rw [leftOver, if_neg (show ¬ (twoProofs hprime).N = 1 from Nat.succ_ne_self 1),
    show (twoProofs hprime).N / 2 = 1 from Nat.div_self two_pos, Finset.sum_range_one, weight_ones ones, inv_one,
    val_one_nsmul]
  rfl

private theorem twoProofs_runs (hprime tmpgphp : ℕ → Jpoint) (sh : ℕ → ℕ → Big) :
    ∃ out, (twoProofs hprime).kernel_ipverify abscissaOps tmpgphp [0, 1] (inStep _) sh = some out ∧
      abscissa (out 1) = abscissa (hprime 3) := by
  obtain ⟨out, ends, all⟩ := @kernel_ipverify_spec _ _ abscissaOps abscissa _ 1 (twoProofs hprime) 1 _
    abscissaOps_interprets rfl (show 2 ≤ 32 by decide) rfl one_pos [0, 1]
    (fun bx _ t _ _ => by rw [hashed, twoProofs_challenge]; exact one_ne_zero) (inStep _) (fun bx _ => settled_inStep _ bx)
    tmpgphp sh
  exact ⟨out, ends, (all 0 two_pos (by decide)).second.trans (twoProofs_leftOver hprime sh)⟩

/-- The inverses of all challenges are one. -/
private theorem twoProofs_sum (hprime : ℕ → Jpoint) : ∑ i ∈ Finset.range 2,
    (weight ((twoProofs hprime).challenge abscissaOps 0) 1 i)⁻¹.val • abscissa (hprime (0 * 2 + i)) =
      abscissa (hprime 0) + abscissa (hprime 1) := by
  simp only [weight_ones (twoProofs_challenge hprime 0), inv_one, val_one_nsmul]
  rw [Finset.sum_range_succ, Finset.sum_range_one]

/-- The point with the abscissa one, but zero at one index. -/
def oneBut (hole i : ℕ) : Jpoint := ⟨if i = hole then 0 else dc_ONE, 0, 0⟩

private theorem abscissa_oneBut {hole i : ℕ} : abscissa (oneBut hole i) = if i = hole then 0 else 1 := by
  rw [abscissa, oneBut]
  split
  · exact Nat.cast_zero
  · exact Nat.cast_one

theorem batch_folds_iff_two : ∃ out,
    (twoProofs (oneBut 1)).kernel_ipverify abscissaOps (oneBut 0) [0, 1] (inStep _) (fun _ _ => 0) = some out ∧
      abscissa (out 1) = abscissa (oneBut 1 0) + abscissa (oneBut 1 1) := by
  obtain ⟨out, ends, folds⟩ := @batch_folds_iff _ _ (Nat.card_zmod _) abscissaOps abscissa _ 1 abscissaOps_interprets
    (twoProofs (oneBut 1)) rfl (by decide) 1 rfl one_pos [0, 1]
    (fun bx _ t _ _ => by rw [twoProofs_challenge]; exact one_ne_zero) (inStep _) (fun bx _ => settled_inStep _ bx)
    (oneBut 0)
    (fun _ _ => 0)
  have ones (j : ℕ) : (twoProofs (oneBut 1)).taken abscissaOps 1 0 j = 1 := twoProofs_challenge _ _ _
  have own := twoProofs_sum (oneBut 1)
  refine ⟨out, ends, ?_⟩
  refine ((folds 0 two_pos (by decide)).mpr ⟨?_, ?_⟩).2.trans own
  · simp only [weight_ones ones, weight_ones (twoProofs_challenge (oneBut 1) 0)]
  · refine (twoProofs_leftOver (oneBut 1) _).trans (Eq.trans ?_ own.symm)
    simp only [abscissa_oneBut]
    norm_num

/-- The first of two proofs with all generators one is left with one, not with two, and with zero when a generator of the
second proof is zero. -/
theorem second_sum_of_next : ∃ out out',
    (twoProofs (oneBut 4)).kernel_ipverify abscissaOps (oneBut 0) [0, 1] (inStep _) (fun _ _ => 0) = some out ∧
      abscissa (out 1) ≠ ∑ i ∈ Finset.range 2,
        (weight ((twoProofs (oneBut 4)).challenge abscissaOps 0) 1 i)⁻¹.val • abscissa (oneBut 4 (0 * 2 + i)) ∧
      (twoProofs (oneBut 3)).kernel_ipverify abscissaOps (oneBut 0) [0, 1] (inStep _) (fun _ _ => 0) = some out' ∧
      abscissa (out' 1) ≠ abscissa (out 1) := by
  obtain ⟨out, ends, second⟩ := twoProofs_runs (oneBut 4) (oneBut 0) (fun _ _ => 0)
  obtain ⟨out', ends', second'⟩ := twoProofs_runs (oneBut 3) (oneBut 0) (fun _ _ => 0)
  refine ⟨out, out', ends, ?_, ends', ?_⟩
  · rw [twoProofs_sum, second]
    simp only [abscissa_oneBut]
    change (1 : modN.Residue) ≠ 1 + 1
    exact fun same => one_ne_zero (left_eq_add.mp same)
  · rw [second, second']
    simp only [abscissa_oneBut]
    norm_num

/-! ## The launch -/

private theorem weight_congr {x x' : ℕ → modN.Residue} {n : ℕ} (same : ∀ j < n, x j = x' j) (i : ℕ) :
    weight x n i = weight x' n i := by
  refine Finset.prod_congr rfl fun k member => ?_
  rw [same _ (by have := Finset.mem_range.mp member; omega)]

section Launch

variable {A : Type} [AddCommGroup A] {ops : JpointOps Jpoint} {pt : Jpoint → A} {plain : Jpoint → A → Prop} {G : A}
  {d_lsrs d_hprime : ℕ → Jpoint} {d_params : ℕ → BPSetupParams Jpoint} {N_DATA logn : ℕ}

/-- With 16 or 32 generators the blocks of a launch hold every proof, and every lane finds the challenges of its own proof:
where no warp copies generators before `ipP` has been added in its cells, the first result of a proof is the sum over its
own generators. The second one is a sum over every other rescaled generator of the proof behind it. -/
theorem gpu_ipverify_folds (order : Nat.card A = modN.Pa.toNat) (points : ops.Interprets (fun p a => pt p = a) plain G)
    (low : 4 ≤ logn) (high : logn ≤ 5) (size : (d_params 0).N = 2 ^ logn)
    (nonzero : ∀ curp < N_DATA, ∀ t < logn * (128 / 2 ^ logn),
      (launched d_lsrs d_params d_hprime N_DATA).challenge ops curp t ≠ 0)
    {blocks : List ℕ} (all : blocks.Perm (List.range (ipverifyBlocks (2 ^ logn) N_DATA)))
    (orders : ℕ → Warps.Order (launched d_lsrs d_params d_hprime N_DATA).warps
      (launched d_lsrs d_params d_hprime N_DATA).statements)
    (settled : ∀ bx ∈ blocks, (launched d_lsrs d_params d_hprime N_DATA).Settled bx (orders bx).history)
    (d_tmpgphp : ℕ → Jpoint) (sh : ℕ → ℕ → Big) :
    ∃ out, gpu_ipverify ops d_tmpgphp d_lsrs d_params d_hprime N_DATA blocks orders sh = some out ∧ ∀ curp < N_DATA,
      pt (out (2 * curp)) = ∑ i ∈ Finset.range (2 ^ logn),
          (weight ((launched d_lsrs d_params d_hprime N_DATA).challenge ops curp) logn i).val • pt ((d_params curp).Gg i) ∧
        pt (out (2 * curp + 1)) = ∑ j ∈ Finset.range (2 ^ logn / 2),
          (weight ((launched d_lsrs d_params d_hprime N_DATA).challenge ops curp) logn (2 * j + 1))⁻¹.val •
            pt (d_hprime ((curp + 1) * 2 ^ logn + (2 * j + 1))) := by
  let _ : Module modN.Residue A := AddCommGroup.zmodModule fun a => by
    rw [← order]
    exact card_nsmul_eq_zero'
  have log : Nat.log2 (d_params 0).N = logn := by
    rw [size, Nat.log2_two_pow]
  obtain ⟨groups, fit⟩ : ∃ groups, groups = 128 / 2 ^ logn := ⟨_, rfl⟩
  obtain ⟨whole, some, room, half⟩ : 256 = groups * (2 ^ logn * 2) ∧ 0 < groups ∧ groups * logn ≤ 2 ^ logn * 2 ∧
      256 / 2 ^ logn / 2 = groups := by
    rw [fit]
    interval_cases logn <;> decide
  have N : (launched d_lsrs d_params d_hprime N_DATA).N = 2 ^ logn := size
  have logN : (launched d_lsrs d_params d_hprime N_DATA).logN = logn := log
  rw [← fit] at nonzero
  obtain ⟨out, ends, results⟩ := @kernel_ipverify_spec _ _ ops pt plain G (launched d_lsrs d_params d_hprime N_DATA) groups _
    points (by rw [N, logN]) (by rw [N]; exact Nat.pow_le_pow_right two_pos high)
      (by rw [NperGroup, N]; exact whole) some blocks
    (fun bx _ t lane alive => nonzero _ alive t (by rw [← logN]; exact lane)) orders settled d_tmpgphp sh
  refine ⟨out, ends, fun curp inside => ?_⟩
  have place : curp / groups ∈ blocks := by
    rw [all.mem_iff, List.mem_range, ipverifyBlocks, half]
    calc curp / groups < curp / groups + 1 := Nat.lt_succ_self _
      _ = (curp + groups) / groups := (Nat.add_div_right curp some).symm
      _ ≤ (N_DATA + groups - 1) / groups := Nat.div_le_div_right (by omega)
  have own : ∀ j < logn, (launched d_lsrs d_params d_hprime N_DATA).taken ops groups curp j =
      (launched d_lsrs d_params d_hprime N_DATA).challenge ops curp j := by
    intro j less
    apply taken_eq_challenge
    · rw [NperGroup, N]
      exact whole
    · rw [logN, NperGroup, N]
      have remainder := Nat.mod_lt curp some
      calc curp % groups * logn + j < (curp % groups + 1) * logn := by
            rw [Nat.add_mul, Nat.one_mul]
            omega
        _ ≤ groups * logn := Nat.mul_le_mul_right logn remainder
        _ ≤ 2 ^ logn * 2 := room
  obtain ⟨first, second⟩ := results curp inside place
  have several : 2 ^ logn ≠ 1 := by
    intro one
    have zero := (Nat.pow_eq_one.mp one).resolve_left (by decide)
    omega
  rw [leftOver, N, logN, if_neg several] at second
  rw [N, logN] at first
  simp only [weight_congr own] at first second
  exact ⟨first, second⟩

/-- A setup with 16 generators. -/
private def sixteen : BPSetupParams Jpoint := ⟨⟨dc_ONE, 0, 0⟩, ⟨dc_ONE, 0, 0⟩, 16, fun _ => ⟨dc_ONE, 0, 0⟩,
  fun _ => ⟨dc_ONE, 0, 0⟩, 0, 0, ⟨dc_ONE, 0, 0⟩, ⟨dc_ONE, 0, 0⟩⟩

theorem gpu_ipverify_folds_sixteen : ∃ out,
    gpu_ipverify abscissaOps (fun _ => ⟨0, 0, 0⟩) (fun _ => ⟨dc_ONE, 0, 0⟩) (fun _ => sixteen)
      (fun _ => ⟨dc_ONE, 0, 0⟩) 1 [0]
      (inStep _) (fun _ _ => 0) = some out ∧ abscissa (out 0) = 16 ∧ abscissa (out 1) = 8 := by
  have ones (row j : ℕ) : (launched (fun _ => ⟨dc_ONE, 0, 0⟩) (fun _ => sixteen) (fun _ => ⟨dc_ONE, 0, 0⟩) 1).challenge
      abscissaOps row j = 1 := by
    rw [challenge, show (abscissaOps.device_hashBP _ _).1.toNat = 1 from rfl, Nat.cast_one]
  obtain ⟨out, ends, folds⟩ := @gpu_ipverify_folds _ _ abscissaOps abscissa _ 1 (fun _ => ⟨dc_ONE, 0, 0⟩)
    (fun _ => ⟨dc_ONE, 0, 0⟩) (fun _ => sixteen) 1 4 (Nat.card_zmod _) abscissaOps_interprets le_rfl (by decide) rfl
    (fun _ _ t _ => by rw [ones]; exact one_ne_zero) [0] (List.Perm.refl [0]) (inStep _) (fun bx _ => settled_inStep _ bx)
    (fun _ => ⟨0, 0, 0⟩) (fun _ _ => 0)
  obtain ⟨first, second⟩ := folds 0 one_pos
  have one : abscissa ⟨dc_ONE, 0, 0⟩ = 1 := Nat.cast_one
  simp only [weight_ones (ones 0), inv_one, val_one_nsmul] at first second
  refine ⟨out, ends, first.trans ?_, second.trans ?_⟩
  · simp only [sixteen, one, Finset.sum_const, Finset.card_range, nsmul_one]
    norm_num
  · simp only [one, Finset.sum_const, Finset.card_range, nsmul_one]
    norm_num

end Launch

end IpVerify

end DbcSnark.Gpuec
