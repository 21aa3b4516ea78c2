import DbcSnark.Proofs.Gpuec.Curve

/-! # The base point

The order of the base point is the number of `dc_N`, which is prime: double-and-add finds the opposite of the base
point as its multiple by the predecessor of that number.
-/

namespace DbcSnark.Gpuec

open WeierstrassCurve.Affine (Point)

private theorem prime_30 : Nat.Prime 545358713 := by
  apply Pocklington.prime_of_factors (by norm_num) {28181} (by norm_num) 2
    (by reduce_mod_char)
  intro q member
  rw [Finset.mem_singleton] at member
  subst member
  exact ⟨by norm_num, 19352,
    160797069, by norm_num, by reduce_mod_char⟩

private theorem prime_95 : Nat.Prime 29047611873442575647497758179 := by
  apply Pocklington.prime_of_factors (by norm_num) {545358713, 305873, 293} (by norm_num) 2
    (by reduce_mod_char)
  intro q member
  simp only [Finset.mem_insert, Finset.mem_singleton] at member
  rcases member with rfl | rfl | rfl
  · exact ⟨prime_30, 53263313083699784306,
      9643653164146849936640551407, by norm_num, by reduce_mod_char⟩
  · exact ⟨by norm_num, 94966250285061367454786,
      10871710434968333415178461031, by norm_num, by reduce_mod_char⟩
  · exact ⟨by norm_num, 99138607076595821322517946,
      14515011890323753447344653747, by norm_num, by reduce_mod_char⟩

private theorem prime_109 : Nat.Prime 341948486974166000522343609283189 := by
  apply Pocklington.prime_of_factors (by norm_num) {29047611873442575647497758179} (by norm_num) 2
    (by reduce_mod_char)
  intro q member
  rw [Finset.mem_singleton] at member
  subst member
  exact ⟨prime_95, 11772,
    230912421032721991545077801069578, by norm_num, by reduce_mod_char⟩

private theorem prime_68 : Nat.Prime 174723607534414371449 := by
  apply Pocklington.prime_of_factors (by norm_num) {44706919, 120233} (by norm_num) 2
    (by reduce_mod_char)
  intro q member
  simp only [Finset.mem_insert, Finset.mem_singleton] at member
  rcases member with rfl | rfl
  · exact ⟨by norm_num, 3908200597192,
      97513711501333925610, by norm_num, by reduce_mod_char⟩
  · exact ⟨by norm_num, 1453208416444856,
      14283963398578376782, by norm_num, by reduce_mod_char⟩

private theorem prime_N : Nat.Prime 115792089237316195423570985008687907852837564279074904382605163141518161494337 := by
  apply Pocklington.prime_of_factors (by norm_num) {341948486974166000522343609283189, 174723607534414371449} (by norm_num) 2
    (by reduce_mod_char)
  intro q member
  simp only [Finset.mem_insert, Finset.mem_singleton] at member
  rcases member with rfl | rfl
  · exact ⟨prime_109, 338624364920977752681389262317185522840540224,
      57112704531168816596589732607440886458891436705097388389849158079043094771009, by norm_num, by reduce_mod_char⟩
  · exact ⟨prime_68, 662715765037699607481235088557493206623080876315205958464,
      82825258999207434266669200773575514537865192807825383256844795767869923999078, by norm_num, by reduce_mod_char⟩


theorem modN_toNat :
    modN.Pa.toNat = 115792089237316195423570985008687907852837564279074904382605163141518161494337 := by
  decide

instance : Fact (Nat.Prime modN.Pa.toNat) := ⟨modN_toNat ▸ prime_N⟩

/-- The abscissa of the base point. -/
def baseX : modP.Residue := 55066263022277343669578718895168534326250603453777594175500187360389116729240

/-- The ordinate of the base point. -/
def baseY : modP.Residue := 32670510020758816978083085130507043184471273380659243275938904335757337482424

/-- The bits of the predecessor of the order, below the leading one. -/
@[irreducible] private def bits : List Bool :=
  (List.range 255).reverse.map (115792089237316195423570985008687907852837564279074904382605163141518161494336).testBit

theorem baseNonsingular : curve.Nonsingular baseX baseY := by
  apply nonsingular
  decide +kernel

/-- The base point. -/
def basePoint : curve.Point := .some baseX baseY baseNonsingular

theorem basePoint_ne_zero : basePoint ≠ 0 := Point.some_ne_zero _

private theorem foldl_bits : bits.foldl (fun n bit => 2 * n + bit.toNat) 1 + 1 = modN.Pa.toNat := by
  rw [modN_toNat]
  decide +kernel

/-- Double-and-add ends at coordinates of the opposite point. -/
private theorem multiple_bits : ∃ t, Jacobian.multiple 0 baseX baseY bits = some t ∧
    t.1 = baseX * t.2.2 ^ 2 ∧ t.2.1 = -baseY * t.2.2 ^ 3 ∧ t.2.2 ≠ 0 := by
  have found : (Jacobian.multiple 0 baseX baseY bits).any
      (fun t => t.1 = baseX * t.2.2 ^ 2 ∧ t.2.1 = -baseY * t.2.2 ^ 3 ∧ t.2.2 ≠ 0) = true := by
    decide +kernel
  obtain ⟨t, multiple, holds⟩ := Option.any_eq_true _ _ |>.mp found
  exact ⟨t, multiple, of_decide_eq_true holds⟩

/-- The order of the base point. -/
theorem addOrderOf_basePoint : addOrderOf basePoint = modN.Pa.toNat := by
  apply addOrderOf_eq_prime
  · obtain ⟨t, multiple, abscissa, ordinate, nonzero⟩ := multiple_bits
    have holds := Jacobian.holds_multiple (h := baseNonsingular) multiple
    rw [← foldl_bits, succ_nsmul]
    cases point : bits.foldl (fun n bit => 2 * n + bit.toNat) 1 • Point.some baseX baseY baseNonsingular with
    | zero =>
      rw [point] at holds
      exact absurd (holds.eq_zero_iff.mpr rfl) nonzero
    | some x y h =>
      rw [point] at holds
      obtain ⟨finite, hx, hy⟩ := holds
      rw [basePoint, point]
      apply Point.add_of_Y_eq
      · exact mul_right_cancel₀ (pow_ne_zero 2 finite) (hx.symm.trans abscissa)
      · rw [Jacobian.negY_eq]
        exact mul_right_cancel₀ (pow_ne_zero 3 finite) (hy.symm.trans ordinate)
  · exact basePoint_ne_zero

/-- The first entry of `basePointMulPCT`. -/
def baseWords : Apoint where
  x := ⟨0xd7362e5a487e2097, 0x231e295329bc66db, 0x979f48c033fd129c, 0x9981e643e9089f48⟩
  y := ⟨0xb15ea6d2d3dbabe2, 0x8dfc5d5d1f1dc64d, 0x70b6b59aac19c136, 0xcf3f851fd4a582d6⟩

theorem represents_basePoint : baseWords.Represents basePoint := by
  have words := Apoint.exists_represents (A := baseWords)
    55066263022277343669578718895168534326250603453777594175500187360389116729240
    32670510020758816978083085130507043184471273380659243275938904335757337482424 (by decide) (by decide) (by decide)
  obtain ⟨_, represents⟩ := words
  exact represents

end DbcSnark.Gpuec
