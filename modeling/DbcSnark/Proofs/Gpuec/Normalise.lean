import DbcSnark.Model.Gpuec.Normalise
import DbcSnark.Proofs.Gpuec.MonInv
import DbcSnark.Proofs.Gpuec.Point

/-! # Correctness of the normalisation

The inverse of a plain number is in Montgomery form, so `dh_normlize_J` takes `z` out of Montgomery form before it
inverts, and `Jpoint2Apoint` inverts the plain `z` directly. From there on the radix cancels in every product.
-/

namespace DbcSnark.Gpuec

open Modulus (Mont Plain)

/-- The coordinates are below the modulus. -/
structure Jpoint.Reduced (J : Jpoint) : Prop where
  x : J.x.toNat < modP.Pa.toNat
  y : J.y.toNat < modP.Pa.toNat
  z : J.z.toNat < modP.Pa.toNat

/-- The coordinates are the residues as they are. -/
structure Jpoint.PlainResidues (J : Jpoint) (X Y Z : modP.Residue) : Prop where
  x : modP.Plain J.x X
  y : modP.Plain J.y Y
  z : modP.Plain J.z Z

variable {J K : Jpoint} {X Y Z : modP.Residue}

theorem Jpoint.Reduced.exists_residues (reduced : J.Reduced) : ∃ X Y Z, J.Residues X Y Z := by
  obtain ⟨X, x⟩ := Modulus.exists_mont reduced.x
  obtain ⟨Y, y⟩ := Modulus.exists_mont reduced.y
  obtain ⟨Z, z⟩ := Modulus.exists_mont reduced.z
  exact ⟨X, Y, Z, x, y, z⟩

theorem Jpoint.Reduced.plain (reduced : J.Reduced) : J.PlainResidues J.x.toNat J.y.toNat J.z.toNat :=
  ⟨⟨reduced.x, rfl⟩, ⟨reduced.y, rfl⟩, ⟨reduced.z, rfl⟩⟩

theorem Jpoint.Reduced.z_ne_zero (reduced : J.Reduced) (finite : J.z.toNat ≠ 0) : (J.z.toNat : modP.Residue) ≠ 0 := by
  rw [ne_eq, ZMod.natCast_eq_zero_iff]
  exact fun divides => finite (Nat.eq_zero_of_dvd_of_lt divides reduced.z)

theorem Jpoint.PlainResidues.of_plain {x y z : Big} (hx : modP.Plain x X) (hy : modP.Plain y Y) (hz : modP.Plain z Z) :
    PlainResidues ⟨x, y, z⟩ X Y Z :=
  ⟨hx, hy, hz⟩

theorem Jpoint.Residues.injective (left : J.Residues X Y Z) (right : K.Residues X Y Z) : J = K := by
  obtain ⟨x, y, z⟩ := J
  obtain ⟨x', y', z'⟩ := K
  obtain rfl : x = x' := left.x.injective right.x
  obtain rfl : y = y' := left.y.injective right.y
  obtain rfl : z = z' := left.z.injective right.z
  rfl

theorem Jpoint.PlainResidues.injective (left : J.PlainResidues X Y Z) (right : K.PlainResidues X Y Z) : J = K := by
  obtain ⟨x, y, z⟩ := J
  obtain ⟨x', y', z'⟩ := K
  obtain rfl : x = x' := left.x.injective right.x
  obtain rfl : y = y' := left.y.injective right.y
  obtain rfl : z = z' := left.z.injective right.z
  rfl

theorem cast_R2 : (dc_R2.toNat : modP.Residue) = 2 ^ 256 * 2 ^ 256 := by
  have form : modP.Mont dc_R2 (2 ^ 256 : ℕ) := Modulus.mont_natCast_iff.mpr (by decide)
  rw [form.value, Nat.cast_pow, Nat.cast_ofNat]

private theorem plain_one : modP.Plain ⟨1, 0, 0, 0⟩ 1 := ⟨by decide, Nat.cast_one⟩

namespace Ram

variable {m : Ram} {pt A ret i : ℕ}

/-- `dh_normlize_J` divides the coordinates. -/
theorem dh_normlize_J_spec (residues : (m.jpoint pt).Residues X Y Z) (finite : Z ≠ 0) :
    ∃ m', m.dh_normlize_J pt = some m' ∧ (m'.jpoint pt).Residues (X / Z ^ 2) (Y / Z ^ 3) 1 ∧
      ∀ i, i < pt ∨ pt + 12 ≤ i → m' i = m i := by
  obtain ⟨x, y, z⟩ := residues
  have nonzero : m.dh_iszero_J pt = false := by
    rw [← Bool.not_eq_true]
    exact fun zero => finite (z.iszero_iff.mp zero)
  obtain ⟨inv, found, inverse⟩ := z.toPlain.moninv finite
  have square := inverse.mul inverse
  have first := x.mul square
  have second := y.mul (square.mul inverse)
  have body : m.dh_normlize_J pt = some (((m.putBig pt (modP.monmult (m.big pt) (modP.monmult inv inv))).putBig (pt + 4)
      (modP.monmult (m.big (pt + 4)) (modP.monmult (modP.monmult inv inv) inv))).putBig (pt + 8) dc_mon_ONE) := by
    have same : Gpuec.dh_mybig_moninv (Gpuec.dh_mybig_monmult_64 (m.big (pt + 8)) dc_ONE) = some inv := found
    rw [dh_normlize_J, nonzero, if_neg Bool.false_ne_true]
    simp (disch := omega) only [same, Option.bind_eq_bind, Option.bind_some, big_putBig_of_apart]
    rfl
  refine ⟨_, body, ?_, fun i outside => ?_⟩
  · simp (disch := omega) only [jpoint, big_putBig, big_putBig_of_apart]
    refine .of_mont ?_ ?_ mont_ONE
    · rw [div_eq_mul_inv, ← inv_pow, sq]
      exact first
    · rw [div_eq_mul_inv, ← inv_pow, pow_succ, sq]
      exact second
  · simp (disch := omega) only [putBig_of_outside]

/-- `d_mon2normal_J` takes the coordinates out of Montgomery form. -/
theorem d_mon2normal_J_spec (residues : (m.jpoint pt).Residues X Y Z) :
    ((m.d_mon2normal_J pt).jpoint pt).PlainResidues X Y Z := by
  have stored : (m.d_mon2normal_J pt).jpoint pt = ⟨modP.monmult (m.big pt) ⟨1, 0, 0, 0⟩,
      modP.monmult (m.big (pt + 4)) ⟨1, 0, 0, 0⟩, modP.monmult (m.big (pt + 8)) ⟨1, 0, 0, 0⟩⟩ := by
    simp (disch := omega) only [jpoint, d_mon2normal_J, big_putBig, big_putBig_of_apart]
    rfl
  rw [stored]
  exact .of_plain residues.x.toPlain residues.y.toPlain residues.z.toPlain

/-- `Jpoint2Apoint` divides the coordinates, also in place. -/
theorem Jpoint2Apoint_spec (plain : (m.jpoint A).PlainResidues X Y Z) (finite : Z ≠ 0) (place : ret = A ∨ Separate A ret) :
    ∃ m', m.Jpoint2Apoint A ret = some m' ∧ (m'.jpoint ret).PlainResidues (X / Z ^ 2) (Y / Z ^ 3) 1 ∧
      ∀ i, i < ret ∨ ret + 12 ≤ i → m' i = m i := by
  obtain ⟨x, y, z⟩ := plain
  obtain ⟨inv, found, inverse⟩ := z.moninv finite
  have square := inverse.mul inverse
  have first := ((x.toMont cast_R2).mul square).toPlain
  have second := ((y.toMont cast_R2).mul (inverse.mul square)).toPlain
  have same : Gpuec.dh_mybig_moninv (m.big (A + 8)) = some inv := found
  rw [Jpoint2Apoint, same]
  refine ⟨_, rfl, ?_, fun i outside => ?_⟩
  · rw [Separate] at place
    have readY (v : Big) : (m.putBig ret v).big (A + 4) = m.big (A + 4) := by
      rcases place with rfl | apart
      · exact big_putBig_of_apart (by omega)
      · exact big_putBig_of_apart (by omega)
    simp (disch := omega) only [jpoint, readY, big_putBig, big_putBig_of_apart, Gpuec.dh_mybig_monmult_64, dc_ONE]
    refine .of_plain ?_ ?_ plain_one
    · rw [div_eq_mul_inv, ← inv_pow, sq]
      exact first
    · rw [div_eq_mul_inv, ← inv_pow, pow_succ', sq]
      exact second
  · simp (disch := omega) only [putBig_of_outside]

/-- Both normalisations store the one representative with `z = 1` and nothing else; the plain one stores the same words
for every representative of a point, and so does everything that is computed from them. -/
theorem normalisation (reduced : (m.jpoint A).Reduced) (finite : (m.jpoint A).z.toNat ≠ 0) :
    (∃ X Y Z, (m.jpoint A).Residues X Y Z ∧ Z ≠ 0 ∧ ∃ m', m.dh_normlize_J A = some m' ∧
      (∀ K : Jpoint, K.Residues (X / Z ^ 2) (Y / Z ^ 3) 1 ↔ K = m'.jpoint A) ∧ ∀ i, i < A ∨ A + 12 ≤ i → m' i = m i) ∧
    ∀ ret, ret = A ∨ Separate A ret → ∃ m', m.Jpoint2Apoint A ret = some m' ∧
      (∀ K : Jpoint, K.PlainResidues ((m.jpoint A).x.toNat / (m.jpoint A).z.toNat ^ 2)
        ((m.jpoint A).y.toNat / (m.jpoint A).z.toNat ^ 3) 1 ↔ K = m'.jpoint ret) ∧
      (∀ i, i < ret ∨ ret + 12 ≤ i → m' i = m i) ∧
      ∀ (n : Ram) (B ret' : ℕ), (n.jpoint B).Reduced → (n.jpoint B).z.toNat ≠ 0 → ret' = B ∨ Separate B ret' →
        ((n.jpoint B).x.toNat / (n.jpoint B).z.toNat ^ 2 : modP.Residue) =
          (m.jpoint A).x.toNat / (m.jpoint A).z.toNat ^ 2 →
        ((n.jpoint B).y.toNat / (n.jpoint B).z.toNat ^ 3 : modP.Residue) =
          (m.jpoint A).y.toNat / (m.jpoint A).z.toNat ^ 3 →
        ∃ n', n.Jpoint2Apoint B ret' = some n' ∧ n'.jpoint ret' = m'.jpoint ret := by
  constructor
  · obtain ⟨X, Y, Z, residues⟩ := reduced.exists_residues
    have nonzero : Z ≠ 0 := by
      rw [ne_eq, ← residues.z.iszero_iff, Big.iszero_iff]
      exact finite
    obtain ⟨m', body, normal, frame⟩ := dh_normlize_J_spec residues nonzero
    refine ⟨X, Y, Z, residues, nonzero, m', body, fun K => ⟨fun other => other.injective normal, ?_⟩, frame⟩
    rintro rfl
    exact normal
  · intro ret place
    obtain ⟨m', body, normal, frame⟩ := Jpoint2Apoint_spec reduced.plain (reduced.z_ne_zero finite) place
    refine ⟨m', body, fun K => ⟨fun other => other.injective normal, ?_⟩, frame, ?_⟩
    · rintro rfl
      exact normal
    · intro n B ret' reduced' finite' place' abscissa ordinate
      obtain ⟨n', body', normal', -⟩ := Jpoint2Apoint_spec reduced'.plain (reduced'.z_ne_zero finite') place'
      rw [abscissa, ordinate] at normal'
      exact ⟨n', body', normal'.injective normal⟩

theorem normalisation_twoPoints : ∃ m', twoPoints.Jpoint2Apoint 12 0 = some m' := by
  obtain ⟨-, plain⟩ := normalisation (m := twoPoints) (A := 12) ⟨by decide, by decide, by decide⟩ (by decide)
  obtain ⟨m', body, -⟩ := plain 0 (.inr (.inr (by decide)))
  exact ⟨m', body⟩

end Ram

end DbcSnark.Gpuec
