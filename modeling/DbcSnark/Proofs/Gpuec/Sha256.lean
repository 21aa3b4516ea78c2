import DbcSnark.Model.Gpuec.Sha256

/-! # The hash of the kernels is a function of the message

The bytes of a context behind `datalen` are written before a block is read, so contexts that agree in front of it stay
alike, and what `data` held before `sha256_init` reaches no digest.
-/

namespace DbcSnark.Gpuec

namespace Sha256

private theorem schedule_congr {data data' : ℕ → UInt8} (same : ∀ i < 64, data i = data' i) :
    schedule data = schedule data' := by
  have first : (List.range 16).map (fun i => ((data (4 * i)).toUInt32 <<< 24) ||| ((data (4 * i + 1)).toUInt32 <<< 16) |||
      ((data (4 * i + 2)).toUInt32 <<< 8) ||| (data (4 * i + 3)).toUInt32) =
      (List.range 16).map (fun i => ((data' (4 * i)).toUInt32 <<< 24) ||| ((data' (4 * i + 1)).toUInt32 <<< 16) |||
        ((data' (4 * i + 2)).toUInt32 <<< 8) ||| (data' (4 * i + 3)).toUInt32) := by
    apply List.map_congr_left
    intro i member
    have inside := List.mem_range.mp member
    rw [same (4 * i) (by omega), same (4 * i + 1) (by omega), same (4 * i + 2) (by omega), same (4 * i + 3) (by omega)]
  rw [schedule, schedule, first]

/-- Contexts that differ behind the bytes received only. -/
structure Alike (c c' : MYSHA256_CTX) : Prop where
  datalen : c.datalen = c'.datalen
  bitlen : c.bitlen = c'.bitlen
  state : c.state = c'.state
  partial_block : c.datalen.toNat < 64
  data : ∀ i < c.datalen.toNat, c.data i = c'.data i

variable {c c' : MYSHA256_CTX}

private theorem Alike.received (alike : Alike c c') (b : UInt8) {i : ℕ} (inside : i < c.datalen.toNat + 1) :
    Function.update c.data c.datalen.toNat b i = Function.update c'.data c'.datalen.toNat b i := by
  rw [← alike.datalen]
  rcases eq_or_ne i c.datalen.toNat with rfl | other
  · rw [Function.update_self, Function.update_self]
  · rw [Function.update_of_ne other, Function.update_of_ne other]
    exact alike.data i (by omega)

private theorem toNat_succ (alike : Alike c c') : (c.datalen + 1).toNat = c.datalen.toNat + 1 := by
  have bound := alike.partial_block
  rw [UInt32.toNat_add, show (1 : UInt32).toNat = 1 from rfl]
  omega

theorem Alike.putByte (alike : Alike c c') (b : UInt8) : Alike (putByte c b) (putByte c' b) := by
  have next := toNat_succ alike
  rw [Sha256.putByte, Sha256.putByte]
  by_cases full : c.datalen + 1 = 64
  · have count : c.datalen.toNat + 1 = 64 := by
      rw [← next, full]
      rfl
    have block : schedule (Function.update c.data c.datalen.toNat b) =
        schedule (Function.update c'.data c'.datalen.toNat b) :=
      schedule_congr fun i inside => alike.received b (by omega)
    have full' : c'.datalen + 1 = 64 := by rw [← alike.datalen, full]
    rw [if_pos full, if_pos full']
    constructor
    · rfl
    · exact congrArg (· + 512) alike.bitlen
    · simp only [sha256_transform, compress, alike.state, block]
    · exact Nat.zero_lt_succ 63
    · exact fun i inside => absurd inside (Nat.not_lt_zero i)
  · have open' : c'.datalen + 1 ≠ 64 := by rwa [← alike.datalen]
    have room : c.datalen.toNat + 1 ≠ 64 := by
      intro count
      exact full (UInt32.toNat_inj.mp (next.trans count))
    have bound := alike.partial_block
    rw [if_neg full, if_neg open']
    constructor
    · exact congrArg (· + 1) alike.datalen
    · exact alike.bitlen
    · exact alike.state
    · change (c.datalen + 1).toNat < 64
      omega
    · intro i inside
      change i < (c.datalen + 1).toNat at inside
      exact alike.received b (by omega)

theorem Alike.update (alike : Alike c c') (piece : List UInt8) :
    Alike (sha256_update c piece) (sha256_update c' piece) := by
  induction piece generalizing c c' with
  | nil => exact alike
  | cons b piece ih => exact ih (alike.putByte b)

private theorem zeros_received (alike : Alike c c') {stop i : ℕ} (inside : i < stop) :
    zeros (Function.update c.data c.datalen.toNat 0x80) (c.datalen.toNat + 1) stop i =
      zeros (Function.update c'.data c'.datalen.toNat 0x80) (c'.datalen.toNat + 1) stop i := by
  rw [zeros, zeros, ← alike.datalen]
  split
  · rfl
  · have received := alike.received 0x80 (i := i) (by omega)
    rwa [← alike.datalen] at received

/-- The padding agrees up to the length. -/
private theorem pad_alike (alike : Alike c c') : (pad c).datalen = (pad c').datalen ∧ (pad c).bitlen = (pad c').bitlen ∧
    (pad c).state = (pad c').state ∧ ∀ i < 56, (pad c).data i = (pad c').data i := by
  rw [pad, pad, ← alike.datalen]
  by_cases short : c.datalen < 56
  · rw [if_pos short, if_pos short]
    refine ⟨rfl, alike.bitlen, alike.state, fun i inside => ?_⟩
    have padded := zeros_received alike inside
    rwa [← alike.datalen] at padded
  · rw [if_neg short, if_neg short]
    refine ⟨rfl, alike.bitlen, ?_, fun i inside => ?_⟩
    · have block : schedule (zeros (Function.update c.data c.datalen.toNat 0x80) (c.datalen.toNat + 1) 64) =
          schedule (zeros (Function.update c'.data c'.datalen.toNat 0x80) (c'.datalen.toNat + 1) 64) :=
        schedule_congr fun i inside => zeros_received alike inside
      rw [← alike.datalen] at block
      simp only [sha256_transform, compress, alike.state, block]
    · exact (if_pos ⟨Nat.zero_le i, inside⟩).trans (if_pos ⟨Nat.zero_le i, inside⟩).symm

theorem Alike.final (alike : Alike c c') : sha256_final c = sha256_final c' := by
  obtain ⟨datalen, bitlen, state, data⟩ := pad_alike alike
  have last : (finish (pad c)).state = (finish (pad c')).state := by
    simp only [finish, sha256_transform, compress, datalen, bitlen, state]
    rw [schedule_congr]
    intro i inside
    by_cases length : 56 ≤ i ∧ i < 64
    · rw [if_pos length, if_pos length]
    · rw [if_neg length, if_neg length, data i (by omega)]
  rw [sha256_final, sha256_final, last]

/-- The digest of a message depends on no byte that a context held before. -/
private theorem digest_eq (ctx ctx' : MYSHA256_CTX) (pieces : List (List UInt8)) :
    (device ctx).digest pieces = (device ctx').digest pieces := by
  apply StreamingHash.digest_eq_of_related Alike
  · exact ⟨rfl, rfl, rfl, Nat.zero_lt_succ 63, fun i inside => absurd inside (Nat.not_lt_zero i)⟩
  · exact fun _ _ piece alike => alike.update piece
  · exact fun _ _ alike => alike.final

/-- The digest of a declared context is that of the message. -/
theorem device_computes (ctx : MYSHA256_CTX) : (device ctx).Computes sha256 := by
  intro pieces
  have whole : (device ctx).Computes fun message => sha256_final (message.foldl Sha256.putByte (sha256_init ctx)) :=
    StreamingHash.computes_of_foldl fun _ _ => rfl
  have joined : pieces.flatten = [pieces.flatten].flatten := List.flatten_singleton.symm
  rw [whole.digest_eq whole joined, sha256]
  exact digest_eq _ _ _

end Sha256

end DbcSnark.Gpuec
