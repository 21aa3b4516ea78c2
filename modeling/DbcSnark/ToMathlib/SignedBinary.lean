import Mathlib.Data.List.Chain
import Mathlib.Data.Int.Notation
import Mathlib.Tactic

/-! # Signed binary representations

Lists of digits `-1`, `0`, `1`, the lowest first. A list without two adjacent nonzero digits has the fewest
nonzero digits among all lists of the same value.
-/

namespace SignedBinary

/-- The integer that the digits stand for. -/
def value : List ℤ → ℤ
  | [] => 0
  | d :: ds => d + 2 * value ds

/-- The number of nonzero digits. -/
def weight : List ℤ → ℕ
  | [] => 0
  | d :: ds => (if d = 0 then 0 else 1) + weight ds

def Signed (ds : List ℤ) : Prop := ∀ d ∈ ds, d = -1 ∨ d = 0 ∨ d = 1

/-- Of two neighbours one is zero. -/
def NonAdjacent (ds : List ℤ) : Prop := ds.IsChain fun d e => d = 0 ∨ e = 0

/-- Horner's rule, the highest digit first. -/
theorem value_reverse (ds : List ℤ) : value ds.reverse = ds.foldl (fun sum d => 2 * sum + d) 0 := by
  have horner : ∀ es, value es = es.foldr (fun d sum => 2 * sum + d) 0 := by
    intro es
    induction es with
    | nil => rfl
    | cons e es ih => rw [value, List.foldr_cons, ← ih, Int.add_comm]
  rw [horner, List.foldr_reverse]

theorem weight_append (ds es : List ℤ) : weight (ds ++ es) = weight ds + weight es := by
  induction ds with
  | nil => simp [weight]
  | cons d ds ih => rw [List.cons_append, weight, weight, ih, Nat.add_assoc]

theorem weight_reverse (ds : List ℤ) : weight ds.reverse = weight ds := by
  induction ds with
  | nil => rfl
  | cons d ds ih => rw [List.reverse_cons, weight_append, ih, weight, weight, weight, Nat.add_zero, Nat.add_comm]

theorem NonAdjacent.reverse {ds : List ℤ} (sparse : NonAdjacent ds) : NonAdjacent ds.reverse :=
  List.isChain_reverse.mpr (sparse.imp fun _ _ => Or.symm)

private theorem Signed.tail {d : ℤ} {ds : List ℤ} (signed : Signed (d :: ds)) : Signed ds :=
  fun e member => signed e (List.mem_cons_of_mem d member)

/-- The lowest digit of a list and the rest of its value and weight; the empty list counts as zeros. -/
private theorem head_split {ds : List ℤ} (signed : Signed ds) : ∃ d es, (d = -1 ∨ d = 0 ∨ d = 1) ∧ Signed es ∧
    value ds = d + 2 * value es ∧ weight ds = (if d = 0 then 0 else 1) + weight es := by
  cases ds with
  | nil => exact ⟨0, [], by simp, by simp [Signed], by simp [value], by simp [weight]⟩
  | cons d es => exact ⟨d, es, signed d List.mem_cons_self, signed.tail, rfl, rfl⟩

/-- Values that differ by at most one, one of them without adjacent nonzero digits: its weight exceeds the other
weight by no more than the values differ, and not at all if its lowest digit is zero. -/
private theorem weight_le_add {ds es : List ℤ} (signed : Signed ds) (sparse : NonAdjacent ds) (other : Signed es)
    (near : (value ds - value es).natAbs ≤ 1) :
    weight ds ≤ weight es + (value ds - value es).natAbs ∧ (ds.headD 0 = 0 → weight ds ≤ weight es) := by
  induction ds generalizing es with
  | nil => simp [weight]
  | cons d ds ih =>
    obtain ⟨e, fs, digit, rest, total, heavy⟩ := head_split other
    have here := signed d List.mem_cons_self
    have before := @ih fs signed.tail sparse.tail rest
    rw [total] at near ⊢
    rw [heavy]
    simp only [value, weight, List.headD_cons] at near ⊢
    by_cases zero : d = 0
    · -- the values agree and so do the lowest digits, or the other lowest digit pays for the difference
      rw [zero] at near ⊢
      have bound := (before (by rcases digit with rfl | rfl | rfl <;> omega)).1
      rcases digit with rfl | rfl | rfl <;> simp <;> omega
    · -- the digit behind a nonzero digit is zero, so the rest is even and costs no more than the other rest
      have next : ds.headD 0 = 0 := by
        cases ds with
        | nil => rfl
        | cons u us => exact (List.isChain_cons_cons.mp sparse).1.resolve_left zero
      have bound := (before (by rcases here with rfl | rfl | rfl <;> rcases digit with rfl | rfl | rfl <;> omega)).2 next
      refine ⟨?_, fun low => absurd low zero⟩
      rcases digit with rfl | rfl | rfl <;> rcases here with rfl | rfl | rfl <;> simp at zero ⊢ <;> omega

/-- Without adjacent nonzero digits there are as few nonzero digits as the value allows. -/
theorem weight_le_of_nonAdjacent {ds es : List ℤ} (signed : Signed ds) (sparse : NonAdjacent ds) (other : Signed es)
    (same : value ds = value es) : weight ds ≤ weight es := by
  have bound := (weight_le_add signed sparse other (by simp [same])).1
  rwa [same, sub_self, Int.natAbs_zero, Nat.add_zero] at bound

end SignedBinary
