import DbcSnark.Proofs.DBCTest.EcPointMul
import DbcSnark.Proofs.DBCTest.Fills

/-! # The initial parts of a chain

Up to a power product the terms before some term of a chain sum to a positive multiple that is no larger than `n`, in
a chain whose terms divide each other properly. In a greedy chain the remainder is below `n` after every turn, so they
sum to less than `2 * n`. A point of prime order above `n` is annihilated by neither.
-/

namespace DbcSnark.DBCTest

open DoubleBase MyBigInt

/-! ## Chains on rows -/

section Rows

variable {n : ℕ} {rows : List (ℤ × ℕ × ℕ)} {c : List Chain}

/-- Stored rows are those of a chain. -/
theorem IsDoubleBaseChain.exists_chain (chain : IsDoubleBaseChain n rows) : ∃ c : List Chain, rows = c.map row := by
  refine ⟨rows.map fun r => ⟨r.2.1, r.2.2, r.1 = -1⟩, ?_⟩
  rw [List.map_map]
  refine (List.map_id rows).symm.trans (List.map_congr_left fun r member => ?_)
  rcases r with ⟨sign, dbl, tpl⟩
  rcases chain.signs _ member with plus | minus
  · obtain rfl : sign = 1 := plus
    rfl
  · obtain rfl : sign = -1 := minus
    rfl

/-- They are a staircase for the evaluators. -/
theorem IsDoubleBaseChain.staircase (chain : IsDoubleBaseChain n (c.map row)) : IsStaircase c ∧ value c = n := by
  refine ⟨⟨?_, List.pairwise_map.mp chain.descending⟩, by rw [← sum_rows, chain.sum]⟩
  obtain ⟨dbl, tpl, rest, leading⟩ := chain.leading
  cases c with
  | nil => exact absurd leading (List.cons_ne_nil _ _).symm
  | cons x c =>
    refine ⟨x, c, rfl, ?_⟩
    have sign : (row x).1 = 1 := congrArg Prod.fst (List.cons.inj leading).1
    rcases x with ⟨dbl, tpl, _ | _⟩
    · rfl
    · exact absurd (show (1 - 2 * 1 : ℤ) = 1 from sign) (by decide)

end Rows

/-! ## Multiples of a point of prime order -/

section Order

variable {A : Type*} [AddCommGroup A] {P : A} {q : ℕ}

private theorem not_dvd_scaled (prime : q.Prime) (large : 3 < q) {v : ℤ} (positive : 0 < v) (below : v < q) (b t : ℕ) :
    ¬ (q : ℤ) ∣ v * pow23 b t := by
  intro divides
  have small (k : ℕ) (one : 0 < k) (less : k < q) (e : ℕ) : ¬ (q : ℤ) ∣ (k : ℤ) ^ e := fun divides =>
    Nat.not_dvd_of_pos_of_lt one less (prime.dvd_of_dvd_pow (by exact_mod_cast divides))
  have prime' := Nat.prime_iff_prime_int.mp prime
  rcases prime'.dvd_or_dvd divides with first | second
  · exact absurd (Int.le_of_dvd positive first) (by omega)
  · rcases prime'.dvd_or_dvd second with twos | threes
    · exact small 2 (by decide) (by omega) b twos
    · exact small 3 (by decide) large t threes

/-- A point of prime order, when the sum before every term is a small multiple of a power product. -/
theorem Proper.of_order (prime : q.Prime) (large : 3 < q) (order : addOrderOf P = q) {chain : List Chain}
    (initial : ∀ earlier x later, chain = earlier ++ x :: later → earlier ≠ [] → x.tpl ≠ 0 →
      ∃ v b t, value earlier = v * pow23 b t ∧ 0 < v ∧ v < q) : OnPoints.Proper P chain := by
  constructor
  · intro infinite
    have divides : q ∣ 2 := by
      rw [← order]
      exact addOrderOf_dvd_of_nsmul_eq_zero (by rw [two_nsmul, infinite])
    exact absurd (Nat.le_of_dvd Nat.two_pos divides) (by omega)
  · intro earlier x later split nonempty triples infinite
    obtain ⟨v, b, t, sum, positive, below⟩ := initial earlier x later split nonempty triples
    apply not_dvd_scaled prime large positive below b t
    rw [← sum, ← order]
    exact addOrderOf_dvd_iff_zsmul_eq_zero.mpr infinite

end Order

/-! ## Chains with proper divisors -/

section Strict

variable {b t : ℕ} {c d earlier later : List Chain} {x y : Chain}

/-- The terms of a chain are multiples of every power product that they all reach. -/
theorem pow23_dvd_value (above : ∀ z ∈ c, b ≤ z.dbl ∧ t ≤ z.tpl) : pow23 b t ∣ value c := by
  induction c with
  | nil => exact dvd_zero _
  | cons z c ih =>
    have here := above z List.mem_cons_self
    rw [value_cons]
    refine dvd_add ?_ (ih fun y member => above y (List.mem_cons_of_mem _ member))
    have weight : pow23 b t ∣ z.weight := mul_dvd_mul (pow_dvd_pow _ here.1) (pow_dvd_pow _ here.2)
    rw [Term.value]
    split_ifs
    · exact (dvd_neg).mpr weight
    · exact weight

private theorem below_append (chain : Below b t (c ++ x :: d)) : Below b t c ∧ Below x.dbl x.tpl d := by
  induction c generalizing b t with
  | nil => exact ⟨trivial, chain.2⟩
  | cons z c ih =>
    obtain ⟨inside, rest⟩ := chain
    obtain ⟨first, second⟩ := ih rest
    exact ⟨⟨inside, first⟩, second⟩

private theorem last_le (descending : (c ++ [x]).Pairwise fun x y : Chain => y.dbl ≤ x.dbl ∧ y.tpl ≤ x.tpl) :
    ∀ z ∈ c ++ [x], x.dbl ≤ z.dbl ∧ x.tpl ≤ z.tpl := by
  intro z member
  rcases List.mem_append.mp member with before | last
  · exact (List.pairwise_append.mp descending).2.2 z before x List.mem_cons_self
  · obtain rfl := List.mem_singleton.mp last
    exact ⟨le_rfl, le_rfl⟩

/-- The terms before a term sum to a positive multiple of the last of them, and the multiple is at most the whole. -/
theorem isChain_initial (chain : IsChain c) (staircase : IsStaircase c) (split : c = earlier ++ x :: later)
    (nonempty : earlier ≠ []) : ∃ v b t, value earlier = v * pow23 b t ∧ 0 < v ∧ (0 < value c → v ≤ value c) := by
  obtain ⟨rest, y, rfl⟩ := (List.eq_nil_or_concat' earlier).resolve_left nonempty
  have descending := staircase.descending
  rw [split] at descending
  obtain ⟨v, sum⟩ := pow23_dvd_value (last_le (List.pairwise_append.mp descending).1)
  have weight := pow23_pos y.dbl y.tpl
  -- the leading term outweighs the others before `x`, and the last of them the terms from `x` on
  obtain ⟨z, others, rfl, plus⟩ := staircase.leading
  have above : 0 < value (rest ++ [y]) ∧ |value (x :: later)| < pow23 y.dbl y.tpl := by
    have leading : z.value = pow23 z.dbl z.tpl := by rw [Term.value, plus, if_neg Bool.false_ne_true, Term.weight]
    cases rest with
    | nil =>
      obtain ⟨rfl, rfl⟩ := List.cons.inj split
      refine ⟨?_, (chain : Below z.dbl z.tpl (x :: later)).abs_value_lt⟩
      rw [List.nil_append, value_cons, value_nil, add_zero, leading]
      exact weight
    | cons w rest =>
      obtain ⟨rfl, rfl⟩ := List.cons.inj split
      have whole : Below z.dbl z.tpl ((rest ++ [y]) ++ x :: later) := chain
      have tail := (below_append whole).1.value_lt
      rw [List.append_assoc] at whole
      refine ⟨?_, (below_append whole).2.abs_value_lt⟩
      rw [List.cons_append, value_cons, leading]
      omega
  refine ⟨v, y.dbl, y.tpl, by rw [sum, mul_comm], ?_, fun positive => ?_⟩
  · exact pos_of_mul_pos_right (sum ▸ above.1) weight.le
  · have total : value (z :: others) = pow23 y.dbl y.tpl * v + value (x :: later) := by rw [split, value_append, sum]
    have near := abs_lt.mp above.2
    -- the multiple is off by less than one
    by_contra! larger
    nlinarith

end Strict

/-! ## Greedy chains -/

namespace Greedy

variable {INTS : ℕ}

/-- A turn leaves less than the remainder, or no more than the power of 3 at the end of the window. -/
theorem gap_pick_lt (window a b : ℕ) {t : MyBigInt INTS} (nonzero : 0 < t.toNat) :
    gap t (pick (.exact INTS) window a b t).1 (pick (.exact INTS) window a b t).2 < t.toNat ∨
      window ≤ b ∧ gap t (pick (.exact INTS) window a b t).1 (pick (.exact INTS) window a b t).2 ≤ 3 ^ (b - window) := by
  have edge := (pick_nearest window a b t).dist_le ⟨Nat.zero_le a, Nat.sub_le b (min window b), by omega⟩
  rw [gap_eq_dist]
  rw [pow_zero, one_mul] at edge
  rcases Nat.lt_or_ge (3 ^ (b - min window b)) t.toNat with below | above
  · have power : 0 < 3 ^ (b - min window b) := by positivity
    rw [Nat.dist_eq_sub_of_le_right below.le] at edge
    exact .inl (by omega)
  · rw [Nat.dist_eq_sub_of_le above] at edge
    rcases le_or_gt window b with inside | outside
    · rw [min_eq_left inside] at edge
      exact .inr ⟨inside, edge.trans (Nat.sub_le _ _)⟩
    · rw [min_eq_right outside.le, Nat.sub_self, pow_zero] at edge above
      exact .inl (by omega)

/-- After its first turn a search keeps the remainder below `n`, and the rows before its last one sum to less than
`2 * n`. -/
structure Small (n : ℕ) (x : Greedy INTS) : Prop where
  remainder : x.t.toNat ≤ n
  smaller : x.stored ≠ [] → x.t.toNat < n
  initial : ∀ earlier r rest, x.stored = earlier ++ r :: rest → earlier ≠ [] → 0 < total earlier ∧ total earlier < 2 * n

section Run

variable {minus : MyBigInt INTS → MyBigInt INTS → MyBigInt INTS} {ok : MyBigInt INTS → MyBigInt INTS → Prop}
  {pow23_all : ℕ → ℕ → MyBigInt INTS} {window n : ℕ} {x y : Greedy INTS}

/-- The sum of the rows is off by the remainder. -/
private theorem Small.total (small : Small n x) (balanced : Balanced n x) (nonzero : 0 < x.t.toNat)
    (stored : x.stored ≠ []) : 0 < Greedy.total x.stored ∧ Greedy.total x.stored < 2 * n := by
  have sum := balanced.sum
  have less := small.smaller stored
  rcases balanced.sign with plus | minus
  · rw [plus] at sum
    omega
  · rw [minus] at sum
    omega

theorem Small.turn (deep : 2 ≤ window) (reach : 3 ^ x.b_temp ≤ 3 * n) (balanced : Balanced n x) (small : Small n x)
    (turn : Turn window minus pow23_all x y) (remainder : y.t.toNat = gap x.t y.a y.b_temp) : Small n y := by
  obtain ⟨running, rfl⟩ := turn
  have nonzero : 0 < x.t.toNat := by
    rw [← Bool.not_eq_true, iszero_iff] at running
    omega
  have positive := nonzero.trans_le small.remainder
  have less : (x.after window minus pow23_all).t.toNat < n := by
    rw [remainder]
    rcases gap_pick_lt window x.a x.b_temp nonzero with closer | ⟨inside, far⟩
    · exact closer.trans_le small.remainder
    · have power : 3 ^ 2 * 3 ^ (x.b_temp - window) ≤ 3 ^ x.b_temp := by
        rw [← pow_add]
        exact Nat.pow_le_pow_right (by decide) (by omega)
      exact lt_of_le_of_lt far (by omega)
  refine ⟨less.le, fun _ => less, fun earlier r rest split nonempty => ?_⟩
  have appended : x.stored ++ [(x.s, picked window x)] = earlier ++ r :: rest := split
  rcases List.eq_nil_or_concat' rest with rfl | ⟨before, last, rfl⟩
  · obtain ⟨rfl, -⟩ := List.append_inj' appended rfl
    exact small.total balanced nonzero nonempty
  · have shorter : x.stored = earlier ++ r :: before := by
      have grouped : x.stored ++ [(x.s, picked window x)] = (earlier ++ r :: before) ++ [last] := by
        rw [appended, List.append_assoc, List.cons_append]
      exact (List.append_inj' grouped rfl).1
    exact small.initial earlier r before shorter nonempty

/-- A search that subtracts correctly, from a power product that is at most `3 * n`. -/
theorem Clean.small {m : MyBigInt INTS} {a b : ℕ} (exact : ExactWhen minus ok) (tables : Exact pow23_all)
    (deep : 2 ≤ window) (fits : 2 ^ a * 3 ^ b < (2 ^ 32) ^ INTS) (rBound : 2 ^ a * 3 ^ b ≤ 3 * m.toNat)
    (clean : Clean ok window minus pow23_all (start m a b))
    (run : Relation.ReflTransGen (Turn window minus pow23_all) (start m a b) y) : Small m.toNat y := by
  induction run with
  | refl =>
    refine ⟨le_rfl, fun some => absurd rfl some, fun earlier r rest split => ?_⟩
    exact absurd split.symm (by simp [start])
  | @tail u v before last ih =>
    have balanced := (Balanced.start fits).run exact tables (clean.run before)
    have shrinks := (steps_le (steps_of_turns before)).2
    have reach : 3 ^ u.b_temp ≤ 3 * m.toNat := by
      calc 3 ^ u.b_temp ≤ 3 ^ b := Nat.pow_le_pow_right (by decide) shrinks
        _ ≤ 2 ^ a * 3 ^ b := Nat.le_mul_of_pos_left _ (by positivity)
        _ ≤ 3 * m.toNat := rBound
    exact ih.turn deep reach balanced last (clean.remainder exact tables fits before last)

/-- The sums before the terms of a finished search, up to power products. -/
theorem Small.initial_chain {c : List Chain} (small : Small n x) (stored : x.stored = c.map row)
    (staircase : IsStaircase c) {earlier later : List Chain} {z : Chain} (split : c = earlier ++ z :: later)
    (nonempty : earlier ≠ []) (triples : z.tpl ≠ 0) :
    ∃ v b t, value earlier = v * pow23 b t ∧ 0 < v ∧ v < n := by
  obtain ⟨rest, y, rfl⟩ := (List.eq_nil_or_concat' earlier).resolve_left nonempty
  have descending := staircase.descending
  rw [split] at descending
  obtain ⟨before, -, across⟩ := List.pairwise_append.mp descending
  obtain ⟨v, sum⟩ := pow23_dvd_value (last_le before)
  refine ⟨v, y.dbl, y.tpl, by rw [sum, mul_comm], ?_⟩
  have rows : x.stored = (rest ++ [y]).map row ++ row z :: later.map row := by
    rw [stored, split, List.map_append, List.map_cons]
  obtain ⟨above, below⟩ := small.initial _ _ _ rows (by simp)
  have total : Greedy.total ((rest ++ [y]).map row) = pow23 y.dbl y.tpl * v := (sum_rows _).trans sum
  rw [total] at above below
  -- a tripling is left, so the last of the terms is at least 3
  have triple : 3 ≤ pow23 y.dbl y.tpl := by
    have later := (across y (List.mem_append_right _ List.mem_cons_self) z List.mem_cons_self).2
    exact pow23_mono (b := 0) (t := 1) (Nat.zero_le _) (by omega)
  have positive := pos_of_mul_pos_right above (by omega)
  exact ⟨positive, by nlinarith⟩

end Run

end Greedy

end DbcSnark.DBCTest
