import DbcSnark.Model.DBCTest.MyBigInt

/-! # Values computed by the word operations

Each operation on words is related to one on the numbers they hold. Doubling, shifting, dividing and
reducing are exact. Tripling is exact up to the carries its last addition drops, and a subtraction is
exact when every word lends exactly when the numbers from that word on require it; the hypotheses
`NoLostCarry`, `NoFalseBorrow` and `NoLostBorrow` say so in terms of the operands alone.
-/

namespace DbcSnark.DBCTest.MyBigInt

open BigEndian (value value_cons)

variable {INTS : ℕ}

theorem toNat_lt (x : MyBigInt INTS) : x.toNat < (2 ^ 32) ^ INTS := by
  have bound := BigEndian.value_lt x.data x.word
  rwa [x.size] at bound

@[simp] theorem toNat_ofNat (n : ℕ) : (ofNat INTS n).toNat = n % (2 ^ 32) ^ INTS :=
  BigEndian.value_digits INTS n

theorem ofNat_toNat (x : MyBigInt INTS) : ofNat INTS x.toNat = x := by
  apply MyBigInt.ext
  have digits := BigEndian.digits_value x.data x.word
  rwa [x.size] at digits

private theorem head_lt {ds : List ℕ} (word : ∀ d ∈ ds, d < 2 ^ 32) : ds.headD 0 < 2 ^ 32 := by
  cases ds with
  | nil => norm_num
  | cons d ds => exact word d List.mem_cons_self

private theorem tail_word {d : ℕ} {ds : List ℕ} (word : ∀ e ∈ d :: ds, e < 2 ^ 32) : ∀ e ∈ ds, e < 2 ^ 32 :=
  fun e member => word e (List.mem_cons_of_mem _ member)

/-! ## Doubling and tripling -/

private theorem mul2_word {next d : ℕ} (small : next < 2 ^ 32) :
    (next >>> 31 + d <<< 1) % 2 ^ 32 + 2 ^ 32 * (d >>> 31) = next >>> 31 + 2 * d := by
  simp only [Nat.shiftRight_eq_div_pow, Nat.shiftLeft_eq]
  omega

/-- Doubling the words moves the top bit of each word into the word in front of it. -/
theorem value_mul2Words (ds : List ℕ) (word : ∀ d ∈ ds, d < 2 ^ 32) :
    value (2 ^ 32) (mul2Words ds) + ds.headD 0 >>> 31 * (2 ^ 32) ^ ds.length = 2 * value (2 ^ 32) ds := by
  induction ds with
  | nil => simp [mul2Words]
  | cons d ds ih =>
    have rest := ih (tail_word word)
    have here := mul2_word (d := d) (head_lt (tail_word word))
    simp only [mul2Words, value_cons, length_mul2Words, List.headD_cons, List.length_cons, pow_succ]
    linear_combination rest + (2 ^ 32) ^ ds.length * here

/-- `mul_2` doubles modulo the width of the record. -/
theorem toNat_mul2 (x : MyBigInt INTS) : (mul2 x).toNat = 2 * x.toNat % (2 ^ 32) ^ INTS := by
  have exact_words := value_mul2Words x.data x.word
  have bound := toNat_lt (mul2 x)
  rw [x.size] at exact_words
  change value (2 ^ 32) (mul2Words x.data) < _ at bound
  change value (2 ^ 32) (mul2Words x.data) = 2 * value (2 ^ 32) x.data % _
  rw [← exact_words, Nat.add_mul_mod_self_right, Nat.mod_eq_of_lt bound]

/-- The carries `mul_3` drops: word `i` overflows when the carry of the next word is added. -/
def lostCarries : List ℕ → ℕ
  | [] => 0
  | d :: ds => ((ds.headD 0 * 3) >>> 32 + d * 3 % 2 ^ 32) / 2 ^ 32 * (2 ^ 32) ^ (ds.length + 1) + lostCarries ds

private theorem mul3_word (next d : ℕ) :
    ((next * 3) >>> 32 + d * 3 % 2 ^ 32) % 2 ^ 32 + 2 ^ 32 * ((d * 3) >>> 32) +
      2 ^ 32 * (((next * 3) >>> 32 + d * 3 % 2 ^ 32) / 2 ^ 32) = (next * 3) >>> 32 + 3 * d := by
  simp only [Nat.shiftRight_eq_div_pow]
  omega

/-- Tripling the words gives three times the number, less the dropped carries. -/
theorem value_mul3Words (ds : List ℕ) :
    value (2 ^ 32) (mul3Words ds) + (ds.headD 0 * 3) >>> 32 * (2 ^ 32) ^ ds.length + lostCarries ds =
      3 * value (2 ^ 32) ds := by
  induction ds with
  | nil => simp [mul3Words, lostCarries]
  | cons d ds ih =>
    have here := mul3_word (ds.headD 0) d
    simp only [mul3Words, lostCarries, value_cons, length_mul3Words, List.headD_cons, List.length_cons,
      pow_succ]
    linear_combination ih + (2 ^ 32) ^ ds.length * here

/-- No word of `mul_3` overflows when the carry of the next word is added to it. -/
def NoLostCarry (x : MyBigInt INTS) : Prop := lostCarries x.data = 0

instance (x : MyBigInt INTS) : Decidable (NoLostCarry x) := inferInstanceAs (Decidable (lostCarries x.data = 0))

/-- `mul_3` triples a number whose triple fits, as long as it loses no carry. -/
theorem toNat_mul3 (x : MyBigInt INTS) (kept : NoLostCarry x) (fits : 3 * x.toNat < (2 ^ 32) ^ INTS) :
    (mul3 x).toNat = 3 * x.toNat := by
  have words := value_mul3Words x.data
  rw [show lostCarries x.data = 0 from kept, x.size, Nat.add_zero] at words
  change value (2 ^ 32) (mul3Words x.data) = 3 * value (2 ^ 32) x.data
  change 3 * value (2 ^ 32) x.data < _ at fits
  have overflow : (x.data.headD 0 * 3) >>> 32 = 0 := by
    by_contra positive
    have := Nat.le_mul_of_pos_left ((2 ^ 32) ^ INTS) (Nat.pos_of_ne_zero positive)
    omega
  rw [overflow] at words
  omega

/-! ## Shifting, dividing and reducing -/

theorem getLastD_lt (x : MyBigInt INTS) : x.data.getLastD 0 < 2 ^ 32 := by
  rcases List.eq_nil_or_concat x.data with empty | ⟨front, last, split⟩
  · simp [empty]
  · rw [List.concat_eq_append] at split
    rw [split, List.getLastD_concat]
    exact x.word last (by simp [split])

theorem toNat_eq_dropLast (x : MyBigInt INTS) :
    x.toNat = 2 ^ 32 * value (2 ^ 32) x.data.dropLast + x.data.getLastD 0 := by
  unfold toNat
  rcases List.eq_nil_or_concat x.data with empty | ⟨front, last, split⟩
  · simp [empty]
  · rw [List.concat_eq_append] at split
    rw [split, List.getLastD_concat, List.dropLast_concat, BigEndian.value_append]
    simp [mul_comm]

/-- `rshift_32` divides by the word size. -/
theorem toNat_rshift32 (x : MyBigInt INTS) : (rshift32 x).toNat = x.toNat / 2 ^ 32 := by
  have last := getLastD_lt x
  rw [toNat_eq_dropLast x]
  have shifted : (rshift32 x).toNat = value (2 ^ 32) x.data.dropLast := by
    change value (2 ^ 32) (rshift32Words x.data) = _
    cases x.data <;> simp [rshift32Words]
  omega

/-- Schoolbook division: the words hold the quotient of the running remainder and the number. -/
theorem value_divWords {divisor : ℕ} (positive : 0 < divisor) (small : divisor ≤ 2 ^ 32) (temp2 : ℕ)
    (ds : List ℕ) (word : ∀ d ∈ ds, d < 2 ^ 32) (remainder : temp2 < divisor) :
    value (2 ^ 32) (divWords divisor temp2 ds) =
      (temp2 * (2 ^ 32) ^ ds.length + value (2 ^ 32) ds) / divisor := by
  induction ds generalizing temp2 with
  | nil => simp [divWords, Nat.div_eq_of_lt remainder]
  | cons d ds ih =>
    have head : d < 2 ^ 32 := word d List.mem_cons_self
    have shift : temp2 <<< 32 + d < 2 ^ 64 := by
      rw [Nat.shiftLeft_eq]
      omega
    have digit : (temp2 * 2 ^ 32 + d) / divisor < 2 ^ 32 := by
      rw [Nat.div_lt_iff_lt_mul positive]
      nlinarith
    simp only [divWords, Nat.mod_eq_of_lt shift, value_cons, length_divWords]
    rw [ih _ (tail_word word) (Nat.mod_lt _ positive), Nat.shiftLeft_eq, Nat.mod_eq_of_lt digit]
    set numerator := temp2 * 2 ^ 32 + d with definition
    have split : temp2 * (2 ^ 32) ^ (d :: ds).length + (d * (2 ^ 32) ^ ds.length + value (2 ^ 32) ds) =
        divisor * (numerator / divisor * (2 ^ 32) ^ ds.length) +
          (numerator % divisor * (2 ^ 32) ^ ds.length + value (2 ^ 32) ds) := by
      have divide : divisor * (numerator / divisor) + numerator % divisor = temp2 * 2 ^ 32 + d :=
        Nat.div_add_mod numerator divisor
      rw [List.length_cons, pow_succ]
      calc temp2 * ((2 ^ 32) ^ ds.length * 2 ^ 32) + (d * (2 ^ 32) ^ ds.length + value (2 ^ 32) ds)
          = (temp2 * 2 ^ 32 + d) * (2 ^ 32) ^ ds.length + value (2 ^ 32) ds := by ring
        _ = _ := by rw [← divide]; ring
    rw [split, Nat.mul_add_div positive]

/-- `div_3_18` divides by `3 ^ 18`. -/
theorem toNat_div3_18 (x : MyBigInt INTS) : (div3_18 x).toNat = x.toNat / 3 ^ 18 := by
  have divided : value (2 ^ 32) (divWords 387420489 0 x.data) =
      (0 * (2 ^ 32) ^ x.data.length + value (2 ^ 32) x.data) / 387420489 :=
    value_divWords (by norm_num) (by norm_num) 0 x.data x.word (by norm_num)
  rw [zero_mul, zero_add] at divided
  exact divided

private theorem mulNum_spec : ∀ i < 20, mulNum.getD i 0 = (2 ^ 32) ^ i % 2324522934 := by decide +kernel

/-- The sum of `mod_2_33_3_19` in unbounded arithmetic. -/
def exactSum : List ℕ → ℕ
  | [] => 0
  | d :: ds => d * mulNum.getD ds.length 0 % 2324522934 + exactSum ds

private theorem modSum_eq (ds : List ℕ) (word : ∀ d ∈ ds, d < 2 ^ 32) (size : ds.length ≤ 20) :
    modSum ds = exactSum ds ∧ exactSum ds < ds.length * 2324522934 + 1 := by
  induction ds with
  | nil => simp [modSum, exactSum]
  | cons d ds ih =>
    simp only [List.length_cons] at size
    obtain ⟨same, bound⟩ := ih (tail_word word) (by omega)
    have head : d < 2 ^ 32 := word d List.mem_cons_self
    have entry_lt : mulNum.getD ds.length 0 < 2 ^ 32 :=
      mulNum_spec ds.length (by omega) ▸ (Nat.mod_lt _ (by norm_num)).trans (by norm_num)
    have product : d * mulNum.getD ds.length 0 < 2 ^ 64 := by nlinarith
    have term := Nat.mod_lt (d * mulNum.getD ds.length 0) (show 0 < 2324522934 by norm_num)
    simp only [modSum, exactSum, Nat.mod_eq_of_lt product, same, List.length_cons]
    rw [Nat.mod_eq_of_lt (by omega)]
    exact ⟨rfl, by omega⟩

private theorem exactSum_residue (ds : List ℕ) (size : ds.length ≤ 20) :
    exactSum ds ≡ value (2 ^ 32) ds [MOD 2324522934] := by
  induction ds with
  | nil => rfl
  | cons d ds ih =>
    simp only [List.length_cons] at size
    have head : d * mulNum.getD ds.length 0 ≡ d * (2 ^ 32) ^ ds.length [MOD 2324522934] := by
      rw [mulNum_spec ds.length (by omega)]
      exact (Nat.mod_modEq _ _).mul_left d
    exact ((Nat.mod_modEq _ _).trans head).add (ih (by omega))

private theorem rshift32Words_tail (ds : List ℕ) : (rshift32Words ds).tail = ds.dropLast := by
  cases ds <;> simp [rshift32Words]

/-- `mod_2_33_3_19` in unbounded arithmetic. -/
def exactResidue (x : MyBigInt INTS) : ℕ :=
  exactSum (rshift32Words x.data).tail % 2324522934 * 2 ^ 32 + x.data.getLastD 0

/-- No step of `mod_2_33_3_19` overflows 64 bits, for as many words as its table covers. -/
theorem mod2_33_3_19_exact (x : MyBigInt INTS) (covered : INTS ≤ 21) :
    mod2_33_3_19 x = exactResidue x ∧ exactResidue x < 2 ^ 64 := by
  have last := getLastD_lt x
  obtain ⟨same, -⟩ := modSum_eq x.data.dropLast (fun d member => x.word d (List.mem_of_mem_dropLast member))
    (by rw [List.length_dropLast, x.size]; omega)
  have reduced := Nat.mod_lt (exactSum x.data.dropLast) (show 0 < 2324522934 by norm_num)
  rw [mod2_33_3_19, exactResidue, rshift32Words_tail, same, Nat.shiftLeft_eq]
  constructor
  · exact Nat.mod_eq_of_lt (by omega)
  · omega

/-- `mod_2_33_3_19` is the residue it is named after, for as many words as its table covers. -/
theorem mod2_33_3_19_eq (x : MyBigInt INTS) (covered : INTS ≤ 21) :
    mod2_33_3_19 x = x.toNat % (2 ^ 33 * 3 ^ 19) := by
  have last := getLastD_lt x
  have residue : exactSum x.data.dropLast % 2324522934 = _ :=
    exactSum_residue x.data.dropLast (by rw [List.length_dropLast, x.size]; omega)
  rw [(mod2_33_3_19_exact x covered).1, exactResidue, rshift32Words_tail, residue, toNat_eq_dropLast x,
    show 2 ^ 33 * 3 ^ 19 = 2 ^ 32 * 2324522934 by norm_num, Nat.mod_mul, Nat.mul_add_mod, Nat.mod_eq_of_lt last,
    Nat.mul_add_div (by norm_num), Nat.div_eq_of_lt last]
  omega

/-! ## Comparison -/

private theorem geWords_iff (xs ys : List ℕ) (size : xs.length = ys.length) (left : ∀ d ∈ xs, d < 2 ^ 32)
    (right : ∀ d ∈ ys, d < 2 ^ 32) : geWords xs ys = true ↔ value (2 ^ 32) ys ≤ value (2 ^ 32) xs := by
  fun_induction geWords with
  | case1 x xs y ys less =>
    have := BigEndian.value_lt_value_of_lt less (by simpa using size) (tail_word left)
    simpa using this
  | case2 x xs y ys _ more =>
    have := BigEndian.value_lt_value_of_lt more (by simpa using size.symm) (tail_word right)
    simpa using this.le
  | case3 x xs y ys _ _ ih =>
    obtain rfl : x = y := by omega
    have same : xs.length = ys.length := by simpa using size
    rw [ih same (tail_word left) (tail_word right), value_cons, value_cons, same]
    omega
  | case4 xs ys short =>
    cases xs with
    | nil => simp [List.length_eq_zero_iff.mp size.symm]
    | cons x xs =>
      cases ys with
      | nil => simp at size
      | cons y ys => exact absurd rfl (short x xs y ys rfl)

/-- `operator>=` compares the numbers. -/
theorem ge_iff (a b : MyBigInt INTS) : ge a b = true ↔ b.toNat ≤ a.toNat :=
  geWords_iff a.data b.data (a.size.trans b.size.symm) a.word b.word

/-- `iszero` recognises the number zero. -/
theorem iszero_iff (x : MyBigInt INTS) : x.iszero = true ↔ x.toNat = 0 := by
  rw [toNat, BigEndian.value_eq_zero (by norm_num)]
  simp [iszero]

/-! ## Subtraction -/

/-- Every word but the last lends exactly when the numbers from that word on require it. -/
def Lends (extra : ℕ → Bool) : List ℕ → List ℕ → Prop
  | x :: xs, y :: ys =>
    (xs ≠ [] →
      let ret := if value (2 ^ 32) xs < value (2 ^ 32) ys then (x + (2 ^ 32 - 1)) % 2 ^ 32 else x
      ((ret < y || extra ret) = true ↔ value (2 ^ 32) (x :: xs) < value (2 ^ 32) (y :: ys))) ∧
    Lends extra xs ys
  | _, _ => True

private theorem cons_lt_cons_iff {x y : ℕ} {xs ys : List ℕ} (size : xs.length = ys.length)
    (left : ∀ d ∈ xs, d < 2 ^ 32) (right : ∀ d ∈ ys, d < 2 ^ 32) :
    value (2 ^ 32) (x :: xs) < value (2 ^ 32) (y :: ys) ↔
      x < y + if value (2 ^ 32) xs < value (2 ^ 32) ys then 1 else 0 := by
  rcases lt_trichotomy x y with less | rfl | more
  · have := BigEndian.value_lt_value_of_lt less size left
    split <;> omega
  · simp only [value_cons, size]
    split <;> omega
  · have := BigEndian.value_lt_value_of_lt more size.symm right
    split <;> omega

private theorem subWords_cons (extra : ℕ → Bool) {x y : ℕ} {xs ys : List ℕ} (size : xs.length = ys.length) :
    subWords extra (x :: xs) (y :: ys) =
      ((if (borrowWords extra xs ys).2 then (x + (2 ^ 32 - 1)) % 2 ^ 32 else x) + 2 ^ 32 - y) % 2 ^ 32 ::
        subWords extra xs ys := by
  cases xs with
  | nil => simp [List.length_eq_zero_iff.mp size.symm, subWords, borrowWords]
  | cons z zs => simp only [subWords, borrowWords, List.zipWith_cons_cons]

/-- One more word in front of words that were subtracted correctly. -/
private theorem value_subWords_cons (extra : ℕ → Bool) {x y : ℕ} {xs ys : List ℕ} (size : xs.length = ys.length)
    (left : ∀ d ∈ x :: xs, d < 2 ^ 32) (right : ∀ d ∈ y :: ys, d < 2 ^ 32)
    (flag : (borrowWords extra xs ys).2 = true ↔ value (2 ^ 32) xs < value (2 ^ 32) ys)
    (words : value (2 ^ 32) (subWords extra xs ys) + value (2 ^ 32) ys =
      value (2 ^ 32) xs + (if value (2 ^ 32) xs < value (2 ^ 32) ys then 1 else 0) * (2 ^ 32) ^ xs.length) :
    value (2 ^ 32) (subWords extra (x :: xs) (y :: ys)) + value (2 ^ 32) (y :: ys) =
      value (2 ^ 32) (x :: xs) +
        (if value (2 ^ 32) (x :: xs) < value (2 ^ 32) (y :: ys) then 1 else 0) * (2 ^ 32) ^ (x :: xs).length := by
  have less := cons_lt_cons_iff (x := x) (y := y) size (tail_word left) (tail_word right)
  have xSmall : x < 2 ^ 32 := left x List.mem_cons_self
  have ySmall : y < 2 ^ 32 := right y List.mem_cons_self
  have length : (subWords extra xs ys).length = xs.length := by simp [subWords, size]
  have digit : ((if (borrowWords extra xs ys).2 then (x + (2 ^ 32 - 1)) % 2 ^ 32 else x) + 2 ^ 32 - y) % 2 ^ 32 +
      y + (if value (2 ^ 32) xs < value (2 ^ 32) ys then 1 else 0) =
        x + 2 ^ 32 * if x < y + (if value (2 ^ 32) xs < value (2 ^ 32) ys then 1 else 0) then 1 else 0 := by
    rw [if_congr flag rfl rfl]
    split <;> split <;> omega
  rw [if_congr less rfl rfl, subWords_cons extra size, value_cons, value_cons, value_cons, length, ← size,
    List.length_cons, pow_succ]
  linear_combination words + (2 ^ 32) ^ xs.length * digit

private theorem borrow_spec (extra : ℕ → Bool) (xs ys : List ℕ) (size : xs.length = ys.length)
    (left : ∀ d ∈ xs, d < 2 ^ 32) (right : ∀ d ∈ ys, d < 2 ^ 32) (lends : Lends extra xs ys) :
    ((borrowWords extra xs ys).2 = true ↔ value (2 ^ 32) xs < value (2 ^ 32) ys) ∧
      value (2 ^ 32) (subWords extra xs ys) + value (2 ^ 32) ys =
        value (2 ^ 32) xs + (if value (2 ^ 32) xs < value (2 ^ 32) ys then 1 else 0) * (2 ^ 32) ^ xs.length := by
  induction xs generalizing ys with
  | nil => simp [List.length_eq_zero_iff.mp size.symm, subWords, borrowWords]
  | cons x xs ih =>
    cases ys with
    | nil => simp at size
    | cons y ys =>
      have same : xs.length = ys.length := by simpa using size
      obtain ⟨lendsHere, lendsRest⟩ := lends
      obtain ⟨flag, words⟩ := ih ys same (tail_word left) (tail_word right) lendsRest
      refine ⟨?_, value_subWords_cons extra same left right flag words⟩
      cases xs with
      | nil => simp [List.length_eq_zero_iff.mp same.symm, borrowWords]
      | cons z zs =>
        have here := lendsHere (by simp)
        simp only [← flag] at here
        simpa only [borrowWords] using here

/-- A subtraction whose words lend as they should is exact. -/
theorem toNat_subWith (extra : ℕ → Bool) (a b : MyBigInt INTS) (less : b.toNat ≤ a.toNat)
    (lends : Lends extra a.data.tail b.data.tail) : (subWith extra a b).toNat = a.toNat - b.toNat := by
  have size := a.size.trans b.size.symm
  have left := a.word
  have right := b.word
  change value (2 ^ 32) b.data ≤ value (2 ^ 32) a.data at less
  change value (2 ^ 32) (subWords extra a.data b.data) = value (2 ^ 32) a.data - value (2 ^ 32) b.data
  generalize a.data = xs at *
  generalize b.data = ys at *
  cases xs with
  | nil => simp [List.length_eq_zero_iff.mp size.symm, subWords, borrowWords]
  | cons x xs =>
    cases ys with
    | nil => simp at size
    | cons y ys =>
      have same : xs.length = ys.length := by simpa using size
      obtain ⟨flag, words⟩ := borrow_spec extra xs ys same (tail_word left) (tail_word right) lends
      have total := value_subWords_cons extra same left right flag words
      rw [if_neg (not_lt.mpr less)] at total
      omega

private theorem split_modEq {B n d y x u w v : ℕ} (positive : 0 < B)
    (whole : d * B ^ n + u + (y * B ^ n + w) ≡ x * B ^ n + v [MOD B ^ (n + 1)]) :
    u + w ≡ v [MOD B ^ n] ∧ ∀ c, u + w = v + c * B ^ n → d + y + c ≡ x [MOD B] := by
  constructor
  · rw [pow_succ] at whole
    have low := whole.of_mul_right B
    rw [show d * B ^ n + u + (y * B ^ n + w) = B ^ n * (d + y) + (u + w) by ring, Nat.mul_comm x] at low
    unfold Nat.ModEq at low
    rwa [Nat.mul_add_mod, Nat.mul_add_mod] at low
  · intro c lower
    have high : (d + y + c) * B ^ n + v ≡ x * B ^ n + v [MOD B * B ^ n] := by
      rw [← pow_succ']
      calc (d + y + c) * B ^ n + v = d * B ^ n + u + (y * B ^ n + w) := by linear_combination -lower
        _ ≡ x * B ^ n + v [MOD B ^ (n + 1)] := whole
    exact Nat.ModEq.mul_right_cancel' (pow_pos positive n).ne' (Nat.ModEq.add_right_cancel' v high)

/-- A difference that is right modulo the width of the words fixes every borrow between them. -/
private theorem lends_of_modEq (extra : ℕ → Bool) (xs ys : List ℕ) (size : xs.length = ys.length)
    (left : ∀ d ∈ xs, d < 2 ^ 32) (right : ∀ d ∈ ys, d < 2 ^ 32)
    (difference : value (2 ^ 32) (subWords extra xs ys) + value (2 ^ 32) ys ≡ value (2 ^ 32) xs
      [MOD (2 ^ 32) ^ xs.length]) : Lends extra xs.tail ys.tail := by
  induction xs generalizing ys with
  | nil => trivial
  | cons x xs ih =>
    cases ys with
    | nil => simp at size
    | cons y ys =>
      have same : xs.length = ys.length := by simpa using size
      have length : (subWords extra xs ys).length = xs.length := by simp [subWords, same]
      rw [subWords_cons extra same, value_cons, value_cons, value_cons, length, ← same, List.length_cons] at difference
      obtain ⟨low, high⟩ := split_modEq (by norm_num) difference
      have rest := ih ys same (tail_word left) (tail_word right) low
      cases xs with
      | nil => trivial
      | cons z zs =>
        cases ys with
        | nil => simp at same
        | cons w ws =>
          refine ⟨fun nonempty => ?_, rest⟩
          obtain ⟨flag, words⟩ := borrow_spec extra zs ws (by simpa using same) (tail_word (tail_word left))
            (tail_word (tail_word right)) rest
          have digit := high _ (value_subWords_cons extra (by simpa using same) (tail_word left) (tail_word right)
            flag words)
          have xSmall : x < 2 ^ 32 := left x List.mem_cons_self
          have ySmall : y < 2 ^ 32 := right y List.mem_cons_self
          have borrow : (borrowWords extra (z :: zs) (w :: ws)).2 = true ↔
              value (2 ^ 32) (z :: zs) < value (2 ^ 32) (w :: ws) := by
            unfold Nat.ModEq at digit
            split at digit <;> split at digit <;> simp_all <;> omega
          simp only [← flag]
          rw [← borrow]
          cases zs with
          | nil => exact absurd rfl nonempty
          | cons u us => rfl

/-- No middle word of the minuend is `4294967295` unless the words behind it need to borrow. -/
def NoFalseBorrowWords : List ℕ → List ℕ → Prop
  | x :: xs, _ :: ys =>
    (xs ≠ [] → x = 4294967295 → value (2 ^ 32) xs < value (2 ^ 32) ys) ∧ NoFalseBorrowWords xs ys
  | _, _ => True

instance decidableNoFalseBorrowWords : ∀ xs ys : List ℕ, Decidable (NoFalseBorrowWords xs ys)
  | [], _ => isTrue trivial
  | _ :: _, [] => isTrue trivial
  | x :: xs, _ :: ys =>
    have := decidableNoFalseBorrowWords xs ys
    inferInstanceAs (Decidable
      ((xs ≠ [] → x = 4294967295 → value (2 ^ 32) xs < value (2 ^ 32) ys) ∧ NoFalseBorrowWords xs ys))

/-- No middle word of the minuend is zero when the words behind it need to borrow. -/
def NoLostBorrowWords : List ℕ → List ℕ → Prop
  | x :: xs, _ :: ys =>
    (xs ≠ [] → x = 0 → value (2 ^ 32) ys ≤ value (2 ^ 32) xs) ∧ NoLostBorrowWords xs ys
  | _, _ => True

instance decidableNoLostBorrowWords : ∀ xs ys : List ℕ, Decidable (NoLostBorrowWords xs ys)
  | [], _ => isTrue trivial
  | _ :: _, [] => isTrue trivial
  | x :: xs, _ :: ys =>
    have := decidableNoLostBorrowWords xs ys
    inferInstanceAs (Decidable
      ((xs ≠ [] → x = 0 → value (2 ^ 32) ys ≤ value (2 ^ 32) xs) ∧ NoLostBorrowWords xs ys))

private theorem lends_iff_noFalseBorrow (xs ys : List ℕ) (size : xs.length = ys.length)
    (left : ∀ d ∈ xs, d < 2 ^ 32) (right : ∀ d ∈ ys, d < 2 ^ 32) :
    Lends (· == 4294967295) xs ys ↔ NoFalseBorrowWords xs ys := by
  induction xs generalizing ys with
  | nil => simp [Lends, NoFalseBorrowWords]
  | cons x xs ih =>
    cases ys with
    | nil => simp at size
    | cons y ys =>
      have same : xs.length = ys.length := by simpa using size
      have xSmall : x < 2 ^ 32 := left x List.mem_cons_self
      have ySmall : y < 2 ^ 32 := right y List.mem_cons_self
      apply and_congr _ (ih ys same (tail_word left) (tail_word right))
      apply forall_congr'
      intro nonempty
      rw [cons_lt_cons_iff same (tail_word left) (tail_word right)]
      simp only [Bool.or_eq_true, decide_eq_true_eq, beq_iff_eq]
      split <;> omega

private theorem lends_iff_noLostBorrow (xs ys : List ℕ) (size : xs.length = ys.length)
    (left : ∀ d ∈ xs, d < 2 ^ 32) (right : ∀ d ∈ ys, d < 2 ^ 32) :
    Lends (fun _ => false) xs ys ↔ NoLostBorrowWords xs ys := by
  induction xs generalizing ys with
  | nil => simp [Lends, NoLostBorrowWords]
  | cons x xs ih =>
    cases ys with
    | nil => simp at size
    | cons y ys =>
      have same : xs.length = ys.length := by simpa using size
      have xSmall : x < 2 ^ 32 := left x List.mem_cons_self
      have ySmall : y < 2 ^ 32 := right y List.mem_cons_self
      apply and_congr _ (ih ys same (tail_word left) (tail_word right))
      apply forall_congr'
      intro nonempty
      rw [cons_lt_cons_iff same (tail_word left) (tail_word right)]
      simp only [Bool.or_false, decide_eq_true_eq]
      split <;> omega

/-- The words between the first and the last lend as they should in the subtraction of the CPU. -/
def NoFalseBorrow (a b : MyBigInt INTS) : Prop := NoFalseBorrowWords a.data.tail b.data.tail

/-- The words between the first and the last lend as they should in the subtraction of the GPU. -/
def NoLostBorrow (a b : MyBigInt INTS) : Prop := NoLostBorrowWords a.data.tail b.data.tail

instance (a b : MyBigInt INTS) : Decidable (NoFalseBorrow a b) := decidableNoFalseBorrowWords _ _

instance (a b : MyBigInt INTS) : Decidable (NoLostBorrow a b) := decidableNoLostBorrowWords _ _

private theorem tails (a b : MyBigInt INTS) : a.data.tail.length = b.data.tail.length ∧
    (∀ d ∈ a.data.tail, d < 2 ^ 32) ∧ ∀ d ∈ b.data.tail, d < 2 ^ 32 :=
  ⟨by simp [a.size, b.size], fun d member => a.word d (List.mem_of_mem_tail member),
    fun d member => b.word d (List.mem_of_mem_tail member)⟩

/-- A subtraction is exact just when its words lend as they should. -/
theorem toNat_subWith_iff (extra : ℕ → Bool) (a b : MyBigInt INTS) (less : b.toNat ≤ a.toNat) :
    (subWith extra a b).toNat = a.toNat - b.toNat ↔ Lends extra a.data.tail b.data.tail := by
  constructor
  · intro difference
    apply lends_of_modEq extra a.data b.data (a.size.trans b.size.symm) a.word b.word
    change (subWith extra a b).toNat + b.toNat ≡ a.toNat [MOD _]
    rw [difference, Nat.sub_add_cancel less]
  · exact toNat_subWith extra a b less

private theorem sub_iff (a b : MyBigInt INTS) (less : b.toNat ≤ a.toNat) :
    (sub a b).toNat = a.toNat - b.toNat ↔ NoFalseBorrow a b := by
  obtain ⟨size, left, right⟩ := tails a b
  exact (toNat_subWith_iff _ a b less).trans (lends_iff_noFalseBorrow _ _ size left right)

theorem uint288_sub_iff (a b : UInt288) (less : b.toNat ≤ a.toNat) :
    (UInt288.sub a b).toNat = a.toNat - b.toNat ↔ NoLostBorrow a b := by
  obtain ⟨size, left, right⟩ := tails a b
  exact (toNat_subWith_iff _ a b less).trans (lends_iff_noLostBorrow _ _ size left right)

/-- `operator-` of the CPU is exact when no word lends falsely. -/
theorem toNat_sub (a b : MyBigInt INTS) (less : b.toNat ≤ a.toNat) (ok : NoFalseBorrow a b) :
    (sub a b).toNat = a.toNat - b.toNat :=
  (sub_iff a b less).mpr ok

/-- `operator-` of the GPU is exact when no borrow is lost. -/
theorem toNat_uint288_sub (a b : UInt288) (less : b.toNat ≤ a.toNat) (ok : NoLostBorrow a b) :
    (UInt288.sub a b).toNat = a.toNat - b.toNat :=
  (uint288_sub_iff a b less).mpr ok

/-- For any number of words, `operator-` of the CPU is exact just when no word lends falsely. -/
theorem subtraction_iff (a b : MyBigInt INTS) (less : b.toNat ≤ a.toNat) :
    (sub a b).toNat = a.toNat - b.toNat ↔ NoFalseBorrow a b :=
  sub_iff a b less

theorem subtraction_iff_seven_three :
    (sub (ofNat 3 7) (ofNat 3 3)).toNat = (ofNat 3 7).toNat - (ofNat 3 3).toNat ↔
      NoFalseBorrow (ofNat 3 7) (ofNat 3 3) :=
  subtraction_iff (ofNat 3 7) (ofNat 3 3) (by decide)

/-- A middle word `4294967295` lends although nothing has to be borrowed. -/
theorem subtraction_false_borrow : ¬ ∀ (INTS : ℕ) (a b : MyBigInt INTS), b.toNat ≤ a.toNat →
    (sub a b).toNat = a.toNat - b.toNat := by
  intro exact
  exact absurd (exact 3 (ofNat 3 (2 ^ 64 - 2 ^ 32)) (ofNat 3 0) (by decide)) (by decide)

end DbcSnark.DBCTest.MyBigInt
