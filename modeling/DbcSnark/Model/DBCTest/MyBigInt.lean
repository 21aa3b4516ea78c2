import DbcSnark.ToMathlib.BigEndian

/-! # Fixed-size unsigned integers of the CPU and GPU chain searches

`myBigInt<INTS>` holds `INTS` words of 32 bits, `data[0]` being the most significant; `uint288` is the
same record with nine words. Word stores truncate to 32 bits and `uint64` intermediates to 64 bits.
The two subtractions share their loop and differ only in the test that decides a borrow.
-/

namespace DbcSnark.DBCTest

/-- `struct myBigInt<N>`: the array `data`, most significant word first. -/
@[ext] structure MyBigInt (INTS : ℕ) where
  data : List ℕ
  size : data.length = INTS
  word : ∀ d ∈ data, d < 2 ^ 32
deriving DecidableEq

namespace MyBigInt

variable {INTS : ℕ}

/-- The number held by the words. -/
def toNat (x : MyBigInt INTS) : ℕ := BigEndian.value (2 ^ 32) x.data

/-- The words of `n`, truncated to the width of the record. -/
def ofNat (INTS n : ℕ) : MyBigInt INTS where
  data := BigEndian.digits (2 ^ 32) INTS n
  size := BigEndian.length_digits INTS n
  word := BigEndian.digits_lt (by norm_num) INTS n

/-- Apply a word-list operation that keeps the length and truncates its stores. -/
def map (f : List ℕ → List ℕ) (size : ∀ ds, (f ds).length = ds.length)
    (word : ∀ ds, (∀ d ∈ ds, d < 2 ^ 32) → ∀ d ∈ f ds, d < 2 ^ 32) (x : MyBigInt INTS) : MyBigInt INTS where
  data := f x.data
  size := (size x.data).trans x.size
  word := word x.data x.word

/-! ## Doubling and tripling -/

/-- `ret.data[i-1] = (data[i] >> 31) + (data[i-1] << 1)`, the last word without a carry. -/
def mul2Words : List ℕ → List ℕ
  | [] => []
  | d :: ds => ((ds.headD 0 >>> 31) + d <<< 1) % 2 ^ 32 :: mul2Words ds

/-- `ret.data[i] = (temp[i+1] >> 32) + (temp[i] & 4294967295)` with `temp[i] = data[i] * 3`: the carry
of this addition is dropped by the store. -/
def mul3Words : List ℕ → List ℕ
  | [] => []
  | d :: ds => ((ds.headD 0 * 3) >>> 32 + d * 3 % 2 ^ 32) % 2 ^ 32 :: mul3Words ds

@[simp] theorem length_mul2Words (ds : List ℕ) : (mul2Words ds).length = ds.length := by
  induction ds with
  | nil => rfl
  | cons d ds ih => simp [mul2Words, ih]

@[simp] theorem length_mul3Words (ds : List ℕ) : (mul3Words ds).length = ds.length := by
  induction ds with
  | nil => rfl
  | cons d ds ih => simp [mul3Words, ih]

theorem mul2Words_lt (ds : List ℕ) : ∀ d ∈ mul2Words ds, d < 2 ^ 32 := by
  induction ds with
  | nil => simp [mul2Words]
  | cons d ds ih => exact List.forall_mem_cons.mpr ⟨Nat.mod_lt _ (by norm_num), ih⟩

theorem mul3Words_lt (ds : List ℕ) : ∀ d ∈ mul3Words ds, d < 2 ^ 32 := by
  induction ds with
  | nil => simp [mul3Words]
  | cons d ds ih => exact List.forall_mem_cons.mpr ⟨Nat.mod_lt _ (by norm_num), ih⟩

def mul2 : MyBigInt INTS → MyBigInt INTS := map mul2Words length_mul2Words fun ds _ => mul2Words_lt ds

def mul3 : MyBigInt INTS → MyBigInt INTS := map mul3Words length_mul3Words fun ds _ => mul3Words_lt ds

/-! ## Shifting, dividing and reducing -/

/-- `rshift_32`: drop the last word and shift a zero in at the front. -/
def rshift32Words : List ℕ → List ℕ
  | [] => []
  | d :: ds => 0 :: (d :: ds).dropLast

@[simp] theorem length_rshift32Words (ds : List ℕ) : (rshift32Words ds).length = ds.length := by
  cases ds <;> simp [rshift32Words]

theorem rshift32Words_lt (ds : List ℕ) (word : ∀ d ∈ ds, d < 2 ^ 32) : ∀ d ∈ rshift32Words ds, d < 2 ^ 32 := by
  cases ds with
  | nil => simp [rshift32Words]
  | cons d ds =>
    exact List.forall_mem_cons.mpr ⟨by norm_num, fun e member => word e (List.mem_of_mem_dropLast member)⟩

def rshift32 : MyBigInt INTS → MyBigInt INTS := map rshift32Words length_rshift32Words rshift32Words_lt

/-- Schoolbook division by a small divisor, `temp2` being the running remainder. -/
def divWords (divisor : ℕ) : ℕ → List ℕ → List ℕ
  | _, [] => []
  | temp2, d :: ds =>
    let temp1 := (temp2 <<< 32 + d) % 2 ^ 64
    temp1 / divisor % 2 ^ 32 :: divWords divisor (temp1 % divisor) ds

@[simp] theorem length_divWords (divisor temp2 : ℕ) (ds : List ℕ) :
    (divWords divisor temp2 ds).length = ds.length := by
  induction ds generalizing temp2 with
  | nil => rfl
  | cons d ds ih => simp [divWords, ih]

theorem divWords_lt (divisor temp2 : ℕ) (ds : List ℕ) : ∀ d ∈ divWords divisor temp2 ds, d < 2 ^ 32 := by
  induction ds generalizing temp2 with
  | nil => simp [divWords]
  | cons d ds ih => exact List.forall_mem_cons.mpr ⟨Nat.mod_lt _ (by norm_num), ih _⟩

/-- `div_3_18`, dividing by `387420489`. -/
def div3_18 : MyBigInt INTS → MyBigInt INTS :=
  map (divWords 387420489 0) (length_divWords _ _) fun ds _ => divWords_lt _ _ ds

/-- `mul_num[i] = 2^(32*i) % (2*3^19)`. -/
def mulNum : List ℕ :=
  [1, 1970444362, 1644176284, 848770120, 475253032, 468402244, 1309631158, 1742236222, 569278114,
    2119856536, 199572574, 112215616, 2150738470, 1699047148, 1138432246, 344572318, 1173799390,
    1485158506, 1162871614, 1183015876]

/-- The loop `ret += a.data[i] * mul_num[INTS-1-i] % 2324522934`, without the final reduction. -/
def modSum : List ℕ → ℕ
  | [] => 0
  | d :: ds => (d * mulNum.getD ds.length 0 % 2 ^ 64 % 2324522934 + modSum ds) % 2 ^ 64

/-- `mod_2_33_3_19`, as the `uint64` it is assigned to. -/
def mod2_33_3_19 (x : MyBigInt INTS) : ℕ :=
  let ret := modSum (rshift32Words x.data).tail % 2324522934
  (ret <<< 32 + x.data.getLastD 0) % 2 ^ 64

/-! ## Comparison and subtraction -/

/-- `operator>=`, deciding at the first word in which the operands differ. -/
def geWords : List ℕ → List ℕ → Bool
  | x :: xs, y :: ys => if x < y then false else if x > y then true else geWords xs ys
  | _, _ => true

def ge (a b : MyBigInt INTS) : Bool := geWords a.data b.data

def iszero (x : MyBigInt INTS) : Bool := x.data.all (· == 0)

/-- The borrow loop of `operator-` on a suffix of the words: the minuend with its borrows taken, and
whether the word in front has to be decremented. `extra` is the test the CPU adds to `ret < b`. -/
def borrowWords (extra : ℕ → Bool) : List ℕ → List ℕ → List ℕ × Bool
  | [x], [y] => ([x], x < y)
  | x :: xs, y :: ys =>
    let (rest, borrow) := borrowWords extra xs ys
    let ret := if borrow then (x + (2 ^ 32 - 1)) % 2 ^ 32 else x
    (ret :: rest, ret < y || extra ret)
  | xs, _ => (xs, false)

/-- The final loop `ret.data[i] -= b.data[i]`. -/
def subWords (extra : ℕ → Bool) (xs ys : List ℕ) : List ℕ :=
  List.zipWith (fun ret y => (ret + 2 ^ 32 - y) % 2 ^ 32) (borrowWords extra xs ys).1 ys

@[simp] theorem length_borrowWords (extra : ℕ → Bool) (xs ys : List ℕ) :
    (borrowWords extra xs ys).1.length = xs.length := by
  fun_induction borrowWords <;> simp_all

/-- Subtraction with the given additional borrow test. -/
def subWith (extra : ℕ → Bool) (a b : MyBigInt INTS) : MyBigInt INTS where
  data := subWords extra a.data b.data
  size := by simp [subWords, a.size, b.size]
  word := by
    intro d member
    obtain ⟨i, bound, rfl⟩ := List.mem_iff_getElem.mp member
    simp only [subWords, List.getElem_zipWith]
    exact Nat.mod_lt _ (by norm_num)

/-- `operator-` of `myBigInt`: a word also lends when it reads `4294967295` after its own borrow. -/
def sub : MyBigInt INTS → MyBigInt INTS → MyBigInt INTS := subWith (· == 4294967295)

end MyBigInt

/-- `struct uint288` of the GPU sources. -/
abbrev UInt288 := MyBigInt 9

/-- `uint288::mul_2`, the lines of `mul_2` written out for nine words. -/
def UInt288.mul2 : UInt288 → UInt288 := MyBigInt.mul2

/-- `uint288::mul_3`, the lines of `mul_3` written out for nine words. -/
def UInt288.mul3 : UInt288 → UInt288 := MyBigInt.mul3

/-- `operator-` of `uint288`, which tests `ret.data[i] < b.data[i]` only. -/
def UInt288.sub : UInt288 → UInt288 → UInt288 := MyBigInt.subWith fun _ => false

end DbcSnark.DBCTest
