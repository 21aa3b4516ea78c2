import DbcSnark.Model.Gpuec.Point
import DbcSnark.Model.Gpuec.Text

/-! # Hashing to the curve

`mapToGroup` of `rp.cu` and `cuverify.cu`, which differ in `str2uint64` only. The numbers of GMP are integers. The hash
function of the library maps the bytes of a string to 32 bytes.
-/

namespace DbcSnark.Gpuec

open Hexadecimal

namespace MapToGroup

/-- `mpz_set_str(d, "FFFF…FC2F", 16)`. -/
def d : ℤ := 0xFFFFFFFFFFFFFFFFFFFFFFFFFFFFFFFFFFFFFFFFFFFFFFFFFFFFFFFEFFFFFC2F

/-- `mpz_powm`, for exponents that are not negative. -/
def mpz_powm (base exponent modulus : ℤ) : ℤ := base ^ exponent.toNat % modulus

/-- `mpz_get_str(s, 16, n)`. -/
def mpz_get_str (n : ℤ) : List Char := if n < 0 then '-' :: spell n.natAbs else spell n.natAbs

/-- `sha256`: two digits for each byte of the hash. -/
def sha256 (SHA256 : List UInt8 → Vector UInt8 32) (srcStr : List UInt8) : List Char :=
  (SHA256 srcStr).toList.flatMap fun b => [lower (b.toNat / 16), lower (b.toNat % 16)]

def check_quadratic_residue (num : ℤ) : ℤ :=
  let t1 := d - 1
  let t2 := t1.tdiv 2
  let t2 := mpz_powm num t2 d
  if t2 = 1 then 1
  else if t2 = t1 then -1
  else 0

/-- The numbers that the loop changes. -/
structure Candidate where
  hexr : ℤ
  rx : ℤ

/-- The body of the loop up to the checks. -/
def next (c : Candidate) (i : ℕ) : Candidate :=
  let rx := c.hexr + i
  let hexr := mpz_powm rx 3 d
  let hexr := hexr + 7
  ⟨hexr % d, rx⟩

/-- The loop over the indices `is`, left at the first square. -/
def loop (c : Candidate) : List ℕ → Candidate
  | [] => c
  | i :: is =>
    let c := next c i
    if check_quadratic_residue c.hexr = 1 then c else loop c is

/-- `mapToGroup`, with no value where `str2uint64` throws; `jp` keeps the words of `z` other than the first. -/
def mapToGroup (str2uint64 : List Char → Option Big) (SHA256 : List UInt8 → Vector UInt8 32) (s : List UInt8)
    (jp : Jpoint) : Option Jpoint := do
  let c := loop ⟨number (sha256 SHA256 s), 0⟩ (List.range 2048)
  let t1 := (d + 1).tdiv 4
  let ry := mpz_powm c.hexr t1 d
  let x ← str2uint64 (mpz_get_str c.rx)
  let y ← str2uint64 (mpz_get_str ry)
  return ⟨x, y, { jp.z with w0 := 1 }⟩

end MapToGroup

def Rp.mapToGroup := MapToGroup.mapToGroup Rp.str2uint64
def Cuverify.mapToGroup := MapToGroup.mapToGroup Cuverify.str2uint64

end DbcSnark.Gpuec
