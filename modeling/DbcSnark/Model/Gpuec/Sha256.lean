import DbcSnark.ToMathlib.StreamingHash
import Mathlib.Logic.Function.Basic

/-! # The hash of the kernels

`sha256.cuh`. The field `data` of a context that is only declared holds arbitrary bytes, and `sha256_init` leaves them.
The counter of `sha256_update` has 32 bits; pieces are shorter than `2 ^ 32` bytes.
-/

namespace DbcSnark.Gpuec

namespace Sha256

/-- `ctx->state`, and the variables `a` to `h` of a round. -/
@[ext] structure State where
  a : UInt32
  b : UInt32
  c : UInt32
  d : UInt32
  e : UInt32
  f : UInt32
  g : UInt32
  h : UInt32
deriving DecidableEq

/-- `ctx->state[i]`. -/
def State.word (S : State) : ℕ → UInt32
  | 0 => S.a
  | 1 => S.b
  | 2 => S.c
  | 3 => S.d
  | 4 => S.e
  | 5 => S.f
  | 6 => S.g
  | _ => S.h

/-- `ROTRIGHT`. -/
def rotright (a b : UInt32) : UInt32 := (a >>> b) ||| (a <<< (32 - b))

def ch (x y z : UInt32) : UInt32 := (x &&& y) ^^^ (~~~x &&& z)
def maj (x y z : UInt32) : UInt32 := (x &&& y) ^^^ (x &&& z) ^^^ (y &&& z)
def ep0 (x : UInt32) : UInt32 := rotright x 2 ^^^ rotright x 13 ^^^ rotright x 22
def ep1 (x : UInt32) : UInt32 := rotright x 6 ^^^ rotright x 11 ^^^ rotright x 25
def sig0 (x : UInt32) : UInt32 := rotright x 7 ^^^ rotright x 18 ^^^ (x >>> 3)
def sig1 (x : UInt32) : UInt32 := rotright x 17 ^^^ rotright x 19 ^^^ (x >>> 10)

def dev_k : List UInt32 := [
  0x428a2f98, 0x71374491, 0xb5c0fbcf, 0xe9b5dba5, 0x3956c25b, 0x59f111f1, 0x923f82a4, 0xab1c5ed5,
  0xd807aa98, 0x12835b01, 0x243185be, 0x550c7dc3, 0x72be5d74, 0x80deb1fe, 0x9bdc06a7, 0xc19bf174,
  0xe49b69c1, 0xefbe4786, 0x0fc19dc6, 0x240ca1cc, 0x2de92c6f, 0x4a7484aa, 0x5cb0a9dc, 0x76f988da,
  0x983e5152, 0xa831c66d, 0xb00327c8, 0xbf597fc7, 0xc6e00bf3, 0xd5a79147, 0x06ca6351, 0x14292967,
  0x27b70a85, 0x2e1b2138, 0x4d2c6dfc, 0x53380d13, 0x650a7354, 0x766a0abb, 0x81c2c92e, 0x92722c85,
  0xa2bfe8a1, 0xa81a664b, 0xc24b8b70, 0xc76c51a3, 0xd192e819, 0xd6990624, 0xf40e3585, 0x106aa070,
  0x19a4c116, 0x1e376c08, 0x2748774c, 0x34b0bcb5, 0x391c0cb3, 0x4ed8aa4a, 0x5b9cca4f, 0x682e6ff3,
  0x748f82ee, 0x78a5636f, 0x84c87814, 0x8cc70208, 0x90befffa, 0xa4506ceb, 0xbef9a3f7, 0xc67178f2]

/-- The array `m` of `sha256_transform`. -/
def schedule (data : ℕ → UInt8) : List UInt32 :=
  (List.range' 16 48).foldl
    (fun m i => m ++ [sig1 (m.getD (i - 2) 0) + m.getD (i - 7) 0 + sig0 (m.getD (i - 15) 0) + m.getD (i - 16) 0])
    ((List.range 16).map fun i => ((data (4 * i)).toUInt32 <<< 24) ||| ((data (4 * i + 1)).toUInt32 <<< 16) |||
      ((data (4 * i + 2)).toUInt32 <<< 8) ||| (data (4 * i + 3)).toUInt32)

/-- A round of `sha256_transform`, with its words of `dev_k` and `m`. -/
def round (S : State) (km : UInt32 × UInt32) : State :=
  let t1 := S.h + ep1 S.e + ch S.e S.f S.g + km.1 + km.2
  let t2 := ep0 S.a + maj S.a S.b S.c
  ⟨t1 + t2, S.a, S.b, S.c, S.d + t1, S.e, S.f, S.g⟩

/-- The state after `sha256_transform`. -/
def compress (S : State) (data : ℕ → UInt8) : State :=
  let T := (dev_k.zip (schedule data)).foldl round S
  ⟨S.a + T.a, S.b + T.b, S.c + T.c, S.d + T.d, S.e + T.e, S.f + T.f, S.g + T.g, S.h + T.h⟩

/-- The zeros that a loop or `memset` writes from `start` to `stop`. -/
def zeros (data : ℕ → UInt8) (start stop : ℕ) : ℕ → UInt8 := fun j => if start ≤ j ∧ j < stop then 0 else data j

end Sha256

open Sha256

structure MYSHA256_CTX where
  data : ℕ → UInt8
  datalen : UInt32
  bitlen : UInt64
  state : State

/-- `sha256_transform(ctx, ctx->data)`. -/
def sha256_transform (ctx : MYSHA256_CTX) : MYSHA256_CTX := { ctx with state := compress ctx.state ctx.data }

def sha256_init (ctx : MYSHA256_CTX) : MYSHA256_CTX :=
  { ctx with
    datalen := 0
    bitlen := 0
    state := ⟨0x6a09e667, 0xbb67ae85, 0x3c6ef372, 0xa54ff53a, 0x510e527f, 0x9b05688c, 0x1f83d9ab, 0x5be0cd19⟩ }

/-- The loop body of `sha256_update`. -/
def Sha256.putByte (ctx : MYSHA256_CTX) (b : UInt8) : MYSHA256_CTX :=
  let ctx := { ctx with data := Function.update ctx.data ctx.datalen.toNat b, datalen := ctx.datalen + 1 }
  if ctx.datalen = 64 then
    let ctx := sha256_transform ctx
    { ctx with bitlen := ctx.bitlen + 512, datalen := 0 }
  else ctx

def sha256_update (ctx : MYSHA256_CTX) (data : List UInt8) : MYSHA256_CTX := data.foldl putByte ctx

/-- The padding that `sha256_final` writes in front of the length. -/
def Sha256.pad (ctx : MYSHA256_CTX) : MYSHA256_CTX :=
  let i := ctx.datalen.toNat
  let data := Function.update ctx.data i 0x80
  if ctx.datalen < 56 then
    { ctx with data := zeros data (i + 1) 56 }
  else
    let ctx := sha256_transform { ctx with data := zeros data (i + 1) 64 }
    { ctx with data := zeros ctx.data 0 56 }

/-- The length that `sha256_final` writes behind the padding, and the last block. -/
def Sha256.finish (ctx : MYSHA256_CTX) : MYSHA256_CTX :=
  let bitlen := ctx.bitlen + (ctx.datalen * 8).toUInt64
  sha256_transform
    { ctx with
      bitlen := bitlen
      data := fun j => if 56 ≤ j ∧ j < 64 then (bitlen >>> UInt64.ofNat ((63 - j) * 8)).toUInt8 else ctx.data j }

/-- The bytes that `sha256_final` leaves in `hash`. -/
def sha256_final (ctx : MYSHA256_CTX) : Vector UInt8 32 :=
  let state := (finish (pad ctx)).state
  Vector.ofFn fun n : Fin 32 => (state.word (n / 4) >>> UInt32.ofNat (24 - n % 4 * 8) &&& 0xff).toUInt8

/-- The calls on a declared context. -/
def Sha256.device (ctx : MYSHA256_CTX) : StreamingHash MYSHA256_CTX UInt8 (Vector UInt8 32) :=
  ⟨sha256_init ctx, sha256_update, sha256_final⟩

/-- The digest of a message, for a context of zeros. -/
def sha256 (message : List UInt8) : Vector UInt8 32 :=
  (device ⟨fun _ => 0, 0, 0, ⟨0, 0, 0, 0, 0, 0, 0, 0⟩⟩).digest [message]

end DbcSnark.Gpuec
