import Mathlib.Algebra.Field.Basic
import Mathlib.Algebra.Ring.Nat
import Mathlib.Logic.Function.Basic

/-! # Tripling in `ecp_smpl.c`

The methods for curves over a prime field store a residue `x` as `x * R`, with `R = 1` in the plain and the NIST
methods and the radix in the Montgomery method. A product is divided by `R`; the quick functions on numbers below the
modulus add, subtract and shift residues. All calls are taken to succeed.
-/

namespace DbcSnark.Ec

/-- The parts of `EC_GROUP` that the tripling reads: the stored coefficient `a` and the representation. -/
structure EC_GROUP (F : Type*) [Field F] where
  a : F
  R : Fˣ

structure EC_POINT (F : Type*) where
  X : F
  Y : F
  Z : F
  Z_is_one : Bool

variable {F : Type*} [Field F] [DecidableEq F]

namespace EC_GROUP

variable (group : EC_GROUP F)

def field_mul (x y : F) : F := x * y * ↑group.R⁻¹

def field_sqr (x : F) : F := x * x * ↑group.R⁻¹

end EC_GROUP

def BN_mod_lshift_quick (x : F) (n : ℕ) : F := 2 ^ n • x

def BN_mod_lshift1_quick (x : F) : F := BN_mod_lshift_quick x 1

/-- Points by address. -/
abbrev Points (F : Type*) := ℕ → EC_POINT F

namespace Points

def setX (m : Points F) (r : ℕ) (v : F) : Points F := Function.update m r { m r with X := v }

def setY (m : Points F) (r : ℕ) (v : F) : Points F := Function.update m r { m r with Y := v }

def setZ (m : Points F) (r : ℕ) (v : F) : Points F := Function.update m r { m r with Z := v }

end Points

/-- `EC_POINT_tpl(group, r, a, ctx)` by `ossl_ec_GFp_simple_tpl`. The coordinates of `r` serve as `temp5`, `temp6` and
`temp7`; those of `a` are copied first when `a` is `r`. -/
def ossl_ec_GFp_simple_tpl (group : EC_GROUP F) (m : Points F) (r a : ℕ) : Points F :=
  if (m a).Z = 0 then
    let m := m.setZ r 0
    Function.update m r { m r with Z_is_one := false }
  else
    let copy := m a
    let temp_aX := fun m : Points F => if a = r then copy.X else (m a).X
    let temp_aY := fun m : Points F => if a = r then copy.Y else (m a).Y
    let temp_aZ := fun m : Points F => if a = r then copy.Z else (m a).Z
    let XX := group.field_sqr (temp_aX m)
    let YY := group.field_sqr (temp_aY m)
    let ZZ := group.field_sqr (temp_aZ m)
    let YYYY := group.field_sqr YY
    let temp1 := group.field_sqr ZZ
    let temp2 := group.field_mul group.a temp1
    let temp3 := BN_mod_lshift1_quick XX
    let temp4 := temp3 + XX
    let M := temp4 + temp2
    let MM := group.field_sqr M
    let temp1 := temp_aX m + YY
    let temp2 := group.field_sqr temp1
    let temp3 := temp2 - XX
    let temp4 := temp3 - YYYY
    let m := m.setZ r (BN_mod_lshift1_quick temp4)
    let m := m.setX r (BN_mod_lshift1_quick (m r).Z)
    let m := m.setY r ((m r).Z + (m r).X)
    let E := (m r).Y - MM
    let EE := group.field_sqr E
    let T := BN_mod_lshift_quick YYYY 4
    let temp1 := M + E
    let temp2 := group.field_sqr temp1
    let temp3 := temp2 - MM
    let temp4 := temp3 - EE
    let U := temp4 - T
    let temp1 := group.field_mul (temp_aX m) EE
    let temp2 := group.field_mul YY U
    let temp3 := BN_mod_lshift_quick temp2 2
    let temp4 := temp1 - temp3
    let m := m.setX r (BN_mod_lshift_quick temp4 2)
    let temp1 := group.field_mul E EE
    let temp2 := T - U
    let temp3 := group.field_mul U temp2
    let temp4 := temp3 - temp1
    let m := m.setZ r (group.field_mul (temp_aY m) temp4)
    let m := m.setY r (BN_mod_lshift_quick (m r).Z 3)
    let temp1 := temp_aZ m + E
    let temp2 := group.field_sqr temp1
    let temp3 := temp2 - ZZ
    m.setZ r (temp3 - EE)

end DbcSnark.Ec
