import DbcSnark.Model.Ec.EcpSmpl
import Mathlib.Algebra.Field.ZMod
import Mathlib.Data.Nat.Size

/-! # Addition, doubling and comparison in `ecp_smpl.c`

The numbers stand for residues modulo the prime `p`, and all calls are taken to succeed. An operand may be the result.
-/

namespace DbcSnark.Ec

variable {p : ℕ} [Fact p.Prime]

private theorem mul_eq_neg_three {tmp_a : ZMod p} (R : (ZMod p)ˣ) (set : decide (tmp_a.val + 3 = p) = true) :
    tmp_a * R = -3 * R := by
  have cast : ((tmp_a.val + 3 : ℕ) : ZMod p) = 0 := by rw [of_decide_eq_true set, ZMod.natCast_self]
  rw [Nat.cast_add, ZMod.natCast_zmod_val] at cast
  rw [eq_neg_of_add_eq_zero_left (by exact_mod_cast cast : tmp_a + 3 = 0)]

/-- The parts of `EC_GROUP` that the point operations read. The modulus is odd and above three, and the flag is set
for one coefficient only. -/
structure SimpleGroup (p : ℕ) [Fact p.Prime] extends EC_GROUP (ZMod p) where
  b : ZMod p
  a_is_minus3 : Bool
  long : ¬ p.size ≤ 2
  odd : p % 2 = 1
  minus3 : a_is_minus3 = true → a = -3 * R

/-- `ossl_ec_GFp_simple_group_set_curve`, which refuses an even or a short modulus. -/
def ossl_ec_GFp_simple_group_set_curve (R : (ZMod p)ˣ) (a b : ℤ) : Option (SimpleGroup p) :=
  if refused : p.size ≤ 2 ∨ ¬ p % 2 = 1 then none
  else
    let tmp_a : ZMod p := a
    some {
      a := tmp_a * R
      R := R
      b := b * R
      a_is_minus3 := tmp_a.val + 3 = p
      long := (not_or.mp refused).1
      odd := not_not.mp (not_or.mp refused).2
      minus3 := mul_eq_neg_three R }

/-- `ossl_ec_GFp_simple_group_check_discriminant`. -/
def ossl_ec_GFp_simple_group_check_discriminant (group : SimpleGroup p) : Bool :=
  let a := group.a * ↑group.R⁻¹
  let b := group.b * ↑group.R⁻¹
  if a = 0 then if b = 0 then false else true
  else if b ≠ 0 then
    let tmp_1 := a * a
    let tmp_2 := tmp_1 * a
    let tmp_1 := 2 ^ 2 • tmp_2
    let tmp_2 := b * b
    let tmp_2 := 27 • tmp_2
    let a := tmp_1 + tmp_2
    if a = 0 then false else true
  else true

namespace Points

def setFlag {F : Type*} (m : Points F) (r : ℕ) (v : Bool) : Points F :=
  Function.update m r { m r with Z_is_one := v }

end Points

/-- `ossl_ec_GFp_simple_point_init`. -/
def ossl_ec_GFp_simple_point_init (m : Points (ZMod p)) (point : ℕ) : Points (ZMod p) :=
  Function.update m point ⟨0, 0, 0, false⟩

/-- `EC_POINT_copy`. -/
def EC_POINT_copy (m : Points (ZMod p)) (dest src : ℕ) : Points (ZMod p) :=
  Function.update m dest (m src)

/-- `ossl_ec_GFp_simple_invert`. -/
def ossl_ec_GFp_simple_invert (m : Points (ZMod p)) (point : ℕ) : Points (ZMod p) :=
  if (m point).Z = 0 ∨ (m point).Y = 0 then m
  else m.setY point ((p - (m point).Y.val : ℕ) : ZMod p)

/-- `EC_POINT_dbl(group, r, a, ctx)` by `ossl_ec_GFp_simple_dbl`. -/
def ossl_ec_GFp_simple_dbl (group : SimpleGroup p) (m : Points (ZMod p)) (r a : ℕ) : Points (ZMod p) :=
  if (m a).Z = 0 then
    let m := m.setZ r 0
    m.setFlag r false
  else
    let n1 :=
      if (m a).Z_is_one then
        let n0 := group.field_sqr (m a).X
        let n1 := BN_mod_lshift1_quick n0
        let n0 := n0 + n1
        n0 + group.a
      else if group.a_is_minus3 then
        let n1 := group.field_sqr (m a).Z
        let n0 := (m a).X + n1
        let n2 := (m a).X - n1
        let n1 := group.field_mul n0 n2
        let n0 := BN_mod_lshift1_quick n1
        n0 + n1
      else
        let n0 := group.field_sqr (m a).X
        let n1 := BN_mod_lshift1_quick n0
        let n0 := n0 + n1
        let n1 := group.field_sqr (m a).Z
        let n1 := group.field_sqr n1
        let n1 := group.field_mul n1 group.a
        n1 + n0
    let n0 := if (m a).Z_is_one then (m a).Y else group.field_mul (m a).Y (m a).Z
    let m := m.setZ r (BN_mod_lshift1_quick n0)
    let m := m.setFlag r false
    let n3 := group.field_sqr (m a).Y
    let n2 := group.field_mul (m a).X n3
    let n2 := BN_mod_lshift_quick n2 2
    let n0 := BN_mod_lshift1_quick n2
    let m := m.setX r (group.field_sqr n1)
    let m := m.setX r ((m r).X - n0)
    let n0 := group.field_sqr n3
    let n3 := BN_mod_lshift_quick n0 3
    let n0 := n2 - (m r).X
    let n0 := group.field_mul n1 n0
    m.setY r (n0 - n3)

/-- `EC_POINT_add(group, r, a, b, ctx)` by `ossl_ec_GFp_simple_add`. -/
def ossl_ec_GFp_simple_add (group : SimpleGroup p) (m : Points (ZMod p)) (r a b : ℕ) : Points (ZMod p) :=
  if a = b then ossl_ec_GFp_simple_dbl group m r a
  else if (m a).Z = 0 then EC_POINT_copy m r b
  else if (m b).Z = 0 then EC_POINT_copy m r a
  else
    let (n1, n2) :=
      if (m b).Z_is_one then ((m a).X, (m a).Y)
      else
        let n0 := group.field_sqr (m b).Z
        let n1 := group.field_mul (m a).X n0
        let n0 := group.field_mul n0 (m b).Z
        (n1, group.field_mul (m a).Y n0)
    let (n3, n4) :=
      if (m a).Z_is_one then ((m b).X, (m b).Y)
      else
        let n0 := group.field_sqr (m a).Z
        let n3 := group.field_mul (m b).X n0
        let n0 := group.field_mul n0 (m a).Z
        (n3, group.field_mul (m b).Y n0)
    let n5 := n1 - n3
    let n6 := n2 - n4
    if n5 = 0 then
      if n6 = 0 then ossl_ec_GFp_simple_dbl group m r a
      else
        let m := m.setZ r 0
        m.setFlag r false
    else
      let n1 := n1 + n3
      let n2 := n2 + n4
      let m :=
        if (m a).Z_is_one && (m b).Z_is_one then m.setZ r n5
        else
          let n0 :=
            if (m a).Z_is_one then (m b).Z
            else if (m b).Z_is_one then (m a).Z
            else group.field_mul (m a).Z (m b).Z
          m.setZ r (group.field_mul n0 n5)
      let m := m.setFlag r false
      let n0 := group.field_sqr n6
      let n4 := group.field_sqr n5
      let n3 := group.field_mul n1 n4
      let m := m.setX r (n0 - n3)
      let n0 := BN_mod_lshift1_quick (m r).X
      let n0 := n3 - n0
      let n0 := group.field_mul n0 n6
      let n5 := group.field_mul n4 n5
      let n1 := group.field_mul n2 n5
      let n0 := n0 - n1
      -- an odd number is made even by the modulus
      let n0 := if n0.val % 2 = 1 then n0.val + p else n0.val
      m.setY r ((n0 / 2 : ℕ) : ZMod p)

/-- `EC_POINT_is_on_curve` by `ossl_ec_GFp_simple_is_on_curve`. -/
def ossl_ec_GFp_simple_is_on_curve (group : SimpleGroup p) (point : EC_POINT (ZMod p)) : Bool :=
  if point.Z = 0 then true
  else
    let rh := group.field_sqr point.X
    let rh :=
      if !point.Z_is_one then
        let tmp := group.field_sqr point.Z
        let Z4 := group.field_sqr tmp
        let Z6 := group.field_mul Z4 tmp
        let rh :=
          if group.a_is_minus3 then
            let tmp := BN_mod_lshift1_quick Z4
            let tmp := tmp + Z4
            let rh := rh - tmp
            group.field_mul rh point.X
          else
            let tmp := group.field_mul Z4 group.a
            let rh := rh + tmp
            group.field_mul rh point.X
        let tmp := group.field_mul group.b Z6
        rh + tmp
      else
        let rh := rh + group.a
        let rh := group.field_mul rh point.X
        rh + group.b
    let tmp := group.field_sqr point.Y
    tmp = rh

/-- `EC_POINT_cmp` by `ossl_ec_GFp_simple_cmp`: zero for equal points and one for different ones. -/
def ossl_ec_GFp_simple_cmp (group : SimpleGroup p) (a b : EC_POINT (ZMod p)) : ℤ :=
  if a.Z = 0 then if b.Z = 0 then 0 else 1
  else if b.Z = 0 then 1
  else if a.Z_is_one && b.Z_is_one then if a.X = b.X ∧ a.Y = b.Y then 0 else 1
  else
    let Zb23 := group.field_sqr b.Z
    let tmp1 := if !b.Z_is_one then group.field_mul a.X Zb23 else a.X
    let Za23 := group.field_sqr a.Z
    let tmp2 := if !a.Z_is_one then group.field_mul b.X Za23 else b.X
    if tmp1 ≠ tmp2 then 1
    else
      let Zb23 := group.field_mul Zb23 b.Z
      let tmp1 := if !b.Z_is_one then group.field_mul a.Y Zb23 else a.Y
      let Za23 := group.field_mul Za23 a.Z
      let tmp2 := if !a.Z_is_one then group.field_mul b.Y Za23 else b.Y
      if tmp1 ≠ tmp2 then 1 else 0

end DbcSnark.Ec
