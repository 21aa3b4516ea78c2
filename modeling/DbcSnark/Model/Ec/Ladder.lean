import DbcSnark.Model.Ec.Affine

/-! # The ladder of `EC_POINT_mul`

With one point or the generator, `EC_POINT_mul` calls `ossl_ec_scalar_mul_ladder` of `ec_mult.c`, whose steps are in
`ecp_smpl.c`. The points `p` and `s` and the numbers it allocates are local. The blinding factors are drawn until they
are nonzero, and are parameters.
-/

namespace DbcSnark.Ec

variable {p : ℕ} [Fact p.Prime]

/-- A group with a generator and a known order. -/
structure CurveGroup (p : ℕ) [Fact p.Prime] extends SimpleGroup p where
  generator : EC_POINT (ZMod p)
  order : ℕ
  cofactor : ℕ
  known : order * cofactor ≠ 0

/-- The factors that `ossl_ec_GFp_simple_ladder_pre` draws. -/
structure Blinds (p : ℕ) where
  r : (ZMod p)ˣ
  s : (ZMod p)ˣ

/-! ## The steps -/

section Steps

variable (group : SimpleGroup p)

/-- `ossl_ec_GFp_simple_ladder_pre`: the points `r` and `s`. -/
def ossl_ec_GFp_simple_ladder_pre (blinds : Blinds p) (pt : EC_POINT (ZMod p)) :
    Option (EC_POINT (ZMod p) × EC_POINT (ZMod p)) :=
  if !pt.Z_is_one then none
  else
    let t3 := group.field_sqr pt.X
    let t4 := t3 - group.a
    let t4 := group.field_sqr t4
    let t5 := group.field_mul pt.X group.b
    let t5 := BN_mod_lshift_quick t5 3
    let r_X := t4 - t5
    let t1 := t3 + group.a
    let t2 := group.field_mul pt.X t1
    let t2 := group.b + t2
    let r_Z := BN_mod_lshift_quick t2 2
    let r_Y := group.field_encode blinds.r
    let s_Z := group.field_encode blinds.s
    let r_Z := group.field_mul r_Z r_Y
    let r_X := group.field_mul r_X r_Y
    let s_X := group.field_mul pt.X s_Z
    some (⟨r_X, r_Y, r_Z, false⟩, ⟨s_X, t5, s_Z, false⟩)

/-- `ossl_ec_GFp_simple_ladder_step`. -/
def ossl_ec_GFp_simple_ladder_step (r s pt : EC_POINT (ZMod p)) : EC_POINT (ZMod p) × EC_POINT (ZMod p) :=
  let t6 := group.field_mul r.X s.X
  let t0 := group.field_mul r.Z s.Z
  let t4 := group.field_mul r.X s.Z
  let t3 := group.field_mul r.Z s.X
  let t5 := group.field_mul group.a t0
  let t5 := t6 + t5
  let t6 := t3 + t4
  let t5 := group.field_mul t6 t5
  let t0 := group.field_sqr t0
  let t2 := BN_mod_lshift_quick group.b 2
  let t0 := group.field_mul t2 t0
  let t5 := BN_mod_lshift1_quick t5
  let t3 := t4 - t3
  let s_Z := group.field_sqr t3
  let t4 := group.field_mul s_Z pt.X
  let t0 := t0 + t5
  let s_X := t0 - t4
  let t4 := group.field_sqr r.X
  let t5 := group.field_sqr r.Z
  let t6 := group.field_mul t5 group.a
  let t1 := r.X + r.Z
  let t1 := group.field_sqr t1
  let t1 := t1 - t4
  let t1 := t1 - t5
  let t3 := t4 - t6
  let t3 := group.field_sqr t3
  let t0 := group.field_mul t5 t1
  let t0 := group.field_mul t2 t0
  let r_X := t3 - t0
  let t3 := t4 + t6
  let t4 := group.field_sqr t5
  let t4 := group.field_mul t4 t2
  let t1 := group.field_mul t1 t3
  let t1 := BN_mod_lshift1_quick t1
  let r_Z := t4 + t1
  ({ r with X := r_X, Z := r_Z }, { s with X := s_X, Z := s_Z })

/-- `ossl_ec_GFp_simple_ladder_post`: the point `r`. -/
def ossl_ec_GFp_simple_ladder_post (r s pt : EC_POINT (ZMod p)) : Option (EC_POINT (ZMod p)) :=
  if r.Z = 0 then some (EC_POINT_set_to_infinity r)
  else if s.Z = 0 then some (ossl_ec_GFp_simple_invert (fun _ => pt) 0 0)
  else do
    let t4 := BN_mod_lshift1_quick pt.Y
    let t6 := group.field_mul r.X t4
    let t6 := group.field_mul s.Z t6
    let t5 := group.field_mul r.Z t6
    let t1 := BN_mod_lshift1_quick group.b
    let t1 := group.field_mul s.Z t1
    let t3 := group.field_sqr r.Z
    let t2 := group.field_mul t3 t1
    let t6 := group.field_mul r.Z group.a
    let t1 := group.field_mul pt.X r.X
    let t1 := t1 + t6
    let t1 := group.field_mul s.Z t1
    let t0 := group.field_mul pt.X r.Z
    let t6 := r.X + t0
    let t6 := group.field_mul t6 t1
    let t6 := t6 + t2
    let t0 := t0 - r.X
    let t0 := group.field_sqr t0
    let t0 := group.field_mul t0 s.X
    let t0 := t6 - t0
    let t1 := group.field_mul s.Z t4
    let t1 := group.field_mul t3 t1
    let t1 := group.field_decode t1
    let t1 ← field_inv t1
    let t1 := group.field_encode t1
    return ⟨group.field_mul t5 t1, group.field_mul t0 t1, group.field_encode 1, true⟩

end Steps

/-! ## The ladder -/

/-- `EC_POINT_CSWAP`. -/
def EC_POINT_CSWAP (c : Bool) (st : EC_POINT (ZMod p) × EC_POINT (ZMod p)) : EC_POINT (ZMod p) × EC_POINT (ZMod p) :=
  if c then st.swap else st

/-- The scalar `k` of the loop, with the bit `cardinality_bits` set. -/
def fixedScalar (cardinality : ℕ) (scalar : ℤ) : ℕ :=
  let cardinality_bits := cardinality.size
  let k := if scalar.natAbs.size > cardinality_bits ∨ scalar < 0 then (scalar % cardinality).toNat else scalar.toNat
  let lambda := k + cardinality
  let k := lambda + cardinality
  if lambda.testBit cardinality_bits then lambda else k

/-- The body of the loop, on `r`, `s` and `pbit`. -/
def ladderTurn (group : SimpleGroup p) (k : ℕ) (pt : EC_POINT (ZMod p))
    (st : (EC_POINT (ZMod p) × EC_POINT (ZMod p)) × Bool) (i : ℕ) : (EC_POINT (ZMod p) × EC_POINT (ZMod p)) × Bool :=
  let kbit := k.testBit i ^^ st.2
  let (r, s) := EC_POINT_CSWAP kbit st.1
  (ossl_ec_GFp_simple_ladder_step group r s pt, st.2 ^^ kbit)

/-- The point that is copied to `p`, where `none` is a null pointer. -/
def operand (group : CurveGroup p) (m : Points (ZMod p)) : Option ℕ → EC_POINT (ZMod p)
  | none => group.generator
  | some point => m point

/-- `ossl_ec_scalar_mul_ladder(group, r, scalar, point, ctx)`. -/
def ossl_ec_scalar_mul_ladder (group : CurveGroup p) (blinds : Blinds p) (m : Points (ZMod p)) (r : ℕ) (scalar : ℤ)
    (point : Option ℕ) : Option (Points (ZMod p)) :=
  if point.any fun point => (m point).Z = 0 then some (Function.update m r (EC_POINT_set_to_infinity (m r)))
  else do
    let pt := operand group m point
    let cardinality := group.order * group.cofactor
    let cardinality_bits := cardinality.size
    let k := fixedScalar cardinality scalar
    let pt ← (if !pt.Z_is_one then ossl_ec_GFp_simple_make_affine group.toSimpleGroup pt else some pt)
    let st ← ossl_ec_GFp_simple_ladder_pre group.toSimpleGroup blinds pt
    let st := (List.range cardinality_bits).reverse.foldl (ladderTurn group.toSimpleGroup k pt) (st, true)
    let (r', s) := EC_POINT_CSWAP st.2 st.1
    let r' ← ossl_ec_GFp_simple_ladder_post group.toSimpleGroup r' s pt
    return Function.update m r r'

/-- `EC_POINT_mul` with one scalar: of the point at the address, or of the generator. The scalar is not the stored order
itself. -/
def EC_POINT_mul (group : CurveGroup p) (blinds : Blinds p) (m : Points (ZMod p)) (r : ℕ) (scalar : ℤ)
    (point : Option ℕ) : Option (Points (ZMod p)) :=
  ossl_ec_scalar_mul_ladder group blinds m r scalar point

end DbcSnark.Ec
