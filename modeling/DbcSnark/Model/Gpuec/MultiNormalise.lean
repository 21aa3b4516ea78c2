import DbcSnark.Model.Gpuec.MultiInverse

/-! # Normalising an array of points

The kernel `d_multi_normlize_J`, with its lanes one after the other in a given order. A lane copies eight words from `z`
of each point on, of which the point has four, and stores the one of the field of 512 bits over eight words again. The
arrays `z` and `tmp` are local.
-/

namespace DbcSnark.Gpuec

/-- The indices of `for(i=start;i<n;i+=step)`, for so many rounds at most. -/
def strided (n step : ℕ) : ℕ → ℕ → List ℕ
  | 0, _ => []
  | fuel + 1, i => if i < n then i :: strided n step fuel (i + step) else []

namespace Ram

/-- The body of the second loop over `j`, for the inverses `z`. The assignments to `z[0]`, ..., `z[7]` are those of
`gpuec.cu`. -/
def normaliseOne (A i : ℕ) (z m : Ram) (j : ℕ) : Ram :=
  let pt := A + 12 * (i + j)
  let tmp := Gpuec.dh_mybig_monmult_64 (z.big (j * 8)) (z.big (j * 8))
  let m := m.putBig pt (Gpuec.dh_mybig_monmult_64 (m.big pt) tmp)
  let tmp := Gpuec.dh_mybig_monmult_64 tmp (z.big (j * 8))
  let m := m.putBig (pt + 4) (Gpuec.dh_mybig_monmult_64 (m.big (pt + 4)) tmp)
  let m := m.putWords (pt + 8) Wide.mon_ONE
  m.d_mon2normal_J pt

/-- The body of the loop over `i`. -/
def normaliseGroup (A : ℕ) (m : Ram) (i : ℕ) : Option Ram := do
  let z : Ram := fun a => m (A + 12 * (i + a / 8) + 8 + a % 8)
  let z ← d_multi_inverse z 0
  return (List.range PARAL).foldl (normaliseOne A i z) m

/-- The lane `mytid` of `threadnum`. -/
def normaliseLane (threadnum A n : ℕ) (m : Ram) (mytid : ℕ) : Option Ram :=
  (strided n (threadnum * PARAL) n (mytid * PARAL)).foldlM (normaliseGroup A) m

/-- `d_multi_normlize_J(A, n)`. -/
def d_multi_normlize_J (threadnum : ℕ) (lanes : List ℕ) (m : Ram) (A n : ℕ) : Option Ram :=
  lanes.foldlM (normaliseLane threadnum A n) m

end Ram

end DbcSnark.Gpuec
