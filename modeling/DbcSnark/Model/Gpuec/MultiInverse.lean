import DbcSnark.Model.Gpuec.Normalise

/-! # Inverting many numbers at once

`d_multi_inverse` of `gpuec256.cu` and of `gpuec.cu` are the same lines. Both keep a number in every eighth word, of which
the first four or all eight belong to it. The arrays `invlj` and `lmd` are local.
-/

namespace DbcSnark.Gpuec

/-- `PARAL`. -/
def PARAL : ℕ := 64

/-- The numbers of a build with the operations that the lines use. -/
structure Arithmetic (W : Type) where
  /-- The source of `dh_mybig_copy`. -/
  read : Ram → ℕ → W
  /-- The target of `dh_mybig_copy`. -/
  write : Ram → ℕ → W → Ram
  monmult : W → W → W
  moninv : W → Option W
  dc_ONE : W

namespace Arithmetic

variable {W : Type} (F : Arithmetic W)

/-- The first loop over the indices below `n`. The entries above zero are written before they are read. -/
def prefixes (m : Ram) (x n : ℕ) : ℕ → W :=
  (List.range (n - 1)).foldl (fun invlj j =>
    Function.update invlj (j + 1) (F.monmult (invlj j) (F.read m (x + (j + 1) * 8)))) fun _ => F.read m x

/-- The variables of the second loop. -/
structure Walk (W : Type) where
  ram : Ram
  invlj : ℕ → W
  lmd : W

/-- The body of the second loop. -/
def back (x : ℕ) (s : Walk W) (i : ℕ) : Walk W :=
  let invlj := Function.update s.invlj i (F.monmult (s.invlj (i - 1)) s.lmd)
  let lmd := F.monmult (F.read s.ram (x + i * 8)) s.lmd
  ⟨F.write s.ram (x + i * 8) (invlj i), invlj, lmd⟩

/-- The second loop over the indices `n, ..., 1`. -/
def walk (x n : ℕ) (s : Walk W) : Walk W := (List.range n).reverse.foldl (fun s j => F.back x s (j + 1)) s

/-- `d_multi_inverse(x)`, for `n` numbers. -/
def multi_inverse (n : ℕ) (m : Ram) (x : ℕ) : Option Ram := do
  let invlj := F.prefixes m x n
  let lmd ← F.moninv (F.monmult (invlj (n - 1)) F.dc_ONE)
  let s := F.walk x (n - 1) ⟨m, invlj, lmd⟩
  return F.write s.ram x s.lmd

end Arithmetic

/-- The numbers of `gpuec256.cu`. -/
def narrow : Arithmetic Big := ⟨Ram.big, Ram.putBig, dh_mybig_monmult_64, dh_mybig_moninv, dc_ONE⟩

/-- The numbers of `gpuec.cu`. -/
def wide : Arithmetic (List UInt64) where
  read m a := m.words a 8
  write := Ram.putWords
  monmult := Wide.quotientWords Wide.Pa 1
  moninv := Wide.dh_mybig_moninv
  dc_ONE := [1, 0, 0, 0, 0, 0, 0, 0]

namespace Ram

/-- The function of `gpuec256.cu`. -/
def d_multi_inverse := narrow.multi_inverse PARAL

/-- The function of `gpuec.cu`. -/
def d_multi_inverse_wide := wide.multi_inverse PARAL

end Ram

end DbcSnark.Gpuec
