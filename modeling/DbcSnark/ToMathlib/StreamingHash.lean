import Mathlib.Data.List.Basic

/-! # Hashes that take their message in pieces

A context is initialised, updated with one piece after the other and finished. Such a hash computes a function of the
message when the digest depends on the concatenation of the pieces only, as it does for updates that take one symbol
at a time. Two hashes whose contexts stay related have equal digests.
-/

/-- The three calls of a hash. -/
structure StreamingHash (Context Symbol Digest : Type*) where
  init : Context
  update : Context → List Symbol → Context
  final : Context → Digest

namespace StreamingHash

variable {Context Context' Symbol Digest : Type*}

/-- The digest of a message in pieces. -/
def digest (H : StreamingHash Context Symbol Digest) (pieces : List (List Symbol)) : Digest :=
  H.final (pieces.foldl H.update H.init)

/-- The digest is `f` of the message, however it is cut. -/
def Computes (H : StreamingHash Context Symbol Digest) (f : List Symbol → Digest) : Prop :=
  ∀ pieces, H.digest pieces = f pieces.flatten

theorem Computes.digest_eq {H : StreamingHash Context Symbol Digest} {H' : StreamingHash Context' Symbol Digest}
    {f : List Symbol → Digest} (left : H.Computes f) (right : H'.Computes f) {pieces pieces' : List (List Symbol)}
    (same : pieces.flatten = pieces'.flatten) : H.digest pieces = H'.digest pieces' := by
  rw [left, right, same]

/-- An update symbol by symbol makes a function of the message. -/
theorem computes_of_foldl {H : StreamingHash Context Symbol Digest} {step : Context → Symbol → Context}
    (steps : ∀ c piece, H.update c piece = piece.foldl step c) :
    H.Computes fun message => H.final (message.foldl step H.init) := by
  intro pieces
  have folded (c : Context) : pieces.foldl H.update c = pieces.flatten.foldl step c := by
    induction pieces generalizing c with
    | nil => rfl
    | cons piece pieces ih => rw [List.foldl_cons, List.flatten_cons, List.foldl_append, ih, steps]
  rw [digest, folded]

/-- Contexts that stay related give one digest. -/
theorem digest_eq_of_related {H : StreamingHash Context Symbol Digest} {H' : StreamingHash Context' Symbol Digest}
    (R : Context → Context' → Prop) (start : R H.init H'.init)
    (step : ∀ c c' piece, R c c' → R (H.update c piece) (H'.update c' piece))
    (finish : ∀ c c', R c c' → H.final c = H'.final c') (pieces : List (List Symbol)) :
    H.digest pieces = H'.digest pieces := by
  have related : ∀ c c', R c c' → R (pieces.foldl H.update c) (pieces.foldl H'.update c') := by
    induction pieces with
    | nil => exact fun c c' holds => holds
    | cons piece pieces ih => exact fun c c' holds => ih _ _ (step c c' piece holds)
  exact finish _ _ (related _ _ start)

/-- The hash that keeps the message and applies `f` at the end. -/
def buffered (f : List Symbol → Digest) : StreamingHash (List Symbol) Symbol Digest := ⟨[], (· ++ ·), f⟩

theorem buffered_computes (f : List Symbol → Digest) : (buffered f).Computes f := by
  intro pieces
  have kept (message : List Symbol) : pieces.foldl (· ++ ·) message = message ++ pieces.flatten := by
    induction pieces generalizing message with
    | nil => exact (List.append_nil message).symm
    | cons piece pieces ih => rw [List.foldl_cons, ih, List.flatten_cons, List.append_assoc]
  exact congrArg f (kept [])

end StreamingHash
