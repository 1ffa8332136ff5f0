import LightSync.Action

/-!
# Walks

A walk over stored things takes them one by one until there are no more or one of them cannot
be had: it is the list of the things, and the failure that ends it, if any. Nothing behind the
failure is seen.
-/

set_option autoImplicit false

namespace LightSync

/-- Things in order, and why there are no more. -/
structure Walk (α : Type) where
  items : List α
  stop : Option Failure
  deriving DecidableEq, Repr

namespace Walk

variable {α β σ : Type}

/-- The walk that fails at once. -/
def failed (f : Failure) : Walk α := ⟨[], some f⟩

/-- One thing before the walk. -/
def cons (a : α) (w : Walk α) : Walk α := ⟨a :: w.items, w.stop⟩

/-- Turns each thing of a list into another as long as that succeeds; `stop` is met when all
of them did. -/
def attempt (f : α → Except Failure β) (stop : Option Failure) : List α → Walk β
  | [] => ⟨[], stop⟩
  | a :: rest =>
      match f a with
      | .ok b => cons b (attempt f stop rest)
      | .error e => failed e

/-- Turns each thing of a walk into another as long as that succeeds. -/
def andThen (w : Walk α) (f : α → Except Failure β) : Walk β := attempt f w.stop w.items

/-- The walk with its failure passed through `f`. -/
def mapFailure (f : Failure → Failure) (w : Walk α) : Walk α := ⟨w.items, w.stop.map f⟩

/-- The first `n` things; who takes no more meets no failure. -/
def take (n : Nat) (w : Walk α) : Walk α :=
  if n ≤ w.items.length then ⟨w.items.take n, none⟩ else w

/-- Visits things in order; the failure of a visit ends the walk. -/
def visitAll (visit : α → Action σ Unit) : List α → Action σ Unit
  | [] => return ()
  | a :: rest => do
      visit a
      visitAll visit rest

/-- Visits the things of a walk in order, and then fails as the walk does. -/
def forEach (visit : α → Action σ Unit) (w : Walk α) : Action σ Unit := do
  visitAll visit w.items
  match w.stop with
  | some e => throw e
  | none => return ()

end Walk

end LightSync
