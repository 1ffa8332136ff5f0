import LightSync.Failure.Basic

/-!
# Actions

An `Action` works on a state and may fail; what it did before it failed stays done, so a part
that must not stay has to be undone by somebody. The failures that the library itself defines
(`Failure.isDomain`) leave a storage operation as they are; a failure of the layers below — the
row store, the file system, a refused number — is told with the operation that met it
(`Failure.duringStorage`).
-/

set_option autoImplicit false

namespace LightSync

namespace Failure

/-- The failures that the library defines, as opposed to those of the layers below. -/
def isDomain : Failure → Bool
  | .general _ => true
  | .corrupted _ => true
  | .undecodable _ _ => true
  | .storage _ _ => true
  | .brokenChain _ => true
  | .rewindRefused _ _ _ => true
  | .unrecoverable _ _ => true
  | .busy _ => true
  | _ => false

/-- A failure as it leaves a storage operation. The end of the process is not held up. -/
def duringStorage (operation : Operation) (f : Failure) : Failure :=
  match f with
  | .aborted _ => f
  | _ => if f.isDomain then f else .storage operation f

end Failure

/-- Runs a part of a storage operation. -/
def storageResult {α : Type} (operation : Operation) (result : Except Failure α) :
    Except Failure α :=
  match result with
  | .ok a => .ok a
  | .error f => .error (f.duringStorage operation)

/-- A computation on a state that may fail; what it did to the state before it failed stays. -/
abbrev Action (σ α : Type) := EStateM Failure σ α

namespace Action

/-- Runs an action and passes its failure through `f`. -/
def mapFailure {σ α : Type} (f : Failure → Failure) (act : Action σ α) : Action σ α := fun s =>
  match act s with
  | .ok a t => .ok a t
  | .error e t => .error (f e) t

/-- A storage operation: failures of the layers below are told with its name. -/
def storing {σ α : Type} (operation : Operation) (act : Action σ α) : Action σ α :=
  mapFailure (Failure.duringStorage operation) act

/-- Runs `cleanup` whatever becomes of the action, and then goes on as the action did. -/
def ensuring {σ α : Type} (act : Action σ α) (cleanup : σ → σ) : Action σ α := fun s =>
  match act s with
  | .ok a t => .ok a (cleanup t)
  | .error e t => .error e (cleanup t)

/-- A result that does not depend on the state. -/
def ofExcept {σ α : Type} (result : Except Failure α) : Action σ α := fun s =>
  match result with
  | .ok a => .ok a s
  | .error e => .error e s

/-- An action on one component of a state. -/
def within {σ ρ α : Type} (get : σ → ρ) (set : ρ → σ → σ) (act : Action ρ α) : Action σ α :=
  fun s =>
    match act (get s) with
    | .ok a r => .ok a (set r s)
    | .error e r => .error e (set r s)

end Action

end LightSync
