import LightSync.Cache.Basic
import LightSync.Wallet.Store

/-!
# The state of a synchronization

The cache, the wallet, the operation in progress if any, and the lines written so far. `host` is
the state of the caller, which its callbacks work on.
-/

set_option autoImplicit false

namespace LightSync

/-- What a scan did; the heights are those of the first and the last scanned block. -/
structure ScanSummary where
  blocksScanned : Nat
  firstHeight : Option Number
  lastHeight : Option Number
  notesReceived : Nat
  notesSpent : Nat
  aborted : Bool
  deriving DecidableEq, Repr

/-- The details of a line. -/
inductive Detail where
  | found (received spent : Nat)
  | finished (summary : ScanSummary)
  deriving DecidableEq, Repr

/-- A synchronization at work. -/
structure SyncState (τ : Type) where
  cache : Cache
  wallet : WalletStore
  active : Option String
  console : List (Console.Line Detail)
  host : τ

namespace SyncState

variable {τ α : Type}

/-- An action on the wallet. -/
def onWallet (act : Action WalletStore α) : Action (SyncState τ) α :=
  Action.within (·.wallet) (fun wallet s => { s with wallet }) act

/-- An action on the caller's state. -/
def onHost (act : Action τ α) : Action (SyncState τ) α :=
  Action.within (·.host) (fun host s => { s with host }) act

/-- Writes a message to the console. -/
def write (scope : Console.Scope) (level : Console.Level) (message : String)
    (details : Option Detail) : Action (SyncState τ) Unit :=
  modify fun s => { s with console := s.console ++ scope.write level message details }

/-- The lines with which the process ends because of a failure, if it does. -/
def lastWords : Failure → List (Console.Line Detail)
  | .aborted cause => FileCache.lastWords cause
  | _ => []

/-- An action on the cache. -/
def onCache (act : Action Cache α) : Action (SyncState τ) α := fun s =>
  match act s.cache with
  | .ok a cache => .ok a { s with cache }
  | .error e cache => .error e { s with cache, console := s.console ++ lastWords e }

/-- Runs an action on the blocks of the cache above a height. -/
def traverse (last limit : Option Number) (act : Walk Block → Action (SyncState τ) α) :
    Action (SyncState τ) α :=
  Cache.traverse (·.cache) (fun cache s => { s with cache }) last limit act

end SyncState

end LightSync
