import LightSync.Chain.Links
import LightSync.Note.Cipher
import LightSync.Policy
import LightSync.Scan.Run
import LightSync.Wallet.Rewind

/-!
# The synchronizer

Keeps a wallet in step with a cache: checks the cache against the wallet, scans it, or recovers
from what is wrong with it. One operation is at work at a time; another that is started meanwhile
is refused.

After a fork the wallet is rewound and the cache cut to the same height, so that the blocks above
it have to be fetched again. A missing height is reported and changes nothing.
-/

set_option autoImplicit false

namespace LightSync

/-- How a wallet is kept in step. -/
structure Synchronizer where
  policy : Policy
  reader : NoteReader

/-- What came of an attempt to get in step. -/
inductive SyncOutcome where
  | scanned (summary : ScanSummary)
  | reorganized (lowerBound refetchFrom : Number) (report : RewindReport)
  | gap (expected found : Number)
  deriving DecidableEq, Repr

namespace Synchronizer

variable {τ α : Type}

/-- A synchronizer for a requested policy. -/
def ofRequest (request : PolicyRequest) (reader : NoteReader) : Except Failure Synchronizer :=
  match request.resolve with
  | .ok policy => .ok ⟨policy, reader⟩
  | .error e => .error e

def scope (s : Synchronizer) : Console.Scope := ⟨"WalletSynchronizer", s.policy.verbose⟩

/-- Whether an operation is at work. -/
def isBusy (st : SyncState τ) : Bool := st.active.isSome

/-- Runs an operation unless another is at work. -/
def exclusive (operation : String) (act : Action (SyncState τ) α) : Action (SyncState τ) α :=
  fun st =>
    match st.active with
    | some _ => .error (.busy operation) st
    | none =>
        Action.ensuring act (fun st => { st with active := none })
          { st with active := some operation }

/-! ## Parts -/

/-- Checks the cache against a tip. -/
def checkLinks (tip : Option ChainTip) : Action (SyncState τ) LinkReport :=
  SyncState.traverse (tip.map (·.height)) none fun walk => Action.ofExcept (Links.check tip walk)

/-- Checks the cache against the wallet's tip. -/
def validate : Action (SyncState τ) LinkReport := do
  let w := (← get).wallet.content
  checkLinks w.chainTip?

def scanNow (s : Synchronizer) (limit : Option Number) (hooks : ScanHooks τ) :
    Action (SyncState τ) ScanSummary := do
  let summary ← Scan.run {
    reader := s.reader, activation := s.policy.activation, limit,
    verbose := s.policy.verbose, hooks }
  SyncState.write s.scope .debug "Scan finished" (some (.finished summary))
  return summary

/-- A height for a message. -/
def heightText : Option Number → String
  | some height => height.text
  | none => "null"

/-- The message about a rewind. -/
def rewindText (report : RewindReport) : String :=
  let previous := heightText report.previous
  let height := heightText report.height
  let removed := report.notesRemoved
  let reversed := report.spendsReversed
  s!"Rewound wallet from {previous} to {height}: {removed} note(s) removed, {reversed} spend(s) reversed"

def rewindNow (s : Synchronizer) (target : Number) : Action (SyncState τ) RewindReport := do
  let report ← SyncState.onWallet
    (WalletStore.rewind target s.policy.pruningDepth s.policy.stableCheckpoint.value?)
  if report.rewound then SyncState.write s.scope .info (rewindText report) none
  return report

/-- Where a fork found at a height is rewound to. -/
def forkTarget (s : Synchronizer) (height : Number) : Number := height - s.policy.reorgRewindDepth

/-- Recovers from a broken chain. -/
def recover (s : Synchronizer) : Breach → Action (SyncState τ) SyncOutcome
  | .discontinuity expected found => do
      SyncState.write s.scope .warn
        s!"Cache is missing block {expected} (next cached block is {found})" none
      return .gap expected found
  | .parentMismatch height => do
      let target := s.forkTarget height
      SyncState.write s.scope .warn
        s!"Chain fork detected at height {height}, rewinding to {target}" none
      let report ← s.rewindNow target
      SyncState.onCache (Cache.truncate target)
      return .reorganized height (target + 1) report

/-- Checks the cache and scans it. -/
def checkAndScan (s : Synchronizer) (hooks : ScanHooks τ) : Action (SyncState τ) SyncOutcome := do
  let _ ← validate
  let summary ← s.scanNow s.policy.scanLimit hooks
  return .scanned summary

/-- Recovers where an action finds a broken chain. -/
def recovering (s : Synchronizer) (act : Action (SyncState τ) SyncOutcome) :
    Action (SyncState τ) SyncOutcome := fun st =>
  match act st with
  | .error (.brokenChain breach) st => s.recover breach st
  | result => result

/-! ## Operations -/

/-- Scans the blocks above the wallet's tip, as many as asked for or as the policy allows. -/
def scan (s : Synchronizer) (limit : Option Number) (hooks : ScanHooks τ) :
    Action (SyncState τ) ScanSummary :=
  exclusive "scan" (s.scanNow (limit.or s.policy.scanLimit) hooks)

/-- Rewinds the wallet to a height. -/
def rewind (s : Synchronizer) (height : Number) : Action (SyncState τ) RewindReport :=
  exclusive "rewind" (s.rewindNow height)

/-- Gets the wallet in step with the cache, or recovers from what stands in the way. -/
def sync (s : Synchronizer) (hooks : ScanHooks τ) : Action (SyncState τ) SyncOutcome :=
  exclusive "sync" (s.recovering (s.checkAndScan hooks))

end Synchronizer

end LightSync
