import LightSync.Chain.Links
import LightSync.Sync.State

/-!
# Scanning the cache

Takes the blocks of the cache above the wallet's tip one by one. Each must stand one above the
last and name it as its parent; what it holds for the wallet is recorded before the next is
looked at. A failure leaves the wallet at the last recorded block.
-/

set_option autoImplicit false

namespace LightSync

/-- How far a scan has come; the numbers are totals since it began. -/
structure ScanProgress where
  height : Number
  blocksScanned : Nat
  notesReceived : Nat
  notesSpent : Nat
  deriving DecidableEq, Repr

/-- What a caller does while a scan runs: it may ask to stop between blocks, and is told about
every recorded block. -/
structure ScanHooks (τ : Type) where
  stops : τ → Bool
  progress : ScanProgress → Action (SyncState τ) Unit

/-- A caller that only waits. -/
def ScanHooks.none {τ : Type} : ScanHooks τ := ⟨fun _ => false, fun _ => return ()⟩

/-- How a scan is to be made; an empty wallet begins at `activation`. -/
structure ScanSetup (τ : Type) where
  reader : NoteReader
  activation : Number
  limit : Option Number
  verbose : Bool
  hooks : ScanHooks τ

namespace Scan

variable {τ : Type}

/-- Where a scan stands: the last block, the number of commitments up to it, and the report. -/
structure Point where
  height : Number
  hash : Option Bytes
  treeSize : Number
  summary : ScanSummary
  deriving DecidableEq, Repr

def emptySummary : ScanSummary := ⟨0, none, none, 0, 0, false⟩

/-- Where a scan of the wallet begins. -/
def startOf (activation : Number) (w : Wallet) : Point :=
  match w.tip? with
  | some tip => ⟨.int tip.height, some tip.hash, tip.treeSize, emptySummary⟩
  | none => ⟨activation - 1, none, 0, emptySummary⟩

/-- Whether a block may follow. -/
def checkNext (p : Point) (b : Block) : Except Failure Unit :=
  let expected := p.height + 1
  if b.height.same expected then Links.checkParent p.hash b
  else .error (.brokenChain (.discontinuity expected b.height))

/-- What a block that may follow holds for the wallet. -/
def inspect (reader : NoteReader) (keys : List AccountKey) (w : Wallet) (p : Point) (b : Block) :
    Except Failure ScannedBlock :=
  match checkNext p b with
  | .error e => .error e
  | .ok () => block (fun nf => (w.unspentNote? nf).isSome) reader keys p.treeSize b

/-- The report with one more block. -/
def withBlock (s : ScanSummary) (b : ScannedBlock) : ScanSummary :=
  { s with
    blocksScanned := s.blocksScanned + 1
    firstHeight := s.firstHeight.or (some b.height)
    lastHeight := some b.height
    notesReceived := s.notesReceived + b.notes.length
    notesSpent := s.notesSpent + b.spends.length }

/-- Where a scan stands after a block. -/
def Point.advance (p : Point) (b : ScannedBlock) : Point :=
  ⟨b.height, some b.hash, b.treeSize, withBlock p.summary b⟩

def scope (setup : ScanSetup τ) : Console.Scope := ⟨"Scanner", setup.verbose⟩

/-- Tells about a block that concerns the wallet. -/
def announce (setup : ScanSetup τ) (b : ScannedBlock) : Action (SyncState τ) Unit :=
  if b.notes.isEmpty && b.spends.isEmpty then return ()
  else
    let shown := displayBlock b.height b.hash
    SyncState.write (scope setup) .debug s!"Block {shown}"
      (some (.found b.notes.length b.spends.length))

/-- Scans one block and records it. -/
def step (setup : ScanSetup τ) (keys : List AccountKey) (p : Point) (b : Block) :
    Action (SyncState τ) Point := do
  let scanned ← SyncState.onWallet (Database.query fun w => inspect setup.reader keys w p b)
  SyncState.onWallet (WalletStore.commitBlock scanned)
  announce setup scanned
  let next := p.advance scanned
  setup.hooks.progress {
    height := scanned.height, blocksScanned := next.summary.blocksScanned,
    notesReceived := next.summary.notesReceived, notesSpent := next.summary.notesSpent }
  return next

/-- Scans blocks in order until the caller asks to stop; `stop` is met when it does not. -/
def steps (setup : ScanSetup τ) (keys : List AccountKey) (stop : Option Failure) :
    Point → List Block → Action (SyncState τ) ScanSummary
  | p, [] =>
      match stop with
      | some e => throw e
      | none => return p.summary
  | p, b :: rest => do
      -- asked between blocks only, and not when there is no further one
      if setup.hooks.stops (← get).host then return { p.summary with aborted := true }
      let p ← step setup keys p b
      steps setup keys stop p rest

/-- Scans the blocks of the cache above the wallet's tip. -/
def run (setup : ScanSetup τ) : Action (SyncState τ) ScanSummary := do
  let w := (← get).wallet.content
  let p := startOf setup.activation w
  SyncState.traverse (some p.height) setup.limit fun walk =>
    steps setup w.accountKeys walk.stop p walk.items

end Scan

end LightSync
