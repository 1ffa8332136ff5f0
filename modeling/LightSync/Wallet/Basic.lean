import LightSync.Scan.Block
import LightSync.Store.Sum

/-!
# Wallets

A wallet holds the viewing keys of its accounts, a checkpoint for every scanned block, and the
notes it received. This file has its tables, the questions that can be asked of them, and the
single changes from which recording a block and rewinding are made.
-/

set_option autoImplicit false

namespace LightSync

/-- A block, named by height and hash. -/
structure ChainTip where
  height : Number
  hash : Bytes
  deriving DecidableEq, Repr

/-- What is kept of a scanned block; `treeSize` counts the commitments up to its end. -/
structure Checkpoint where
  hash : Bytes
  time : Number
  treeSize : Number
  deriving DecidableEq, Repr

/-- The checkpoint of the highest scanned block. -/
structure WalletTip extends Checkpoint where
  height : Int
  deriving DecidableEq, Repr

/-- By which transaction a note was spent, and at which height. -/
structure Spending where
  height : Int
  txid : Bytes
  deriving DecidableEq, Repr

/-- A received note. -/
structure WalletNote where
  id : Int
  account : Int
  value : Number
  memo : Option Bytes
  position : Number
  height : Int
  txid : Bytes
  txIndex : Number
  outputIndex : Number
  commitment : Bytes
  nullifier : Bytes
  spent : Option Spending
  deriving DecidableEq, Repr

/-- The tables of a wallet: viewing keys by account, checkpoints by height, and notes in the
order in which they were added. -/
structure Wallet where
  accounts : Keyed Bytes
  checkpoints : Keyed Checkpoint
  notes : List WalletNote
  deriving DecidableEq, Repr

namespace Wallet

def empty : Wallet := ⟨Keyed.empty, Keyed.empty, []⟩

/-! ## Questions -/

/-- The accounts with their viewing keys, by account. -/
def accountKeys (w : Wallet) : List AccountKey :=
  w.accounts.entries.map fun e => ⟨.int e.1, e.2⟩

def tip? (w : Wallet) : Option WalletTip :=
  w.checkpoints.last?.map fun e => { e.2 with height := e.1 }

/-- Height and hash of the highest scanned block. -/
def chainTip? (w : Wallet) : Option ChainTip := w.tip?.map fun t => ⟨.int t.height, t.hash⟩

def isEmpty (w : Wallet) : Bool := w.tip?.isNone

/-- The hash of the scanned block at a height. -/
def blockHash? (w : Wallet) (height : Number) : Option Bytes :=
  (height.toInt?.bind w.checkpoints.find?).map (·.hash)

def isUnspent (n : WalletNote) : Bool := n.spent.isNone

/-- The unspent note that a nullifier belongs to. -/
def unspentNote? (w : Wallet) (nullifier : Bytes) : Option WalletNote :=
  w.notes.find? fun n => n.nullifier = nullifier && isUnspent n

/-- The notes of an account, or of all, in the order of their positions. -/
def notesOf (w : Wallet) (account : Option Number) : List WalletNote :=
  let chosen := match account with
    | none => w.notes
    | some a => w.notes.filter fun n => a.same (.int n.account)
  chosen.mergeSort fun a b => decide (a.position ≤ b.position)

/-- The sum of the unspent notes of an account that satisfy a condition. -/
def sumUnspent (w : Wallet) (account : Number) (p : WalletNote → Bool) :
    Except StoreFault Number :=
  columnSum ((w.notes.filter fun n => account.same (.int n.account) && isUnspent n && p n).map
    (·.value))

/-- The sum of the unspent notes of an account. -/
def balance (w : Wallet) (account : Number) : Except StoreFault Number :=
  w.sumUnspent account fun _ => true

/-- The sum of the unspent notes of an account that were received up to a height. -/
def balanceAt (w : Wallet) (account anchor : Number) : Except StoreFault Number :=
  w.sumUnspent account fun n => decide (Number.int n.height ≤ anchor)

/-- The lowest height at which an unspent note was received. -/
def lowestUnspent? (w : Wallet) : Option Int :=
  ((w.notes.filter isUnspent).map (·.height)).min?

/-! ## Changes -/

/-- Adds an account. Neither the account nor the viewing key may be there. -/
def addAccount (account : Number) (viewingKey : Bytes) (w : Wallet) : Except StoreFault Wallet := do
  let key ← account.rowKey
  let key := key.getD w.accounts.nextKey
  if w.accounts.contains key then throw (.unique "accounts.account")
  if w.accounts.entries.any (·.2 == viewingKey) then throw (.unique "accounts.viewing_key")
  return { w with accounts := w.accounts.insert key viewingKey }

/-- Adds the checkpoint of a block. -/
def addCheckpoint (b : ScannedBlock) (w : Wallet) : Except StoreFault Wallet := do
  let key ← b.height.rowKey
  let time ← storedIn "blocks.time" b.time
  let treeSize ← storedIn "blocks.tree_size" b.treeSize
  let key := key.getD w.checkpoints.nextKey
  if w.checkpoints.contains key then throw (.unique "blocks.height")
  return { w with checkpoints := w.checkpoints.insert key { hash := b.hash, time, treeSize } }

/-- The identifier of the next note: one above the greatest. -/
def nextNoteId (w : Wallet) : Int := (w.notes.map (·.id)).foldl max 0 + 1

/-- Adds a note received at a height. Its nullifier and its position must be new, and its account
known. -/
def addNote (height : Option Int) (n : FoundNote) (w : Wallet) : Except StoreFault Wallet := do
  let account ← storedIn "received_notes.account" n.account
  let value ← storedIn "received_notes.value" n.value
  let position ← storedIn "received_notes.position" n.position
  let height ← match height with
    | some h => pure h
    | none => throw (.notNull "received_notes.height")
  let txIndex ← storedIn "received_notes.tx_index" n.txIndex
  let outputIndex ← storedIn "received_notes.output_index" n.outputIndex
  -- a number that is missing is found out before one that is there already
  if w.notes.any (·.nullifier == n.nullifier) then throw (.unique "received_notes.nf")
  if w.notes.any (·.position == position) then throw (.unique "received_notes.position")
  let owner ← match account.toInt?.filter w.accounts.contains with
    | some a => pure a
    | none => throw .foreignKey
  let note : WalletNote := {
    id := w.nextNoteId, account := owner, value, memo := n.memo, position, height,
    txid := n.txid, txIndex, outputIndex, commitment := n.commitment, nullifier := n.nullifier,
    spent := none }
  return { w with notes := w.notes ++ [note] }

/-- Whether a note is the unspent one that a nullifier belongs to. -/
def isSpentBy (nullifier : Bytes) (n : WalletNote) : Bool := n.nullifier = nullifier && isUnspent n

/-- Marks the unspent note of a spend as spent, and tells how many notes that were. -/
def markSpent (height : Option Int) (s : FoundSpend) (w : Wallet) : Wallet × Nat :=
  match height with
  | none => (w, 0)
  | some h =>
      ({ w with notes := w.notes.map fun n =>
          if isSpentBy s.nullifier n then { n with spent := some ⟨h, s.txid⟩ } else n },
        (w.notes.filter (isSpentBy s.nullifier)).length)

/-- Whether a note from a height or below was spent above it. -/
def isSpentAbove (height : Number) (n : WalletNote) : Bool :=
  match n.spent with
  | some s => decide (height < Number.int s.height) && decide (Number.int n.height ≤ height)
  | none => false

/-- Takes back the spends above a height of notes that stay, and tells how many they were. -/
def reverseSpends (height : Number) (w : Wallet) : Wallet × Nat :=
  ({ w with notes := w.notes.map fun n =>
      if isSpentAbove height n then { n with spent := none } else n },
    (w.notes.filter (isSpentAbove height)).length)

/-- Drops the notes received above a height, and tells how many they were. -/
def dropNotes (height : Number) (w : Wallet) : Wallet × Nat :=
  let isAbove := fun n : WalletNote => decide (height < Number.int n.height)
  ({ w with notes := w.notes.filter fun n => !isAbove n }, (w.notes.filter isAbove).length)

/-- Drops the checkpoints above a height. -/
def dropCheckpoints (height : Number) (w : Wallet) : Wallet :=
  { w with checkpoints := w.checkpoints.filter fun k => !decide (height < Number.int k) }

end Wallet

end LightSync
