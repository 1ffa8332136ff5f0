import LightSync.Block.Identity
import LightSync.Note.Basic

/-!
# Scanning one block

Goes through the transactions of a block in order and collects what concerns the wallet. Every
Sapling output takes the next position, whether or not it belongs to the wallet. A revealed
nullifier is a spend when it belongs to a note that the wallet holds unspent or to one found
earlier in the same block, and it is counted once.
-/

set_option autoImplicit false

namespace LightSync

/-- A note found in a block. -/
structure FoundNote where
  account : Number
  value : Number
  memo : Option Bytes
  position : Number
  txid : Bytes
  txIndex : Number
  outputIndex : Number
  commitment : Bytes
  nullifier : Bytes
  deriving DecidableEq, Repr

/-- A note of the wallet spent in a block, by the transaction that spends it. -/
structure FoundSpend where
  nullifier : Bytes
  txid : Bytes
  deriving DecidableEq, Repr

/-- What the wallet records of a block; `treeSize` counts the commitments up to its end. -/
structure ScannedBlock where
  height : Number
  hash : Bytes
  time : Number
  treeSize : Number
  notes : List FoundNote
  spends : List FoundSpend
  deriving DecidableEq, Repr

namespace Scan

/-- What has been found so far, and the position of the next output. -/
structure Findings where
  position : Number
  notes : List FoundNote
  spends : List FoundSpend
  deriving DecidableEq, Repr

/-- Takes notice of a nullifier that transaction `txid` reveals. -/
def reveal (isUnspent : Bytes → Bool) (txid : Bytes) (found : Findings) (nullifier : Bytes) :
    Findings :=
  if found.spends.any (·.nullifier == nullifier) then found
  else if found.notes.any (·.nullifier == nullifier) || isUnspent nullifier then
    { found with spends := found.spends ++ [{ nullifier, txid }] }
  else found

/-- Takes the output of index `outputIndex` in a transaction. -/
def receive (reader : NoteReader) (keys : List AccountKey) (height : Number) (tx : Tx)
    (found : Findings) (outputIndex : Nat) (output : SaplingOutput) : Except Failure Findings := do
  let place : OutputPlace :=
    { height, txid := tx.hash, txIndex := tx.index, outputIndex, position := found.position }
  let next := found.position + 1
  match ← reader output keys place with
  | none => return { found with position := next }
  | some note =>
      let entry : FoundNote := {
        account := note.account, value := note.value, memo := note.memo,
        position := found.position, txid := tx.hash, txIndex := tx.index,
        outputIndex := Number.ofNat outputIndex, commitment := output.commitment,
        nullifier := note.nullifier }
      return { found with position := next, notes := found.notes ++ [entry] }

/-- Takes the outputs from index `outputIndex` on. -/
def receiveAll (reader : NoteReader) (keys : List AccountKey) (height : Number) (tx : Tx) :
    Findings → Nat → List SaplingOutput → Except Failure Findings
  | found, _, [] => .ok found
  | found, outputIndex, output :: rest => do
      let found ← receive reader keys height tx found outputIndex output
      receiveAll reader keys height tx found (outputIndex + 1) rest

/-- Takes a transaction: first what it reveals, then its outputs. -/
def takeTx (isUnspent : Bytes → Bool) (reader : NoteReader) (keys : List AccountKey)
    (height : Number) (found : Findings) (tx : Tx) : Except Failure Findings :=
  receiveAll reader keys height tx (tx.spends.foldl (reveal isUnspent tx.hash) found) 0 tx.outputs

/-- Takes transactions in order. -/
def takeTxs (isUnspent : Bytes → Bool) (reader : NoteReader) (keys : List AccountKey)
    (height : Number) : Findings → List Tx → Except Failure Findings
  | found, [] => .ok found
  | found, tx :: rest => do
      let found ← takeTx isUnspent reader keys height found tx
      takeTxs isUnspent reader keys height found rest

/-- What a block holds for the wallet, when `treeSize` commitments came before it. -/
def block (isUnspent : Bytes → Bool) (reader : NoteReader) (keys : List AccountKey)
    (treeSize : Number) (b : Block) : Except Failure ScannedBlock := do
  let found ← takeTxs isUnspent reader keys b.height ⟨treeSize, [], []⟩ b.txs
  let hash ← b.hash?
  return {
    height := b.height, hash, time := b.time, treeSize := found.position,
    notes := found.notes, spends := found.spends }

end Scan

end LightSync
