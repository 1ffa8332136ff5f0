import LightSync.Action
import LightSync.Block.Basic

/-!
# Notes in outputs

An output may belong to one of the wallet's accounts. A `NoteReader` decides: from the output,
the viewing keys of the accounts and the place of the output in the chain it tells the note, or
that there is none.
-/

set_option autoImplicit false

namespace LightSync

/-- The key that recognizes the notes of an account. -/
structure AccountKey where
  account : Number
  viewingKey : Bytes
  deriving DecidableEq, Repr

/-- Where an output stands: its block, its transaction, its index there, and the position of
its commitment among all commitments of the chain. -/
structure OutputPlace where
  height : Number
  txid : Bytes
  txIndex : Number
  outputIndex : Nat
  position : Number
  deriving DecidableEq, Repr

/-- A note of the wallet, as its output tells it. -/
structure OpenedNote where
  account : Number
  value : Number
  memo : Option Bytes
  nullifier : Bytes
  deriving DecidableEq, Repr

/-- Recognizes the wallet's notes. -/
abbrev NoteReader :=
  SaplingOutput → List AccountKey → OutputPlace → Except Failure (Option OpenedNote)

/-- A note known by its commitment. -/
structure ListedNote where
  commitment : Bytes
  note : OpenedNote
  deriving DecidableEq, Repr

/-- Recognizes the outputs whose commitment is listed, whatever the keys; the last entry for a
commitment counts. -/
def NoteReader.ofList (listed : List ListedNote) : NoteReader := fun output _ _ =>
  .ok ((listed.reverse.find? fun entry => entry.commitment = output.commitment).map (·.note))

end LightSync
