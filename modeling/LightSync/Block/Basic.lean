import LightSync.Bytes.Basic
import LightSync.Number.Basic

/-!
# Compact blocks

A compact block carries what a light wallet needs of a block: its place in the chain, and for
each transaction the nullifiers it reveals, its Sapling outputs and its Orchard actions.
-/

set_option autoImplicit false

namespace LightSync

/-- A Sapling output: the commitment of a note, the ephemeral key it was encrypted with, and
the compact part of the ciphertext. -/
structure SaplingOutput where
  commitment : Bytes
  ephemeralKey : Bytes
  ciphertext : Bytes
  deriving DecidableEq, Repr, Inhabited

/-- An Orchard action. Actions are kept and counted, not scanned. -/
structure OrchardAction where
  nullifier : Bytes
  commitment : Bytes
  ephemeralKey : Bytes
  ciphertext : Bytes
  deriving DecidableEq, Repr, Inhabited

/-- A transaction, with its index in the full block; `spends` are the nullifiers it reveals. -/
structure Tx where
  index : Number
  hash : Bytes
  fee : Number
  spends : List Bytes
  outputs : List SaplingOutput
  actions : List OrchardAction
  deriving DecidableEq, Repr

/-- A compact block. The own hash and the parent's hash may be left empty when the header is
there. -/
structure Block where
  protoVersion : Number
  height : Number
  hash : Bytes
  parent : Bytes
  time : Number
  header : Bytes
  txs : List Tx
  deriving DecidableEq, Repr

namespace Block

def saplingOutputs (b : Block) : Nat := (b.txs.map (·.outputs.length)).foldr (· + ·) 0

def orchardActions (b : Block) : Nat := (b.txs.map (·.actions.length)).foldr (· + ·) 0

end Block

end LightSync
