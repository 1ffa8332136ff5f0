import LightSync.Block.Basic
import LightSync.Bytes.CompactSize

/-!
# Encoding blocks

The stored form of a block: fixed-width little-endian numbers, byte strings and lists behind
compact sizes.

    protoVersion 4 | height 4 | hash | parent | time 4 | header | transactions
    transaction:  index 4 | hash | fee 8 | nullifiers | outputs | actions

Numbers that a field cannot hold are refused before anything is laid out. The size is computed
first (`Block.size`) and the pieces (`Block.pieces`) are then laid out in a space of that size.
-/

set_option autoImplicit false

namespace LightSync

/-! ## Ranges -/

/-- An integer that 32 bits hold. -/
def Number.isWord32 (a : Number) : Bool :=
  match a.toInt? with
  | some n => 0 ≤ n && n ≤ 0xffffffff
  | none => false

/-- A non-negative integer in the exact range. -/
def Number.isSafeNat (a : Number) : Bool :=
  match a.toSafeInt? with
  | some n => 0 ≤ n
  | none => false

/-- Lets a number through that meets a requirement. -/
def require (requirement : Requirement) (holds : Bool) (a : Number) : Except Failure Unit :=
  if holds then .ok () else .error (.refused requirement (some a))

namespace Tx

def check (tx : Tx) : Except Failure Unit := do
  require .txIndex tx.index.isWord32 tx.index
  require .fee tx.fee.isSafeNat tx.fee

end Tx

namespace Block

/-- Refuses a block with a number that its field cannot hold. -/
def check (b : Block) : Except Failure Unit := do
  require .protoVersion b.protoVersion.isWord32 b.protoVersion
  require .height b.height.isWord32 b.height
  require .time b.time.isWord32 b.time
  b.txs.forM Tx.check

end Block

/-! ## Sizes -/

/-- The size of a byte string behind its length. -/
def sizeOfBytes (bs : Bytes) : Nat := CompactSize.length bs.length + bs.length

/-- The size of a list behind its count, by the size of its elements. -/
def sizeOfList {α : Type} (size : α → Nat) (xs : List α) : Nat :=
  CompactSize.length xs.length + (xs.map size).foldr (· + ·) 0

namespace SaplingOutput

def size (o : SaplingOutput) : Nat :=
  sizeOfBytes o.commitment + sizeOfBytes o.ephemeralKey + sizeOfBytes o.ciphertext

end SaplingOutput

namespace OrchardAction

def size (a : OrchardAction) : Nat :=
  sizeOfBytes a.nullifier + sizeOfBytes a.commitment + sizeOfBytes a.ephemeralKey
    + sizeOfBytes a.ciphertext

end OrchardAction

namespace Tx

def size (tx : Tx) : Nat :=
  4 + 8 + sizeOfBytes tx.hash + sizeOfList sizeOfBytes tx.spends
    + sizeOfList SaplingOutput.size tx.outputs + sizeOfList OrchardAction.size tx.actions

end Tx

namespace Block

/-- The size of the encoded block, whatever its numbers. -/
def size (b : Block) : Nat :=
  4 + 4 + 4 + sizeOfBytes b.hash + sizeOfBytes b.parent + sizeOfBytes b.header
    + sizeOfList Tx.size b.txs

end Block

/-! ## Pieces -/

/-- A number in a field of `width` bytes. -/
def fixedPiece (width : Nat) (a : Number) : Bytes :=
  Bytes.littleEndian width (a.wrapped (8 * width))

/-- A byte string behind its length. -/
def bytesPieces (bs : Bytes) : List Bytes := [CompactSize.encode bs.length, bs]

/-- A list behind its count. -/
def listPieces {α : Type} (pieces : α → List Bytes) (xs : List α) : List Bytes :=
  CompactSize.encode xs.length :: xs.flatMap pieces

namespace SaplingOutput

def pieces (o : SaplingOutput) : List Bytes :=
  bytesPieces o.commitment ++ bytesPieces o.ephemeralKey ++ bytesPieces o.ciphertext

end SaplingOutput

namespace OrchardAction

def pieces (a : OrchardAction) : List Bytes :=
  bytesPieces a.nullifier ++ bytesPieces a.commitment ++ bytesPieces a.ephemeralKey
    ++ bytesPieces a.ciphertext

end OrchardAction

namespace Tx

def pieces (tx : Tx) : List Bytes :=
  fixedPiece 4 tx.index :: bytesPieces tx.hash ++ fixedPiece 8 tx.fee ::
    (listPieces bytesPieces tx.spends ++ listPieces SaplingOutput.pieces tx.outputs
      ++ listPieces OrchardAction.pieces tx.actions)

end Tx

namespace Block

/-- What is written for a block, in order. -/
def pieces (b : Block) : List Bytes :=
  fixedPiece 4 b.protoVersion :: fixedPiece 4 b.height :: (bytesPieces b.hash
    ++ bytesPieces b.parent ++ fixedPiece 4 b.time :: (bytesPieces b.header
      ++ listPieces Tx.pieces b.txs))

end Block

/-! ## Layout -/

/-- Lays pieces out one after the other in `room` bytes. A piece that does not fit is an access
beyond the end; room that is left over stays zero. -/
def layOut (room : Nat) : List Bytes → Except Failure Bytes
  | [] => .ok (List.replicate room 0)
  | piece :: rest =>
      if piece.length ≤ room then
        match layOut (room - piece.length) rest with
        | .ok bs => .ok (piece ++ bs)
        | .error e => .error e
      else .error .outOfBounds

namespace Block

/-- The encoded block. -/
def encode (b : Block) : Except Failure Bytes := do
  b.check
  layOut b.size b.pieces

end Block

end LightSync
