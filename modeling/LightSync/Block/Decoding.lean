import LightSync.Block.Basic
import LightSync.Bytes.CompactSize

/-!
# Decoding blocks

A reader moves over the bytes and asks for what it needs before it takes it. Bytes that are no
block are refused with what is wrong with them; the height of the row they came from, when the
caller knows it, is told along.
-/

set_option autoImplicit false

namespace LightSync

/-- A place in a byte string: what is still to be read, and how many bytes were read. -/
structure Reader where
  rest : Bytes
  offset : Nat
  remaining : Nat
  remaining_eq : remaining = rest.length

namespace Reader

/-- Why reading stops: the bytes are malformed, or a read went beyond their end. -/
inductive Stop where
  | malformed (defect : Defect)
  | beyond
  deriving DecidableEq, Repr

def Stop.failure (height : Option Number) : Stop → Failure
  | .malformed defect => .undecodable defect height
  | .beyond => .outOfBounds

def start (data : Bytes) : Reader := ⟨data, 0, data.length, rfl⟩

/-- A step over the bytes that yields a value. -/
abbrev Step (α : Type) := StateT Reader (Except Stop) α

/-- Refuses the bytes. -/
def refuse {α : Type} (defect : Defect) : Step α := fun _ => .error (.malformed defect)

/-- Asks for `n` more bytes. -/
def need (n : Nat) : Step Unit := fun r =>
  if r.remaining < n then .error (.malformed (.unexpectedEnd r.offset n)) else .ok ((), r)

/-- The next `n` bytes, left where they are. -/
def peek (n : Nat) : Step Bytes := fun r =>
  if n ≤ r.remaining then .ok (r.rest.take n, r) else .error .beyond

/-- Takes the next `n` bytes. -/
def take (n : Nat) : Step Bytes := fun r =>
  if n ≤ r.remaining then
    .ok (r.rest.take n,
      ⟨r.rest.drop n, r.offset + n, r.remaining - n, by rw [r.remaining_eq, List.length_drop]⟩)
  else .error .beyond

/-- A little-endian number in four bytes. -/
def word32 : Step Nat := do
  need 4
  return Bytes.value (← take 4)

/-- A little-endian number in eight bytes, in the exact range. -/
def word64 : Step Nat := do
  need 8
  let n := Bytes.value (← peek 8)
  if Number.maxSafe < n then refuse (.valueTooLarge n)
  let _ ← take 8
  return n

/-- A compact size in any of its forms. -/
def compactSize : Step Nat := do
  need 1
  let first := (← peek 1).headD 0
  need (CompactSize.width first)
  return CompactSize.valueOf (← take (CompactSize.width first))

/-- A count of elements; every element takes at least one byte. -/
def count : Step Nat := do
  let n ← compactSize
  let r ← get
  if r.remaining < n then refuse (.countTooLarge n r.remaining)
  return n

/-- A byte string behind its length. -/
def bytes : Step Bytes := do
  let n ← compactSize
  need n
  take n

/-- The same step `n` times. -/
def times {α : Type} (step : Step α) : Nat → Step (List α)
  | 0 => return []
  | n + 1 => do
      let a ← step
      let rest ← times step n
      return a :: rest

/-- A list behind its count. -/
def list {α : Type} (step : Step α) : Step (List α) := do
  times step (← count)

/-- Refuses bytes that nothing was read from. -/
def finished : Step Unit := do
  let r ← get
  if r.remaining ≠ 0 then refuse (.trailing r.remaining)

def saplingOutput : Step SaplingOutput := do
  let commitment ← bytes
  let ephemeralKey ← bytes
  let ciphertext ← bytes
  return { commitment, ephemeralKey, ciphertext }

def orchardAction : Step OrchardAction := do
  let nullifier ← bytes
  let commitment ← bytes
  let ephemeralKey ← bytes
  let ciphertext ← bytes
  return { nullifier, commitment, ephemeralKey, ciphertext }

def tx : Step Tx := do
  let index ← word32
  let hash ← bytes
  let fee ← word64
  let spends ← list bytes
  let outputs ← list saplingOutput
  let actions ← list orchardAction
  return { index := .int index, hash, fee := .int fee, spends, outputs, actions }

def block : Step Block := do
  let protoVersion ← word32
  let height ← word32
  let hash ← bytes
  let parent ← bytes
  let time ← word32
  let header ← bytes
  let txs ← list tx
  finished
  return {
    protoVersion := .int protoVersion, height := .int height, hash, parent,
    time := .int time, header, txs }

end Reader

namespace Block

/-- The block that the bytes encode. `height` is that of the row they came from, if any. -/
def decode (data : Bytes) (height : Option Number) : Except Failure Block :=
  match (Reader.block.run (Reader.start data)) with
  | .ok (b, _) => .ok b
  | .error stop => .error (stop.failure height)

end Block

end LightSync
