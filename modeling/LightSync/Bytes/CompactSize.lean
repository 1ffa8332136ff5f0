import LightSync.Bytes.Buffer

/-!
# Compact sizes

A count or length takes one byte below `0xfd`; from there on a marker byte says that two, four
or eight little-endian bytes follow. Writing takes the shortest of the four forms, reading
accepts any of them.

`encode` and `length` are the format on natural numbers. `write`, `read` and `lengthOf` work on
a buffer and on whatever numbers a caller hands in, and agree with the former on natural
numbers in range.
-/

set_option autoImplicit false

namespace LightSync
namespace CompactSize

/-! ## The format -/

/-- The length of the shortest form of a count. -/
def length (n : Nat) : Nat :=
  if n < 0xfd then 1 else if n ≤ 0xffff then 3 else if n ≤ 0xffffffff then 5 else 9

/-- The shortest form of a count. -/
def encode (n : Nat) : Bytes :=
  if n < 0xfd then Bytes.littleEndian 1 n
  else if n ≤ 0xffff then 0xfd :: Bytes.littleEndian 2 n
  else if n ≤ 0xffffffff then 0xfe :: Bytes.littleEndian 4 n
  else 0xff :: Bytes.littleEndian 8 n

/-- How many bytes a form takes, by its first byte. -/
def width (first : UInt8) : Nat :=
  if first < 0xfd then 1 else if first = 0xfd then 3 else if first = 0xfe then 5 else 9

/-- The count that a form of `width` bytes stands for. -/
def valueOf : Bytes → Nat
  | [] => 0
  | first :: payload => if first < 0xfd then first.toNat else Bytes.value payload

theorem length_encode (n : Nat) : (encode n).length = length n := by
  unfold encode length
  split
  · simp
  · split
    · simp
    · split <;> simp

/-! ## On buffers -/

/-- The length of the form that is written for a number. -/
def lengthOf (value : Number) : Nat :=
  if value < 0xfd then 1
  else if value ≤ 0xffff then 3
  else if value ≤ 0xffffffff then 5
  else 9

/-- Writes the form of a number and returns the offset behind it. A fixed-width field keeps
the integer part modulo its range; the eight-byte field takes integers only, and finds out
after its marker has been written. -/
def write (offset value : Number) : Action Bytes Number := do
  if value < 0xfd then
    Buffer.store offset (Bytes.littleEndian 1 (value.wrapped 8))
    return offset + 1
  else if value ≤ 0xffff then
    Buffer.store offset [0xfd]
    Buffer.store (offset + 1) (Bytes.littleEndian 2 (value.wrapped 16))
    return offset + 3
  else if value ≤ 0xffffffff then
    Buffer.store offset [0xfe]
    Buffer.store (offset + 1) (Bytes.littleEndian 4 (value.wrapped 32))
    return offset + 5
  else
    -- the marker stays although the value is refused
    Buffer.store offset [0xff]
    if value.isInteger then
      Buffer.store (offset + 1) (Bytes.littleEndian 8 (value.wrapped 64))
      return offset + 9
    else
      throw .notIntegral

/-- Reads a form; the result is the number nearest to its count, and the offset behind it. -/
def read (bs : Bytes) (offset : Number) : Except Failure (Number × Number) := do
  let first ← Buffer.load bs offset 1
  if first < 0xfd then
    return (Number.ofNat first, offset + 1)
  else if first = 0xfd then
    return (Number.ofNat (← Buffer.load bs (offset + 1) 2), offset + 3)
  else if first = 0xfe then
    return (Number.ofNat (← Buffer.load bs (offset + 1) 4), offset + 5)
  else
    return (Number.ofNat (← Buffer.load bs (offset + 1) 8), offset + 9)

end CompactSize

/-- The eight little-endian bytes of an integer, modulo `2 ^ 64`. -/
def Number.toBytes (a : Number) : Except Failure Bytes :=
  match a.toInt? with
  | some _ => .ok (Bytes.littleEndian 8 (a.wrapped 64))
  | none => .error .notIntegral

end LightSync
