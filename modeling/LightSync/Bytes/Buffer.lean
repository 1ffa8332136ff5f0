import LightSync.Action

/-!
# Buffers

A buffer is a byte string of fixed length that is read and written in place. Offsets are
numbers that a caller computed: they are cut to an integer, and an access that is not inside
the buffer fails and changes nothing.
-/

set_option autoImplicit false

namespace LightSync
namespace Buffer

/-- The position that an offset denotes; not-a-number denotes the start. -/
def position? (offset : Number) : Option Nat :=
  match offset with
  | .infinite _ => none
  | _ =>
      let n := offset.truncate
      if 0 ≤ n && n.toNat ≤ Number.maxSafe then some n.toNat else none

/-- The position of an access of `length` bytes that lies inside a buffer of `size` bytes. -/
def locate (size : Nat) (offset : Number) (length : Nat) : Except Failure Nat :=
  match position? offset with
  | none => .error .outOfBounds
  | some n => if n + length ≤ size then .ok n else .error .outOfBounds

/-- The bytes with those from position `n` on overwritten by `piece`. -/
def overwrite (bs : Bytes) (n : Nat) (piece : Bytes) : Bytes :=
  bs.take n ++ piece ++ bs.drop (n + piece.length)

/-- Writes a piece. -/
def store (offset : Number) (piece : Bytes) : Action Bytes Unit := fun bs =>
  match locate bs.length offset piece.length with
  | .error e => .error e bs
  | .ok n => .ok () (overwrite bs n piece)

/-- Reads `length` bytes as a little-endian number. -/
def load (bs : Bytes) (offset : Number) (length : Nat) : Except Failure Nat :=
  match locate bs.length offset length with
  | .error e => .error e
  | .ok n => .ok (Bytes.value ((bs.drop n).take length))

theorem length_overwrite {bs piece : Bytes} {n : Nat} (h : n + piece.length ≤ bs.length) :
    (overwrite bs n piece).length = bs.length := by
  simp only [overwrite, List.length_append, List.length_take, List.length_drop]
  omega

end Buffer
end LightSync
