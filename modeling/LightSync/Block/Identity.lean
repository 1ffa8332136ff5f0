import LightSync.Block.Basic
import LightSync.Failure.Basic
import LightSync.Hash.Sha256
import LightSync.Number.Decimal

/-!
# The identity of a block

A block is named by its hash, and names its parent by the parent's hash. Each of the two is
taken from its field when the field has the right length, and from the header when the field is
empty and the header is complete; otherwise the block cannot be used.
-/

set_option autoImplicit false

namespace LightSync

namespace Block

def hashLength : Nat := 32

/-- Version, parent, two roots, time, difficulty and nonce: a header is no shorter. -/
def leastHeader : Nat := 140

/-- The parent's hash stands behind the version. -/
def parentOffset : Nat := 4

def hasHeader (b : Block) : Bool := leastHeader ≤ b.header.length

/-- The hash of the block: the field, or the double hash of the header. -/
def hash? (b : Block) : Except Failure Bytes :=
  if b.hash.length = hashLength then .ok b.hash
  else if b.hash.length = 0 && b.hasHeader then .ok (Sha256.hashTwice b.header)
  else .error (.corrupted (.unusableHash b.height b.hash.length))

/-- The hash of the parent: the field, or the one in the header. -/
def parent? (b : Block) : Except Failure Bytes :=
  if b.parent.length = hashLength then .ok b.parent
  else if b.parent.length = 0 && b.hasHeader then
    .ok ((b.header.drop parentOffset).take hashLength)
  else .error (.corrupted (.unusableParent b.height b.parent.length))

variable {b : Block} {e : Failure}

theorem hash?_eq_error (h : b.hash? = .error e) :
    e = .corrupted (.unusableHash b.height b.hash.length) := by
  unfold hash? at h
  split at h
  · cases h
  · split at h <;> cases h
    rfl

theorem parent?_eq_error (h : b.parent? = .error e) :
    e = .corrupted (.unusableParent b.height b.parent.length) := by
  unfold parent? at h
  split at h
  · cases h
  · split at h <;> cases h
    rfl

end Block

/-- A hash as it is shown to people: the bytes reversed. -/
def displayHash (hash : Bytes) : String := Bytes.hex hash.reverse

/-- Height and hash for people. -/
def displayBlock (height : Number) (hash : Bytes) : String :=
  let shown := displayHash hash
  s!"{height} ({shown})"

end LightSync
