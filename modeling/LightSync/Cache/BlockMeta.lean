import LightSync.Block.Identity
import LightSync.Cache.FilePath

/-!
# Block metadata

What the file cache knows of a block without reading its file: an entry of its index. The entry
names the file, by height and by the hash as it is shown to people.
-/

set_option autoImplicit false

namespace LightSync

/-- An entry of the index without its height. -/
structure BlockFacts where
  hash : Bytes
  time : Number
  saplingOutputs : Number
  orchardActions : Number
  deriving DecidableEq, Repr

/-- An entry of the index. -/
structure BlockMeta extends BlockFacts where
  height : Number
  deriving DecidableEq, Repr

namespace BlockMeta

/-- The entry of a block. -/
def ofBlock (b : Block) : Except Failure BlockMeta := do
  let hash ← b.hash?
  return {
    height := b.height, hash, time := b.time,
    saplingOutputs := Number.ofNat b.saplingOutputs,
    orchardActions := Number.ofNat b.orchardActions }

/-- The name of the file that holds the block. -/
def fileName (m : BlockMeta) : String :=
  let height := m.height
  let shown := displayHash m.hash
  s!"{height}-{shown}-compactblock"

/-- The number of bytes that the name of a file may have. -/
def longestName : Nat := 255

/-- Whether there can be a file of that name. -/
def isNameable (m : BlockMeta) : Bool := m.fileName.utf8ByteSize ≤ longestName

/-- The path of that file in a directory of blocks. -/
def filePath (dir : String) (m : BlockMeta) : String := FilePath.join dir m.fileName

end BlockMeta

end LightSync
