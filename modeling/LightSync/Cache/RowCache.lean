import LightSync.Block.Encoding
import LightSync.Cache.Heights
import LightSync.Cache.Walk
import LightSync.Store.Medium

/-!
# The row cache

Compact blocks as rows of one table: the encoded block under its height. A batch is one
transaction, and every block of it is encoded before any row is written.
-/

set_option autoImplicit false

namespace LightSync

/-- A stored block, not yet decoded, and the number nearest to its key. -/
structure CachedRow where
  height : Number
  data : Bytes
  deriving DecidableEq, Repr

/-- A cache that keeps blocks as rows. Contiguity is counted from the floor. -/
structure RowCache where
  floor : Number
  db : Database (Keyed Bytes)
  deriving DecidableEq, Repr

namespace RowCache

def defaultFloor : Number := 0

/-- Opens a cache over a medium. -/
def connect (floor : Number) (m : Medium (Keyed Bytes)) : Except Failure RowCache := do
  let db ← m.connect .openCache .initializeCache fun found => .ok (found.getD Keyed.empty)
  return { floor, db }

/-- An action on the database. -/
def onDatabase {α : Type} (act : Action (Database (Keyed Bytes)) α) : Action RowCache α :=
  Action.within (·.db) (fun db c => { c with db }) act

/-- Writes a row, in place of one already there. -/
def insertRow (height : Number) (data : Bytes) : Action (Database (Keyed Bytes)) Unit :=
  Database.insert .blockRows height fun t => do
    let key ← height.rowKey
    return t.insert (key.getD t.nextKey) data

def insertBlock (b : Block) : Action RowCache Unit := do
  let data ← Action.ofExcept b.encode
  Action.storing .insertBlock (onDatabase (insertRow b.height data))

/-- A block with its encoded form. -/
def encoded (b : Block) : Except Failure (Number × Bytes) := do
  let data ← b.encode
  return (b.height, data)

/-- Inserts blocks as one unit. -/
def insertBlocks (bs : List Block) : Action RowCache Unit := do
  let rows ← Action.ofExcept (bs.mapM encoded)
  Action.storing .insertBlocks
    (onDatabase (Database.transaction (rows.forM fun row => insertRow row.1 row.2)))

/-- The greatest height up to which every height from the floor on is stored. -/
def highestContiguous (c : RowCache) : Option Number :=
  (c.db.content.runFrom? c.floor).map Number.ofInt

def maxHeight (c : RowCache) : Option Number :=
  c.db.content.last?.map fun e => Number.ofInt e.1

/-- The rows above a height in order, at most `limit` of them. -/
def rows (c : RowCache) (last limit : Option Number) : Walk CachedRow :=
  match c.db.content.above last limit with
  | .error e => Walk.failed e
  | .ok entries => ⟨entries.map fun e => ⟨Number.ofInt e.1, e.2⟩, none⟩

/-- Drops every block above a height. -/
def truncate (height : Number) : Action RowCache Unit :=
  Action.storing .truncateCache
    (onDatabase (Database.run fun t => .ok (t.upTo height, ())))

end RowCache

end LightSync
