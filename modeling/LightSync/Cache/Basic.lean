import LightSync.Block.Decoding
import LightSync.Cache.FileCache

/-!
# Block caches

A cache keeps compact blocks by height, as rows or as files. Everything that reads blocks goes
through `Cache.blocks`: the stored rows above a height, decoded in ascending order and checked
against the height they are stored at.
-/

set_option autoImplicit false

namespace LightSync

/-- A block cache of either kind. -/
inductive Cache where
  | rows (c : RowCache)
  | files (c : FileCache)

namespace Cache

/-- An action for each kind of cache. -/
def either {α : Type} (onRows : Action RowCache α) (onFiles : Action FileCache α) :
    Action Cache α
  | .rows c => match onRows c with
    | .ok a c => .ok a (.rows c)
    | .error e c => .error e (.rows c)
  | .files c => match onFiles c with
    | .ok a c => .ok a (.files c)
    | .error e c => .error e (.files c)

/-! ## Changing -/

def insertBlock (b : Block) : Action Cache Unit :=
  either (RowCache.insertBlock b) (FileCache.insertBlock b)

/-- Inserts blocks as one unit; a block replaces the one at its height. -/
def insertBlocks (bs : List Block) : Action Cache Unit :=
  either (RowCache.insertBlocks bs) (FileCache.insertBlocks bs)

/-- Drops every block above a height. -/
def truncate (height : Number) : Action Cache Unit :=
  either (RowCache.truncate height) (FileCache.truncate height)

/-! ## Reading -/

/-- The greatest height up to which every height from the lowest admissible one is stored. -/
def highestContiguous : Cache → Option Number
  | .rows c => c.highestContiguous
  | .files c => c.highestContiguous

/-- The greatest stored height. -/
def maxHeight : Cache → Option Number
  | .rows c => c.maxHeight
  | .files c => c.maxHeight

/-- The stored rows above a height in ascending order, at most `limit` of them. -/
def storedRows (c : Cache) (last limit : Option Number) : Walk CachedRow :=
  match c with
  | .rows c => c.rows last limit
  | .files c => c.rows last limit

/-- The block in a row, which must be of the height it is stored at. -/
def decodeRow (row : CachedRow) : Except Failure Block :=
  match Block.decode row.data (some row.height) with
  | .error e => .error e
  | .ok b =>
      if b.height.same row.height then .ok b
      else .error (.corrupted (.heightMismatch b.height row.height))

/-- The blocks above a height in ascending order, at most `limit` of them, up to the first row
that cannot be read. -/
def blocks (c : Cache) (last limit : Option Number) : Walk Block :=
  match RowLimit.ofBlocks limit with
  | .error e => Walk.failed e
  | .ok _ =>
      ((c.storedRows last limit).mapFailure (Failure.duringStorage .readCachedBlocks)).andThen
        decodeRow

/-! ## Cursors -/

/-- The cache while its rows are being taken. -/
def openCursor : Cache → Cache
  | .rows c => .rows { c with db := c.db.openCursor }
  | .files c => .files { c with index := c.index.openCursor }

/-- The cache once no more rows are taken. -/
def closeCursor : Cache → Cache
  | .rows c => .rows { c with db := c.db.closeCursor }
  | .files c => .files { c with index := c.index.closeCursor }

/-- Runs an action on a walk over the cache in `σ`. A cursor is open meanwhile, unless the limit
was refused. -/
def during {σ α β : Type} (get : σ → Cache) (set : Cache → σ → σ) (limit : Option Number)
    (walk : Cache → Walk β) (act : Walk β → Action σ α) : Action σ α := fun s =>
  let c := get s
  match RowLimit.ofBlocks limit with
  | .error _ => act (walk c) s
  | .ok _ =>
      Action.ensuring (act (walk c)) (fun s => set (closeCursor (get s)) s) (set c.openCursor s)

/-- Runs an action on the stored rows above a height, at most `limit` of them. The rows are those
of the cache as the traversal begins, so an action that changes the rows of its own cache meanwhile
does not see it here; the statements about scans ask their callers to leave the cache alone
(`Scan.Aside`). -/
def traverseRows {σ α : Type} (get : σ → Cache) (set : Cache → σ → σ) (last limit : Option Number)
    (act : Walk CachedRow → Action σ α) : Action σ α :=
  during get set limit (fun c => c.storedRows last limit) act

/-- Runs an action on the blocks above a height, at most `limit` of them. -/
def traverse {σ α : Type} (get : σ → Cache) (set : Cache → σ → σ) (last limit : Option Number)
    (act : Walk Block → Action σ α) : Action σ α :=
  during get set limit (fun c => c.blocks last limit) act

/-- Visits the blocks above a height in ascending order, at most `limit` of them. The failure
of a visit ends the walk and is told as it is. -/
def forEachBlock {σ : Type} (last limit : Option Number) (visit : Block → Action σ Unit) :
    Action (Cache × σ) Unit :=
  traverse (·.1) (fun c s => (c, s.2)) last limit fun walk =>
    walk.forEach fun b => Action.within (·.2) (fun t s => (s.1, t)) (visit b)

/-! ## Closing and opening again -/

/-- Closes the connection. -/
def close : Cache → Cache
  | .rows c => .rows { c with db := c.db.close }
  | .files c => .files { c with index := c.index.close }

/-- The cache as it is found later, by somebody who opens it in the same way. Block files stay. -/
def reconnect : Cache → Except Failure Cache
  | .rows c =>
      match RowCache.connect c.floor c.db.medium with
      | .ok d => .ok (.rows d)
      | .error e => .error e
  | .files c =>
      match FileCache.connectIndex c.index.medium with
      | .ok index => .ok (.files { c with index })
      | .error e => .error e

end Cache

end LightSync
