import LightSync.Cache.BlockMeta
import LightSync.Cache.Disk
import LightSync.Cache.RowCache
import LightSync.Console
import LightSync.Failure.Message

/-!
# The file cache

Compact blocks as files, one per block, found through an index of block metadata. A batch first
writes the files and then their entries, all of them in one transaction. When the batch fails,
the files that it created are removed; when it succeeded, the files of blocks that it replaced
by others are. Only a transaction that cannot be undone leaves files behind, since the index may
still name them. An entry written from outside can ask for a longer file name than there are;
such a file is neither found nor removed.

The disk may refuse to write a file, to remove one, or to take the image of the index when a
transaction on it is committed. That an image is taken wherever else one is due, at the end of a
traversal and when the cache is closed, is supposed here.
-/

set_option autoImplicit false

namespace LightSync

/-! ## The cache -/

/-- A handler of failures after which an index can no longer be trusted. It does not return: it is
what is thrown in the end, for a failure and those that it was told before. -/
abbrev Handler := Failure → List Failure → Failure

/-- The handler that reports the failure and ends the process. -/
def Handler.abort : Handler := fun cause _ => .aborted cause

/-- The handler that tells the caller. -/
def Handler.rethrow : Handler := fun cause _ => cause

/-- A cache that keeps blocks as files under a root directory, on a disk with faults. `told` is
what the handler was called with so far. -/
structure FileCache where
  root : String
  index : Database (Keyed BlockFacts)
  files : Directory
  faults : List DiskFault
  handler : Handler
  told : List Failure

namespace FileCache

def blocksDir (c : FileCache) : String := FilePath.join c.root "blocks"

/-- What lies at the path of the root: a file is in the way. -/
def claimRoot (root : String) (isFile : Bool) : Except Failure Unit :=
  if isFile then .error (.storage .createRoot (.store (.alreadyExists root))) else .ok ()

/-- Opens the index over a medium. -/
def connectIndex (m : Medium (Keyed BlockFacts)) : Except Failure (Database (Keyed BlockFacts)) :=
  m.connect .openIndex .initializeIndex fun found => .ok (found.getD Keyed.empty)

/-- The line with which the process ends. A bare text that was thrown carries no message. -/
def lastWords {δ : Type} (cause : Failure) : List (Console.Line δ) :=
  let message := match cause with
    | .thrown _ => "undefined"
    | _ => cause.message
  (Console.Scope.mk "FsBlockDb" false).write .error message none

/-- An action on the index. -/
def onIndex {α : Type} (act : Action (Database (Keyed BlockFacts)) α) : Action FileCache α :=
  Action.within (·.index) (fun index c => { c with index }) act

/-! ## The index -/

/-- What the index keeps of a block. -/
def storedFacts (facts : BlockFacts) : Except StoreFault BlockFacts := do
  let time ← storedIn "compactblocks_meta.time" facts.time
  let saplingOutputs ←
    storedIn "compactblocks_meta.sapling_outputs_count" facts.saplingOutputs
  let orchardActions ←
    storedIn "compactblocks_meta.orchard_actions_count" facts.orchardActions
  return { hash := facts.hash, time, saplingOutputs, orchardActions }

/-- Writes an entry, in place of one for the same height. -/
def insertMeta (m : BlockMeta) : Action (Database (Keyed BlockFacts)) Unit :=
  Database.insert .blockIndex m.height fun t => do
    let key ← m.height.rowKey
    let facts ← storedFacts m.toBlockFacts
    return t.insert (key.getD t.nextKey) facts

/-- The entry at a key; its height is the number nearest to the key. -/
def entry (e : Int × BlockFacts) : BlockMeta := { e.2 with height := Number.ofInt e.1 }

/-- The entry for a height. -/
def meta? (c : FileCache) (height : Number) : Option BlockMeta :=
  height.toInt?.bind fun k => (c.index.content.find? k).map fun facts => entry (k, facts)

/-- Commits entries. If the image is due and the disk refuses it, that is told, but the entries are
committed all the same. -/
def commitIndex (faults : List DiskFault) : Action (Database (Keyed BlockFacts)) Unit := fun db =>
  match Database.commit db, DiskFault.image? faults with
  | .ok _ saved, some reason =>
      let ended := { db with before := none, inTransaction := false }
      if ended.isDue then .error (.store (.device reason)) ended else .ok () saved
  | result, _ => result

/-- Writes entries for blocks whose files are there: all of them or none. A batch that cannot
be undone makes the index useless; the handler is called with what failed first and with the
failure to undo it. -/
def writeMetadata (metas : List BlockMeta) : Action FileCache Unit := fun c =>
  match Action.storing .beginIndexBatch Database.begin c.index with
  | .error e index => .error e { c with index }
  | .ok _ index =>
      match (do metas.forM insertMeta; commitIndex c.faults) index with
      | .ok _ index => .ok () { c with index }
      | .error e index =>
          match Database.rollback index with
          | .ok _ index => .error (.storage .writeIndexBatch e) { c with index }
          | .error second index =>
              let cause := Failure.unrecoverable e second
              .error (c.handler cause c.told) { c with index, told := c.told ++ [cause] }

/-! ## Batches -/

/-- Whether two heights are one: here not-a-number is itself. -/
def sameHeight (a b : Number) : Bool := a.same b || (a = .nan && b = .nan)

/-- A batch with one more block, in the place of one for the same height. -/
def addToBatch (batch : List Block) (b : Block) : List Block :=
  if batch.any (fun a => sameHeight a.height b.height) then
    batch.map fun a => if sameHeight a.height b.height then b else a
  else batch ++ [b]

/-- The blocks to be stored, one per height. -/
def onePerHeight (bs : List Block) : List Block := bs.foldl addToBatch []

/-- Puts bytes into the file of an entry. -/
def putFile (m : BlockMeta) (data : Bytes) : Action FileCache Unit := fun c =>
  if m.isNameable then
    match DiskFault.write? c.faults m.fileName with
    | none => .ok () { c with files := c.files.write m.fileName data }
    | some (written, reason) =>
        .error (.store (.device reason))
          { c with files := c.files.writePart m.fileName data written }
  else .error (.store (.nameTooLong "open" (m.filePath c.blocksDir))) c

/-- Removes the file of an entry, if it is there. -/
def dropFile (m : BlockMeta) : Action FileCache Unit := fun c =>
  if m.isNameable then
    match DiskFault.remove? c.faults m.fileName with
    | none => .ok () { c with files := c.files.remove m.fileName }
    | some reason => .error (.store (.device reason)) c
  else .error (.store (.nameTooLong "lstat" (m.filePath c.blocksDir))) c

/-- Removes the file of an entry that is no longer in the index. -/
def removeBlockFile (m : BlockMeta) : Action FileCache Unit :=
  Action.storing (.removeBlockFile m.height) (dropFile m)

/-- Removes files while a failure is on its way: one that the disk does not remove stays, and a
warning is all that comes of it. -/
def discardFiles (names : List String) (c : FileCache) : FileCache :=
  let removable := names.filter fun name => (DiskFault.remove? c.faults name).isNone
  { c with files := removable.foldl Directory.remove c.files }

/-- A batch under way: the entries to be written, the files that were created, and the entries
that are replaced by others. -/
structure Batch where
  cache : FileCache
  metas : List BlockMeta
  created : List String
  replaced : List BlockMeta

/-- Writes the file of an entry. An entry for the same height is replaced; if its hash is the same,
so is the file, which is written over. A file whose writing failed is not among the created ones. -/
def writeEntry (m : BlockMeta) (data : Bytes) : Action Batch Unit := fun batch =>
  let previous := (batch.cache.meta? m.height).filter fun p => p.hash ≠ m.hash
  let replaced := batch.replaced ++ previous.toList
  let existed := (batch.cache.files.read? m.fileName).isSome
  match Action.storing (.writeBlockFile m.height) (putFile m data) batch.cache with
  | .error e cache => .error e { batch with cache, replaced }
  | .ok _ cache =>
      .ok () {
        cache, replaced
        metas := batch.metas ++ [m]
        created := if existed then batch.created else batch.created ++ [m.fileName] }

/-- Writes the file of a block. -/
def writeFile (b : Block) : Action Batch Unit := do
  let m ← Action.ofExcept (BlockMeta.ofBlock b)
  let data ← Action.ofExcept b.encode
  writeEntry m data

/-- Whether the index may name files that it should not. -/
def leavesFiles : Failure → Bool
  | .unrecoverable _ _ => true
  | .aborted _ => true
  | _ => false

/-- Stores blocks as one unit; of several for one height the last counts. -/
def insertBlocks (bs : List Block) : Action FileCache Unit := fun c =>
  let act : Action Batch Unit := do
    (onePerHeight bs).forM writeFile
    let batch ← get
    Action.within (·.cache) (fun cache batch => { batch with cache }) (writeMetadata batch.metas)
  match act ⟨c, [], [], []⟩ with
  | .ok _ batch => batch.replaced.forM removeBlockFile batch.cache
  | .error e batch =>
      .error e (if leavesFiles e then batch.cache else batch.cache.discardFiles batch.created)

def insertBlock (b : Block) : Action FileCache Unit := insertBlocks [b]

/-! ## Reading and truncating -/

/-- The greatest height up to which every height from the lowest one on is stored. -/
def highestContiguous (c : FileCache) : Option Number :=
  c.index.content.runFromLowest?.map Number.ofInt

def maxHeight (c : FileCache) : Option Number :=
  c.index.content.last?.map fun e => Number.ofInt e.1

/-- The row of an entry: its file has to be there. -/
def readFile (c : FileCache) (e : Int × BlockFacts) : Except Failure CachedRow :=
  let m := entry e
  match c.files.read? m.fileName with
  | some data => .ok ⟨m.height, data⟩
  | none =>
      let path := m.filePath c.blocksDir
      .error (.storage (.readBlockFile m.height) (.store
        (if m.isNameable then .noSuchFile path else .nameTooLong "open" path)))

/-- The rows above a height in order, at most `limit` of them, up to a missing file. -/
def rows (c : FileCache) (last limit : Option Number) : Walk CachedRow :=
  match c.index.content.above last limit with
  | .error e => Walk.failed e
  | .ok entries => Walk.attempt c.readFile none entries

/-- Drops the entries above a height, and tells which they were. -/
def truncateIndex (faults : List DiskFault) (height : Number) :
    Action (Database (Keyed BlockFacts)) (List BlockMeta) :=
  Database.transactionEnding (commitIndex faults) do
    let metas ← Database.queryRows fun t =>
      .ok ((t.entries.filter fun e => decide (height < Number.int e.1)).map entry)
    Database.run fun t => .ok (t.upTo height, ())
    return metas

/-- Drops every entry above a height, and then their files one after another. -/
def truncate (height : Number) : Action FileCache Unit := fun c =>
  match Action.storing .truncateIndex (onIndex (truncateIndex c.faults height)) c with
  | .error e c => .error e c
  | .ok removed c => removed.forM removeBlockFile c

end FileCache

end LightSync
