import LightSync.Store.Keyed
import LightSync.Store.Column

/-!
# Databases

A connection to a database of content `σ`. Statements change the content at once or fail and
change nothing; a transaction remembers the content it began with and restores it when it is
rolled back. A database in a file has an image there, which is brought up to date after every
change as soon as no transaction and no cursor is open.

The connection keeps two accounts of a transaction: `before`, what the engine would restore, and
`inTransaction`, what its user believes. They part when the engine ends a transaction by itself;
rolling back then fails, and the failure that led there cannot be recovered from
(`Database.transaction`).
-/

set_option autoImplicit false

namespace LightSync

/-- The tables whose inserts can be made to fail. -/
inductive Table where
  | blockRows
  | blockIndex
  | checkpoints
  | notes
  deriving DecidableEq, Repr

/-- Whether the height of a row is the key of the table. -/
def Table.keyedByHeight : Table → Bool
  | .notes => false
  | _ => true

/-- The height under which a new row is announced, before it is there. A key that is yet to be
chosen is announced as -1. -/
def Table.announced (t : Table) (height : Number) : Number :=
  if t.keyedByHeight && height = .nan then -1 else height

/-- A fault injected into a database: inserting a row for a height fails, and the engine may
end the open transaction with it. -/
structure InjectedFault where
  table : Table
  height : Number
  endsTransaction : Bool
  deriving DecidableEq, Repr

/-- Where a database is kept: in memory, or in a file with the image last written to it. -/
inductive Backing (σ : Type) where
  | memory
  | file (image : Option σ)
  deriving DecidableEq, Repr

/-- A connection to a database. -/
structure Database (σ : Type) where
  content : σ
  before : Option σ
  inTransaction : Bool
  cursors : Nat
  unsaved : Bool
  backing : Backing σ
  fault : Option InjectedFault
  deriving DecidableEq, Repr

/-! ## Numbers in rows -/

namespace Number

/-- What a column of integers keeps of a number: nothing of not-a-number, and one zero. -/
def stored? : Number → Option Number
  | .nan => none
  | .negZero => some (.int 0)
  | a => some a

/-- The integer that a column of integers keeps of a number, if it keeps one. Every other number
stays a rounded one there, and so does the least integer of 64 bits, although it can be a key. -/
def keptInt? (a : Number) : Option Int :=
  a.toInt?.filter fun n => -wordBound < n && n < wordBound

/-- The key that a number denotes; none is chosen by not-a-number, and a number that is no
integer of 64 bits is refused. The least of these integers is a key like the others: the engine
takes `-9223372036854775808` for the key of a row and finds the row by it. It is only in a column
that is no key that the bounds are left out (`keptInt?`). -/
def rowKey : Number → Except StoreFault (Option Int)
  | .nan => .ok none
  | a => match a.toInt? with
    | some n => if fitsWord n then .ok (some n) else .error .datatypeMismatch
    | none => .error .datatypeMismatch

end Number

/-- What a column that must not be empty keeps of a number. -/
def storedIn (column : String) (a : Number) : Except StoreFault Number :=
  match a.stored? with
  | some b => .ok b
  | none => .error (.notNull column)

namespace Database

variable {σ α : Type}

/-- A new connection. -/
def connect (content : σ) (backing : Backing σ) : Database σ :=
  { content, before := none, inTransaction := false, cursors := 0, unsaved := false, backing,
    fault := none }

/-! ## The file -/

/-- Whether the image is due: there is something to write and nothing is open. -/
def isDue (db : Database σ) : Bool :=
  match db.backing with
  | .memory => false
  | .file _ => db.unsaved && !db.inTransaction && db.cursors = 0

/-- Writes the image to the file, if it is due. The file is supposed to take it: who works on a
disk that may refuse an image has to look at `isDue`. -/
def saveIfIdle (db : Database σ) : Database σ :=
  if db.isDue then { db with backing := .file (some db.content), unsaved := false } else db

/-- The connection after a change. -/
def changed (db : Database σ) (content : σ) : Database σ :=
  saveIfIdle { db with content, unsaved := true }

/-- Closes the connection. -/
def close (db : Database σ) : Database σ := db.saveIfIdle

/-! ## Statements -/

/-- A query that is answered at once. -/
def query (f : σ → Except Failure α) : Action (Database σ) α := fun db =>
  match f db.content with
  | .ok a => .ok a db
  | .error e => .error e db

def openCursor (db : Database σ) : Database σ := { db with cursors := db.cursors + 1 }

def closeCursor (db : Database σ) : Database σ :=
  saveIfIdle { db with cursors := db.cursors - 1 }

/-- A query whose rows are taken one by one; its cursor is closed at the end. -/
def queryRows (f : σ → Except Failure α) : Action (Database σ) α := fun db =>
  (Action.ensuring (query f) closeCursor) db.openCursor

/-- A statement that changes the content and tells about it. -/
def run (f : σ → Except StoreFault (σ × α)) : Action (Database σ) α := fun db =>
  match f db.content with
  | .ok (content, a) => .ok a (db.changed content)
  | .error fault => .error (.store fault) db

/-- What an injected fault does to an insert. -/
def strike (fault : InjectedFault) (db : Database σ) : Database σ :=
  -- outside a transaction there is nothing to end
  match fault.endsTransaction, db.before with
  | true, some content => { db with content, before := none }
  | _, _ => db

/-- Inserts a row for a height. A height that cannot be the key of the table is refused before
an injected fault takes effect. -/
def insert (table : Table) (height : Number) (f : σ → Except StoreFault σ) :
    Action (Database σ) Unit := fun db =>
  match if table.keyedByHeight then height.rowKey else .ok none with
  | .error fault => .error (.store fault) db
  | .ok _ =>
      match db.fault.filter fun x => x.table = table && x.height.same (table.announced height) with
      | some fault => .error (.store .injected) (strike fault db)
      | none => run (fun c => (f c).map fun c => (c, ())) db

/-! ## Transactions -/

def begin : Action (Database σ) Unit := fun db =>
  match db.before with
  | some _ => .error (.store .nestedTransaction) db
  | none => .ok () { db with before := some db.content, inTransaction := true }

def commit : Action (Database σ) Unit := fun db =>
  match db.before with
  | none => .error (.store .noCommit) db
  | some _ => .ok () (saveIfIdle { db with before := none, inTransaction := false })

/-- Rolls back. The user's account of the transaction ends even if there is nothing to roll
back. -/
def rollback : Action (Database σ) Unit := fun db =>
  match db.before with
  -- the engine ended it already
  | none => .error (.store .noRollback) { db with inTransaction := false }
  | some content => .ok () { db with content, before := none, inTransaction := false }

/-- Runs an action as one transaction, which `ending` commits. A failure undoes it and goes on;
when it cannot be undone, both failures are told. -/
def transactionEnding (ending : Action (Database σ) Unit) (act : Action (Database σ) α) :
    Action (Database σ) α := fun db =>
  match begin db with
  | .error e db => .error e db
  | .ok _ db =>
      match (do let a ← act; ending; return a : Action (Database σ) α) db with
      | .ok a db => .ok a db
      | .error e db =>
          match rollback db with
          | .ok _ db => .error e db
          | .error second db => .error (.unrecoverable e second) db

/-- Runs an action as one transaction. -/
def transaction (act : Action (Database σ) α) : Action (Database σ) α :=
  transactionEnding commit act

end Database

end LightSync
