import LightSync.Store.Database

/-!
# Opening databases

A store is opened over what lies at a path, or over a connection that somebody else opened. A
missing or empty file is a fresh database; a directory cannot be read, and a file of something
else is found out when the store initializes its tables.
-/

set_option autoImplicit false

namespace LightSync

/-- What a store is opened over. -/
inductive Medium (σ : Type) where
  | absent
  | emptyFile
  | garbage
  | directory
  | image (content : σ)
  | connection (content : Option σ)
  deriving DecidableEq, Repr

namespace Medium

variable {σ ρ : Type}

/-- The store once its tables are there, and in the file if there is one. -/
def initialized (initializing : Operation) (result : Except StoreFault ρ) (inFile : Bool) :
    Except Failure (Database ρ) :=
  match result with
  | .error fault => .error (.storage initializing (.store fault))
  | .ok content =>
      .ok (Database.connect content (if inFile then .file (some content) else .memory))

/-- Opens a store. `prepare` makes its tables in a fresh database, or checks what is there. -/
def connect (opening initializing : Operation) (prepare : Option σ → Except StoreFault ρ) :
    Medium σ → Except Failure (Database ρ)
  | .directory => .error (.storage opening (.store .isDirectory))
  | .garbage => .error (.storage initializing (.store .notADatabase))
  | .absent => initialized initializing (prepare none) true
  | .emptyFile => initialized initializing (prepare none) true
  | .image content => initialized initializing (prepare (some content)) true
  | .connection content => initialized initializing (prepare content) false

end Medium

/-- What a store that is opened later finds of this connection. -/
def Database.medium {σ : Type} (db : Database σ) : Medium σ :=
  match db.backing with
  | .memory => .connection none
  | .file none => .absent
  | .file (some content) => .image content

end LightSync
