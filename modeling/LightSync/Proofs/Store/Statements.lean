import LightSync.Proofs.Store.Transaction
import Mathlib.Data.List.Induction

/-!
# Statements and the image in the file

A connection works statement by statement (`Statement`), and the image in its file is written at the
end of a statement or not at all. What counts of a connection is its content without what an open
transaction has done to it (`committed`). Nothing that is done in a transaction counts, or is
written, before it is committed (`Executed.uncommitted`), and at every moment the image is what
counted then or earlier (`image_execute`). The actions of a store are made of statements (`Made`).
-/

set_option autoImplicit false

namespace LightSync
namespace Database

variable {σ α β : Type}

/-! ## Statements -/

/-- A statement. A fault comes and goes in the same way. -/
inductive Statement (σ : Type) where
  | run (f : σ → Except StoreFault σ)
  | insert (table : Table) (height : Number) (f : σ → Except StoreFault σ)
  | begin
  | commit
  | rollback
  | openCursor
  | closeCursor
  | fault (x : Option InjectedFault)

/-- The connection after a statement, whether it failed or not. -/
def Statement.execute : Statement σ → Database σ → Database σ
  | .run f => (Database.run fun c => (f c).map fun c => (c, ())).after
  | .insert table height f => (Database.insert table height f).after
  | .begin => Database.begin.after
  | .commit => Database.commit.after
  | .rollback => Database.rollback.after
  | .openCursor => Database.openCursor
  | .closeCursor => Database.closeCursor
  | .fault x => fun db => { db with fault := x }

/-- The connection after statements one after another. -/
def execute (statements : List (Statement σ)) (db : Database σ) : Database σ :=
  statements.foldl (fun db statement => statement.execute db) db

theorem execute_append (statements more : List (Statement σ)) (db : Database σ) :
    execute (statements ++ more) db = execute more (execute statements db) :=
  List.foldl_append

/-- The content without what an open transaction has done to it. -/
def committed (db : Database σ) : σ := db.before.getD db.content

/-- The user knows about every transaction that is open. -/
def Known (db : Database σ) : Prop := ∀ content, db.before = some content → db.inTransaction = true

/-- What a statement can do. -/
inductive Executed (db : Database σ) : Statement σ → Database σ → Prop where
  | refused (statement : Statement σ) : Executed db statement db
  | changed (statement : Statement σ) (content : σ) : Executed db statement (db.changed content)
  | struck {content : σ} (h : db.before = some content) (statement : Statement σ) :
      Executed db statement { db with content, before := none }
  | begun (h : db.before = none) :
      Executed db .begin { db with before := some db.content, inTransaction := true }
  | committed : Executed db .commit (saveIfIdle { db with before := none, inTransaction := false })
  | ended (h : db.before = none) : Executed db .rollback { db with inTransaction := false }
  | restored {content : σ} (h : db.before = some content) :
      Executed db .rollback { db with content, before := none, inTransaction := false }
  | opened : Executed db .openCursor db.openCursor
  | closed : Executed db .closeCursor db.closeCursor
  | faulted (x : Option InjectedFault) : Executed db (.fault x) { db with fault := x }

theorem executed_run (f : σ → Except StoreFault (σ × α)) (db : Database σ)
    (statement : Statement σ) : Executed db statement ((run f).after db) := by
  unfold Action.after run
  cases f db.content with
  | ok r => exact .changed statement r.1
  | error fault => exact .refused statement

theorem executed_strike (fault : InjectedFault) (db : Database σ) (statement : Statement σ) :
    Executed db statement (strike fault db) := by
  unfold strike
  split
  · rename_i hbefore
    exact .struck hbefore statement
  · exact .refused statement

theorem executed_insert (table : Table) (height : Number) (f : σ → Except StoreFault σ)
    (db : Database σ) (statement : Statement σ) :
    Executed db statement ((Database.insert table height f).after db) := by
  have hrun := executed_run (fun c => (f c).map fun c => (c, ())) db statement
  rw [Action.after_eq_stateOf] at hrun ⊢
  unfold Database.insert
  split
  · exact .refused statement
  · split
    · exact executed_strike _ db statement
    · exact hrun

theorem executed (statement : Statement σ) (db : Database σ) :
    Executed db statement (statement.execute db) := by
  cases statement with
  | run f => exact executed_run _ db _
  | insert table height f => exact executed_insert table height f db _
  | begin =>
      show Executed db _ (Database.begin.after db)
      unfold Action.after Database.begin
      cases hbefore : db.before with
      | some content => exact .refused _
      | none => exact .begun hbefore
  | commit =>
      show Executed db _ (Database.commit.after db)
      unfold Action.after Database.commit
      cases hbefore : db.before with
      | some content => exact .committed
      | none => exact .refused _
  | rollback =>
      show Executed db _ (Database.rollback.after db)
      unfold Action.after Database.rollback
      split
      · rename_i hrollback
        split at hrollback
        · cases hrollback
        · rename_i content hbefore
          cases hrollback
          exact .restored hbefore
      · rename_i hrollback
        split at hrollback
        · rename_i hbefore
          cases hrollback
          exact .ended hbefore
        · cases hrollback
  | openCursor => exact .opened
  | closeCursor => exact .closed
  | fault x => exact .faulted x

/-! ## What the image holds -/

theorem Known.saveIfIdle {db : Database σ} (h : Known db) : Known db.saveIfIdle := by
  intro content hbefore
  rw [before_saveIfIdle] at hbefore
  rw [inTransaction_saveIfIdle]
  exact h content hbefore

/-- Nothing is written while a transaction is open. -/
theorem Known.image_saveIfIdle {db : Database σ} (h : Known db) :
    db.saveIfIdle.backing = db.backing ∨
      db.saveIfIdle.backing = .file (some db.saveIfIdle.committed) := by
  cases hidle : db.inTransaction with
  | true =>
      rw [saveIfIdle_of_inTransaction hidle]
      exact Or.inl rfl
  | false =>
      -- what is written now is the whole content, since no transaction is open
      have hbefore : db.before = none := by
        cases hbefore : db.before with
        | none => rfl
        | some content => cases hidle.symm.trans (h content hbefore)
      have hcommitted : db.saveIfIdle.committed = db.content := by
        unfold committed
        rw [before_saveIfIdle, hbefore, content_saveIfIdle]
        rfl
      rw [hcommitted]
      unfold Database.saveIfIdle
      split
      · exact Or.inr rfl
      · exact Or.inl rfl

variable {db db' : Database σ} {statement : Statement σ}

theorem Executed.known (h : Executed db statement db') (hknown : Known db) : Known db' := by
  cases h with
  | refused => exact hknown
  | changed _ content => exact Known.saveIfIdle hknown
  | struck => exact nofun
  | begun => exact fun _ _ => rfl
  | committed => exact Known.saveIfIdle nofun
  | ended hbefore => exact fun _ h => by cases hbefore.symm.trans h
  | restored => exact nofun
  | opened => exact hknown
  | closed => exact Known.saveIfIdle hknown
  | faulted => exact hknown

/-- A statement leaves the image alone, or writes what counts afterwards. -/
theorem Executed.image (h : Executed db statement db') (hknown : Known db) :
    db'.backing = db.backing ∨ db'.backing = .file (some db'.committed) := by
  cases h with
  | changed _ content => exact @Known.image_saveIfIdle σ { db with content, unsaved := true } hknown
  | committed =>
      exact @Known.image_saveIfIdle σ { db with before := none, inTransaction := false } nofun
  | closed => exact @Known.image_saveIfIdle σ { db with cursors := db.cursors - 1 } hknown
  | _ => exact Or.inl rfl

/-- In a transaction nothing is written, and nothing counts, unless it is committed. -/
theorem Executed.uncommitted (h : Executed db statement db') (hknown : Known db) {content : σ}
    (hbefore : db.before = some content) (hcommit : statement ≠ .commit) :
    db'.committed = content ∧ db'.backing = db.backing := by
  have hopen : db.inTransaction = true := hknown content hbefore
  have hcounts (now : σ) : db.before.getD now = content := by rw [hbefore, Option.getD_some]
  cases h with
  | refused => exact ⟨hcounts _, rfl⟩
  | changed =>
      rw [changed_of_inTransaction hopen]
      exact ⟨hcounts _, rfl⟩
  | struck h =>
      cases hbefore.symm.trans h
      exact ⟨rfl, rfl⟩
  | begun h => cases hbefore.symm.trans h
  | committed => exact absurd rfl hcommit
  | ended h => cases hbefore.symm.trans h
  | restored h =>
      cases hbefore.symm.trans h
      exact ⟨rfl, rfl⟩
  | opened => exact ⟨hcounts _, rfl⟩
  | closed =>
      rw [closeCursor, @saveIfIdle_of_inTransaction σ { db with cursors := db.cursors - 1 } hopen]
      exact ⟨hcounts _, rfl⟩
  | faulted => exact ⟨hcounts _, rfl⟩

theorem known_execute (hknown : Known db) (statements : List (Statement σ)) :
    Known (execute statements db) := by
  induction statements generalizing db with
  | nil => exact hknown
  | cons statement statements ih => exact ih ((executed statement db).known hknown)

/-- After statements the image is what counted at some moment. -/
theorem image_execute (hknown : Known db) (himage : db.backing = .file (some db.committed))
    (statements : List (Statement σ)) : ∃ earlier, earlier <+: statements ∧
      (execute statements db).backing = .file (some (execute earlier db).committed) := by
  -- from the end: the last statement leaves the image alone or writes it
  induction statements using List.reverseRecOn with
  | nil => exact ⟨[], List.prefix_rfl, himage⟩
  | append_singleton statements statement ih =>
      obtain ⟨earlier, hearlier, hholds⟩ := ih
      rw [execute_append]
      rcases (executed statement (execute statements db)).image (known_execute hknown _) with h | h
      · exact ⟨earlier, hearlier.trans (List.prefix_append _ _), h.trans hholds⟩
      · refine ⟨statements ++ [statement], List.prefix_rfl, ?_⟩
        rw [execute_append]
        exact h

/-! ## Actions that are made of statements -/

/-- Whatever comes of the action, it has executed statements one after another. -/
def Made (act : Action (Database σ) α) : Prop :=
  ∀ db, ∃ statements, act.after db = execute statements db

theorem Made.pure (a : α) : Made (pure a : Action (Database σ) α) := fun _ => ⟨[], rfl⟩

theorem Made.throw (e : Failure) : Made (throw e : Action (Database σ) α) := fun _ => ⟨[], rfl⟩

theorem Made.bind {act : Action (Database σ) α} {next : α → Action (Database σ) β}
    (hact : Made act) (hnext : ∀ a, Made (next a)) : Made (act >>= next) := by
  intro db
  obtain ⟨statements, hfirst⟩ := hact db
  rw [Action.after_bind]
  cases h : act db with
  | ok a db1 =>
      obtain ⟨more, hrest⟩ := hnext a db1
      rw [Action.after_of_ok h] at hfirst
      refine ⟨statements ++ more, ?_⟩
      rw [execute_append, ← hfirst]
      exact hrest
  | error e db1 =>
      rw [Action.after_of_error h] at hfirst
      exact ⟨statements, hfirst⟩

theorem Made.mapFailure {act : Action (Database σ) α} (h : Made act) (f : Failure → Failure) :
    Made (act.mapFailure f) := by
  intro db
  rw [Action.after_mapFailure]
  exact h db

theorem made_query (f : σ → Except Failure α) : Made (query f) := by
  intro db
  rw [after_query]
  exact ⟨[], rfl⟩

theorem made_run (f : σ → Except StoreFault (σ × α)) : Made (run f) := by
  intro db
  refine ⟨[.run fun c => (f c).map Prod.fst], ?_⟩
  show _ = (run _).after db
  simp only [Action.after, run]
  cases f db.content <;> rfl

theorem made_insert (table : Table) (height : Number) (f : σ → Except StoreFault σ) :
    Made (insert table height f) := fun _ => ⟨[.insert table height f], rfl⟩

/-- Taking rows opens a cursor and closes it again. -/
theorem after_queryRows (f : σ → Except Failure α) (db : Database σ) :
    (queryRows f).after db = db.openCursor.closeCursor := by
  show ((query f).ensuring closeCursor).after db.openCursor = _
  rw [Action.after_ensuring, after_query]

theorem made_queryRows (f : σ → Except Failure α) : Made (queryRows f) := by
  intro db
  rw [after_queryRows]
  exact ⟨[.openCursor, .closeCursor], rfl⟩

/-- An action that is committed when it succeeds. -/
def committing (act : Action (Database σ) α) : Action (Database σ) α := do
  let a ← act
  commit
  return a

/-- A transaction begins, and what is not committed is rolled back. -/
theorem after_transaction (act : Action (Database σ) α) (db : Database σ) :
    (transaction act).after db = match db.before with
      | some _ => db
      | none => match committing act { db with before := some db.content, inTransaction := true } with
        | .ok _ db => db
        | .error _ db => rollback.after db := by
  cases hbefore : db.before with
  | some content => simp only [Action.after, transaction, transactionEnding, begin, hbefore]
  | none =>
      dsimp only
      cases hrun : committing act
          { db with before := some db.content, inTransaction := true } with
      | ok a db1 =>
          unfold committing at hrun
          simp only [Action.after, transaction, transactionEnding, begin, hbefore, hrun]
      | error e db1 =>
          unfold committing at hrun
          simp only [Action.after, transaction, transactionEnding, begin, hbefore, hrun]
          cases rollback db1 <;> rfl

theorem Made.transaction {act : Action (Database σ) α} (hact : Made act) : Made (transaction act) := by
  intro db
  have hcommitting : Made (committing act) :=
    hact.bind fun a => Made.bind (fun _ => ⟨[.commit], rfl⟩) fun _ => .pure a
  rw [after_transaction]
  cases hbefore : db.before with
  | some content => exact ⟨[], rfl⟩
  | none =>
      let db1 := { db with before := some db.content, inTransaction := true }
      have hbegin : Statement.begin.execute db = db1 := by
        show Database.begin.after db = _
        simp only [Action.after, Database.begin, hbefore, db1]
      obtain ⟨statements, hstatements⟩ := hcommitting db1
      show ∃ all, (match committing act db1 with
        | .ok _ db => db
        | .error _ db => rollback.after db) = execute all db
      cases hrun : committing act db1 with
      | ok a db2 =>
          rw [Action.after_of_ok hrun, ← hbegin] at hstatements
          exact ⟨.begin :: statements, hstatements⟩
      | error e db2 =>
          rw [Action.after_of_error hrun, ← hbegin] at hstatements
          refine ⟨.begin :: (statements ++ [.rollback]), ?_⟩
          show _ = execute (statements ++ [.rollback]) (Statement.begin.execute db)
          rw [execute_append, ← hstatements]
          rfl

end Database
end LightSync
