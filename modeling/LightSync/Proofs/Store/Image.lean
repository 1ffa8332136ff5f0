import LightSync.Proofs.Store.Statements
import LightSync.Store.Medium

/-!
# Images that are up to date

Between the operations of a store nothing is open on its connection, and the image in the file is
the content (`Filed`). An operation lasts when it is made of statements and keeps it that way, even
if it fails (`Lasting`). A transaction lasts if each of its steps stays in it, or fails because the
engine has ended it (`Contained.transaction`): then the content is the one it began with, and that
is in the file. So a connection that was opened on a file is up to date after every operation
(`Lasting.keeps`), and nothing is ever in the file that is not committed (`Filed.careful`).
-/

set_option autoImplicit false

namespace LightSync
namespace Database

variable {σ α β : Type}

/-! ## Connections -/

/-- Nothing is open, and the file holds the content. -/
structure Filed (db : Database σ) : Prop where
  before : db.before = none
  inTransaction : db.inTransaction = false
  cursors : db.cursors = 0
  backing : db.backing = .file (some db.content)

/-- A transaction is open, and the file holds the content it began with. -/
structure Within (began : σ) (db : Database σ) : Prop where
  before : db.before = some began
  inTransaction : db.inTransaction = true
  cursors : db.cursors = 0
  backing : db.backing = .file (some began)
  unsaved : db.unsaved = false → db.content = began

/-- The engine has ended such a transaction. -/
structure Struck (began : σ) (db : Database σ) : Prop where
  before : db.before = none
  cursors : db.cursors = 0
  backing : db.backing = .file (some began)
  content : db.content = began

variable {db db' : Database σ} {began : σ} {e : Failure} {a : α}

/-- Once nothing is open, saving brings the file up to date, if it is not. -/
theorem filed_saveIfIdle (hbefore : db.before = none) (hidle : db.inTransaction = false)
    (hcursors : db.cursors = 0) (hbacking : db.backing = .file (some began))
    (hunsaved : db.unsaved = false → db.content = began) : Filed db.saveIfIdle := by
  cases hun : db.unsaved with
  | true =>
      have hsaved : db.saveIfIdle =
          { db with backing := .file (some db.content), unsaved := false } := by
        refine if_pos ?_
        simp [isDue, hbacking, hun, hidle, hcursors]
      rw [hsaved]
      exact ⟨hbefore, hidle, hcursors, rfl⟩
  | false =>
      have hsaved : db.saveIfIdle = db := by
        refine if_neg ?_
        simp [isDue, hbacking, hun]
      rw [hsaved]
      exact ⟨hbefore, hidle, hcursors, by rw [hbacking, hunsaved hun]⟩

theorem Filed.changed (h : Filed db) (content : σ) : Filed (db.changed content) :=
  filed_saveIfIdle h.before h.inTransaction h.cursors h.backing nofun

theorem Filed.cursor (h : Filed db) : Filed db.openCursor.closeCursor := by
  refine filed_saveIfIdle h.before h.inTransaction ?_ h.backing fun _ => rfl
  show db.cursors + 1 - 1 = 0
  rw [h.cursors]

theorem Filed.begun (h : Filed db) :
    Within db.content { db with before := some db.content, inTransaction := true } :=
  ⟨rfl, rfl, h.cursors, h.backing, fun _ => rfl⟩

theorem Within.changed (h : Within began db) (content : σ) : Within began (db.changed content) := by
  rw [changed_of_inTransaction h.inTransaction]
  exact ⟨h.before, h.inTransaction, h.cursors, h.backing, nofun⟩

theorem Within.cursor (h : Within began db) : Within began db.openCursor.closeCursor := by
  have hclosed : db.openCursor.closeCursor = db :=
    @saveIfIdle_of_inTransaction σ { db with cursors := db.cursors + 1 - 1 } h.inTransaction
  rw [hclosed]
  exact h

theorem Within.struck (h : Within began db) :
    Struck began { db with content := began, before := none } := ⟨rfl, h.cursors, h.backing, rfl⟩

theorem Within.commit (h : Within began db) : ∃ db', commit db = .ok () db' ∧ Filed db' := by
  have hcommit : Database.commit db =
      .ok () (saveIfIdle { db with before := none, inTransaction := false }) := by
    simp only [Database.commit, h.before]
  exact ⟨_, hcommit, filed_saveIfIdle rfl rfl h.cursors h.backing h.unsaved⟩

/-- What is rolled back is not in the file. -/
theorem Within.rollback (h : Within began db) : Filed (Database.rollback.after db) := by
  simp only [Action.after, Database.rollback, h.before]
  exact ⟨rfl, rfl, h.cursors, h.backing⟩

theorem Struck.rollback (h : Struck began db) : Filed (Database.rollback.after db) := by
  simp only [Action.after, Database.rollback, h.before]
  exact ⟨rfl, rfl, h.cursors, by rw [h.backing, h.content]⟩

/-! ## Statements that succeed, and that fail -/

theorem of_run_ok {f : σ → Except StoreFault (σ × α)} (h : run f db = .ok a db') :
    ∃ content, db' = db.changed content := by
  unfold run at h
  split at h
  · rename_i content _ _
    cases h
    exact ⟨content, rfl⟩
  · cases h

theorem of_run_error {f : σ → Except StoreFault (σ × α)} (h : run f db = .error e db') :
    db' = db := by
  unfold run at h
  split at h
  · cases h
  · cases h
    rfl

variable {table : Table} {height : Number} {f : σ → Except StoreFault σ} {u : Unit}

theorem of_insert_ok (h : insert table height f db = .ok u db') :
    ∃ content, db' = db.changed content := by
  unfold insert at h
  split at h
  · cases h
  · split at h
    · cases h
    · exact of_run_ok h

/-- An insert that fails may have ended the transaction. -/
theorem of_insert_error (h : insert table height f db = .error e db') :
    db' = db ∨ ∃ began, db.before = some began ∧ db' = { db with content := began, before := none } := by
  unfold insert at h
  split at h
  · cases h
    exact Or.inl rfl
  · split at h
    · cases h
      unfold strike
      split
      · rename_i hbefore
        exact Or.inr ⟨_, hbefore, rfl⟩
      · exact Or.inl rfl
    · exact Or.inl (of_run_error h)

/-! ## Steps of a transaction -/

/-- The action stays in the transaction, or fails with it. -/
structure Contained (act : Action (Database σ) α) : Prop where
  of_ok : ∀ {began db db' a}, Within began db → act db = .ok a db' → Within began db'
  of_error : ∀ {began db db' e}, Within began db → act db = .error e db' →
    Within began db' ∨ Struck began db'
  made : Made act

theorem Contained.of_keeps {act : Action (Database σ) α}
    (h : ∀ began, Action.Keeps (Within began) act) (hmade : Made act) : Contained act where
  of_ok {began db db' a} hwithin hact := by
    have hafter := h began db hwithin
    rwa [Action.after_of_ok hact] at hafter
  of_error {began db db' e} hwithin hact := by
    have hafter := h began db hwithin
    rw [Action.after_of_error hact] at hafter
    exact Or.inl hafter
  made := hmade

theorem Contained.pure (a : α) : Contained (pure a : Action (Database σ) α) :=
  .of_keeps (fun _ => .pure a) (.pure a)

theorem Contained.throw (e : Failure) : Contained (throw e : Action (Database σ) α) :=
  .of_keeps (fun _ _ h => h) (.throw e)

theorem Contained.bind {act : Action (Database σ) α} {next : α → Action (Database σ) β}
    (hact : Contained act) (hnext : ∀ a, Contained (next a)) : Contained (act >>= next) where
  of_ok hwithin h := by
    obtain ⟨a, db1, h1, h2⟩ := Action.bind_eq_ok.1 h
    exact (hnext a).of_ok (hact.of_ok hwithin h1) h2
  of_error hwithin h := by
    rcases Action.bind_eq_error.1 h with h1 | ⟨a, db1, h1, h2⟩
    · exact hact.of_error hwithin h1
    · exact (hnext a).of_error (hact.of_ok hwithin h1) h2
  made := hact.made.bind fun a => (hnext a).made

theorem Contained.forM {l : List β} {act : β → Action (Database σ) PUnit}
    (h : ∀ b, Contained (act b)) : Contained (l.forM act) := by
  induction l with
  | nil => exact .pure PUnit.unit
  | cons b l ih => exact (h b).bind fun _ => ih

theorem contained_query (f : σ → Except Failure α) : Contained (query f) :=
  .of_keeps (fun _ => keeps_query f) (made_query f)

theorem contained_queryRows (f : σ → Except Failure α) : Contained (queryRows f) := by
  refine .of_keeps (fun began db h => ?_) (made_queryRows f)
  rw [after_queryRows]
  exact h.cursor

theorem contained_run (f : σ → Except StoreFault (σ × α)) : Contained (run f) where
  of_ok hwithin h := by
    obtain ⟨content, rfl⟩ := of_run_ok h
    exact hwithin.changed content
  of_error hwithin h := by
    rw [of_run_error h]
    exact Or.inl hwithin
  made := made_run f

theorem contained_insert (table : Table) (height : Number) (f : σ → Except StoreFault σ) :
    Contained (insert table height f) where
  of_ok hwithin h := by
    obtain ⟨content, rfl⟩ := of_insert_ok h
    exact hwithin.changed content
  of_error hwithin h := by
    rcases of_insert_error h with rfl | ⟨began', hbefore, rfl⟩
    · exact Or.inl hwithin
    · cases hwithin.before.symm.trans hbefore
      exact Or.inr hwithin.struck
  made := made_insert table height f

/-! ## Operations -/

/-- The action is made of statements, and brings the file up to date, even if it fails. -/
structure Lasting (act : Action (Database σ) α) : Prop where
  filed : Action.Keeps Filed act
  made : Made act

theorem Lasting.throw (e : Failure) : Lasting (throw e : Action (Database σ) α) :=
  ⟨fun _ h => h, .throw e⟩

theorem Lasting.mapFailure {act : Action (Database σ) α} (h : Lasting act)
    (f : Failure → Failure) : Lasting (act.mapFailure f) :=
  ⟨h.filed.mapFailure f, h.made.mapFailure f⟩

theorem lasting_queryRows (f : σ → Except Failure α) : Lasting (queryRows f) := by
  refine ⟨fun db h => ?_, made_queryRows f⟩
  rw [after_queryRows]
  exact h.cursor

theorem lasting_run (f : σ → Except StoreFault (σ × α)) : Lasting (run f) := by
  refine ⟨fun db hfiled => ?_, made_run f⟩
  cases h : run f db with
  | ok a db' =>
      obtain ⟨content, rfl⟩ := of_run_ok h
      rw [Action.after_of_ok h]
      exact hfiled.changed content
  | error e db' =>
      rw [Action.after_of_error h, of_run_error h]
      exact hfiled

theorem lasting_insert (table : Table) (height : Number) (f : σ → Except StoreFault σ) :
    Lasting (insert table height f) := by
  refine ⟨fun db hfiled => ?_, made_insert table height f⟩
  cases h : insert table height f db with
  | ok u db' =>
      obtain ⟨content, rfl⟩ := of_insert_ok h
      rw [Action.after_of_ok h]
      exact hfiled.changed content
  | error e db' =>
      rw [Action.after_of_error h]
      rcases of_insert_error h with rfl | ⟨began, hbefore, -⟩
      · exact hfiled
      · cases hfiled.before.symm.trans hbefore

/-- Steps that are committed, or fail in their transaction. -/
theorem Contained.committing {act : Action (Database σ) α} (hact : Contained act)
    (hwithin : Within began db) :
    (∃ a db', committing act db = .ok a db' ∧ Filed db') ∨
      ∃ e db', committing act db = .error e db' ∧ (Within began db' ∨ Struck began db') := by
  unfold Database.committing
  cases h : act db with
  | ok a db1 =>
      obtain ⟨db', hcommit, hfiled⟩ := (hact.of_ok hwithin h).commit
      exact Or.inl ⟨a, db', Action.bind_eq_ok.2
        ⟨a, db1, h, Action.bind_eq_ok.2 ⟨(), db', hcommit, rfl⟩⟩, hfiled⟩
  | error e db1 =>
      exact Or.inr ⟨e, db1, Action.bind_eq_error.2 (Or.inl h), hact.of_error hwithin h⟩

/-- A transaction of such steps lasts. -/
theorem Contained.transaction {act : Action (Database σ) α} (hact : Contained act) :
    Lasting (transaction act) := by
  refine ⟨fun db hfiled => ?_, hact.made.transaction⟩
  rw [after_transaction, hfiled.before]
  -- what is not committed is rolled back, and the file still holds what the transaction began with
  rcases hact.committing hfiled.begun with ⟨a, db', hrun, hdone⟩ | ⟨e, db', hrun, hopen⟩
  · simp only [hrun]
    exact hdone
  · simp only [hrun]
    exact hopen.elim Within.rollback Struck.rollback

/-! ## Connections that were opened on a file -/

variable {start : Database σ}

/-- The second connection is what statements made of the first. -/
def ByStatements (start db : Database σ) : Prop := ∃ statements, db = execute statements start

/-- What operations make of a connection: it is up to date, and was reached by statements. -/
structure Reached (start db : Database σ) : Prop where
  filed : Filed db
  made : ByStatements start db

theorem Filed.reached (h : Filed db) : Reached db db := ⟨h, [], rfl⟩

theorem Reached.fault (h : Reached start db) (x : Option InjectedFault) :
    Reached start { db with fault := x } := by
  obtain ⟨⟨hbefore, hidle, hcursors, hbacking⟩, statements, rfl⟩ := h
  refine ⟨⟨hbefore, hidle, hcursors, hbacking⟩, statements ++ [.fault x], ?_⟩
  rw [execute_append]
  rfl

theorem Lasting.keeps {act : Action (Database σ) α} (h : Lasting act) :
    Action.Keeps (Reached start) act := by
  rintro db ⟨hfiled, statements, hmade⟩
  obtain ⟨more, hmore⟩ := h.made db
  refine ⟨h.filed db hfiled, statements ++ more, ?_⟩
  rw [execute_append, ← hmade]
  exact hmore

theorem Reached.cursor (h : Reached start db) : Reached start db.openCursor.closeCursor := by
  have hkept := (lasting_queryRows fun _ => .ok ()).keeps db h
  rwa [after_queryRows] at hkept

/-- After statements the image is what counted at some moment up to then. A statement in an open
transaction, if it does not commit it, changes neither the image nor what counts. -/
structure Careful (start : Database σ) (statements : List (Statement σ)) : Prop where
  image : ∃ earlier, earlier <+: statements ∧
    (execute statements start).backing = .file (some (execute earlier start).committed)
  uncommitted : ∀ began statement, (execute statements start).before = some began →
    statement ≠ .commit →
    (execute (statements ++ [statement]) start).committed = began ∧
      (execute (statements ++ [statement]) start).backing = (execute statements start).backing

theorem Filed.careful (h : Filed start) (statements : List (Statement σ)) :
    Careful start statements := by
  have hknown : Known start := fun _ hbefore => by cases h.before.symm.trans hbefore
  have hcommitted : start.committed = start.content := by
    unfold committed
    rw [h.before]
    rfl
  refine ⟨image_execute hknown (hcommitted ▸ h.backing) statements, ?_⟩
  intro began statement hbefore hcommit
  rw [execute_append]
  exact (executed statement _).uncommitted (known_execute hknown statements) hbefore hcommit

/-- The connection as it is found in the file. -/
def reopened (db : Database σ) : Database σ := connect db.content (.file (some db.content))

/-- A connection to a file is up to date when it is opened. -/
theorem filed_of_connect {ρ : Type} {opening initializing : Operation}
    {prepare : Option σ → Except StoreFault ρ} {m : Medium σ} {db : Database ρ}
    (h : m.connect opening initializing prepare = .ok db) (hfile : db.backing ≠ .memory) :
    Filed db := by
  have hinitialized {result : Except StoreFault ρ} {inFile : Bool}
      (h : Medium.initialized initializing result inFile = .ok db) : Filed db := by
    cases result with
    | error fault => cases h
    | ok content =>
        cases inFile with
        | true =>
            cases h
            exact ⟨rfl, rfl, rfl, rfl⟩
        | false =>
            cases h
            exact absurd rfl hfile
  cases m with
  | directory => cases h
  | garbage => cases h
  | absent => exact hinitialized h
  | emptyFile => exact hinitialized h
  | image content => exact hinitialized h
  | connection content => exact hinitialized h

theorem Filed.medium (h : Filed db) : db.medium = .image db.content := by
  unfold Database.medium
  rw [h.backing]

theorem Filed.close (h : Filed db) : Filed db.close ∧ db.close.content = db.content :=
  ⟨filed_saveIfIdle h.before h.inTransaction h.cursors h.backing fun _ => rfl,
    content_saveIfIdle db⟩

end Database
end LightSync
