import LightSync.Proofs.Action.Outcome
import LightSync.Store.Database

/-!
# Transactions as functions of the content

A connection is at rest when no transaction is open on it. From there a transaction either
succeeds and has changed the content as its steps say, one after another, or fails and leaves the
content as it was, even if a fault made the engine end it (`Enacts.transaction`). `Enacts` says
what a step inside a transaction does to the content and `Atomic` what a whole unit does; both
compare an action with a function of the content alone.
-/

set_option autoImplicit false

namespace LightSync
namespace Database

variable {σ α β : Type}

/-- No transaction is open. -/
def AtRest (db : Database σ) : Prop := db.before = none

@[simp] theorem content_saveIfIdle (db : Database σ) : db.saveIfIdle.content = db.content := by
  unfold saveIfIdle
  split <;> rfl

@[simp] theorem before_saveIfIdle (db : Database σ) : db.saveIfIdle.before = db.before := by
  unfold saveIfIdle
  split <;> rfl

@[simp] theorem fault_saveIfIdle (db : Database σ) : db.saveIfIdle.fault = db.fault := by
  unfold saveIfIdle
  split <;> rfl

@[simp] theorem inTransaction_saveIfIdle (db : Database σ) :
    db.saveIfIdle.inTransaction = db.inTransaction := by
  unfold saveIfIdle
  split <;> rfl

/-- An image is due only where nothing is open. -/
theorem inTransaction_of_isDue {db : Database σ} (h : db.isDue = true) :
    db.inTransaction = false := by
  unfold isDue at h
  split at h
  · cases h
  · simp only [Bool.and_eq_true, Bool.not_eq_true'] at h
    exact h.1.2

/-- In a transaction the image is left alone. -/
theorem saveIfIdle_of_inTransaction {db : Database σ} (h : db.inTransaction = true) :
    db.saveIfIdle = db := by
  refine if_neg fun hdue => ?_
  rw [inTransaction_of_isDue hdue] at h
  cases h

theorem changed_of_inTransaction {db : Database σ} (h : db.inTransaction = true) (content : σ) :
    db.changed content = { db with content, unsaved := true } :=
  saveIfIdle_of_inTransaction h

@[simp] theorem content_closeCursor (db : Database σ) : db.closeCursor.content = db.content :=
  content_saveIfIdle _

@[simp] theorem before_closeCursor (db : Database σ) : db.closeCursor.before = db.before :=
  before_saveIfIdle _

@[simp] theorem fault_closeCursor (db : Database σ) : db.closeCursor.fault = db.fault :=
  fault_saveIfIdle _

/-- A query leaves everything as it is. -/
theorem after_query (f : σ → Except Failure α) (db : Database σ) : (query f).after db = db := by
  unfold Action.after query
  cases f db.content <;> rfl

theorem keeps_query {P : Database σ → Prop} (f : σ → Except Failure α) :
    Action.Keeps P (query f) := by
  intro db hdb
  rw [after_query]
  exact hdb

/-! ## Steps -/

/-- `act`, as a step of a transaction, does to the content what `f` says. It can fail where `f`
does not only by an injected fault; the engine may then have ended the transaction and restored
the content it began with. -/
structure Enacts (act : Action (Database σ) α) (f : StateT σ (Except Failure) α) : Prop where
  of_ok : ∀ {db db' a}, act db = .ok a db' →
    f db.content = .ok (a, db'.content) ∧ db'.before = db.before ∧ db'.fault = db.fault
  of_error : ∀ {db db' e}, act db = .error e db' →
    (db'.before = db.before ∨ db'.before = none ∧ db.before = some db'.content) ∧
    db'.fault = db.fault ∧
    (db.fault = none → f db.content = .error e ∧ db'.before = db.before)

theorem Enacts.pure (a : α) : Enacts (pure a : Action (Database σ) α) (pure a) where
  of_ok h := by cases h; exact ⟨rfl, rfl, rfl⟩
  of_error h := by cases h

theorem Enacts.throw (e : Failure) :
    Enacts (throw e : Action (Database σ) α) (fun _ => .error e) where
  of_ok h := by cases h
  of_error h := by cases h; exact ⟨Or.inl rfl, rfl, fun _ => ⟨rfl, rfl⟩⟩

theorem Enacts.bind {act : Action (Database σ) α} {f : StateT σ (Except Failure) α}
    {next : α → Action (Database σ) β} {g : α → StateT σ (Except Failure) β}
    (hact : Enacts act f) (hnext : ∀ a, Enacts (next a) (g a)) :
    Enacts (act >>= next) (f >>= g) where
  of_ok {db db' b} h := by
    obtain ⟨a, db1, h1, h2⟩ := Action.bind_eq_ok.1 h
    obtain ⟨hf, hb1, hx1⟩ := hact.of_ok h1
    obtain ⟨hg, hb2, hx2⟩ := (hnext a).of_ok h2
    refine ⟨?_, hb2.trans hb1, hx2.trans hx1⟩
    exact Except.bind_eq_ok.2 ⟨(a, db1.content), hf, hg⟩
  of_error {db db' e} h := by
    rcases Action.bind_eq_error.1 h with h1 | ⟨a, db1, h1, h2⟩
    · obtain ⟨hb, hx, hf⟩ := hact.of_error h1
      refine ⟨hb, hx, fun hfault => ⟨?_, (hf hfault).2⟩⟩
      show f db.content >>= _ = _
      rw [(hf hfault).1]
      rfl
    · obtain ⟨hf, hb1, hx1⟩ := hact.of_ok h1
      obtain ⟨hb2, hx2, hg⟩ := (hnext a).of_error h2
      rw [hb1] at hb2
      refine ⟨hb2, hx2.trans hx1, fun hfault => ?_⟩
      obtain ⟨hge, hb3⟩ := hg (hx1.trans hfault)
      refine ⟨?_, hb3.trans hb1⟩
      show f db.content >>= _ = _
      rw [hf]
      exact hge

theorem Enacts.forM {l : List β} {act : β → Action (Database σ) PUnit}
    {f : β → StateT σ (Except Failure) PUnit} (h : ∀ b, Enacts (act b) (f b)) :
    Enacts (l.forM act) (l.forM f) := by
  induction l with
  | nil => exact Enacts.pure PUnit.unit
  | cons b l ih =>
      show Enacts (act b >>= fun _ => l.forM act) (f b >>= fun _ => l.forM f)
      exact (h b).bind fun _ => ih

/-! ## The statements of a database -/

/-- A question about the content. -/
def asking (f : σ → Except Failure α) : StateT σ (Except Failure) α := fun c =>
  (f c).map fun a => (a, c)

theorem asking_eq_ok {f : σ → Except Failure α} {c c' : σ} {a : α} :
    asking f c = .ok (a, c') ↔ f c = .ok a ∧ c' = c := by
  unfold asking
  cases f c with
  | ok b => simp [Except.map, eq_comm]
  | error e => simp [Except.map]

/-- A change of the content that the store may refuse. -/
def changing (f : σ → Except StoreFault (σ × α)) : StateT σ (Except Failure) α := fun c =>
  match f c with
  | .ok (c, a) => .ok (a, c)
  | .error fault => .error (.store fault)

theorem enacts_query (f : σ → Except Failure α) : Enacts (query f) (asking f) where
  of_ok {db db' a} h := by
    unfold query at h
    split at h
    · rename_i hf
      cases h
      exact ⟨by rw [asking, hf]; rfl, rfl, rfl⟩
    · cases h
  of_error {db db' e} h := by
    unfold query at h
    split at h
    · cases h
    · rename_i hf
      cases h
      exact ⟨Or.inl rfl, rfl, fun _ => ⟨by rw [asking, hf]; rfl, rfl⟩⟩

theorem enacts_run (f : σ → Except StoreFault (σ × α)) : Enacts (run f) (changing f) where
  of_ok {db db' a} h := by
    unfold run at h
    split at h
    · rename_i hf
      cases h
      refine ⟨?_, ?_, ?_⟩
      · rw [changing, hf]
        simp [changed]
      · simp [changed]
      · simp [changed]
    · cases h
  of_error {db db' e} h := by
    unfold run at h
    split at h
    · cases h
    · rename_i hf
      cases h
      exact ⟨Or.inl rfl, rfl, fun _ => ⟨by rw [changing, hf], rfl⟩⟩

/-- A row put into a table. -/
def inserting (f : σ → Except StoreFault σ) : StateT σ (Except Failure) Unit :=
  changing fun c => (f c).map fun c => (c, ())

theorem inserting_eq_ok {f : σ → Except StoreFault σ} {c c' : σ} {u : Unit} :
    inserting f c = .ok (u, c') ↔ f c = .ok c' := by
  simp only [inserting, changing]
  cases f c with
  | ok c1 =>
      constructor
      · intro h
        cases h
        rfl
      · intro h
        cases h
        rfl
  | error fault =>
      constructor
      · intro h
        cases h
      · intro h
        cases h

/-- An insert does what its change does, if the change refuses the heights that are no keys. -/
theorem enacts_insert {table : Table} {height : Number} {f : σ → Except StoreFault σ}
    (hkey : ∀ fault, table.keyedByHeight = true → height.rowKey = .error fault →
      ∀ c, f c = .error fault) :
    Enacts (insert table height f) (inserting f) where
  of_ok {db db' a} h := by
    unfold insert at h
    split at h
    · cases h
    · split at h
      · cases h
      · exact (enacts_run _).of_ok h
  of_error {db db' e} h := by
    unfold insert at h
    split at h
    · rename_i fault hf
      cases h
      refine ⟨Or.inl rfl, rfl, fun _ => ⟨?_, rfl⟩⟩
      split at hf
      · rename_i hk
        rw [inserting, changing, hkey fault hk hf]
        rfl
      · cases hf
    · split at h
      · rename_i fault hfault
        cases h
        have hsome : db.fault ≠ none := by
          intro hn
          rw [hn] at hfault
          cases hfault
        -- the fault may end the transaction, which restores what it began with
        unfold strike
        split
        · rename_i content _ hb
          exact ⟨Or.inr ⟨rfl, hb⟩, rfl, fun hn => absurd hn hsome⟩
        · exact ⟨Or.inl rfl, rfl, fun hn => absurd hn hsome⟩
      · exact (enacts_run _).of_error h

/-- Outside a transaction an insert that fails changes nothing. -/
theorem eq_of_insert_error {table : Table} {height : Number} {f : σ → Except StoreFault σ}
    {db db' : Database σ} {e : Failure} (hrest : db.AtRest)
    (h : insert table height f db = .error e db') : db' = db := by
  unfold AtRest at hrest
  unfold insert at h
  split at h
  · cases h
    rfl
  · split at h
    · rename_i fault _
      cases h
      unfold strike
      rw [hrest]
      cases fault.endsTransaction <;> rfl
    · unfold run at h
      split at h
      · cases h
      · cases h
        rfl

/-! ## Steps that cannot fail -/

/-- `act` succeeds on every connection, and does to the content what `f` says. -/
def Succeeds (act : Action (Database σ) α) (f : σ → α × σ) : Prop :=
  ∀ db, ∃ db', act db = .ok (f db.content).1 db' ∧ db'.content = (f db.content).2 ∧
    db'.before = db.before ∧ db'.fault = db.fault

theorem Succeeds.pure (a : α) : Succeeds (pure a : Action (Database σ) α) fun c => (a, c) :=
  fun db => ⟨db, rfl, rfl, rfl, rfl⟩

theorem Succeeds.bind {act : Action (Database σ) α} {f : σ → α × σ}
    {next : α → Action (Database σ) β} {g : α → σ → β × σ}
    (hact : Succeeds act f) (hnext : ∀ a, Succeeds (next a) (g a)) :
    Succeeds (act >>= next) fun c => g (f c).1 (f c).2 := by
  intro db
  obtain ⟨db1, h1, hc1, hb1, hx1⟩ := hact db
  obtain ⟨db2, h2, hc2, hb2, hx2⟩ := hnext (f db.content).1 db1
  rw [hc1] at h2 hc2
  exact ⟨db2, Action.bind_eq_ok.2 ⟨_, db1, h1, h2⟩, hc2, hb2.trans hb1, hx2.trans hx1⟩

theorem succeeds_run (f : σ → σ × α) :
    Succeeds (run fun c => .ok (f c)) fun c => ((f c).2, (f c).1) :=
  fun db => ⟨_, rfl, by simp [changed], by simp [changed], by simp [changed]⟩

theorem succeeds_queryRows (f : σ → α) :
    Succeeds (queryRows fun c => .ok (f c)) fun c => (f c, c) :=
  fun db => ⟨db.openCursor.closeCursor, rfl, content_closeCursor _, before_closeCursor _,
    fault_closeCursor _⟩

/-- A transaction of steps that cannot fail ends as its last step does. -/
theorem Succeeds.transactionEnding {act : Action (Database σ) α} {f : σ → α × σ}
    (hact : Succeeds act f) (ending : Action (Database σ) Unit) {db : Database σ}
    (hrest : db.AtRest) :
    ∃ db1 : Database σ, db1.before = some db.content ∧ db1.content = (f db.content).2 ∧
      db1.fault = db.fault ∧ transactionEnding ending act db = match ending db1 with
        | .ok _ db2 => .ok (f db.content).1 db2
        | .error e db2 => match rollback db2 with
          | .ok _ db3 => .error e db3
          | .error second db3 => .error (.unrecoverable e second) db3 := by
  unfold AtRest at hrest
  obtain ⟨db1, h1, hc, hb, hx⟩ :=
    hact { db with before := some db.content, inTransaction := true }
  refine ⟨db1, hb, hc, hx, ?_⟩
  simp only [Database.transactionEnding, begin, hrest, Action.bind_apply, h1]
  cases ending db1 <;> rfl

/-- A transaction of steps that cannot fail goes through. -/
theorem Succeeds.transaction {act : Action (Database σ) α} {f : σ → α × σ}
    (hact : Succeeds act f) {db : Database σ} (hrest : db.AtRest) :
    ∃ db', transaction act db = .ok (f db.content).1 db' ∧ db'.content = (f db.content).2 ∧
      db'.AtRest ∧ db'.fault = db.fault := by
  obtain ⟨db1, hb, hc, hx, h⟩ := hact.transactionEnding commit hrest
  have hcommit : commit db1 =
      .ok () (saveIfIdle { db1 with before := none, inTransaction := false }) := by
    simp only [commit, hb]
  rw [hcommit] at h
  refine ⟨_, h, ?_, before_saveIfIdle _, (fault_saveIfIdle _).trans hx⟩
  rw [content_saveIfIdle]
  exact hc

/-! ## Units -/

/-- `act`, from a connection at rest, does to the content what `f` says, or fails and leaves the
content as it was. It can fail where `f` does not only by an injected fault. -/
structure Atomic (act : Action (Database σ) α) (f : StateT σ (Except Failure) α) : Prop where
  of_ok : ∀ {db db' a}, db.AtRest → act db = .ok a db' →
    f db.content = .ok (a, db'.content) ∧ db'.AtRest ∧ db'.fault = db.fault
  of_error : ∀ {db db' e}, db.AtRest → act db = .error e db' →
    db'.content = db.content ∧ db'.AtRest ∧ db'.fault = db.fault ∧
    (db.fault = none → f db.content = .error e)

/-- A transaction that fails has failed in a step, and is then rolled back. It cannot fail when it
commits: a step that ended the transaction has failed itself. -/
theorem step_of_transaction_error {act : Action (Database σ) α}
    {f : StateT σ (Except Failure) α} (hact : Enacts act f) {db db' : Database σ} {e : Failure}
    (hrest : db.AtRest) (h : transaction act db = .error e db') :
    ∃ cause db1, act { db with before := some db.content, inTransaction := true } =
        .error cause db1 ∧
      (rollback db1 = .ok () db' ∧ e = cause ∨
        ∃ second, rollback db1 = .error second db' ∧ e = .unrecoverable cause second) := by
  unfold AtRest at hrest
  simp only [Database.transaction, transactionEnding, begin, hrest] at h
  split at h
  · cases h
  · rename_i cause db1 hrun
    refine ⟨cause, db1, ?_, ?_⟩
    · rcases Action.bind_eq_error.1 hrun with h1 | ⟨a, db2, h1, h2⟩
      · exact h1
      · obtain ⟨-, hb, -⟩ := hact.of_ok h1
        rcases Action.bind_eq_error.1 h2 with h3 | ⟨u, db3, -, h4⟩
        · simp only [commit, hb] at h3
          cases h3
        · cases h4
    · split at h
      · rename_i hrollback
        cases h
        exact Or.inl ⟨hrollback, rfl⟩
      · rename_i second _ hrollback
        cases h
        exact Or.inr ⟨second, hrollback, rfl⟩

/-- A transaction succeeds with all its steps, or undoes them. -/
theorem Enacts.transaction {act : Action (Database σ) α} {f : StateT σ (Except Failure) α}
    (hact : Enacts act f) : Atomic (transaction act) f where
  of_ok {db db' a} hrest h := by
    unfold AtRest at hrest ⊢
    simp only [Database.transaction, transactionEnding, begin, hrest] at h
    split at h
    · rename_i hrun
      cases h
      obtain ⟨a1, db1, h1, h2⟩ := Action.bind_eq_ok.1 hrun
      obtain ⟨u, db2, hc, hp⟩ := Action.bind_eq_ok.1 h2
      cases hp
      obtain ⟨hf, hb, hx⟩ := hact.of_ok h1
      simp only [commit, hb] at hc
      cases hc
      exact ⟨by simpa using hf, by simp, by simpa using hx⟩
    · split at h <;> cases h
  of_error {db db' e} hrest h := by
    obtain ⟨cause, db1, hstep, hend⟩ := step_of_transaction_error hact hrest h
    obtain ⟨hb, hx, hf⟩ := hact.of_error hstep
    rcases hb with hb | ⟨hnone, hsome⟩
    · -- the transaction is still open and is undone
      have hrollback : rollback db1 =
          .ok () { db1 with content := db.content, before := none, inTransaction := false } := by
        simp only [rollback, hb]
      rcases hend with ⟨hdone, rfl⟩ | ⟨second, hfailed, -⟩
      · rw [hrollback] at hdone
        cases hdone
        exact ⟨rfl, rfl, hx, fun hfault => (hf hfault).1⟩
      · rw [hrollback] at hfailed
        cases hfailed
    · -- the engine has undone it already
      have hrollback : rollback db1 =
          .error (.store .noRollback) { db1 with inTransaction := false } := by
        simp only [rollback, hnone]
      rcases hend with ⟨hdone, -⟩ | ⟨second, hfailed, rfl⟩
      · rw [hrollback] at hdone
        cases hdone
      · rw [hrollback] at hfailed
        cases hfailed
        refine ⟨(Option.some.inj hsome).symm, hnone, hx, fun hfault => ?_⟩
        rw [(hf hfault).2] at hnone
        cases hnone

/-- A failure that is told with a storage operation. -/
theorem Atomic.storing {act : Action (Database σ) α} {f : StateT σ (Except Failure) α}
    (hact : Atomic act f) (operation : Operation) :
    Atomic (Action.storing operation act) fun c => storageResult operation (f c) where
  of_ok {db db' a} hrest h := by
    simp only [Action.storing, Action.mapFailure] at h
    split at h
    · rename_i h1
      cases h
      obtain ⟨hf, hr, hx⟩ := hact.of_ok hrest h1
      exact ⟨by rw [hf]; rfl, hr, hx⟩
    · cases h
  of_error {db db' e} hrest h := by
    simp only [Action.storing, Action.mapFailure] at h
    split at h
    · cases h
    · rename_i h1
      cases h
      obtain ⟨hc, hr, hx, hf⟩ := hact.of_error hrest h1
      exact ⟨hc, hr, hx, fun hfault => by rw [hf hfault]; rfl⟩

/-- Without an injected fault a unit succeeds where its function does. -/
theorem Atomic.eq_ok {act : Action (Database σ) α} {f : StateT σ (Except Failure) α}
    (hact : Atomic act f) {db : Database σ} (hrest : db.AtRest) (hfault : db.fault = none)
    {a : α} {c : σ} (hf : f db.content = .ok (a, c)) :
    ∃ db', act db = .ok a db' ∧ db'.content = c ∧ db'.AtRest ∧ db'.fault = none := by
  cases h : act db with
  | ok a' db' =>
      obtain ⟨hf', hr, hx⟩ := hact.of_ok hrest h
      rw [hf] at hf'
      cases hf'
      exact ⟨db', rfl, rfl, hr, hx.trans hfault⟩
  | error e db' =>
      have := (hact.of_error hrest h).2.2.2 hfault
      rw [hf] at this
      cases this

/-- A transaction that succeeds began at rest. -/
theorem atRest_of_transaction {act : Action (Database σ) α} {db db' : Database σ} {a : α}
    (h : transaction act db = .ok a db') : db.AtRest := by
  unfold AtRest
  cases hb : db.before with
  | none => rfl
  | some c =>
      simp only [transaction, transactionEnding, begin, hb] at h
      cases h

end Database
end LightSync
