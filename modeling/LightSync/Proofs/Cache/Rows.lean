import LightSync.Proofs.Cache.Parcel
import LightSync.Proofs.Cache.Traversal
import LightSync.Proofs.Store.Keyed
import LightSync.Proofs.Store.Transaction

/-!
# What a row cache holds

The operations of a row cache as functions of its table. Every block of a batch is encoded before
a row is written, and the rows are written in one transaction, so a batch puts the encoded blocks
into the table (`insertBlocks_ok`) or changes nothing (`insertBlocks_error`).
-/

set_option autoImplicit false

namespace LightSync
namespace RowCache

open Database (Enacts Atomic inserting)

/-! ## Rows -/

/-- The table with one more row. -/
def putRow (height : Number) (data : Bytes) (t : Keyed Bytes) : Except StoreFault (Keyed Bytes) := do
  let key ← height.rowKey
  return t.insert (key.getD t.nextKey) data

theorem enacts_insertRow (height : Number) (data : Bytes) :
    Enacts (insertRow height data) (inserting (putRow height data)) := by
  refine Database.enacts_insert fun fault _ hkey t => ?_
  show (height.rowKey >>= _) = _
  rw [hkey]
  rfl

/-- An encoded block goes under its height. -/
theorem putRow_of_encode {b : Block} {data : Bytes} (h : b.encode = .ok data) (t : Keyed Bytes) :
    putRow b.height data t = .ok (t.insert (rowOf b).1 (rowOf b).2) := by
  obtain ⟨n, hn, h0, hlt⟩ := Number.toInt?_of_isWord32 (Block.isWord32_of_encode h).1
  have hrow : rowOf b = (n, data) := by
    rw [rowOf, h, Number.truncate_of_toInt? hn]
  rw [hrow]
  exact Except.bind_eq_ok.2 ⟨some n, Number.rowKey_of_word hn h0 hlt, rfl⟩

/-- Blocks that are encoded, in the order in which they were given. -/
theorem mapM_encoded {bs : List Block} {rows : List (Number × Bytes)}
    (h : bs.mapM encoded = .ok rows) :
    (∀ b ∈ bs, ∃ data, b.encode = .ok data) ∧
      ∀ t, rows.forM (fun row => inserting (putRow row.1 row.2)) t =
        .ok (PUnit.unit, t.insertAll (bs.map rowOf)) := by
  induction bs generalizing rows with
  | nil =>
      cases h
      exact ⟨nofun, fun _ => rfl⟩
  | cons b bs ih =>
      rw [List.mapM_cons] at h
      obtain ⟨row, hrow, h⟩ := Except.bind_eq_ok.1 h
      obtain ⟨rest, hrest, h⟩ := Except.bind_eq_ok.1 h
      obtain ⟨data, hdata, hb⟩ := Except.bind_eq_ok.1 hrow
      cases h
      cases hb
      obtain ⟨hall, hput⟩ := ih hrest
      refine ⟨fun x hx => ?_, fun t => ?_⟩
      · rcases List.mem_cons.1 hx with rfl | hx
        · exact ⟨data, hdata⟩
        · exact hall x hx
      · refine StateT.bind_eq_ok.2 ⟨(), t.insert (rowOf b).1 (rowOf b).2, ?_, hput _⟩
        exact Database.inserting_eq_ok.2 (putRow_of_encode hdata t)

/-- Blocks that can be encoded are. -/
theorem mapM_encoded_of_encode {bs : List Block} (h : ∀ b ∈ bs, ∃ data, b.encode = .ok data) :
    ∃ rows, bs.mapM encoded = .ok rows := by
  induction bs with
  | nil => exact ⟨[], rfl⟩
  | cons b bs ih =>
      obtain ⟨data, hdata⟩ := h b List.mem_cons_self
      obtain ⟨rows, hrows⟩ := ih fun x hx => h x (List.mem_cons_of_mem b hx)
      have hb : encoded b = .ok (b.height, data) := Except.bind_eq_ok.2 ⟨data, hdata, rfl⟩
      refine ⟨(b.height, data) :: rows, ?_⟩
      rw [List.mapM_cons]
      exact Except.bind_eq_ok.2 ⟨_, hb, Except.bind_eq_ok.2 ⟨rows, hrows, rfl⟩⟩

/-! ## Operations on the database -/

variable {c c' : RowCache} {α : Type} {act : Action (Database (Keyed Bytes)) α} {op : Operation}

theorem storing_onDatabase_ok {a : α} (h : Action.storing op (onDatabase act) c = .ok a c') :
    ∃ db, act c.db = .ok a db ∧ c' = { c with db } := by
  unfold Action.storing Action.mapFailure onDatabase Action.within at h
  cases hact : act c.db with
  | ok a1 db =>
      rw [hact] at h
      cases h
      exact ⟨db, rfl, rfl⟩
  | error e db =>
      rw [hact] at h
      cases h

theorem storing_onDatabase_error {e : Failure}
    (h : Action.storing op (onDatabase act) c = .error e c') :
    ∃ e' db, act c.db = .error e' db ∧ c' = { c with db } := by
  unfold Action.storing Action.mapFailure onDatabase Action.within at h
  cases hact : act c.db with
  | ok a db =>
      rw [hact] at h
      cases h
  | error e1 db =>
      rw [hact] at h
      cases h
      exact ⟨e1, db, rfl, rfl⟩

theorem storing_onDatabase_of_ok {a : α} {db : Database (Keyed Bytes)}
    (h : act c.db = .ok a db) :
    Action.storing op (onDatabase act) c = .ok a { c with db } := by
  unfold Action.storing Action.mapFailure onDatabase Action.within
  rw [h]

/-- The rows of a batch, in one transaction. -/
theorem atomic_writeRows (rows : List (Number × Bytes)) :
    Atomic (Database.transaction (rows.forM fun row => insertRow row.1 row.2))
      (rows.forM fun row => inserting (putRow row.1 row.2)) := by
  refine Enacts.transaction ?_
  exact @Enacts.forM _ _ rows (fun row => insertRow row.1 row.2)
    (fun row => inserting (putRow row.1 row.2)) fun row => enacts_insertRow row.1 row.2

/-! ## Batches -/

theorem insertBlocks_eq (bs : List Block) (c : RowCache) :
    insertBlocks bs c = match bs.mapM encoded with
      | .error e => .error e c
      | .ok rows => Action.storing .insertBlocks
          (onDatabase (Database.transaction (rows.forM fun row => insertRow row.1 row.2))) c := by
  unfold insertBlocks
  rw [Action.bind_apply]
  cases bs.mapM encoded with
  | ok rows => rfl
  | error e => rfl

/-- **A batch that is stored puts its encoded blocks into the table.** -/
theorem insertBlocks_ok (hrest : c.db.AtRest) {bs : List Block}
    (h : insertBlocks bs c = .ok () c') :
    (∀ b ∈ bs, ∃ data, b.encode = .ok data) ∧ c'.db.AtRest ∧ c'.db.fault = c.db.fault ∧
      c'.db.content = c.db.content.insertAll (bs.map rowOf) := by
  rw [insertBlocks_eq] at h
  cases hmap : bs.mapM encoded with
  | error e =>
      rw [hmap] at h
      cases h
  | ok rows =>
      rw [hmap] at h
      obtain ⟨hall, hput⟩ := mapM_encoded hmap
      obtain ⟨db, hact, rfl⟩ := storing_onDatabase_ok h
      obtain ⟨hcontent, hr, hfault⟩ := (atomic_writeRows rows).of_ok hrest hact
      rw [hput] at hcontent
      exact ⟨hall, hr, hfault, (Prod.mk.inj (Except.ok.inj hcontent)).2.symm⟩

/-- **A batch that fails changes nothing.** -/
theorem insertBlocks_error (hrest : c.db.AtRest) {bs : List Block} {e : Failure}
    (h : insertBlocks bs c = .error e c') :
    c'.db.content = c.db.content ∧ c'.db.AtRest ∧ c'.db.fault = c.db.fault := by
  rw [insertBlocks_eq] at h
  cases hmap : bs.mapM encoded with
  | error e1 =>
      rw [hmap] at h
      cases h
      exact ⟨rfl, hrest, rfl⟩
  | ok rows =>
      rw [hmap] at h
      obtain ⟨e1, db, hact, rfl⟩ := storing_onDatabase_error h
      obtain ⟨hcontent, hr, hfault, -⟩ := (atomic_writeRows rows).of_error hrest hact
      exact ⟨hcontent, hr, hfault⟩

/-- Blocks that can be encoded are stored where no fault is injected. -/
theorem insertBlocks_of_encode (hrest : c.db.AtRest) (hfault : c.db.fault = none)
    {bs : List Block} (h : ∀ b ∈ bs, ∃ data, b.encode = .ok data) :
    ∃ c', insertBlocks bs c = .ok () c' := by
  obtain ⟨rows, hrows⟩ := mapM_encoded_of_encode h
  obtain ⟨db, hact, -⟩ := (atomic_writeRows rows).eq_ok hrest hfault ((mapM_encoded hrows).2 _)
  rw [insertBlocks_eq, hrows]
  exact ⟨_, storing_onDatabase_of_ok hact⟩

/-! ## Single blocks and truncation -/

theorem insertBlock_eq (b : Block) (c : RowCache) :
    insertBlock b c = match b.encode with
      | .error e => .error e c
      | .ok data => Action.storing .insertBlock (onDatabase (insertRow b.height data)) c := by
  unfold insertBlock
  rw [Action.bind_apply]
  cases b.encode with
  | ok data => rfl
  | error e => rfl

theorem insertBlock_ok (hrest : c.db.AtRest) {b : Block} (h : insertBlock b c = .ok () c') :
    (∃ data, b.encode = .ok data) ∧ c'.db.AtRest ∧ c'.db.fault = c.db.fault ∧
      c'.db.content = c.db.content.insert (rowOf b).1 (rowOf b).2 := by
  rw [insertBlock_eq] at h
  cases hdata : b.encode with
  | error e =>
      rw [hdata] at h
      cases h
  | ok data =>
      rw [hdata] at h
      obtain ⟨db, hact, rfl⟩ := storing_onDatabase_ok h
      obtain ⟨hcontent, hbefore, hfault⟩ := (enacts_insertRow b.height data).of_ok hact
      have hput := Database.inserting_eq_ok.1 hcontent
      rw [putRow_of_encode hdata] at hput
      exact ⟨⟨data, rfl⟩, hbefore.trans hrest, hfault, (Except.ok.inj hput).symm⟩

/-- A block that is not stored changes nothing. -/
theorem insertBlock_error (hrest : c.db.AtRest) {b : Block} {e : Failure}
    (h : insertBlock b c = .error e c') :
    c'.db.content = c.db.content ∧ c'.db.AtRest ∧ c'.db.fault = c.db.fault := by
  rw [insertBlock_eq] at h
  cases hdata : b.encode with
  | error e1 =>
      rw [hdata] at h
      cases h
      exact ⟨rfl, hrest, rfl⟩
  | ok data =>
      rw [hdata] at h
      obtain ⟨e1, db, hact, rfl⟩ := storing_onDatabase_error h
      rw [Database.eq_of_insert_error hrest hact]
      exact ⟨rfl, hrest, rfl⟩

/-- Truncating drops what lies above a height, and cannot fail. -/
theorem truncate_ok (hrest : c.db.AtRest) (height : Number) :
    ∃ c', truncate height c = .ok () c' ∧ c'.db.AtRest ∧ c'.db.fault = c.db.fault ∧
      c'.db.content = c.db.content.upTo height := by
  obtain ⟨db, hact, hcontent, hbefore, hfault⟩ :=
    Database.succeeds_run (fun t : Keyed Bytes => (t.upTo height, ())) c.db
  exact ⟨{ c with db }, storing_onDatabase_of_ok hact, hbefore.trans hrest, hfault, hcontent⟩

end RowCache
end LightSync
