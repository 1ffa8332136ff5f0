import LightSync.Proofs.Cache.Storing

/-!
# Entries written as one

A batch of entries is written in one transaction. The index takes an entry or rejects it (`Taken`,
`Rejected`), and one fault ends the transaction when it strikes (`Ends`); then nothing is left to
roll back, and the handler of the cache is called, which does not return. So it is when the entries
are committed and the disk refuses the image. `Ended` lists the ways in which a batch can end;
`told` tells whether and with what the handler was called. `AllOrNothing` adds what an enclosing
batch of blocks leaves behind: its files, if what the handler throws tells that the index cannot be
trusted.
-/

set_option autoImplicit false

namespace LightSync

/-! ## Keys and faults -/

namespace Number

/-- The number is the key of a row: an integer of 64 bits. -/
def IsKey (a : Number) : Prop := ∃ k, a.toInt? = some k ∧ fitsWord k = true

/-- A number is a key, and then its own, or it is refused. -/
theorem rowKey_cases {a : Number} (h : a ≠ .nan) :
    a.IsKey ∧ a.rowKey = .ok (some a.truncate) ∨
      ¬ a.IsKey ∧ a.rowKey = .error .datatypeMismatch := by
  have hno {a : Number} (ha : a.toInt? = none) : ¬ a.IsKey := by
    rintro ⟨k, hk, -⟩
    rw [ha] at hk
    cases hk
  cases a with
  | int n =>
      by_cases hn : fitsWord n = true
      · refine Or.inl ⟨⟨n, rfl, hn⟩, ?_⟩
        show (if fitsWord n then _ else _) = _
        rw [if_pos hn]
        rfl
      · refine Or.inr ⟨?_, ?_⟩
        · rintro ⟨k, hk, hfits⟩
          cases hk
          exact hn hfits
        · show (if fitsWord n then _ else _) = _
          rw [if_neg hn]
  | negZero => exact Or.inl ⟨⟨0, rfl, rfl⟩, rfl⟩
  | fraction q => exact Or.inr ⟨hno rfl, rfl⟩
  | infinite negative => exact Or.inr ⟨hno rfl, rfl⟩
  | nan => exact absurd rfl h

end Number

/-- What the index keeps of facts. -/
def BlockFacts.kept (facts : BlockFacts) : BlockFacts where
  hash := facts.hash
  time := facts.time.kept
  saplingOutputs := facts.saplingOutputs.kept
  orchardActions := facts.orchardActions.kept

namespace FileCache

/-- The fault that strikes an entry. -/
def fault? (x : Option InjectedFault) (m : BlockMeta) : Option InjectedFault :=
  x.filter fun fault => fault.table = .blockIndex && fault.height.same m.height

/-- The index takes the entry: its height is a key, no fault strikes it, and there is something
for every column. -/
structure Taken (x : Option InjectedFault) (m : BlockMeta) : Prop where
  key : m.height.IsKey
  unstruck : fault? x m = none
  time : m.time ≠ .nan
  saplingOutputs : m.saplingOutputs ≠ .nan
  orchardActions : m.orchardActions ≠ .nan

/-- Why the index rejects an entry. A fault strikes only an entry that has a key, and strikes
before the columns are looked at. -/
inductive Rejected (x : Option InjectedFault) (m : BlockMeta) : StoreFault → Prop where
  | noKey (h : ¬ m.height.IsKey) : Rejected x m .datatypeMismatch
  | struck {fault : InjectedFault} (hkey : m.height.IsKey) (h : fault? x m = some fault) :
      Rejected x m .injected
  | emptyColumn {column : String} (hkey : m.height.IsKey) (hfault : fault? x m = none)
      (h : storedFacts m.toBlockFacts = .error (.notNull column)) :
      Rejected x m (.notNull column)

/-- The entry is struck by a fault that ends the transaction. -/
def Ends (x : Option InjectedFault) (m : BlockMeta) : Prop :=
  m.height.IsKey ∧ ∃ fault, fault? x m = some fault ∧ fault.endsTransaction = true

/-- Facts are kept, or one of them is missing. -/
theorem storedFacts_cases (facts : BlockFacts) :
    (facts.time ≠ .nan ∧ facts.saplingOutputs ≠ .nan ∧ facts.orchardActions ≠ .nan) ∧
        storedFacts facts = .ok facts.kept ∨
      ¬ (facts.time ≠ .nan ∧ facts.saplingOutputs ≠ .nan ∧ facts.orchardActions ≠ .nan) ∧
        ∃ column, storedFacts facts = .error (.notNull column) := by
  have hmissing {column : String} {a : Number} (ha : a = .nan) :
      storedIn column a = .error (.notNull column) := by rw [ha]; rfl
  have hkept {column : String} {a : Number} (ha : a ≠ .nan) : storedIn column a = .ok a.kept :=
    storedIn_of_ne_nan ha rfl
  unfold storedFacts
  -- the columns are looked at one after another, the first that is missing decides
  by_cases htime : facts.time = .nan
  · refine Or.inr ⟨fun h => h.1 htime, "compactblocks_meta.time", ?_⟩
    rw [hmissing htime]
    rfl
  · rw [hkept htime]
    by_cases hsapling : facts.saplingOutputs = .nan
    · refine Or.inr ⟨fun h => h.2.1 hsapling,
        "compactblocks_meta.sapling_outputs_count", ?_⟩
      rw [hmissing hsapling]
      rfl
    · rw [hkept hsapling]
      by_cases horchard : facts.orchardActions = .nan
      · refine Or.inr ⟨fun h => h.2.2 horchard,
          "compactblocks_meta.orchard_actions_count", ?_⟩
        rw [hmissing horchard]
        rfl
      · refine Or.inl ⟨⟨htime, hsapling, horchard⟩, ?_⟩
        rw [hkept horchard]
        rfl

/-- The index with an entry, in place of one for the same height. -/
def upsert (t : Keyed BlockFacts) (m : BlockMeta) : Keyed BlockFacts :=
  t.insert m.height.truncate m.toBlockFacts.kept

/-- An entry passes its key, then the fault, and then its columns. -/
theorem insertMeta_eq {m : BlockMeta} (h : m.height ≠ .nan) (db : Database (Keyed BlockFacts)) :
    insertMeta m db = match m.height.rowKey with
      | .error reason => .error (.store reason) db
      | .ok _ => match fault? db.fault m with
        | some fault => .error (.store .injected) (Database.strike fault db)
        | none => Database.run (fun t => (indexed m t).map fun t => (t, ())) db := by
  have hannounced : Table.announced .blockIndex m.height = m.height := by
    simp [Table.announced, h]
  unfold insertMeta Database.insert
  rw [hannounced]
  rfl

theorem insertMeta_taken {m : BlockMeta} {db : Database (Keyed BlockFacts)}
    (hheight : m.height ≠ .nan) (h : Taken db.fault m) :
    insertMeta m db = .ok () (db.changed (upsert db.content m)) := by
  rcases m.height.rowKey_cases hheight with ⟨-, hkey⟩ | ⟨hkey, -⟩
  · rcases storedFacts_cases m.toBlockFacts with ⟨-, hfacts⟩ | ⟨hmissing, -⟩
    · have hindexed : indexed m db.content = .ok (upsert db.content m) :=
        Except.bind_eq_ok.2 ⟨_, hkey, Except.bind_eq_ok.2 ⟨_, hfacts, rfl⟩⟩
      rw [insertMeta_eq hheight, hkey, h.unstruck]
      show Database.run _ db = _
      rw [Database.run, hindexed]
      rfl
    · exact absurd ⟨h.time, h.saplingOutputs, h.orchardActions⟩ hmissing
  · exact absurd h.key hkey

/-- A fault that ends the transaction restores the content that it began with. -/
theorem insertMeta_ends {m : BlockMeta} {db : Database (Keyed BlockFacts)}
    {t : Keyed BlockFacts} (hheight : m.height ≠ .nan) (h : Ends db.fault m)
    (hopen : db.before = some t) :
    insertMeta m db = .error (.store .injected) { db with content := t, before := none } := by
  obtain ⟨hkey, fault, hfault, hends⟩ := h
  rcases m.height.rowKey_cases hheight with ⟨-, hrow⟩ | ⟨hno, -⟩
  · rw [insertMeta_eq hheight, hrow, hfault]
    simp only [Database.strike, hends, hopen]
  · exact absurd hkey hno

/-! ## A run of entries -/

/-- The index with entries put in from left to right. -/
def upsertAll (metas : List BlockMeta) (t : Keyed BlockFacts) : Keyed BlockFacts :=
  metas.foldl upsert t

/-- Entries that are taken are all put in, and the transaction stays open. -/
theorem forM_insertMeta_taken {metas : List BlockMeta} {db : Database (Keyed BlockFacts)}
    (hheights : ∀ m ∈ metas, m.height ≠ .nan) (htaken : ∀ m ∈ metas, Taken db.fault m)
    (hopen : db.inTransaction = true) :
    ∃ unsaved, metas.forM insertMeta db =
      .ok () { db with content := upsertAll metas db.content, unsaved } := by
  -- while the transaction is open, an entry changes the content and nothing else
  induction metas generalizing db with
  | nil => exact ⟨db.unsaved, rfl⟩
  | cons m metas ih =>
      have hm := insertMeta_taken (hheights m List.mem_cons_self) (htaken m List.mem_cons_self)
      rw [Database.changed_of_inTransaction hopen] at hm
      obtain ⟨unsaved, hrest⟩ :=
        @ih { db with content := upsert db.content m, unsaved := true }
          (fun n hn => hheights n (List.mem_cons_of_mem m hn))
          (fun n hn => htaken n (List.mem_cons_of_mem m hn)) hopen
      exact ⟨unsaved, Action.bind_eq_ok.2 ⟨(), _, hm, hrest⟩⟩

section transaction

variable {before metas rest : List BlockMeta} {m : BlockMeta} {db : Database (Keyed BlockFacts)}
  {faults : List DiskFault}

/-- A batch fails as its first rejected entry does, on what the entries before it came to. -/
theorem commit_stops {fault : StoreFault}
    {f : Database (Keyed BlockFacts) → Database (Keyed BlockFacts)}
    (hheights : ∀ n ∈ before, n.height ≠ .nan) (hbefore : ∀ n ∈ before, Taken db.fault n)
    (hm : ∀ content unsaved, insertMeta m { begun db with content, unsaved } =
      .error (.store fault) (f { begun db with content, unsaved })) :
    ∃ content unsaved, (do (before ++ m :: rest).forM insertMeta; commitIndex faults) (begun db) =
      .error (.store fault) (f { begun db with content, unsaved }) := by
  obtain ⟨unsaved, hrun⟩ := @forM_insertMeta_taken before (begun db) hheights hbefore rfl
  have hsplit : (before ++ m :: rest).forM insertMeta =
      (before.forM insertMeta >>= fun _ => (m :: rest).forM insertMeta) := List.forM_append
  refine ⟨upsertAll before db.content, unsaved, Action.bind_eq_error.2 (Or.inl ?_)⟩
  rw [hsplit]
  refine Action.bind_eq_error.2 (Or.inr ⟨(), _, hrun, ?_⟩)
  exact Action.bind_eq_error.2 (Or.inl (hm _ _))

end transaction

/-! ## How a batch ends -/

/-- The first entry of a batch that the index rejects. -/
def FirstRejected (x : Option InjectedFault) (metas : List BlockMeta) (m : BlockMeta) : Prop :=
  ∃ before rest, metas = before ++ m :: rest ∧ (∀ n ∈ before, Taken x n) ∧ ¬ Taken x m

/-- The index as it was, with no transaction open. -/
def settled (db : Database (Keyed BlockFacts)) (unsaved : Bool) : Database (Keyed BlockFacts) :=
  { db with before := none, inTransaction := false, unsaved }

/-- What the handler is called with: the entry that was struck, and the rollback that found no
transaction. -/
def batchLost : Failure := .unrecoverable (.store .injected) (.store .noRollback)

/-- What the handler is called with when the entries are committed and their image is refused: there
is nothing to roll back either. -/
def imageLost (reason : String) : Failure :=
  .unrecoverable (.store (.device reason)) (.store .noRollback)

/-- How writing entries ends. -/
inductive Ended (metas : List BlockMeta) (c : FileCache) :
    EStateM.Result Failure FileCache Unit → Prop where
  /-- Every entry is taken, and all of them are in the index. -/
  | written {index : Database (Keyed BlockFacts)} (hrest : c.index.AtRest)
      (htaken : ∀ m ∈ metas, Taken c.index.fault m)
      (hcontent : index.content = upsertAll metas c.index.content)
      (hclosed : index.before = none ∧ index.inTransaction = false) :
      Ended metas c (.ok () { c with index })
  /-- An entry is rejected, and what was written before it is undone. -/
  | undone {m : BlockMeta} {reason : StoreFault} {unsaved : Bool} (hrest : c.index.AtRest)
      (hfirst : FirstRejected c.index.fault metas m) (hreason : Rejected c.index.fault m reason)
      (hgoes : ¬ Ends c.index.fault m) :
      Ended metas c (.error (.storage .writeIndexBatch (.store reason))
        { c with index := settled c.index unsaved })
  /-- An entry is struck and the transaction ended by it. The handler is called, once, and what it
  throws is what writing the entries throws. -/
  | givenUp {m : BlockMeta} {unsaved : Bool} (hrest : c.index.AtRest)
      (hfirst : FirstRejected c.index.fault metas m) (hends : Ends c.index.fault m) :
      Ended metas c (.error (c.handler batchLost c.told)
        { c with index := settled c.index unsaved, told := c.told ++ [batchLost] })
  /-- All entries are in the index, but the disk refuses its image. The handler is called, once. -/
  | unsaved {index : Database (Keyed BlockFacts)} {reason : String} (hrest : c.index.AtRest)
      (htaken : ∀ m ∈ metas, Taken c.index.fault m)
      (himage : DiskFault.image? c.faults = some reason)
      (hcontent : index.content = upsertAll metas c.index.content)
      (hclosed : index.before = none ∧ index.inTransaction = false) :
      Ended metas c (.error (c.handler (imageLost reason) c.told)
        { c with index, told := c.told ++ [imageLost reason] })
  /-- A transaction was open already, and nothing is tried. -/
  | nested {t : Keyed BlockFacts} (hopen : c.index.before = some t) :
      Ended metas c (.error (.storage .beginIndexBatch (.store .nestedTransaction)) c)

section ended

variable {metas : List BlockMeta} {m : BlockMeta} {c : FileCache}

/-- A batch whose first rejected entry ends the transaction is given up. -/
theorem writeMetadata_ends (hheights : ∀ m ∈ metas, m.height ≠ .nan)
    (hrest : c.index.AtRest) (hfirst : FirstRejected c.index.fault metas m)
    (hends : Ends c.index.fault m) :
    ∃ unsaved, writeMetadata metas c = .error (c.handler batchLost c.told)
      { c with index := settled c.index unsaved, told := c.told ++ [batchLost] } := by
  obtain ⟨before, rest, rfl, hbefore, -⟩ := hfirst
  have hm := hheights m (List.mem_append_right _ List.mem_cons_self)
  obtain ⟨content, unsaved, hrun⟩ := @commit_stops before rest m c.index c.faults .injected
    (fun db => { db with content := c.index.content, before := none })
    (fun n hn => hheights n (List.mem_append_left _ hn)) hbefore
    (fun content unsaved => insertMeta_ends hm hends rfl)
  refine ⟨unsaved, ?_⟩
  -- the engine has ended the transaction, so that the rollback finds none
  simp only [writeMetadata, begin_of_atRest hrest, hrun, Database.rollback]
  rfl

theorem Ended.of_ok {c' : FileCache} (h : Ended metas c (.ok () c')) :
    c'.index.content = upsertAll metas c.index.content ∧ c'.index.AtRest ∧
      c'.index.inTransaction = false ∧ c'.told = c.told := by
  cases h with
  | written hrest htaken hcontent hclosed => exact ⟨hcontent, hclosed.1, hclosed.2, rfl⟩

theorem Ended.of_error {e : Failure} {c' : FileCache} (h : Ended metas c (.error e c')) :
    c'.files = c.files ∧
      (c.index.AtRest → c'.index.AtRest ∧ c'.index.inTransaction = false) ∧
      (DiskFault.image? c.faults = none → c'.index.content = c.index.content) := by
  cases h with
  | undone => exact ⟨rfl, fun _ => ⟨rfl, rfl⟩, fun _ => rfl⟩
  | givenUp => exact ⟨rfl, fun _ => ⟨rfl, rfl⟩, fun _ => rfl⟩
  | unsaved hrest htaken himage hcontent hclosed =>
      refine ⟨rfl, fun _ => hclosed, fun hnone => ?_⟩
      rw [himage] at hnone
      cases hnone
  | nested hopen =>
      refine ⟨rfl, fun hrest => ?_, fun _ => rfl⟩
      rw [Database.AtRest, hopen] at hrest
      cases hrest

end ended

/-! ## Files of a batch that is given up -/

/-- A batch of blocks whose files are all written, and one of whose entries is struck by a fault that
ends the transaction. -/
structure Loses (c : FileCache) (bs : List Block) (ps : List Parcel) : Prop where
  atRest : c.index.AtRest
  parcels : onePerHeight bs = ps.map Parcel.block
  writes : ∀ p ∈ ps, DiskFault.write? c.faults p.name = none
  struck : ∃ m, FirstRejected c.index.fault (ps.map Parcel.entry) m ∧ Ends c.index.fault m

/-- The cache with all files of such a batch. -/
def lost (c : FileCache) (ps : List Parcel) (unsaved : Bool) : FileCache :=
  { c with
    files := writeAll c.files ps, index := settled c.index unsaved, told := c.told ++ [batchLost] }

/-- A batch of blocks whose entries are given up keeps the files that it wrote, if what the handler
throws tells that the index cannot be trusted; otherwise the new ones are discarded. -/
theorem Loses.insertBlocks {bs : List Block} {ps : List Parcel} {c : FileCache}
    (h : c.Loses bs ps) :
    ∃ unsaved created, Adds c ps created ∧ FileCache.insertBlocks bs c = .error (c.handler batchLost c.told)
        (if leavesFiles (c.handler batchLost c.told) then c.lost ps unsaved
          else (c.lost ps unsaved).discardFiles created) := by
  obtain ⟨m, hfirst, hends⟩ := h.struck
  have hheights : ∀ m ∈ ps.map Parcel.entry, m.height ≠ .nan := by
    intro m hm
    obtain ⟨p, -, rfl⟩ := List.mem_map.1 hm
    rw [p.height_entry]
    exact Number.ne_nan_of_toInt? p.word_key.1
  obtain ⟨unsaved, hmeta⟩ :=
    @writeMetadata_ends (ps.map Parcel.entry) m (c.withFiles ps) hheights h.atRest hfirst hends
  obtain ⟨created, hcreated, hinsert⟩ := insertBlocks_of_writes h.parcels h.writes
  refine ⟨unsaved, created, hcreated, ?_⟩
  rw [hinsert, hmeta]
  rfl

/-! ## All or nothing -/

/-- A cache with one entry, where a fault strikes at height 2 and ends the transaction. -/
def struckFiles (handler : Handler) : FileCache :=
  let index := Database.connect (Keyed.empty.insert 1 ⟨[9], 4, 0, 0⟩) .memory
  { root := "/", index := { index with fault := some ⟨.blockIndex, 2, true⟩ }, files := []
    faults := [], handler, told := [] }

/-- A failure of its own that a handler throws is taken for one of those that leave the index as it
was: the files of the batch are gone, while a handler that hands its failure on keeps them. -/
theorem insertBlocks_discards_of_own_failure :
    let batch := [linkedBlock 1 1 0 [], linkedBlock 2 2 1 []]
    let own : Handler := fun _ _ => .thrown "fatal"
    (insertBlocks batch).failure? (struckFiles own) = some (.thrown "fatal") ∧
      ((insertBlocks batch).after (struckFiles own)).files = [] ∧
      ((insertBlocks batch).after (struckFiles Handler.rethrow)).files.length = 2 := by
  decide +kernel

end FileCache

end LightSync
