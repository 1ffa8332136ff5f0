import LightSync.Proofs.Cache.Directory
import LightSync.Proofs.Cache.Parcel
import LightSync.Proofs.Store.Keyed
import LightSync.Proofs.Store.Transaction

/-!
# Batches of block files

Writing the files of a batch either gets through, and then the batch consists of parcels, or stops
at the first block that is none or whose file the disk refuses (`forM_writeFile`). What was written
by then, which files are new and which entries are replaced is read off the parcels
(`Batch.Wrote`). Writing the entries is all or nothing (`writeMetadata_ok`, `writeMetadata_error`),
unless the disk refuses the image of the index and the handler makes nothing of it.
-/

set_option autoImplicit false

namespace LightSync

/-! ## Writing files -/

/-- The failure of a write that the disk refused. -/
def Parcel.unwritten (p : Parcel) (reason : String) : Failure :=
  .storage (.writeBlockFile p.block.height) (.store (.device reason))

/-- What the handler throws tells that the index cannot be trusted: it hands the failure on, or ends
the process. -/
def Handler.Conveys (handler : Handler) : Prop :=
  ∀ first second told, FileCache.leavesFiles (handler (.unrecoverable first second) told) = true

namespace FileCache

/-- An index that was changed although its image was refused is not trusted. -/
def Candid (c : FileCache) : Prop := DiskFault.image? c.faults = none ∨ c.handler.Conveys

/-- A batch with the file of one more parcel. -/
def Batch.add (batch : Batch) (p : Parcel) : Batch where
  cache := { batch.cache with files := batch.cache.files.write p.name p.data }
  metas := batch.metas ++ [p.entry]
  created :=
    if (batch.cache.files.read? p.name).isSome then batch.created else batch.created ++ [p.name]
  replaced := batch.replaced ++
    ((batch.cache.meta? p.entry.height).filter fun m => m.hash ≠ p.entry.hash).toList

/-- A batch at a parcel whose file is not written to its end. -/
def Batch.stopAt (batch : Batch) (p : Parcel) (written : Option Nat) : Batch where
  cache := { batch.cache with
    files := batch.cache.files.writePart p.name p.data written }
  metas := batch.metas
  created := batch.created
  replaced := (batch.add p).replaced

/-- The file of a parcel is written, unless the disk refuses it. -/
theorem writeFile_block (p : Parcel) (batch : Batch) : writeFile p.block batch =
    match DiskFault.write? batch.cache.faults p.name with
    | none => .ok () (batch.add p)
    | some (written, reason) => .error (p.unwritten reason) (batch.stopAt p written) := by
  have hput : putFile p.entry p.data batch.cache =
      match DiskFault.write? batch.cache.faults p.name with
      | none => .ok () { batch.cache with files := batch.cache.files.write p.name p.data }
      | some (written, reason) => .error (.store (.device reason))
          { batch.cache with files := batch.cache.files.writePart p.name p.data written } :=
    if_pos p.isNameable_entry
  unfold writeFile Parcel.unwritten
  rw [p.ofBlock, p.encode, ← p.height_entry]
  show writeEntry p.entry p.data batch = _
  simp only [writeEntry, Action.storing, Action.mapFailure, hput]
  cases DiskFault.write? batch.cache.faults p.name <;> rfl

/-- The reason why a block is no parcel. -/
def refusal? (b : Block) : Option Failure :=
  match BlockMeta.ofBlock b, b.encode with
  | .error e, _ => some e
  | .ok _, .error e => some e
  | .ok _, .ok _ => none

/-- A block is a parcel, or is refused before anything is written for it. -/
theorem writeFile_cases (b : Block) : (∃ p : Parcel, p.block = b) ∨
    ∃ e, refusal? b = some e ∧ ∀ batch, writeFile b batch = .error e batch := by
  cases hentry : BlockMeta.ofBlock b with
  | error e =>
      refine Or.inr ⟨e, ?_, fun batch => ?_⟩
      · rw [refusal?, hentry]
      · unfold writeFile
        rw [hentry]
        rfl
  | ok entry =>
      cases hdata : b.encode with
      | error e =>
          refine Or.inr ⟨e, ?_, fun batch => ?_⟩
          · rw [refusal?, hentry, hdata]
          · unfold writeFile
            rw [hentry, hdata]
            rfl
      | ok data => exact Or.inl ⟨⟨b, entry, data, hentry, hdata⟩, rfl⟩

/-- Why a batch stops at a block, and what that does to the files: the block is no parcel, or the
disk refuses its file. -/
inductive StopsAt (faults : List DiskFault) (b : Block) :
    Failure → (Directory → Directory) → Prop where
  | refused {e : Failure} (h : refusal? b = some e) : StopsAt faults b e id
  | unwritten {p : Parcel} {written : Option Nat} {reason : String} (hp : p.block = b)
      (h : DiskFault.write? faults p.name = some (written, reason)) :
      StopsAt faults b (p.unwritten reason) (Directory.writePart p.name p.data written)

/-- A disk that refuses nothing stops no batch. -/
theorem StopsAt.refusal?_eq {faults : List DiskFault} {b : Block} {e : Failure}
    {part : Directory → Directory} (h : StopsAt faults b e part) (hdisk : faults = []) :
    refusal? b = some e := by
  cases h with
  | refused h => exact h
  | unwritten hp hfault =>
      rw [hdisk] at hfault
      cases hfault

/-- The files of a batch are written up to the first block at which it stops, if there is one. -/
theorem forM_writeFile (bs : List Block) (batch : Batch) :
    (∃ ps : List Parcel, bs = ps.map Parcel.block ∧
      ∀ p ∈ ps, DiskFault.write? batch.cache.faults p.name = none) ∨
    ∃ (ps : List Parcel) (b : Block) (rest : List Block) (e : Failure)
      (part : Directory → Directory) (replaced : List BlockMeta),
      bs = ps.map Parcel.block ++ b :: rest ∧ StopsAt batch.cache.faults b e part ∧
      bs.forM writeFile batch = .error e
        { ps.foldl Batch.add batch with
          cache := { (ps.foldl Batch.add batch).cache with
            files := part (ps.foldl Batch.add batch).cache.files }
          replaced } := by
  -- the first block either is written and the rest on top of it, or stops the batch
  induction bs generalizing batch with
  | nil => exact Or.inl ⟨[], rfl, List.forall_mem_nil _⟩
  | cons b bs ih =>
      have hcons : (b :: bs).forM writeFile batch =
          (writeFile b >>= fun _ => bs.forM writeFile) batch := rfl
      rcases writeFile_cases b with ⟨p, rfl⟩ | ⟨e, hrefused, he⟩
      · cases hfault : DiskFault.write? batch.cache.faults p.name with
        | none =>
            have hnext : (p.block :: bs).forM writeFile batch =
                bs.forM writeFile (batch.add p) := by
              rw [hcons, Action.bind_apply, writeFile_block, hfault]
            rcases ih (batch.add p) with
              ⟨ps, rfl, hps⟩ | ⟨ps, b, rest, e, part, replaced, rfl, hstop, h⟩
            · exact Or.inl ⟨p :: ps, rfl, List.forall_mem_cons.2 ⟨hfault, hps⟩⟩
            · refine Or.inr ⟨p :: ps, b, rest, e, part, replaced, rfl, hstop, ?_⟩
              rw [List.foldl_cons]
              exact hnext.trans h
        | some fault =>
            obtain ⟨written, reason⟩ := fault
            refine Or.inr ⟨[], p.block, bs, _, _, (batch.add p).replaced, rfl,
              .unwritten rfl hfault, ?_⟩
            rw [hcons, Action.bind_apply, writeFile_block, hfault]
            rfl
      · refine Or.inr ⟨[], b, bs, e, id, batch.replaced, rfl, .refused hrefused, ?_⟩
        rw [hcons, Action.bind_apply, he]
        rfl

/-- The files of parcels are all written, unless the disk refuses one. -/
theorem forM_writeFile_parcels {ps : List Parcel} {batch : Batch}
    (h : ∀ p ∈ ps, DiskFault.write? batch.cache.faults p.name = none) :
    (ps.map Parcel.block).forM writeFile batch = .ok () (ps.foldl Batch.add batch) := by
  induction ps generalizing batch with
  | nil => rfl
  | cons p ps ih =>
      have hp : writeFile p.block batch = .ok () (batch.add p) := by
        rw [writeFile_block, h p List.mem_cons_self]
      exact Action.bind_eq_ok.2 ⟨(), _, hp, ih fun q hq => h q (List.mem_cons_of_mem p hq)⟩

/-! ## What was written -/

/-- A directory once the files of parcels are written, one after another. -/
def writeAll (d : Directory) (ps : List Parcel) : Directory :=
  ps.foldl (fun d p => d.write p.name p.data) d

theorem read?_writeAll_of_notMem {d : Directory} {ps : List Parcel} {name : String}
    (h : ∀ p ∈ ps, p.name ≠ name) : (writeAll d ps).read? name = d.read? name := by
  induction ps generalizing d with
  | nil => rfl
  | cons p ps ih =>
      have hp : name ≠ p.name := fun heq => h p List.mem_cons_self heq.symm
      calc (writeAll (d.write p.name p.data) ps).read? name
        _ = (d.write p.name p.data).read? name := ih fun q hq => h q (List.mem_cons_of_mem p hq)
        _ = d.read? name := by rw [Directory.read?_write, if_neg hp]

theorem read?_writeAll_of_mem {d : Directory} {ps : List Parcel} {p : Parcel}
    (hkeys : (ps.map Parcel.key).Nodup) (hp : p ∈ ps) :
    (writeAll d ps).read? p.name = some p.data := by
  induction ps generalizing d with
  | nil => cases hp
  | cons q ps ih =>
      obtain ⟨hq, hrest⟩ := List.nodup_cons.1 hkeys
      rcases List.mem_cons.1 hp with rfl | hp
      · -- no later parcel has its key, hence none has its name
        have hlater : ∀ x ∈ ps, x.name ≠ p.name := by
          intro x hx hname
          exact hq (List.mem_map.2 ⟨x, hx, (Parcel.name_inj.1 hname).1⟩)
        calc (writeAll (d.write p.name p.data) ps).read? p.name
          _ = (d.write p.name p.data).read? p.name := read?_writeAll_of_notMem hlater
          _ = some p.data := by rw [Directory.read?_write, if_pos rfl]
      · exact ih hrest hp

theorem isSome_read?_writeAll (d : Directory) (ps : List Parcel) (name : String) :
    ((writeAll d ps).read? name).isSome = true ↔
      (d.read? name).isSome = true ∨ ∃ p ∈ ps, p.name = name := by
  induction ps generalizing d with
  | nil => simp [writeAll]
  | cons p ps ih =>
      show ((writeAll (d.write p.name p.data) ps).read? name).isSome = true ↔ _
      rw [ih, Directory.read?_write]
      by_cases hname : name = p.name
      · simp [hname]
      · have hne : ¬ p.name = name := fun heq => hname heq.symm
        simp [hname, hne]

theorem distinct_writeAll {d : Directory} (h : d.Distinct) (ps : List Parcel) :
    (writeAll d ps).Distinct := by
  induction ps generalizing d with
  | nil => exact h
  | cons p ps ih => exact ih (h.write p.name p.data)

/-- The entries that parcels replace by entries with another hash. -/
def replacedBy (c : FileCache) (ps : List Parcel) : List BlockMeta :=
  ps.flatMap fun p => ((c.meta? p.block.height).filter fun m => m.hash ≠ p.entry.hash).toList

/-- The names are those of the files that parcels add to the files of a cache. -/
def Adds (c : FileCache) (ps : List Parcel) (names : List String) : Prop :=
  ∀ name, name ∈ names ↔ c.files.read? name = none ∧ ∃ p ∈ ps, p.name = name

/-- What a batch on `c` has come to when the files of `ps` are written. -/
structure Batch.Wrote (c : FileCache) (ps : List Parcel) (batch : Batch) : Prop where
  cache : batch.cache = { c with files := writeAll c.files ps }
  metas : batch.metas = ps.map Parcel.entry
  created : Adds c ps batch.created
  replaced : batch.replaced = replacedBy c ps

theorem Batch.Wrote.add {c : FileCache} {ps : List Parcel} {batch : Batch}
    (h : Batch.Wrote c ps batch) (p : Parcel) : Batch.Wrote c (ps ++ [p]) (batch.add p) := by
  have hfiles : batch.cache.files = writeAll c.files ps := by rw [h.cache]
  constructor
  · show { batch.cache with files := batch.cache.files.write p.name p.data } = _
    rw [hfiles, h.cache, writeAll, writeAll, List.foldl_append]
    rfl
  · show batch.metas ++ [p.entry] = _
    rw [h.metas, List.map_append]
    rfl
  · intro name
    have hsome := isSome_read?_writeAll c.files ps p.name
    show name ∈ (if _ then batch.created else batch.created ++ [p.name]) ↔ _
    rw [hfiles]
    split
    · -- the file was there before the batch, or was created by it
      rename_i hthere
      rw [h.created name]
      constructor
      · rintro ⟨hnone, q, hq, hname⟩
        exact ⟨hnone, q, List.mem_append_left _ hq, hname⟩
      · rintro ⟨hnone, q, hq, hname⟩
        rcases List.mem_append.1 hq with hq | hq
        · exact ⟨hnone, q, hq, hname⟩
        · rw [List.mem_singleton.1 hq] at hname
          rcases hsome.1 hthere with hold | hearlier
          · rw [hname, hnone] at hold
            cases hold
          · exact ⟨hnone, by rw [← hname]; exact hearlier⟩
    · -- the file is new, for the batch and for the cache
      rename_i hnew
      have hold : c.files.read? p.name = none := by
        cases hread : c.files.read? p.name with
        | none => rfl
        | some data => exact absurd (hsome.2 (Or.inl (by rw [hread]; rfl))) hnew
      rw [List.mem_append, h.created name, List.mem_singleton]
      constructor
      · rintro (⟨hnone, q, hq, hname⟩ | rfl)
        · exact ⟨hnone, q, List.mem_append_left _ hq, hname⟩
        · exact ⟨hold, p, List.mem_append_right _ (List.mem_singleton.2 rfl), rfl⟩
      · rintro ⟨hnone, q, hq, hname⟩
        rcases List.mem_append.1 hq with hq | hq
        · exact Or.inl ⟨hnone, q, hq, hname⟩
        · rw [List.mem_singleton.1 hq] at hname
          exact Or.inr hname.symm
  · have hmeta : batch.cache.meta? p.entry.height = c.meta? p.block.height := by
      rw [h.cache, p.height_entry]
      rfl
    show batch.replaced ++ Option.toList _ = _
    rw [hmeta, h.replaced, replacedBy, replacedBy, List.flatMap_append, List.flatMap_singleton]

theorem wrote_nil (c : FileCache) : Batch.Wrote c [] ⟨c, [], [], []⟩ where
  cache := rfl
  metas := rfl
  created name := by simp
  replaced := rfl

/-- The account of a batch is kept by every parcel. -/
theorem wrote_foldl_add {c : FileCache} {ps : List Parcel} {batch : Batch}
    (h : Batch.Wrote c ps batch) (qs : List Parcel) :
    Batch.Wrote c (ps ++ qs) (qs.foldl Batch.add batch) := by
  induction qs generalizing ps batch with
  | nil => rwa [List.append_nil]
  | cons q qs ih =>
      have hnext := ih (h.add q)
      rwa [List.append_assoc] at hnext

/-! ## Writing entries -/

open Database (Enacts inserting)

/-- The index with one more entry. -/
def indexed (m : BlockMeta) (t : Keyed BlockFacts) : Except StoreFault (Keyed BlockFacts) := do
  let key ← m.height.rowKey
  let facts ← storedFacts m.toBlockFacts
  return t.insert (key.getD t.nextKey) facts

theorem enacts_insertMeta (m : BlockMeta) : Enacts (insertMeta m) (inserting (indexed m)) := by
  refine Database.enacts_insert fun fault _ hkey t => ?_
  show (m.height.rowKey >>= _) = _
  rw [hkey]
  rfl

theorem indexed_entry (p : Parcel) (t : Keyed BlockFacts) :
    indexed p.entry t = .ok (t.insert p.key p.facts) := by
  refine Except.bind_eq_ok.2 ⟨some p.key, p.rowKey_height, ?_⟩
  exact Except.bind_eq_ok.2 ⟨p.facts, p.storedFacts_entry, rfl⟩

/-- The entries of parcels can all be written. -/
theorem forM_indexed (ps : List Parcel) (t : Keyed BlockFacts) :
    (ps.map Parcel.entry).forM (fun m => inserting (indexed m)) t =
      .ok (PUnit.unit, t.insertAll (ps.map fun p => (p.key, p.facts))) := by
  induction ps generalizing t with
  | nil => rfl
  | cons p ps ih =>
      refine StateT.bind_eq_ok.2 ⟨(), t.insert p.key p.facts, ?_, ih _⟩
      exact Database.inserting_eq_ok.2 (indexed_entry p t)

/-- The index with a transaction open. -/
def begun (db : Database (Keyed BlockFacts)) : Database (Keyed BlockFacts) :=
  { db with before := some db.content, inTransaction := true }

theorem begin_of_atRest {db : Database (Keyed BlockFacts)} (h : db.AtRest) :
    Action.storing .beginIndexBatch Database.begin db = .ok () (begun db) := by
  unfold Database.AtRest at h
  simp only [Action.storing, Action.mapFailure, Database.begin, h]
  rfl

/-- A transaction that is open is committed, but the disk may refuse the image. -/
theorem commitIndex_eq {faults : List DiskFault} {db : Database (Keyed BlockFacts)}
    {began : Keyed BlockFacts} (hopen : db.before = some began) :
    commitIndex faults db = .ok () (Database.saveIfIdle
        { db with before := none, inTransaction := false }) ∨
      ∃ reason, DiskFault.image? faults = some reason ∧ commitIndex faults db =
        .error (.store (.device reason)) { db with before := none, inTransaction := false } := by
  have hcommit : Database.commit db =
      .ok () (Database.saveIfIdle { db with before := none, inTransaction := false }) := by
    simp only [Database.commit, hopen]
  unfold commitIndex
  rw [hcommit]
  cases DiskFault.image? faults with
  | none => exact Or.inl rfl
  | some reason =>
      dsimp only
      split
      · exact Or.inr ⟨reason, rfl, rfl⟩
      · exact Or.inl rfl

theorem commitIndex_of_image? {faults : List DiskFault} (h : DiskFault.image? faults = none) :
    commitIndex faults = Database.commit := by
  funext db
  unfold commitIndex
  rw [h]
  cases Database.commit db <;> rfl

/-- Entries and the end of their transaction. -/
theorem commit_eq_ok {faults : List DiskFault} {metas : List BlockMeta}
    {db db' : Database (Keyed BlockFacts)}
    (h : (do metas.forM insertMeta; commitIndex faults) (begun db) = .ok () db') :
    metas.forM (fun m => inserting (indexed m)) db.content = .ok (PUnit.unit, db'.content) ∧
      db'.AtRest ∧ db'.fault = db.fault := by
  obtain ⟨_, db1, hsteps, hcommit⟩ := Action.bind_eq_ok.1 h
  obtain ⟨hcontent, hbefore, hfault⟩ := (Enacts.forM enacts_insertMeta).of_ok hsteps
  rcases commitIndex_eq hbefore with hok | ⟨reason, -, herror⟩
  · cases hok.symm.trans hcommit
    refine ⟨?_, Database.before_saveIfIdle _, (Database.fault_saveIfIdle _).trans hfault⟩
    rw [Database.content_saveIfIdle]
    exact hcontent
  · cases herror.symm.trans hcommit

/-- An entry fails, or the image is refused when all of them are committed. -/
theorem commit_eq_error {faults : List DiskFault} {metas : List BlockMeta}
    {db db' : Database (Keyed BlockFacts)} {e : Failure}
    (h : (do metas.forM insertMeta; commitIndex faults) (begun db) = .error e db') :
    db'.fault = db.fault ∧
      ((db'.before = some db.content ∨ db'.before = none ∧ db'.content = db.content) ∧
          (db.fault = none → metas.forM (fun m => inserting (indexed m)) db.content = .error e) ∨
        db'.before = none ∧ DiskFault.image? faults ≠ none) := by
  rcases Action.bind_eq_error.1 h with hsteps | ⟨_, db1, hsteps, hcommit⟩
  · obtain ⟨hbefore, hfault, hcontent⟩ := (Enacts.forM enacts_insertMeta).of_error hsteps
    refine ⟨hfault, Or.inl ⟨?_, fun hnone => (hcontent hnone).1⟩⟩
    exact hbefore.imp id fun hended => ⟨hended.1, (Option.some.inj hended.2).symm⟩
  · obtain ⟨-, hbefore, hfault⟩ := (Enacts.forM enacts_insertMeta).of_ok hsteps
    rcases commitIndex_eq hbefore with hok | ⟨reason, himage, herror⟩
    · cases hok.symm.trans hcommit
    · cases herror.symm.trans hcommit
      exact ⟨hfault, Or.inr ⟨rfl, by rw [himage]; exact Option.some_ne_none _⟩⟩

/-- Entries that are written are all in the index. -/
theorem writeMetadata_ok {metas : List BlockMeta} {c c' : FileCache} (hrest : c.index.AtRest)
    (h : writeMetadata metas c = .ok () c') :
    c' = { c with index := c'.index } ∧ c'.index.AtRest ∧ c'.index.fault = c.index.fault ∧
      metas.forM (fun m => inserting (indexed m)) c.index.content =
        .ok (PUnit.unit, c'.index.content) := by
  simp only [writeMetadata, begin_of_atRest hrest] at h
  split at h
  · rename_i db hcommit
    cases h
    obtain ⟨hcontent, hr, hfault⟩ := commit_eq_ok hcommit
    exact ⟨rfl, hr, hfault, hcontent⟩
  · split at h <;> cases h

/-- Entries that are not written leave the index as it was, unless it can no longer be trusted. -/
theorem writeMetadata_error {metas : List BlockMeta} {c c' : FileCache} {e : Failure}
    (hrest : c.index.AtRest) (h : writeMetadata metas c = .error e c') :
    c' = { c with index := c'.index, told := c'.told } ∧ c'.index.AtRest ∧
      c'.index.fault = c.index.fault ∧
      (c.Candid → leavesFiles e = false → c'.index.content = c.index.content) := by
  simp only [writeMetadata, begin_of_atRest hrest] at h
  split at h
  · cases h
  · rename_i first db hcommit
    obtain ⟨hfault, hcases⟩ := commit_eq_error hcommit
    rcases hcases with ⟨hbefore | ⟨hbefore, hcontent⟩, -⟩ | ⟨hbefore, himage⟩
    · simp only [Database.rollback, hbefore] at h
      cases h
      exact ⟨rfl, rfl, hfault, fun _ _ => rfl⟩
    · -- the engine has ended the transaction by itself, and undone it
      simp only [Database.rollback, hbefore] at h
      cases h
      exact ⟨rfl, rfl, hfault, fun _ _ => hcontent⟩
    · -- the entries are committed, and the handler is called
      simp only [Database.rollback, hbefore] at h
      cases h
      refine ⟨rfl, rfl, hfault, fun hcandid hleaves => ?_⟩
      rw [hcandid.resolve_left himage] at hleaves
      cases hleaves

/-- The entries of parcels are written where no fault is injected. -/
theorem writeMetadata_parcels {ps : List Parcel} {c : FileCache} (hrest : c.index.AtRest)
    (hfault : c.index.fault = none) (himage : DiskFault.image? c.faults = none) :
    ∃ c', writeMetadata (ps.map Parcel.entry) c = .ok () c' := by
  simp only [writeMetadata, begin_of_atRest hrest]
  cases hcommit : (do (ps.map Parcel.entry).forM insertMeta; commitIndex c.faults)
      (begun c.index) with
  | ok u db => exact ⟨_, rfl⟩
  | error e db =>
      rcases (commit_eq_error hcommit).2 with ⟨-, herror⟩ | ⟨-, hrefused⟩
      · have herror := herror hfault
        rw [forM_indexed] at herror
        cases herror
      · exact absurd himage hrefused

end FileCache

end LightSync
