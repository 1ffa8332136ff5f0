import LightSync.Proofs.Action.Parallel
import LightSync.Proofs.Cache.Changes
import LightSync.Proofs.Store.Image

/-!
# Caches in files

A cache that was opened on a file is used (`Cache.Operated`): it is changed by calls that succeed or
fail, faults come and go, and its rows and blocks are traversed by somebody who may fail or stop
early. Every operation leaves the file up to date (`Cache.Reached.operated`), on a disk that may
refuse to write and to remove the files of blocks, but takes every image.
-/

set_option autoImplicit false

namespace LightSync

open LightSync.Action (Keeps)
open Database (Reached Contained contained_insert contained_queryRows contained_run Lasting
  lasting_insert lasting_run committing)

/-! ## Calls -/

namespace RowCache

variable {start : Database (Keyed Bytes)}

theorem keeps_onDatabase {α : Type} {act : Action (Database (Keyed Bytes)) α} (h : Lasting act) :
    Keeps (fun c : RowCache => Reached start c.db) (onDatabase act) :=
  .within (fun _ _ => rfl) h.keeps

theorem keeps_apply (change : Cache.Change) :
    Keeps (fun c : RowCache => Reached start c.db) (apply change) := by
  cases change with
  | insertBlock b =>
      exact (Keeps.ofExcept _).bind fun data =>
        (keeps_onDatabase (lasting_insert _ _ _)).mapFailure _
  | insertBlocks bs =>
      have hrows (rows : List (Number × Bytes)) :
          Contained (rows.forM fun row => insertRow row.1 row.2) :=
        .forM fun row => contained_insert _ _ _
      exact (Keeps.ofExcept _).bind fun rows =>
        (keeps_onDatabase (hrows rows).transaction).mapFailure _
  | truncate height =>
      exact (keeps_onDatabase (lasting_run fun t => .ok (t.upTo height, ()))).mapFailure
        (Failure.duringStorage .truncateCache)

end RowCache

namespace FileCache

variable {start : Database (Keyed BlockFacts)}

/-- The image of the index is up to date, and the disk takes the next one. -/
def UpToDate (start : Database (Keyed BlockFacts)) (c : FileCache) : Prop :=
  DiskFault.image? c.faults = none ∧ Reached start c.index

theorem keeps_onIndex {α : Type} {act : Action (Database (Keyed BlockFacts)) α} (h : Lasting act) :
    Keeps (UpToDate start) (onIndex act) := by
  rintro c ⟨himage, hc⟩
  have hafter : (onIndex act).after c = { c with index := act.after c.index } :=
    Action.after_within _ _ act c
  rw [hafter]
  exact ⟨himage, h.keeps _ hc⟩

/-- Entries leave a cache as a transaction of them leaves its index. -/
theorem after_writeMetadata (metas : List BlockMeta) {c : FileCache}
    (himage : DiskFault.image? c.faults = none) :
    ((writeMetadata metas).after c).faults = c.faults ∧
      ((writeMetadata metas).after c).index =
        (Database.transaction (metas.forM insertMeta)).after c.index := by
  -- the two differ in the failures that they tell, not in what they do
  have hsteps : (do metas.forM insertMeta; commitIndex c.faults) =
      committing (metas.forM insertMeta) := by
    rw [commitIndex_of_image? himage]
    funext db
    unfold committing
    rw [Action.bind_apply, Action.bind_apply]
    cases metas.forM insertMeta db with
    | error e db1 => rfl
    | ok u db1 =>
        dsimp only
        rw [Action.bind_apply]
        cases Database.commit db1 <;> rfl
  rw [Database.after_transaction]
  cases hbefore : c.index.before with
  | some content =>
      simp only [Action.after, writeMetadata, Action.storing, Action.mapFailure, Database.begin,
        hbefore, and_self]
  | none =>
      simp only [Action.after, writeMetadata, Action.storing, Action.mapFailure, Database.begin,
        hbefore, hsteps]
      cases committing (metas.forM insertMeta) _ with
      | ok u db => exact ⟨rfl, rfl⟩
      | error e db =>
          dsimp only
          cases Database.rollback db <;> exact ⟨rfl, rfl⟩

theorem keeps_writeMetadata (metas : List BlockMeta) :
    Keeps (UpToDate start) (writeMetadata metas) := by
  rintro c ⟨himage, hc⟩
  obtain ⟨hfaults, hindex⟩ := after_writeMetadata metas himage
  have hentries : Contained (metas.forM insertMeta) := .forM fun m => contained_insert _ _ _
  refine ⟨by rw [hfaults]; exact himage, ?_⟩
  rw [hindex]
  exact hentries.transaction.keeps _ hc

theorem keeps_putFile (m : BlockMeta) (data : Bytes) : Keeps (UpToDate start) (putFile m data) := by
  intro c hc
  cases hname : m.isNameable <;> cases hwrite : DiskFault.write? c.faults m.fileName <;>
    simp only [Action.after, putFile, hname, hwrite] <;> exact hc

theorem keeps_writeEntry (m : BlockMeta) (data : Bytes) :
    Keeps (fun batch : Batch => UpToDate start batch.cache) (writeEntry m data) := by
  intro batch hbatch
  have hput : UpToDate start
      ((Action.storing (.writeBlockFile m.height) (putFile m data)).after batch.cache) :=
    (keeps_putFile m data).mapFailure _ batch.cache hbatch
  unfold Action.after writeEntry
  dsimp only
  cases hrun : Action.storing (.writeBlockFile m.height) (putFile m data) batch.cache with
  | ok u c =>
      rw [Action.after_of_ok hrun] at hput
      exact hput
  | error e c =>
      rw [Action.after_of_error hrun] at hput
      exact hput

theorem keeps_writeFile (b : Block) :
    Keeps (fun batch : Batch => UpToDate start batch.cache) (writeFile b) :=
  (Keeps.ofExcept _).bind fun _ => (Keeps.ofExcept _).bind fun _ => keeps_writeEntry _ _

theorem keeps_removeBlockFile (m : BlockMeta) :
    Keeps (UpToDate start) (removeBlockFile m) := by
  refine Keeps.mapFailure (fun c hc => ?_) _
  cases hname : m.isNameable <;> cases hremove : DiskFault.remove? c.faults m.fileName <;>
    simp only [Action.after, dropFile, hname, hremove] <;> exact hc

theorem keeps_insertBlocks (bs : List Block) : Keeps (UpToDate start) (insertBlocks bs) := by
  intro c hc
  have hfiles : Keeps (fun batch : Batch => UpToDate start batch.cache)
      ((onePerHeight bs).forM writeFile) := .forM keeps_writeFile
  have hwritten := hfiles ⟨c, [], [], []⟩ hc
  -- a batch that fails removes files at most
  have hback (e : Failure) (names : List String) {c : FileCache} (h : UpToDate start c) :
      UpToDate start (if leavesFiles e then c else c.discardFiles names) := by
    split <;> exact h
  show UpToDate start ((insertBlocks bs).after c)
  rw [Action.after_eq_stateOf, insertBlocks_eq]
  cases hrun : (onePerHeight bs).forM writeFile ⟨c, [], [], []⟩ with
  | error e batch =>
      rw [Action.after_of_error hrun] at hwritten
      exact hback e _ hwritten
  | ok u batch =>
      rw [Action.after_of_ok hrun] at hwritten
      have hindexed := keeps_writeMetadata batch.metas batch.cache hwritten
      dsimp only
      cases hmeta : writeMetadata batch.metas batch.cache with
      | error e c1 =>
          rw [Action.after_of_error hmeta] at hindexed
          exact hback e _ hindexed
      | ok u c1 =>
          rw [Action.after_of_ok hmeta] at hindexed
          rw [← Action.after_eq_stateOf]
          exact Keeps.forM keeps_removeBlockFile c1 hindexed

theorem keeps_truncate (height : Number) : Keeps (UpToDate start) (truncate height) := by
  intro c hc
  have hcut : Contained (do
      let metas ← Database.queryRows fun t : Keyed BlockFacts =>
        .ok ((t.entries.filter fun e => decide (height < Number.int e.1)).map entry)
      Database.run fun t => .ok (t.upTo height, ())
      return metas) :=
    (contained_queryRows _).bind fun _ => (contained_run _).bind fun _ => .pure _
  have hindex : Keeps (UpToDate start)
      (Action.storing .truncateIndex (onIndex (truncateIndex c.faults height))) := by
    unfold truncateIndex
    rw [commitIndex_of_image? hc.1]
    exact (keeps_onIndex hcut.transaction).mapFailure _
  have htruncate : truncate height c = (do
      let removed ← Action.storing .truncateIndex (onIndex (truncateIndex c.faults height))
      removed.forM removeBlockFile : Action FileCache Unit) c := by
    rw [Action.bind_apply, truncate]
    cases Action.storing .truncateIndex (onIndex (truncateIndex c.faults height)) c <;> rfl
  rw [Action.after_congr htruncate]
  exact hindex.bind (fun removed => .forM keeps_removeBlockFile) c hc

theorem keeps_apply (change : Cache.Change) : Keeps (UpToDate start) (apply change) := by
  cases change with
  | insertBlock b => exact keeps_insertBlocks [b]
  | insertBlocks bs => exact keeps_insertBlocks bs
  | truncate height => exact keeps_truncate height

end FileCache

namespace Cache

/-- The databases of two caches of one kind are related. -/
inductive OnDatabases (R : ∀ {σ : Type}, Database σ → Database σ → Prop) : Cache → Cache → Prop where
  | rows {c d : RowCache} (h : R c.db d.db) : OnDatabases R (.rows c) (.rows d)
  | files {c d : FileCache} (h : R c.index d.index) : OnDatabases R (.files c) (.files d)

/-- What operations make of a cache, as long as the disk takes the image of an index. -/
inductive Reached : Cache → Cache → Prop where
  | rows {c d : RowCache} (h : Database.Reached c.db d.db) : Reached (.rows c) (.rows d)
  | files {c d : FileCache} (h : d.UpToDate c.index) : Reached (.files c) (.files d)

variable {start c c' : Cache}

theorem Reached.apply (h : Reached start c) (change : Change) :
    Reached start ((Cache.apply change).after c) := by
  cases h with
  | rows h =>
      rw [Cache.apply, after_either_rows]
      exact .rows (RowCache.keeps_apply change _ h)
  | files h =>
      rw [Cache.apply, after_either_files]
      exact .files (FileCache.keeps_apply change _ h)

theorem Reached.cursor (h : Reached start c) : Reached start c.openCursor.closeCursor := by
  cases h with
  | rows h => exact .rows h.cursor
  | files h => exact .files ⟨h.1, h.2.cursor⟩

theorem Reached.fault (h : Reached start c) (x : Option InjectedFault) :
    Reached start (c.withFault x) := by
  cases h with
  | rows h => exact .rows (h.fault x)
  | files h => exact .files ⟨h.1, h.2.fault x⟩

section

variable {τ α β : Type}

/-- Somebody who takes what a cache hands out and leaves the cache itself alone. -/
def Consumer (act : Walk β → Action (Cache × τ) α) : Prop :=
  ∀ walk s, ((act walk).after s).1 = s.1

/-- A traversal comes to an end with its consumer, and its cursor is closed. -/
theorem Reached.during (h : Reached start c) (limit : Option Number) (walk : Cache → Walk β)
    {act : Walk β → Action (Cache × τ) α} (hact : Consumer act) (host : τ) :
    Reached start
      ((Cache.during (·.1) (fun c s => (c, s.2)) limit walk act).after (c, host)).1 := by
  rw [Action.after_eq_stateOf]
  unfold Cache.during
  dsimp only
  split
  · rw [← Action.after_eq_stateOf, hact]
    exact h
  · rw [← Action.after_eq_stateOf, Action.after_ensuring]
    dsimp only
    rw [hact]
    exact h.cursor

end

/-- What can be done with a cache; questions that are answered at once do nothing to it. A traversal
has ended in some way when the next operation begins: its consumer has taken everything, has failed,
or has stopped early. -/
inductive Operated : Cache → Cache → Prop where
  | change (c : Cache) (change : Change) : Operated c ((apply change).after c)
  | writeMetadata (c : FileCache) (metas : List BlockMeta) :
      Operated (.files c) (.files ((FileCache.writeMetadata metas).after c))
  | traverse {τ α : Type} (c : Cache) (last limit : Option Number)
      {act : Walk Block → Action (Cache × τ) α} (hact : Consumer act) (host : τ) :
      Operated c ((Cache.traverse (·.1) (fun c s => (c, s.2)) last limit act).after (c, host)).1
  | traverseRows {τ α : Type} (c : Cache) (last limit : Option Number)
      {act : Walk CachedRow → Action (Cache × τ) α} (hact : Consumer act) (host : τ) :
      Operated c
        ((Cache.traverseRows (·.1) (fun c s => (c, s.2)) last limit act).after (c, host)).1
  | fault (c : Cache) (x : Option InjectedFault) : Operated c (c.withFault x)
  | disk (c : FileCache) (faults : List DiskFault) (himage : DiskFault.image? faults = none) :
      Operated (.files c) (.files { c with faults })

theorem Reached.operated (h : Reached start c) (hoperated : Operated c c') : Reached start c' := by
  cases hoperated with
  | change _ change => exact h.apply change
  | writeMetadata c metas =>
      cases h with
      | files h => exact .files (FileCache.keeps_writeMetadata metas _ h)
  | traverse _ _ limit hact host => exact h.during limit _ hact host
  | traverseRows _ _ limit hact host => exact h.during limit _ hact host
  | fault _ x => exact h.fault x
  | disk c faults himage =>
      cases h with
      | files h => exact .files ⟨himage, h.2⟩

/-- The cache was opened on a file, on a disk that takes the image of an index. -/
inductive OpenedOnFile : Cache → Prop where
  | rows {floor : Number} {m : Medium (Keyed Bytes)} {c : RowCache}
      (h : RowCache.connect floor m = .ok c) (hfile : c.db.backing ≠ .memory) :
      OpenedOnFile (.rows c)
  | files {m : Medium (Keyed BlockFacts)} {c : FileCache}
      (h : FileCache.connectIndex m = .ok c.index) (hfile : c.index.backing ≠ .memory)
      (himage : DiskFault.image? c.faults = none) : OpenedOnFile (.files c)

theorem OpenedOnFile.reached (h : OpenedOnFile c) : Reached c c := by
  cases h with
  | rows h hfile =>
      obtain ⟨db, hdb, hc⟩ := Except.bind_eq_ok.1 h
      cases hc
      exact .rows (Database.filed_of_connect hdb hfile).reached
  | files h hfile himage => exact .files ⟨himage, (Database.filed_of_connect h hfile).reached⟩

theorem Reached.byStatements (h : Reached start c) : OnDatabases Database.ByStatements start c := by
  cases h with
  | rows h => exact .rows h.made
  | files h => exact .files h.2.made

/-! ## Questions -/

/-- The entry for a height. A cache that keeps rows has none. -/
def entry? : Cache → Number → Option BlockMeta
  | .rows _, _ => none
  | .files c, height => c.meta? height

/-- The caches answer every question alike, and hand out the same to everybody who goes through
their rows or their blocks. -/
structure AnswersLike (c d : Cache) : Prop where
  highestContiguous : c.highestContiguous = d.highestContiguous
  maxHeight : c.maxHeight = d.maxHeight
  entry : ∀ height, c.entry? height = d.entry? height
  rows : ∀ last limit, c.storedRows last limit = d.storedRows last limit
  blocks : ∀ last limit, c.blocks last limit = d.blocks last limit
  visits : ∀ {τ : Type} (last limit : Option Number) (visit : Block → Action τ Unit) (t : τ),
    Action.Alike (fun s s' => s.2 = s'.2) (forEachBlock last limit visit (c, t))
      (forEachBlock last limit visit (d, t))

open LightSync.Action (Parallel)

theorem parallel_visit {τ : Type} (act : Action τ Unit) :
    Parallel (fun s s' : Cache × τ => s.2 = s'.2)
      (Action.within (·.2) (fun t s => (s.1, t)) act)
      (Action.within (·.2) (fun t s => (s.1, t)) act) := by
  rintro ⟨c, t⟩ ⟨d, _⟩ rfl
  unfold Action.within
  dsimp only
  cases act t with
  | ok u t' => exact .ok u rfl
  | error e t' => exact .error e rfl

theorem parallel_forEach {σ : Type} {R : σ → σ → Prop} {β : Type} {visit : β → Action σ Unit}
    (hvisit : ∀ b, Parallel R (visit b) (visit b)) (walk : Walk β) :
    Parallel R (walk.forEach visit) (walk.forEach visit) := by
  have hall (bs : List β) : Parallel R (Walk.visitAll visit bs) (Walk.visitAll visit bs) := by
    induction bs with
    | nil => exact .pure ()
    | cons b bs ih => exact (hvisit b).bind fun _ => ih
  refine (hall walk.items).bind fun _ => ?_
  cases walk.stop with
  | none => exact .pure ()
  | some e => exact .throw e

/-- Visits see the blocks, and nothing else of a cache. -/
theorem alike_forEachBlock {d : Cache} {τ : Type} {last limit : Option Number}
    (hblocks : c.blocks last limit = d.blocks last limit) (visit : Block → Action τ Unit) (t : τ) :
    Action.Alike (fun s s' => s.2 = s'.2) (forEachBlock last limit visit (c, t))
      (forEachBlock last limit visit (d, t)) := by
  have hvisits := parallel_forEach fun b => parallel_visit (visit b)
  let close : Cache × τ → Cache × τ := fun s => (s.1.closeCursor, s.2)
  have hclose : ∀ s s', s.2 = s'.2 → (close s).2 = (close s').2 := fun _ _ h => h
  unfold forEachBlock traverse during
  dsimp only
  rw [hblocks]
  split
  · exact hvisits _ _ _ rfl
  · exact (hvisits _).ensuring hclose (c.openCursor, t) (d.openCursor, t) rfl

/-! ## Opening again -/

/-- The cache as it is found in the file. -/
def reopened : Cache → Cache
  | .rows c => .rows { c with db := c.db.reopened }
  | .files c => .files { c with index := c.index.reopened }

theorem answersLike_reopened (c : Cache) : c.reopened.AnswersLike c := by
  have hrows (last limit : Option Number) :
      c.reopened.storedRows last limit = c.storedRows last limit := by
    cases c <;> rfl
  have hblocks (last limit : Option Number) :
      c.reopened.blocks last limit = c.blocks last limit := by
    unfold Cache.blocks
    rw [hrows]
  refine ⟨?_, ?_, ?_, hrows, hblocks, fun last limit visit t =>
    alike_forEachBlock (hblocks last limit) visit t⟩
  · cases c <;> rfl
  · cases c <;> rfl
  · intro height
    cases c <;> rfl

theorem Reached.reconnect (h : Reached start c) :
    c.reconnect = .ok c.reopened ∧ c.close.reconnect = .ok c.reopened := by
  cases h with
  | rows h =>
      obtain ⟨hclosed, hcontent⟩ := h.filed.close
      simp only [Cache.reconnect, Cache.close, h.filed.medium, hclosed.medium, hcontent]
      exact ⟨rfl, rfl⟩
  | files h =>
      obtain ⟨hclosed, hcontent⟩ := h.2.filed.close
      simp only [Cache.reconnect, Cache.close, h.2.filed.medium, hclosed.medium, hcontent]
      exact ⟨rfl, rfl⟩

end Cache
end LightSync
