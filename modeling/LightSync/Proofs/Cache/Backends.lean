import LightSync.Proofs.Cache.Changes
import LightSync.Proofs.Cache.Tables
import LightSync.Proofs.Sync.Twins

/-!
# One table for both kinds of cache

The calls that change a cache are operations on a table of blocks: the last block for a height
counts, and truncating drops the rows above a height (`Cache.tableOf`). A row cache and a file
cache that went through the same calls both stand for that table (`stands_of_apply`), and so they
hand out the same rows, know the same heights, and the index of the file cache tells the truth
about the blocks.
-/

set_option autoImplicit false

namespace LightSync
namespace Cache

/-! ## Tables of blocks -/

/-- What a call does to a table of blocks. -/
def Change.put : Change → Keyed Block → Keyed Block
  | .insertBlock b, t => t.insertAll [keyed b]
  | .insertBlocks bs, t => t.insertAll (bs.map keyed)
  | .truncate height, t => t.upTo height

/-- The blocks that stay after calls on an empty cache. -/
def tableOf (changes : List Change) : Keyed Block :=
  changes.foldl (fun t change => change.put t) Keyed.empty

section

variable {held : Keyed Block} {r r' : RowCache} {f f' : FileCache}

/-- **A call that succeeds on both caches** does to them what it does to the table. -/
theorem stands_of_apply (hr : Stands held (.rows r)) (hf : Stands held (.files f)) {change : Change}
    (hrows : RowCache.apply change r = .ok () r') (hfiles : FileCache.apply change f = .ok () f') :
    Stands (change.put held) (.rows r') ∧ Stands (change.put held) (.files f') := by
  cases change with
  | insertBlock b =>
      obtain ⟨hencode, hrest, -, hcontent⟩ := RowCache.insertBlock_ok hr.keeps.1 hrows
      -- a single block is a batch of one
      have hbatch : r'.db.content = r.db.content.insertAll ([b].map rowOf) := hcontent
      have hall : ∀ x ∈ [b], ∃ data, x.encode = .ok data := by
        intro x hx
        rw [List.mem_singleton.1 hx]
        exact hencode
      exact ⟨hr.of_rows hall hrest hbatch, (hf.of_files hall hfiles).1⟩
  | insertBlocks bs =>
      obtain ⟨hall, hrest, -, hcontent⟩ := RowCache.insertBlocks_ok hr.keeps.1 hrows
      exact ⟨hr.of_rows hall hrest hcontent, (hf.of_files hall hfiles).1⟩
  | truncate height =>
      obtain ⟨c1, hc1, hstands, -⟩ := hr.of_truncate height
      obtain ⟨c2, hc2, hstands', -⟩ := hf.of_truncate height
      cases (either_rows_eq_ok.2 ⟨r', hrows, rfl⟩).symm.trans hc1
      cases (either_files_eq_ok.2 ⟨f', hfiles, rfl⟩).symm.trans hc2
      exact ⟨hstands, hstands'⟩

theorem stands_of_forM {changes : List Change} (hr : Stands held (.rows r))
    (hf : Stands held (.files f)) (hrows : changes.forM RowCache.apply r = .ok () r')
    (hfiles : changes.forM FileCache.apply f = .ok () f') :
    Stands (changes.foldl (fun t change => change.put t) held) (.rows r') ∧
      Stands (changes.foldl (fun t change => change.put t) held) (.files f') := by
  induction changes generalizing held r f with
  | nil =>
      cases hrows
      cases hfiles
      exact ⟨hr, hf⟩
  | cons change changes ih =>
      obtain ⟨_, r1, hr1, hrows⟩ := Action.bind_eq_ok.1 hrows
      obtain ⟨_, f1, hf1, hfiles⟩ := Action.bind_eq_ok.1 hfiles
      obtain ⟨hr, hf⟩ := stands_of_apply hr hf hr1 hf1
      exact ih hr hf hrows hfiles

theorem stands_of_fresh {c : Cache} (h : c.Fresh) : Stands Keyed.empty c where
  blocks k b hb := by cases hb
  keeps := by
    cases c with
    | rows r => exact h
    | files f => exact FileCache.Holds.empty h.1 h.2.1 h.2.2.1 h.2.2.2

/-! ## What both know -/

/-- The rows of a table of blocks above a height, in order. -/
def rowsAbove (held : Keyed Block) (last : Option Number) : List CachedRow :=
  (held.entries.filter fun e => decide (last.getD Keyed.beforeAll < .int e.1)).map handedOut

theorem above_limit {β : Type} (t : Keyed β) (last : Option Number) {limit : Number} {n : Nat}
    (h : limit.toInt? = some (n : Int)) (hn : n ≤ Number.maxSafe) :
    t.above last (some limit) =
      .ok ((t.entries.filter fun e => decide (last.getD Keyed.beforeAll < .int e.1)).take n) :=
  let ⟨hasked, hmost⟩ := rows_of_natural h hn
  above_of_rows t hasked hmost

theorem getLast?_map_key {β γ : Type} (g : β → γ) (l : List (Int × β)) :
    ((l.map fun e => (e.1, g e.2)).getLast?).map (fun e => Number.ofInt e.1) =
      l.getLast?.map fun e => Number.ofInt e.1 := by
  rw [List.getLast?_map, Option.map_map]
  rfl

/-- Both kinds know the highest height. -/
theorem Stands.maxHeight {c : Cache} (h : Stands held c) :
    c.maxHeight = held.last?.map fun e => .int e.1 := by
  have hword : held.last?.map (fun e => Number.ofInt e.1) = held.last?.map fun e => .int e.1 :=
    Option.map_congr fun e he => h.word_of_mem (List.mem_of_getLast? he)
  rw [← hword]
  cases c with
  | rows r =>
      show r.db.content.last?.map _ = _
      rw [h.keeps.2]
      exact getLast?_map_key Block.bytes held.entries
  | files f =>
      show f.index.content.last?.map _ = _
      rw [FileCache.Holds.index h.keeps]
      exact (getLast?_map_key StoredBlock.facts _).trans (getLast?_map_key Block.keep held.entries)

/-- What the index knows of a block that stands at a height. -/
theorem Stands.meta?_eq_some (h : Stands held (.files f)) {height : Number} {m : BlockMeta} :
    f.meta? height = some m ↔ ∃ k b hash, height.toInt? = some k ∧ held.find? k = some b ∧
      b.hash? = .ok hash ∧ m = {
        height := .int k, hash, time := b.time.kept,
        saplingOutputs := Number.ofNat b.saplingOutputs,
        orchardActions := Number.ofNat b.orchardActions } := by
  -- the entry of the block at a key
  have hentry : ∀ k b, held.find? k = some b → ∃ hash, b.hash? = .ok hash ∧
      FileCache.entry (k, b.keep.facts) = {
        height := .int k, hash, time := b.time.kept,
        saplingOutputs := Number.ofNat b.saplingOutputs,
        orchardActions := Number.ofNat b.orchardActions } := by
    intro k b hb
    obtain ⟨p, rfl, -⟩ := h.parcel hb
    obtain ⟨hash, hhash, hp⟩ := p.entry_eq
    refine ⟨hash, hhash, ?_⟩
    unfold FileCache.entry
    rw [p.keep_block, h.word_of_mem (Keyed.mem_entries_iff.2 hb)]
    unfold Parcel.stored Parcel.facts
    rw [hp]
  constructor
  · intro hm
    cases hk : height.toInt? with
    | none =>
        unfold FileCache.meta? at hm
        rw [hk] at hm
        cases hm
    | some k =>
        rw [FileCache.Holds.meta?_eq h.keeps hk, Keyed.find?_map, Option.map_map] at hm
        obtain ⟨b, hb, rfl⟩ := Option.map_eq_some_iff.1 hm
        obtain ⟨hash, hhash, hentry⟩ := hentry k b hb
        exact ⟨k, b, hash, rfl, hb, hhash, hentry⟩
  · rintro ⟨k, b, hash, hk, hb, hhash, rfl⟩
    obtain ⟨hash', hhash', hentry⟩ := hentry k b hb
    rw [hhash] at hhash'
    cases hhash'
    rw [FileCache.Holds.meta?_eq h.keeps hk, Keyed.find?_map, hb]
    exact congrArg some hentry

end

/-! ## One table -/

/-- A row cache and a file cache are two forms of one table of blocks: every block of it has an
encoded form and stands at its height; both hand out the same rows, which are those of the table;
both know its highest height; the index of the file cache has the hash, the time and the counts of
its blocks and of no others; and nobody who checks or scans a cache can tell them apart. -/
structure SameTable (held : Keyed Block) (r : RowCache) (f : FileCache) : Prop where
  blocks : ∀ k b, held.find? k = some b → b.height.toInt? = some k ∧ b.encode = .ok b.bytes
  rows : ∀ last limit, r.rows last limit = f.rows last limit
  allRows : ∀ last, f.rows last none = ⟨rowsAbove held last, none⟩
  someRows : ∀ last limit (n : Nat), limit.toInt? = some (n : Int) → n ≤ Number.maxSafe →
    f.rows last (some limit) = ⟨(rowsAbove held last).take n, none⟩
  maxHeight : r.maxHeight = (held.last?.map fun e => .int e.1) ∧ f.maxHeight = r.maxHeight
  entries : ∀ height m, f.meta? height = some m ↔ ∃ k b hash, height.toInt? = some k ∧
    held.find? k = some b ∧ b.hash? = .ok hash ∧ m = {
      height := .int k, hash, time := b.time.kept,
      saplingOutputs := Number.ofNat b.saplingOutputs,
      orchardActions := Number.ofNat b.orchardActions }
  validate : ∀ {τ : Type} (st : SyncState τ) (tip : Option ChainTip),
    Action.Alike SyncState.Twin (Synchronizer.checkLinks tip { st with cache := .rows r })
      (Synchronizer.checkLinks tip { st with cache := .files f })
  scan : ∀ {τ : Type} (st : SyncState τ) (setup : ScanSetup τ),
    (∀ report, Action.Parallel SyncState.Twin (setup.hooks.progress report)
      (setup.hooks.progress report)) →
    Action.Alike SyncState.Twin (Scan.run setup { st with cache := .rows r })
      (Scan.run setup { st with cache := .files f })

/-- **Both kinds of cache implement the same map from heights to blocks**: after the same calls,
all of which succeeded on both, they are two forms of one table, the last block for each height
that was not truncated away. -/
theorem sameTable_of_changes (changes : List Change) {r0 r : RowCache} {f0 f : FileCache}
    (hr0 : Fresh (.rows r0)) (hf0 : Fresh (.files f0))
    (hr : changes.forM RowCache.apply r0 = .ok () r)
    (hf : changes.forM FileCache.apply f0 = .ok () f) : SameTable (tableOf changes) r f := by
  obtain ⟨hsr, hsf⟩ := stands_of_forM (stands_of_fresh hr0) (stands_of_fresh hf0) hr hf
  have hfiles : ∀ last limit, f.rows last limit = walkRows (tableOf changes) last limit :=
    hsf.storedRows
  have hrows : ∀ last limit, r.rows last limit = f.rows last limit := by
    intro last limit
    rw [hfiles]
    exact hsr.storedRows last limit
  have htwin {τ : Type} (st : SyncState τ) :
      SyncState.Twin { st with cache := .rows r } { st with cache := .files f } :=
    ⟨hrows, rfl, rfl, rfl, rfl⟩
  constructor
  · exact hsr.blocks
  · exact hrows
  · intro last
    rw [hfiles]
    rfl
  · intro last limit n hlimit hn
    rw [hfiles, walkRows, above_limit _ _ hlimit hn]
    exact congrArg (Walk.mk · none) List.map_take
  · exact ⟨hsr.maxHeight, (hsf.maxHeight : f.maxHeight = _).trans hsr.maxHeight.symm⟩
  · exact fun height m => hsf.meta?_eq_some
  · exact fun st tip => Synchronizer.parallel_checkLinks tip _ _ (htwin st)
  · exact fun st setup hprogress => Scan.parallel_run hprogress _ _ (htwin st)

/-- Blocks that are replaced inside a batch and by a later one, with the same hash and with
another, and truncated away. -/
def replacingChanges : List Change :=
  [.insertBlocks [linkedBlock 1 1 0 [], linkedBlock 2 2 1 [], linkedBlock 1 9 0 []],
    .insertBlock { linkedBlock 2 2 1 [] with time := 7 },
    .insertBlocks [linkedBlock 1 1 0 [], linkedBlock 3 3 2 []], .truncate 2,
    .insertBlock (linkedBlock 4 4 3 [])]

/-- An empty row cache in memory. -/
def emptyRows : RowCache := ⟨0, Database.connect Keyed.empty .memory⟩

theorem sameTable_of_changes_replacing : ∃ r f,
    Fresh (.rows emptyRows) ∧ Fresh (.files emptyFiles) ∧
    replacingChanges.forM RowCache.apply emptyRows = .ok () r ∧
    replacingChanges.forM FileCache.apply emptyFiles = .ok () f ∧
    SameTable (tableOf replacingChanges) r f := by
  have hok {σ : Type} (act : Action σ PUnit) (s : σ) (h : act.failure? s = none) :
      ∃ t, act s = .ok () t := by
    unfold Action.failure? at h
    split at h
    · rename_i t heq
      exact ⟨t, heq⟩
    · cases h
  obtain ⟨r, hr⟩ := hok (replacingChanges.forM RowCache.apply) emptyRows (by decide +kernel)
  obtain ⟨f, hf⟩ := hok (replacingChanges.forM FileCache.apply) emptyFiles (by decide +kernel)
  have hr0 : Fresh (.rows emptyRows) := ⟨rfl, rfl⟩
  have hf0 : Fresh (.files emptyFiles) := ⟨rfl, rfl, rfl, rfl⟩
  exact ⟨r, f, hr0, hf0, hr, hf, sameTable_of_changes replacingChanges hr0 hf0 hr hf⟩

end Cache
end LightSync
