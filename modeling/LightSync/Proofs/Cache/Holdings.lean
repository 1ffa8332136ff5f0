import LightSync.Proofs.Cache.Batch
import LightSync.Proofs.Cache.Traversal
import Mathlib.Data.List.Nodup

/-!
# What a file cache holds

A file cache is sound when every entry of its index has its file (`FileCache.Sound`), and tidy when
there are no other files (`FileCache.Tidy`). `FileCache.Holds c t` says that it keeps the blocks of
the table `t`: the index has their facts and the directory their bytes, on a disk that refuses
nothing. Truncating drops what lies above a height (`Sound.cut`, `Tidy.cut`, `Holds.of_truncate`);
a file that the disk does not remove stays.
-/

set_option autoImplicit false

namespace LightSync

/-- The row of a parcel in a table of stored blocks. -/
def Parcel.row (p : Parcel) : Int × StoredBlock := (p.key, p.stored)

theorem ofInt_of_word {k : Int} (h0 : 0 ≤ k) (hk : k < wordRange) : Number.ofInt k = .int k := by
  refine Number.ofInt_of_le ?_
  have := natAbs_lt_of_nonneg h0 hk
  omega

theorem Keyed.find?_upTo {β : Type} (t : Keyed β) (height : Number) (k : Int) :
    (t.upTo height).find? k = if height < .int k then none else t.find? k := by
  rw [upTo, find?_filter]
  by_cases hk : height < .int k
  · simp [hk]
  · simp [hk]

theorem Keyed.find?_upTo_eq_some {β : Type} {t : Keyed β} {height : Number} {k : Int} {row : β} :
    (t.upTo height).find? k = some row ↔ ¬ height < .int k ∧ t.find? k = some row := by
  rw [find?_upTo]
  by_cases hk : height < .int k
  · simp [hk]
  · simp [hk]

namespace FileCache

/-- Every entry is that of a block and has its file, under the name that the entry gives. -/
structure Sound (c : FileCache) : Prop where
  atRest : c.index.AtRest
  words : ∀ k facts, c.index.content.find? k = some facts →
    0 ≤ k ∧ k < wordRange ∧ facts.hash.length = Block.hashLength
  distinct : c.files.Distinct
  present : ∀ k facts, c.index.content.find? k = some facts →
    (c.files.read? (BlockMeta.nameAt k facts.hash)).isSome = true

/-- Every file is that of an entry. -/
def Tidy (c : FileCache) : Prop :=
  ∀ name, (c.files.read? name).isSome = true →
    ∃ k facts, c.index.content.find? k = some facts ∧ BlockMeta.nameAt k facts.hash = name

/-- The cache keeps the blocks of a table, and nothing else. -/
structure Holds (c : FileCache) (t : Keyed StoredBlock) : Prop extends Sound c where
  tidy : c.Tidy
  disk : c.faults = []
  index : c.index.content = t.map StoredBlock.facts
  data : ∀ k v, t.find? k = some v →
    c.files.read? (BlockMeta.nameAt k v.facts.hash) = some v.data

/-- What no call changes, and that no transaction is left open. -/
structure Framed (c c' : FileCache) : Prop where
  root : c'.root = c.root
  faults : c'.faults = c.faults
  handler : c'.handler = c.handler
  atRest : c'.index.AtRest
  fault : c'.index.fault = c.index.fault

/-! ## Entries and their files -/

theorem toInt?_height_entry {k : Int} (h0 : 0 ≤ k) (hk : k < wordRange) (facts : BlockFacts) :
    (entry (k, facts)).height.toInt? = some k := by
  show (Number.ofInt k).toInt? = some k
  rw [ofInt_of_word h0 hk]
  rfl

theorem fileName_entry {k : Int} (h0 : 0 ≤ k) (hk : k < wordRange) (facts : BlockFacts) :
    (entry (k, facts)).fileName = BlockMeta.nameAt k facts.hash :=
  BlockMeta.fileName_eq (toInt?_height_entry h0 hk facts)
    (Nat.le_of_lt (Nat.lt_of_succ_lt (natAbs_lt_of_nonneg h0 hk)))

theorem isNameable_entry {k : Int} (h0 : 0 ≤ k) (hk : k < wordRange) {facts : BlockFacts}
    (hhash : facts.hash.length = Block.hashLength) : (entry (k, facts)).isNameable = true :=
  BlockMeta.isNameable_of_word (toInt?_height_entry h0 hk facts) h0 hk hhash

/-- The file of an entry is removed, or it cannot be: its name is too long, or the disk refuses. -/
theorem removeBlockFile_cases (m : BlockMeta) (c : FileCache) :
    removeBlockFile m c = .ok () { c with files := c.files.remove m.fileName } ∨
      (m.isNameable = true → DiskFault.remove? c.faults m.fileName ≠ none) ∧
      ∃ fault, removeBlockFile m c =
        .error (.storage (.removeBlockFile m.height) (.store fault)) c := by
  unfold removeBlockFile Action.storing Action.mapFailure dropFile
  by_cases hname : m.isNameable = true
  · rw [if_pos hname]
    cases DiskFault.remove? c.faults m.fileName with
    | none => exact Or.inl rfl
    | some reason => exact Or.inr ⟨fun _ => Option.some_ne_none reason, _, rfl⟩
  · rw [if_neg hname]
    exact Or.inr ⟨fun h => absurd h hname, _, rfl⟩

/-- Files are removed one after another, up to one that cannot be. -/
theorem forM_removeBlockFile_cases (metas : List BlockMeta) (c : FileCache) :
    metas.forM removeBlockFile c = .ok ()
        { c with files := (metas.map BlockMeta.fileName).foldl Directory.remove c.files } ∨
      ∃ n, ∃ m ∈ metas, (m.isNameable = true → DiskFault.remove? c.faults m.fileName ≠ none) ∧
        ∃ fault, metas.forM removeBlockFile c =
          .error (.storage (.removeBlockFile m.height) (.store fault))
            { c with
              files := ((metas.take n).map BlockMeta.fileName).foldl Directory.remove c.files } := by
  induction metas generalizing c with
  | nil => exact Or.inl rfl
  | cons m metas ih =>
      have hcons : (m :: metas).forM removeBlockFile c =
          (removeBlockFile m >>= fun _ => metas.forM removeBlockFile) c := rfl
      rw [hcons, Action.bind_apply]
      rcases removeBlockFile_cases m c with hm | ⟨hrefused, fault, hm⟩
      · rw [hm]
        rcases ih { c with files := c.files.remove m.fileName } with
          hall | ⟨n, m', hm', hrefused, fault, hsome⟩
        · exact Or.inl hall
        · exact Or.inr ⟨n + 1, m', List.mem_cons_of_mem m hm', hrefused, fault, hsome⟩
      · rw [hm]
        exact Or.inr ⟨0, m, List.mem_cons_self, hrefused, fault, rfl⟩

/-- Files whose names are not too long are removed, unless the disk refuses one. -/
theorem forM_removeBlockFile {metas : List BlockMeta} (h : ∀ m ∈ metas, m.isNameable = true)
    (c : FileCache) (hdisk : ∀ name, DiskFault.remove? c.faults name = none) :
    metas.forM removeBlockFile c =
      .ok () { c with files := (metas.map BlockMeta.fileName).foldl Directory.remove c.files } := by
  rcases forM_removeBlockFile_cases metas c with hall | ⟨-, m, hm, hrefused, -⟩
  · exact hall
  · exact absurd (hdisk m.fileName) (hrefused (h m hm))

namespace Holds

variable {c : FileCache} {t : Keyed StoredBlock}

theorem find?_index (h : c.Holds t) (k : Int) :
    c.index.content.find? k = (t.find? k).map StoredBlock.facts := by
  rw [h.index, Keyed.find?_map]

theorem word (h : c.Holds t) (k : Int) (v : StoredBlock) (hv : t.find? k = some v) :
    0 ≤ k ∧ k < wordRange ∧ v.facts.hash.length = Block.hashLength :=
  h.words k v.facts (by rw [h.find?_index, hv]; rfl)

/-- The files are those of the blocks. -/
theorem files (h : c.Holds t) (name : String) (data : Bytes) :
    c.files.read? name = some data ↔
      ∃ k v, t.find? k = some v ∧ BlockMeta.nameAt k v.facts.hash = name ∧ v.data = data := by
  constructor
  · intro hread
    obtain ⟨k, facts, hfacts, rfl⟩ := h.tidy name (by rw [hread]; rfl)
    rw [h.find?_index, Option.map_eq_some_iff] at hfacts
    obtain ⟨v, hv, rfl⟩ := hfacts
    rw [h.data k v hv] at hread
    exact ⟨k, v, hv, rfl, Option.some.inj hread⟩
  · rintro ⟨k, v, hv, rfl, rfl⟩
    exact h.data k v hv

theorem empty {c : FileCache} (hrest : c.index.AtRest) (hindex : c.index.content = Keyed.empty)
    (hfiles : c.files = []) (hdisk : c.faults = []) : c.Holds Keyed.empty where
  atRest := hrest
  words k facts h := by rw [hindex] at h; cases h
  distinct := by rw [hfiles]; exact List.nodup_nil
  present k facts h := by rw [hindex] at h; cases h
  tidy name h := by rw [hfiles] at h; cases h
  disk := hdisk
  index := hindex
  data k v h := by cases h

/-- Only the content of the index counts, as long as no transaction is open on it. -/
theorem withIndex (h : c.Holds t) {index : Database (Keyed BlockFacts)} (hrest : index.AtRest)
    (hcontent : index.content = c.index.content) : Holds { c with index } t where
  atRest := hrest
  words := by rw [hcontent]; exact h.words
  distinct := h.distinct
  present := by rw [hcontent]; exact h.present
  tidy := by unfold Tidy; rw [hcontent]; exact h.tidy
  disk := h.disk
  index := hcontent.trans h.index
  data := h.data

theorem meta?_eq (h : c.Holds t) {height : Number} {k : Int} (hk : height.toInt? = some k) :
    c.meta? height = (t.find? k).map fun v => entry (k, v.facts) := by
  unfold meta?
  rw [hk]
  show (c.index.content.find? k).map _ = _
  rw [h.find?_index, Option.map_map]
  rfl

end Holds

/-! ## Truncating -/

/-- The entries above a height. -/
def entriesAbove (c : FileCache) (height : Number) : List BlockMeta :=
  (c.index.content.entries.filter fun e => decide (height < Number.int e.1)).map entry

/-- What truncating does to the index cannot fail. -/
theorem succeeds_truncateIndex (height : Number) :
    Database.Succeeds (do
      let metas ← Database.queryRows fun t : Keyed BlockFacts =>
        .ok ((t.entries.filter fun e => decide (height < Number.int e.1)).map entry)
      Database.run fun t => .ok (t.upTo height, ())
      return metas)
      fun t => ((t.entries.filter fun e => decide (height < Number.int e.1)).map entry,
        t.upTo height) :=
  (Database.succeeds_queryRows _).bind fun metas =>
    (Database.succeeds_run fun t => (Keyed.upTo t height, ())).bind fun _ =>
      Database.Succeeds.pure metas

/-- The index is truncated and then the files are removed, unless the disk refuses the image. -/
theorem truncate_cases {c : FileCache} (hrest : c.index.AtRest) (height : Number) :
    ∃ index : Database (Keyed BlockFacts), index.AtRest ∧
      index.content = c.index.content.upTo height ∧ index.fault = c.index.fault ∧
      (truncate height c = (entriesAbove c height).forM removeBlockFile { c with index } ∨
        DiskFault.image? c.faults ≠ none ∧ ∃ e, leavesFiles e = true ∧
          truncate height c = .error e { c with index }) := by
  obtain ⟨db, hopen, hcontent, hfault, hindex⟩ :=
    (succeeds_truncateIndex height).transactionEnding (commitIndex c.faults) hrest
  rcases commitIndex_eq hopen with hcommit | ⟨reason, himage, hcommit⟩
  · rw [hcommit] at hindex
    refine ⟨Database.saveIfIdle { db with before := none, inTransaction := false },
      Database.before_saveIfIdle _, ?_, ?_, Or.inl ?_⟩
    · rw [Database.content_saveIfIdle]
      exact hcontent
    · exact (Database.fault_saveIfIdle _).trans hfault
    · simp only [truncate, Action.storing, Action.mapFailure, onIndex, Action.within, truncateIndex,
        hindex]
      rfl
  · -- the transaction has ended, and rolling it back fails
    rw [hcommit] at hindex
    refine ⟨{ db with before := none, inTransaction := false }, rfl, hcontent, hfault,
      Or.inr ⟨by rw [himage]; exact Option.some_ne_none _,
        .unrecoverable (.store (.device reason)) (.store .noRollback), rfl, ?_⟩⟩
    simp only [truncate, Action.storing, Action.mapFailure, onIndex, Action.within, truncateIndex,
      hindex, Database.rollback]
    rfl

/-- A cache without the entries above a height, and without some of the files. -/
structure Cut (height : Number) (removed : List String) (c c' : FileCache) : Prop
    extends Framed c c' where
  content : c'.index.content = c.index.content.upTo height
  files : c'.files = removed.foldl Directory.remove c.files

theorem truncate_ok {c c' : FileCache} (hrest : c.index.AtRest) {height : Number}
    (h : truncate height c = .ok () c') :
    Cut height ((entriesAbove c height).map BlockMeta.fileName) c c' := by
  obtain ⟨index, hindex, hcontent, hfault, htruncate | ⟨-, e, -, htruncate⟩⟩ :=
    truncate_cases hrest height
  · rw [h] at htruncate
    rcases forM_removeBlockFile_cases (entriesAbove c height) { c with index } with
      hall | ⟨_, _, _, _, _, hsome⟩
    · cases htruncate.trans hall
      exact ⟨⟨rfl, rfl, rfl, hindex, hfault⟩, hcontent, rfl⟩
    · cases htruncate.trans hsome
  · cases h.symm.trans htruncate

/-- Truncating fails when the index cannot be trusted any longer or when a file cannot be
removed. -/
theorem truncate_error {c c' : FileCache} (hrest : c.index.AtRest) {height : Number} {e : Failure}
    (h : truncate height c = .error e c') (hleaves : leavesFiles e = false) :
    ∃ n, Cut height (((entriesAbove c height).take n).map BlockMeta.fileName) c c' ∧
      ∃ m ∈ entriesAbove c height,
        m.isNameable = true → DiskFault.remove? c.faults m.fileName ≠ none := by
  obtain ⟨index, hindex, hcontent, hfault, htruncate | ⟨-, e', hdoubt, htruncate⟩⟩ :=
    truncate_cases hrest height
  · rw [h] at htruncate
    rcases forM_removeBlockFile_cases (entriesAbove c height) { c with index } with
      hall | ⟨n, m, hm, hrefused, fault, hsome⟩
    · cases htruncate.trans hall
    · cases htruncate.trans hsome
      exact ⟨n, ⟨⟨rfl, rfl, rfl, hindex, hfault⟩, hcontent, rfl⟩, m, hm, hrefused⟩
  · cases h.symm.trans htruncate
    rw [hdoubt] at hleaves
    cases hleaves

namespace Sound

variable {c : FileCache}

theorem mem_names_entriesAbove (h : c.Sound) {height : Number} {name : String} :
    name ∈ (entriesAbove c height).map BlockMeta.fileName ↔
      ∃ k facts, c.index.content.find? k = some facts ∧ height < .int k ∧
        BlockMeta.nameAt k facts.hash = name := by
  unfold entriesAbove
  rw [List.map_map, List.mem_map]
  constructor
  · rintro ⟨⟨k, facts⟩, he, rfl⟩
    obtain ⟨he, hk⟩ := List.mem_filter.1 he
    have hfacts := Keyed.mem_entries_iff.1 he
    obtain ⟨h0, hlt, -⟩ := h.words k facts hfacts
    exact ⟨k, facts, hfacts, of_decide_eq_true hk, (fileName_entry h0 hlt facts).symm⟩
  · rintro ⟨k, facts, hfacts, hk, rfl⟩
    obtain ⟨h0, hlt, -⟩ := h.words k facts hfacts
    exact ⟨(k, facts), List.mem_filter.2 ⟨Keyed.mem_entries_iff.2 hfacts, decide_eq_true hk⟩,
      fileName_entry h0 hlt facts⟩

/-- An entry that stays has none of the names of those that go. -/
theorem notMem_names_entriesAbove (h : c.Sound) {height : Number} {k : Int} {facts : BlockFacts}
    (hfacts : c.index.content.find? k = some facts) (hk : ¬ height < .int k) :
    BlockMeta.nameAt k facts.hash ∉ (entriesAbove c height).map BlockMeta.fileName := by
  intro hmem
  obtain ⟨j, facts', hfacts', hj, hname⟩ := h.mem_names_entriesAbove.1 hmem
  rw [BlockMeta.nameAt_inj (h.words j facts' hfacts').1 (h.words k facts hfacts).1] at hname
  exact hk (hname.1 ▸ hj)

theorem isNameable_of_mem_entriesAbove (h : c.Sound) {height : Number} :
    ∀ m ∈ entriesAbove c height, m.isNameable = true := by
  intro m hm
  obtain ⟨⟨k, facts⟩, he, rfl⟩ := List.mem_map.1 hm
  obtain ⟨h0, hlt, hhash⟩ := h.words k facts (Keyed.mem_entries_iff.1 (List.mem_filter.1 he).1)
  exact isNameable_entry h0 hlt hhash

/-- Without the entries above a height and without some of their files, every entry has its file. -/
theorem cut (h : c.Sound) {height : Number} {removed : List String} {c' : FileCache}
    (hcut : Cut height removed c c')
    (hremoved : removed ⊆ (entriesAbove c height).map BlockMeta.fileName) : c'.Sound where
  atRest := hcut.atRest
  words k facts hfacts := by
    rw [hcut.content, Keyed.find?_upTo_eq_some] at hfacts
    exact h.words k facts hfacts.2
  distinct := by rw [hcut.files]; exact h.distinct.removeAll removed
  present k facts hfacts := by
    rw [hcut.content, Keyed.find?_upTo_eq_some] at hfacts
    obtain ⟨hk, hfacts⟩ := hfacts
    rw [hcut.files, Directory.read?_removeAll,
      if_neg fun hmem => h.notMem_names_entriesAbove hfacts hk (hremoved hmem)]
    exact h.present k facts hfacts

end Sound

/-- Without the entries above a height and without all of their files, no file is left over. -/
theorem Tidy.cut {c c' : FileCache} (h : c.Tidy) (hsound : c.Sound) {height : Number}
    (hcut : Cut height ((entriesAbove c height).map BlockMeta.fileName) c c') : c'.Tidy := by
  intro name hread
  rw [hcut.files, Directory.read?_removeAll] at hread
  split at hread
  · cases hread
  · rename_i hstays
    obtain ⟨k, facts, hfacts, hname⟩ := h name hread
    refine ⟨k, facts, ?_, hname⟩
    rw [hcut.content, Keyed.find?_upTo_eq_some]
    exact ⟨fun hk => hstays (hsound.mem_names_entriesAbove.2 ⟨k, facts, hfacts, hk, hname⟩), hfacts⟩

/-- **Truncating drops what lies above a height**, and cannot fail on a disk that refuses
nothing. -/
theorem Holds.of_truncate {c : FileCache} {t : Keyed StoredBlock} (h : c.Holds t)
    (height : Number) :
    ∃ c', FileCache.truncate height c = .ok () c' ∧ c'.Holds (t.upTo height) ∧
      c'.index.fault = c.index.fault := by
  have hdisk (name : String) : DiskFault.remove? c.faults name = none := by rw [h.disk]; rfl
  obtain ⟨index, -, -, -, htruncate | ⟨himage, -⟩⟩ := truncate_cases h.atRest height
  · rw [forM_removeBlockFile h.isNameable_of_mem_entriesAbove { c with index } hdisk] at htruncate
    have hcut := truncate_ok h.atRest htruncate
    refine ⟨_, htruncate, ⟨h.toSound.cut hcut (List.Subset.refl _), h.tidy.cut h.toSound hcut,
      h.disk, ?_, ?_⟩, hcut.fault⟩
    · rw [hcut.content, h.index, Keyed.upTo, Keyed.upTo, Keyed.map_filter]
    · intro k v hv
      obtain ⟨hk, hv⟩ := Keyed.find?_upTo_eq_some.1 hv
      have hfacts : c.index.content.find? k = some v.facts := by
        rw [h.find?_index, hv]
        rfl
      rw [hcut.files, Directory.read?_removeAll, if_neg (h.notMem_names_entriesAbove hfacts hk)]
      exact h.data k v hv
  · rw [h.disk] at himage
    exact absurd rfl himage

end FileCache
end LightSync
