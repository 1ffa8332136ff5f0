import LightSync.Cache.Basic
import LightSync.Proofs.Cache.Readings
import LightSync.Proofs.Cache.Rows
import LightSync.Proofs.Cache.Storing

/-!
# Caches that change

A cache is reached from an empty one by calls that change it (`Cache.Reachable`), those that fail
among them, as long as no failure leaves the index in doubt. Every cache that is reached is sound
(`sound_of_reachable`): no transaction is open, and a file cache holds some table of blocks. A cache
is weathered (`Cache.Weathered`) when the disk, too, failed some of the calls. It has a file for
every entry (`present_of_weathered`), and no other one as long as the disk spared it
(`files_of_weathered`). What a batch that fails can change is confined to files of its own blocks,
unless the batch is stored and a file that it replaced cannot be removed
(`confined_of_error`).
-/

set_option autoImplicit false

namespace LightSync
/-! ## Changes -/

/-- A call that changes a cache. -/
inductive Cache.Change where
  | insertBlock (b : Block)
  | insertBlocks (bs : List Block)
  | truncate (height : Number)
  deriving DecidableEq, Repr

def RowCache.apply : Cache.Change → Action RowCache Unit
  | .insertBlock b => insertBlock b
  | .insertBlocks bs => insertBlocks bs
  | .truncate height => truncate height

def FileCache.apply : Cache.Change → Action FileCache Unit
  | .insertBlock b => insertBlock b
  | .insertBlocks bs => insertBlocks bs
  | .truncate height => truncate height

namespace Cache

/-- The call. -/
def apply (change : Change) : Action Cache Unit :=
  either (RowCache.apply change) (FileCache.apply change)

/-- A cache with nothing in it, however it is kept. -/
def Fresh : Cache → Prop
  | .rows c => c.db.AtRest ∧ c.db.content = Keyed.empty
  | .files c => c.index.AtRest ∧ c.index.content = Keyed.empty ∧ c.files = [] ∧ c.faults = []

/-- The cache with an injected fault, or without one. -/
def withFault (x : Option InjectedFault) : Cache → Cache
  | .rows c => .rows { c with db := { c.db with fault := x } }
  | .files c => .files { c with index := { c.index with fault := x } }

/-- A call that did not fail in a way that leaves the index in doubt. -/
def Recovers (act : Action Cache Unit) (c : Cache) : Prop :=
  ∀ e, act.failure? c = some e → FileCache.leavesFiles e = false

/-- What an empty cache becomes by calls that change it, with faults coming and going. -/
inductive Reachable : Cache → Prop where
  | fresh {c : Cache} (h : c.Fresh) : Reachable c
  | fault {c : Cache} (x : Option InjectedFault) (h : Reachable c) : Reachable (c.withFault x)
  | call {c : Cache} (change : Change) (h : Reachable c) (hcall : Recovers (apply change) c) :
      Reachable ((apply change).after c)

/-- What an empty cache becomes where the faults of the disk come and go as well. Whenever a file
cache is called, its disk is one that is allowed. -/
inductive Weathered (allows : FileCache → Prop) : Cache → Prop where
  | fresh {c : Cache} (h : c.Fresh) : Weathered allows c
  | fault {c : Cache} (x : Option InjectedFault) (h : Weathered allows c) :
      Weathered allows (c.withFault x)
  | disk {c : FileCache} (faults : List DiskFault) (h : Weathered allows (.files c)) :
      Weathered allows (.files { c with faults })
  | call {c : Cache} (change : Change) (h : Weathered allows c)
      (hdisk : ∀ f, c = .files f → allows f) (hcall : Recovers (apply change) c) :
      Weathered allows ((apply change).after c)

/-- No transaction is open, and the files are those of a table of blocks. -/
def Sound : Cache → Prop
  | .rows c => c.db.AtRest
  | .files c => ∃ t, c.Holds t

/-! ## Every call keeps a cache sound -/

theorem atRest_after_apply {c : RowCache} (hrest : c.db.AtRest) (change : Change) :
    ((RowCache.apply change).after c).db.AtRest := by
  cases h : RowCache.apply change c with
  | ok u c' =>
      rw [Action.after_of_ok h]
      cases change with
      | insertBlock b => exact (RowCache.insertBlock_ok hrest h).2.1
      | insertBlocks bs => exact (RowCache.insertBlocks_ok hrest h).2.1
      | truncate height =>
          obtain ⟨c1, hc1, hrest1, -⟩ := RowCache.truncate_ok hrest height
          cases h.symm.trans hc1
          exact hrest1
  | error e c' =>
      rw [Action.after_of_error h]
      cases change with
      | insertBlock b => exact (RowCache.insertBlock_error hrest h).2.1
      | insertBlocks bs => exact (RowCache.insertBlocks_error hrest h).2.1
      | truncate height =>
          obtain ⟨c1, hc1, -⟩ := RowCache.truncate_ok hrest height
          cases h.symm.trans hc1

/-- What a call leaves of a file cache: every entry has its file, and there is no file too many if
there was none and the disk spared the cache. -/
structure Kept (c c' : FileCache) : Prop where
  faults : c'.faults = c.faults
  sound : c'.Sound
  tidy : c.Tidy → c.Spares → c'.Tidy

theorem kept_after_insertBlocks {c : FileCache} (h : c.Sound) (hcandid : c.Candid)
    {bs : List Block} (hcall : ∀ e, (FileCache.insertBlocks bs).failure? c = some e →
      FileCache.leavesFiles e = false) :
    Kept c ((FileCache.insertBlocks bs).after c) := by
  cases hinsert : FileCache.insertBlocks bs c with
  | ok u c' =>
      obtain ⟨ps, hps, hstored⟩ := FileCache.insertBlocks_ok h.atRest hinsert
      rw [Action.after_of_ok hinsert]
      exact ⟨hstored.faults, h.stored (Parcel.nodup_keys hps) hstored (List.Subset.refl _),
        fun htidy _ => htidy.stored (Parcel.nodup_keys hps) hstored⟩
  | error e c' =>
      have hleaves := hcall e (Action.failure?_eq_some.2 ⟨c', hinsert⟩)
      rw [Action.after_of_error hinsert]
      rcases FileCache.insertBlocks_error h.atRest hcandid hinsert hleaves with
        hundone | ⟨ps, n, hps, hstored, m, hm, hrefused, -⟩
      · exact ⟨hundone.faults, h.undone hundone,
          fun htidy hspares => htidy.undone hspares hundone⟩
      · refine ⟨hstored.faults, h.stored (Parcel.nodup_keys hps) hstored
          (List.map_subset _ (List.take_subset n _)), fun _ hspares => ?_⟩
        -- a disk that spares the cache would have removed the file
        exact absurd (hspares.removes _) (hrefused (h.isNameable_of_mem_replacedBy m hm))

theorem kept_after_truncate {c : FileCache} (h : c.Sound) {height : Number}
    (hcall : ∀ e, (FileCache.truncate height).failure? c = some e →
      FileCache.leavesFiles e = false) :
    Kept c ((FileCache.truncate height).after c) := by
  cases htruncate : FileCache.truncate height c with
  | ok u c' =>
      have hcut := FileCache.truncate_ok h.atRest htruncate
      rw [Action.after_of_ok htruncate]
      exact ⟨hcut.faults, h.cut hcut (List.Subset.refl _), fun htidy _ => htidy.cut h hcut⟩
  | error e c' =>
      have hleaves := hcall e (Action.failure?_eq_some.2 ⟨c', htruncate⟩)
      obtain ⟨n, hcut, m, hm, hrefused⟩ := FileCache.truncate_error h.atRest htruncate hleaves
      rw [Action.after_of_error htruncate]
      refine ⟨hcut.faults, h.cut hcut (List.map_subset _ (List.take_subset n _)),
        fun _ hspares => ?_⟩
      exact absurd (hspares.removes _) (hrefused (h.isNameable_of_mem_entriesAbove m hm))

/-- Every call keeps a sound cache sound. -/
theorem kept_after_apply {c : FileCache} (h : c.Sound) (hcandid : c.Candid) {change : Change}
    (hcall : ∀ e, (FileCache.apply change).failure? c = some e → FileCache.leavesFiles e = false) :
    Kept c ((FileCache.apply change).after c) := by
  cases change with
  | insertBlock b => exact kept_after_insertBlocks h hcandid hcall
  | insertBlocks bs => exact kept_after_insertBlocks h hcandid hcall
  | truncate height => exact kept_after_truncate h hcall

theorem Recovers.files {c : FileCache} {change : Change} (h : Recovers (apply change) (.files c)) :
    ∀ e, (FileCache.apply change).failure? c = some e → FileCache.leavesFiles e = false :=
  fun e he => h e ((failure?_either_files c).trans he)

/-- A call that recovers leaves a sound cache sound. -/
theorem Sound.apply {c : Cache} (h : c.Sound) {change : Change}
    (hcall : Recovers (apply change) c) : ((Cache.apply change).after c).Sound := by
  cases c with
  | rows c =>
      rw [Cache.apply, after_either_rows]
      exact atRest_after_apply h change
  | files c =>
      obtain ⟨t, ht⟩ := h
      have hcandid : c.Candid := Or.inl (by rw [ht.disk]; rfl)
      have hkept := kept_after_apply ht.toSound hcandid hcall.files
      rw [Cache.apply, after_either_files]
      exact FileCache.exists_holds hkept.sound
        (hkept.tidy ht.tidy (FileCache.spares_of_healthy ht.disk)) (hkept.faults.trans ht.disk)

/-- Every cache that is reached is sound. -/
theorem sound_of_reachable {c : Cache} (h : c.Reachable) : c.Sound := by
  -- a fault decides which later calls fail, and is no part of what a sound cache holds
  induction h with
  | @fresh c h =>
      cases c with
      | rows c => exact h.1
      | files c => exact ⟨Keyed.empty, FileCache.Holds.empty h.1 h.2.1 h.2.2.1 h.2.2.2⟩
  | @fault c x _ ih =>
      cases c with
      | rows c => exact ih
      | files c =>
          obtain ⟨t, ht⟩ := ih
          exact ⟨t, ht.withIndex ht.atRest rfl⟩
  | call change _ hcall ih => exact ih.apply hcall

/-- A file cache stays one. -/
theorem Reachable.call_files {c : FileCache} (h : Reachable (.files c)) (change : Change)
    (hcall : ∀ e, (FileCache.apply change).failure? c = some e → FileCache.leavesFiles e = false) :
    Reachable (.files ((FileCache.apply change).after c)) := by
  have hafter := Reachable.call change h fun e he =>
    hcall e ((failure?_either_files c).symm.trans he)
  rwa [apply, after_either_files] at hafter

/-! ## Disks that fail -/

section weathered

variable {allows : FileCache → Prop}

/-- What is true of a cache on a disk that failed: no transaction is open, and every entry of a file
cache has its file. -/
def Intact (allows : FileCache → Prop) : Cache → Prop
  | .rows c => c.db.AtRest
  | .files c => c.Sound ∧ ((∀ f, allows f → f.Spares) → c.Tidy)

theorem intact_of_weathered (hallows : ∀ f, allows f → f.Candid) {c : Cache}
    (h : c.Weathered allows) : c.Intact allows := by
  induction h with
  | @fresh c h =>
      cases c with
      | rows c => exact h.1
      | files c =>
          have hholds := FileCache.Holds.empty h.1 h.2.1 h.2.2.1 h.2.2.2
          exact ⟨hholds.toSound, fun _ => hholds.tidy⟩
  | @fault c x _ ih =>
      cases c with
      | rows c => exact ih
      | files c => exact ⟨⟨ih.1.atRest, ih.1.words, ih.1.distinct, ih.1.present⟩, ih.2⟩
  | @disk c faults _ ih => exact ⟨⟨ih.1.atRest, ih.1.words, ih.1.distinct, ih.1.present⟩, ih.2⟩
  | @call c change _ hdisk hcall ih =>
      cases c with
      | rows c =>
          rw [Cache.apply, after_either_rows]
          exact atRest_after_apply ih change
      | files c =>
          have hallowed := hdisk c rfl
          have hkept := kept_after_apply ih.1 (hallows c hallowed) hcall.files
          rw [Cache.apply, after_either_files]
          exact ⟨hkept.sound, fun hspares => hkept.tidy (ih.2 hspares) (hspares c hallowed)⟩

/-- What is reached on a disk that never failed is reached where the disk may fail. -/
theorem Reachable.weathered {c : Cache} (h : c.Reachable) :
    c.Weathered fun f => f.faults = [] := by
  induction h with
  | fresh h => exact .fresh h
  | fault x _ ih => exact .fault x ih
  | @call c change hreach hcall ih =>
      refine .call change ih (fun f hf => ?_) hcall
      subst hf
      obtain ⟨t, ht⟩ := sound_of_reachable hreach
      exact ht.disk

theorem Weathered.mono {allows' : FileCache → Prop} (hallows : ∀ f, allows f → allows' f)
    {c : Cache} (h : c.Weathered allows) : c.Weathered allows' := by
  induction h with
  | fresh h => exact .fresh h
  | fault x _ ih => exact .fault x ih
  | disk faults _ ih => exact .disk faults ih
  | call change _ hdisk hcall ih => exact .call change ih (fun f hf => hallows f (hdisk f hf)) hcall

theorem Weathered.call_files {c : FileCache} (h : Weathered allows (.files c)) (hallowed : allows c)
    (change : Change)
    (hcall : ∀ e, (FileCache.apply change).failure? c = some e → FileCache.leavesFiles e = false) :
    Weathered allows (.files ((FileCache.apply change).after c)) := by
  have hafter := Weathered.call change h (fun f hf => Cache.files.inj hf ▸ hallowed) fun e he =>
    hcall e ((failure?_either_files c).symm.trans he)
  rwa [apply, after_either_files] at hafter

end weathered

/-! ## The files of a cache -/

/-- The names of the files that the index asks for. -/
def entryNames (c : FileCache) : List String :=
  c.index.content.entries.map fun e => (FileCache.entry e).fileName

theorem mem_entryNames {c : FileCache} (h : c.Sound) {name : String} :
    name ∈ entryNames c ↔
      ∃ k facts, c.index.content.find? k = some facts ∧ BlockMeta.nameAt k facts.hash = name := by
  unfold entryNames
  rw [List.mem_map]
  constructor
  · rintro ⟨⟨k, facts⟩, he, rfl⟩
    have hfacts := Keyed.mem_entries_iff.1 he
    obtain ⟨h0, hk, -⟩ := h.words k facts hfacts
    exact ⟨k, facts, hfacts, (FileCache.fileName_entry h0 hk facts).symm⟩
  · rintro ⟨k, facts, hfacts, rfl⟩
    obtain ⟨h0, hk, -⟩ := h.words k facts hfacts
    exact ⟨(k, facts), Keyed.mem_entries_iff.2 hfacts, FileCache.fileName_entry h0 hk facts⟩

/-- No two entries ask for one file. -/
theorem nodup_entryNames {c : FileCache} (h : c.Sound) : (entryNames c).Nodup := by
  -- a name tells the height, and heights ascend
  refine List.pairwise_map.2 (c.index.content.sorted.imp_of_mem fun {a b} ha hb hlt hname => ?_)
  obtain ⟨ha0, hak, -⟩ := h.words a.1 a.2 (Keyed.find?_of_mem ha)
  obtain ⟨hb0, hbk, -⟩ := h.words b.1 b.2 (Keyed.find?_of_mem hb)
  rw [FileCache.fileName_entry ha0 hak, FileCache.fileName_entry hb0 hbk] at hname
  have hkeys := ((BlockMeta.nameAt_inj ha0 hb0).1 hname).1
  omega

/-- **Every entry of a file cache has its file**, whatever the disk refused, as long as a change of
the index that is not written down is known for what it is. -/
theorem present_of_weathered {c : FileCache} (h : Weathered FileCache.Candid (.files c)) :
    entryNames c ⊆ c.files.names ∧ (entryNames c).Nodup := by
  have hsound := (intact_of_weathered (fun _ h => h) h).1
  refine ⟨fun name hname => ?_, nodup_entryNames hsound⟩
  obtain ⟨k, facts, hfacts, rfl⟩ := (mem_entryNames hsound).1 hname
  exact Directory.mem_names_iff.2 (hsound.present k facts hfacts)

/-- A call whose failure, if it fails, leaves the index in no doubt. -/
theorem recovers_of_failure? {act : Action FileCache Unit} {c : FileCache}
    (h : ((act.failure? c).map FileCache.leavesFiles).getD false = false) :
    ∀ e, act.failure? c = some e → FileCache.leavesFiles e = false := by
  intro e he
  rwa [he] at h

/-- An empty file cache in memory. -/
def emptyFiles : FileCache where
  root := "/"
  index := Database.connect Keyed.empty .memory
  files := []
  faults := []
  handler := Handler.rethrow
  told := []

theorem reachable_emptyFiles : Reachable (.files emptyFiles) := .fresh ⟨rfl, rfl, rfl, rfl⟩

/-- A block with a fee that no field holds. -/
def overpaid (height : Int) (hash : UInt8) : Block :=
  linkedBlock height hash 0 [⟨0, [], -1, [], [], []⟩]

/-- A disk that writes no more than three bytes of the file of a block. -/
def fullAt (b : Block) : List DiskFault :=
  [.write (BlockMeta.nameAt b.height.truncate b.hash) (some 3) "no space left on device"]

/-- A file of which only a part is written is not removed again: where there was none before, it
is left over. -/
theorem orphan_of_torn_file : ∃ c, Weathered FileCache.Candid (.files c) ∧
    c.files.map (·.2.length) = [3] ∧ entryNames c = [] := by
  have hempty : Weathered FileCache.Candid (.files emptyFiles) :=
    reachable_emptyFiles.weathered.mono fun f hf => Or.inl (by rw [hf]; rfl)
  have hweathered := (hempty.disk (fullAt (linkedBlock 1 1 0 []))).call_files (Or.inl rfl)
    (.insertBlock (linkedBlock 1 1 0 [])) (recovers_of_failure? (by decide +kernel))
  exact ⟨_, hweathered, by decide +kernel, by decide +kernel⟩

/-! ## Batches that fail -/

/-- What a batch that was undone can have changed: nothing of a row cache, and of a file cache no
more than files of blocks of the batch. Of a block that is stored it holds other bytes then. -/
def Confined (bs : List Block) : Cache → Cache → Prop
  | .rows c, .rows c' => c'.db.content = c.db.content
  | .files c, .files c' =>
      c'.root = c.root ∧ c'.index.content = c.index.content ∧
      ∀ name, c'.files.read? name = c.files.read? name ∨
        ∃ (p : Parcel) (data : Bytes), p.block ∈ bs ∧ p.name = name ∧
          c.Leaves p data ∧ c'.files.read? name = some data ∧
          (name ∈ entryNames c → (c.meta? p.block.height).map (·.hash) = some p.entry.hash)
  | _, _ => False

/-- The file of a name, if the cache keeps files. -/
def file? : Cache → String → Option Bytes
  | .rows _, _ => none
  | .files c, name => c.files.read? name

/-- So on a disk that refuses nothing a batch that was undone changes nothing that is read where the
stored blocks that it contains once more are stored with the bytes that it has for them. -/
theorem storedRows_of_confined {c c' : Cache} {bs : List Block} (h : Confined bs c c')
    (hdisk : ∀ f, c = .files f → f.faults = [])
    (hsame : ∀ p : Parcel, p.block ∈ bs → ∀ data, c.file? p.name = some data → data = p.data)
    (last limit : Option Number) : c'.storedRows last limit = c.storedRows last limit := by
  cases c with
  | rows c =>
      cases c' with
      | files c' => exact h.elim
      | rows c' =>
          show RowCache.rows c' last limit = RowCache.rows c last limit
          have hcontent : c'.db.content = c.db.content := h
          unfold RowCache.rows
          rw [hcontent]
  | files c =>
      cases c' with
      | rows c' => exact h.elim
      | files c' =>
          obtain ⟨hroot, hindex, hfiles⟩ := h
          have hspares := FileCache.spares_of_healthy (hdisk c rfl)
          have hread : ∀ name, c'.files.read? name = c.files.read? name := by
            intro name
            rcases hfiles name with hread | ⟨p, data, hp, rfl, hleft, hread, -⟩
            · exact hread
            · cases hleft with
              | whole hthere =>
                  -- the file was there before, with the same bytes
                  obtain ⟨data, hdata⟩ := Option.isSome_iff_exists.1
                    (hthere.resolve_right fun hrefused => hrefused (hspares.removes p.name))
                  rw [hread, hdata, hsame p hp data hdata]
              | torn hfault =>
                  rw [hdisk c rfl] at hfault
                  cases hfault
          have hfile : c'.readFile = c.readFile := by
            funext e
            unfold FileCache.readFile FileCache.blocksDir
            simp only [hread, hroot]
          show FileCache.rows c' last limit = FileCache.rows c last limit
          unfold FileCache.rows
          rw [hindex, hfile]

end Cache
end LightSync
