import LightSync.Proofs.Cache.Holdings

/-!
# Storing a batch in a file cache

The files of a batch are written first, then its entries, and then the files that it replaced are
removed. A batch ends in one of two ways: it is in the index (`Stored`), even if a file that it
replaced could not be removed, or it was undone (`Undone`), and then all that is left of it is what
was written over files that were there, or what the disk did not give back
(`insertBlocks_ok`, `insertBlocks_error`). Either way every entry has its file, and no file is left
over on a disk that spares the cache (`Spares`).
-/

set_option autoImplicit false

namespace LightSync
namespace FileCache

/-! ## The steps of a batch -/

/-- The files of a batch, the entries, and the removal of what was replaced; or back. -/
theorem insertBlocks_eq (bs : List Block) (c : FileCache) :
    insertBlocks bs c = match (onePerHeight bs).forM writeFile ⟨c, [], [], []⟩ with
      | .error e batch =>
          .error e (if leavesFiles e then batch.cache else batch.cache.discardFiles batch.created)
      | .ok _ batch => match writeMetadata batch.metas batch.cache with
        | .ok _ c' => batch.replaced.forM removeBlockFile c'
        | .error e c' =>
            .error e (if leavesFiles e then c' else c'.discardFiles batch.created) := by
  simp only [insertBlocks, Action.bind_apply]
  cases (onePerHeight bs).forM writeFile ⟨c, [], [], []⟩ with
  | error e batch => rfl
  | ok u batch =>
      have hget : (get : Action Batch Batch) batch = .ok batch batch := rfl
      simp only [hget, Action.within]
      cases writeMetadata batch.metas batch.cache with
      | ok u c' => rfl
      | error e c' => rfl

/-- The cache once the files of parcels are written. -/
def withFiles (c : FileCache) (ps : List Parcel) : FileCache :=
  { c with files := writeAll c.files ps }

/-- A batch whose files are all written goes on with its entries, and then removes what they
replaced. -/
theorem insertBlocks_of_writes {bs : List Block} {c : FileCache} {ps : List Parcel}
    (hps : onePerHeight bs = ps.map Parcel.block)
    (hwrites : ∀ p ∈ ps, DiskFault.write? c.faults p.name = none) :
    ∃ created, Adds c ps created ∧ insertBlocks bs c =
      match writeMetadata (ps.map Parcel.entry) (c.withFiles ps) with
      | .ok _ c' => (replacedBy c ps).forM removeBlockFile c'
      | .error e c' => .error e (if leavesFiles e then c' else c'.discardFiles created) := by
  have hwrote : Batch.Wrote c ps _ := wrote_foldl_add (wrote_nil c) ps
  refine ⟨_, hwrote.created, ?_⟩
  rw [insertBlocks_eq, hps, forM_writeFile_parcels hwrites]
  dsimp only
  rw [hwrote.metas, hwrote.cache, hwrote.replaced]
  rfl

/-- A batch stops at a block, or all of its files are written. -/
theorem insertBlocks_cases (bs : List Block) (c : FileCache) :
    (∃ (ps : List Parcel) (created : List String), onePerHeight bs = ps.map Parcel.block ∧
      Adds c ps created ∧ insertBlocks bs c =
        match writeMetadata (ps.map Parcel.entry) (c.withFiles ps) with
        | .ok _ c' => (replacedBy c ps).forM removeBlockFile c'
        | .error e c' => .error e (if leavesFiles e then c' else c'.discardFiles created)) ∨
    ∃ (ps : List Parcel) (b : Block) (rest : List Block) (e : Failure)
      (part : Directory → Directory) (created : List String),
      onePerHeight bs = ps.map Parcel.block ++ b :: rest ∧ StopsAt c.faults b e part ∧
      Adds c ps created ∧ insertBlocks bs c =
        let stopped := { c with files := part (writeAll c.files ps) }
        .error e (if leavesFiles e then stopped else stopped.discardFiles created) := by
  rcases forM_writeFile (onePerHeight bs) ⟨c, [], [], []⟩ with
    ⟨ps, hps, hwrites⟩ | ⟨ps, b, rest, e, part, replaced, hps, hstop, hwrite⟩
  · obtain ⟨created, hcreated, hinsert⟩ := insertBlocks_of_writes hps hwrites
    exact Or.inl ⟨ps, created, hps, hcreated, hinsert⟩
  · have hwrote : Batch.Wrote c ps _ := wrote_foldl_add (wrote_nil c) ps
    refine Or.inr ⟨ps, b, rest, e, part, _, hps, hstop, hwrote.created, ?_⟩
    rw [insertBlocks_eq, hwrite]
    dsimp only
    rw [hwrote.cache]

/-- What is left of a parcel of a batch that was undone: all of its bytes, written over a file that
was there or in one that the disk does not remove, or the first of them, where the disk refused to
write more. -/
inductive Leaves (c : FileCache) (p : Parcel) : Bytes → Prop where
  | whole (h : (c.files.read? p.name).isSome = true ∨ DiskFault.remove? c.faults p.name ≠ none) :
      Leaves c p p.data
  | torn {n : Nat} {reason : String}
      (h : DiskFault.write? c.faults p.name = some (some n, reason)) : Leaves c p (p.data.take n)

/-- There is something left in a file of a block of the batch. -/
def Remnant (bs : List Block) (c : FileCache) (name : String) (read : Option Bytes) : Prop :=
  ∃ (p : Parcel) (data : Bytes), p.block ∈ bs ∧ p.name = name ∧ c.Leaves p data ∧ read = some data

/-- A batch that was undone: the index has what it had, and a file is as it was, or there is
something left in it of a block of the batch. -/
structure Undone (bs : List Block) (c c' : FileCache) : Prop extends Framed c c' where
  content : c'.index.content = c.index.content
  distinct : c.files.Distinct → c'.files.Distinct
  files : ∀ name, c'.files.read? name = c.files.read? name ∨
    Remnant bs c name (c'.files.read? name)

/-- A batch that is in the index, and of the files that it replaced some are removed. -/
structure Stored (ps : List Parcel) (removed : List String) (c c' : FileCache) : Prop
    extends Framed c c' where
  content : c'.index.content = c.index.content.insertAll (ps.map fun p => (p.key, p.facts))
  files : c'.files = removed.foldl Directory.remove (writeAll c.files ps)

/-! ## Batches that are undone -/

section undone

variable {bs : List Block} {c c' : FileCache} {ps : List Parcel} {created : List String}

/-- What a file reads as once parcels were written and the new files are discarded. -/
theorem read?_discardFiles (hps : ∀ p ∈ ps, p.block ∈ bs)
    (hcreated : Adds c ps created) {d : Directory}
    (hd : ∀ name, d.read? name = (writeAll c.files ps).read? name ∨
      Remnant bs c name (d.read? name))
    (hkeys : (ps.map Parcel.key).Nodup) (name : String) :
    let removable := created.filter fun name => (DiskFault.remove? c.faults name).isNone
    (removable.foldl Directory.remove d).read? name = c.files.read? name ∨
      Remnant bs c name ((removable.foldl Directory.remove d).read? name) := by
  intro removable
  rw [Directory.read?_removeAll]
  split
  · -- a new file is gone, and was not there before
    rename_i hgone
    exact Or.inl ((hcreated name).1 (List.mem_filter.1 hgone).1).1.symm
  · rename_i hstays
    rcases hd name with hread | hleft
    · rw [hread]
      by_cases hwritten : ∃ p ∈ ps, p.name = name
      · obtain ⟨p, hp, rfl⟩ := hwritten
        refine Or.inr ⟨p, p.data, hps p hp, rfl, .whole ?_, read?_writeAll_of_mem hkeys hp⟩
        -- a file that stays is not new, or it cannot be removed
        cases hold : c.files.read? p.name with
        | some data => exact Or.inl rfl
        | none =>
            refine Or.inr fun hremovable => hstays (List.mem_filter.2 ⟨?_, ?_⟩)
            · exact (hcreated p.name).2 ⟨hold, p, hp, rfl⟩
            · rw [hremovable]
              rfl
      · exact Or.inl (read?_writeAll_of_notMem fun p hp hname => hwritten ⟨p, hp, hname⟩)
    · exact Or.inr hleft

/-- A block at which a batch stops leaves the directory as it is, or a part of its own file. -/
theorem StopsAt.read? {b : Block} {e : Failure} {part : Directory → Directory}
    (h : StopsAt c.faults b e part) (hb : b ∈ bs) (d : Directory) (name : String) :
    (part d).read? name = d.read? name ∨ Remnant bs c name ((part d).read? name) := by
  cases h with
  | refused h => exact Or.inl rfl
  | @unwritten p written reason hp hfault =>
      cases written with
      | none => exact Or.inl rfl
      | some n =>
          show (d.write p.name (p.data.take n)).read? name = _ ∨ _
          rw [Directory.read?_write]
          split
          · rename_i hname
            refine Or.inr ⟨p, _, hp ▸ hb, hname.symm, .torn hfault, ?_⟩
            show (d.write p.name (p.data.take n)).read? name = _
            rw [Directory.read?_write, if_pos hname]
          · exact Or.inl rfl

theorem StopsAt.distinct {b : Block} {e : Failure} {part : Directory → Directory}
    (h : StopsAt c.faults b e part) {d : Directory} (hd : d.Distinct) : (part d).Distinct := by
  cases h with
  | refused h => exact hd
  | unwritten hp hfault => exact hd.writePart _ _ _

/-- The new files are discarded after the index was left as it was. -/
theorem undone_discardFiles (hps : ∀ p ∈ ps, p.block ∈ bs) (hkeys : (ps.map Parcel.key).Nodup)
    (hcreated : Adds c ps created) {d : Directory} {index : Database (Keyed BlockFacts)} {told : List Failure}
    (hd : ∀ name, d.read? name = (writeAll c.files ps).read? name ∨
      Remnant bs c name (d.read? name))
    (hdistinct : c.files.Distinct → d.Distinct) (hrest : index.AtRest)
    (hfault : index.fault = c.index.fault) (hcontent : index.content = c.index.content) :
    Undone bs c ({ c with index, told, files := d }.discardFiles created) where
  toFramed := ⟨rfl, rfl, rfl, hrest, hfault⟩
  content := hcontent
  distinct h := (hdistinct h).removeAll _
  files := read?_discardFiles hps hcreated hd hkeys

end undone

/-! ## How a batch ends -/

/-- Parcels whose entries are written are stored, whatever is removed then. -/
theorem stored_of_writeMetadata {c c' : FileCache} {ps : List Parcel} (hrest : c.index.AtRest)
    (h : writeMetadata (ps.map Parcel.entry) (c.withFiles ps) = .ok () c')
    (removed : List String) :
    Stored ps removed c { c' with files := removed.foldl Directory.remove c'.files } := by
  obtain ⟨hc', hrest', hfault, hcontent⟩ :=
    writeMetadata_ok (show (c.withFiles ps).index.AtRest from hrest) h
  rw [forM_indexed] at hcontent
  rw [hc']
  exact ⟨⟨rfl, rfl, rfl, hrest', hfault⟩, (Prod.mk.inj (Except.ok.inj hcontent)).2.symm, rfl⟩

/-- A batch that is stored consists of parcels, and what it replaced is removed. -/
theorem insertBlocks_ok {bs : List Block} {c c' : FileCache} (hrest : c.index.AtRest)
    (h : insertBlocks bs c = .ok () c') :
    ∃ ps, onePerHeight bs = ps.map Parcel.block ∧
      Stored ps ((replacedBy c ps).map BlockMeta.fileName) c c' := by
  rcases insertBlocks_cases bs c with
    ⟨ps, created, hps, -, hinsert⟩ | ⟨ps, b, rest, e, part, created, -, -, -, hinsert⟩
  · rw [hinsert] at h
    split at h
    · rename_i c1 hmeta
      rcases forM_removeBlockFile_cases (replacedBy c ps) c1 with hall | ⟨_, _, _, _, _, hsome⟩
      · cases hall.symm.trans h
        exact ⟨ps, hps, stored_of_writeMetadata hrest hmeta _⟩
      · cases hsome.symm.trans h
    · cases h
  · cases hinsert.symm.trans h

/-- A batch that fails is undone, unless a file that it replaced could not be removed. -/
theorem insertBlocks_error {bs : List Block} {c c' : FileCache} {e : Failure}
    (hrest : c.index.AtRest) (hcandid : c.Candid) (h : insertBlocks bs c = .error e c')
    (hleaves : leavesFiles e = false) :
    Undone bs c c' ∨
      ∃ ps n, onePerHeight bs = ps.map Parcel.block ∧
        Stored ps (((replacedBy c ps).take n).map BlockMeta.fileName) c c' ∧
        ∃ m ∈ replacedBy c ps,
          (m.isNameable = true → DiskFault.remove? c.faults m.fileName ≠ none) ∧
          ∃ fault, e = .storage (.removeBlockFile m.height) (.store fault) := by
  rcases insertBlocks_cases bs c with
    ⟨ps, created, hps, hcreated, hinsert⟩ |
      ⟨ps, b, rest, e1, part, created, hps, hstop, hcreated, hinsert⟩
  · rw [hinsert] at h
    split at h
    · rename_i c1 hmeta
      rcases forM_removeBlockFile_cases (replacedBy c ps) c1 with
        hall | ⟨n, m, hm, hrefused, fault, hsome⟩
      · cases hall.symm.trans h
      · -- the batch is in the index, and a file that it replaced stays
        cases hsome.symm.trans h
        have hstored := stored_of_writeMetadata hrest hmeta
          (((replacedBy c ps).take n).map BlockMeta.fileName)
        have hfaults : c1.faults = c.faults := hstored.faults
        rw [hfaults] at hrefused
        exact Or.inr ⟨ps, n, hps, hstored, m, hm, hrefused, fault, rfl⟩
    · -- the entries are refused
      rename_i e1 c1 hmeta
      cases h
      obtain ⟨hc1, hrest1, hfault, hcontent⟩ :=
        writeMetadata_error (show (c.withFiles ps).index.AtRest from hrest) hmeta
      rw [hleaves, hc1]
      refine Or.inl (undone_discardFiles ?_ (Parcel.nodup_keys hps) hcreated (fun _ => Or.inl rfl)
        (fun hd => distinct_writeAll hd ps) hrest1 hfault (hcontent hcandid hleaves))
      intro p hp
      exact mem_of_mem_onePerHeight (hps ▸ List.mem_map_of_mem hp)
  · -- the batch stops at a block, before its entries
    have hmem : ∀ a ∈ ps.map Parcel.block ++ b :: rest, a ∈ bs := fun a ha =>
      mem_of_mem_onePerHeight (hps ▸ ha)
    cases hinsert.symm.trans h
    rw [hleaves]
    refine Or.inl (undone_discardFiles ?_ (Parcel.nodup_keys_append hps) hcreated ?_
      (fun hd => hstop.distinct (distinct_writeAll hd ps)) hrest rfl rfl)
    · intro p hp
      exact hmem _ (List.mem_append_left _ (List.mem_map_of_mem hp))
    · exact hstop.read? (hmem b (List.mem_append_right _ List.mem_cons_self)) _

/-! ## What a batch replaces -/

/-- The entries that parcels replace are those at their heights with other hashes. -/
theorem mem_replacedBy {c : FileCache} {ps : List Parcel} {m : BlockMeta} :
    m ∈ replacedBy c ps ↔ ∃ p ∈ ps, ∃ facts, c.index.content.find? p.key = some facts ∧
      facts.hash ≠ p.entry.hash ∧ m = entry (p.key, facts) := by
  unfold replacedBy meta?
  rw [List.mem_flatMap]
  refine exists_congr fun p => and_congr_right fun _ => ?_
  rw [p.word_key.1, Option.bind_some, Option.mem_toList, Option.filter_eq_some_iff,
    Option.map_eq_some_iff]
  constructor
  · rintro ⟨⟨facts, hfacts, rfl⟩, hhash⟩
    exact ⟨facts, hfacts, of_decide_eq_true hhash, rfl⟩
  · rintro ⟨facts, hfacts, hhash, rfl⟩
    exact ⟨⟨facts, hfacts, rfl⟩, decide_eq_true hhash⟩

theorem mem_names_replacedBy {c : FileCache} {ps : List Parcel} {name : String} :
    name ∈ (replacedBy c ps).map BlockMeta.fileName ↔
      ∃ p ∈ ps, ∃ facts, c.index.content.find? p.key = some facts ∧ facts.hash ≠ p.entry.hash ∧
        BlockMeta.nameAt p.key facts.hash = name := by
  rw [List.mem_map]
  constructor
  · rintro ⟨m, hm, rfl⟩
    obtain ⟨p, hp, facts, hfacts, hhash, rfl⟩ := mem_replacedBy.1 hm
    exact ⟨p, hp, facts, hfacts, hhash, (fileName_entry p.word_key.2.1 p.word_key.2.2 _).symm⟩
  · rintro ⟨p, hp, facts, hfacts, hhash, rfl⟩
    exact ⟨_, mem_replacedBy.2 ⟨p, hp, facts, hfacts, hhash, rfl⟩,
      fileName_entry p.word_key.2.1 p.word_key.2.2 _⟩

/-- The files that parcels replace can be removed. -/
theorem Sound.isNameable_of_mem_replacedBy {c : FileCache} (h : c.Sound) {ps : List Parcel} :
    ∀ m ∈ replacedBy c ps, m.isNameable = true := by
  intro m hm
  obtain ⟨p, -, facts, hfacts, -, rfl⟩ := mem_replacedBy.1 hm
  obtain ⟨h0, hk, hhash⟩ := h.words _ _ hfacts
  exact isNameable_entry h0 hk hhash

/-! ## Tables with the rows of parcels -/

section rows

variable {β : Type} {f : Parcel → β} {t : Keyed β} {ps : List Parcel}

theorem find?_parcels (hkeys : (ps.map Parcel.key).Nodup) {p : Parcel} (hp : p ∈ ps) :
    (t.insertAll (ps.map fun p => (p.key, f p))).find? p.key = some (f p) := by
  have hsame : ∀ x ∈ ps.map fun p => (p.key, f p), x.1 = p.key → x.2 = f p := by
    intro x hx hkey
    obtain ⟨q, hq, rfl⟩ := List.mem_map.1 hx
    have hqp : q = p := List.inj_on_of_nodup_map hkeys hq hp hkey
    rw [hqp]
  exact Keyed.find?_insertAll_of_mem (List.mem_map_of_mem hp) hsame

theorem find?_parcels_of_notMem {k : Int} (hk : ∀ p ∈ ps, p.key ≠ k) :
    (t.insertAll (ps.map fun p => (p.key, f p))).find? k = t.find? k := by
  refine Keyed.find?_insertAll_of_notMem fun r hr => ?_
  obtain ⟨p, hp, rfl⟩ := List.mem_map.1 hr
  exact hk p hp

/-- A row of the new table is a parcel's, or an old one at a height without a parcel. -/
theorem of_find?_parcels (hkeys : (ps.map Parcel.key).Nodup) {k : Int} {v : β}
    (hv : (t.insertAll (ps.map fun p => (p.key, f p))).find? k = some v) :
    (∃ p ∈ ps, p.key = k ∧ f p = v) ∨ (∀ p ∈ ps, p.key ≠ k) ∧ t.find? k = some v := by
  by_cases hk : ∃ p ∈ ps, p.key = k
  · obtain ⟨p, hp, rfl⟩ := hk
    rw [find?_parcels hkeys hp] at hv
    exact Or.inl ⟨p, hp, rfl, Option.some.inj hv⟩
  · have hnone : ∀ p ∈ ps, p.key ≠ k := fun p hp hpk => hk ⟨p, hp, hpk⟩
    rw [find?_parcels_of_notMem hnone] at hv
    exact Or.inr ⟨hnone, hv⟩

end rows

/-! ## Every entry has its file -/

section kept

variable {bs : List Block} {c c' : FileCache} {ps : List Parcel} {removed : List String}

/-- The file of a parcel stays when what the parcels replaced is removed. -/
theorem name_notMem_replacedBy (hkeys : (ps.map Parcel.key).Nodup) {p : Parcel}
    (hp : p ∈ ps) : p.name ∉ (replacedBy c ps).map BlockMeta.fileName := by
  intro hmem
  obtain ⟨q, hq, facts, -, hhash, hname⟩ := mem_names_replacedBy.1 hmem
  rw [p.name_eq, BlockMeta.nameAt_inj q.word_key.2.1 p.word_key.2.1] at hname
  have hqp : q = p := List.inj_on_of_nodup_map hkeys hq hp hname.1
  exact hhash (hname.2.trans (by rw [hqp]))

/-- The file of an entry at a height without a parcel is not touched. -/
theorem Sound.nameAt_untouched (h : c.Sound) {k : Int} {facts : BlockFacts}
    (hfacts : c.index.content.find? k = some facts) (hk : ∀ p ∈ ps, p.key ≠ k) :
    BlockMeta.nameAt k facts.hash ∉ (replacedBy c ps).map BlockMeta.fileName ∧
      ∀ p ∈ ps, p.name ≠ BlockMeta.nameAt k facts.hash := by
  have hother : ∀ p ∈ ps, ∀ hash, BlockMeta.nameAt p.key hash ≠ BlockMeta.nameAt k facts.hash := by
    intro p hp hash hname
    rw [BlockMeta.nameAt_inj p.word_key.2.1 (h.words k facts hfacts).1] at hname
    exact hk p hp hname.1
  constructor
  · intro hmem
    obtain ⟨p, hp, old, -, -, hname⟩ := mem_names_replacedBy.1 hmem
    exact hother p hp _ hname
  · intro p hp hname
    exact hother p hp _ (p.name_eq.symm.trans hname)

/-- What the file of an entry holds once a batch is stored. -/
theorem Sound.read?_stored (h : c.Sound) (hkeys : (ps.map Parcel.key).Nodup)
    (hstored : Stored ps removed c c')
    (hremoved : removed ⊆ (replacedBy c ps).map BlockMeta.fileName) :
    (∀ p ∈ ps, c'.files.read? p.name = some p.data) ∧
      ∀ k facts, c.index.content.find? k = some facts → (∀ p ∈ ps, p.key ≠ k) →
        c'.files.read? (BlockMeta.nameAt k facts.hash) =
          c.files.read? (BlockMeta.nameAt k facts.hash) := by
  constructor
  · intro p hp
    rw [hstored.files, Directory.read?_removeAll,
      if_neg fun hmem => name_notMem_replacedBy hkeys hp (hremoved hmem),
      read?_writeAll_of_mem hkeys hp]
  · intro k facts hfacts hk
    obtain ⟨hstays, hold⟩ := h.nameAt_untouched hfacts hk
    rw [hstored.files, Directory.read?_removeAll, if_neg fun hmem => hstays (hremoved hmem),
      read?_writeAll_of_notMem hold]

theorem Sound.stored (h : c.Sound) (hkeys : (ps.map Parcel.key).Nodup)
    (hstored : Stored ps removed c c')
    (hremoved : removed ⊆ (replacedBy c ps).map BlockMeta.fileName) : c'.Sound := by
  obtain ⟨hnew, hold⟩ := h.read?_stored hkeys hstored hremoved
  refine ⟨hstored.atRest, ?_, ?_, ?_⟩
  · intro k facts hfacts
    rw [hstored.content] at hfacts
    rcases of_find?_parcels hkeys hfacts with ⟨p, -, rfl, rfl⟩ | ⟨-, hfacts⟩
    · exact ⟨p.word_key.2.1, p.word_key.2.2, p.length_hash⟩
    · exact h.words k facts hfacts
  · rw [hstored.files]
    exact (distinct_writeAll h.distinct ps).removeAll removed
  · intro k facts hfacts
    rw [hstored.content] at hfacts
    -- a parcel brought its file, and that of an old entry was not touched
    rcases of_find?_parcels hkeys hfacts with ⟨p, hp, rfl, rfl⟩ | ⟨hk, hfacts⟩
    · rw [show BlockMeta.nameAt p.key p.facts.hash = p.name from p.name_eq.symm, hnew p hp]
      rfl
    · rw [hold k facts hfacts hk]
      exact h.present k facts hfacts

theorem Sound.undone (h : c.Sound) (hundone : Undone bs c c') : c'.Sound where
  atRest := hundone.atRest
  words := by rw [hundone.content]; exact h.words
  distinct := hundone.distinct h.distinct
  present k facts hfacts := by
    rw [hundone.content] at hfacts
    rcases hundone.files (BlockMeta.nameAt k facts.hash) with hread | ⟨p, data, -, -, -, hread⟩
    · rw [hread]
      exact h.present k facts hfacts
    · rw [hread]
      rfl

/-! ## No file is left over -/

/-- A disk that may refuse to write over a file at any byte, but does not leave a part of a new one,
and refuses no removal. -/
structure Spares (c : FileCache) : Prop where
  removes : ∀ name, DiskFault.remove? c.faults name = none
  writes : ∀ name n reason, DiskFault.write? c.faults name = some (some n, reason) →
    (c.files.read? name).isSome = true

theorem spares_of_healthy (h : c.faults = []) : c.Spares where
  removes name := by rw [h]; rfl
  writes name n reason hfault := by rw [h] at hfault; cases hfault

theorem Tidy.stored (h : c.Tidy) (hkeys : (ps.map Parcel.key).Nodup)
    (hstored : Stored ps ((replacedBy c ps).map BlockMeta.fileName) c c') : c'.Tidy := by
  intro name hread
  rw [hstored.content]
  rw [hstored.files, Directory.read?_removeAll] at hread
  split at hread
  · cases hread
  · rename_i hstays
    rcases (isSome_read?_writeAll c.files ps name).1 hread with hold | ⟨p, hp, rfl⟩
    · obtain ⟨k, facts, hfacts, rfl⟩ := h name hold
      by_cases hk : ∃ p ∈ ps, p.key = k
      · -- an entry that was replaced by one with the same hash has the file of the parcel
        obtain ⟨p, hp, rfl⟩ := hk
        have hhash : facts.hash = p.entry.hash := by
          by_contra hne
          exact hstays (mem_names_replacedBy.2 ⟨p, hp, facts, hfacts, hne, rfl⟩)
        refine ⟨p.key, p.facts, find?_parcels hkeys hp, ?_⟩
        rw [hhash]
        rfl
      · refine ⟨k, facts, ?_, rfl⟩
        rw [find?_parcels_of_notMem fun p hp hkey => hk ⟨p, hp, hkey⟩]
        exact hfacts
    · exact ⟨p.key, p.facts, find?_parcels hkeys hp, p.name_eq.symm⟩

theorem Tidy.undone (h : c.Tidy) (hspares : c.Spares) (hundone : Undone bs c c') : c'.Tidy := by
  -- a file that is left was there before: new ones are discarded, and none of them is torn
  have hthere (name : String) (hread : (c'.files.read? name).isSome = true) :
      (c.files.read? name).isSome = true := by
    rcases hundone.files name with hsame | ⟨p, data, -, rfl, hleft, -⟩
    · rwa [← hsame]
    · cases hleft with
      | whole h => exact h.resolve_right fun hrefused => hrefused (hspares.removes p.name)
      | torn h => exact hspares.writes _ _ _ h
  intro name hread
  rw [hundone.content]
  exact h name (hthere name hread)

end kept

/-! ## Healthy disks -/

/-- A sound cache without a file too many keeps a table of blocks. -/
theorem exists_holds {c : FileCache} (h : c.Sound) (htidy : c.Tidy) (hdisk : c.faults = []) :
    ∃ t, c.Holds t := by
  -- the facts are those of the index, the bytes those of the file that an entry names
  let stored (e : Int × BlockFacts) : Int × StoredBlock :=
    (e.1, ⟨e.2, (c.files.read? (BlockMeta.nameAt e.1 e.2.hash)).getD []⟩)
  let t : Keyed StoredBlock := Keyed.empty.insertAll (c.index.content.entries.map stored)
  have hfound (k : Int) : t.find? k = (c.index.content.find? k).map fun facts =>
      (stored (k, facts)).2 := by
    cases hk : c.index.content.find? k with
    | none =>
        refine Keyed.find?_insertAll_of_notMem fun r hr hkey => ?_
        obtain ⟨e, he, rfl⟩ := List.mem_map.1 hr
        cases hk.symm.trans (hkey ▸ Keyed.find?_of_mem he)
    | some facts =>
        refine Keyed.find?_insertAll_of_mem
          (List.mem_map_of_mem (Keyed.mem_entries_iff.2 hk)) fun r hr hkey => ?_
        obtain ⟨e, he, rfl⟩ := List.mem_map.1 hr
        have hsame : e = (k, facts) := Prod.ext hkey
          (Option.some.inj ((Keyed.find?_of_mem he).symm.trans (hkey ▸ hk)))
        rw [hsame]
  refine ⟨t, h, htidy, hdisk, ?_, ?_⟩
  · refine Keyed.ext_find? fun k => ?_
    rw [Keyed.find?_map, hfound, Option.map_map]
    cases c.index.content.find? k <;> rfl
  · intro k v hv
    rw [hfound, Option.map_eq_some_iff] at hv
    obtain ⟨facts, hfacts, rfl⟩ := hv
    obtain ⟨data, hdata⟩ := Option.isSome_iff_exists.1 (h.present k facts hfacts)
    show c.files.read? (BlockMeta.nameAt k facts.hash) =
      some ((c.files.read? (BlockMeta.nameAt k facts.hash)).getD [])
    rw [hdata]
    rfl

/-- **A batch that is stored puts its parcels into the table**, and has replaced whatever stood at
their heights. -/
theorem Holds.of_insertBlocks {c : FileCache} {t : Keyed StoredBlock} (h : c.Holds t)
    {bs : List Block} {c' : FileCache} (hinsert : insertBlocks bs c = .ok () c') :
    ∃ ps : List Parcel, onePerHeight bs = ps.map Parcel.block ∧
      c'.Holds (t.insertAll (ps.map Parcel.row)) ∧
      c'.index.fault = c.index.fault := by
  obtain ⟨ps, hps, hstored⟩ := insertBlocks_ok h.atRest hinsert
  have hkeys := Parcel.nodup_keys hps
  obtain ⟨hnew, hold⟩ := h.read?_stored hkeys hstored (List.Subset.refl _)
  refine ⟨ps, hps, ⟨h.stored hkeys hstored (List.Subset.refl _), h.tidy.stored hkeys hstored,
    hstored.faults.trans h.disk, ?_, ?_⟩, hstored.fault⟩
  · rw [hstored.content, h.index, Keyed.map_insertAll, List.map_map]
    rfl
  · intro k v hv
    rcases of_find?_parcels (f := Parcel.stored) hkeys hv with ⟨p, hp, rfl, rfl⟩ | ⟨hk, hv⟩
    · exact p.name_eq ▸ hnew p hp
    · have hfacts : c.index.content.find? k = some v.facts := by
        rw [h.find?_index, hv]
        rfl
      rw [hold k v.facts hfacts hk]
      exact h.data k v hv

/-- Blocks that are parcels are stored where no fault is injected. -/
theorem Holds.insertBlocks_parcels {c : FileCache} {t : Keyed StoredBlock} (h : c.Holds t)
    (hfault : c.index.fault = none) {bs : List Block}
    (hbs : ∀ b ∈ onePerHeight bs, ∃ p : Parcel, p.block = b) :
    ∃ c', insertBlocks bs c = .ok () c' := by
  rcases insertBlocks_cases bs c with
    ⟨ps, created, hps, -, hinsert⟩ | ⟨ps, b, rest, e, part, created, hps, hstop, -, -⟩
  · have himage : DiskFault.image? (c.withFiles ps).faults = none := by
      show DiskFault.image? c.faults = none
      rw [h.disk]
      rfl
    obtain ⟨c1, hmeta⟩ := @writeMetadata_parcels ps (c.withFiles ps) h.atRest hfault himage
    have hc1 : c1.faults = [] := (stored_of_writeMetadata h.atRest hmeta []).faults.trans h.disk
    rw [hinsert, hmeta]
    exact ⟨_, forM_removeBlockFile h.isNameable_of_mem_replacedBy c1
      (spares_of_healthy hc1).removes⟩
  · -- every block of the batch is a parcel, and the disk takes its file
    obtain ⟨p, hp⟩ := hbs b (hps ▸ List.mem_append_right _ List.mem_cons_self)
    have hrefused := hstop.refusal?_eq h.disk
    rw [← hp, refusal?, p.ofBlock, p.encode] at hrefused
    cases hrefused

end FileCache
end LightSync
