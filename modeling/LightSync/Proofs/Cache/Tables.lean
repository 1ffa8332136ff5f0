import LightSync.Cache.Basic
import LightSync.Proofs.Cache.Readings
import LightSync.Proofs.Cache.Rows
import LightSync.Proofs.Cache.Storing

/-!
# Caches as tables of blocks

`Stands held c` says that a cache of either kind keeps the blocks of the table `held`, each under
its height, and nothing else. Storing a batch and truncating do to the cache what they do to the
table (`Stands.of_insertBlocks`, `Stands.of_truncate`), the last block for a height being the one
that counts; what a cache hands out are the rows of the table (`Stands.storedRows`), and read back
they are its blocks (`Stands.blocks_eq`).
-/

set_option autoImplicit false

namespace LightSync

/-! ## Rows of blocks -/

/-- The row of a block in a table of blocks. -/
def Cache.keyed (b : Block) : Int × Block := (b.height.truncate, b)

namespace Block

/-- The encoded form of a block that has one. -/
def bytes (b : Block) : Bytes := (rowOf b).2

/-- What a file cache keeps of a block that it can store. -/
def keep (b : Block) : StoredBlock :=
  match BlockMeta.ofBlock b with
  | .ok m => ⟨{ m.toBlockFacts with time := m.time.kept }, b.bytes⟩
  | .error _ => ⟨⟨[], 0, 0, 0⟩, b.bytes⟩

end Block

theorem Block.bytes_of_encode {b : Block} {data : Bytes} (h : b.encode = .ok data) :
    b.bytes = data := by
  unfold bytes rowOf
  rw [h]

theorem Block.data_keep (b : Block) : b.keep.data = b.bytes := by
  unfold keep
  cases BlockMeta.ofBlock b <;> rfl

theorem Parcel.bytes_block (p : Parcel) : p.block.bytes = p.data := Block.bytes_of_encode p.encode

theorem Parcel.keep_block (p : Parcel) : p.block.keep = p.stored := by
  unfold Block.keep
  rw [p.ofBlock, p.bytes_block]
  rfl

/-! ## The last block for a height -/

namespace FileCache

/-- The height is an integer. -/
def HasKey (b : Block) : Prop := b.height.toInt? = some b.height.truncate

theorem sameHeight_iff_truncate {a b : Block} (ha : HasKey a) (hb : HasKey b) :
    sameHeight a.height b.height = true ↔ a.height.truncate = b.height.truncate := by
  rw [sameHeight_iff, place_of_toInt? ha, place_of_toInt? hb, Number.fraction.injEq,
    Rat.intCast_inj]

/-- Blocks replaced by one for their height count as that one. -/
theorem find?_insertAll_replace {batch : List Block} {b : Block} (hbatch : ∀ a ∈ batch, HasKey a)
    (hb : HasKey b) (t : Keyed Block) {k : Int} (hk : k ≠ b.height.truncate) :
    (t.insertAll ((batch.map fun a => if sameHeight a.height b.height then b else a).map
      Cache.keyed)).find? k = (t.insertAll (batch.map Cache.keyed)).find? k := by
  rw [Keyed.find?_insertAll, Keyed.find?_insertAll, List.map_map]
  -- both are folds over the batch, from whatever was found so far
  generalize t.find? k = found
  induction batch generalizing found with
  | nil => rfl
  | cons a batch ih =>
      have hrest := ih fun x hx => hbatch x (List.mem_cons_of_mem a hx)
      have hsame := sameHeight_iff_truncate (hbatch a List.mem_cons_self) hb
      by_cases ha : a.height.truncate = b.height.truncate
      · have hne : ¬ k = a.height.truncate := by
          rw [ha]
          exact hk
        simp only [List.map_cons, List.foldl_cons, Function.comp_apply, hsame.2 ha, if_true,
          Cache.keyed, hk, hne, if_false] at hrest ⊢
        exact hrest found
      · have hno : ¬ sameHeight a.height b.height = true := fun h => ha (hsame.1 h)
        simp only [List.map_cons, List.foldl_cons, Function.comp_apply, hno] at hrest ⊢
        exact hrest _

theorem insertAll_addToBatch {batch : List Block} {b : Block} (hbatch : ∀ a ∈ batch, HasKey a)
    (hb : HasKey b) (t : Keyed Block) :
    t.insertAll ((addToBatch batch b).map Cache.keyed) =
      (t.insertAll (batch.map Cache.keyed)).insert b.height.truncate b := by
  unfold addToBatch
  split
  · rename_i hany
    refine Keyed.ext_find? fun k => ?_
    rw [Keyed.find?_insert]
    split
    · rename_i hk
      subst hk
      -- the block is there, and is the only one for its height
      obtain ⟨a, ha, hsame⟩ := List.any_eq_true.1 hany
      have hmem : Cache.keyed b ∈
          (batch.map fun a => if sameHeight a.height b.height then b else a).map Cache.keyed :=
        List.mem_map_of_mem (List.mem_map.2 ⟨a, ha, if_pos hsame⟩)
      refine Keyed.find?_insertAll_of_mem hmem fun x hx hkey => ?_
      obtain ⟨y, hy, rfl⟩ := List.mem_map.1 hx
      obtain ⟨z, hz, rfl⟩ := List.mem_map.1 hy
      by_cases hz' : sameHeight z.height b.height = true
      · simp only [hz', if_true]
      · simp only [hz'] at hkey
        exact absurd ((sameHeight_iff_truncate (hbatch z hz) hb).2 hkey) hz'
    · rename_i hk
      exact find?_insertAll_replace hbatch hb t hk
  · rw [List.map_append, Keyed.insertAll_append]
    rfl

/-- One block per height is enough: the last one for each. -/
theorem insertAll_onePerHeight {bs : List Block} (hbs : ∀ b ∈ bs, HasKey b) (t : Keyed Block) :
    t.insertAll ((onePerHeight bs).map Cache.keyed) = t.insertAll (bs.map Cache.keyed) := by
  -- by induction on the blocks that are still to come, over every batch that came before them
  have hstep : ∀ (batch : List Block), (∀ a ∈ batch, HasKey a) →
      t.insertAll ((bs.foldl addToBatch batch).map Cache.keyed) =
        (t.insertAll (batch.map Cache.keyed)).insertAll (bs.map Cache.keyed) := by
    induction bs with
    | nil => exact fun _ _ => rfl
    | cons b bs ih =>
        intro batch hbatch
        have hb := hbs b List.mem_cons_self
        have hadded : ∀ a ∈ addToBatch batch b, HasKey a := by
          intro a ha
          unfold addToBatch at ha
          split at ha
          · obtain ⟨x, hx, rfl⟩ := List.mem_map.1 ha
            split
            · exact hb
            · exact hbatch x hx
          · rcases List.mem_append.1 ha with ha | ha
            · exact hbatch a ha
            · rw [List.mem_singleton.1 ha]
              exact hb
        rw [List.foldl_cons, ih (fun x hx => hbs x (List.mem_cons_of_mem b hx)) _ hadded,
          insertAll_addToBatch hbatch hb]
        rfl
  exact hstep [] fun a ha => by cases ha

end FileCache

/-! ## Caches that stand for a table -/

namespace Cache

open FileCache (HasKey)

/-- The cache keeps the blocks of a table, in its own form. -/
def Keeps (held : Keyed Block) : Cache → Prop
  | .rows c => c.db.AtRest ∧ c.db.content = held.map Block.bytes
  | .files c => c.Holds (held.map Block.keep)

/-- The cache keeps the blocks of a table, each under its height, and nothing else. -/
structure Stands (held : Keyed Block) (c : Cache) : Prop where
  blocks : ∀ k b, held.find? k = some b → b.height.toInt? = some k ∧ b.encode = .ok b.bytes
  keeps : Keeps held c

/-- The fault that is injected into the cache, if there is one. -/
def fault : Cache → Option InjectedFault
  | .rows c => c.db.fault
  | .files c => c.index.fault

section

variable {held : Keyed Block} {c c' : Cache} {r r' : RowCache} {f f' : FileCache} {bs : List Block}

/-- The rows of a table of blocks, in memory. -/
theorem stands_inMemory (h : ∀ k b, held.find? k = some b →
    b.height.toInt? = some k ∧ b.encode = .ok b.bytes) :
    Stands held (Cache.inMemory (held.map Block.bytes)) :=
  ⟨h, rfl, rfl⟩

theorem stands_empty : Stands Keyed.empty (Cache.inMemory Keyed.empty) where
  blocks _ _ h := by cases h
  keeps := ⟨rfl, rfl⟩

theorem hasKey_of_encode {b : Block} {data : Bytes} (h : b.encode = .ok data) : HasKey b := by
  obtain ⟨n, hn, -, -⟩ := Number.toInt?_of_isWord32 (Block.isWord32_of_encode h).1
  rw [HasKey, Number.truncate_of_toInt? hn, hn]

theorem Stands.word (h : Stands held c) {k : Int} {b : Block} (hb : held.find? k = some b) :
    0 ≤ k ∧ k < wordRange := by
  obtain ⟨hheight, hencode⟩ := h.blocks k b hb
  obtain ⟨n, hn, hword⟩ := Number.toInt?_of_isWord32 (Block.isWord32_of_encode hencode).1
  rw [hheight] at hn
  cases hn
  exact hword

/-- A file cache keeps parcels only. -/
theorem Stands.parcel (h : Stands held (.files f)) {k : Int} {b : Block}
    (hb : held.find? k = some b) : ∃ p : Parcel, p.block = b ∧ p.key = k := by
  obtain ⟨hheight, hencode⟩ := h.blocks k b hb
  have hfound : (held.map Block.keep).find? k = some b.keep := by
    rw [Keyed.find?_map, hb]
    rfl
  have hhash := (FileCache.Holds.word h.keeps k b.keep hfound).2.2
  cases hentry : BlockMeta.ofBlock b with
  | ok m => exact ⟨⟨b, m, b.bytes, hentry, hencode⟩, rfl, Number.truncate_of_toInt? hheight⟩
  | error e =>
      -- a block without an entry would be kept without a hash
      unfold Block.keep at hhash
      rw [hentry] at hhash
      cases hhash

/-! ### Storing and truncating -/

/-- The table with more blocks, each of which can be encoded. -/
theorem blocks_insertAll (h : Stands held c) (hbs : ∀ b ∈ bs, ∃ data, b.encode = .ok data) :
    ∀ k b, (held.insertAll (bs.map keyed)).find? k = some b →
      b.height.toInt? = some k ∧ b.encode = .ok b.bytes := by
  intro k b hb
  rcases Keyed.of_find?_insertAll hb with hrow | hb
  · obtain ⟨x, hx, hrow⟩ := List.mem_map.1 hrow
    obtain ⟨rfl, rfl⟩ := Prod.mk.inj hrow
    obtain ⟨data, hdata⟩ := hbs x hx
    exact ⟨hasKey_of_encode hdata, by rw [hdata, Block.bytes_of_encode hdata]⟩
  · exact h.blocks k b hb

theorem Stands.of_rows (h : Stands held (.rows r)) (hbs : ∀ b ∈ bs, ∃ data, b.encode = .ok data)
    (hrest : r'.db.AtRest) (hcontent : r'.db.content = r.db.content.insertAll (bs.map rowOf)) :
    Stands (held.insertAll (bs.map keyed)) (.rows r') := by
  refine ⟨blocks_insertAll h hbs, hrest, ?_⟩
  calc r'.db.content
    _ = (held.map Block.bytes).insertAll (bs.map rowOf) := by rw [hcontent, h.keeps.2]
    _ = (held.insertAll (bs.map keyed)).map Block.bytes := by
        rw [Keyed.map_insertAll, List.map_map]
        rfl

theorem Stands.of_files (h : Stands held (.files f)) (hbs : ∀ b ∈ bs, ∃ data, b.encode = .ok data)
    (hinsert : FileCache.insertBlocks bs f = .ok () f') :
    Stands (held.insertAll (bs.map keyed)) (.files f') ∧ f'.index.fault = f.index.fault := by
  have hkeys : ∀ b ∈ bs, HasKey b := by
    intro b hb
    obtain ⟨data, hdata⟩ := hbs b hb
    exact hasKey_of_encode hdata
  obtain ⟨ps, hps, hholds, hfault⟩ := FileCache.Holds.of_insertBlocks h.keeps hinsert
  refine ⟨⟨blocks_insertAll h hbs, ?_⟩, hfault⟩
  have hrow : ps.map Parcel.row =
      ((ps.map Parcel.block).map keyed).map fun e => (e.1, e.2.keep) := by
    rw [List.map_map, List.map_map]
    refine List.map_congr_left fun p _ => ?_
    exact Prod.ext rfl p.keep_block.symm
  show f'.Holds ((held.insertAll (bs.map keyed)).map Block.keep)
  rw [← FileCache.insertAll_onePerHeight hkeys, hps, Keyed.map_insertAll, ← hrow]
  exact hholds

/-- **A batch that is stored goes into the table.** -/
theorem Stands.of_insertBlocks (h : Stands held c) (hbs : ∀ b ∈ bs, ∃ data, b.encode = .ok data)
    (hinsert : insertBlocks bs c = .ok () c') :
    Stands (held.insertAll (bs.map keyed)) c' ∧ c'.fault = c.fault := by
  cases c with
  | rows r =>
      obtain ⟨r', hr, rfl⟩ := either_rows_eq_ok.1 hinsert
      obtain ⟨-, hrest, hfault, hcontent⟩ := RowCache.insertBlocks_ok h.keeps.1 hr
      exact ⟨h.of_rows hbs hrest hcontent, hfault⟩
  | files f =>
      obtain ⟨f', hf, rfl⟩ := either_files_eq_ok.1 hinsert
      exact h.of_files hbs hf

/-- Parcels are stored where no fault is injected. -/
theorem Stands.insertBlocks_parcels (h : Stands held c) (hfault : c.fault = none)
    (hbs : ∀ b ∈ bs, ∃ p : Parcel, p.block = b) : ∃ c', insertBlocks bs c = .ok () c' := by
  cases c with
  | rows r =>
      obtain ⟨r', hr⟩ := RowCache.insertBlocks_of_encode h.keeps.1 hfault fun b hb => by
        obtain ⟨p, rfl⟩ := hbs b hb
        exact ⟨p.data, p.encode⟩
      exact ⟨.rows r', either_rows_eq_ok.2 ⟨r', hr, rfl⟩⟩
  | files f =>
      obtain ⟨f', hf⟩ := FileCache.Holds.insertBlocks_parcels h.keeps hfault fun b hb =>
        hbs b (FileCache.mem_of_mem_onePerHeight hb)
      exact ⟨.files f', either_files_eq_ok.2 ⟨f', hf, rfl⟩⟩

/-- **Truncating drops the rows above a height**, and cannot fail. -/
theorem Stands.of_truncate (h : Stands held c) (height : Number) :
    ∃ c', truncate height c = .ok () c' ∧ Stands (held.upTo height) c' ∧ c'.fault = c.fault := by
  have hblocks : ∀ k b, (held.upTo height).find? k = some b →
      b.height.toInt? = some k ∧ b.encode = .ok b.bytes := by
    intro k b hb
    rw [Keyed.find?_upTo] at hb
    split at hb
    · cases hb
    · exact h.blocks k b hb
  cases c with
  | rows r =>
      obtain ⟨r', hr, hrest, hfault, hcontent⟩ := RowCache.truncate_ok h.keeps.1 height
      refine ⟨.rows r', either_rows_eq_ok.2 ⟨r', hr, rfl⟩, ⟨hblocks, hrest, ?_⟩, hfault⟩
      rw [hcontent, h.keeps.2, Keyed.upTo, Keyed.upTo, Keyed.map_filter]
  | files f =>
      obtain ⟨f', hf, hholds, hfault⟩ := FileCache.Holds.of_truncate h.keeps height
      refine ⟨.files f', either_files_eq_ok.2 ⟨f', hf, rfl⟩, ⟨hblocks, ?_⟩, hfault⟩
      show f'.Holds ((held.upTo height).map Block.keep)
      rw [Keyed.upTo, Keyed.map_filter]
      exact hholds

/-! ### Cursors -/

theorem Stands.openCursor (h : Stands held c) :
    Stands held c.openCursor ∧ c.openCursor.fault = c.fault := by
  cases c with
  | rows r => exact ⟨⟨h.blocks, h.keeps⟩, rfl⟩
  | files f =>
      have hholds : f.Holds (held.map Block.keep) := h.keeps
      exact ⟨⟨h.blocks, hholds.withIndex hholds.atRest rfl⟩, rfl⟩

theorem Stands.closeCursor (h : Stands held c) :
    Stands held c.closeCursor ∧ c.closeCursor.fault = c.fault := by
  cases c with
  | rows r =>
      have hrest : r.db.closeCursor.AtRest := (Database.before_closeCursor r.db).trans h.keeps.1
      have hcontent := (Database.content_closeCursor r.db).trans h.keeps.2
      exact ⟨⟨h.blocks, hrest, hcontent⟩, Database.fault_closeCursor r.db⟩
  | files f =>
      have hholds : f.Holds (held.map Block.keep) := h.keeps
      have hrest : f.index.closeCursor.AtRest :=
        (Database.before_closeCursor f.index).trans hholds.atRest
      have hkeeps := hholds.withIndex hrest (Database.content_closeCursor f.index)
      exact ⟨⟨h.blocks, hkeeps⟩, Database.fault_closeCursor f.index⟩

/-! ## What they hand out -/

/-- The row that is handed out for an entry of a table of blocks. -/
def handedOut (e : Int × Block) : CachedRow := ⟨.int e.1, e.2.bytes⟩

theorem above_map {β γ : Type} (g : β → γ) (t : Keyed β) (last limit : Option Number) :
    (t.map g).above last limit =
      (t.above last limit).map fun entries => entries.map fun e => (e.1, g e.2) := by
  unfold Keyed.above
  cases RowLimit.ofBlocks limit with
  | error e => rfl
  | ok asked =>
      dsimp only [bind, Except.bind]
      cases RowLimit.rows asked with
      | error fault => rfl
      | ok most =>
          cases most with
          | none =>
              refine congrArg Except.ok ?_
              show (t.entries.map _).filter _ = _
              rw [List.filter_map]
              rfl
          | some n =>
              refine congrArg Except.ok ?_
              show ((t.entries.map _).filter _).take n = _
              rw [List.filter_map, ← List.map_take]
              rfl

/-- What is above a height is in the table. -/
theorem mem_of_mem_above {β : Type} {t : Keyed β} {last limit : Option Number}
    {entries : List (Int × β)} (h : t.above last limit = .ok entries) {e : Int × β}
    (he : e ∈ entries) : e ∈ t.entries := by
  obtain ⟨asked, -, h⟩ := Except.bind_eq_ok.1 h
  cases hmost : RowLimit.rows asked with
  | error fault =>
      rw [hmost] at h
      cases h
  | ok most =>
      rw [hmost] at h
      cases most with
      | none =>
          cases h
          exact (List.mem_filter.1 he).1
      | some n =>
          cases h
          exact (List.mem_filter.1 (List.mem_of_mem_take he)).1

/-- The rows of a table of blocks above a height, as many as the limit lets through. -/
def walkRows (held : Keyed Block) (last limit : Option Number) : Walk CachedRow :=
  match held.above last limit with
  | .error e => Walk.failed e
  | .ok entries => ⟨entries.map handedOut, none⟩

theorem attempt_of_ok {α β : Type} {g : α → Except Failure β} {g' : α → β} {l : List α}
    (h : ∀ a ∈ l, g a = .ok (g' a)) : Walk.attempt g none l = ⟨l.map g', none⟩ := by
  induction l with
  | nil => rfl
  | cons a l ih =>
      rw [Walk.attempt, h a List.mem_cons_self, ih fun x hx => h x (List.mem_cons_of_mem a hx)]
      rfl

theorem Stands.word_of_mem (h : Stands held c) {e : Int × Block} (he : e ∈ held.entries) :
    Number.ofInt e.1 = .int e.1 := by
  obtain ⟨h0, hk⟩ := h.word (Keyed.find?_of_mem he)
  exact ofInt_of_word h0 hk

/-- **A cache hands out the rows of its table.** -/
theorem Stands.storedRows (h : Stands held c) (last limit : Option Number) :
    c.storedRows last limit = walkRows held last limit := by
  cases c with
  | rows r =>
      show r.rows last limit = _
      unfold RowCache.rows walkRows
      rw [h.keeps.2, above_map]
      cases habove : held.above last limit with
      | error e => rfl
      | ok entries =>
          refine congrArg (Walk.mk · none) ?_
          rw [List.map_map]
          refine List.map_congr_left fun e he => ?_
          show CachedRow.mk (Number.ofInt e.1) e.2.bytes = _
          rw [h.word_of_mem (mem_of_mem_above habove he)]
          rfl
  | files f =>
      have hholds : f.Holds (held.map Block.keep) := h.keeps
      have hindex : f.index.content = held.map fun b => b.keep.facts := by
        rw [hholds.index]
        refine Keyed.ext_find? fun k => ?_
        rw [Keyed.find?_map, Keyed.find?_map, Keyed.find?_map, Option.map_map]
        rfl
      show f.rows last limit = _
      unfold FileCache.rows walkRows
      rw [hindex, above_map]
      cases habove : held.above last limit with
      | error e => rfl
      | ok entries =>
          show Walk.attempt f.readFile none (List.map _ entries) = _
          rw [Walk.attempt_map]
          refine attempt_of_ok fun e he => ?_
          have hmem := mem_of_mem_above habove he
          have hfound : (held.map Block.keep).find? e.1 = some e.2.keep := by
            rw [Keyed.find?_map, Keyed.find?_of_mem hmem]
            rfl
          obtain ⟨h0, hk, -⟩ := hholds.word _ _ hfound
          have hread := hholds.data _ _ hfound
          rw [Block.data_keep] at hread
          unfold FileCache.readFile
          dsimp only
          rw [FileCache.fileName_entry h0 hk, hread]
          exact congrArg (fun height => Except.ok (CachedRow.mk height e.2.bytes))
            (h.word_of_mem hmem)

/-- A row of an encoded block is read back. -/
theorem decodeRow_handedOut {k : Int} {b : Block} (hheight : b.height.toInt? = some k)
    (hencode : b.encode = .ok b.bytes) (hsize : b.bytes.length < CompactSize.bound) :
    decodeRow (handedOut (k, b)) = .ok b.plain := by
  have hkept : b.plain.height = .int k := Number.kept_of_toInt? hheight
  unfold decodeRow handedOut
  rw [Block.decode_encode hencode hsize]
  dsimp only
  rw [hkept, if_pos (Number.int_same_int.2 rfl)]

/-- **The blocks above a height are read back from the table.** -/
theorem Stands.blocks_eq (h : Stands held c) {last : Option Number}
    (hsize : ∀ k b, held.find? k = some b → last.getD Keyed.beforeAll < .int k →
      b.bytes.length < CompactSize.bound) :
    c.blocks last none =
      ⟨(held.entries.filter fun e => decide (last.getD Keyed.beforeAll < .int e.1)).map
        fun e => e.2.plain, none⟩ := by
  show ((c.storedRows last none).mapFailure _).andThen decodeRow = _
  rw [h.storedRows]
  show Walk.attempt decodeRow none (List.map handedOut _) = _
  rw [Walk.attempt_map]
  refine attempt_of_ok fun e he => ?_
  obtain ⟨hmem, habove⟩ := List.mem_filter.1 he
  have hfound := Keyed.find?_of_mem hmem
  obtain ⟨hheight, hencode⟩ := h.blocks _ _ hfound
  exact decodeRow_handedOut hheight hencode (hsize _ _ hfound (of_decide_eq_true habove))

end

end Cache
end LightSync
