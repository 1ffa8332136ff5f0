import LightSync.Proofs.Cache.Holdings
import LightSync.Proofs.Cache.Stored
import LightSync.Proofs.Number.Texts
import LightSync.Proofs.Store.Quiet

/-!
# Cutting a cache

The blocks that can be read from a cache are what it holds (`held`), whatever else lies in it. A
truncation takes those above the height and leaves the others (`CutAt`), or has failed and done
nothing (`after_truncate`). In a file cache that has to be shown for every index: the entries above
the height name the files that are removed, and none of these is the file of a block that is read
below (`fileName_ne_of_lt`). Also a truncation that fails at one of the files has cut the cache.
-/

set_option autoImplicit false

namespace LightSync

/-! ## Names of files -/

namespace BlockMeta

theorem plainDigits_toDigits {n : Nat} (h : n < wordRange) :
    Number.PlainDigits (Nat.toDigits 10 n) where
  digits c hc := Nat.isDigit_of_mem_toDigits (by decide) (by decide) hc
  short := by
    have hle : (Nat.toDigits 10 n).length ≤ 15 :=
      (Nat.length_toDigits_le_iff (by decide) (by decide)).2 (Nat.lt_trans h (by decide))
    exact Nat.lt_succ_of_le hle

end BlockMeta

namespace FileCache

open BlockMeta (nameAt nameAt_inj fileName_eq digits_eq_of_append toList_toString_natCast
  ne_dash_of_mem_toDigits plainDigits_toDigits)

/-- An entry above a height of 32 bits does not have the file of a block at that height. -/
theorem fileName_ne_of_lt {j k : Int} (h0 : 0 ≤ k) (hk : k < wordRange) (hjk : k < j)
    (facts : BlockFacts) (hash : Bytes) : (entry (j, facts)).fileName ≠ nameAt k hash := by
  intro hname
  by_cases hj : j.natAbs ≤ Number.exactLimit
  · have hheight : (entry (j, facts)).height.toInt? = some j := by
      show (Number.ofInt j).toInt? = some j
      rw [Number.ofInt_of_le hj]
      rfl
    rw [fileName_eq hheight hj] at hname
    have := ((nameAt_inj (by omega) h0).1 hname).1
    omega
  · -- the height is not written with ten digits
    obtain ⟨n, rfl⟩ := Int.eq_ofNat_of_zero_le h0
    obtain ⟨hdash, hplain⟩ := Number.text_ofInt_of_far (show Number.exactLimit < j by omega)
    have hentry : (entry (j, facts)).fileName =
        (Number.ofInt j).text ++ "-" ++ displayHash facts.hash ++ "-compactblock" := rfl
    have hlist := congrArg String.toList (hentry.symm.trans hname)
    simp only [nameAt, String.toList_append, toList_toString_natCast, List.append_assoc] at hlist
    have hdigits := (digits_eq_of_append (fun c hc hdash' => hdash (hdash' ▸ hc))
      (fun _ => ne_dash_of_mem_toDigits) hlist).1
    exact hplain (hdigits ▸ plainDigits_toDigits (Int.ofNat_lt.1 hk))

end FileCache

namespace Cache

/-! ## What a cache holds -/

/-- The blocks that can be read, in the order of their heights. -/
def held (c : Cache) : List Block := c.readings.filterMap fun r => r.2.toOption

section

variable {c c' : Cache} {b : Block}

theorem mem_held : b ∈ c.held ↔ ∃ k, (k, Except.ok b) ∈ c.readings := by
  unfold held
  rw [List.mem_filterMap]
  constructor
  · rintro ⟨⟨k, result⟩, hr, hb⟩
    rw [Except.toOption_eq_some] at hb
    exact ⟨k, hb ▸ hr⟩
  · rintro ⟨k, hr⟩
    exact ⟨_, hr, rfl⟩

theorem held_congr (h : c.stored = c'.stored) : c.held = c'.held := by
  unfold held
  rw [readings_congr h]

/-- What a walk comes to is held. -/
theorem mem_held_of_mem_blocks {last limit : Option Number} (h : b ∈ (c.blocks last limit).items) :
    b ∈ c.held := by
  obtain ⟨k, hk⟩ := reading_of_mem_blocks h
  exact mem_held.2 ⟨k, (List.mem_filter.1 hk).1⟩

theorem maxHeight_eq (c : Cache) : c.maxHeight = c.heights.getLast?.map Number.ofInt := by
  cases c with
  | rows c =>
      show c.db.content.last?.map _ = ((List.map _ (List.map _ _)).getLast?).map _
      rw [List.map_map, List.getLast?_map, Option.map_map]
      rfl
  | files c =>
      show c.index.content.last?.map _ = ((List.map _ (List.map _ _)).getLast?).map _
      rw [List.map_map, List.getLast?_map, Option.map_map]
      rfl

/-! ## Cutting -/

/-- A reading as it is seen from outside: the height of the row, and the block if there is one. -/
def glance (r : Reading) : Int × Option Block := (r.1, r.2.toOption)

/-- The second cache has the rows of the first that do not lie above a height. -/
def CutAt (height : Number) (c c' : Cache) : Prop :=
  c'.readings.map glance =
    (c.readings.filter fun r => !decide (height < .int r.1)).map glance

theorem CutAt.congr {d : Cache} {height : Number} (h : CutAt height c c')
    (hstored : c.stored = d.stored) : CutAt height d c' := by
  unfold CutAt
  rw [← readings_congr hstored]
  exact h

theorem CutAt.heights {height : Number} (h : CutAt height c c') :
    c'.heights = c.heights.filter fun k => !decide (height < .int k) := by
  have hfirst := congrArg (List.map Prod.fst) h
  rw [List.map_map, List.map_map] at hfirst
  rw [Cache.heights, Cache.heights, List.filter_map]
  exact hfirst

theorem CutAt.held {height : Number} (h : CutAt height c c') :
    c'.held = c.held.filter fun b => !decide (height < b.height) := by
  have hsecond := congrArg (List.filterMap Prod.snd) h
  rw [List.filterMap_map, List.filterMap_map, List.filterMap_filter] at hsecond
  rw [Cache.held, Cache.held, List.filter_filterMap]
  refine hsecond.trans (List.filterMap_congr fun r hr => ?_)
  obtain ⟨k, result⟩ := r
  cases result with
  | error e =>
      show (if _ then none else none) = _
      exact ite_self none
  | ok b =>
      show (if _ then some b else none) = (some b).filter _
      rw [Option.filter_some, (height_of_reading hr).1]

/-- Where a block is cut off the highest row comes to lie lower, if there is one left. -/
theorem CutAt.maxHeight_lt {t k : Int} (h : CutAt (.int t) c c') (hb : b ∈ c.held)
    (hk : b.height = .int k) (htk : t < k) :
    ∃ m, c.maxHeight = some m ∧ ∀ m', c'.maxHeight = some m' → m' < m := by
  obtain ⟨j, hreading⟩ := mem_held.1 hb
  obtain ⟨hj, hsafe⟩ := height_of_reading hreading
  obtain rfl := Number.int.inj (hk.symm.trans hj)
  have hmem : k ∈ c.heights := List.mem_map.2 ⟨_, hreading, rfl⟩
  cases hlast : c.heights.getLast? with
  | none =>
      rw [List.getLast?_eq_none_iff.1 hlast] at hmem
      cases hmem
  | some m =>
      have hkm : k ≤ m := by
        obtain ⟨before, hbefore⟩ := List.getLast?_eq_some_iff.1 hlast
        have hsorted := c.sorted_heights
        rw [hbefore] at hmem hsorted
        rcases List.mem_append.1 hmem with hmem | hmem
        · exact Int.le_of_lt ((List.pairwise_append.1 hsorted).2.2 k hmem m List.mem_cons_self)
        · exact Int.le_of_eq (List.mem_singleton.1 hmem)
      refine ⟨.ofInt m, by rw [maxHeight_eq, hlast]; rfl, fun m' hm' => ?_⟩
      rw [maxHeight_eq, h.heights] at hm'
      obtain ⟨j, hj, rfl⟩ := Option.map_eq_some_iff.1 hm'
      have hjt : ¬ Number.int t < .int j := by
        simpa using (List.mem_filter.1 (List.mem_of_getLast? hj)).2
      rw [Number.int_lt_int] at hjt
      exact Number.ofInt_lt_ofInt (Nat.lt_of_succ_lt hsafe) (by omega) hkm

end

end Cache

/-! ## Truncating -/

namespace FileCache

/-- Files are removed one after another up to one that cannot be. -/
theorem after_forM_removeBlockFile (metas : List BlockMeta) (c : FileCache) :
    ∃ n, (metas.forM removeBlockFile).after c =
      { c with
        files := ((metas.take n).map BlockMeta.fileName).foldl Directory.remove c.files } := by
  rcases forM_removeBlockFile_cases metas c with hall | ⟨n, _, _, _, _, hsome⟩
  · refine ⟨metas.length, ?_⟩
    rw [Action.after_of_ok hall, List.take_length]
  · exact ⟨n, Action.after_of_error hsome⟩

/-- The index is truncated and files are removed, or a transaction is open and nothing is done. -/
theorem after_truncate (height : Number) (c : FileCache) :
    (∃ e, truncate height c = .error e c) ∨ ∃ index n, index.content = c.index.content.upTo height ∧
      (truncate height).after c =
        { c with
          index
          files := (((entriesAbove c height).take n).map BlockMeta.fileName).foldl
            Directory.remove c.files } := by
  cases hbefore : c.index.before with
  | some content =>
      refine Or.inl ⟨.storage .truncateIndex (.store .nestedTransaction), ?_⟩
      unfold truncate Action.storing Action.mapFailure onIndex Action.within truncateIndex
        Database.transactionEnding Database.begin
      rw [hbefore]
      rfl
  | none =>
      obtain ⟨index, -, hcontent, -, htruncate | ⟨-, e, -, htruncate⟩⟩ :=
        truncate_cases hbefore height
      · obtain ⟨n, hn⟩ := after_forM_removeBlockFile (entriesAbove c height) { c with index }
        refine Or.inr ⟨index, n, hcontent, ?_⟩
        rw [Action.after_eq_stateOf] at hn ⊢
        rw [htruncate]
        exact hn
      · exact Or.inr ⟨index, 0, hcontent, Action.after_of_error htruncate⟩

end FileCache

namespace Cache

variable {c c' : Cache} {height : Number}

/-- What reading the file of an entry comes to. -/
def fileReading (c : FileCache) (e : Int × BlockFacts) : Reading :=
  (e.1, Walk.pass (Failure.duringStorage .readCachedBlocks) decodeRow (c.readFile e))

theorem readings_files (c : FileCache) :
    (Cache.files c).readings = c.index.content.entries.map (fileReading c) := rfl

/-- Where files are removed that are those of no block, the same blocks are read. -/
theorem glance_fileReading {c c' : FileCache} {names : List String} {e : Int × BlockFacts}
    (hroot : c'.root = c.root) (hfiles : c'.files = names.foldl Directory.remove c.files)
    (hother : ∀ hash, 0 ≤ e.1 → e.1 < wordRange → BlockMeta.nameAt e.1 hash ∉ names)
    (he : e ∈ c.index.content.entries) : glance (fileReading c' e) = glance (fileReading c e) := by
  have hread := Directory.read?_removeAll c.files names (FileCache.entry e).fileName
  by_cases hname : (FileCache.entry e).fileName ∈ names
  · rw [if_pos hname, ← hfiles] at hread
    have hmissing : ∃ f, c'.readFile e = .error f := by
      unfold FileCache.readFile
      dsimp only
      rw [hread]
      exact ⟨_, rfl⟩
    obtain ⟨f, hf⟩ := hmissing
    have hremoved : glance (fileReading c' e) = (e.1, none) := by
      unfold fileReading
      rw [hf]
      rfl
    rw [hremoved]
    cases hresult : (fileReading c e).2 with
    | error f' =>
        unfold glance
        rw [hresult]
        rfl
    | ok b =>
        have hreading : (e.1, Except.ok b) ∈ (Cache.files c).readings := by
          rw [readings_files]
          exact List.mem_map.2 ⟨e, he, Prod.ext rfl hresult⟩
        obtain ⟨h0, hk⟩ := word_of_reading hreading
        exact absurd (FileCache.fileName_entry h0 hk e.2 ▸ hname) (hother _ h0 hk)
  · rw [if_neg hname, ← hfiles] at hread
    have hsame : c'.readFile e = c.readFile e := by
      unfold FileCache.readFile FileCache.blocksDir
      dsimp only
      rw [hread, hroot]
    unfold fileReading
    rw [hsame]

theorem not_lt_int_of_not_lt {height : Number} {j k : Int} (hj : height < .int j)
    (hk : ¬ height < .int k) : k < j :=
  Int.not_le.1 fun hle => hk (Number.lt_int_of_le hj hle)

/-- **Truncating cuts the cache, or does nothing.** -/
theorem after_truncate (height : Number) (c : Cache) :
    (∃ e, truncate height c = .error e c) ∨ CutAt height c ((truncate height).after c) := by
  cases c with
  | rows c =>
      refine Or.inr ?_
      have hcontent : (c.db.changed (c.db.content.upTo height)).content =
          c.db.content.upTo height := Database.content_saveIfIdle _
      show List.map glance (List.map _
        (c.db.changed (c.db.content.upTo height)).content.entries) = _
      rw [hcontent]
      show List.map glance (List.map _ (List.filter _ _)) =
        List.map glance (List.filter _ (List.map _ _))
      rw [List.filter_map]
      rfl
  | files c =>
      rcases FileCache.after_truncate height c with ⟨e, he⟩ | ⟨index, n, hcontent, hafter⟩
      · exact Or.inl ⟨e, either_files_eq_error.2 ⟨c, he, rfl⟩⟩
      · refine Or.inr ?_
        unfold truncate CutAt
        rw [after_either_files, hafter, readings_files, readings_files, List.filter_map,
          List.map_map, List.map_map]
        show List.map _ index.content.entries = _
        rw [hcontent]
        refine List.map_congr_left fun e he => ?_
        obtain ⟨he, hstays⟩ := List.mem_filter.1 he
        refine glance_fileReading rfl rfl (fun hash h0 hword hmem => ?_) he
        -- an entry above the height would name the file of a block below it
        obtain ⟨m, hm, hname⟩ := List.mem_map.1 hmem
        obtain ⟨x, hx, rfl⟩ := List.mem_map.1 (List.mem_of_mem_take hm)
        have habove : height < .int x.1 := of_decide_eq_true (List.mem_filter.1 hx).2
        have hlt : e.1 < x.1 := not_lt_int_of_not_lt habove (by simpa using hstays)
        exact FileCache.fileName_ne_of_lt h0 hword hlt x.2 hash hname

theorem cutAt_of_truncate {u : Unit} (h : truncate height c = .ok u c') : CutAt height c c' := by
  rcases after_truncate height c with ⟨e, he⟩ | hcut
  · rw [he] at h
    cases h
  · rwa [Action.after_of_ok h] at hcut

/-- Whatever comes of it, truncating leaves no block that was not there. -/
theorem held_after_truncate (height : Number) (c : Cache) :
    ((truncate height).after c).held.Sublist c.held := by
  rcases after_truncate height c with ⟨e, he⟩ | hcut
  · rw [Action.after_of_error he]
  · rw [hcut.held]
    exact List.filter_sublist

theorem quiet_commitIndex (faults : List DiskFault) :
    Action.Quiet (FileCache.commitIndex faults) := by
  intro db db' e h
  unfold FileCache.commitIndex at h
  split at h
  · dsimp only at h
    split at h
    · cases h
      rfl
    · cases h
  · exact Database.quiet_commit _ _ _ h

theorem quiet_removeBlockFile (m : BlockMeta) : Action.Quiet (FileCache.removeBlockFile m) := by
  intro c c' e h
  rcases FileCache.removeBlockFile_cases m c with hok | ⟨-, fault, herror⟩
  · cases hok.symm.trans h
  · cases herror.symm.trans h
    rfl

theorem quiet_truncate (height : Number) : Action.Quiet (truncate height) := by
  have hrows : Action.Quiet (RowCache.truncate height) :=
    Action.Quiet.storing (Action.Quiet.within (Database.quiet_run _))
  have hindex (faults : List DiskFault) :
      Action.Quiet (Action.storing .truncateIndex
        (FileCache.onIndex (FileCache.truncateIndex faults height))) := by
    refine Action.Quiet.storing (Action.Quiet.within ?_)
    exact Database.quiet_transactionEnding (quiet_commitIndex faults) <|
      (Database.quiet_queryRows fun _ _ h => by cases h).bind
        fun _ => (Database.quiet_run _).bind fun _ => Action.Quiet.pure _
  have hfiles : Action.Quiet (FileCache.truncate height) := by
    intro c c' e h
    unfold FileCache.truncate at h
    split at h
    · rename_i e1 c1 hfail
      cases h
      exact hindex _ _ _ _ hfail
    · exact Action.Quiet.forM quiet_removeBlockFile _ _ _ h
  intro c c' e h
  cases c with
  | rows c =>
      obtain ⟨r', hfail, -⟩ := either_rows_eq_error.1 h
      exact hrows _ _ _ hfail
  | files c =>
      obtain ⟨f', hfail, -⟩ := either_files_eq_error.1 h
      exact hfiles _ _ _ hfail

end Cache
end LightSync
