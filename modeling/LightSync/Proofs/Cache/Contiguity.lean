import LightSync.Proofs.Cache.Changes
import Mathlib.Data.Int.Init
import Mathlib.Order.Bounds.Basic

/-!
# How far the heights of a cache run

A cache answers with the least stored height from its floor on whose successor is missing. In a
table of ascending keys that is the greatest height up to which nothing is missing
(`isGreatest_runEnd`), for any gaps below, at and above the floor. Cutting the table at a height
cuts its runs there (`runs_filter`), so a truncation lowers the answer to the height and no further
(`contiguous_of_reachable`).
-/

set_option autoImplicit false

namespace LightSync

/-! ## Runs -/

/-- The heights up to which every height from a floor on is there. -/
def runs (heights : List Int) (floor : Int) : Set Int :=
  {n | floor ≤ n ∧ ∀ k, floor ≤ k → k ≤ n → k ∈ heights}

/-- A run that begins is as long as it can be where its next height is missing. -/
theorem isGreatest_runs {heights : List Int} {floor n : Int} (hrun : n ∈ runs heights floor)
    (hend : n + 1 ∉ heights) : IsGreatest (runs heights floor) n := by
  refine ⟨hrun, fun m hm => ?_⟩
  by_contra hlt
  exact hend (hm.2 (n + 1) (by have := hrun.1; omega) (by omega))

/-- Without the heights above `h`, a run goes on up to `h` at most. -/
theorem runs_filter {heights : List Int} {floor h : Int} {p : Int → Bool}
    (hp : ∀ k, p k = true ↔ k ≤ h) (n : Int) :
    n ∈ runs (heights.filter p) floor ↔ n ∈ runs heights floor ∧ n ≤ h := by
  constructor
  · rintro ⟨hfloor, hall⟩
    have hkept := fun k hk hkn => List.mem_filter.1 (hall k hk hkn)
    exact ⟨⟨hfloor, fun k hk hkn => (hkept k hk hkn).1⟩,
      (hp n).1 (hkept n hfloor (Int.le_refl n)).2⟩
  · rintro ⟨⟨hfloor, hall⟩, hn⟩
    exact ⟨hfloor, fun k hk hkn => List.mem_filter.2 ⟨hall k hk hkn, (hp k).2 (by omega)⟩⟩

theorem isGreatest_runs_filter {heights : List Int} {floor h n : Int} {p : Int → Bool}
    (hp : ∀ k, p k = true ↔ k ≤ h) (hfloor : floor ≤ h) (hn : IsGreatest (runs heights floor) n) :
    IsGreatest (runs (heights.filter p) floor) (min h n) := by
  refine ⟨(runs_filter hp _).2 ⟨⟨?_, fun k hk hkn => ?_⟩, Int.min_le_left h n⟩, fun m hm => ?_⟩
  · have := hn.1.1
    omega
  · exact hn.1.2 k hk (by omega)
  · obtain ⟨hrun, hmh⟩ := (runs_filter hp m).1 hm
    have := hn.2 hrun
    omega

/-- An answer to the question how far the heights run from a floor: the greatest height up to which
every height from the floor on is there, and none where the floor itself is missing. -/
structure TellsRun (heights : List Int) (floor : Int) (answer : Option Number) : Prop where
  some_iff : ∀ a, answer = some a ↔ ∃ n, a = .int n ∧ IsGreatest (runs heights floor) n
  none_iff : answer = none ↔ floor ∉ heights

namespace TellsRun

variable {heights : List Int} {floor h n : Int} {answer answer' : Option Number}

theorem of_isGreatest (hn : IsGreatest (runs heights floor) n) :
    TellsRun heights floor (some (.int n)) where
  some_iff a := by
    constructor
    · intro ha
      exact ⟨n, (Option.some.inj ha).symm, hn⟩
    · rintro ⟨m, rfl, hm⟩
      rw [hm.unique hn]
  none_iff := by
    have hfloor : floor ∈ heights := hn.1.2 floor (Int.le_refl floor) hn.1.1
    simp [hfloor]

theorem of_notMem (hfloor : floor ∉ heights) : TellsRun heights floor none where
  some_iff a := by
    constructor
    · intro ha
      cases ha
    · rintro ⟨n, -, hn⟩
      exact absurd (hn.1.2 floor (Int.le_refl floor) hn.1.1) hfloor
  none_iff := iff_of_true rfl hfloor

theorem unique (htells : TellsRun heights floor answer) (htells' : TellsRun heights floor answer') :
    answer' = answer :=
  Option.ext fun a => (htells'.some_iff a).trans (htells.some_iff a).symm

end TellsRun

/-- What becomes of an answer when everything above `h` is dropped. -/
structure LoweredTo (h : Int) (before after : Option Number) : Prop where
  of_some : ∀ n, before = some (.int n) → after = some (.int (min h n))
  of_none : before = none → after = none

/-- Dropping what lies above a height from the floor on lowers the answer to it. -/
theorem TellsRun.lowered {heights : List Int} {floor h : Int} {p : Int → Bool}
    {before after : Option Number} (hbefore : TellsRun heights floor before)
    (hafter : TellsRun (heights.filter p) floor after) (hp : ∀ k, p k = true ↔ k ≤ h)
    (hfloor : floor ≤ h) : LoweredTo h before after where
  of_some n hn := by
    obtain ⟨m, hm, hgreatest⟩ := (hbefore.some_iff _).1 hn
    cases hm
    exact (hafter.some_iff _).2 ⟨_, rfl, isGreatest_runs_filter hp hfloor hgreatest⟩
  of_none hnone := by
    refine hafter.none_iff.2 fun hmem => ?_
    exact hbefore.none_iff.1 hnone (List.mem_filter.1 hmem).1

/-! ## The query -/

namespace Keyed

variable {β γ : Type} {t : Keyed β}

theorem mem_keys_iff {k : Int} : k ∈ t.keys ↔ t.contains k = true := by
  rw [contains_iff, keys, List.mem_map]
  constructor
  · rintro ⟨e, he, rfl⟩
    exact ⟨e.2, he⟩
  · rintro ⟨row, hrow⟩
    exact ⟨(k, row), hrow, rfl⟩

theorem pairwise_keys (t : Keyed β) : t.keys.Pairwise (· < ·) := List.pairwise_map.2 t.sorted

theorem keys_map (f : β → γ) (t : Keyed β) : (t.map f).keys = t.keys := by
  show (t.entries.map _).map _ = _
  rw [List.map_map]
  rfl

theorem keys_filter (t : Keyed β) (p : Int → Bool) : (t.filter p).keys = t.keys.filter p := by
  show (t.entries.filter _).map _ = (t.entries.map _).filter _
  rw [List.filter_map]
  rfl

/-- The first key from a floor on whose successor is missing, if the floor is there. -/
theorem isGreatest_runEnd {floor : Number} {low n : Int} (hfloor : floor.toInt? = some low)
    (hlow : low ∈ t.keys) (h : t.runEnd? floor = some n) : IsGreatest (runs t.keys low) n := by
  obtain ⟨hn, before, behind, hsplit, hbefore⟩ := List.find?_eq_some_iff_append.1 h
  have hle := Number.le_int_of_toInt? hfloor
  simp only [Bool.and_eq_true, decide_eq_true_eq, hle, Bool.not_eq_true'] at hn
  have hend : n + 1 ∉ t.keys := by
    rw [mem_keys_iff, hn.2]
    exact Bool.false_ne_true
  refine isGreatest_runs ⟨hn.1, fun k hk hkn => ?_⟩ hend
  -- from the floor on, each key below the first one without a successor has one
  induction k, hk using Int.leInduction with
  | base => exact hlow
  | succ k hk ih =>
      have hkey : k ∈ t.keys := ih (by omega)
      have hfirst : k ∈ before := by
        have hsorted := t.pairwise_keys
        rw [hsplit] at hkey hsorted
        rcases List.mem_append.1 hkey with hmem | hmem
        · exact hmem
        · rcases List.mem_cons.1 hmem with rfl | hmem
          · omega
          · have := (List.pairwise_cons.1 (List.pairwise_append.1 hsorted).2.1).1 k hmem
            omega
      have hnext := hbefore k hfirst
      simp only [Bool.not_eq_true', Bool.and_eq_false_iff, decide_eq_false_iff_not, hle,
        Bool.not_eq_false'] at hnext
      exact mem_keys_iff.2 (hnext.resolve_left (by omega))

/-- The highest key has no successor, so the query is answered where the floor is there. -/
theorem exists_runEnd {floor : Number} {low : Int} (hfloor : floor.toInt? = some low)
    (hlow : low ∈ t.keys) : ∃ n, t.runEnd? floor = some n := by
  obtain ⟨e, he, hkey⟩ := List.mem_map.1 hlow
  cases hlast : t.last? with
  | none =>
      rw [List.getLast?_eq_none_iff.1 hlast] at he
      cases he
  | some x =>
      have hmem : x.1 ∈ t.keys := List.mem_map_of_mem (List.mem_of_getLast? hlast)
      have hlowx : low ≤ x.1 := hkey ▸ le_of_last? hlast he
      have hend : ¬ t.contains (x.1 + 1) = true := by
        rw [← mem_keys_iff]
        intro hnext
        obtain ⟨y, hy, hykey⟩ := List.mem_map.1 hnext
        have := le_of_last? hlast hy
        omega
      refine Option.isSome_iff_exists.1 (List.find?_isSome.2 ⟨x.1, hmem, ?_⟩)
      rw [Bool.and_eq_true, decide_eq_true_eq, Bool.not_eq_true']
      exact ⟨(Number.le_int_of_toInt? hfloor _).2 hlowx, Bool.eq_false_iff.2 hend⟩

/-- Every key is an integer of 32 bits. -/
def WordKeys (t : Keyed β) : Prop := ∀ k ∈ t.keys, 0 ≤ k ∧ k < wordRange

/-- The query about a floor that is there. -/
theorem tellsRun_runEnd (hkeys : t.WordKeys) {floor : Number} {low : Int}
    (hfloor : floor.toInt? = some low) (hlow : low ∈ t.keys) :
    TellsRun t.keys low ((t.runEnd? floor).map Number.ofInt) := by
  obtain ⟨n, hn⟩ := exists_runEnd hfloor hlow
  have hgreatest := isGreatest_runEnd hfloor hlow hn
  obtain ⟨h0, hword⟩ := hkeys n (hgreatest.1.2 n hgreatest.1.1 (Int.le_refl n))
  rw [hn, Option.map_some, ofInt_of_word h0 hword]
  exact .of_isGreatest hgreatest

/-- **The query about a floor.** -/
theorem tellsRun_runFrom (hkeys : t.WordKeys) {floor : Number} {low : Int}
    (hfloor : floor.toInt? = some low) :
    TellsRun t.keys low ((t.runFrom? floor).map Number.ofInt) := by
  have hthere : t.at? floor = t.find? low := by rw [at?, hfloor, Option.bind_some]
  unfold runFrom?
  rw [hthere]
  cases hfound : t.find? low with
  | some row => exact tellsRun_runEnd hkeys hfloor (List.mem_map_of_mem (mem_entries_iff.2 hfound))
  | none =>
      refine .of_notMem fun hlow => ?_
      rw [mem_keys_iff, contains, hfound] at hlow
      cases hlow

/-- The first key is the lowest. -/
theorem isLeast_keys_iff {low : Int} :
    IsLeast {k | k ∈ t.keys} low ↔ ∃ row, t.first? = some (low, row) := by
  have hsorted := t.sorted
  unfold first? keys
  revert hsorted
  cases t.entries with
  | nil =>
      intro _
      constructor
      · rintro ⟨hlow, -⟩
        cases hlow
      · rintro ⟨row, hrow⟩
        cases hrow
  | cons e rest =>
      intro hsorted
      have hleast : IsLeast {k | k ∈ (e :: rest).map (·.1)} e.1 := by
        refine ⟨List.mem_cons_self, fun k hk => ?_⟩
        rcases List.mem_cons.1 hk with rfl | hk
        · exact Int.le_refl _
        · obtain ⟨x, hx, rfl⟩ := List.mem_map.1 hk
          exact Int.le_of_lt ((List.pairwise_cons.1 hsorted).1 x hx)
      constructor
      · intro hlow
        exact ⟨e.2, by rw [hlow.unique hleast]; rfl⟩
      · rintro ⟨row, hrow⟩
        cases hrow
        exact hleast

/-- **The query about the lowest key.** -/
theorem tellsRun_runFromLowest (hkeys : t.WordKeys) {low : Int}
    (hlow : IsLeast {k | k ∈ t.keys} low) :
    TellsRun t.keys low (t.runFromLowest?.map Number.ofInt) := by
  obtain ⟨row, hfirst⟩ := isLeast_keys_iff.1 hlow
  unfold runFromLowest?
  rw [hfirst]
  exact tellsRun_runEnd hkeys rfl hlow.1

theorem runFromLowest?_of_empty (h : t.keys = []) : t.runFromLowest? = none := by
  unfold runFromLowest? first?
  rw [List.map_eq_nil_iff.1 h]
  rfl

/-! ## What stays of a table -/

theorem keys_upTo {height : Number} (t : Keyed β) :
    (t.upTo height).keys = t.keys.filter fun k => !decide (height < .int k) :=
  keys_filter t _

theorem not_lt_iff_le {height : Number} {h : Int} (hheight : height.toInt? = some h) (k : Int) :
    (!decide (height < .int k)) = true ↔ k ≤ h := by
  rw [Bool.not_eq_true', decide_eq_false_iff_not, Number.lt_int_of_toInt? hheight, Int.not_lt]

theorem WordKeys.upTo (hkeys : t.WordKeys) (height : Number) : (t.upTo height).WordKeys := by
  intro k hk
  rw [keys_upTo] at hk
  exact hkeys k (List.mem_filter.1 hk).1

theorem wordKeys_empty : (Keyed.empty : Keyed β).WordKeys := fun _ hk => absurd hk List.not_mem_nil

theorem lowered_runFrom (hkeys : t.WordKeys) {floor height : Number} {low h : Int}
    (hfloor : floor.toInt? = some low) (hheight : height.toInt? = some h) (hle : low ≤ h) :
    LoweredTo h ((t.runFrom? floor).map Number.ofInt)
      (((t.upTo height).runFrom? floor).map Number.ofInt) := by
  have hafter := tellsRun_runFrom (hkeys.upTo height) hfloor
  rw [keys_upTo] at hafter
  exact (tellsRun_runFrom hkeys hfloor).lowered hafter (not_lt_iff_le hheight) hle

/-- The lowest key is still the lowest one after a cut above it. -/
theorem isLeast_filter {low h : Int} {p : Int → Bool} (hp : ∀ k, p k = true ↔ k ≤ h)
    (hlow : IsLeast {k | k ∈ t.keys} low) (hle : low ≤ h) :
    IsLeast {k | k ∈ t.keys.filter p} low :=
  ⟨List.mem_filter.2 ⟨hlow.1, (hp low).2 hle⟩, fun _ hk => hlow.2 (List.mem_filter.1 hk).1⟩

theorem lowered_runFromLowest (hkeys : t.WordKeys) {height : Number} {h : Int}
    (hheight : height.toInt? = some h)
    (hle : ∀ low, IsLeast {k | k ∈ t.keys} low → low ≤ h) :
    LoweredTo h (t.runFromLowest?.map Number.ofInt)
      ((t.upTo height).runFromLowest?.map Number.ofInt) := by
  have hp := not_lt_iff_le hheight
  cases hfirst : t.first? with
  | none =>
      -- there is nothing to be cut
      have hnil : t.keys = [] := by rw [keys, List.head?_eq_none_iff.1 hfirst, List.map_nil]
      have hcut : (t.upTo height).keys = [] := by rw [keys_upTo, hnil, List.filter_nil]
      rw [runFromLowest?_of_empty hnil, runFromLowest?_of_empty hcut]
      exact ⟨nofun, fun _ => rfl⟩
  | some e =>
      have hlow : IsLeast {k | k ∈ t.keys} e.1 := isLeast_keys_iff.2 ⟨e.2, hfirst⟩
      have hstays := isLeast_filter hp hlow (hle e.1 hlow)
      rw [← keys_upTo] at hstays
      have hafter := tellsRun_runFromLowest (hkeys.upTo height) hstays
      rw [keys_upTo] at hafter
      exact (tellsRun_runFromLowest hkeys hlow).lowered hafter hp (hle e.1 hlow)

end Keyed

/-! ## Heights that are reached -/

namespace RowCache

open Keyed (WordKeys)

/-- Encoded blocks stand at integers of 32 bits. -/
theorem wordKeys_insertAll {t : Keyed Bytes} (ht : t.WordKeys) {bs : List Block}
    (hbs : ∀ b ∈ bs, ∃ data, b.encode = .ok data) : (t.insertAll (bs.map rowOf)).WordKeys := by
  intro k hk
  obtain ⟨row, hrow⟩ := Keyed.contains_iff.1 (Keyed.mem_keys_iff.1 hk)
  rcases Keyed.of_find?_insertAll (Keyed.mem_entries_iff.1 hrow) with hnew | hold
  · obtain ⟨b, hb, heq⟩ := List.mem_map.1 hnew
    obtain ⟨data, hdata⟩ := hbs b hb
    obtain ⟨n, hn, h0, hword⟩ := Number.toInt?_of_isWord32 (Block.isWord32_of_encode hdata).1
    have hkey : k = n := by
      rw [← Number.truncate_of_toInt? hn]
      exact (congrArg Prod.fst heq).symm
    exact hkey ▸ ⟨h0, hword⟩
  · exact ht k (List.mem_map_of_mem (Keyed.mem_entries_iff.2 hold))

/-- Every call leaves the heights integers of 32 bits. -/
theorem wordKeys_after_apply {c : RowCache} (hrest : c.db.AtRest) (hkeys : c.db.content.WordKeys)
    (change : Cache.Change) : ((RowCache.apply change).after c).db.content.WordKeys := by
  cases h : RowCache.apply change c with
  | ok u c' =>
      rw [Action.after_of_ok h]
      cases change with
      | insertBlock b =>
          obtain ⟨hencode, -, -, hcontent⟩ := insertBlock_ok hrest h
          have hbatch : c'.db.content = c.db.content.insertAll ([b].map rowOf) := hcontent
          rw [hbatch]
          refine wordKeys_insertAll hkeys fun x hx => ?_
          rw [List.mem_singleton.1 hx]
          exact hencode
      | insertBlocks bs =>
          obtain ⟨hencode, -, -, hcontent⟩ := insertBlocks_ok hrest h
          rw [hcontent]
          exact wordKeys_insertAll hkeys hencode
      | truncate height =>
          obtain ⟨c1, hc1, -, -, hcontent⟩ := truncate_ok hrest height
          cases h.symm.trans hc1
          rw [hcontent]
          exact hkeys.upTo height
  | error e c' =>
      rw [Action.after_of_error h]
      cases change with
      | insertBlock b => rwa [(insertBlock_error hrest h).1]
      | insertBlocks bs => rwa [(insertBlocks_error hrest h).1]
      | truncate height =>
          obtain ⟨c1, hc1, -⟩ := truncate_ok hrest height
          cases h.symm.trans hc1

end RowCache

namespace Cache

open Keyed (WordKeys)

theorem heights_rows (c : RowCache) : (Cache.rows c).heights = c.db.content.keys := by
  show (c.db.content.entries.map _).map _ = _
  rw [List.map_map]
  rfl

theorem heights_files (c : FileCache) : (Cache.files c).heights = c.index.content.keys := by
  show (c.index.content.entries.map _).map _ = _
  rw [List.map_map]
  rfl

theorem wordKeys_of_reachable_rows {c : Cache} (h : c.Reachable) :
    ∀ r, c = .rows r → r.db.content.WordKeys := by
  induction h with
  | fresh hfresh =>
      rintro r rfl
      rw [hfresh.2]
      exact Keyed.wordKeys_empty
  | @fault c x _ ih =>
      intro r hr
      cases c with
      | rows c =>
          cases hr
          exact ih c rfl
      | files c => cases hr
  | @call c change hreach _ ih =>
      intro r hr
      cases c with
      | rows c =>
          rw [Cache.apply, after_either_rows] at hr
          cases hr
          exact RowCache.wordKeys_after_apply (sound_of_reachable hreach) (ih c rfl) change
      | files c =>
          rw [Cache.apply, after_either_files] at hr
          cases hr

theorem wordKeys_of_holds {c : FileCache} {t : Keyed StoredBlock} (h : c.Holds t) :
    c.index.content.WordKeys := by
  intro k hk
  rw [h.index, Keyed.keys_map] at hk
  obtain ⟨e, he, rfl⟩ := List.mem_map.1 hk
  obtain ⟨h0, hword, -⟩ := h.word e.1 e.2 (Keyed.find?_of_mem he)
  exact ⟨h0, hword⟩

/-! ## The answers of both kinds -/

/-- How far the heights of a row cache and of a file cache run. The row cache counts from its
floor, the file cache from its lowest height; where they store the same heights, a row cache with
that floor answers as the file cache does. A truncation at a height from there on lowers the answer
to that height. -/
structure Contiguous (r : RowCache) (f : FileCache) (floor : Int) : Prop where
  rows : TellsRun (Cache.rows r).heights floor r.highestContiguous
  files : ∀ low, IsLeast {k | k ∈ (Cache.files f).heights} low →
    TellsRun (Cache.files f).heights low f.highestContiguous
  empty : f.highestContiguous = none ↔ (Cache.files f).heights = []
  alike : IsLeast {k | k ∈ (Cache.files f).heights} floor →
    (Cache.rows r).heights = (Cache.files f).heights → r.highestContiguous = f.highestContiguous
  rowsCut : ∀ (height : Number) (h : Int), height.toInt? = some h → floor ≤ h →
    ∃ r', RowCache.truncate height r = .ok () r' ∧
      LoweredTo h r.highestContiguous r'.highestContiguous
  filesCut : ∀ (height : Number) (h : Int), height.toInt? = some h →
    (∀ low, IsLeast {k | k ∈ (Cache.files f).heights} low → low ≤ h) →
    ∃ f', FileCache.truncate height f = .ok () f' ∧
      LoweredTo h f.highestContiguous f'.highestContiguous

/-- **Every cache that is reached tells how far its heights run**: to the greatest height without a
gap, from whatever integer a row cache counts. -/
theorem contiguous_of_reachable {r : RowCache} {f : FileCache} (hr : Reachable (.rows r))
    (hf : Reachable (.files f)) {floor : Int} (hfloor : r.floor.toInt? = some floor) :
    Contiguous r f floor := by
  have hrows := wordKeys_of_reachable_rows hr r rfl
  obtain ⟨t, ht⟩ := sound_of_reachable hf
  have hfiles := wordKeys_of_holds ht
  have hanswer : TellsRun (Cache.rows r).heights floor r.highestContiguous := by
    rw [heights_rows]
    exact Keyed.tellsRun_runFrom hrows hfloor
  have hanswers : ∀ low, IsLeast {k | k ∈ (Cache.files f).heights} low →
      TellsRun (Cache.files f).heights low f.highestContiguous := by
    intro low hlow
    rw [heights_files] at hlow ⊢
    exact Keyed.tellsRun_runFromLowest hfiles hlow
  refine ⟨hanswer, hanswers, ?_, ?_, ?_, ?_⟩
  · rw [heights_files]
    constructor
    · intro hnone
      cases hfirst : f.index.content.first? with
      | none => rw [Keyed.keys, List.head?_eq_none_iff.1 hfirst, List.map_nil]
      | some e =>
          have hlow : IsLeast {k | k ∈ f.index.content.keys} e.1 :=
            Keyed.isLeast_keys_iff.2 ⟨e.2, hfirst⟩
          exact absurd hlow.1 ((Keyed.tellsRun_runFromLowest hfiles hlow).none_iff.1 hnone)
    · intro hempty
      unfold FileCache.highestContiguous
      rw [Keyed.runFromLowest?_of_empty hempty, Option.map_none]
  · intro hlow hsame
    have hfile := hanswers floor hlow
    rw [← hsame] at hfile
    exact hfile.unique hanswer
  · intro height h hheight hle
    obtain ⟨r', hcut, -, -, hcontent⟩ := RowCache.truncate_ok (sound_of_reachable hr) height
    obtain ⟨db, -, rfl⟩ := RowCache.storing_onDatabase_ok hcut
    refine ⟨_, hcut, ?_⟩
    unfold RowCache.highestContiguous
    rw [hcontent]
    exact Keyed.lowered_runFrom hrows hfloor hheight hle
  · intro height h hheight hle
    rw [heights_files] at hle
    obtain ⟨f', hcut, hholds, -⟩ := ht.of_truncate height
    have hcontent : f'.index.content = f.index.content.upTo height := by
      rw [hholds.index, ht.index, Keyed.upTo, Keyed.upTo, Keyed.map_filter]
    refine ⟨f', hcut, ?_⟩
    unfold FileCache.highestContiguous
    rw [hcontent]
    exact Keyed.lowered_runFromLowest hfiles hheight hle

/-- Heights with gaps below the floor, at the end of its run and above. -/
def gappedBlocks : List Block :=
  [98, 99, 101, 102, 104].map fun height => linkedBlock height 1 0 []

def gappedRows : RowCache :=
  (RowCache.apply (.insertBlocks gappedBlocks)).after ⟨101, Database.connect Keyed.empty .memory⟩

def gappedFiles : FileCache := (FileCache.apply (.insertBlocks gappedBlocks)).after emptyFiles

theorem contiguous_of_reachable_gapped :
    Reachable (.rows gappedRows) ∧ Reachable (.files gappedFiles) ∧
      gappedRows.floor.toInt? = some 101 ∧ gappedRows.highestContiguous = some 102 ∧
      gappedFiles.highestContiguous = some 99 ∧ Contiguous gappedRows gappedFiles 101 := by
  have hrows : Reachable (.rows gappedRows) := by
    have hfresh : Fresh (.rows ⟨101, Database.connect Keyed.empty .memory⟩) := ⟨rfl, rfl⟩
    have hreached := Reachable.call (.insertBlocks gappedBlocks) (.fresh hfresh) fun e he => by
      have hnone : (Cache.apply (.insertBlocks gappedBlocks)).failure?
          (.rows ⟨101, Database.connect Keyed.empty .memory⟩) = none := by decide +kernel
      rw [hnone] at he
      cases he
    rwa [Cache.apply, after_either_rows] at hreached
  have hfiles : Reachable (.files gappedFiles) := by
    refine reachable_emptyFiles.call_files _ fun e he => ?_
    have hnone : (FileCache.apply (.insertBlocks gappedBlocks)).failure? emptyFiles = none := by
      decide +kernel
    rw [hnone] at he
    cases he
  exact ⟨hrows, hfiles, rfl, by decide +kernel, by decide +kernel,
    contiguous_of_reachable hrows hfiles rfl⟩

end Cache
end LightSync
