import LightSync.Proofs.Cache.Readings
import LightSync.Proofs.Store.Transaction

/-!
# What a cache keeps

The rows of a cache, or its index and its files, without the connections to them (`stored`). All
that is read from a cache is read from that. A walk with a limit goes through the first of the rows
of the walk without one (`blocks_limited`), and a walk that begins at a block goes through the rest
of the walk that came to it (`blocks_after`).
-/

set_option autoImplicit false

namespace LightSync

/-- What a cache keeps, however it is connected. -/
inductive Stored where
  | rows (floor : Number) (table : Keyed Bytes)
  | files (root : String) (index : Keyed BlockFacts) (files : Directory)
  deriving DecidableEq

namespace Cache

def stored : Cache → Stored
  | .rows c => .rows c.floor c.db.content
  | .files c => .files c.root c.index.content c.files

@[simp] theorem stored_openCursor (c : Cache) : c.openCursor.stored = c.stored := by
  cases c with
  | rows c => rfl
  | files c => rfl

@[simp] theorem stored_closeCursor (c : Cache) : c.closeCursor.stored = c.stored := by
  cases c with
  | rows c => simp [closeCursor, stored]
  | files c => simp [closeCursor, stored]

section

variable {c c' : Cache}

theorem readFile_congr {c c' : FileCache} (h : stored (.files c) = stored (.files c')) :
    c.readFile = c'.readFile := by
  obtain ⟨hroot, -, hfiles⟩ := Stored.files.inj h
  funext e
  unfold FileCache.readFile FileCache.blocksDir
  rw [hroot, hfiles]

theorem readings_congr (h : c.stored = c'.stored) : c.readings = c'.readings := by
  cases c with
  | rows c =>
      cases c' with
      | files c' => cases h
      | rows c' =>
          obtain ⟨-, hcontent⟩ := Stored.rows.inj h
          show List.map _ _ = List.map _ _
          rw [hcontent]
  | files c =>
      cases c' with
      | rows c' => cases h
      | files c' =>
          obtain ⟨-, hindex, -⟩ := Stored.files.inj h
          show List.map _ _ = List.map _ _
          rw [hindex, readFile_congr h]

theorem storedRows_congr (h : c.stored = c'.stored) (last limit : Option Number) :
    c.storedRows last limit = c'.storedRows last limit := by
  cases c with
  | rows c =>
      cases c' with
      | files c' => cases h
      | rows c' =>
          obtain ⟨-, hcontent⟩ := Stored.rows.inj h
          show c.rows last limit = c'.rows last limit
          unfold RowCache.rows
          rw [hcontent]
  | files c =>
      cases c' with
      | rows c' => cases h
      | files c' =>
          obtain ⟨-, hindex, -⟩ := Stored.files.inj h
          show c.rows last limit = c'.rows last limit
          unfold FileCache.rows
          rw [hindex, readFile_congr h]

theorem blocks_congr (h : c.stored = c'.stored) (last limit : Option Number) :
    c.blocks last limit = c'.blocks last limit := by
  unfold blocks
  rw [storedRows_congr h]

end

/-! ## Walks with a limit -/

variable {c : Cache}

/-- A limit is refused, or the walk goes through the first of the readings. -/
theorem blocks_limited (c : Cache) (last limit : Option Number) :
    (∃ e, c.blocks last limit = .failed e) ∨ ∃ n, c.blocks last limit =
      walkOf ((c.readingsAbove (last.getD Keyed.beforeAll)).take n) := by
  cases hasked : RowLimit.ofBlocks limit with
  | error e =>
      refine Or.inl ⟨e, ?_⟩
      unfold blocks
      rw [hasked]
  | ok asked =>
      cases hmost : RowLimit.rows asked with
      | error fault => exact Or.inl (blocks_of_no_rows c hasked hmost)
      | ok most =>
          rw [blocks_of_rows c hasked hmost]
          cases most with
          | some n => exact Or.inr ⟨n, rfl⟩
          | none => exact Or.inr ⟨_, congrArg walkOf List.take_length.symm⟩

/-- Of the first readings the walk comes to its end, or to the failure that all of them come to. -/
theorem walkOf_take (rs : List Reading) (n : Nat) :
    walkOf (rs.take n) = walkOf rs ∨
      (walkOf (rs.take n)).stop = none ∧ (walkOf (rs.take n)).items <+: (walkOf rs).items := by
  induction rs generalizing n with
  | nil => exact Or.inl (by rw [List.take_nil])
  | cons r rs ih =>
      cases n with
      | zero => exact Or.inr ⟨rfl, List.nil_prefix⟩
      | succ n =>
          obtain ⟨k, result⟩ := r
          cases result with
          | error e => exact Or.inl rfl
          | ok b =>
              rcases ih n with hall | ⟨hstop, hitems⟩
              · exact Or.inl (congrArg (Walk.cons b) hall)
              · exact Or.inr ⟨hstop, List.cons_prefix_cons.2 ⟨rfl, hitems⟩⟩

/-- With a limit a walk fails at once, is the walk without a limit, or ends before that. -/
theorem blocks_of_limit (c : Cache) (last limit : Option Number) :
    (∃ e, c.blocks last limit = .failed e) ∨ c.blocks last limit = c.blocks last none ∨
      (c.blocks last limit).stop = none ∧
        (c.blocks last limit).items <+: (c.blocks last none).items := by
  rcases blocks_limited c last limit with hfailed | ⟨n, hn⟩
  · exact Or.inl hfailed
  · rw [hn, blocks_eq]
    exact Or.inr (walkOf_take _ n)

theorem items_prefix_of_limit (c : Cache) (last limit : Option Number) :
    (c.blocks last limit).items <+: (c.blocks last none).items := by
  rcases blocks_of_limit c last limit with ⟨e, h⟩ | h | ⟨-, h⟩
  · rw [h]
    exact List.nil_prefix
  · exact congrArg Walk.items h ▸ List.prefix_refl _
  · exact h

/-- A block of a walk is what reading a row above its beginning comes to. -/
theorem reading_of_mem_blocks {c : Cache} {b : Block} {last limit : Option Number}
    (h : b ∈ (c.blocks last limit).items) :
    ∃ k, (k, Except.ok b) ∈ c.readingsAbove (last.getD Keyed.beforeAll) := by
  have hall := (items_prefix_of_limit c last limit).subset h
  rw [blocks_eq] at hall
  obtain ⟨r, hr, hb⟩ := Walk.mem_attempt hall
  exact ⟨r.1, hb ▸ hr⟩

/-- A walk from a height on comes to blocks above it only. -/
theorem lt_of_mem_blocks {c : Cache} {b : Block} {height : Number} {limit : Option Number}
    (h : b ∈ (c.blocks (some height) limit).items) : height < b.height := by
  obtain ⟨k, hk⟩ := reading_of_mem_blocks h
  obtain ⟨hk, habove⟩ := List.mem_filter.1 hk
  rw [(height_of_reading hk).1]
  simpa using habove

/-! ## The order of a walk -/

/-- The blocks stand at integer heights, the first below the second. -/
def Below (a b : Block) : Prop := ∃ j k : Int, a.height = .int j ∧ b.height = .int k ∧ j < k

theorem pairwise_walkOf {rs : List Reading} (hsorted : rs.Pairwise fun r r' => r.1 < r'.1)
    (hplaced : ∀ k b, (k, Except.ok b) ∈ rs → b.height = .int k) :
    (walkOf rs).items.Pairwise Below := by
  induction rs with
  | nil => exact List.Pairwise.nil
  | cons r rs ih =>
      obtain ⟨k, result⟩ := r
      cases result with
      | error e => exact List.Pairwise.nil
      | ok b =>
          obtain ⟨hhead, htail⟩ := List.pairwise_cons.1 hsorted
          refine List.pairwise_cons.2 ⟨fun b' hb' => ?_,
            ih htail fun j b' hb' => hplaced j b' (List.mem_cons_of_mem _ hb')⟩
          obtain ⟨r', hr', hread⟩ := Walk.mem_attempt hb'
          have hmem : (r'.1, Except.ok b') ∈ rs := by
            rw [← hread]
            exact hr'
          exact ⟨k, r'.1, hplaced k b List.mem_cons_self,
            hplaced _ b' (List.mem_cons_of_mem _ hmem), hhead r' hr'⟩

/-- The blocks of a walk stand one above the other. -/
theorem pairwise_blocks (c : Cache) (last : Option Number) :
    (c.blocks last none).items.Pairwise Below := by
  rw [blocks_eq]
  exact pairwise_walkOf (c.sorted_readings.filter _) fun k b h =>
    (height_of_reading (List.mem_filter.1 h).1).1

/-! ## The rest of a walk -/

/-- Above a row there are the rows behind it. -/
theorem readingsAbove_after {height : Number} (low : List Reading) {r : Reading}
    {rest : List Reading} (h : c.readingsAbove height = low ++ r :: rest) :
    c.readingsAbove (.int r.1) = rest := by
  have hsorted : (low ++ r :: rest).Pairwise fun r r' => r.1 < r'.1 := by
    rw [← h]
    exact c.sorted_readings.filter _
  obtain ⟨-, hrest, hlow⟩ := List.pairwise_append.1 hsorted
  have habove : height < .int r.1 := by
    have hr : r ∈ c.readingsAbove height := by simp [h]
    simpa using (List.mem_filter.1 hr).2
  calc c.readingsAbove (.int r.1)
    _ = (c.readingsAbove height).filter fun r' => decide (r.1 < r'.1) := by
        unfold readingsAbove
        rw [List.filter_filter]
        refine List.filter_congr fun x _ => ?_
        by_cases hx : r.1 < x.1
        · simp [hx, Number.int_lt_int, Number.lt_int_of_le habove (Int.le_of_lt hx)]
        · simp [hx, Number.int_lt_int]
    _ = rest := by
        rw [h, List.filter_append, List.filter_cons_of_neg (by simp), List.filter_eq_nil_iff.2,
          List.nil_append, List.filter_eq_self]
        · intro x hx
          simpa using (List.pairwise_cons.1 hrest).1 x hx
        · intro x hx
          simpa using Int.le_of_lt (hlow x hx r List.mem_cons_self)

/-- A walk that comes to a block comes to a row first. -/
theorem readings_of_blocks_cons {height : Number} {b : Block} {bs : List Block}
    {stop : Option Failure} (h : c.blocks (some height) none = ⟨b :: bs, stop⟩) :
    ∃ k rest, c.readingsAbove height = (k, .ok b) :: rest ∧ walkOf rest = ⟨bs, stop⟩ := by
  rw [blocks_eq, Option.getD_some] at h
  cases hrs : c.readingsAbove height with
  | nil =>
      rw [hrs] at h
      cases h
  | cons r rest =>
      obtain ⟨k, result⟩ := r
      rw [hrs] at h
      cases result with
      | error e => cases h
      | ok b' =>
          obtain ⟨hitems, hstop⟩ := Walk.mk.inj h
          obtain ⟨rfl, hbs⟩ := List.cons.inj hitems
          exact ⟨k, rest, rfl, by rw [← hbs, ← hstop]; rfl⟩

/-- Also a walk with a limit does, and goes through some of the rows behind that one. -/
theorem readings_of_items_cons {height : Number} {limit : Option Number} {b : Block}
    {bs : List Block} (h : (c.blocks (some height) limit).items = b :: bs) :
    ∃ k rest more, c.readingsAbove height = (k, .ok b) :: rest ∧
      (walkOf rest).items = bs ++ more := by
  obtain ⟨more, hmore⟩ := c.items_prefix_of_limit (some height) limit
  rw [h, List.cons_append] at hmore
  have hwalk : c.blocks (some height) none =
      ⟨b :: (bs ++ more), (c.blocks (some height) none).stop⟩ := by
    rw [hmore]
  obtain ⟨k, rest, hrows, hrest⟩ := readings_of_blocks_cons hwalk
  exact ⟨k, rest, more, hrows, congrArg Walk.items hrest⟩

/-- A walk from a block on is the rest of the walk that came to it. -/
theorem blocks_after {height : Number} {b : Block} {bs : List Block} {stop : Option Failure}
    (h : c.blocks (some height) none = ⟨b :: bs, stop⟩) :
    c.blocks (some b.height) none = ⟨bs, stop⟩ := by
  obtain ⟨k, rest, hrs, hrest⟩ := readings_of_blocks_cons h
  have hmem : (k, Except.ok b) ∈ c.readingsAbove height := hrs ▸ List.mem_cons_self
  have hk := (height_of_reading (List.mem_filter.1 hmem).1).1
  rw [blocks_eq, Option.getD_some, hk, readingsAbove_after [] hrs, hrest]

end Cache

/-- A traversal leaves what the cache keeps as it was, if its action does. -/
theorem SyncState.keeps_stored_traverse {τ α : Type} {x : Stored} {last limit : Option Number}
    {act : Walk Block → Action (SyncState τ) α}
    (hact : ∀ walk, Action.Keeps (fun st : SyncState τ => st.cache.stored = x) (act walk)) :
    Action.Keeps (fun st : SyncState τ => st.cache.stored = x) (traverse last limit act) := by
  intro st hst
  let walk := st.cache.blocks last limit
  cases hlimit : RowLimit.ofBlocks limit with
  | error e =>
      -- no cursor is opened for a limit that is refused
      have hrun : traverse last limit act st = act walk st := by
        simp only [traverse, Cache.traverse, Cache.during, hlimit, walk]
      rw [Action.after_congr hrun]
      exact hact walk st hst
  | ok asked =>
      have hrun : traverse last limit act st =
          (act walk).ensuring (fun s => { s with cache := s.cache.closeCursor })
            { st with cache := st.cache.openCursor } := by
        simp only [traverse, Cache.traverse, Cache.during, hlimit, walk]
      have hafter : (traverse last limit act).after st = ((act walk).ensuring
          fun s => { s with cache := s.cache.closeCursor }).after
            { st with cache := st.cache.openCursor } := by
        rw [Action.after, Action.after, hrun]
      rw [hafter, Action.after_ensuring]
      have hkept := hact walk { st with cache := st.cache.openCursor }
        ((Cache.stored_openCursor _).trans hst)
      exact (Cache.stored_closeCursor _).trans hkept

end LightSync
