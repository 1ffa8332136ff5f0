import LightSync.Proofs.Cache.Traversal
import LightSync.Proofs.Number.Integers

/-!
# The rows of a cache

A call to a cache is one to the kind of cache that it is (`either_rows_eq_ok` and the like). What
reading each stored row comes to is told of both kinds in one way (`readings`). A walk over the
blocks above a height goes through the readings above it up to the first that fails (`blocks_eq`),
and a block that is read stands at the height of its row.
-/

set_option autoImplicit false

namespace LightSync

namespace Walk

variable {α β γ : Type}

theorem attempt_map (f : β → Except Failure γ) (g : α → β) (stop : Option Failure) (l : List α) :
    attempt f stop (l.map g) = attempt (fun a => f (g a)) stop l := by
  induction l with
  | nil => rfl
  | cons a l ih =>
      rw [List.map_cons, attempt, attempt, ih]

/-- A result is passed on to `h` and a failure through `g`. -/
def pass (g : Failure → Failure) (h : β → Except Failure γ) : Except Failure β → Except Failure γ
  | .ok b => h b
  | .error e => .error (g e)

/-- Two attempts one after the other are one. -/
theorem andThen_attempt (f : α → Except Failure β) (g : Failure → Failure)
    (h : β → Except Failure γ) (l : List α) :
    ((attempt f none l).mapFailure g).andThen h = attempt (fun a => pass g h (f a)) none l := by
  induction l with
  | nil => rfl
  | cons a l ih =>
      cases hf : f a with
      | error e =>
          rw [attempt, attempt, hf]
          rfl
      | ok b =>
          rw [attempt, attempt, hf]
          show _ = (match h b with
            | .ok c => cons c (attempt (fun a => pass g h (f a)) none l)
            | .error e => failed e)
          rw [← ih]
          rfl

end Walk

namespace Cache

/-! ## Either kind -/

section either

variable {α : Type} {onRows : Action RowCache α} {onFiles : Action FileCache α} {r : RowCache}
  {f : FileCache} {c' : Cache} {a : α} {e : Failure}

theorem either_rows_eq_ok :
    either onRows onFiles (.rows r) = .ok a c' ↔ ∃ r', onRows r = .ok a r' ∧ c' = .rows r' := by
  unfold either
  dsimp only
  cases onRows r with
  | ok b r' => simp [eq_comm, and_assoc]
  | error e r' => simp

theorem either_files_eq_ok :
    either onRows onFiles (.files f) = .ok a c' ↔ ∃ f', onFiles f = .ok a f' ∧ c' = .files f' := by
  unfold either
  dsimp only
  cases onFiles f with
  | ok b f' => simp [eq_comm, and_assoc]
  | error e f' => simp

theorem either_rows_eq_error :
    either onRows onFiles (.rows r) = .error e c' ↔
      ∃ r', onRows r = .error e r' ∧ c' = .rows r' := by
  unfold either
  dsimp only
  cases onRows r with
  | ok b r' => simp
  | error e r' => simp [eq_comm, and_assoc]

theorem either_files_eq_error :
    either onRows onFiles (.files f) = .error e c' ↔
      ∃ f', onFiles f = .error e f' ∧ c' = .files f' := by
  unfold either
  dsimp only
  cases onFiles f with
  | ok b f' => simp
  | error e f' => simp [eq_comm, and_assoc]

theorem after_either_rows (c : RowCache) :
    (either onRows onFiles).after (.rows c) = .rows (onRows.after c) := by
  simp only [Action.after, either]
  cases onRows c <;> rfl

theorem after_either_files (c : FileCache) :
    (either onRows onFiles).after (.files c) = .files (onFiles.after c) := by
  simp only [Action.after, either]
  cases onFiles c <;> rfl

theorem failure?_either_files (c : FileCache) :
    (either onRows onFiles).failure? (.files c) = onFiles.failure? c := by
  simp only [Action.failure?, either]
  cases onFiles c <;> rfl

end either

/-! ## Readings -/

/-- What reading a row comes to. -/
abbrev Reading := Int × Except Failure Block

/-- What reading each stored row comes to, in the order of the heights. -/
def readings : Cache → List Reading
  | .rows c => c.db.content.entries.map fun e => (e.1, decodeRow ⟨Number.ofInt e.1, e.2⟩)
  | .files c => c.index.content.entries.map fun e =>
      (e.1, Walk.pass (Failure.duringStorage .readCachedBlocks) decodeRow (c.readFile e))

/-- The heights at which something is stored. -/
def heights (c : Cache) : List Int := c.readings.map (·.1)

/-- The readings above a height. -/
def readingsAbove (c : Cache) (height : Number) : List Reading :=
  c.readings.filter fun r => decide (height < .int r.1)

/-- A walk over readings goes up to the first that fails. -/
def walkOf (rs : List Reading) : Walk Block := Walk.attempt (·.2) none rs

/-! ## Limits -/

/-- The first things of a list, as many as a row limit lets through. -/
def firstOf {α : Type} (most : Option Nat) (l : List α) : List α :=
  match most with
  | some n => l.take n
  | none => l

theorem firstOf_map {α β : Type} (most : Option Nat) (g : α → β) (l : List α) :
    firstOf most (l.map g) = (firstOf most l).map g := by
  cases most with
  | some n => exact List.map_take.symm
  | none => rfl

/-- A safe natural number is a limit, which lets that many rows through. -/
theorem rows_of_natural {limit : Number} {n : Nat} (h : limit.toInt? = some (n : Int))
    (hn : n ≤ Number.maxSafe) :
    RowLimit.ofBlocks (some limit) = .ok limit ∧ RowLimit.rows limit = .ok (some n) := by
  have hnot : ¬ limit < 0 := by
    rcases Number.toInt?_eq_some.1 h with rfl | ⟨rfl, -⟩
    · show ¬ Number.int n < Number.int 0
      rw [Number.int_lt_int]
      omega
    · decide
  constructor
  · show (if limit.toInt?.isSome && !decide (limit < 0) then _ else _) = _
    rw [h]
    simp [hnot]
  · have hfits : fitsWord n = true := by
      unfold Number.maxSafe Number.exactLimit at hn
      unfold fitsWord wordBound
      simp
      omega
    have hpos : ¬ (n : Int) < 0 := by omega
    unfold RowLimit.rows
    rw [h]
    simp [hfits, hpos]

section

variable {last limit : Option Number} {asked : Number} {most : Option Nat}

theorem above_of_rows {β : Type} (t : Keyed β) (hasked : RowLimit.ofBlocks limit = .ok asked)
    (hmost : RowLimit.rows asked = .ok most) :
    t.above last limit = .ok (firstOf most
      (t.entries.filter fun e => decide (last.getD Keyed.beforeAll < .int e.1))) := by
  refine Except.bind_eq_ok.2 ⟨asked, hasked, ?_⟩
  rw [hmost]
  cases most <;> rfl

/-- The blocks above a height are those of the first readings above it. -/
theorem blocks_of_rows (c : Cache) (hasked : RowLimit.ofBlocks limit = .ok asked)
    (hmost : RowLimit.rows asked = .ok most) :
    c.blocks last limit =
      walkOf (firstOf most (c.readingsAbove (last.getD Keyed.beforeAll))) := by
  unfold blocks
  rw [hasked]
  cases c with
  | rows c =>
      show ((c.rows last limit).mapFailure _).andThen decodeRow = _
      unfold RowCache.rows
      rw [above_of_rows _ hasked hmost]
      show Walk.attempt decodeRow none (List.map _ _) = _
      rw [Walk.attempt_map, walkOf, readingsAbove, readings, List.filter_map, firstOf_map,
        Walk.attempt_map]
      rfl
  | files c =>
      show ((c.rows last limit).mapFailure _).andThen decodeRow = _
      unfold FileCache.rows
      rw [above_of_rows _ hasked hmost]
      show ((Walk.attempt c.readFile none _).mapFailure _).andThen decodeRow = _
      rw [Walk.andThen_attempt, walkOf, readingsAbove, readings, List.filter_map, firstOf_map,
        Walk.attempt_map]
      rfl

/-- Nothing is read with a limit that the store does not take. -/
theorem blocks_of_no_rows (c : Cache) (hasked : RowLimit.ofBlocks limit = .ok asked)
    {fault : StoreFault} (hfault : RowLimit.rows asked = .error fault) :
    ∃ e, c.blocks last limit = .failed e := by
  have habove {β : Type} (t : Keyed β) : t.above last limit = .error (.store fault) := by
    refine Except.bind_eq_error.2 (Or.inr ⟨asked, hasked, ?_⟩)
    rw [hfault]
    rfl
  unfold blocks
  rw [hasked]
  cases c with
  | rows c =>
      show ∃ e, ((c.rows last limit).mapFailure _).andThen decodeRow = _
      unfold RowCache.rows
      rw [habove]
      exact ⟨_, rfl⟩
  | files c =>
      show ∃ e, ((c.rows last limit).mapFailure _).andThen decodeRow = _
      unfold FileCache.rows
      rw [habove]
      exact ⟨_, rfl⟩

end

/-- Without a limit all of them are read. -/
theorem blocks_eq (c : Cache) (last : Option Number) :
    c.blocks last none = walkOf (c.readingsAbove (last.getD Keyed.beforeAll)) := by
  have hmost : RowLimit.rows RowLimit.unlimited = .ok none := rfl
  exact blocks_of_rows c rfl hmost

/-! ## The order of the heights -/

/-- Heights are stored in ascending order. -/
theorem sorted_readings (c : Cache) : c.readings.Pairwise fun r r' => r.1 < r'.1 := by
  cases c with
  | rows c => exact List.pairwise_map.2 c.db.content.sorted
  | files c => exact List.pairwise_map.2 c.index.content.sorted

theorem sorted_heights (c : Cache) : c.heights.Pairwise (· < ·) :=
  List.pairwise_map.2 c.sorted_readings

/-- The first of several heights in order is the least. -/
theorem le_of_head?_of_sorted {l : List Int} (hsorted : l.Pairwise (· < ·)) {a : Int}
    (ha : l.head? = some a) {b : Int} (hb : b ∈ l) : a ≤ b := by
  obtain ⟨rest, rfl⟩ := List.head?_eq_some_iff.1 ha
  rcases List.mem_cons.1 hb with rfl | hb
  · exact Int.le_refl _
  · exact Int.le_of_lt ((List.pairwise_cons.1 hsorted).1 b hb)

theorem height_of_decodeRow {k : Int} {data : Bytes} {b : Block}
    (h : decodeRow ⟨Number.ofInt k, data⟩ = .ok b) :
    b.height = .int k ∧ k.natAbs + 1 < Number.exactLimit := by
  have hword := hasWordHeight_of_decodeRow h
  unfold decodeRow at h
  split at h
  · cases h
  · split at h
    · rename_i hsame
      cases h
      obtain ⟨n, hn, hlt⟩ := hword
      have hfar := natAbs_lt_of_word hlt
      rw [hn] at hsame ⊢
      rw [Number.eq_of_same_ofInt hsame (Nat.lt_of_succ_lt hfar)]
      exact ⟨rfl, hfar⟩
    · cases h

/-- A block that is read was decoded from a row of its key. -/
theorem decodeRow_of_reading {c : Cache} {k : Int} {b : Block} (h : (k, .ok b) ∈ c.readings) :
    ∃ data, decodeRow ⟨Number.ofInt k, data⟩ = .ok b := by
  cases c with
  | rows c =>
      obtain ⟨e, -, he⟩ := List.mem_map.1 h
      obtain ⟨rfl, hb⟩ := Prod.mk.inj he
      exact ⟨e.2, hb⟩
  | files c =>
      obtain ⟨e, -, he⟩ := List.mem_map.1 h
      obtain ⟨rfl, hb⟩ := Prod.mk.inj he
      cases hrow : c.readFile e with
      | error f =>
          rw [hrow] at hb
          cases hb
      | ok row =>
          rw [hrow] at hb
          unfold FileCache.readFile at hrow
          dsimp only at hrow
          split at hrow
          · cases hrow
            exact ⟨_, hb⟩
          · cases hrow

/-- A block that is read stands at the height of its row, which is a safe integer. -/
theorem height_of_reading {c : Cache} {k : Int} {b : Block} (h : (k, .ok b) ∈ c.readings) :
    b.height = .int k ∧ k.natAbs + 1 < Number.exactLimit := by
  obtain ⟨data, hdata⟩ := decodeRow_of_reading h
  exact height_of_decodeRow hdata

/-- The height of a row that is read has 32 bits. -/
theorem word_of_reading {c : Cache} {k : Int} {b : Block} (h : (k, .ok b) ∈ c.readings) :
    0 ≤ k ∧ k < wordRange := by
  obtain ⟨data, hdata⟩ := decodeRow_of_reading h
  obtain ⟨n, hn, hlt⟩ := hasWordHeight_of_decodeRow hdata
  rw [(height_of_reading h).1] at hn
  cases hn
  exact ⟨Int.natCast_nonneg n, Int.ofNat_lt.2 hlt⟩

/-! ## Fewer rows -/

/-- The cache with the rows at some heights only. -/
def restrict (p : Int → Bool) : Cache → Cache
  | .rows c => .rows { c with db := { c.db with content := c.db.content.filter p } }
  | .files c => .files { c with index := { c.index with content := c.index.content.filter p } }

theorem readings_restrict (p : Int → Bool) (c : Cache) :
    (c.restrict p).readings = c.readings.filter fun r => p r.1 := by
  cases c with
  | rows c =>
      show (List.filter _ _).map _ = (List.map _ _).filter _
      rw [List.filter_map]
      rfl
  | files c =>
      show (List.filter _ _).map _ = (List.map _ _).filter _
      rw [List.filter_map]
      rfl

theorem readingsAbove_restrict (p : Int → Bool) (c : Cache) (height : Number) :
    (c.restrict p).readingsAbove height = (c.readingsAbove height).filter fun r => p r.1 := by
  simp only [readingsAbove, readings_restrict, List.filter_filter, Bool.and_comm]

/-- Where the rows above a height are cut in two, the first part are those below the first of
the others. -/
theorem readingsAbove_restrict_lt {c : Cache} {height : Number} {done rest : List Reading}
    {r : Reading} (h : c.readingsAbove height = done ++ r :: rest) :
    (c.restrict fun k => decide (k < r.1)).readingsAbove height = done := by
  have hsorted : (done ++ r :: rest).Pairwise fun r r' => r.1 < r'.1 := by
    rw [← h]
    exact c.sorted_readings.filter _
  obtain ⟨-, hrest, hcross⟩ := List.pairwise_append.1 hsorted
  rw [readingsAbove_restrict, h, List.filter_append,
    List.filter_eq_self.2, List.filter_eq_nil_iff.2, List.append_nil]
  · intro x hx
    rcases List.mem_cons.1 hx with rfl | hx
    · simp
    · have := (List.pairwise_cons.1 hrest).1 x hx
      simp
      omega
  · intro x hx
    simpa using hcross x hx r List.mem_cons_self

theorem readingsAbove_restrict_le {c : Cache} {height : Number} {done rest : List Reading}
    {r : Reading} (h : c.readingsAbove height = done ++ r :: rest) :
    (c.restrict fun k => decide (k ≤ r.1)).readingsAbove height = done ++ [r] := by
  have hsorted : (done ++ r :: rest).Pairwise fun r r' => r.1 < r'.1 := by
    rw [← h]
    exact c.sorted_readings.filter _
  obtain ⟨-, hrest, hcross⟩ := List.pairwise_append.1 hsorted
  rw [readingsAbove_restrict, h, List.append_cons,
    List.filter_append, List.filter_eq_self.2, List.filter_eq_nil_iff.2, List.append_nil]
  · intro x hx
    have := (List.pairwise_cons.1 hrest).1 x hx
    simp
    omega
  · intro x hx
    rcases List.mem_append.1 hx with hx | hx
    · simpa using Int.le_of_lt (hcross x hx r List.mem_cons_self)
    · cases List.mem_singleton.1 hx
      simp

end Cache
end LightSync
