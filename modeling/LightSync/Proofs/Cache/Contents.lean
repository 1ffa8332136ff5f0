import LightSync.Proofs.Cache.Stored

/-!
# What a cache yields

A cache of either kind stores bytes under heights, or knows why there are none (`content`). A row
reads as a block, or is bad in one of three ways (`Reads`). `Yields` says what a walk over rows
comes to: block after block up to the first bad row, whose failure ends it.

Main statement: `yields_of_limitsTo`. That is what the blocks above a height are, whatever is stored.
-/

set_option autoImplicit false

namespace LightSync

/-! ## Rows and their bytes -/

/-- The file of an entry, or why it cannot be read. -/
def FileCache.blockFile (c : FileCache) (e : Int × BlockFacts) : Except StoreFault Bytes :=
  let m := entry e
  match c.files.read? m.fileName with
  | some data => .ok data
  | none =>
      let path := m.filePath c.blocksDir
      .error (if m.isNameable then .noSuchFile path else .nameTooLong "open" path)

namespace Cache

/-- A height and what is stored under it. -/
abbrev StoredRow := Int × Except StoreFault Bytes

/-- Everything that is stored, in the order of the heights: the bytes of a row, or those of the
file that an entry of the index names. -/
def content : Cache → List StoredRow
  | .rows c => c.db.content.entries.map fun e => (e.1, .ok e.2)
  | .files c => c.index.content.entries.map fun e => (e.1, c.blockFile e)

/-- What is stored above a height; without a height, all of it. -/
def contentAbove (c : Cache) : Option Number → List StoredRow
  | none => c.content
  | some height => c.content.filter fun row => decide (height < .int row.1)

/-- **What reading a row comes to**: the block that its bytes spell, if that stands at the height
of the row, or one of three failures. -/
inductive Reads (k : Int) : Except StoreFault Bytes → Except Failure Block → Prop
  | block {data : Bytes} {b : Block} (hdecode : Block.decode data (some (.ofInt k)) = .ok b)
      (hheight : b.height = .int k) : Reads k (.ok data) (.ok b)
  | undecodable {data : Bytes} {defect : Defect}
      (hdecode : Block.decode data (some (.ofInt k)) =
        .error (.undecodable defect (some (.ofInt k)))) :
      Reads k (.ok data) (.error (.undecodable defect (some (.ofInt k))))
  | misplaced {data : Bytes} {b : Block} (hdecode : Block.decode data (some (.ofInt k)) = .ok b)
      (hheight : b.height ≠ .int k) :
      Reads k (.ok data) (.error (.corrupted (.heightMismatch b.height (.ofInt k))))
  | missing {fault : StoreFault} :
      Reads k (.error fault) (.error (.storage (.readBlockFile (.ofInt k)) (.store fault)))

/-- **What a walk over rows comes to**: their blocks up to the first bad row, whose failure ends
it. Nothing behind that row is seen. -/
inductive Yields : List StoredRow → Walk Block → Prop
  | done : Yields [] ⟨[], none⟩
  | block {k : Int} {data : Except StoreFault Bytes} {b : Block} {rows : List StoredRow}
      {w : Walk Block} (hread : Reads k data (.ok b)) (hrest : Yields rows w) :
      Yields ((k, data) :: rows) (w.cons b)
  | bad {k : Int} {data : Except StoreFault Bytes} {e : Failure} {rows : List StoredRow}
      (hread : Reads k data (.error e)) : Yields ((k, data) :: rows) (.failed e)

/-! ## Reading one row -/

/-- The block of a row. -/
def readRow (row : StoredRow) : Except Failure Block :=
  match row.2 with
  | .ok data => decodeRow ⟨.ofInt row.1, data⟩
  | .error fault => .error (.storage (.readBlockFile (.ofInt row.1)) (.store fault))

theorem reads_decodeRow (k : Int) (data : Bytes) :
    Reads k (.ok data) (decodeRow ⟨.ofInt k, data⟩) := by
  rcases Block.decode_cases data (some (.ofInt k)) with ⟨b, hb, -⟩ | ⟨defect, hdefect, -⟩
  · -- the height of a block has 32 bits, so it is that of the row if the two are the same number
    have hiff : b.height.same (.ofInt k) = true ↔ b.height = .int k := by
      obtain ⟨n, hn, hlt⟩ := Block.hasWordHeight_of_decode hb
      have hfar := natAbs_lt_of_word hlt
      rw [hn]
      constructor
      · intro h
        rw [Number.eq_of_same_ofInt h (by omega)]
      · intro h
        have hk : (n : Int) = k := Number.int.inj h
        rw [← hk, Number.ofInt_of_le (by omega)]
        exact Number.int_same_int.2 rfl
    by_cases hsame : b.height.same (.ofInt k) = true
    · have hrow : decodeRow ⟨.ofInt k, data⟩ = .ok b := by simp [decodeRow, hb, hsame]
      rw [hrow]
      exact .block hb (hiff.1 hsame)
    · have hrow : decodeRow ⟨.ofInt k, data⟩ =
          .error (.corrupted (.heightMismatch b.height (.ofInt k))) := by
        simp [decodeRow, hb, hsame]
      rw [hrow]
      exact .misplaced hb (fun h => hsame (hiff.2 h))
  · have hrow : decodeRow ⟨.ofInt k, data⟩ = .error (.undecodable defect (some (.ofInt k))) := by
      simp [decodeRow, hdefect]
    rw [hrow]
    exact .undecodable hdefect

theorem reads_readRow (row : StoredRow) : Reads row.1 row.2 (readRow row) := by
  obtain ⟨k, stored⟩ := row
  cases stored with
  | ok data => exact reads_decodeRow k data
  | error fault => exact .missing

/-! ## Reading all of them -/

theorem readFile_eq (c : FileCache) (e : Int × BlockFacts) :
    Walk.pass (Failure.duringStorage .readCachedBlocks) decodeRow (c.readFile e) =
      readRow (e.1, c.blockFile e) := by
  unfold FileCache.readFile FileCache.blockFile readRow
  dsimp only
  cases c.files.read? (FileCache.entry e).fileName with
  | some data => rfl
  | none => rfl

/-- Both kinds of cache read their rows alike. -/
theorem readings_eq (c : Cache) :
    c.readings = c.content.map fun row => (row.1, readRow row) := by
  cases c with
  | rows c => simp [readings, content, readRow]
  | files c => simp [readings, content, readFile_eq]

theorem yields_walkOf (rows : List StoredRow) :
    Yields rows (walkOf (rows.map fun row => (row.1, readRow row))) := by
  induction rows with
  | nil => exact .done
  | cons row rows ih =>
      have hread := reads_readRow row
      rw [List.map_cons, walkOf, Walk.attempt]
      cases hrow : readRow row with
      | ok b => exact .block (hrow ▸ hread) ih
      | error e => exact .bad (hrow ▸ hread)

/-- Without a height to begin above, rows at natural heights are all read. -/
theorem readingsAbove_eq {c : Cache} (hheights : ∀ row ∈ c.content, 0 ≤ row.1)
    (last : Option Number) :
    c.readingsAbove (last.getD Keyed.beforeAll) =
      (c.contentAbove last).map fun row => (row.1, readRow row) := by
  unfold readingsAbove
  rw [readings_eq, List.filter_map]
  cases last with
  | some height => rfl
  | none =>
      have hall : ∀ row ∈ c.content, decide (Keyed.beforeAll < Number.int row.1) = true := by
        intro row hrow
        have hrow := hheights row hrow
        have hlt : Number.int (-1) < .int row.1 := Number.int_lt_int.2 (by omega)
        exact decide_eq_true hlt
      exact congrArg _ (List.filter_eq_self.2 hall)

/-! ## Up to a limit -/

/-- What a limit comes to: without one all rows are read, with a safe natural number that many. -/
inductive LimitsTo : Option Number → Option Nat → Prop
  | absent : LimitsTo none none
  | natural {a : Number} {n : Nat} (hint : a.toInt? = some (n : Int)) (hle : n ≤ Number.maxSafe) :
      LimitsTo (some a) (some n)

theorem blocks_of_limitsTo {limit : Option Number} {most : Option Nat} (h : LimitsTo limit most)
    (c : Cache) (last : Option Number) :
    c.blocks last limit =
      walkOf (firstOf most (c.readingsAbove (last.getD Keyed.beforeAll))) := by
  cases h with
  | absent => exact blocks_eq c last
  | natural hint hle =>
      obtain ⟨hasked, hmost⟩ := rows_of_natural hint hle
      exact blocks_of_rows c hasked hmost

/-- **The blocks above a height** are those of the first rows above it, up to a bad row. -/
theorem yields_of_limitsTo {c : Cache} (hheights : ∀ row ∈ c.content, 0 ≤ row.1)
    {limit : Option Number} {most : Option Nat} (h : LimitsTo limit most) (last : Option Number) :
    Yields (firstOf most (c.contentAbove last)) (c.blocks last limit) := by
  rw [blocks_of_limitsTo h, readingsAbove_eq hheights, firstOf_map]
  exact yields_walkOf _

/-- With a limit, too, the blocks stand one above the other. -/
theorem pairwise_blocks_of_limit (c : Cache) (last limit : Option Number) :
    (c.blocks last limit).items.Pairwise Below :=
  (pairwise_blocks c last).sublist (items_prefix_of_limit c last limit).sublist

end Cache
end LightSync
