import LightSync.Proofs.Block.Reading
import LightSync.Sync.State

/-!
# Traversing a cache

Every block that a cache hands out was decoded, so its height is a natural number of 32 bits
(`hasWordHeight_of_mem_blocks`). A traversal runs an action on such blocks, on a state that
differs in nothing but the cache (`SyncState.traverse_eq`).
-/

set_option autoImplicit false

namespace LightSync

/-! ## Decoded heights -/

/-- How many numbers have 32 bits. -/
def wordRange : Nat := 4294967296

/-- The height is a number of 32 bits. -/
def Block.HasWordHeight (b : Block) : Prop := ∃ n : Nat, b.height = .int n ∧ n < wordRange

/-- Integers of 32 bits are safe. -/
theorem natAbs_lt_of_nonneg {k : Int} (h0 : 0 ≤ k) (hk : k < wordRange) :
    k.natAbs + 1 < Number.exactLimit := by
  unfold wordRange at hk
  unfold Number.exactLimit
  omega

theorem natAbs_lt_of_word {n : Nat} (h : n < wordRange) :
    (n : Int).natAbs + 1 < Number.exactLimit :=
  natAbs_lt_of_nonneg (Int.natCast_nonneg n) (Int.ofNat_lt.2 h)

theorem natAbs_le_maxSafe_of_word {n : Nat} (h : n < wordRange) :
    (n : Int).natAbs ≤ Number.maxSafe := by
  have := natAbs_lt_of_word h
  unfold Number.maxSafe
  omega

theorem Block.hasWordHeight_of_decode {data : Bytes} {height : Option Number} {b : Block}
    (h : Block.decode data height = .ok b) : b.HasWordHeight := by
  have hread := Block.read_of_decode h
  obtain ⟨n, hn, hle⟩ := hread.inRange.height
  have hkept : b.height.kept = b.height := congrArg Block.height hread.plain
  refine ⟨n, hkept.symm.trans (Number.kept_of_toInt? hn), ?_⟩
  unfold wordRange
  omega

/-! ## Walks -/

theorem Walk.mem_attempt {α β : Type} {f : α → Except Failure β} {stop : Option Failure}
    {l : List α} {b : β} (h : b ∈ (attempt f stop l).items) : ∃ a ∈ l, f a = .ok b := by
  induction l with
  | nil => cases h
  | cons a l ih =>
      rw [attempt] at h
      split at h
      · rename_i hf
        rcases List.mem_cons.1 h with rfl | h
        · exact ⟨a, List.mem_cons_self, hf⟩
        · obtain ⟨x, hx, hfx⟩ := ih h
          exact ⟨x, List.mem_cons_of_mem _ hx, hfx⟩
      · cases h

/-- A walk ends early because of its last thing, or as the walk that it was made of. -/
theorem Walk.of_stop_attempt {α β : Type} {f : α → Except Failure β} {stop : Option Failure}
    {l : List α} {e : Failure} (h : (attempt f stop l).stop = some e) :
    stop = some e ∨ ∃ a ∈ l, f a = .error e := by
  induction l with
  | nil => exact Or.inl h
  | cons a l ih =>
      rw [attempt] at h
      split at h
      · refine (ih h).imp_right ?_
        rintro ⟨x, hx, hfx⟩
        exact ⟨x, List.mem_cons_of_mem _ hx, hfx⟩
      · rename_i hf
        cases h
        exact Or.inr ⟨a, List.mem_cons_self, hf⟩

namespace Cache

theorem decode_of_decodeRow {row : CachedRow} {b : Block} (h : decodeRow row = .ok b) :
    Block.decode row.data (some row.height) = .ok b := by
  unfold decodeRow at h
  split at h
  · cases h
  · rename_i hb
    split at h
    · cases h
      exact hb
    · cases h

theorem hasWordHeight_of_decodeRow {row : CachedRow} {b : Block} (h : decodeRow row = .ok b) :
    b.HasWordHeight := Block.hasWordHeight_of_decode (decode_of_decodeRow h)

theorem decodeRow_of_mem_blocks {c : Cache} {last limit : Option Number} {b : Block}
    (h : b ∈ (c.blocks last limit).items) : ∃ row, decodeRow row = .ok b := by
  unfold blocks at h
  split at h
  · cases h
  · obtain ⟨row, -, hrow⟩ := Walk.mem_attempt h
    exact ⟨row, hrow⟩

theorem hasWordHeight_of_mem_blocks {c : Cache} {last limit : Option Number} {b : Block}
    (h : b ∈ (c.blocks last limit).items) : b.HasWordHeight :=
  let ⟨_, hrow⟩ := decodeRow_of_mem_blocks h
  hasWordHeight_of_decodeRow hrow

/-- The other numbers of a block that is handed out are in range, too. -/
theorem inRange_of_mem_blocks {c : Cache} {last limit : Option Number} {b : Block}
    (h : b ∈ (c.blocks last limit).items) : b.InRange :=
  let ⟨_, hrow⟩ := decodeRow_of_mem_blocks h
  (Block.read_of_decode (decode_of_decodeRow hrow)).inRange

/-- Why a cache hands out no more blocks although there are more rows: the next one cannot be
decoded, or the store cannot read it. -/
inductive Unreadable (c : Cache) (last limit : Option Number) : Failure → Prop
  | row (row : CachedRow) (hrow : row ∈ (c.storedRows last limit).items) (e : Failure)
      (h : decodeRow row = .error e) : Unreadable c last limit e
  | store (e : Failure) (h : (c.storedRows last limit).stop = some e) :
      Unreadable c last limit (e.duringStorage .readCachedBlocks)

/-- A walk over the blocks ends early because its limit is refused, or because of a row. -/
theorem of_stop_blocks {c : Cache} {last limit : Option Number} {e : Failure}
    (h : (c.blocks last limit).stop = some e) :
    RowLimit.ofBlocks limit = .error e ∨ c.Unreadable last limit e := by
  unfold blocks at h
  split at h
  · rename_i hlimit
    cases h
    exact Or.inl hlimit
  · rcases Walk.of_stop_attempt h with hstop | ⟨row, hrow, hdecode⟩
    · obtain ⟨e', he', rfl⟩ := Option.map_eq_some_iff.1 hstop
      exact Or.inr (.store e' he')
    · exact Or.inr (.row row hrow e hdecode)

end Cache

/-! ## Traversals -/

namespace SyncState

variable {τ α : Type}

/-- While blocks are taken a cursor is open. -/
theorem traverse_of_limit {last limit : Option Number} {rows : Number}
    (h : RowLimit.ofBlocks limit = .ok rows) (act : Walk Block → Action (SyncState τ) α)
    (st : SyncState τ) :
    traverse last limit act st =
      (act (st.cache.blocks last limit)).ensuring
        (fun s => { s with cache := s.cache.closeCursor })
        { st with cache := st.cache.openCursor } := by
  unfold traverse Cache.traverse Cache.during
  rw [h]

/-- No cursor is opened for a limit that is refused. -/
theorem traverse_of_no_limit {last limit : Option Number} {e : Failure}
    (h : RowLimit.ofBlocks limit = .error e) (act : Walk Block → Action (SyncState τ) α)
    (st : SyncState τ) : traverse last limit act st = act (Walk.failed e) st := by
  unfold traverse Cache.traverse Cache.during Cache.blocks
  rw [h]

/-- A traversal is its action on the blocks that are there, with a cursor open or not. -/
theorem traverse_eq (last limit : Option Number) (act : Walk Block → Action (SyncState τ) α)
    (st : SyncState τ) : ∃ (c : Cache) (close : Cache → Cache),
      traverse last limit act st =
        (act (st.cache.blocks last limit)).ensuring (fun s => { s with cache := close s.cache })
          { st with cache := c } := by
  cases h : RowLimit.ofBlocks limit with
  | ok rows => exact ⟨st.cache.openCursor, Cache.closeCursor, traverse_of_limit h act st⟩
  | error e =>
      refine ⟨st.cache, id, ?_⟩
      rw [traverse_of_no_limit h, Cache.blocks, h]
      unfold Action.ensuring
      dsimp only [id]
      cases act (Walk.failed e) st <;> rfl

/-- A traversal leads where its action leads, if the cache does not matter. -/
theorem after_traverse {P : SyncState τ → Prop} {last limit : Option Number}
    {act : Walk Block → Action (SyncState τ) α} {st : SyncState τ}
    (hact : ∀ c, P ((act (st.cache.blocks last limit)).after { st with cache := c }))
    (hP : ∀ s c, P s → P { s with cache := c }) : P ((traverse last limit act).after st) := by
  obtain ⟨c, close, h⟩ := traverse_eq last limit act st
  have hafter : (traverse last limit act).after st =
      ((act (st.cache.blocks last limit)).ensuring
        fun s => { s with cache := close s.cache }).after { st with cache := c } := by
    rw [Action.after, Action.after, h]
  rw [hafter, Action.after_ensuring]
  exact hP _ _ (hact c)

/-- A traversal that succeeded is its action that succeeded, up to the cache. -/
theorem of_traverse_eq_ok {last limit : Option Number} {act : Walk Block → Action (SyncState τ) α}
    {st st' : SyncState τ} {a : α} (h : traverse last limit act st = .ok a st') :
    ∃ c s c', act (st.cache.blocks last limit) { st with cache := c } = .ok a s ∧
      st' = { s with cache := c' } := by
  obtain ⟨c, close, heq⟩ := traverse_eq last limit act st
  rw [heq] at h
  unfold Action.ensuring at h
  split at h
  · rename_i s hs
    cases h
    exact ⟨c, s, close s.cache, hs, rfl⟩
  · cases h

/-- A traversal that failed is its action that failed, up to the cache. -/
theorem of_traverse_eq_error {last limit : Option Number}
    {act : Walk Block → Action (SyncState τ) α} {st st' : SyncState τ} {e : Failure}
    (h : traverse last limit act st = .error e st') :
    ∃ c s c', act (st.cache.blocks last limit) { st with cache := c } = .error e s ∧
      st' = { s with cache := c' } := by
  obtain ⟨c, close, heq⟩ := traverse_eq last limit act st
  rw [heq] at h
  unfold Action.ensuring at h
  split at h
  · cases h
  · rename_i s hs
    cases h
    exact ⟨c, s, close s.cache, hs, rfl⟩

end SyncState

/-! ## Caches of given blocks -/

/-- A block of one-byte hashes, repeated to their length. -/
def linkedBlock (height : Int) (hash parent : UInt8) (txs : List Tx) : Block :=
  ⟨1, .int height, List.replicate Block.hashLength hash, List.replicate Block.hashLength parent, 0,
    [], txs⟩

/-- The entry of a block in a table of rows. -/
def rowOf (b : Block) : Int × Bytes :=
  (b.height.truncate, match b.encode with
    | .ok data => data
    | .error _ => [])

/-- Rows in memory. -/
def Cache.inMemory (rows : Keyed Bytes) : Cache := .rows ⟨0, Database.connect rows .memory⟩

/-- A cache and a wallet, with no operation at work and nobody who waits. -/
def SyncState.idle (cache : Cache) (w : Wallet) : SyncState Unit :=
  { cache, wallet := Database.connect w .memory, active := none, console := [], host := () }

end LightSync
