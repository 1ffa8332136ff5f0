import LightSync.Proofs.Store.Transaction
import LightSync.Proofs.Sync.Congruence

/-!
# States that differ in the kind of cache only

Two caches are twins when they hand out the same rows for every question, and two states are when
they differ in nothing but twin caches. Checking and scanning see a cache through its rows only,
so they run alike on twin states (`parallel_checkLinks`, `parallel_run`): they return or fail with
the same and lead to twin states again.
-/

set_option autoImplicit false

namespace LightSync

/-! ## Twins -/

namespace Cache

/-- The caches hand out the same rows. -/
def Twins (c c' : Cache) : Prop := ∀ last limit, c.storedRows last limit = c'.storedRows last limit

theorem storedRows_openCursor (c : Cache) (last limit : Option Number) :
    c.openCursor.storedRows last limit = c.storedRows last limit := by
  cases c with
  | rows c => rfl
  | files c => rfl

theorem storedRows_closeCursor (c : Cache) (last limit : Option Number) :
    c.closeCursor.storedRows last limit = c.storedRows last limit := by
  cases c with
  | rows c =>
      show RowCache.rows _ last limit = RowCache.rows c last limit
      unfold RowCache.rows
      rw [Database.content_closeCursor]
  | files c =>
      show FileCache.rows _ last limit = FileCache.rows c last limit
      unfold FileCache.rows
      rw [Database.content_closeCursor]
      rfl

/-- A cursor that was opened and closed again leaves the blocks as they are. -/
theorem blocks_cursor (c : Cache) (last limit : Option Number) :
    c.openCursor.closeCursor.blocks last limit = c.blocks last limit := by
  unfold blocks
  rw [storedRows_closeCursor, storedRows_openCursor]

theorem Twins.blocks {c c' : Cache} (h : Twins c c') (last limit : Option Number) :
    c.blocks last limit = c'.blocks last limit := by
  unfold Cache.blocks
  rw [h]

theorem Twins.openCursor {c c' : Cache} (h : Twins c c') : Twins c.openCursor c'.openCursor := by
  intro last limit
  rw [storedRows_openCursor, storedRows_openCursor, h]

theorem Twins.closeCursor {c c' : Cache} (h : Twins c c') : Twins c.closeCursor c'.closeCursor := by
  intro last limit
  rw [storedRows_closeCursor, storedRows_closeCursor, h]

end Cache

namespace SyncState

variable {τ α : Type}

/-- The states differ in nothing but twin caches. -/
structure Twin (st st' : SyncState τ) : Prop where
  cache : st.cache.Twins st'.cache
  wallet : st.wallet = st'.wallet
  active : st.active = st'.active
  console : st.console = st'.console
  host : st.host = st'.host

theorem Twin.withCache {st st' : SyncState τ} (h : Twin st st') {c c' : Cache}
    (hc : c.Twins c') : Twin { st with cache := c } { st' with cache := c' } :=
  ⟨hc, h.wallet, h.active, h.console, h.host⟩

/-- A scan does not tell twin states apart. -/
theorem congruence_twin : Congruence (Twin (τ := τ)) where
  blocks h := h.cache.blocks
  wallet h := h.wallet
  host h := h.host
  openCursor h := h.withCache h.cache.openCursor
  closeCursor h := h.withCache h.cache.closeCursor
  withWallet h _ := ⟨h.cache, rfl, h.active, h.console, h.host⟩
  written h lines := ⟨h.cache, h.wallet, h.active, congrArg (· ++ lines) h.console, h.host⟩

end SyncState

/-! ## Checking and scanning -/

open LightSync.Action (Parallel)
open SyncState (Twin)

variable {τ : Type}

theorem Synchronizer.parallel_checkLinks (tip : Option ChainTip) :
    Parallel (Twin (τ := τ)) (checkLinks tip) (checkLinks tip) :=
  SyncState.congruence_twin.checkLinks tip

theorem Scan.parallel_run {setup : ScanSetup τ} (hprogress : ∀ report,
    Parallel Twin (setup.hooks.progress report) (setup.hooks.progress report)) :
    Parallel Twin (run setup) (run setup) :=
  SyncState.congruence_twin.run hprogress rfl

end LightSync
