import LightSync.Proofs.Cache.Tables
import LightSync.Proofs.Chain.Agreement
import LightSync.Proofs.Sync.Session
import LightSync.Proofs.Sync.Twins
import LightSync.Proofs.Wallet.Rewinding

/-!
# What one synchronization comes to

From a state in which nothing is made to fail (`SyncState.Settled`) a synchronization is known by
what checking the cache against the wallet comes to. Where the check passes and the blocks above
the wallet's tip can be taken, they are scanned (`sync_of_takeAll`). Where a block names another
parent than the tip, the wallet is cut and the cache truncated at the fork target
(`sync_of_fork`), if that lies below the tip and not too deep.
-/

set_option autoImplicit false

namespace LightSync

open Agreement (verdict validate_eq_verdict)
open Scan (Point takeAll startOf)

variable {τ : Type}

/-! ## Settled states -/

/-- No transaction is open on the wallet and no fault is injected; the wallet is `w`, and the cache
keeps the blocks of `held`. -/
structure SyncState.Settled (w : Wallet) (held : Keyed Block) (st : SyncState τ) : Prop where
  atRest : st.wallet.AtRest
  content : st.wallet.content = w
  faultless : st.wallet.fault = none ∧ st.cache.fault = none
  stands : st.cache.Stands held

section

variable {w : Wallet} {held held' : Keyed Block} {st : SyncState τ}

/-- Another cache is settled too. -/
theorem SyncState.Settled.withCache (h : st.Settled w held) {c : Cache} (hc : c.Stands held')
    (hfault : c.fault = st.cache.fault) : SyncState.Settled w held' { st with cache := c } :=
  ⟨h.atRest, h.content, ⟨h.faultless.1, hfault.trans h.faultless.2⟩, hc⟩

/-! ## Checking -/

/-- A checked state is as settled as before. -/
theorem SyncState.Settled.checked (h : st.Settled w held) :
    SyncState.Settled w held { st with cache := st.cache.openCursor.closeCursor } := by
  obtain ⟨hopen, hfault⟩ := h.stands.openCursor
  obtain ⟨hclose, hfault'⟩ := hopen.closeCursor
  exact h.withCache hclose (hfault'.trans hfault)

/-- What can be scanned passes the check. -/
theorem follow_of_takeAll {reader : NoteReader} {keys : List AccountKey} {bs : List Block}
    {e : Links.Expectation} {p : Point} {r : Point × Wallet} (hparent : e.parent = p.hash)
    (hheight : e.height = none ∨ e.height = some (p.height + 1))
    (h : takeAll reader keys p w bs = .ok r) (report : LinkReport) :
    ∃ report', Links.follow none e report bs = .ok report' := by
  induction bs generalizing e p w report with
  | nil => exact ⟨report, rfl⟩
  | cons b bs ih =>
      obtain ⟨⟨p1, w1⟩, h1, h2⟩ := Except.bind_eq_ok.1 h
      obtain ⟨s, hs, -, rfl⟩ := Scan.take_eq_ok.1 h1
      obtain ⟨hcheck, hblock⟩ := Scan.inspect_eq_ok.1 hs
      obtain ⟨hsame, hnamed⟩ := Scan.checkNext_eq_ok.1 hcheck
      obtain ⟨hb, hhash⟩ := Scan.identity_of_block hblock
      have hfits : Links.fits e b = true := by
        unfold Links.fits
        rcases hheight with hnone | hsome
        · rw [hnone]
        · rw [hsome]
          exact hsame
      have hpass : Links.checkParent e.parent b = .ok () := by
        unfold Links.checkParent
        rw [hparent]
        cases hp : p.hash with
        | none => rfl
        | some hash => simp [hnamed hash hp]
      have hnext : Links.checkBlock e b = .ok ⟨some (b.height + 1), some s.hash⟩ := by
        unfold Links.checkBlock
        rw [hpass, hhash]
      obtain ⟨report', hrest⟩ := ih (e := ⟨some (b.height + 1), some s.hash⟩) (p := p.advance s)
        rfl (Or.inr (congrArg (fun height => some (height + 1)) hb.symm)) h2
        ⟨report.checked + 1, some b.height⟩
      refine ⟨report', ?_⟩
      rw [Links.follow, if_pos hfits, hnext]
      exact hrest

/-- A block that names another parent than the tip does not pass it. -/
theorem follow_of_stranger {stop : Option Failure} {e : Links.Expectation} {b : Block}
    {hash named : Bytes} (hfits : Links.fits e b = true) (hparent : e.parent = some hash)
    (hnamed : b.parent? = .ok named) (hother : named ≠ hash) (report : LinkReport)
    (rest : List Block) :
    Links.follow stop e report (b :: rest) = .error (.brokenChain (.parentMismatch b.height)) := by
  have hcheck : Links.checkBlock e b = .error (.brokenChain (.parentMismatch b.height)) := by
    unfold Links.checkBlock Links.checkParent
    rw [hparent]
    dsimp only
    rw [hnamed]
    dsimp only
    rw [if_neg hother]
  rw [Links.follow, if_pos hfits, hcheck]

end

/-! ## Rewinding -/

namespace Synchronizer

variable {s : Synchronizer} {w w' : Wallet} {held : Keyed Block} {st : SyncState τ}

theorem rewindNow_eq_ok (h : st.Settled w held) {t : WalletTip} (htip : w.tip? = some t)
    {target : Number} (hinteger : target.isInteger = true) (hbelow : ¬ Number.int t.height ≤ target)
    (hdeep : WalletStore.isDeep target s.policy.pruningDepth t.height = false) :
    ∃ report st', s.rewindNow target st = .ok report st' ∧ st'.active = st.active ∧
      st'.Settled (w.cut target) held := by
  rw [← h.content] at htip
  have hallowed : WalletStore.checkDepth target s.policy.pruningDepth
      s.policy.stableCheckpoint.value? t.height st.wallet.content = .ok () :=
    WalletStore.checkDepth_of_not_isDeep hdeep
  obtain ⟨store, hrewind, hcut, hrest, hfault⟩ :=
    WalletStore.rewind_of_allowed h.atRest hinteger htip hbelow hallowed
  rw [h.content] at hcut
  let report := WalletStore.cutReport target t.height st.wallet.content
  have hwallet : SyncState.onWallet (WalletStore.rewind target s.policy.pruningDepth
      s.policy.stableCheckpoint.value?) st = .ok report { st with wallet := store } := by
    unfold SyncState.onWallet Action.within
    rw [hrewind]
  -- the wallet was rewound, so the console is told
  let console := st.console ++ s.scope.write .info (rewindText report) none
  refine ⟨report, { st with wallet := store, console }, ?_, rfl, ?_⟩
  · exact Action.bind_eq_ok.2 ⟨report, _, hwallet, rfl⟩
  · exact ⟨hrest, hcut, ⟨hfault.trans h.faultless.1, h.faultless.2⟩, h.stands⟩

/-! ## Synchronizing -/

/-- A scan of blocks that can be taken takes them. -/
theorem scanNow_of_takeAll (h : st.Settled w held) {bs : List Block} {p : Point}
    (hblocks : st.cache.blocks (some (startOf s.policy.activation w).height) none = ⟨bs, none⟩)
    (htake : takeAll s.reader w.accountKeys (startOf s.policy.activation w) w bs = .ok (p, w')) :
    ∃ summary st', s.scanNow none ScanHooks.none st = .ok summary st' ∧
      st'.wallet.content = w' := by
  let setup : ScanSetup τ :=
    ⟨s.reader, s.policy.activation, none, s.policy.verbose, ScanHooks.none⟩
  -- a cursor is open while the scan runs
  rw [← h.content] at hblocks htake
  obtain ⟨st', hsteps, hw⟩ := Scan.steps_of_takeAll setup
    { st with cache := st.cache.openCursor } rfl h.atRest h.faultless.1 htake
  have hrun : Scan.run setup st = .ok p.summary { st' with cache := st'.cache.closeCursor } := by
    rw [Scan.run_eq]
    show (Scan.steps setup st.wallet.content.accountKeys
      (st.cache.blocks (some (startOf s.policy.activation st.wallet.content).height) none).stop
      (startOf s.policy.activation st.wallet.content)
      (st.cache.blocks (some (startOf s.policy.activation st.wallet.content).height) none).items
      ).ensuring _ _ = _
    rw [hblocks, Action.ensuring, hsteps]
  exact ⟨p.summary, _, Action.bind_eq_ok.2 ⟨p.summary, _, hrun, rfl⟩, hw⟩

/-- A scan that succeeds has taken the blocks above the tip. -/
theorem takeAll_of_scan (hidle : st.active = none) (hlimit : s.policy.scanLimit = none)
    {summary : ScanSummary} {st' : SyncState τ}
    (h : s.scan none ScanHooks.none st = .ok summary st') :
    ∃ p, takeAll s.reader st.wallet.content.accountKeys
      (startOf s.policy.activation st.wallet.content) st.wallet.content
      (st.cache.blocks (some (startOf s.policy.activation st.wallet.content).height) none).items =
        .ok (p, st'.wallet.content) := by
  obtain ⟨st1, hnow, rfl⟩ := of_exclusive_eq_ok h hidle
  obtain ⟨_, st2, hrun, hwrite⟩ := Action.bind_eq_ok.1 hnow
  cases hwrite
  rw [hlimit] at hrun
  exact Scan.takeAll_pending Scan.aside_none (fun _ => rfl) hrun

/-- **Where the check passes, the blocks that can be taken are scanned.** -/
theorem sync_of_takeAll (h : st.Settled w held) (hidle : st.active = none)
    (hlimit : s.policy.scanLimit = none) {report : LinkReport}
    (hverdict : verdict w st.cache = .ok report) {bs : List Block} {p : Point}
    (hblocks : st.cache.blocks (some (startOf s.policy.activation w).height) none = ⟨bs, none⟩)
    (htake : takeAll s.reader w.accountKeys (startOf s.policy.activation w) w bs = .ok (p, w')) :
    ∃ summary st', s.sync ScanHooks.none st = .ok (.scanned summary) st' ∧
      st'.wallet.content = w' := by
  let busy : SyncState τ := { st with active := some "sync" }
  have hbusy : busy.Settled w held := ⟨h.atRest, h.content, h.faultless, h.stands⟩
  have hvalidate : validate busy = .ok report
      { busy with cache := busy.cache.openCursor.closeCursor } := by
    rw [validate_eq_verdict, hbusy.content]
    show Action.ofExcept (verdict w st.cache) _ = _
    rw [hverdict]
    rfl
  obtain ⟨summary, st', hscan, hw⟩ := scanNow_of_takeAll hbusy.checked
    ((Cache.blocks_cursor _ _ _).trans hblocks) htake
  have hboth : s.checkAndScan ScanHooks.none busy = .ok (.scanned summary) st' := by
    refine Action.bind_eq_ok.2 ⟨report, _, hvalidate, ?_⟩
    refine Action.bind_eq_ok.2 ⟨summary, st', ?_, rfl⟩
    rw [hlimit]
    exact hscan
  refine ⟨summary, { st' with active := none }, ?_, hw⟩
  rw [sync, exclusive_of_idle hidle, Action.ensuring, recovering, hboth]

/-- **Where a block names another parent, the wallet is cut and the cache truncated.** -/
theorem sync_of_fork (h : st.Settled w held) (hidle : st.active = none) {height : Number}
    (hverdict : verdict w st.cache = .error (.brokenChain (.parentMismatch height)))
    {t : WalletTip} (htip : w.tip? = some t) (hinteger : (s.forkTarget height).isInteger = true)
    (hbelow : ¬ Number.int t.height ≤ s.forkTarget height)
    (hdeep : WalletStore.isDeep (s.forkTarget height) s.policy.pruningDepth t.height = false) :
    ∃ report st', s.sync ScanHooks.none st =
        .ok (.reorganized height (s.forkTarget height + 1) report) st' ∧ st'.active = none ∧
      st'.Settled (w.cut (s.forkTarget height)) (held.upTo (s.forkTarget height)) := by
  let busy : SyncState τ := { st with active := some "sync" }
  have hbusy : busy.Settled w held := ⟨h.atRest, h.content, h.faultless, h.stands⟩
  let checked : SyncState τ := { busy with cache := busy.cache.openCursor.closeCursor }
  have hvalidate : validate busy = .error (.brokenChain (.parentMismatch height)) checked := by
    rw [validate_eq_verdict, hbusy.content]
    show Action.ofExcept (verdict w st.cache) _ = _
    rw [hverdict]
    rfl
  have hfound : s.checkAndScan ScanHooks.none busy =
      .error (.brokenChain (.parentMismatch height)) checked :=
    Action.bind_eq_error.2 (Or.inl hvalidate)
  -- the console is told about the fork, and then the wallet is rewound
  let target := s.forkTarget height
  let message := s!"Chain fork detected at height {height}, rewinding to {target}"
  let console := checked.console ++ s.scope.write .warn message none
  let warned : SyncState τ := { checked with console }
  have hwarned : warned.Settled w held :=
    ⟨hbusy.checked.atRest, hbusy.checked.content, hbusy.checked.faultless, hbusy.checked.stands⟩
  obtain ⟨report, st1, hrewind, -, hcut⟩ := rewindNow_eq_ok hwarned htip hinteger hbelow hdeep
  obtain ⟨c, htruncate, hstands, hfault⟩ := hcut.stands.of_truncate target
  have hcache : SyncState.onCache (Cache.truncate target) st1 = .ok () { st1 with cache := c } :=
    Scan.onCache_eq_ok.2 ⟨c, htruncate, rfl⟩
  have hrecover : s.recover (.parentMismatch height) checked =
      .ok (.reorganized height (target + 1) report) { st1 with cache := c } := by
    refine Action.bind_eq_ok.2 ⟨(), warned, rfl, ?_⟩
    refine Action.bind_eq_ok.2 ⟨report, st1, hrewind, ?_⟩
    exact Action.bind_eq_ok.2 ⟨(), _, hcache, rfl⟩
  refine ⟨report, { st1 with cache := c, active := none }, ?_, rfl, ?_⟩
  · rw [sync, exclusive_of_idle hidle, Action.ensuring, recovering, hfound]
    dsimp only
    rw [hrecover]
  · have hdone := hcut.withCache hstands hfault
    exact ⟨hdone.atRest, hdone.content, hdone.faultless, hdone.stands⟩

end Synchronizer
end LightSync
