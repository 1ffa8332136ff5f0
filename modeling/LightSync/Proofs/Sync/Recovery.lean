import LightSync.Proofs.Cache.Cutting
import LightSync.Proofs.Sync.Gap
import LightSync.Proofs.Wallet.Rewinding

/-!
# Recovering from a fork

A synchronization that reports a fork has found it at a block of the cache, and has gone back to a
height below that block: nothing from there on is left in the cache or in the wallet, and the rest
is as it was (`Recovered`). So every such report costs the cache a block, and without new ones there
are only so many (`reorganizations_le`). A wallet with blocks is not scanned before: what the check
has passed, a scan from the same tip would take (`eq_of_obstacle`). Hence nothing has changed if the
rewind is refused.
-/

set_option autoImplicit false

namespace LightSync
namespace Synchronizer

open Agreement (verdict)
open Scan (Onlooker takeAll startOf pending checkNext)
open WalletStore (Settled)

variable {τ : Type} {s : Synchronizer} {hooks : ScanHooks τ} {st st' : SyncState τ}

/-! ## Accepted policies -/

theorem isIntegerFrom_of_checked {requirement : Requirement} {least a : Number} {f : Field Number}
    (h : PolicyRequest.checked requirement least f = .ok a) : a.isIntegerFrom least = true := by
  unfold PolicyRequest.checked at h
  split at h
  · split at h
    · rename_i hfrom
      cases h
      exact hfrom
    · cases h
  · cases h

/-- The depths of an accepted policy were checked. -/
theorem checked_of_ofRequest {request : PolicyRequest} {reader : NoteReader}
    (h : ofRequest request reader = .ok s) :
    s.policy.pruningDepth.isIntegerFrom 0 = true ∧ s.policy.reorgRewindDepth.isIntegerFrom 1 = true := by
  unfold ofRequest at h
  split at h
  · rename_i policy hresolve
    cases h
    obtain ⟨network, -, hresolve⟩ := Except.bind_eq_ok.1 hresolve
    obtain ⟨pruning, hpruning, hresolve⟩ := Except.bind_eq_ok.1 hresolve
    obtain ⟨depth, hdepth, hresolve⟩ := Except.bind_eq_ok.1 hresolve
    have hkept : policy.pruningDepth = pruning ∧ policy.reorgRewindDepth = depth := by
      dsimp only at hresolve
      split at hresolve
      · cases hresolve
        exact ⟨rfl, rfl⟩
      · obtain ⟨limit, -, hresolve⟩ := Except.bind_eq_ok.1 hresolve
        cases hresolve
        exact ⟨rfl, rfl⟩
    rw [hkept.1, hkept.2]
    exact ⟨isIntegerFrom_of_checked hpruning, isIntegerFrom_of_checked hdepth⟩
  · cases h

/-- By an accepted policy a fork is rewound by one block at least. -/
theorem rewindDepth_of_ofRequest {request : PolicyRequest} {reader : NoteReader}
    (h : ofRequest request reader = .ok s) :
    ∃ depth : Int, s.policy.reorgRewindDepth = .int depth ∧ 1 ≤ depth := by
  obtain ⟨hinteger, hleast⟩ := Bool.and_eq_true_iff.1 (checked_of_ofRequest h).2
  have hone : ¬ s.policy.reorgRewindDepth < 1 := by simpa using hleast
  obtain ⟨depth, hdepth⟩ := Option.isSome_iff_exists.1 hinteger
  rcases Number.toInt?_eq_some.1 hdepth with hdepth | ⟨hzero, -⟩
  · refine ⟨depth, hdepth, Int.not_lt.1 fun hlt => hone ?_⟩
    rw [hdepth]
    exact Number.int_lt_int.2 hlt
  · rw [hzero] at hone
    exact absurd (by decide) hone

/-- By an accepted policy rewinds by a number of blocks are always allowed. -/
theorem pruningDepth_of_ofRequest {request : PolicyRequest} {reader : NoteReader}
    (h : ofRequest request reader = .ok s) :
    ∃ pruning : Int, s.policy.pruningDepth.toInt? = some pruning :=
  Option.isSome_iff_exists.1 (Bool.and_eq_true_iff.1 (checked_of_ofRequest h).1).1

/-! ## Steps of a recovery -/

theorem of_rewindNow_eq_ok {target : Number} {report : RewindReport}
    (h : s.rewindNow target st = .ok report st') :
    WalletStore.rewind target s.policy.pruningDepth s.policy.stableCheckpoint.value? st.wallet =
      .ok report st'.wallet ∧ st'.cache = st.cache := by
  obtain ⟨report', st1, hwallet, h⟩ := Action.bind_eq_ok.1 h
  obtain ⟨store, hrewind, rfl⟩ := Scan.onWallet_eq_ok.1 hwallet
  cases hrewound : report'.rewound with
  | true =>
      rw [hrewound] at h
      cases h
      exact ⟨hrewind, rfl⟩
  | false =>
      rw [hrewound] at h
      cases h
      exact ⟨hrewind, rfl⟩

theorem of_rewindNow_eq_error {target : Number} {e : Failure}
    (h : s.rewindNow target st = .error e st') :
    WalletStore.rewind target s.policy.pruningDepth s.policy.stableCheckpoint.value? st.wallet =
      .error e st'.wallet ∧ st'.cache = st.cache := by
  rcases Action.bind_eq_error.1 h with hwallet | ⟨report', st1, -, h⟩
  · obtain ⟨store, hrewind, rfl⟩ := Scan.onWallet_eq_error.1 hwallet
    exact ⟨hrewind, rfl⟩
  · cases hrewound : report'.rewound with
    | true =>
        rw [hrewound] at h
        cases h
    | false =>
        rw [hrewound] at h
        cases h

/-- A recovery from a fork rewinds the wallet and truncates the cache. -/
theorem of_recover_eq_ok {height : Number} {outcome : SyncOutcome}
    (h : s.recover (.parentMismatch height) st = .ok outcome st') :
    ∃ report, outcome = .reorganized height (s.forkTarget height + 1) report ∧
      WalletStore.rewind (s.forkTarget height) s.policy.pruningDepth
        s.policy.stableCheckpoint.value? st.wallet = .ok report st'.wallet ∧
      Cache.truncate (s.forkTarget height) st.cache = .ok () st'.cache := by
  obtain ⟨_, st1, hwrite, h⟩ := Action.bind_eq_ok.1 h
  cases hwrite
  obtain ⟨report, st2, hnow, h⟩ := Action.bind_eq_ok.1 h
  obtain ⟨hrewind, hcache⟩ := of_rewindNow_eq_ok hnow
  obtain ⟨_, st3, honCache, h⟩ := Action.bind_eq_ok.1 h
  obtain ⟨c, htruncate, rfl⟩ := Scan.onCache_eq_ok.1 honCache
  cases h
  rw [hcache] at htruncate
  exact ⟨report, rfl, hrewind, htruncate⟩

/-- A recovery fails with a failure about the chain only if the rewind was refused. -/
theorem of_recover_eq_error {height : Number} {e : Failure} (he : e.concernsChain = true)
    (h : s.recover (.parentMismatch height) st = .error e st') :
    WalletStore.rewind (s.forkTarget height) s.policy.pruningDepth
        s.policy.stableCheckpoint.value? st.wallet = .error e st'.wallet ∧ st'.cache = st.cache := by
  rcases Action.bind_eq_error.1 h with hwrite | ⟨_, st1, hwrite, h⟩
  · cases hwrite
  · cases hwrite
    rcases Action.bind_eq_error.1 h with hnow | ⟨report, st2, -, h⟩
    · obtain ⟨hrewind, hcache⟩ := of_rewindNow_eq_error hnow
      exact ⟨hrewind, hcache⟩
    · rcases Action.bind_eq_error.1 h with honCache | ⟨_, st3, -, hreturn⟩
      · obtain ⟨c, htruncate, -⟩ := Scan.onCache_eq_error.1 honCache
        rw [Cache.quiet_truncate _ _ _ _ htruncate] at he
        cases he
      · cases hreturn

/-- A fork is reported where the attempt fails with it and the recovery succeeds. -/
theorem of_sync_eq_reorganized {lower refetch : Number} {report : RewindReport}
    (h : s.sync hooks st = .ok (.reorganized lower refetch report) st') :
    ∃ st1, s.checkAndScan hooks (working st) =
        .error (.brokenChain (.parentMismatch lower)) st1 ∧
      refetch = s.forkTarget lower + 1 ∧
      WalletStore.rewind (s.forkTarget lower) s.policy.pruningDepth
        s.policy.stableCheckpoint.value? st1.wallet = .ok report st'.wallet ∧
      Cache.truncate (s.forkTarget lower) st1.cache = .ok () st'.cache := by
  obtain ⟨st2, hrecovering, rfl⟩ := of_sync_eq_ok h
  unfold recovering at hrecovering
  split at hrecovering
  · rename_i breach st1 hattempt
    cases breach with
    | discontinuity expected found =>
        obtain ⟨_, st3, -, hreturn⟩ := Action.bind_eq_ok.1 hrecovering
        cases hreturn
    | parentMismatch height =>
        obtain ⟨report', houtcome, hrewind, htruncate⟩ := of_recover_eq_ok hrecovering
        cases houtcome
        exact ⟨st1, hattempt, rfl, hrewind, htruncate⟩
  · -- an attempt that succeeds has scanned
    obtain ⟨report, st3, -, hscan⟩ := Action.bind_eq_ok.1 hrecovering
    obtain ⟨summary, st4, -, hscan⟩ := Action.bind_eq_ok.1 hscan
    cases hscan

/-! ## Where a fork is found -/

/-- A fork is found at a block of the cache. -/
theorem held_of_obstacle {lower : Number} {store : WalletStore}
    (h : Obstacle s hooks st (.brokenChain (.parentMismatch lower)) store) :
    ∃ b ∈ st.cache.held, b.height = lower := by
  cases h with
  | link b hb hcheck => exact ⟨b, Cache.mem_held_of_mem_blocks hb, rfl⟩
  | next report done b rest q hcheck hpending htake hnext =>
      have hb : b ∈ pending (s.scanSetup hooks) st :=
        hpending ▸ List.mem_append_right _ List.mem_cons_self
      rcases Scan.of_checkNext_error hnext rfl with ⟨-, hmismatch⟩ | ⟨-, hgap⟩
      · cases hmismatch
        exact ⟨b, Cache.mem_held_of_mem_blocks hb, rfl⟩
      · cases hgap

theorem chainTip?_of_tip? {w : Wallet} {t : WalletTip} (ht : w.tip? = some t) :
    w.chainTip? = some ⟨.int t.height, t.hash⟩ := by
  unfold Wallet.chainTip?
  rw [ht]
  rfl

theorem verdict_of_tip {w : Wallet} {t : WalletTip} (ht : w.tip? = some t) (c : Cache) :
    verdict w c = Links.follow (c.blocks (some (.int t.height)) none).stop
      (Links.after (some ⟨.int t.height, t.hash⟩)) ⟨0, none⟩
      (c.blocks (some (.int t.height)) none).items := by
  unfold verdict
  rw [chainTip?_of_tip? ht]
  rfl

theorem ahead_of_tip {t : WalletTip} (ht : st.wallet.content.tip? = some t) :
    ahead st = (st.cache.blocks (some (.int t.height)) none).items := by
  unfold ahead
  rw [chainTip?_of_tip? ht]
  rfl

/-- Where the check has passed, a scan of a wallet with blocks finds no fork. -/
theorem checkNext_of_verdict {t : WalletTip} (ht : st.wallet.content.tip? = some t)
    {report : LinkReport} (hcheck : verdict st.wallet.content st.cache = .ok report)
    {done rest : List Block} {b : Block} {q : Scan.Point} {w : Wallet}
    (hpending : pending (s.scanSetup hooks) st = done ++ b :: rest)
    (htake : takeAll s.reader st.wallet.content.accountKeys
      (startOf s.policy.activation st.wallet.content) st.wallet.content done = .ok (q, w))
    (lower : Number) : checkNext q b ≠ .error (.brokenChain (.parentMismatch lower)) := by
  have hstart : startOf s.policy.activation st.wallet.content =
      ⟨.int t.height, some t.hash, t.treeSize, Scan.emptySummary⟩ := by
    unfold startOf
    rw [ht]
  have hscanned : (st.cache.blocks (some (.int t.height)) s.policy.scanLimit).items =
      done ++ b :: rest := by
    rw [← hpending, pending]
    show _ = (st.cache.blocks (some (startOf s.policy.activation _).height) _).items
    rw [hstart]
    rfl
  -- the scan goes through the first of the blocks that were checked
  obtain ⟨more, hmore⟩ := st.cache.items_prefix_of_limit (some (.int t.height)) s.policy.scanLimit
  rw [hscanned, List.append_assoc, List.cons_append] at hmore
  rw [verdict_of_tip ht, ← hmore] at hcheck
  rw [hstart] at htake
  refine Scan.checkNext_of_follow ?_ ?_ hcheck htake lower
  · exact fun _ hsame => hsame
  · exact fun _ _ hsame => hsame

/-- A wallet with blocks is as it was when a fork is found: what passed the check would have been
taken by the scan. -/
theorem eq_of_obstacle {lower : Number} {store : WalletStore}
    (h : Obstacle s hooks st (.brokenChain (.parentMismatch lower)) store)
    (hwallet : st.wallet.content.tip? ≠ none) : store = st.wallet := by
  cases h with
  | link b hb hcheck => rfl
  | next report done b rest q hcheck hpending htake hnext =>
      obtain ⟨t, ht⟩ := Option.ne_none_iff_exists'.1 hwallet
      exact absurd hnext (checkNext_of_verdict ht hcheck hpending htake lower)

/-- The wallet in which an attempt has found a fork is as settled as before. -/
theorem settled_of_obstacle {e : Failure} {store : WalletStore} (h : Obstacle s hooks st e store)
    (hsettled : Settled st.wallet) (hrest : store.AtRest) : Settled store := by
  cases h with
  | link b hb hcheck => exact hsettled
  | next report done b rest q hcheck hpending htake hnext =>
      refine ⟨hrest, hsettled.coherent.takeAll (fun c hc => ?_) htake⟩
      exact Cache.hasWordHeight_of_mem_blocks
        (show c ∈ pending (s.scanSetup hooks) st from hpending ▸ List.mem_append_left _ hc)

theorem keeps_atRest_checkAndScan (honlooker : Onlooker hooks) :
    Action.Keeps (fun st : SyncState τ => st.wallet.AtRest) (s.checkAndScan hooks) := by
  have hrun : Action.Keeps (fun st : SyncState τ => st.wallet.AtRest)
      (Scan.run (s.scanSetup hooks)) :=
    fun st hst => (Scan.content_after_run honlooker.toAside hst).1
  exact keeps_validate.bind fun _ =>
    (hrun.bind fun _ => (keeps_write _ _ _ _).bind fun _ => Action.Keeps.pure _).bind fun _ =>
      Action.Keeps.pure _

/-! ## What a recovery leaves -/

/-- A fork was found at `lower` and gone back below `refetch`: the cache holds the blocks below it
and no others, and the wallet ends below it. If there were blocks in the wallet it was cut, and not
scanned. -/
structure Recovered (s : Synchronizer) (lower refetch : Number) (st st' : SyncState τ) : Prop where
  found : ∃ b ∈ st.cache.held, b.height = lower
  bound : refetch = lower - s.policy.reorgRewindDepth + 1
  exactly : ∀ n d : Int, lower = .int n → s.policy.reorgRewindDepth = .int d →
    d ≤ Number.exactLimit → refetch = .int (n - d + 1)
  le : refetch ≤ lower
  held : st'.cache.held = st.cache.held.filter fun b => decide (b.height < refetch)
  lowered : ∃ m, st.cache.maxHeight = some m ∧ ∀ m', st'.cache.maxHeight = some m' → m' < m
  ends : st'.wallet.content.EndsBelow refetch
  content : st.wallet.content.tip? ≠ none →
    st'.wallet.content = st.wallet.content.cut (refetch - 1)

/-- Where a fork is rewound to, if that is a height at all. -/
theorem forkTarget_of_integer {depth n : Int} (hdepth : s.policy.reorgRewindDepth = .int depth)
    (hinteger : (s.forkTarget (.int n)).isInteger = true) :
    s.forkTarget (.int n) = .int (Number.rounded (n - depth)) := by
  have htarget : s.forkTarget (.int n) = .ofInt (n - depth) := by
    unfold forkTarget
    rw [hdepth]
    rfl
  rw [htarget] at hinteger ⊢
  exact Number.ofInt_of_isInteger hinteger

/-- How a fork is gone back from: it was found at a block at height `n`, the wallet was rewound to
height `t` below it from where the attempt had left it, and the cache cut there. -/
structure GoneBack (s : Synchronizer) (hooks : ScanHooks τ) (lower refetch : Number) (n t : Int)
    (st st' : SyncState τ) : Prop where
  found : ∃ b ∈ st.cache.held, b.height = .int n
  height : lower = .int n
  target : s.forkTarget lower = .int t
  refetch : refetch = .int t + 1
  natural : 0 ≤ n
  safe : n.natAbs < Number.exactLimit
  below : t < n
  exactly : ∀ d : Int, s.policy.reorgRewindDepth = .int d → d ≤ Number.exactLimit → t = n - d
  cache : Cache.CutAt (.int t) st.cache st'.cache
  wallet : ∃ st1 report,
    Obstacle s hooks (working st) (.brokenChain (.parentMismatch lower)) st1.wallet ∧
    s.checkAndScan hooks (working st) = .error (.brokenChain (.parentMismatch lower)) st1 ∧
    WalletStore.rewind (.int t) s.policy.pruningDepth s.policy.stableCheckpoint.value? st1.wallet =
      .ok report st'.wallet

section

variable {depth : Int} (hdepth : s.policy.reorgRewindDepth = .int depth) (hone : 1 ≤ depth)
  (hquiet : s.reader.Quiet) (honlooker : Onlooker hooks) {lower refetch : Number}
  {report : RewindReport} (h : s.sync hooks st = .ok (.reorganized lower refetch report) st')
include hdepth hone hquiet honlooker h

theorem goneBack_of_sync : ∃ n t, s.GoneBack hooks lower refetch n t st st' := by
  obtain ⟨st1, hattempt, rfl, hrewind, htruncate⟩ := of_sync_eq_reorganized h
  obtain ⟨hobstacle, hstored⟩ := obstacle_of_checkAndScan hquiet honlooker hattempt rfl
  obtain ⟨b, hb, hheight⟩ := held_of_obstacle hobstacle
  obtain ⟨n, hreading⟩ := Cache.mem_held.1 hb
  obtain ⟨h0, hn⟩ := Cache.word_of_reading hreading
  obtain ⟨hbn, hsafe⟩ := Cache.height_of_reading hreading
  obtain rfl : lower = .int n := hheight.symm.trans hbn
  have ht := forkTarget_of_integer hdepth (WalletStore.isInteger_of_rewind_ok hrewind)
  have hbelow : Number.rounded (n - depth) < n :=
    (Number.rounded_lt_iff (Nat.lt_of_succ_lt hsafe)).2 (by omega)
  rw [ht] at hrewind htruncate
  refine ⟨n, _, ⟨b, hb, hbn⟩, rfl, ht, by rw [ht], h0, Nat.lt_of_succ_lt hsafe, hbelow, ?_,
    (Cache.cutAt_of_truncate htruncate).congr hstored, st1, report, hobstacle, hattempt, hrewind⟩
  intro d hd hle
  cases hdepth.symm.trans hd
  have hsmall := natAbs_lt_of_nonneg h0 hn
  exact Number.rounded_of_le (by unfold Number.exactLimit at *; omega)

/-- What is reported as a fork was found, and gone back from. -/
theorem recovered_of_sync (hsettled : Settled st.wallet) : s.Recovered lower refetch st st' := by
  obtain ⟨n, t, hback⟩ := goneBack_of_sync hdepth hone hquiet honlooker h
  obtain ⟨st1, report, hobstacle, hattempt, hrewind⟩ := hback.wallet
  have hrest := keeps_atRest_checkAndScan (s := s) honlooker (working st) hsettled.rest
  rw [Action.after_of_error hattempt] at hrest
  have hsettled1 := settled_of_obstacle hobstacle hsettled hrest
  have hcontent := WalletStore.content_of_rewind_ok hsettled1 hrewind
  have hsafe := hback.safe
  have hbelow := hback.below
  obtain ⟨b, hb, hbn⟩ := hback.found
  have hrefetch := hback.refetch
  rw [Number.int_add_one] at hrefetch
  constructor
  case found => exact ⟨b, hb, hbn.trans hback.height.symm⟩
  case bound => rw [hback.refetch, ← hback.target]; rfl
  case exactly =>
    intro n' d hn' hd hle
    cases hback.height.symm.trans hn'
    have h0 := hback.natural
    rw [hrefetch, hback.exactly d hd hle]
    cases hdepth.symm.trans hd
    exact Number.ofInt_of_le (by unfold Number.exactLimit at *; omega)
  case le =>
    rw [hrefetch, hback.height, Number.ofInt_le_int hsafe]
    omega
  case held =>
    rw [hback.cache.held]
    refine List.filter_congr fun c hc => ?_
    obtain ⟨k, hk⟩ := Cache.mem_held.1 hc
    obtain ⟨hck, hksafe⟩ := Cache.height_of_reading hk
    rw [← decide_not, decide_eq_decide, hck, hrefetch, Number.int_lt_int,
      Number.int_lt_ofInt (Nat.lt_of_succ_lt hksafe)]
    omega
  case lowered => exact hback.cache.maxHeight_lt hb hbn hbelow
  case ends =>
    rw [hcontent, hback.refetch]
    exact hsettled1.coherent.endsBelow_cut t
  case content =>
    intro hwallet
    rw [hcontent, eq_of_obstacle hobstacle hwallet, hrefetch]
    refine hsettled.coherent.cut_congr fun k hk => ?_
    rw [Number.ofInt_sub_one_lt_int (hsettled.coherent.lt_exactLimit hk), Number.int_lt_int]
    omega

/-- A fork that is reported costs the cache the block at which it was found. -/
theorem length_held_lt_of_sync : st'.cache.held.length < st.cache.held.length := by
  obtain ⟨n, t, hback⟩ := goneBack_of_sync hdepth hone hquiet honlooker h
  obtain ⟨b, hb, hbn⟩ := hback.found
  rw [hback.cache.held]
  refine List.length_filter_lt_length_iff_exists.2 ⟨b, hb, ?_⟩
  simp [hbn, Number.int_lt_int, hback.below]

end

/-- A rewind is refused where the attempt fails with a fork and the recovery is refused. -/
theorem of_sync_eq_refused (hquiet : s.reader.Quiet) (honlooker : Onlooker hooks)
    {safe requested depth : Number}
    (h : s.sync hooks st = .error (.rewindRefused safe requested depth) st') :
    ∃ (height : Number) (st1 : SyncState τ),
      Obstacle s hooks (working st) (.brokenChain (.parentMismatch height)) st1.wallet ∧
      st1.cache.stored = st.cache.stored ∧
      WalletStore.rewind (s.forkTarget height) s.policy.pruningDepth
        s.policy.stableCheckpoint.value? st1.wallet =
          .error (.rewindRefused safe requested depth) st'.wallet ∧
      st'.cache = st1.cache := by
  cases hactive : st.active with
  | some other =>
      rw [sync, of_exclusive_busy hactive] at h
      cases h
  | none =>
      rw [sync, exclusive_of_idle hactive, Action.ensuring] at h
      split at h
      · cases h
      · rename_i st2 hrecovering
        cases h
        unfold recovering at hrecovering
        split at hrecovering
        · rename_i breach st1 hattempt
          obtain ⟨hobstacle, hstored⟩ := obstacle_of_checkAndScan hquiet honlooker hattempt rfl
          cases breach with
          | discontinuity expected found =>
              rcases Action.bind_eq_error.1 hrecovering with hwrite | ⟨_, st3, -, hreturn⟩
              · cases hwrite
              · cases hreturn
          | parentMismatch height =>
              obtain ⟨hrewind, hcache⟩ := of_recover_eq_error rfl hrecovering
              exact ⟨height, st1, hobstacle, hstored, hrewind, hcache⟩
        · -- neither the check nor the scan refuses a rewind
          obtain ⟨hobstacle, -⟩ := obstacle_of_checkAndScan hquiet honlooker hrecovering rfl
          cases hobstacle with
          | next report done b rest q hcheck hpending htake hnext =>
              rcases Scan.of_checkNext_error hnext rfl with ⟨-, hne⟩ | ⟨-, hne⟩
              · cases hne
              · cases hne

/-- A rewind that is refused has changed nothing, if there were blocks in the wallet. -/
theorem eq_of_sync_refused (hquiet : s.reader.Quiet) (honlooker : Onlooker hooks)
    (hwallet : st.wallet.content.tip? ≠ none) {safe requested depth : Number}
    (h : s.sync hooks st = .error (.rewindRefused safe requested depth) st') :
    st'.wallet = st.wallet ∧ st'.cache.stored = st.cache.stored := by
  obtain ⟨height, st1, hobstacle, hstored, hrewind, hcache⟩ := of_sync_eq_refused hquiet honlooker h
  have hfound := eq_of_obstacle hobstacle hwallet
  have hrefused : st'.wallet = st1.wallet := (WalletStore.of_rewind_error hrewind rfl).1
  exact ⟨hrefused.trans hfound, (congrArg Cache.stored hcache).trans hstored⟩

/-! ## How often a fork is found -/

/-- A call that puts no block into the cache, by a caller who does not either. -/
def Call.AddsNothing : Call τ → Prop
  | .insertBlock _ => False
  | .insertBlocks _ => False
  | .truncateCache _ => True
  | .scan _ caller => Onlooker caller.hooks
  | .rewind _ => True
  | .sync caller => Onlooker caller.hooks
  | .validate => True

/-- Whether a call is a synchronization that reports a fork. -/
def reorganizes (s : Synchronizer) (st : SyncState τ) : Call τ → Bool
  | .sync caller =>
      match (s.sync caller.hooks).value? st with
      | some (.reorganized _ _ _) => true
      | _ => false
  | _ => false

/-- How many of several calls, one after another, report a fork. -/
def reorganizations (s : Synchronizer) : SyncState τ → List (Call τ) → Nat
  | _, [] => 0
  | st, call :: calls =>
      (if s.reorganizes st call then 1 else 0) +
        s.reorganizations ((s.perform call).after st) calls

/-- No block is held but some of these. -/
def HoldsAmong (bs : List Block) (st : SyncState τ) : Prop := st.cache.held.Sublist bs

section

variable {bs : List Block}

theorem keeps_held_of_stored {α : Type} {act : Action (SyncState τ) α}
    (h : ∀ st, (act.after st).cache.stored = st.cache.stored) :
    Action.Keeps (HoldsAmong bs) act := by
  intro st hst
  unfold HoldsAmong
  rw [Cache.held_congr (h st)]
  exact hst

theorem keeps_held_validate : Action.Keeps (HoldsAmong bs : SyncState τ → Prop) validate := by
  refine keeps_held_of_stored fun st => ?_
  rw [Action.after, Agreement.validate_eq_verdict]
  cases verdict st.wallet.content st.cache
  · exact (Cache.stored_closeCursor _).trans (Cache.stored_openCursor _)
  · exact (Cache.stored_closeCursor _).trans (Cache.stored_openCursor _)

theorem keeps_held_truncate (height : Number) :
    Action.Keeps (HoldsAmong bs : SyncState τ → Prop)
      (SyncState.onCache (Cache.truncate height)) := by
  intro st hst
  have hafter : ((SyncState.onCache (Cache.truncate height)).after st).cache =
      (Cache.truncate height).after st.cache := by
    unfold Action.after SyncState.onCache
    cases Cache.truncate height st.cache <;> rfl
  unfold HoldsAmong
  rw [hafter]
  exact (Cache.held_after_truncate height st.cache).trans hst

theorem keeps_held_scanNow (limit : Option Number) {hooks : ScanHooks τ}
    (honlooker : Onlooker hooks) : Action.Keeps (HoldsAmong bs) (s.scanNow limit hooks) :=
  (keeps_held_of_stored (Scan.stored_after_run _ honlooker.toAside)).bind fun _ =>
    (keeps_held_of_stored fun _ => rfl).bind fun _ => Action.Keeps.pure _

theorem keeps_held_rewindNow (target : Number) :
    Action.Keeps (HoldsAmong bs : SyncState τ → Prop) (s.rewindNow target) := by
  refine (keeps_held_of_stored fun st => ?_).bind fun report => ?_
  · rw [SyncState.onWallet, Action.after_within]
  · cases hrewound : report.rewound
    · exact Action.Keeps.pure _
    · exact (keeps_held_of_stored fun _ => rfl).bind fun _ => Action.Keeps.pure _

theorem keeps_held_recover (breach : Breach) :
    Action.Keeps (HoldsAmong bs : SyncState τ → Prop) (s.recover breach) := by
  cases breach with
  | discontinuity expected found =>
      exact (keeps_held_of_stored fun _ => rfl).bind fun _ => Action.Keeps.pure _
  | parentMismatch height =>
      exact (keeps_held_of_stored fun _ => rfl).bind fun _ => (keeps_held_rewindNow _).bind fun _ =>
        (keeps_held_truncate _).bind fun _ => Action.Keeps.pure _

/-- A call that adds no blocks leaves some of those that were there. -/
theorem keeps_held_perform {call : Call τ} (hcall : call.AddsNothing) :
    Action.Keeps (HoldsAmong bs) (s.perform call) := by
  cases call with
  | insertBlock b => exact hcall.elim
  | insertBlocks bs => exact hcall.elim
  | truncateCache height => exact keeps_held_truncate height
  | scan limit caller =>
      exact (keeps_exclusive (fun _ _ h => h) (keeps_held_scanNow _ hcall)).bind fun _ =>
        Action.Keeps.pure _
  | rewind height =>
      exact (keeps_exclusive (fun _ _ h => h) (keeps_held_rewindNow _)).bind fun _ =>
        Action.Keeps.pure _
  | sync caller =>
      have hattempt : Action.Keeps (HoldsAmong bs) (s.checkAndScan caller.hooks) :=
        keeps_held_validate.bind fun _ => (keeps_held_scanNow _ hcall).bind fun _ =>
          Action.Keeps.pure _
      exact (keeps_exclusive (fun _ _ h => h) (keeps_recovering hattempt keeps_held_recover)).bind
        fun _ => Action.Keeps.pure _
  | validate => exact keeps_held_validate.bind fun _ => Action.Keeps.pure _

theorem length_held_of_reorganizes {depth : Int} (hdepth : s.policy.reorgRewindDepth = .int depth)
    (hone : 1 ≤ depth) (hquiet : s.reader.Quiet) {call : Call τ} (hcall : call.AddsNothing)
    (h : s.reorganizes st call = true) :
    ((s.perform call).after st).cache.held.length < st.cache.held.length := by
  cases call with
  | sync caller =>
      unfold reorganizes at h
      dsimp only at h
      split at h
      · rename_i lower refetch report hvalue
        obtain ⟨st', hsync⟩ := Action.value?_eq_some.1 hvalue
        have hafter : (s.perform (.sync caller)).after st = st' :=
          Action.after_of_ok (Action.bind_eq_ok.2 ⟨_, st', hsync, rfl⟩)
        rw [hafter]
        exact length_held_lt_of_sync hdepth hone hquiet hcall hsync
      · cases h
  | _ => cases h

/-- **Without new blocks there are at most as many forks reported as the cache holds blocks.** -/
theorem reorganizations_le {depth : Int} (hdepth : s.policy.reorgRewindDepth = .int depth)
    (hone : 1 ≤ depth) (hquiet : s.reader.Quiet) {calls : List (Call τ)}
    (hcalls : ∀ call ∈ calls, call.AddsNothing) :
    s.reorganizations st calls ≤ st.cache.held.length := by
  induction calls generalizing st with
  | nil => exact Nat.zero_le _
  | cons call calls ih =>
      have hcall := hcalls call List.mem_cons_self
      let next := (s.perform call).after st
      have hrest : s.reorganizations next calls ≤ next.cache.held.length :=
        ih fun c hc => hcalls c (List.mem_cons_of_mem _ hc)
      have hkept : next.cache.held.length ≤ st.cache.held.length :=
        (keeps_held_perform hcall st (List.Sublist.refl _)).length_le
      show (if s.reorganizes st call then 1 else 0) + s.reorganizations next calls ≤ _
      cases hfork : s.reorganizes st call with
      | false =>
          simp only [Bool.false_eq_true, if_false]
          omega
      | true =>
          have hlost : next.cache.held.length < st.cache.held.length :=
            length_held_of_reorganizes hdepth hone hquiet hcall hfork
          simp only [if_true]
          omega

end

/-! ## Forks and refusals -/

/-- **A fork that is reported was gone back from, and a refusal has changed nothing.** By every
accepted policy, on every cache and every settled wallet, a report says what is left (`Recovered`);
a wallet with blocks and the cache are as they were if the rewind is refused; and calls that add no
blocks report at most as many forks as the cache holds blocks. -/
theorem recovered_of_accepted {request : PolicyRequest} {reader : NoteReader}
    (haccepted : ofRequest request reader = .ok s) (hquiet : s.reader.Quiet) :
    (∀ (hooks : ScanHooks τ) (st st' : SyncState τ) (lower refetch : Number)
        (report : RewindReport), Onlooker hooks → Settled st.wallet →
      s.sync hooks st = .ok (.reorganized lower refetch report) st' →
      s.Recovered lower refetch st st') ∧
    (∀ (hooks : ScanHooks τ) (st st' : SyncState τ) (safe requested depth : Number),
      Onlooker hooks → st.wallet.content.tip? ≠ none →
      s.sync hooks st = .error (.rewindRefused safe requested depth) st' →
      st'.wallet = st.wallet ∧ st'.cache.stored = st.cache.stored) ∧
    ∀ (st : SyncState τ) (calls : List (Call τ)), (∀ call ∈ calls, call.AddsNothing) →
      s.reorganizations st calls ≤ st.cache.held.length := by
  obtain ⟨depth, hdepth, hone⟩ := rewindDepth_of_ofRequest haccepted
  refine ⟨fun hooks st st' lower refetch report honlooker hsettled h => ?_,
    fun hooks st st' safe requested depth honlooker hwallet h => ?_, fun st calls hcalls => ?_⟩
  · exact recovered_of_sync hdepth hone hquiet honlooker h hsettled
  · exact eq_of_sync_refused hquiet honlooker hwallet h
  · exact reorganizations_le hdepth hone hquiet hcalls

/-- A wallet that is scanned from one without blocks is settled, whatever was called. -/
theorem settled_session (accounts : Keyed Bytes) (hrest : st.wallet.AtRest)
    (hempty : st.wallet.content = Wallet.unscanned accounts) (calls : List (Call τ)) :
    Settled (s.session st calls).wallet := by
  obtain ⟨hrest', chain, p, hword, hchain⟩ :=
    onChain_session (s := s) (onChain_unscanned hrest hempty) calls
  have hcoherent : (Wallet.unscanned accounts).Coherent :=
    { Wallet.coherent_empty with owners := fun n hn => by cases hn }
  exact ⟨hrest', hcoherent.takeAll hword hchain⟩

/-! ### Two forks -/

/-- From height 50 on, two blocks back after a fork, and never deeper than to height 50. -/
def backToFifty : PolicyRequest :=
  { activationHeight := .given 50, pruningDepth := .given 0, stableCheckpoint := .given 50,
    reorgRewindDepth := .given 2 }

def goingBack : Synchronizer :=
  ⟨⟨.mainnet, .given 50, 0, .given 50, 2, none, .given false⟩, Note.reader⟩

def nobody : Caller Unit := ⟨ScanHooks.none, Scan.aside_none⟩

/-- Blocks are scanned, and then replaced by others. -/
def replaced (old new : List Block) : SyncState Unit :=
  goingBack.session (SyncState.idle (Cache.inMemory Keyed.empty) (Wallet.unscanned Keyed.empty))
    [.insertBlocks old, .sync nobody, .insertBlocks new]

/-- The wallet ends on the first of the blocks that were replaced. -/
def shallow : SyncState Unit :=
  replaced [linkedBlock 50 1 0 [], linkedBlock 51 2 1 []]
    [linkedBlock 51 3 1 [], linkedBlock 52 4 3 []]

/-- The wallet ends one block higher. -/
def deep : SyncState Unit :=
  replaced [linkedBlock 50 1 0 [], linkedBlock 51 2 1 [], linkedBlock 52 4 2 []]
    [linkedBlock 52 5 2 [], linkedBlock 53 6 5 []]

theorem sync_shallow : ∃ report st',
    goingBack.sync ScanHooks.none shallow = .ok (.reorganized 52 51 report) st' := by
  have hvalue : (goingBack.sync ScanHooks.none).value? shallow =
      some (.reorganized 52 51 ⟨some 51, some 50, 0, 0, true⟩) := by decide +kernel
  exact ⟨_, Action.value?_eq_some.1 hvalue⟩

theorem sync_deep : deep.wallet.content.tip? ≠ none ∧ ∃ st',
    goingBack.sync ScanHooks.none deep = .error (.rewindRefused 50 51 0) st' := by
  have hfailure : (goingBack.sync ScanHooks.none).failure? deep =
      some (.rewindRefused 50 51 0) := by decide +kernel
  exact ⟨by decide +kernel, Action.failure?_eq_some.1 hfailure⟩

theorem recovered_of_accepted_forked :
    ofRequest backToFifty Note.reader = .ok goingBack ∧ goingBack.reader.Quiet ∧
    Onlooker (ScanHooks.none : ScanHooks Unit) ∧
    (Settled shallow.wallet ∧ ∃ report st',
      goingBack.sync ScanHooks.none shallow = .ok (.reorganized 52 51 report) st' ∧
      goingBack.Recovered 52 51 shallow st') ∧
    (deep.wallet.content.tip? ≠ none ∧ ∃ st',
      goingBack.sync ScanHooks.none deep = .error (.rewindRefused 50 51 0) st' ∧
      st'.wallet = deep.wallet ∧ st'.cache.stored = deep.cache.stored) ∧
    goingBack.reorganizations shallow [.sync nobody, .sync nobody] ≤ shallow.cache.held.length := by
  have haccepted : ofRequest backToFifty Note.reader = .ok goingBack := rfl
  have hquiet : goingBack.reader.Quiet := Note.quiet_reader
  have hsettled : Settled shallow.wallet := by
    refine settled_session Keyed.empty ?_ ?_ _
    · rfl
    · rfl
  obtain ⟨report, shallow', hshallow⟩ := sync_shallow
  obtain ⟨htip, deep', hdeep⟩ := sync_deep
  obtain ⟨hrecovered, hrefused, hfew⟩ := recovered_of_accepted (τ := Unit) haccepted hquiet
  refine ⟨haccepted, hquiet, Scan.onlooker_none, ⟨hsettled, report, shallow', hshallow, ?_⟩,
    ⟨htip, deep', hdeep, ?_⟩, ?_⟩
  · exact hrecovered _ _ _ _ _ _ Scan.onlooker_none hsettled hshallow
  · exact hrefused _ _ _ _ _ _ Scan.onlooker_none htip hdeep
  · refine hfew _ _ fun call hcall => ?_
    rcases List.mem_cons.1 hcall with rfl | hcall
    · exact Scan.onlooker_none
    · cases List.mem_singleton.1 hcall
      exact Scan.onlooker_none

end Synchronizer
end LightSync
