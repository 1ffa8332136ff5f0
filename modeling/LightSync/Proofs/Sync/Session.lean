import LightSync.Proofs.Scan.Steps
import LightSync.Sync.Synchronizer

/-!
# Sessions

A session is any sequence of calls: blocks are put into the cache, replaced and cut off, and the
wallet is scanned, rewound, synchronized and validated. Calls may fail, and a scan may stop midway.
After every session the wallet is what scanning one chain of blocks makes of a wallet without
blocks. The chain is carried along as a ghost (`OnChain`): a scan appends to it, a rewind leaves a
prefix of it, and nothing else touches the wallet.
-/

set_option autoImplicit false

namespace LightSync

open Wallet (unscanned oneAccount)
open Scan (takeAll startOf ChainFrom Aside)

/-! ## Exclusive operations -/

namespace Synchronizer

variable {τ α : Type} {st : SyncState τ} {operation : String} {act : Action (SyncState τ) α}

theorem of_exclusive_busy {other : String} (h : st.active = some other) :
    exclusive operation act st = .error (.busy operation) st := by
  unfold exclusive
  rw [h]

theorem exclusive_of_idle (hidle : st.active = none) :
    exclusive operation act st = Action.ensuring act (fun st => { st with active := none })
      { st with active := some operation } := by
  unfold exclusive
  rw [hidle]

theorem of_exclusive_eq_ok {a : α} {st' : SyncState τ}
    (h : exclusive operation act st = .ok a st') (hidle : st.active = none) :
    ∃ st1, act { st with active := some operation } = .ok a st1 ∧
      st' = { st1 with active := none } := by
  rw [exclusive_of_idle hidle, Action.ensuring] at h
  split at h
  · rename_i st1 hact
    cases h
    exact ⟨st1, hact, rfl⟩
  · cases h

theorem after_exclusive_of_idle (hidle : st.active = none) :
    (exclusive operation act).after st =
      { act.after { st with active := some operation } with active := none } := by
  rw [Action.after_eq_stateOf, exclusive_of_idle hidle, ← Action.after_eq_stateOf,
    Action.after_ensuring]

end Synchronizer

/-! ## What leaves the wallet alone -/

section

variable {τ α β : Type} {Q : WalletStore → Prop}

/-- What is said of the wallet survives an action that leaves it alone. -/
theorem Action.Keeps.of_wallet {act : Action (SyncState τ) α}
    (h : ∀ st, (act.after st).wallet = st.wallet) :
    Action.Keeps (fun st : SyncState τ => Q st.wallet) act := by
  intro st hst
  show Q (act.after st).wallet
  rw [h]
  exact hst

theorem keeps_write (scope : Console.Scope) (level : Console.Level) (message : String)
    (details : Option Detail) :
    Action.Keeps (fun st : SyncState τ => Q st.wallet)
      (SyncState.write scope level message details) :=
  .of_wallet fun _ => rfl

theorem keeps_onCache (act : Action Cache α) :
    Action.Keeps (fun st : SyncState τ => Q st.wallet) (SyncState.onCache act) := by
  refine .of_wallet fun st => ?_
  unfold Action.after SyncState.onCache
  cases act st.cache <;> rfl

theorem keeps_onWallet {act : Action WalletStore α} (h : Action.Keeps Q act) :
    Action.Keeps (fun st : SyncState τ => Q st.wallet) (SyncState.onWallet act) :=
  .within (fun _ _ => rfl) h

/-- An exclusive operation keeps what does not tell which operation is at work. -/
theorem keeps_exclusive {P : SyncState τ → Prop} (hactive : ∀ st active, P st → P { st with active })
    {operation : String} {act : Action (SyncState τ) α} (h : Action.Keeps P act) :
    Action.Keeps P (Synchronizer.exclusive operation act) := by
  intro st hst
  cases ha : st.active with
  | some other =>
      rw [Action.after_of_error (Synchronizer.of_exclusive_busy ha)]
      exact hst
  | none =>
      rw [Synchronizer.after_exclusive_of_idle ha]
      exact hactive _ _ (h _ (hactive _ _ hst))

theorem keeps_validate :
    Action.Keeps (fun st : SyncState τ => Q st.wallet) Synchronizer.validate := by
  intro st hst
  show Q (Action.after (Synchronizer.checkLinks st.wallet.content.chainTip?) st).wallet
  refine SyncState.after_traverse (P := fun st => Q st.wallet) (fun c => ?_) fun _ _ h => h
  exact Action.Keeps.ofExcept (P := fun st : SyncState τ => Q st.wallet) _ _ hst

end

namespace Synchronizer

/-! ## The ghost chain -/

variable {τ : Type}

/-- The wallet is what scanning some chain makes of a wallet without blocks. -/
def OnChain (s : Synchronizer) (accounts : Keyed Bytes) (store : WalletStore) : Prop :=
  store.AtRest ∧ ∃ chain p, (∀ b ∈ chain, b.HasWordHeight) ∧
    takeAll s.reader (unscanned accounts).accountKeys
      (startOf s.policy.activation (unscanned accounts)) (unscanned accounts) chain =
      .ok (p, store.content)

variable {s : Synchronizer} {accounts : Keyed Bytes}

/-- Truncating leaves the blocks of the chain up to the height. -/
theorem keeps_truncate (height : Number) :
    Action.Keeps (s.OnChain accounts) (WalletStore.truncate height) := by
  rintro store ⟨hrest, chain, p, hword, hchain⟩
  obtain ⟨store', hs, hcut, hr, -⟩ := WalletStore.truncate_of_atRest height hrest
  obtain ⟨q, hq⟩ := Scan.takeAll_upTo hword hchain height
  rw [Action.after_of_ok hs]
  rw [← hcut] at hq
  exact ⟨hr, _, q, fun b hb => hword b (List.mem_filter.1 hb).1, hq⟩

/-- A scan goes on with the chain. -/
theorem keeps_scan {setup : ScanSetup τ} (hreader : setup.reader = s.reader)
    (hsetup : setup.activation = s.policy.activation) (haside : Aside setup.hooks) :
    Action.Keeps (fun st => s.OnChain accounts st.wallet) (Scan.run setup) := by
  rintro st ⟨hrest, chain, p, hword, hchain⟩
  have hreached := Scan.reached_of_takeAll hword hchain
  obtain ⟨hr, before, q, hbefore, hq⟩ := Scan.content_after_run haside hrest
  rw [hreached.accountKeys, hreader, hsetup] at hq
  -- the scan begins where the chain ends, up to its report
  obtain ⟨q', hq', -⟩ := Scan.takeAll_congr hreached.point.symm hq
  -- so the blocks that it took follow those of the chain
  refine ⟨hr, chain ++ before, q', fun b hb => ?_, ?_⟩
  · rcases List.mem_append.1 hb with hb | hb
    · exact hword b hb
    · exact Cache.hasWordHeight_of_mem_blocks (hbefore.subset hb)
  · rw [Scan.takeAll_append, hchain]
    exact hq'

/-! ## The operations -/

theorem keeps_scanNow (limit : Option Number) {hooks : ScanHooks τ} (haside : Aside hooks) :
    Action.Keeps (fun st => s.OnChain accounts st.wallet) (s.scanNow limit hooks) :=
  (keeps_scan rfl rfl haside).bind fun _ =>
    (keeps_write _ _ _ _).bind fun _ => Action.Keeps.pure _

theorem keeps_rewindNow (target : Number) :
    Action.Keeps (fun st : SyncState τ => s.OnChain accounts st.wallet) (s.rewindNow target) := by
  refine (keeps_onWallet (WalletStore.keeps_rewind keeps_truncate _ _ _)).bind fun report => ?_
  cases hr : report.rewound
  · exact Action.Keeps.pure _
  · exact (keeps_write _ _ _ _).bind fun _ => Action.Keeps.pure _

theorem keeps_recover (breach : Breach) :
    Action.Keeps (fun st : SyncState τ => s.OnChain accounts st.wallet) (s.recover breach) := by
  cases breach with
  | discontinuity expected found =>
      exact (keeps_write _ _ _ _).bind fun _ => Action.Keeps.pure _
  | parentMismatch height =>
      exact (keeps_write _ _ _ _).bind fun _ => (keeps_rewindNow _).bind fun _ =>
        (keeps_onCache _).bind fun _ => Action.Keeps.pure _

/-- A recovery keeps what the action and every way to recover keep. -/
theorem keeps_recovering {P : SyncState τ → Prop} {act : Action (SyncState τ) SyncOutcome}
    (hact : Action.Keeps P act) (hrecover : ∀ breach, Action.Keeps P (s.recover breach)) :
    Action.Keeps P (s.recovering act) := by
  intro st hst
  have h := hact st hst
  cases hrun : act st with
  | ok a st1 =>
      rw [Action.after_of_ok hrun] at h
      have : (s.recovering act).after st = st1 := by
        rw [Action.after, recovering, hrun]
      rw [this]
      exact h
  | error e st1 =>
      rw [Action.after_of_error hrun] at h
      by_cases hbroken : ∃ breach, e = .brokenChain breach
      · -- only a broken chain is recovered from
        obtain ⟨breach, rfl⟩ := hbroken
        have : (s.recovering act).after st = (s.recover breach).after st1 := by
          rw [Action.after, recovering, hrun]
          rfl
        rw [this]
        exact hrecover breach st1 h
      · have : (s.recovering act).after st = st1 := by
          refine Action.after_of_error (e := e) ?_
          unfold recovering
          rw [hrun]
          cases e with
          | brokenChain breach => exact absurd ⟨breach, rfl⟩ hbroken
          | _ => rfl
        rw [this]
        exact h

theorem keeps_sync {hooks : ScanHooks τ} (haside : Aside hooks) :
    Action.Keeps (fun st => s.OnChain accounts st.wallet) (s.sync hooks) :=
  keeps_exclusive (fun _ _ h => h) <| keeps_recovering
    (keeps_validate.bind fun _ => (keeps_scanNow _ haside).bind fun _ => Action.Keeps.pure _)
    keeps_recover

/-! ## Sessions -/

/-- Somebody who is told about a scan and stands aside. -/
structure Caller (τ : Type) where
  hooks : ScanHooks τ
  aside : Aside hooks

/-- A call to the cache or to the synchronizer. -/
inductive Call (τ : Type) where
  | insertBlock (b : Block)
  | insertBlocks (bs : List Block)
  | truncateCache (height : Number)
  | scan (limit : Option Number) (caller : Caller τ)
  | rewind (height : Number)
  | sync (caller : Caller τ)
  | validate

/-- What a call does; what it returns does not matter to a session. -/
def perform (s : Synchronizer) : Call τ → Action (SyncState τ) Unit
  | .insertBlock b => SyncState.onCache (Cache.insertBlock b)
  | .insertBlocks bs => SyncState.onCache (Cache.insertBlocks bs)
  | .truncateCache height => SyncState.onCache (Cache.truncate height)
  | .scan limit caller => do let _ ← s.scan limit caller.hooks
  | .rewind height => do let _ ← s.rewind height
  | .sync caller => do let _ ← s.sync caller.hooks
  | .validate => do let _ ← Synchronizer.validate

/-- The state after calls one after another, whether they fail or not. -/
def session (s : Synchronizer) (st : SyncState τ) (calls : List (Call τ)) : SyncState τ :=
  calls.foldl (fun st call => (s.perform call).after st) st

theorem keeps_perform (call : Call τ) :
    Action.Keeps (fun st => s.OnChain accounts st.wallet) (s.perform call) := by
  cases call with
  | insertBlock b => exact keeps_onCache _
  | insertBlocks bs => exact keeps_onCache _
  | truncateCache height => exact keeps_onCache _
  | scan limit caller =>
      exact (keeps_exclusive (fun _ _ h => h) (keeps_scanNow _ caller.aside)).bind fun _ =>
        Action.Keeps.pure _
  | rewind height =>
      exact (keeps_exclusive (fun _ _ h => h) (keeps_rewindNow height)).bind fun _ =>
        Action.Keeps.pure _
  | sync caller => exact (keeps_sync caller.aside).bind fun _ => Action.Keeps.pure _
  | validate => exact keeps_validate.bind fun _ => Action.Keeps.pure _

theorem onChain_session {st : SyncState τ} (h : s.OnChain accounts st.wallet) (calls : List (Call τ)) :
    s.OnChain accounts (s.session st calls).wallet := by
  induction calls generalizing st with
  | nil => exact h
  | cons call calls ih => exact ih (keeps_perform call st h)

/-- A wallet without blocks is on the chain without blocks. -/
theorem onChain_unscanned {store : WalletStore} (hrest : store.AtRest)
    (hempty : store.content = unscanned accounts) : s.OnChain accounts store := by
  refine ⟨hrest, [], startOf s.policy.activation (unscanned accounts),
    fun b hb => (by cases hb), ?_⟩
  rw [hempty]
  rfl

/-- **A wallet is always the scan of one chain.** After any calls on a wallet that began without
blocks, there are blocks of consecutive heights from the activation height on, each naming the
one before it, and the wallet is what scanning them in order makes of one without blocks. -/
theorem wallet_eq_scan_of_chain (s : Synchronizer) (first : Int)
    (hactivation : s.policy.activation.toInt? = some first) (accounts : Keyed Bytes)
    (st : SyncState τ) (hrest : st.wallet.AtRest) (hempty : st.wallet.content = unscanned accounts)
    (calls : List (Call τ)) :
    ∃ chain, ChainFrom first chain ∧
      Scan.onto s.reader s.policy.activation accounts chain =
        .ok (s.session st calls).wallet.content := by
  obtain ⟨-, chain, p, hword, hchain⟩ := onChain_session (onChain_unscanned hrest hempty) calls
  exact ⟨chain, Scan.chainFrom_of_takeAll hactivation hword hchain,
    Scan.onto_of_takeAll hchain⟩

/-! ### A fork -/

/-- A synchronizer from height 50 on that goes two blocks back after a fork. -/
def fromFifty (reader : NoteReader) : Synchronizer :=
  ⟨⟨.mainnet, .given 50, 100, .absent, 2, none, .absent⟩, reader⟩

/-- A block with a note, and one that spends it. -/
def scannedFirst : List Block :=
  [linkedBlock 50 1 0 [⟨0, [1], 0, [], [⟨[7], [2], [3]⟩], []⟩],
    linkedBlock 51 2 1 [⟨0, [2], 0, [[9]], [], []⟩]]

/-- The second of them is replaced by a block without transactions, and the note is spent in the
next one. -/
def scannedInstead : List Block :=
  [linkedBlock 51 3 1 [], linkedBlock 52 4 3 [⟨0, [3], 0, [[9]], [], []⟩]]

/-- Two blocks are scanned; then the second is replaced by one with a successor. The first call to
synchronize after that finds the fork and goes back, the next ones take the blocks instead. -/
def forkCalls : List (Call Unit) :=
  let nobody : Caller Unit := ⟨ScanHooks.none, Scan.aside_none⟩
  [.insertBlocks scannedFirst, .sync nobody, .insertBlocks scannedInstead, .validate, .sync nobody,
    .insertBlocks scannedInstead, .scan (some 1) nobody, .sync nobody]

theorem wallet_eq_scan_of_chain_forked :
    let s := fromFifty (.ofList [⟨[7], ⟨0, 5, none, [9]⟩⟩])
    let st := SyncState.idle (Cache.inMemory Keyed.empty) (unscanned oneAccount)
    let spends := fun calls => (s.session st calls).wallet.content.notes.map fun n =>
      (n.height, n.spent.map (·.height))
    s.policy.activation.toInt? = some 50 ∧ st.wallet.AtRest ∧
    st.wallet.content = unscanned oneAccount ∧
    spends (forkCalls.take 2) = [(50, some 51)] ∧ spends (forkCalls.take 5) = [(50, none)] ∧
    spends forkCalls = [(50, some 52)] ∧
    (s.session st forkCalls).wallet.content.checkpoints.keys = [50, 51, 52] ∧
    Scan.onto s.reader s.policy.activation oneAccount (scannedFirst.take 1 ++ scannedInstead) =
      .ok (s.session st forkCalls).wallet.content ∧
    ∃ chain, ChainFrom 50 chain ∧
      Scan.onto s.reader s.policy.activation oneAccount chain =
        .ok (s.session st forkCalls).wallet.content := by
  intro s st spends
  exact ⟨rfl, rfl, rfl, by decide +kernel, by decide +kernel, by decide +kernel,
    by decide +kernel, by decide +kernel,
    wallet_eq_scan_of_chain s 50 rfl oneAccount st rfl rfl forkCalls⟩

end Synchronizer

end LightSync
