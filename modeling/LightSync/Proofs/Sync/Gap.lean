import LightSync.Proofs.Scan.Breach
import LightSync.Proofs.Sync.Round

/-!
# What a synchronization stops at

A synchronization that cannot go on has found one of two things (`Obstacle`): a block that names
another parent than the one below it, when it checked the cache, or a block that may not follow,
when it scanned. The check leaves the wallet alone, but a scan has recorded the blocks up to the one
that may not follow. So a gap that is reported leaves the cache as it was, and the wallet with the
blocks below the gap (`blocks_of_gap`): nothing was changed only if the gap is right above the tip.
-/

set_option autoImplicit false

namespace LightSync

open Agreement (verdict validate_eq_verdict verdict_of_validate_ok)
open Scan (Point Onlooker takeAll startOf pending checkNext)
open Wallet (unscanned)

/-! ## Taking blocks raises the tip -/

/-- Taking blocks leads to a tip above the one before. -/
theorem Scan.tip_lt_of_takeAll {reader : NoteReader} {keys : List AccountKey} {p q : Point}
    {w w' : Wallet} {bs : List Block} (hword : ∀ b ∈ bs, b.HasWordHeight) (htip : AtTip p w)
    (h : takeAll reader keys p w bs = .ok (q, w')) (hbs : bs ≠ []) :
    ∃ t', w'.tip? = some t' ∧ ∀ t, w.tip? = some t → t.height < t'.height := by
  induction bs generalizing p w with
  | nil => exact absurd rfl hbs
  | cons b bs ih =>
      obtain ⟨⟨p1, w1⟩, h1, h2⟩ := Except.bind_eq_ok.1 h
      have hb := hword b List.mem_cons_self
      obtain ⟨s, n, hcheck, -, -, hheight, -, hn, -, htip1⟩ := tip_of_take hb h1
      have hnext : ∀ t, w.tip? = some t → t.height < n := by
        intro t ht
        have hsame := (checkNext_eq_ok.1 hcheck).1
        rw [hheight, htip t ht] at hsame
        have := Number.eq_add_one_of_same hsame (Nat.lt_of_succ_lt (natAbs_lt_of_word hn))
        omega
      cases bs with
      | nil =>
          cases h2
          exact ⟨_, htip1, hnext⟩
      | cons c bs =>
          obtain ⟨t', ht', hlt⟩ := ih (fun x hx => hword x (List.mem_cons_of_mem _ hx))
            (atTip_of_take hb h1) h2 (List.cons_ne_nil c bs)
          refine ⟨t', ht', fun t ht => ?_⟩
          exact Int.lt_trans (hnext t ht) (hlt _ htip1)

namespace Synchronizer

variable {τ : Type} {s : Synchronizer} {hooks : ScanHooks τ} {st st' : SyncState τ} {e : Failure}

/-! ## Obstacles -/

/-- The blocks that a check of the cache goes through. -/
def ahead (st : SyncState τ) : List Block :=
  (st.cache.blocks (st.wallet.content.chainTip?.map (·.height)) none).items

/-- The scan that a synchronization makes. -/
def scanSetup (s : Synchronizer) (hooks : ScanHooks τ) : ScanSetup τ :=
  { reader := s.reader, activation := s.policy.activation, limit := s.policy.scanLimit,
    verbose := s.policy.verbose, hooks }

/-- What keeps a wallet from getting in step, and what became of the wallet until it was found. -/
inductive Obstacle (s : Synchronizer) (hooks : ScanHooks τ) (st : SyncState τ) :
    Failure → WalletStore → Prop where
  /-- The check comes to a block that names another parent. -/
  | link (b : Block) (hb : b ∈ ahead st)
      (hcheck : verdict st.wallet.content st.cache = .error (.brokenChain (.parentMismatch b.height))) :
      Obstacle s hooks st (.brokenChain (.parentMismatch b.height)) st.wallet
  /-- The check passes, and the scan takes blocks up to one that may not follow. -/
  | next {e : Failure} {store : WalletStore} (report : LinkReport) (done : List Block) (b : Block)
      (rest : List Block) (q : Point) (hcheck : verdict st.wallet.content st.cache = .ok report)
      (hpending : pending (s.scanSetup hooks) st = done ++ b :: rest)
      (htake : takeAll s.reader st.wallet.content.accountKeys
        (startOf s.policy.activation st.wallet.content) st.wallet.content done =
          .ok (q, store.content))
      (hnext : checkNext q b = .error e) : Obstacle s hooks st e store

/-- An attempt that fails with a failure about the chain has met an obstacle. -/
theorem obstacle_of_checkAndScan (hquiet : s.reader.Quiet) (honlooker : Onlooker hooks)
    (h : s.checkAndScan hooks st = .error e st') (he : e.concernsChain = true) :
    Obstacle s hooks st e st'.wallet ∧ st'.cache.stored = st.cache.stored := by
  have hchecked : st.cache.openCursor.closeCursor.stored = st.cache.stored := by simp
  rcases Action.bind_eq_error.1 h with hvalidate | ⟨report, st1, hvalidate, hscan⟩
  · rw [validate_eq_verdict] at hvalidate
    cases hverdict : verdict st.wallet.content st.cache with
    | ok report =>
        rw [hverdict] at hvalidate
        cases hvalidate
    | error f =>
        rw [hverdict] at hvalidate
        cases hvalidate
        obtain ⟨b, hb, rfl⟩ := Scan.of_follow_error (fun f hf => Cache.quiet_blocks hf) hverdict he
        exact ⟨.link b hb hverdict, hchecked⟩
  · have hverdict := verdict_of_validate_ok hvalidate
    rw [validate_eq_verdict, hverdict] at hvalidate
    cases hvalidate
    rcases Action.bind_eq_error.1 hscan with hnow | ⟨summary, st2, -, hreturn⟩
    · rcases Action.bind_eq_error.1 hnow with hrun | ⟨summary, st2, -, hwrite⟩
      · have hstored := Scan.stored_after_run (s.scanSetup hooks) honlooker.toAside
          { st with cache := st.cache.openCursor.closeCursor }
        have hrun : Scan.run (s.scanSetup hooks) _ = _ := hrun
        rw [Action.after_of_error hrun] at hstored
        obtain ⟨done, b, rest, q, hpending, htake, hnext⟩ := Scan.of_run_error hquiet honlooker hrun he
        refine ⟨.next _ done b rest q hverdict ?_ htake hnext, hstored.trans hchecked⟩
        rw [← hpending]
        exact congrArg Walk.items (Cache.blocks_congr hchecked.symm _ _)
      · cases hwrite
    · cases hreturn

/-! ## Gaps -/

/-- The state of a synchronization at work. -/
def working (st : SyncState τ) : SyncState τ := { st with active := some "sync" }

theorem of_sync_eq_ok {outcome : SyncOutcome} (h : s.sync hooks st = .ok outcome st') :
    ∃ st1, s.recovering (s.checkAndScan hooks) (working st) = .ok outcome st1 ∧
      st' = { st1 with active := none } := by
  cases hactive : st.active with
  | none => exact of_exclusive_eq_ok h hactive
  | some other =>
      rw [sync, of_exclusive_busy hactive] at h
      cases h

/-- A gap is reported where the attempt fails with it. -/
theorem of_sync_eq_gap {expected found : Number}
    (h : s.sync hooks st = .ok (.gap expected found) st') :
    ∃ st1, s.checkAndScan hooks (working st) =
        .error (.brokenChain (.discontinuity expected found)) st1 ∧
      st'.wallet = st1.wallet ∧ st'.cache = st1.cache := by
  obtain ⟨st2, hrecovering, rfl⟩ := of_sync_eq_ok h
  unfold recovering at hrecovering
  split at hrecovering
  · rename_i breach st1 hattempt
    cases breach with
    | discontinuity expected' found' =>
        cases hrecovering
        exact ⟨st1, hattempt, rfl, rfl⟩
    | parentMismatch height =>
        obtain ⟨_, st3, -, hrecover⟩ := Action.bind_eq_ok.1 hrecovering
        obtain ⟨report, st4, -, hrecover⟩ := Action.bind_eq_ok.1 hrecover
        obtain ⟨_, st5, -, hrecover⟩ := Action.bind_eq_ok.1 hrecover
        cases hrecover
  · -- an attempt that succeeds has scanned
    obtain ⟨report, st3, -, hscan⟩ := Action.bind_eq_ok.1 hrecovering
    obtain ⟨summary, st4, -, hscan⟩ := Action.bind_eq_ok.1 hscan
    cases hscan

/-- **A gap that is reported leaves the cache as it was and the wallet with the blocks below the
gap.** The blocks of the cache above the tip are taken up to the first whose height is not the next
one. So the wallet is as it was only if there are none below the gap. -/
theorem blocks_of_gap (hquiet : s.reader.Quiet) (honlooker : Onlooker hooks)
    {expected found : Number} (h : s.sync hooks st = .ok (.gap expected found) st') :
    st'.cache.stored = st.cache.stored ∧ ∃ done b rest q,
      pending (s.scanSetup hooks) st = done ++ b :: rest ∧
      takeAll s.reader st.wallet.content.accountKeys (startOf s.policy.activation st.wallet.content)
        st.wallet.content done = .ok (q, st'.wallet.content) ∧
      expected = q.height + 1 ∧ found = b.height ∧ found.same expected = false ∧
      (st'.wallet.content = st.wallet.content ↔ done = []) := by
  obtain ⟨st1, hattempt, hwallet, hcache⟩ := of_sync_eq_gap h
  obtain ⟨hobstacle, hstored⟩ := obstacle_of_checkAndScan hquiet honlooker hattempt rfl
  rw [hwallet, hcache]
  refine ⟨hstored, ?_⟩
  cases hobstacle with
  | next report done b rest q hcheck hpending htake hnext =>
      rcases Scan.of_checkNext_error hnext rfl with ⟨-, hmismatch⟩ | ⟨hsame, hgap⟩
      · cases hmismatch
      · cases hgap
        refine ⟨done, b, rest, q, hpending, htake, rfl, rfl, hsame, fun hsame => ?_, ?_⟩
        · -- the tip would be above itself
          refine Classical.byContradiction fun hdone => ?_
          have hword : ∀ c ∈ done, c.HasWordHeight := fun c hc =>
            Cache.hasWordHeight_of_mem_blocks (show c ∈ pending (s.scanSetup hooks) st from
              hpending ▸ List.mem_append_left _ hc)
          obtain ⟨t, ht, hlt⟩ := Scan.tip_lt_of_takeAll hword (Scan.atTip_startOf _ _) htake hdone
          have htip : st.wallet.content.tip? = some t := hsame ▸ ht
          exact Int.lt_irrefl _ (hlt t htip)
        · rintro rfl
          exact (Prod.mk.inj (Except.ok.inj htake)).2.symm

/-! ### Blocks below a gap -/

/-- A wallet without blocks, and a cache in which a height is missing behind two blocks. -/
def gapped : SyncState Unit :=
  let blocks := [linkedBlock 50 1 0 [], linkedBlock 51 2 1 [], linkedBlock 53 4 3 []]
  SyncState.idle (Cache.inMemory (Keyed.empty.insertAll (blocks.map rowOf))) (unscanned Keyed.empty)

theorem sync_gapped : ∃ st', (fromFifty (.ofList [])).sync ScanHooks.none gapped =
    .ok (.gap 52 53) st' ∧ st'.wallet.content.checkpoints.keys = [50, 51] := by
  have hvalue : ((fromFifty (.ofList [])).sync ScanHooks.none).value? gapped = some (.gap 52 53) := by
    decide +kernel
  have hkeys : (((fromFifty (.ofList [])).sync ScanHooks.none).after
      gapped).wallet.content.checkpoints.keys = [50, 51] := by decide +kernel
  obtain ⟨st', h⟩ := Action.value?_eq_some.1 hvalue
  rw [Action.after_of_ok h] at hkeys
  exact ⟨st', h, hkeys⟩

/-- The two blocks are in the wallet when the gap is reported. -/
theorem blocks_of_gap_gapped :
    let s := fromFifty (.ofList [])
    s.reader.Quiet ∧ Onlooker (ScanHooks.none : ScanHooks Unit) ∧ ∃ st',
      s.sync ScanHooks.none gapped = .ok (.gap 52 53) st' ∧
      st'.cache.stored = gapped.cache.stored ∧ ∃ done b rest q,
        pending (s.scanSetup ScanHooks.none) gapped = done ++ b :: rest ∧
        takeAll s.reader gapped.wallet.content.accountKeys
          (startOf s.policy.activation gapped.wallet.content) gapped.wallet.content done =
            .ok (q, st'.wallet.content) ∧
        52 = q.height + 1 ∧ 53 = b.height ∧ Number.same 53 52 = false ∧
        (st'.wallet.content = gapped.wallet.content ↔ done = []) := by
  intro s
  obtain ⟨st', h, -⟩ := sync_gapped
  have hquiet : s.reader.Quiet := NoteReader.quiet_ofList []
  exact ⟨hquiet, Scan.onlooker_none, st', h, blocks_of_gap hquiet Scan.onlooker_none h⟩

/-- A gap that is reported does not always leave the wallet as it was. -/
theorem changed_of_gap : ¬ ∀ (s : Synchronizer) (hooks : ScanHooks Unit) (st st' : SyncState Unit)
    (expected found : Number), s.sync hooks st = .ok (.gap expected found) st' →
      st'.wallet.content = st.wallet.content ∧ st'.cache.stored = st.cache.stored := by
  intro hall
  obtain ⟨st', h, hkeys⟩ := sync_gapped
  rw [(hall _ _ _ _ _ _ h).1] at hkeys
  cases hkeys

end Synchronizer
end LightSync
