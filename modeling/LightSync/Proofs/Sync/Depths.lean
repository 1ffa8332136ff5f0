import LightSync.Proofs.Sync.Validated
import Mathlib.Logic.Relation

/-!
# What the depths of a policy decide

A fork is found above the tip, also where blocks were taken before it was found (`lt_of_obstacle`).
So the wallet is rewound from a height that is less than `reorgRewindDepth` above where it has to
go, and a policy that always allows rewinds by one block less never refuses to recover
(`not_refused_of_compatible`).

How far the tip is lowered depends on where the fork is found. If the block right above the tip
names another parent, one block back from it is the tip itself. A policy that goes back further
lowers the tip, and one that does not leaves the wallet on the fork, however often the block is
fetched again (`lowered_of_stranger`).
-/

set_option autoImplicit false

namespace LightSync

open Agreement (verdict validate_eq_verdict)
open Scan (Onlooker)
open WalletStore (Settled)

/-- A fork is rewound by at most one block more than is always allowed. -/
def Policy.Compatible (p : Policy) : Prop :=
  ∀ pruning depth : Int, p.pruningDepth.toInt? = some pruning →
    p.reorgRewindDepth.toInt? = some depth → depth ≤ pruning + 1

namespace Synchronizer

variable {τ : Type} {s : Synchronizer} {hooks : ScanHooks τ} {st st' : SyncState τ}

/-! ## Forks above the tip -/

/-- A fork is found at a height above the tip that the wallet has by then. -/
theorem lt_of_obstacle {lower : Number} {store : WalletStore}
    (h : Obstacle s hooks st (.brokenChain (.parentMismatch lower)) store) :
    ∃ n : Int, lower = .int n ∧ ∀ t, store.content.tip? = some t → t.height < n := by
  cases h with
  | link b hb hcheck =>
      obtain ⟨n, hn, -⟩ := Cache.hasWordHeight_of_mem_blocks hb
      refine ⟨n, hn, fun t ht => ?_⟩
      rw [ahead_of_tip ht] at hb
      have habove : Number.int t.height < b.height := Cache.lt_of_mem_blocks hb
      rw [hn, Number.int_lt_int] at habove
      exact habove
  | next report done b rest q hcheck hpending htake hnext =>
      have hword : ∀ c ∈ Scan.pending (s.scanSetup hooks) st, c.HasWordHeight :=
        fun c hc => Cache.hasWordHeight_of_mem_blocks hc
      rw [hpending] at hword
      have htip := Scan.atTip_of_takeAll
        (fun c hc => hword c (List.mem_append_left _ hc)) (Scan.atTip_startOf _ _) htake
      -- the block stands right above the last one that was taken, which is the tip
      rcases Scan.of_checkNext_error hnext rfl with ⟨hsame, hmismatch⟩ | ⟨-, hgap⟩
      · cases hmismatch
        obtain ⟨n, hn, hsmall⟩ := hword b (List.mem_append_right _ List.mem_cons_self)
        refine ⟨n, hn, fun t ht => ?_⟩
        rw [hn, htip t ht] at hsame
        have := Number.eq_add_one_of_same hsame (Nat.lt_of_succ_lt (natAbs_lt_of_word hsmall))
        omega
      · cases hgap

/-- A rewind from a tip below the fork is not deep, if the depths allow it. -/
theorem not_isDeep_of_lt {pruning depth n tip : Int} (hle : depth ≤ pruning + 1)
    (hpruning : s.policy.pruningDepth.toInt? = some pruning)
    (hdepth : s.policy.reorgRewindDepth.toInt? = some depth) (htip : tip < n) :
    WalletStore.isDeep (s.forkTarget (.int n)) s.policy.pruningDepth tip = false := by
  have htarget : s.forkTarget (.int n) = .ofInt (n - depth) := Number.int_sub_of_toInt? hdepth n
  have hfloor : Number.int tip - s.policy.pruningDepth = .ofInt (tip - pruning) :=
    Number.int_sub_of_toInt? hpruning tip
  have hreach : tip - pruning ≤ n - depth := by omega
  unfold WalletStore.isDeep
  rw [htarget, hfloor]
  exact decide_eq_false (Number.not_ofInt_lt_ofInt hreach)

/-- **Compatible depths never keep a wallet from recovering.** -/
theorem not_refused_of_compatible {request : PolicyRequest} {reader : NoteReader}
    (haccepted : ofRequest request reader = .ok s) (hcompatible : s.policy.Compatible)
    (hquiet : s.reader.Quiet) (honlooker : Onlooker hooks) (st st' : SyncState τ)
    (safe requested limit : Number) :
    s.sync hooks st ≠ .error (.rewindRefused safe requested limit) st' := by
  intro h
  obtain ⟨pruning, hpruning⟩ := pruningDepth_of_ofRequest haccepted
  obtain ⟨depth, hdepth, -⟩ := rewindDepth_of_ofRequest haccepted
  have hdepth : s.policy.reorgRewindDepth.toInt? = some depth := by rw [hdepth]; rfl
  obtain ⟨lower, st1, hobstacle, -, hrewind, -⟩ := of_sync_eq_refused hquiet honlooker h
  obtain ⟨n, rfl, habove⟩ := lt_of_obstacle hobstacle
  obtain ⟨-, t, ht, hcheck⟩ := WalletStore.of_rewind_error hrewind rfl
  have hdeep := WalletStore.isDeep_of_checkDepth_error hcheck
  rw [not_isDeep_of_lt (hcompatible pruning depth hpruning hdepth) hpruning hdepth
    (habove t ht)] at hdeep
  cases hdeep

/-- From height 50 on, two blocks back after a fork, of which one is always allowed. -/
def twoBack : PolicyRequest :=
  { activationHeight := .given 50, pruningDepth := .given 1, stableCheckpoint := .given 0,
    reorgRewindDepth := .given 2 }

def goingTwoBack : Synchronizer :=
  ⟨⟨.mainnet, .given 50, 1, .given 0, 2, none, .given false⟩, .ofList []⟩

/-- A block is taken before the fork is found, and taken back. -/
theorem not_refused_of_compatible_forkedAbove :
    ofRequest twoBack (.ofList []) = .ok goingTwoBack ∧ goingTwoBack.policy.Compatible ∧
    goingTwoBack.reader.Quiet ∧ Onlooker (ScanHooks.none : ScanHooks Unit) ∧
    (∃ report st', goingTwoBack.sync ScanHooks.none forkedAbove =
      .ok (.reorganized 51 50 report) st' ∧ report.rewound = true) ∧
    ∀ st' safe requested limit, goingTwoBack.sync ScanHooks.none forkedAbove ≠
      .error (.rewindRefused safe requested limit) st' := by
  have haccepted : ofRequest twoBack (.ofList []) = .ok goingTwoBack := rfl
  have hcompatible : goingTwoBack.policy.Compatible := by
    intro pruning depth hpruning hdepth
    cases hpruning
    cases hdepth
    decide
  have hquiet : goingTwoBack.reader.Quiet := NoteReader.quiet_ofList []
  have hvalue : (goingTwoBack.sync ScanHooks.none).value? forkedAbove =
      some (.reorganized 51 50 ⟨some 50, none, 0, 0, true⟩) := by decide +kernel
  obtain ⟨st', hsync⟩ := Action.value?_eq_some.1 hvalue
  refine ⟨haccepted, hcompatible, hquiet, Scan.onlooker_none, ⟨_, st', hsync, rfl⟩, ?_⟩
  exact not_refused_of_compatible haccepted hcompatible hquiet Scan.onlooker_none forkedAbove

/-! ## Forks right above the tip -/

section

variable {t : WalletTip} {b : Block} (ht : st.wallet.content.tip? = some t)
  (hb : (ahead st).head? = some b) (hheight : b.height = .int (t.height + 1))
include hb hheight

theorem word_of_next : 0 ≤ t.height + 1 ∧ t.height + 1 < wordRange := by
  obtain ⟨n, hn, hsmall⟩ := Cache.hasWordHeight_of_mem_blocks (List.mem_of_mem_head? hb)
  rw [Number.int.inj (hheight.symm.trans hn)]
  exact ⟨Int.natCast_nonneg n, Int.ofNat_lt.2 hsmall⟩

theorem int_add_one_of_next : Number.int t.height + 1 = b.height := by
  obtain ⟨h0, hsmall⟩ := word_of_next hb hheight
  rw [hheight, Number.int_add_one]
  exact Number.ofInt_of_le (Nat.le_of_lt (Nat.lt_of_succ_lt (natAbs_lt_of_nonneg h0 hsmall)))

variable (hparent : b.parent? ≠ .ok t.hash)
include ht hparent

/-- The check does not get past a block right above the tip that names another parent. -/
theorem verdict_of_stranger : ∃ e, verdict st.wallet.content st.cache = .error e ∧
    (e.concernsChain = true → e = .brokenChain (.parentMismatch b.height)) := by
  have hnext := int_add_one_of_next hb hheight
  rw [ahead_of_tip ht] at hb
  obtain ⟨rest, hrest⟩ := List.head?_eq_some_iff.1 hb
  have hfits : Links.fits (Links.after (some ⟨.int t.height, t.hash⟩)) b = true := by
    show b.height.same (.int t.height + 1) = true
    rw [hnext, hheight, Number.int_same_int]
  obtain ⟨e, he⟩ : ∃ e, Links.checkParent (some t.hash) b = .error e := by
    unfold Links.checkParent
    dsimp only
    cases hnamed : b.parent? with
    | error e => exact ⟨e, rfl⟩
    | ok named =>
        rw [hnamed] at hparent
        have hother : ¬ named = t.hash := fun hsame => hparent (congrArg _ hsame)
        exact ⟨_, if_neg hother⟩
  have hcheck : Links.checkBlock (Links.after (some ⟨.int t.height, t.hash⟩)) b = .error e := by
    unfold Links.checkBlock Links.after
    dsimp only
    rw [he]
  refine ⟨e, ?_, Scan.mismatch_of_checkParent_error he⟩
  rw [verdict_of_tip ht, hrest, Links.follow, if_pos hfits, hcheck]

/-- So a synchronization that returns has found a fork there, and has gone back from it. -/
theorem of_sync_stranger {outcome : SyncOutcome} (h : s.sync hooks st = .ok outcome st') :
    ∃ report, outcome = .reorganized b.height (s.forkTarget b.height + 1) report ∧
      WalletStore.rewind (s.forkTarget b.height) s.policy.pruningDepth
        s.policy.stableCheckpoint.value? st.wallet = .ok report st'.wallet := by
  obtain ⟨e, hverdict, he⟩ := verdict_of_stranger ht hb hheight hparent
  have hattempt : ∃ st1, s.checkAndScan hooks (working st) = .error e st1 ∧
      st1.wallet = st.wallet := by
    have hvalidate := validate_eq_verdict (working st)
    rw [show verdict (working st).wallet.content (working st).cache = .error e from hverdict]
      at hvalidate
    exact ⟨_, Action.bind_eq_error.2 (Or.inl hvalidate), rfl⟩
  obtain ⟨st1, hattempt, hwallet⟩ := hattempt
  obtain ⟨st2, hrecovering, rfl⟩ := of_sync_eq_ok h
  unfold recovering at hrecovering
  rw [hattempt] at hrecovering
  split at hrecovering
  · rename_i breach st3 hsame
    cases hsame
    cases he rfl
    obtain ⟨report, houtcome, hrewind, -⟩ := of_recover_eq_ok hrecovering
    rw [hwallet] at hrewind
    exact ⟨report, houtcome, hrewind⟩
  · -- other failures are not recovered from
    cases hrecovering

/-- One block back from there is the tip, to which the wallet need not be rewound. -/
theorem stays_of_sync_stranger (hdepth : s.policy.reorgRewindDepth = .int 1)
    {outcome : SyncOutcome} (h : s.sync hooks st = .ok outcome st') :
    st'.wallet.content = st.wallet.content ∧
      ∃ report, outcome = .reorganized b.height b.height report := by
  obtain ⟨h0, hsmall⟩ := word_of_next hb hheight
  obtain ⟨report, houtcome, hrewind⟩ := of_sync_stranger ht hb hheight hparent h
  have htarget : s.forkTarget b.height = .int t.height := by
    rw [hheight, forkTarget_of_integer hdepth]
    · have hfar := natAbs_lt_of_nonneg h0 hsmall
      rw [Number.rounded_of_le (by omega)]
      simp
    · rw [← hheight]
      exact WalletStore.isInteger_of_rewind_ok hrewind
  rw [htarget] at houtcome hrewind
  rw [int_add_one_of_next hb hheight] at houtcome
  have hsame : st'.wallet = st.wallet :=
    WalletStore.eq_of_rewind_ok ht (Number.int_le_int.2 (Int.le_refl _)) hrewind
  exact ⟨congrArg _ hsame, report, houtcome⟩

/-- Two blocks back from there, or more, is below the tip. -/
theorem tip_lt_of_sync_stranger {depth : Int} (hdepth : s.policy.reorgRewindDepth = .int depth)
    (htwo : 2 ≤ depth) (hsettled : Settled st.wallet) {outcome : SyncOutcome}
    (h : s.sync hooks st = .ok outcome st') {t' : WalletTip}
    (ht' : st'.wallet.content.tip? = some t') : t'.height < t.height := by
  obtain ⟨h0, hsmall⟩ := word_of_next hb hheight
  obtain ⟨report, -, hrewind⟩ := of_sync_stranger ht hb hheight hparent h
  have hinteger := WalletStore.isInteger_of_rewind_ok hrewind
  rw [hheight] at hrewind hinteger
  rw [forkTarget_of_integer hdepth hinteger] at hrewind
  have hbelow : Number.rounded (t.height + 1 - depth) < t.height := by
    have hfar := natAbs_lt_of_nonneg h0 hsmall
    exact (Number.rounded_lt_iff (by omega)).2 (by omega)
  -- the new tip is a checkpoint of the wallet that was cut
  have hkept := Wallet.contains_of_tip? ht'
  rw [WalletStore.content_of_rewind_ok hsettled hrewind, Wallet.contains_cut, Number.int_lt_int]
    at hkept
  omega

end

/-- One round of an attempt to get off a fork: a synchronization that returns, after which blocks
are fetched and the lowest above the tip is `b` again. -/
def Refetched (s : Synchronizer) (b : Block) (st st' : SyncState τ) : Prop :=
  ∃ (hooks : ScanHooks τ) (outcome : SyncOutcome) (st1 : SyncState τ),
    s.sync hooks st = .ok outcome st1 ∧ st'.wallet.content = st1.wallet.content ∧
      (ahead st').head? = some b

/-- One block back, the wallet is where it was after every round. -/
theorem stays_of_refetched {t : WalletTip} {b : Block} {later : SyncState τ}
    (hdepth : s.policy.reorgRewindDepth = .int 1) (ht : st.wallet.content.tip? = some t)
    (hb : (ahead st).head? = some b) (hheight : b.height = .int (t.height + 1))
    (hparent : b.parent? ≠ .ok t.hash)
    (hrounds : Relation.ReflTransGen (s.Refetched b) st later) :
    later.wallet.content = st.wallet.content ∧ (ahead later).head? = some b := by
  induction hrounds with
  | refl => exact ⟨rfl, hb⟩
  | tail hrounds hround ih =>
      obtain ⟨hsame, hb'⟩ := ih
      obtain ⟨hooks, outcome, st1, hsync, hcontent, hagain⟩ := hround
      rw [← hsame] at ht
      have hstays := (stays_of_sync_stranger ht hb' hheight hparent hdepth hsync).1
      exact ⟨hcontent.trans (hstays.trans hsame), hagain⟩

/-- **How far a fork right above the tip lowers the wallet.** By every accepted policy a
synchronization that returns reports the fork, and if it goes back by more than one block the tip is
lower than before. If it goes back by one the wallet stays as it is, the forked block is the one to
be fetched again, and fetching it never gets the wallet off the fork. -/
theorem lowered_of_stranger {request : PolicyRequest} {reader : NoteReader}
    (haccepted : ofRequest request reader = .ok s) (hsettled : Settled st.wallet) {t : WalletTip}
    (ht : st.wallet.content.tip? = some t) {b : Block} (hb : (ahead st).head? = some b)
    (hheight : b.height = .int (t.height + 1)) (hparent : b.parent? ≠ .ok t.hash)
    {outcome : SyncOutcome} (h : s.sync hooks st = .ok outcome st') :
    ∃ refetch report, outcome = .reorganized b.height refetch report ∧
      (s.policy.reorgRewindDepth ≠ 1 →
        ∀ t', st'.wallet.content.tip? = some t' → t'.height < t.height) ∧
      (s.policy.reorgRewindDepth = 1 → refetch = b.height ∧
        st'.wallet.content = st.wallet.content ∧
        ∀ later, Relation.ReflTransGen (s.Refetched b) st later →
          later.wallet.content = st.wallet.content) := by
  obtain ⟨depth, hdepth, hone⟩ := rewindDepth_of_ofRequest haccepted
  obtain ⟨report, houtcome, -⟩ := of_sync_stranger ht hb hheight hparent h
  refine ⟨_, report, houtcome, fun hmore t' ht' => ?_, fun hexact => ?_⟩
  · have hother : depth ≠ 1 := by
      rintro rfl
      exact hmore hdepth
    have htwo : 2 ≤ depth := by omega
    exact tip_lt_of_sync_stranger ht hb hheight hparent hdepth htwo hsettled h ht'
  · obtain ⟨hsame, report', houtcome'⟩ :=
      stays_of_sync_stranger ht hb hheight hparent hexact h
    have hrefetch := (SyncOutcome.reorganized.inj (houtcome.symm.trans houtcome')).2.1
    exact ⟨hrefetch, hsame, fun later hrounds =>
      (stays_of_refetched hexact ht hb hheight hparent hrounds).1⟩

/-- Two blocks back, a wallet that ends at height 51 is taken below it. -/
theorem lowered_of_stranger_shallow :
    ofRequest backToFifty Note.reader = .ok goingBack ∧ Settled shallow.wallet ∧
    ∃ t b, shallow.wallet.content.tip? = some t ∧ (ahead shallow).head? = some b ∧
      b.height = .int (t.height + 1) ∧ b.parent? ≠ .ok t.hash ∧ t.height = 51 ∧
      ∃ outcome st', goingBack.sync ScanHooks.none shallow = .ok outcome st' ∧
        ∀ t', st'.wallet.content.tip? = some t' → t'.height < 51 := by
  have haccepted : ofRequest backToFifty Note.reader = .ok goingBack := rfl
  have hsettled : Settled shallow.wallet := by
    refine settled_session Keyed.empty ?_ ?_ _
    · rfl
    · rfl
  have ht : shallow.wallet.content.tip? = some ⟨⟨List.replicate 32 2, 0, 0⟩, 51⟩ := by
    decide +kernel
  have hb : (ahead shallow).head? = some (linkedBlock 52 4 3 []) := by decide +kernel
  have hparent : (linkedBlock 52 4 3 []).parent? ≠ .ok (List.replicate 32 2) := by decide
  obtain ⟨report, st', hsync⟩ := sync_shallow
  obtain ⟨refetch, report', -, hlower, -⟩ :=
    lowered_of_stranger haccepted hsettled ht hb rfl hparent hsync
  exact ⟨haccepted, hsettled, _, _, ht, hb, rfl, hparent, rfl, _, st', hsync,
    hlower (by decide)⟩

/-- From height 50 on, one block back after a fork. -/
def oneBack : PolicyRequest := { activationHeight := .given 50, reorgRewindDepth := .given 1 }

def goingOneBack : Synchronizer :=
  ⟨⟨.mainnet, .given 50, 100, .absent, 1, none, .given false⟩, .ofList []⟩

/-- The wallet ends at height 51, on a block that the next one in the cache does not name. -/
def forkedAtTip : SyncState Unit :=
  goingOneBack.session (SyncState.idle (Cache.inMemory Keyed.empty) (Wallet.unscanned Keyed.empty))
    [.insertBlocks [linkedBlock 50 1 0 [], linkedBlock 51 2 1 []], .sync nobody,
      .insertBlock (linkedBlock 52 4 3 [])]

/-- An accepted policy does not always lower the tip. -/
theorem not_lowered_of_accepted : ¬ ∀ (request : PolicyRequest) (reader : NoteReader)
    (s : Synchronizer) (hooks : ScanHooks Unit) (st st' : SyncState Unit) (t : WalletTip)
    (b : Block) (lower refetch : Number) (report : RewindReport),
    ofRequest request reader = .ok s → Settled st.wallet → st.wallet.content.tip? = some t →
    (ahead st).head? = some b → b.height = .int (t.height + 1) → b.parent? ≠ .ok t.hash →
    s.sync hooks st = .ok (.reorganized lower refetch report) st' →
    ∀ t', st'.wallet.content.tip? = some t' → t'.height < t.height := by
  intro hall
  have haccepted : ofRequest oneBack (.ofList []) = .ok goingOneBack := rfl
  have hsettled : Settled forkedAtTip.wallet := by
    refine settled_session Keyed.empty ?_ ?_ _
    · rfl
    · rfl
  have ht : forkedAtTip.wallet.content.tip? = some ⟨⟨List.replicate 32 2, 0, 0⟩, 51⟩ := by
    decide +kernel
  have hb : (ahead forkedAtTip).head? = some (linkedBlock 52 4 3 []) := by decide +kernel
  have hparent : (linkedBlock 52 4 3 []).parent? ≠ .ok (List.replicate 32 2) := by decide
  have hvalue : (goingOneBack.sync ScanHooks.none).value? forkedAtTip =
      some (.reorganized 52 52 ⟨some 51, some 51, 0, 0, false⟩) := by decide +kernel
  obtain ⟨st', hsync⟩ := Action.value?_eq_some.1 hvalue
  have ht' := ht
  rw [← (stays_of_sync_stranger ht hb rfl hparent rfl hsync).1] at ht'
  have hlower := hall oneBack _ _ _ _ _ _ _ _ _ _ haccepted hsettled ht hb rfl hparent hsync _ ht'
  exact Int.lt_irrefl _ hlower

end Synchronizer
end LightSync
