import LightSync.Proofs.Scan.Entering
import LightSync.Proofs.Scan.Receipts
import LightSync.Proofs.Wallet.Coherence
import Mathlib.Algebra.Group.Prod

/-!
# Scans that are cut into parts

A scan keeps its place in the cache in its own variables, and the next scan rebuilds the place from
the wallet. A state into which the first blocks of a scan were entered is therefore as good as the
one before: a scan of it that nobody disturbs ends in the same way and with the same wallet
(`sameEnd_of_entered`). So a scan leaves no trace of the parts into which it was cut
(`resume_of_parts`), and repeats what was cut off the wallet afterwards (`rescan_of_truncate`).
-/

set_option autoImplicit false

namespace LightSync
namespace Scan

open Agreement (Patient)
open Database (Same)
open Wallet (unscanned)

variable {τ : Type}

/-! ## Counts -/

/-- How many blocks were scanned, notes received and notes spent. -/
abbrev Counts := Nat × Nat × Nat

def counts (summary : ScanSummary) : Counts :=
  (summary.blocksScanned, summary.notesReceived, summary.notesSpent)

/-- What blocks add to a report. -/
def tally (found : List ScannedBlock) : Counts :=
  (found.map fun b => (1, b.notes.length, b.spends.length)).sum

theorem tally_append (found more : List ScannedBlock) :
    tally (found ++ more) = tally found + tally more := by
  unfold tally
  rw [List.map_append, List.sum_append]

theorem counts_withBlock (summary : ScanSummary) (b : ScannedBlock) :
    counts (withBlock summary b) = counts summary + (1, b.notes.length, b.spends.length) := rfl

theorem counts_foldl (found : List ScannedBlock) (summary : ScanSummary) :
    counts (found.foldl withBlock summary) = counts summary + tally found := by
  induction found generalizing summary with
  | nil => rfl
  | cons b found ih =>
      rw [List.foldl_cons, ih, counts_withBlock, add_assoc]
      rfl

theorem counts_emptySummary : counts emptySummary = 0 := rfl

/-! ## States that continue one another -/

/-- `st'` is what a scan notices once the first of the blocks ahead of `st` were entered. -/
def Entered (reader : NoteReader) (activation : Number) (st st' : SyncState τ)
    (found : List ScannedBlock) : Prop :=
  ∃ done rest stop store,
    st.cache.blocks (some (startOf activation st.wallet.content).height) none =
      ⟨done ++ rest, stop⟩ ∧
    enterAll reader st.wallet.content.accountKeys (startOf activation st.wallet.content) done
      st.wallet = .ok found store ∧
    Same store st'.wallet ∧ st'.cache.stored = st.cache.stored

/-- Two scans ended in the same way and with the same wallet; the first counted `before` more. -/
inductive SameEnd (before : Counts) :
    EStateM.Result Failure (SyncState τ) ScanSummary →
      EStateM.Result Failure (SyncState τ) ScanSummary → Prop where
  | ok {summary summary' : ScanSummary} {st st' : SyncState τ}
      (hcounts : counts summary = before + counts summary')
      (hcontent : st.wallet.content = st'.wallet.content) :
      SameEnd before (.ok summary st) (.ok summary' st')
  | error (e : Failure) {st st' : SyncState τ}
      (hcontent : st.wallet.content = st'.wallet.content) :
      SameEnd before (.error e st) (.error e st')

section

variable {reader : NoteReader} {activation : Number} {st st' : SyncState τ}
  {found : List ScannedBlock} {act act' : Action (SyncState τ) ScanSummary} {before : Counts}

theorem SameEnd.content_eq (h : SameEnd before (act st) (act' st')) :
    (act.after st).wallet.content = (act'.after st').wallet.content := by
  unfold Action.after
  generalize act st = r at h ⊢
  generalize act' st' = r' at h ⊢
  cases h with
  | ok hcounts hcontent => exact hcontent
  | error e hcontent => exact hcontent

theorem SameEnd.failure?_eq (h : SameEnd before (act st) (act' st')) :
    act.failure? st = act'.failure? st' := by
  unfold Action.failure?
  generalize act st = r at h ⊢
  generalize act' st' = r' at h ⊢
  cases h with
  | ok hcounts hcontent => rfl
  | error e hcontent => rfl

theorem SameEnd.counts_eq (h : SameEnd before (act st) (act' st')) {summary : ScanSummary}
    (hvalue : act.value? st = some summary) :
    ∃ summary', act'.value? st' = some summary' ∧ counts summary = before + counts summary' := by
  unfold Action.value? at hvalue ⊢
  generalize act st = r at h hvalue
  generalize act' st' = r' at h ⊢
  cases h with
  | @ok _ summary' _ _ hcounts hcontent =>
      cases hvalue
      exact ⟨summary', rfl, hcounts⟩
  | error e hcontent => cases hvalue

theorem sameEnd_of_told {entered entered' : EStateM.Result Failure WalletStore (List ScannedBlock)}
    {result result' : EStateM.Result Failure (SyncState τ) ScanSummary}
    (htold : Told emptySummary (withMore found entered) result)
    (htold' : Told emptySummary entered' result') (hsame : Action.Alike Same entered entered') :
    SameEnd (tally found) result result' := by
  cases hsame with
  | @ok more s t h =>
      cases htold with
      | ok _ hw =>
          cases htold' with
          | ok _ hw' =>
              refine .ok ?_ ((congrArg Database.content hw).trans
                (h.content.trans (congrArg Database.content hw').symm))
              rw [counts_foldl, counts_foldl, tally_append, counts_emptySummary, zero_add, zero_add]
  | @error e s t h =>
      cases htold with
      | error _ hw =>
          cases htold' with
          | error _ hw' =>
              exact .error e ((congrArg Database.content hw).trans
                (h.content.trans (congrArg Database.content hw').symm))

/-- The place of the next scan, rebuilt from the wallet, is where the blocks were entered. -/
theorem Entered.stands (h : Entered reader activation st st' found)
    (hgrid : CountOnGrid st.wallet.content) :
    ∃ done rest stop store,
      st.cache.blocks (some (startOf activation st.wallet.content).height) none =
        ⟨done ++ rest, stop⟩ ∧
      enterAll reader st.wallet.content.accountKeys (startOf activation st.wallet.content) done
        st.wallet = .ok found store ∧ Same store st'.wallet ∧
      Stands activation st'.cache
        (found.foldl Point.advance (startOf activation st.wallet.content))
        st'.wallet.content ⟨rest, stop⟩ ∧
      st'.wallet.content.accountKeys = st.wallet.content.accountKeys := by
  obtain ⟨done, rest, stop, store, hblocks, henter, hsame, hstored⟩ := h
  have hstart := stands_start activation hgrid st.cache
  rw [hblocks] at hstart
  obtain ⟨⟨hhere, hahead, hcount⟩, haccounts⟩ := hstart.takeAll (takeAll_of_enterAll henter)
  rw [hsame.content] at hhere haccounts
  refine ⟨done, rest, stop, store, hblocks, henter, hsame, ⟨hhere, ?_, hcount⟩, ?_⟩
  · rw [Cache.blocks_congr hstored]
    exact hahead
  · unfold Wallet.accountKeys
    rw [haccounts]

theorem Entered.countOnGrid (h : Entered reader activation st st' found)
    (hgrid : CountOnGrid st.wallet.content) : CountOnGrid st'.wallet.content := by
  obtain ⟨done, rest, stop, store, -, -, -, ⟨hhere, -, hcount⟩, -⟩ := h.stands hgrid
  intro t ht
  have hstart : (startOf activation st'.wallet.content).treeSize = t.treeSize := by
    rw [startOf, ht]
  rwa [hhere.2.2, hstart] at hcount

/-- **A scan goes on from where blocks were entered as if it had entered them itself.** -/
theorem sameEnd_of_entered (whole whole' : ScanSetup τ) (hgrid : CountOnGrid st.wallet.content)
    (h : Entered whole.reader whole.activation st st' found) (hreader : whole'.reader = whole.reader)
    (hactivation : whole'.activation = whole.activation) (hlimit : whole.limit = none)
    (hlimit' : whole'.limit = none) (hpatient : Patient whole.hooks)
    (hpatient' : Patient whole'.hooks) :
    SameEnd (tally found) (run whole st) (run whole' st') := by
  obtain ⟨done, rest, stop, store, hblocks, henter, hsame, hstands, hkeys⟩ := h.stands hgrid
  have htold := told_of_run whole st hpatient
  have htold' := told_of_run whole' st' hpatient'
  rw [hlimit, hblocks, enterWalk_append henter] at htold
  rw [hreader, hactivation, hlimit', hkeys, ← enterWalk_congr hstands.here, ← hstands.here.1,
    hstands.ahead] at htold'
  exact sameEnd_of_told htold htold' (parallel_enterWalk _ _ _ _ hsame)

end

/-! ## Parts -/

/-- One of the scans into which the work is cut: it may take a number of blocks at most, and its
caller may stop it between blocks or fail when it is told about one. -/
structure Part (τ : Type) where
  limit : Option Number
  verbose : Bool
  hooks : ScanHooks τ
  aside : Aside hooks

def Part.setup (reader : NoteReader) (activation : Number) (part : Part τ) : ScanSetup τ :=
  ⟨reader, activation, part.limit, part.verbose, part.hooks⟩

/-- The scan of a part. -/
def Part.scan (reader : NoteReader) (activation : Number) (part : Part τ) :
    Action (SyncState τ) ScanSummary := run (part.setup reader activation)

/-- The state after scans one after another, whether they fail or not. -/
def afterParts (reader : NoteReader) (activation : Number) (st : SyncState τ)
    (parts : List (Part τ)) : SyncState τ :=
  parts.foldl (fun st part => (part.scan reader activation).after st) st

/-- The reports of those of the scans that return. -/
def reports (reader : NoteReader) (activation : Number) :
    SyncState τ → List (Part τ) → List ScanSummary
  | _, [] => []
  | st, part :: parts =>
      ((part.scan reader activation).value? st).toList ++
        reports reader activation ((part.scan reader activation).after st) parts

/-- The scan is unlimited, and nobody disturbs it. -/
structure Part.IsWhole (part : Part τ) : Prop where
  unlimited : part.limit = none
  patient : Patient part.hooks

section

variable {reader : NoteReader} {activation : Number} {st : SyncState τ}

variable (reader activation) in
theorem entered_of_part (part : Part τ) (st : SyncState τ) :
    ∃ found, Entered reader activation st ((part.scan reader activation).after st) found := by
  obtain ⟨done, found, store, hdone, henter, hsame⟩ :=
    enterAll_of_run (part.setup reader activation) st part.aside
  obtain ⟨rest, hrest⟩ := hdone.trans (st.cache.items_prefix_of_limit _ part.limit)
  let walk := st.cache.blocks (some (startOf activation st.wallet.content).height) none
  have hwalk : walk = ⟨done ++ rest, walk.stop⟩ := congrArg (Walk.mk · walk.stop) hrest.symm
  exact ⟨found, done, rest, walk.stop, store, hwalk, henter, hsame,
    stored_after_run _ part.aside st⟩

/-- Where the whole work can be done, a part that nobody disturbs either is refused its limit and
does nothing, or reports what it did. -/
theorem entered_of_patient_part {whole part : Part τ} (hwhole : whole.IsWhole)
    (hpatient : Patient part.hooks) {summary : ScanSummary}
    (hvalue : (whole.scan reader activation).value? st = some summary) :
    ∃ found, Entered reader activation st ((part.scan reader activation).after st) found ∧
      tally found = ((((part.scan reader activation).value? st).toList).map counts).sum := by
  let p := startOf activation st.wallet.content
  let keys := st.wallet.content.accountKeys
  let walk := st.cache.blocks (some p.height) none
  have hstored := stored_after_run (part.setup reader activation) part.aside st
  -- all blocks ahead can be entered
  obtain ⟨all, goal, hall, hstop⟩ : ∃ all goal,
      enterAll reader keys p walk.items st.wallet = .ok all goal ∧ walk.stop = none := by
    have htold := told_of_run (whole.setup reader activation) st hwhole.patient
    obtain ⟨st', hrun⟩ := Action.value?_eq_some.1 hvalue
    have hrun : run (whole.setup reader activation) st = .ok summary st' := hrun
    rw [hrun] at htold
    generalize hentered : enterWalk _ _ _ _ st.wallet = entered at htold
    cases htold with
    | @ok all store _ hw =>
        obtain ⟨hitems, hstop⟩ := enterWalk_eq_ok.1 hentered
        rw [show (whole.setup reader activation).limit = none from hwhole.unlimited] at hitems hstop
        exact ⟨all, store, hitems, hstop⟩
  have htold := told_of_run (part.setup reader activation) st hpatient
  rcases st.cache.blocks_of_limit (some p.height) part.limit with ⟨e, hfailed⟩ | hahead
  · -- the limit is refused before a block is taken
    have hentered : enterWalk reader keys p (st.cache.blocks (some p.height) part.limit) st.wallet =
        .error e st.wallet := by
      rw [hfailed]
      rfl
    have htold : Told emptySummary (.error e st.wallet) (part.scan reader activation st) :=
      hentered ▸ htold
    generalize hresult : part.scan reader activation st = result at htold
    cases htold with
    | @error _ _ st' hw =>
        refine ⟨[], ⟨[], walk.items, walk.stop, st.wallet, rfl, rfl, ?_, hstored⟩, ?_⟩
        · rw [Action.after_of_error hresult, hw]
          exact Same.refl _
        · rw [Action.value?, hresult]
          rfl
  · -- the part enters the first of the blocks, and comes to the end of its walk
    obtain ⟨rest, hrest⟩ : (st.cache.blocks (some p.height) part.limit).items <+: walk.items :=
      st.cache.items_prefix_of_limit _ _
    have hend : (st.cache.blocks (some p.height) part.limit).stop = none := by
      rcases hahead with heq | ⟨hnone, -⟩
      · rw [heq]
        exact hstop
      · exact hnone
    rw [← hrest] at hall
    obtain ⟨found, store, hfound⟩ := enterAll_left hall
    have hentered : enterWalk reader keys p (st.cache.blocks (some p.height) part.limit) st.wallet =
        .ok found store := enterWalk_eq_ok.2 ⟨hfound, hend⟩
    have htold : Told emptySummary (.ok found store) (part.scan reader activation st) :=
      hentered ▸ htold
    generalize hresult : part.scan reader activation st = result at htold
    cases htold with
    | @ok _ _ st' hw =>
        refine ⟨found, ⟨_, rest, walk.stop, store, ?_, hfound, ?_, hstored⟩, ?_⟩
        · exact congrArg (Walk.mk · walk.stop) hrest.symm
        · rw [Action.after_of_ok hresult, hw]
          exact Same.refl _
        · rw [Action.value?, hresult]
          show _ = counts (found.foldl withBlock emptySummary) + 0
          rw [counts_foldl, counts_emptySummary, zero_add, add_zero]

variable {whole : Part τ}

theorem sameEnd_of_part (hwhole : whole.IsWhole) (hgrid : CountOnGrid st.wallet.content)
    {st' : SyncState τ} {found : List ScannedBlock}
    (h : Entered reader activation st st' found) :
    SameEnd (tally found) (whole.scan reader activation st) (whole.scan reader activation st') :=
  sameEnd_of_entered (whole.setup reader activation) (whole.setup reader activation) hgrid h rfl rfl
    hwhole.unlimited hwhole.unlimited hwhole.patient hwhole.patient

/-- The parts before do not matter to how the work ends. -/
theorem end_of_afterParts (hwhole : whole.IsWhole) (parts : List (Part τ))
    (hgrid : CountOnGrid st.wallet.content) :
    ((whole.scan reader activation).after (afterParts reader activation st parts)).wallet.content =
      ((whole.scan reader activation).after st).wallet.content ∧
    (whole.scan reader activation).failure? (afterParts reader activation st parts) =
      (whole.scan reader activation).failure? st := by
  induction parts generalizing st with
  | nil => exact ⟨rfl, rfl⟩
  | cons part parts ih =>
      obtain ⟨found, hentered⟩ := entered_of_part reader activation part st
      have hend := sameEnd_of_part hwhole hgrid hentered
      obtain ⟨hcontent, hfailure⟩ := ih (hentered.countOnGrid hgrid)
      exact ⟨hcontent.trans hend.content_eq.symm, hfailure.trans hend.failure?_eq.symm⟩

/-- The reports of the parts and of the rest add up to the report of the whole. -/
theorem counts_of_reports (hwhole : whole.IsWhole) (parts : List (Part τ))
    (hgrid : CountOnGrid st.wallet.content) (hpatient : ∀ part ∈ parts, Patient part.hooks)
    {summary : ScanSummary} (hvalue : (whole.scan reader activation).value? st = some summary) :
    ((reports reader activation st (parts ++ [whole])).map counts).sum = counts summary := by
  induction parts generalizing st summary with
  | nil =>
      show ((((whole.scan reader activation).value? st).toList ++ []).map counts).sum = _
      rw [hvalue]
      show counts summary + 0 = _
      rw [add_zero]
  | cons part parts ih =>
      obtain ⟨found, hentered, htally⟩ := entered_of_patient_part hwhole
        (hpatient part List.mem_cons_self) hvalue
      obtain ⟨summary', hvalue', hcounts⟩ :=
        (sameEnd_of_part hwhole hgrid hentered).counts_eq hvalue
      have hrest := ih (hentered.countOnGrid hgrid)
        (fun part' hpart => hpatient part' (List.mem_cons_of_mem _ hpart)) hvalue'
      show ((((part.scan reader activation).value? st).toList ++ reports reader activation
        ((part.scan reader activation).after st) (parts ++ [whole])).map counts).sum = _
      rw [List.map_append, List.sum_append, hrest, ← htally, hcounts]

/-- **Interrupted scans resume without a trace.** However the work is cut into parts — by limits,
by callers that stop between blocks or that fail when they are told about one — an unlimited scan
after them leaves the wallet that it would have left without them, and fails as it would have
failed. Where it returns and nobody disturbs the parts, the reports of those of them that return
and its own add up to the report that it would have made alone. -/
theorem resume_of_parts (reader : NoteReader) (activation : Number) (st : SyncState τ)
    (hgrid : CountOnGrid st.wallet.content) (parts : List (Part τ)) (whole : Part τ)
    (hwhole : whole.IsWhole) :
    ((whole.scan reader activation).after (afterParts reader activation st parts)).wallet.content =
      ((whole.scan reader activation).after st).wallet.content ∧
    (whole.scan reader activation).failure? (afterParts reader activation st parts) =
      (whole.scan reader activation).failure? st ∧
    ((∀ part ∈ parts, Patient part.hooks) → ∀ summary,
      (whole.scan reader activation).value? st = some summary →
        ((reports reader activation st (parts ++ [whole])).map counts).sum = counts summary) := by
  obtain ⟨hcontent, hfailure⟩ := end_of_afterParts hwhole parts hgrid
  exact ⟨hcontent, hfailure, fun hpatient summary hvalue =>
    counts_of_reports hwhole parts hgrid hpatient hvalue⟩

end

/-! ### A note, its spend and a gap -/

/-- A scan that nobody disturbs. -/
def undisturbed (limit : Option Number) : Part Unit :=
  ⟨limit, false, ScanHooks.none, aside_none⟩

/-- A scan whose caller fails as soon as it is told about a block. -/
def failing : Part Unit where
  limit := none
  verbose := false
  hooks := ⟨fun _ => false, fun _ => throw (.thrown "enough")⟩
  aside := ⟨fun _ _ => rfl, fun _ _ => rfl⟩

theorem isWhole_undisturbed : (undisturbed none).IsWhole := ⟨rfl, Agreement.patient_none⟩

/-- The blocks of `noteAndSpendState`, and one behind a gap. -/
def noteAndGapState : SyncState Unit :=
  let bs := [linkedBlock 50 1 0 [⟨0, [1], 0, [], [⟨[1], [2], [3]⟩], []⟩],
    linkedBlock 51 2 1 [⟨0, [2], 0, [[9]], [], []⟩], linkedBlock 53 4 3 []]
  SyncState.idle (Cache.inMemory ⟨bs.map rowOf, by decide +kernel⟩)
    (unscanned Wallet.oneAccount)

theorem countOnGrid_unscanned (accounts : Keyed Bytes) : CountOnGrid (unscanned accounts) :=
  fun _ ht => by cases ht

/-- An unlimited scan from height 50 on that nobody disturbs. -/
def wholeScan : Action (SyncState Unit) ScanSummary :=
  (undisturbed none).scan noteAndSpendSetup.reader 50

/-- The caller of a first scan fails at the block with the note, and a second scan takes no more
than one block; the last one fails at the gap all the same. Without the gap two scans of a block
each report what one scan of both does. -/
theorem resume_of_parts_noteAndSpend :
    CountOnGrid noteAndGapState.wallet.content ∧ CountOnGrid noteAndSpendState.wallet.content ∧
    (undisturbed none).IsWhole ∧
    wholeScan.failure? (afterParts noteAndSpendSetup.reader 50 noteAndGapState
      [failing, undisturbed (some 1)]) = some (.brokenChain (.discontinuity 52 53)) ∧
    ((reports noteAndSpendSetup.reader 50 noteAndSpendState
      ([undisturbed (some 1)] ++ [undisturbed none])).map counts).sum = (2, 1, 1) := by
  have hgap : wholeScan.failure? noteAndGapState =
      some (.brokenChain (.discontinuity 52 53)) := by decide +kernel
  have hvalue : wholeScan.value? noteAndSpendState =
      some ⟨2, some 50, some 51, 1, 1, false⟩ := by decide +kernel
  have hpatient : ∀ part ∈ [undisturbed (some 1)], Patient part.hooks := by
    intro part hpart
    rw [List.mem_singleton.1 hpart]
    exact Agreement.patient_none
  have hcut := resume_of_parts noteAndSpendSetup.reader 50 noteAndGapState
    (countOnGrid_unscanned _) [failing, undisturbed (some 1)] (undisturbed none) isWhole_undisturbed
  have hlimited := resume_of_parts noteAndSpendSetup.reader 50 noteAndSpendState
    (countOnGrid_unscanned _) [undisturbed (some 1)] (undisturbed none) isWhole_undisturbed
  exact ⟨countOnGrid_unscanned _, countOnGrid_unscanned _, isWhole_undisturbed,
    hcut.2.1.trans hgap, hlimited.2.2 hpatient _ hvalue⟩

/-! ## Scanning again what was cut off -/

section

variable {reader : NoteReader} {activation : Number} {accounts : Keyed Bytes} {st st' : SyncState τ}
  {found : List ScannedBlock}

/-- A wallet without blocks into which blocks were entered, and that was cut, is one into which the
blocks up to the height were entered. -/
theorem Entered.truncate (h : Entered reader activation st st' found) (hrest : st.wallet.AtRest)
    (hempty : st.wallet.content = unscanned accounts) (height : Number) :
    ∃ done cut kept, SyncState.onWallet (WalletStore.truncate height) st' = .ok done cut ∧
      Entered reader activation st cut kept := by
  obtain ⟨done, rest, stop, store, hblocks, henter, hsame, hstored⟩ := h
  obtain ⟨hrest', hfault'⟩ := atRest_of_enterAll hrest henter
  -- the cut goes through, since no transaction is open
  have hrest'' : st'.wallet.AtRest := hsame.before.symm.trans hrest'
  obtain ⟨cut, htruncate, hcut, hrestCut, hfaultCut⟩ :=
    WalletStore.truncate_of_atRest height hrest''
  have hwallet : SyncState.onWallet (WalletStore.truncate height) st' =
      .ok _ { st' with wallet := cut } := onWallet_eq_ok.2 ⟨cut, htruncate, rfl⟩
  -- of the blocks that were entered, those up to the height come first
  have hstart := stands_start activation (hempty ▸ countOnGrid_unscanned accounts) st.cache
  rw [hblocks] at hstart
  have hword : ∀ b ∈ done, b.HasWordHeight := fun b hb =>
    hstart.hasWordHeight b (List.mem_append_left _ hb)
  have hordered : done.Pairwise Cache.Below := by
    have hall := st.cache.pairwise_blocks (some (startOf activation st.wallet.content).height)
    rw [hblocks] at hall
    exact (List.pairwise_append.1 hall).1
  obtain ⟨above, habove⟩ := filter_prefix_of_pairwise
    (p := fun b : Block => !decide (height < b.height)) hordered fun a b hab hb => by
      obtain ⟨j, k, hj, hk, hjk⟩ := hab
      rw [hk] at hb
      have hb : ¬ height < .int k := by simpa using hb
      rw [hj]
      simpa using fun hlt => hb (Number.lt_int_of_le hlt (Int.le_of_lt hjk))
  rw [← habove] at henter
  obtain ⟨kept, t, hkept⟩ := enterAll_left henter
  obtain ⟨hrestKept, hfaultKept⟩ := atRest_of_enterAll hrest hkept
  refine ⟨_, _, kept, hwallet, _, above ++ rest, stop, t, ?_, hkept, ⟨?_, ?_, ?_⟩, hstored⟩
  · rw [hblocks, ← List.append_assoc, habove]
  · -- entering them and cutting come to the same wallet
    have htaken := takeAll_of_enterAll hkept
    have hall := takeAll_of_enterAll (habove ▸ henter)
    rw [hempty] at htaken hall
    obtain ⟨q, hq⟩ := takeAll_upTo hword hall height
    rw [hq] at htaken
    rw [hcut, ← hsame.content]
    exact (congrArg Prod.snd (Except.ok.inj htaken)).symm
  · exact hrestKept.trans hrestCut.symm
  · exact hfaultKept.trans (hfault'.symm.trans (hsame.fault.trans hfaultCut.symm))

/-- **What was cut off a scanned wallet is scanned again.** A wallet without blocks is scanned from
the cache until that ends or fails. Wherever it is cut then, scanning the same cache again ends or
fails in the same way, and the wallet is what it was before the cut. -/
theorem rescan_of_truncate (reader : NoteReader) (activation : Number) (accounts : Keyed Bytes)
    (st : SyncState τ) (hrest : st.wallet.AtRest) (hempty : st.wallet.content = unscanned accounts)
    (first again : Part τ) (hfirst : first.IsWhole) (hagain : again.IsWhole) (height : Number) :
    ∃ done cut, SyncState.onWallet (WalletStore.truncate height)
        ((first.scan reader activation).after st) = .ok done cut ∧
      (again.scan reader activation).failure? cut = (first.scan reader activation).failure? st ∧
      ((again.scan reader activation).after cut).wallet.content =
        ((first.scan reader activation).after st).wallet.content := by
  obtain ⟨found, hentered⟩ := entered_of_part reader activation first st
  obtain ⟨done, cut, kept, htruncate, hcut⟩ := hentered.truncate hrest hempty height
  have hend : SameEnd (tally kept) (first.scan reader activation st)
      (again.scan reader activation cut) :=
    sameEnd_of_entered (first.setup reader activation) (again.setup reader activation)
      (hempty ▸ countOnGrid_unscanned accounts) hcut rfl rfl hfirst.unlimited hagain.unlimited
      hfirst.patient hagain.patient
  exact ⟨done, cut, htruncate, hend.failure?_eq.symm, hend.content_eq.symm⟩

end

/-- Cut at the height of the note, the wallet has lost the spend, and a second scan finds it
again. -/
theorem rescan_of_truncate_noteAndSpend :
    noteAndSpendState.wallet.AtRest ∧
    noteAndSpendState.wallet.content = unscanned Wallet.oneAccount ∧
    (undisturbed none).IsWhole ∧
    ∃ done cut, SyncState.onWallet (WalletStore.truncate 50) (wholeScan.after noteAndSpendState) =
        .ok done cut ∧
      done = ⟨0, 1⟩ ∧ wholeScan.failure? cut = none ∧
      (wholeScan.after cut).wallet.content =
        (wholeScan.after noteAndSpendState).wallet.content := by
  obtain ⟨done, cut, htruncate, hfailure, hcontent⟩ := rescan_of_truncate
    noteAndSpendSetup.reader 50 Wallet.oneAccount noteAndSpendState rfl rfl (undisturbed none)
    (undisturbed none) isWhole_undisturbed isWhole_undisturbed 50
  have hdone : (SyncState.onWallet (WalletStore.truncate 50)).value?
      (wholeScan.after noteAndSpendState) = some (⟨0, 1⟩ : Truncation) := by decide +kernel
  have hnone : wholeScan.failure? noteAndSpendState = none := by decide +kernel
  unfold wholeScan at hdone hnone ⊢
  have hvalue := Action.value?_eq_some.2 ⟨cut, htruncate⟩
  exact ⟨rfl, rfl, isWhole_undisturbed, done, cut, htruncate,
    Option.some.inj (hvalue.symm.trans hdone), hfailure.trans hnone, hcontent⟩

end Scan
end LightSync
