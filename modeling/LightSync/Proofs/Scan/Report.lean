import LightSync.Proofs.Scan.Endings
import LightSync.Proofs.Wallet.Growth

/-!
# The report of a scan

A scan counts what it finds in the blocks, and what happens to the wallet happens when they are
recorded. The two agree (`Scan.Accounted`): every block that is recorded adds one checkpoint, a row
for each note that was found in it, and a mark for each spend.

Main statement: `reported_of_run`. The report of a scan that succeeds, and what its caller is told
on the way, is what the wallet became.
-/

set_option autoImplicit false

namespace LightSync
namespace Scan

variable {τ : Type}

/-! ## What a report says -/

/-- A report of what happened when one wallet became the other. -/
structure Tells (before after : Wallet) (s : ScanSummary) : Prop where
  blocksScanned : s.blocksScanned = (added before.heights after.heights).length
  firstHeight : s.firstHeight = (added before.heights after.heights).min?.map .int
  lastHeight : s.lastHeight = (added before.heights after.heights).max?.map .int
  notesReceived : s.notesReceived = (added before.noteIds after.noteIds).length
  notesSpent : s.notesSpent = (added before.spentIds after.spentIds).length

/-- What a caller is told when block `i` of a scan was committed, and the wallet at that moment. The
scan as a whole makes `after` of `before`. -/
structure Notified (before after : Wallet) (i : Nat) (report : ScanProgress) (s : WalletStore) :
    Prop where
  committed : s.AtRest
  heights : added before.heights s.content.heights =
    (added before.heights after.heights).take (i + 1)
  height : (added before.heights s.content.heights).max?.map .int = some report.height
  blocksScanned : report.blocksScanned = i + 1
  notesReceived : report.notesReceived = (added before.noteIds s.content.noteIds).length
  notesSpent : report.notesSpent = (added before.spentIds s.content.spentIds).length

/-- The caller keeps a log of what it is told, each time with the wallet as it is then. -/
def Logs (hooks : ScanHooks τ) (log : τ → List (ScanProgress × WalletStore)) : Prop :=
  ∀ report st st', hooks.progress report st = .ok () st' →
    log st'.host = log st.host ++ [(report, st.wallet)]

/-- The report of a scan, and what its caller was told on the way, is what happened. -/
structure Reported (setup : ScanSetup τ) (st : SyncState τ) (summary : ScanSummary)
    (st' : SyncState τ) : Prop where
  tells : Tells st.wallet.content st'.wallet.content summary
  aborted : summary.aborted = true → setup.hooks.stops st'.host = true ∧
    summary.blocksScanned < (pending setup st).length
  notified : ∀ log, Logs setup.hooks log → ∃ entries, log st'.host = log st.host ++ entries ∧
    entries.length = summary.blocksScanned ∧ ∀ i (hi : i < entries.length),
      Notified st.wallet.content st'.wallet.content i entries[i].1 entries[i].2

/-! ## One block -/

/-- The totals of a report are how much there is more than in the first wallet, from which nothing
was taken away. -/
structure Accounted (before after : Wallet) (s : ScanSummary) : Prop where
  coherent : after.Coherent
  heights : ∃ hs, after.heights = before.heights ++ hs ∧ s.blocksScanned = hs.length ∧
    s.firstHeight = hs.head?.map .int ∧ s.lastHeight = hs.getLast?.map .int
  noteIds : before.noteIds <+: after.noteIds
  notesReceived : after.noteIds.length = before.noteIds.length + s.notesReceived
  spentIds : before.spentIds ⊆ after.spentIds
  notesSpent : after.spentIds.length = before.spentIds.length + s.notesSpent

section

variable {before w w' : Wallet} {s : ScanSummary} {found : ScannedBlock}

theorem accounted_start (h : w.Coherent) : Accounted w w emptySummary where
  coherent := h
  heights := ⟨[], (List.append_nil _).symm, rfl, rfl, rfl⟩
  noteIds := List.prefix_refl _
  notesReceived := rfl
  spentIds := List.Subset.refl _
  notesSpent := rfl

/-- What is found in a block is added to the report as it is to the wallet. -/
theorem Accounted.withBlock (h : Accounted before w s) (hgrows : Wallet.Grows found w w') :
    Accounted before w' (Scan.withBlock s found) := by
  obtain ⟨hs, hheights, hcount, hfirst, -⟩ := h.heights
  obtain ⟨k, hk, hheights'⟩ := hgrows.heights
  obtain ⟨new, hids, hnew⟩ := hgrows.noteIds
  constructor
  case coherent => exact hgrows.coherent
  case heights =>
    refine ⟨hs ++ [k], ?_, ?_, ?_, ?_⟩
    · rw [hheights', hheights, List.append_assoc]
    · rw [List.length_append, ← hcount]
      rfl
    · show (s.firstHeight.or (some found.height)) = _
      rw [hfirst, hk]
      cases hs <;> rfl
    · show some found.height = _
      rw [List.getLast?_concat, hk]
      rfl
  case noteIds =>
    rw [hids]
    exact h.noteIds.trans (List.prefix_append _ _)
  case notesReceived =>
    rw [hids, List.length_append, h.notesReceived, hnew, Nat.add_assoc]
    rfl
  case spentIds => exact List.Subset.trans h.spentIds hgrows.spentIds
  case notesSpent =>
    rw [hgrows.spends, h.notesSpent, Nat.add_assoc]
    rfl

/-- The heights that a report is about follow those of the first wallet. -/
theorem Accounted.heights_eq (h : Accounted before w s) :
    w.heights = before.heights ++ added before.heights w.heights := by
  obtain ⟨hs, hheights, -⟩ := h.heights
  have hnodup := w.nodup_heights
  rw [hheights] at hnodup ⊢
  rw [added_append hnodup]

/-- Where nothing was taken away, what there is more is what was added. -/
theorem Accounted.tells (h : Accounted before w s) (hbefore : before.Coherent) :
    Tells before w s := by
  obtain ⟨hs, hheights, hcount, hfirst, hlast⟩ := h.heights
  have hadded : added before.heights w.heights = hs :=
    List.append_cancel_left (h.heights_eq.symm.trans hheights)
  have hsorted : hs.Pairwise (· < ·) := by
    have hall := w.sorted_heights
    rw [hheights] at hall
    exact (List.pairwise_append.1 hall).2.1
  have hmin : hs.min? = hs.head? :=
    List.min?_eq_head? (hsorted.imp fun hlt => Int.min_eq_left (Int.le_of_lt hlt))
  have hids := length_added hbefore.nodup_noteIds h.coherent.nodup_noteIds h.noteIds.subset
  have hspent := length_added hbefore.nodup_spentIds h.coherent.nodup_spentIds h.spentIds
  have hreceived := h.notesReceived
  have hmarked := h.notesSpent
  constructor
  case blocksScanned => rw [hadded, hcount]
  case firstHeight => rw [hadded, hmin, hfirst]
  case lastHeight => rw [hadded, max?_of_sorted hsorted, hlast]
  case notesReceived => omega
  case notesSpent => omega

end

/-- A step that succeeds has recorded a block, and told its caller about it. -/
theorem grows_of_step {setup : ScanSetup τ} {keys : List AccountKey} {p q : Point} {b : Block}
    {st st' : SyncState τ} (haside : Aside setup.hooks) (hw : st.wallet.content.Coherent)
    (hword : b.HasWordHeight) (h : step setup keys p b st = .ok q st') :
    st'.wallet.AtRest ∧ (∃ found, q = p.advance found ∧
      Wallet.Grows found st.wallet.content st'.wallet.content) ∧
    ∀ log, Logs setup.hooks log → log st'.host = log st.host ++ [(q.progress, st'.wallet)] := by
  obtain ⟨found, store, console, hinspect, hcommit, hprogress, rfl⟩ := of_step_eq_ok h
  obtain ⟨k, hk, hlt⟩ := hword
  have hblock := (inspect_eq_ok.1 hinspect).2
  have hheight : found.height = .int (k : Int) := (identity_of_block hblock).1.trans hk
  obtain ⟨hrecord, hrest, -⟩ := WalletStore.record_of_commitBlock hcommit
  have hwallet : st'.wallet = store := haside.of_ok hprogress
  have hrec : Wallet.Recorded found k st.wallet.content store.content :=
    Wallet.recorded_of_record (by rw [hheight]; rfl) hrecord
  rw [hwallet]
  refine ⟨hrest, ⟨found, rfl, ?_⟩, fun log hlogs => hlogs _ _ _ hprogress⟩
  exact hrec.grows hw hheight (natAbs_le_maxSafe_of_word hlt) (matched_block hblock)

/-! ## All blocks -/

/-- An entry of the log: the wallet stood at rest behind `n` blocks, and the caller was told the
totals up to there. -/
structure LogEntry (before after : Wallet) (n : Nat) (entry : ScanProgress × WalletStore) :
    Prop where
  committed : entry.2.AtRest
  heights : entry.2.content.heights <+: after.heights
  totals : ∃ p : Point, entry.1 = p.progress ∧ p.summary.blocksScanned = n ∧
    p.summary.lastHeight = some p.height ∧ Accounted before entry.2.content p.summary

section

variable {setup : ScanSetup τ} {keys : List AccountKey} {stop : Option Failure} {p : Point}
  {bs : List Block} {st st' : SyncState τ} {before : Wallet} {summary : ScanSummary}

theorem accounted_of_steps (haside : Aside setup.hooks)
    (h : steps setup keys stop p bs st = .ok summary st') (hword : ∀ b ∈ bs, b.HasWordHeight)
    (haccounted : Accounted before st.wallet.content p.summary) :
    Accounted before st'.wallet.content summary ∧
      (summary.aborted = true → p.summary.aborted = true ∨ (setup.hooks.stops st'.host = true ∧
        summary.blocksScanned < p.summary.blocksScanned + bs.length)) := by
  refine steps_induction (P := fun p bs st => (∀ b ∈ bs, b.HasWordHeight) →
    Accounted before st.wallet.content p.summary → Accounted before st'.wallet.content summary ∧
      (summary.aborted = true → p.summary.aborted = true ∨ (setup.hooks.stops st'.host = true ∧
        summary.blocksScanned < p.summary.blocksScanned + bs.length))) ?_ ?_ ?_ h hword haccounted
  · rintro p rfl - haccounted
    exact ⟨haccounted, Or.inl⟩
  · -- the caller asks to stop in front of a block
    rintro p b bs hstops rfl - haccounted
    refine ⟨{ haccounted with }, fun _ => Or.inr ⟨hstops, ?_⟩⟩
    exact Nat.lt_add_of_pos_right (Nat.succ_pos _)
  · intro p q b bs st st1 hstep ih hword haccounted
    obtain ⟨hb, hbs⟩ := List.forall_mem_cons.1 hword
    obtain ⟨-, ⟨found, rfl, hgrows⟩, -⟩ := grows_of_step haside haccounted.coherent hb hstep
    obtain ⟨hfinal, haborted⟩ := ih hbs (haccounted.withBlock hgrows)
    refine ⟨hfinal, fun hflag => (haborted hflag).imp_right fun hstopped => ⟨hstopped.1, ?_⟩⟩
    have hlt := hstopped.2
    rw [blocksScanned_advance] at hlt
    rw [List.length_cons]
    omega

/-- A scan tells its caller about the blocks one by one. -/
theorem entries_of_steps (haside : Aside setup.hooks)
    {log : τ → List (ScanProgress × WalletStore)} (hlogs : Logs setup.hooks log)
    (h : steps setup keys stop p bs st = .ok summary st') (hword : ∀ b ∈ bs, b.HasWordHeight)
    (haccounted : Accounted before st.wallet.content p.summary) :
    st.wallet.content.heights <+: st'.wallet.content.heights ∧
    ∃ entries, log st'.host = log st.host ++ entries ∧
      summary.blocksScanned = p.summary.blocksScanned + entries.length ∧
      ∀ i (hi : i < entries.length),
        LogEntry before st'.wallet.content (p.summary.blocksScanned + i + 1) entries[i] := by
  have hnone (n : Nat) : ∃ entries, log st'.host = log st'.host ++ entries ∧
      n = n + entries.length ∧ ∀ i (hi : i < entries.length),
        LogEntry before st'.wallet.content (n + i + 1) entries[i] :=
    ⟨[], (List.append_nil _).symm, rfl, fun i hi => absurd hi (Nat.not_lt_zero i)⟩
  refine steps_induction (P := fun p bs st => (∀ b ∈ bs, b.HasWordHeight) →
    Accounted before st.wallet.content p.summary →
      st.wallet.content.heights <+: st'.wallet.content.heights ∧
      ∃ entries, log st'.host = log st.host ++ entries ∧
        summary.blocksScanned = p.summary.blocksScanned + entries.length ∧
        ∀ i (hi : i < entries.length),
          LogEntry before st'.wallet.content (p.summary.blocksScanned + i + 1) entries[i])
    ?_ ?_ ?_ h hword haccounted
  · rintro p rfl - -
    exact ⟨List.prefix_refl _, hnone _⟩
  · rintro p b bs - rfl - -
    exact ⟨List.prefix_refl _, hnone _⟩
  · intro p q b bs st st1 hstep ih hword haccounted
    obtain ⟨hb, hbs⟩ := List.forall_mem_cons.1 hword
    obtain ⟨hrest, ⟨found, rfl, hgrows⟩, htold⟩ := grows_of_step haside haccounted.coherent hb hstep
    have hnext := haccounted.withBlock hgrows
    obtain ⟨hbegins, entries, hlog, hcount, hentries⟩ := ih hbs hnext
    have hfirst : st.wallet.content.heights <+: st1.wallet.content.heights := by
      obtain ⟨k, -, hheights⟩ := hgrows.heights
      rw [hheights]
      exact List.prefix_append _ _
    refine ⟨hfirst.trans hbegins, ((p.advance found).progress, st1.wallet) :: entries, ?_, ?_,
      fun i hi => ?_⟩
    · rw [hlog, htold log hlogs, List.append_assoc, List.singleton_append]
    · rw [hcount, blocksScanned_advance, List.length_cons]
      omega
    · cases i with
      | zero => exact ⟨hrest, hbegins, p.advance found, rfl, rfl, rfl, hnext⟩
      | succ i =>
          have hentry := hentries i (Nat.lt_of_succ_lt_succ hi)
          rwa [blocksScanned_advance, Nat.add_right_comm _ 1 i] at hentry

/-- What is in the log is what happened. -/
theorem LogEntry.notified {after : Wallet} {i : Nat} {entry : ScanProgress × WalletStore}
    (h : LogEntry before after (i + 1) entry) (hbefore : before.Coherent)
    (hafter : Accounted before after summary) : Notified before after i entry.1 entry.2 := by
  obtain ⟨p, hreport, hcount, hlast, haccounted⟩ := h.totals
  have hbegins := h.heights
  have htells := haccounted.tells hbefore
  rw [hreport]
  constructor
  case committed => exact h.committed
  case heights =>
    rw [haccounted.heights_eq, hafter.heights_eq, List.prefix_append_right_inj] at hbegins
    rw [← hcount, htells.blocksScanned]
    exact List.prefix_iff_eq_take.1 hbegins
  case height => rw [← htells.lastHeight, hlast]; rfl
  case blocksScanned => exact hcount
  case notesReceived => exact htells.notesReceived
  case notesSpent => exact htells.notesSpent

end

/-! ## From the cache -/

open WalletStore (Reachable)

section

variable {setup : ScanSetup τ} {keys : List AccountKey} {stop : Option Failure} {p : Point}
  {bs : List Block} {st st' : SyncState τ} {summary : ScanSummary}
  {offers : List (WalletStore × ScannedBlock)}
  {result : EStateM.Result Failure (SyncState τ) ScanSummary}

/-- However a scan ends, all that it does to a wallet is to commit blocks. -/
theorem reachable_of_course (haside : Aside setup.hooks)
    (hcourse : Course setup keys stop p bs st offers result) (hbs : ∀ b ∈ bs, b.HasWordHeight)
    (hst : Reachable st.wallet) : Reachable (Action.stateOf result).wallet := by
  have hcommit {p : Point} {b : Block} {s : WalletStore} {found : ScannedBlock}
      (hword : b.HasWordHeight) (hs : Reachable s)
      (hinspect : inspect setup.reader keys s.content p b = .ok found) :
      Reachable ((WalletStore.commitBlock found).after s) := by
    obtain ⟨k, hk, hlt⟩ := hword
    have hheight := (identity_of_block (inspect_eq_ok.1 hinspect).2).1.trans hk
    refine hs.commit found ?_
    rw [hheight, Number.toSafeInt?_eq_some.2 ⟨rfl, natAbs_le_maxSafe_of_word hlt⟩]
    rfl
  induction hcourse with
  | complete => exact hst
  | halted => exact hst
  | stopped => exact hst
  | misfit => exact hst
  | refused hinspect hrefused =>
      have hstore := hcommit (hbs _ List.mem_cons_self) hst hinspect
      rwa [Action.after_of_error hrefused] at hstore
  | @interrupted p b rest s s' found store console report e hinspect hok hprogress =>
      have hstore := hcommit (hbs _ List.mem_cons_self) hst hinspect
      rw [Action.after_of_ok hok] at hstore
      have hwallet : s'.wallet = store := haside.of_error hprogress
      exact hwallet ▸ hstore
  | @next p b rest s s' found store console report offers result hinspect hok hprogress _ ih =>
      have hstore := hcommit (hbs _ List.mem_cons_self) hst hinspect
      rw [Action.after_of_ok hok] at hstore
      have hwallet : s'.wallet = store := haside.of_ok hprogress
      exact ih (fun c hc => hbs c (List.mem_cons_of_mem b hc)) (hwallet ▸ hstore)

/-- A wallet that is filled by scanning is one that is reached by committing blocks. -/
theorem reachable_of_run (haside : Aside setup.hooks) (h : Reachable st.wallet) :
    Reachable ((run setup).after st).wallet := by
  obtain ⟨act, s, close, hwallet, hcourse, hrun⟩ := course_of_run setup st
  have hafter : ((run setup).after st).wallet = (act.after s).wallet := by
    rw [Action.after_eq_stateOf, hrun, ← Action.after_eq_stateOf, Action.after_ensuring]
  rw [hafter, Action.after_eq_stateOf]
  exact reachable_of_course haside hcourse (fun b hb => (inRange_of_mem_pending hb).1)
    (hwallet ▸ h)

/-- **The report of a scan is what happened to the wallet.** It counts the checkpoints that were
added, with the lowest and the highest of their heights, the notes that were added, and the notes
that are marked as spent and were not, or were not there. After every block the caller is told the
same of the blocks up to there, when they are committed. The scan is only said to be aborted when
the caller asked for it in front of another block. -/
theorem reported_of_run (haside : Aside setup.hooks) (hwallet : Reachable st.wallet)
    (h : run setup st = .ok summary st') : Reported setup st summary st' := by
  have hcoherent := (WalletStore.settled_of_reachable hwallet).coherent
  have hword : ∀ b ∈ pending setup st, b.HasWordHeight := fun b hb => (inRange_of_mem_pending hb).1
  rw [run_eq] at h
  obtain ⟨c, s, c', hsteps, rfl⟩ := SyncState.of_traverse_eq_ok h
  have hstart : Accounted st.wallet.content st.wallet.content
      (startOf setup.activation st.wallet.content).summary := by
    rw [summary_startOf]
    exact accounted_start hcoherent
  obtain ⟨haccounted, haborted⟩ := accounted_of_steps haside hsteps hword hstart
  rw [summary_startOf] at haborted
  constructor
  case tells => exact haccounted.tells hcoherent
  case aborted =>
    intro hflag
    obtain ⟨hstops, hlt⟩ := (haborted hflag).resolve_left Bool.false_ne_true
    exact ⟨hstops, Nat.lt_of_lt_of_eq hlt (Nat.zero_add _)⟩
  case notified =>
    intro log hlogs
    obtain ⟨-, entries, hlog, hcount, hentries⟩ :=
      entries_of_steps haside hlogs hsteps hword hstart
    rw [summary_startOf] at hcount hentries
    refine ⟨entries, hlog, hcount.trans (Nat.zero_add _) |>.symm, fun i hi => ?_⟩
    have hentry := hentries i hi
    rw [show emptySummary.blocksScanned = 0 from rfl, Nat.zero_add] at hentry
    exact hentry.notified hcoherent haccounted

end

/-! ### A scan that is stopped -/

/-- The caller keeps a log, and has the scan stopped when there are two entries in it. -/
def loggedScan : ScanSetup (List (ScanProgress × WalletStore)) where
  reader := .ofList [⟨[1], ⟨0, 5, none, [9]⟩⟩, ⟨[2], ⟨0, 7, none, [8]⟩⟩]
  activation := 50
  limit := none
  verbose := false
  hooks :=
    { stops := fun log => log.length == 2
      progress := fun report st => .ok () { st with host := st.host ++ [(report, st.wallet)] } }

/-- The second of three blocks spends the note of the first, and has one that it spends itself. -/
def loggedState : SyncState (List (ScanProgress × WalletStore)) where
  cache := Cache.inMemory
    ⟨[rowOf (linkedBlock 50 1 0 [⟨0, [1], 0, [], [⟨[1], [2], [3]⟩], []⟩]),
      rowOf (linkedBlock 51 2 1 [⟨0, [2], 0, [[9]], [⟨[2], [2], [3]⟩], []⟩,
        ⟨1, [3], 0, [[8]], [], []⟩]),
      rowOf (linkedBlock 52 3 2 [])], by decide +kernel⟩
  wallet := (WalletStore.addAccount 0 [1]).after (Database.connect Wallet.empty .memory)
  active := none
  console := []
  host := []

/-- The same without a stop, for what the first scan leaves. -/
def loggedRest : ScanSetup (List (ScanProgress × WalletStore)) :=
  { loggedScan with hooks := { loggedScan.hooks with stops := fun _ => false } }

theorem reported_of_run_logged : ∃ st' st'',
    Aside loggedScan.hooks ∧ Reachable loggedState.wallet ∧ Logs loggedScan.hooks id ∧
    run loggedScan loggedState = .ok ⟨2, some 50, some 51, 2, 2, true⟩ st' ∧
    Reported loggedScan loggedState ⟨2, some 50, some 51, 2, 2, true⟩ st' ∧
    run loggedRest st' = .ok ⟨1, some 52, some 52, 0, 0, false⟩ st'' ∧
    Reported loggedRest st' ⟨1, some 52, some 52, 0, 0, false⟩ st'' := by
  have hsummary : (run loggedScan).value? loggedState =
      some ⟨2, some 50, some 51, 2, 2, true⟩ := by decide +kernel
  obtain ⟨st', h⟩ := Action.value?_eq_some.1 hsummary
  have haside : Aside loggedScan.hooks := ⟨fun _ _ => rfl, fun _ _ => rfl⟩
  have hlogs : Logs loggedScan.hooks id := by
    intro report st st' h
    cases h
    rfl
  have hwallet : Reachable loggedState.wallet := (Reachable.fresh .memory).addAccount 0 [1]
  -- The second scan begins with what the first one left.
  have hafter : (run loggedScan).after loggedState = st' := Action.after_of_ok h
  have hrest : (run loggedRest).value? ((run loggedScan).after loggedState) =
      some ⟨1, some 52, some 52, 0, 0, false⟩ := by decide +kernel
  rw [hafter] at hrest
  obtain ⟨st'', h'⟩ := Action.value?_eq_some.1 hrest
  have haside' : Aside loggedRest.hooks := ⟨fun _ _ => rfl, fun _ _ => rfl⟩
  have hwallet' : Reachable st'.wallet := hafter ▸ reachable_of_run haside hwallet
  exact ⟨st', st'', haside, hwallet, hlogs, h, reported_of_run haside hwallet h, h',
    reported_of_run haside' hwallet' h'⟩

end Scan
end LightSync
