import LightSync.Proofs.Sync.Congruence
import LightSync.Proofs.Sync.Session

/-!
# One operation at a time

While a scan or a synchronization is at work its caller is told about every block, and may ask for
other operations then. A caller is a script (`Script`): it works on what it likes except for the
synchronizer, makes calls, and goes on as it sees fit with what came of each. Every call is refused
and does nothing (`Script.parallel_run`), so that a caller that does not let the refusals out might
as well not have called. However an operation ends, the next one is admitted.
-/

set_option autoImplicit false

namespace LightSync
namespace Synchronizer

open LightSync.Action (Parallel)

variable {τ α β : Type} {s : Synchronizer}

theorem isBusy_eq_false {st : SyncState τ} : isBusy st = false ↔ st.active = none :=
  Option.isSome_eq_false_iff.trans Option.isNone_iff_eq_none

/-! ## Requests -/

/-- An operation that is asked for. -/
inductive Request (τ : Type) where
  | scan (limit : Option Number) (hooks : ScanHooks τ)
  | rewind (height : Number)
  | sync (hooks : ScanHooks τ)

/-- What an operation returns. -/
inductive Answer where
  | scanned (summary : ScanSummary)
  | rewound (report : RewindReport)
  | synced (outcome : SyncOutcome)

namespace Request

def operation : Request τ → String
  | .scan _ _ => "scan"
  | .rewind _ => "rewind"
  | .sync _ => "sync"

/-- Asks for the operation. -/
def perform (s : Synchronizer) : Request τ → Action (SyncState τ) Answer
  | .scan limit hooks => do return .scanned (← s.scan limit hooks)
  | .rewind height => do return .rewound (← s.rewind height)
  | .sync hooks => do return .synced (← s.sync hooks)

/-- What is done once the operation is admitted. -/
def work (s : Synchronizer) : Request τ → Action (SyncState τ) Answer
  | .scan limit hooks => do return .scanned (← s.scanNow (limit.or s.policy.scanLimit) hooks)
  | .rewind height => do return .rewound (← s.rewindNow height)
  | .sync hooks => do return .synced (← s.recovering (s.checkAndScan hooks))

end Request

/-- What is returned does not matter to the exclusion. -/
theorem exclusive_map (operation : String) (act : Action (SyncState τ) α) (f : α → β) :
    (do return f (← exclusive operation act)) = exclusive operation (do return f (← act)) := by
  funext st
  rw [Action.bind_apply]
  cases hactive : st.active with
  | some other => rw [of_exclusive_busy hactive, of_exclusive_busy hactive]
  | none =>
      rw [exclusive_of_idle hactive, exclusive_of_idle hactive, Action.ensuring, Action.ensuring,
        Action.bind_apply]
      cases act { st with active := some operation } <;> rfl

/-- Every operation is exclusive. -/
theorem Request.perform_eq (s : Synchronizer) (request : Request τ) :
    request.perform s = exclusive request.operation (request.work s) := by
  cases request <;> exact exclusive_map _ _ _

theorem Request.perform_of_busy (request : Request τ) {st : SyncState τ} {other : String}
    (h : st.active = some other) :
    request.perform s st = .error (.busy request.operation) st := by
  rw [perform_eq, of_exclusive_busy h]

theorem Request.perform_of_idle (request : Request τ) {st : SyncState τ} (h : st.active = none) :
    request.perform s st = (request.work s).ensuring (fun st => { st with active := none })
      { st with active := some request.operation } := by
  rw [perform_eq, exclusive_of_idle h]

/-- However an operation ends, none is at work afterwards. -/
theorem Request.active_after_perform (request : Request τ) {st : SyncState τ}
    (h : st.active = none) : ((request.perform s).after st).active = none := by
  rw [Request.perform_eq, after_exclusive_of_idle h]

/-! ## Scripts -/

/-- What a caller does when it is told about a block. It fails or is done in the end; before that
it works on its own, without touching the lock of the synchronizer, and asks for operations, and
what came of either decides about the rest. -/
inductive Script (τ : Type) where
  | done
  | fail (e : Failure)
  | own (act : Action (SyncState τ) Unit) (aside : ∀ st, (act.after st).active = st.active)
      (next : EStateM.Result Failure (SyncState τ) Unit → Script τ)
  | call (request : Request τ) (next : EStateM.Result Failure (SyncState τ) Answer → Script τ)

namespace Script

/-- Follows the script. -/
def run (s : Synchronizer) : Script τ → Action (SyncState τ) Unit
  | .done => return ()
  | .fail e => throw e
  | .own act _ next => fun st => (next (act st)).run s (act.after st)
  | .call request next => fun st =>
      (next (request.perform s st)).run s ((request.perform s).after st)

/-- Follows the script as if every call were refused: it is told that an operation is at work, and
the call did nothing. -/
def refused : Script τ → Action (SyncState τ) Unit
  | .done => return ()
  | .fail e => throw e
  | .own act _ next => fun st => (next (act st)).refused (act.after st)
  | .call request next => fun st => (next (.error (.busy request.operation) st)).refused st

/-- While an operation is at work every call of a script is refused. -/
theorem parallel_run (script : Script τ) (operation : String) :
    Parallel (fun st st' => st = st' ∧ st.active = some operation) (script.run s)
      script.refused := by
  -- the lock is still held after own work and after a call, so that the next call is refused too
  induction script with
  | done => exact Parallel.pure ()
  | fail e => exact Parallel.throw e
  | own act aside next ih =>
      rintro st _ ⟨rfl, hactive⟩
      exact ih (act st) _ _ ⟨rfl, (aside st).trans hactive⟩
  | call request next ih =>
      rintro st _ ⟨rfl, hactive⟩
      have hbusy := request.perform_of_busy (s := s) hactive
      show Action.Alike _ ((next (request.perform s st)).run s ((request.perform s).after st)) _
      rw [Action.after_of_error hbusy, hbusy]
      exact ih _ _ _ ⟨rfl, hactive⟩

/-- The first script makes calls that the second does not make, and goes on like the second when
they are refused. -/
inductive Swallows : Script τ → Script τ → Prop where
  | done : Swallows .done .done
  | fail (e : Failure) : Swallows (.fail e) (.fail e)
  | own (act : Action (SyncState τ) Unit) (aside : ∀ st, (act.after st).active = st.active)
      {next plain : EStateM.Result Failure (SyncState τ) Unit → Script τ}
      (h : ∀ result, Swallows (next result) (plain result)) :
      Swallows (.own act aside next) (.own act aside plain)
  | call (request : Request τ) {next : EStateM.Result Failure (SyncState τ) Answer → Script τ}
      {plain : Script τ} (h : ∀ st, Swallows (next (.error (.busy request.operation) st)) plain) :
      Swallows (.call request next) plain

variable {script plain : Script τ}

/-- Calls that are swallowed make no difference when they are refused. -/
theorem Swallows.refused_eq (h : Swallows script plain) : script.refused = plain.refused := by
  induction h with
  | done => rfl
  | fail e => rfl
  | own act aside _ ih =>
      funext st
      exact congrFun (ih (act st)) (act.after st)
  | call request _ ih =>
      funext st
      exact congrFun (ih st) st

/-- The second script makes no call at all. -/
theorem Swallows.refused_plain (s : Synchronizer) (h : Swallows script plain) :
    plain.refused = plain.run s := by
  induction h with
  | done => rfl
  | fail e => rfl
  | own act aside _ ih =>
      funext st
      exact congrFun (ih (act st)) (act.after st)
  | call request _ ih =>
      funext st
      exact congrFun (ih st) st

end Script

/-! ## Operations at work -/

/-- A scan does not tell a state from itself. -/
theorem congruence_atWork (operation : String) :
    SyncState.Congruence fun st st' : SyncState τ => st = st' ∧ st.active = some operation where
  blocks := by
    rintro st _ ⟨rfl, -⟩
    exact fun _ _ => rfl
  wallet h := congrArg _ h.1
  host h := congrArg _ h.1
  openCursor := by
    rintro st _ ⟨rfl, h⟩
    exact ⟨rfl, h⟩
  closeCursor := by
    rintro st _ ⟨rfl, h⟩
    exact ⟨rfl, h⟩
  withWallet := by
    rintro st _ ⟨rfl, h⟩
    exact fun _ => ⟨rfl, h⟩
  written := by
    rintro st _ ⟨rfl, h⟩
    exact fun _ => ⟨rfl, h⟩

theorem exclusive_congr {operation : String} {act act' : Action (SyncState τ) α}
    (h : ∀ st, st.active = some operation → act st = act' st) (st : SyncState τ) :
    exclusive operation act st = exclusive operation act' st := by
  cases hactive : st.active with
  | some other => rw [of_exclusive_busy hactive, of_exclusive_busy hactive]
  | none =>
      rw [exclusive_of_idle hactive, exclusive_of_idle hactive, Action.ensuring, Action.ensuring,
        h _ rfl]

section

variable (s) (stops : τ → Bool) (script : ScanProgress → Script τ)

/-- A scan whose caller asks for operations is one whose caller is refused. -/
theorem scan_eq_refused (limit : Option Number) (st : SyncState τ) :
    s.scan limit ⟨stops, fun report => (script report).run s⟩ st =
      s.scan limit ⟨stops, fun report => (script report).refused⟩ st := by
  have hscan : Parallel (fun st st' => st = st' ∧ st.active = some "scan")
      (s.scanNow (limit.or s.policy.scanLimit) ⟨stops, fun report => (script report).run s⟩)
      (s.scanNow (limit.or s.policy.scanLimit) ⟨stops, fun report => (script report).refused⟩) :=
    (congruence_atWork "scan").scanNow (fun report => (script report).parallel_run _) s _ stops
  exact exclusive_congr (fun _ hactive => hscan.apply_eq hactive) st

theorem sync_eq_refused (st : SyncState τ) :
    s.sync ⟨stops, fun report => (script report).run s⟩ st =
      s.sync ⟨stops, fun report => (script report).refused⟩ st := by
  have hscan : Parallel (fun st st' => st = st' ∧ st.active = some "sync")
      (s.checkAndScan ⟨stops, fun report => (script report).run s⟩)
      (s.checkAndScan ⟨stops, fun report => (script report).refused⟩) :=
    (congruence_atWork "sync").checkAndScan (fun report => (script report).parallel_run _) s stops
  refine exclusive_congr (fun st hactive => ?_) st
  unfold recovering
  rw [hscan.apply_eq hactive]

end

/-- **One operation at a time.** An operation that is asked for while one is at work is refused by
its name, and nothing happens. So whatever the caller of a scan or of a synchronization asks for
after the blocks, in any order and as often as it likes, the operation goes on as if each of the
calls had been refused in place; and if the caller does not let the refusals out, the result and
the state at the end are those without the calls. However an operation ends that began when none
was at work, none is at work afterwards, and the next one is admitted. -/
theorem operations_exclusive (s : Synchronizer) :
    (∀ (request : Request τ) (st : SyncState τ), isBusy st = true →
      request.perform s st = .error (.busy request.operation) st) ∧
    (∀ (stops : τ → Bool) (script : ScanProgress → Script τ) (st : SyncState τ),
      (∀ limit, s.scan limit ⟨stops, fun report => (script report).run s⟩ st =
        s.scan limit ⟨stops, fun report => (script report).refused⟩ st) ∧
      s.sync ⟨stops, fun report => (script report).run s⟩ st =
        s.sync ⟨stops, fun report => (script report).refused⟩ st) ∧
    (∀ (stops : τ → Bool) (script plain : ScanProgress → Script τ) (st : SyncState τ),
      (∀ report, (script report).Swallows (plain report)) →
      (∀ limit, s.scan limit ⟨stops, fun report => (script report).run s⟩ st =
        s.scan limit ⟨stops, fun report => (plain report).run s⟩ st) ∧
      s.sync ⟨stops, fun report => (script report).run s⟩ st =
        s.sync ⟨stops, fun report => (plain report).run s⟩ st) ∧
    ∀ (request : Request τ) (st : SyncState τ), isBusy st = false →
      isBusy ((request.perform s).after st) = false ∧
      ∀ next : Request τ, next.perform s ((request.perform s).after st) =
        (next.work s).ensuring (fun st => { st with active := none })
          { (request.perform s).after st with active := some next.operation } := by
  refine ⟨?_, ?_, ?_, ?_⟩
  · intro request st hbusy
    obtain ⟨other, hother⟩ := Option.isSome_iff_exists.1 hbusy
    exact request.perform_of_busy hother
  · intro stops script st
    exact ⟨fun limit => scan_eq_refused s stops script limit st,
      sync_eq_refused s stops script st⟩
  · intro stops script plain st hswallows
    have hrefused : (fun report => (script report).refused) =
        fun report => (plain report).run s :=
      funext fun report =>
        (hswallows report).refused_eq.trans ((hswallows report).refused_plain s)
    refine ⟨fun limit => ?_, ?_⟩
    · rw [scan_eq_refused, hrefused]
    · rw [sync_eq_refused, hrefused]
  · intro request st hidle
    have hactive : ((request.perform s).after st).active = none :=
      request.active_after_perform (isBusy_eq_false.1 hidle)
    exact ⟨isBusy_eq_false.2 hactive, fun next => next.perform_of_idle hactive⟩

/-- A caller that asks for everything after each block and does not let the refusals out. -/
def insistent : Script Unit :=
  .call (.scan none ScanHooks.none) fun _ => .call (.rewind 50) fun _ =>
    .call (.sync ScanHooks.none) fun _ => .done

/-- Two blocks that were not scanned yet. -/
def unscannedPair : SyncState Unit :=
  SyncState.idle (Cache.inMemory (Keyed.empty.insertAll
    ([linkedBlock 50 1 0 [], linkedBlock 51 2 1 []].map rowOf))) (Wallet.unscanned Keyed.empty)

theorem operations_exclusive_insistent :
    let s := fromFifty (.ofList [])
    let hooks : ScanHooks Unit := ⟨fun _ => false, fun _ => insistent.run s⟩
    let working : SyncState Unit := { unscannedPair with active := some "sync" }
    (isBusy working = true ∧
      (Request.rewind 50).perform s working = .error (.busy "rewind") working) ∧
    (insistent.Swallows .done ∧
      s.sync hooks unscannedPair = s.sync ⟨hooks.stops, fun _ => return ()⟩ unscannedPair ∧
      (s.sync hooks).value? unscannedPair =
        some (.scanned ⟨2, some 50, some 51, 0, 0, false⟩)) ∧
    isBusy unscannedPair = false ∧
      isBusy (((Request.sync hooks).perform s).after unscannedPair) = false := by
  intro s hooks working
  have hswallows : insistent.Swallows .done := .call _ fun _ => .call _ fun _ => .call _ fun _ => .done
  obtain ⟨hrefuses, -, hsame, hfree⟩ := operations_exclusive (τ := Unit) s
  exact ⟨⟨rfl, hrefuses (.rewind 50) working rfl⟩,
    ⟨hswallows, (hsame (fun _ => false) (fun _ => insistent) (fun _ => .done) unscannedPair
      fun _ => hswallows).2, by decide +kernel⟩,
    rfl, (hfree (.sync hooks) unscannedPair rfl).1⟩

end Synchronizer
end LightSync
