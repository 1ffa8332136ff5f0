import LightSync.Proofs.Action.Parallel
import LightSync.Proofs.Scan.Steps
import LightSync.Sync.Synchronizer

/-!
# Relations that a scan respects

A relation on the states of a synchronization is a congruence when checking and scanning cannot
tell related states apart: they have the same wallet and the same host and hand out the same
blocks, and what happens to both of them leaves them related. Checks and scans run alike on states
that a congruence relates, for callers that run alike on them (`Congruence.checkLinks`,
`Congruence.scanNow`).
-/

set_option autoImplicit false

namespace LightSync

open LightSync.Action (Parallel)

namespace SyncState

variable {τ α : Type} {R : SyncState τ → SyncState τ → Prop}

/-- Related states look the same to a scan, and stay related under what a scan does. -/
structure Congruence (R : SyncState τ → SyncState τ → Prop) : Prop where
  blocks : ∀ {st st'}, R st st' →
    ∀ last limit, st.cache.blocks last limit = st'.cache.blocks last limit
  wallet : ∀ {st st'}, R st st' → st.wallet = st'.wallet
  host : ∀ {st st'}, R st st' → st.host = st'.host
  openCursor : ∀ {st st'}, R st st' →
    R { st with cache := st.cache.openCursor } { st' with cache := st'.cache.openCursor }
  closeCursor : ∀ {st st'}, R st st' →
    R { st with cache := st.cache.closeCursor } { st' with cache := st'.cache.closeCursor }
  withWallet : ∀ {st st'}, R st st' → ∀ wallet, R { st with wallet } { st' with wallet }
  written : ∀ {st st'}, R st st' → ∀ lines,
    R { st with console := st.console ++ lines } { st' with console := st'.console ++ lines }

namespace Congruence

variable (hR : Congruence R)
include hR

theorem onWallet (act : Action WalletStore α) :
    Parallel R (SyncState.onWallet act) (SyncState.onWallet act) := by
  intro st st' h
  unfold SyncState.onWallet Action.within
  dsimp only
  rw [hR.wallet h]
  cases act st'.wallet with
  | ok a wallet => exact .ok a (hR.withWallet h wallet)
  | error e wallet => exact .error e (hR.withWallet h wallet)

theorem write (scope : Console.Scope) (level : Console.Level) (message : String)
    (details : Option Detail) :
    Parallel R (SyncState.write scope level message details)
      (SyncState.write scope level message details) :=
  fun _ _ h => .ok () (hR.written h _)

/-- A traversal runs alike if what is done with the blocks does. -/
theorem traverse (last limit : Option Number) {act act' : Walk Block → Action (SyncState τ) α}
    (hact : ∀ walk, Parallel R (act walk) (act' walk)) :
    Parallel R (SyncState.traverse last limit act) (SyncState.traverse last limit act') := by
  intro st st' h
  unfold SyncState.traverse Cache.traverse Cache.during
  dsimp only
  rw [hR.blocks h]
  split
  · exact hact _ st st' h
  · -- the cursor is closed on both, however the traversal ends
    exact (hact _).ensuring (fun _ _ => hR.closeCursor) _ _ (hR.openCursor h)

/-! ## Checking and scanning -/

theorem checkLinks (tip : Option ChainTip) :
    Parallel R (Synchronizer.checkLinks tip) (Synchronizer.checkLinks tip) :=
  hR.traverse _ _ fun walk => Parallel.ofExcept (Links.check tip walk)

theorem validate : Parallel R Synchronizer.validate Synchronizer.validate := by
  intro st st' h
  show Action.Alike R (Synchronizer.checkLinks st.wallet.content.chainTip? st)
    (Synchronizer.checkLinks st'.wallet.content.chainTip? st')
  rw [hR.wallet h]
  exact hR.checkLinks _ st st' h

variable {setup : ScanSetup τ} {hooks : ScanHooks τ}

theorem announce (b : ScannedBlock) :
    Parallel R (Scan.announce setup b) (Scan.announce { setup with hooks } b) := by
  unfold Scan.announce
  split
  · exact Parallel.pure ()
  · exact hR.write _ _ _ _

section

variable (hprogress : ∀ report,
  Parallel R (setup.hooks.progress report) (hooks.progress report))
include hprogress

theorem step (keys : List AccountKey) (p : Scan.Point) (b : Block) :
    Parallel R (Scan.step setup keys p b) (Scan.step { setup with hooks } keys p b) := by
  refine (hR.onWallet _).bind fun scanned => ?_
  refine (hR.onWallet _).bind fun _ => ?_
  refine (hR.announce scanned).bind fun _ => ?_
  exact (hprogress _).bind fun _ => Parallel.pure _

variable (hstops : hooks.stops = setup.hooks.stops)
include hstops

theorem steps (keys : List AccountKey) (stop : Option Failure) (p : Scan.Point) (bs : List Block) :
    Parallel R (Scan.steps setup keys stop p bs)
      (Scan.steps { setup with hooks } keys stop p bs) := by
  induction bs generalizing p with
  | nil =>
      cases stop with
      | none => exact Parallel.pure _
      | some e => exact Parallel.throw e
  | cons b bs ih =>
      intro st st' h
      rw [Scan.steps_cons, Scan.steps_cons, hstops, hR.host h]
      split
      · exact .ok _ h
      · exact ((hR.step hprogress keys p b).bind ih) st st' h

theorem run : Parallel R (Scan.run setup) (Scan.run { setup with hooks }) := by
  intro st st' h
  rw [Scan.run_eq, Scan.run_eq, hR.wallet h]
  exact hR.traverse _ _ (fun walk => hR.steps hprogress hstops _ _ _ _) st st' h

end

section

variable {progress progress' : ScanProgress → Action (SyncState τ) Unit}
  (hprogress : ∀ report, Parallel R (progress report) (progress' report))
include hprogress

theorem scanNow (s : Synchronizer) (limit : Option Number) (stops : τ → Bool) :
    Parallel R (s.scanNow limit ⟨stops, progress⟩) (s.scanNow limit ⟨stops, progress'⟩) := by
  let setup : ScanSetup τ :=
    ⟨s.reader, s.policy.activation, limit, s.policy.verbose, ⟨stops, progress⟩⟩
  have hrun : Parallel R (Scan.run setup) (Scan.run { setup with hooks := ⟨stops, progress'⟩ }) :=
    hR.run hprogress rfl
  exact hrun.bind fun _ => (hR.write _ _ _ _).bind fun _ => Parallel.pure _

theorem checkAndScan (s : Synchronizer) (stops : τ → Bool) :
    Parallel R (s.checkAndScan ⟨stops, progress⟩) (s.checkAndScan ⟨stops, progress'⟩) :=
  hR.validate.bind fun _ => (hR.scanNow hprogress s _ stops).bind fun _ => Parallel.pure _

end

end Congruence
end SyncState
end LightSync
