import LightSync.Proofs.Cache.Stored
import LightSync.Proofs.Scan.Replay
import LightSync.Proofs.Store.Sameness

/-!
# What a scan leaves behind

A scan records the blocks that it takes and touches the wallet in no other way. When it fails or
is stopped the wallet is what taking some of the blocks made of it (`content_after_steps`), and
where no fault is injected it succeeds as long as the blocks can be taken (`steps_of_takeAll`).
-/

set_option autoImplicit false

namespace LightSync
namespace Scan

variable {τ : Type}

/-! ## Callers -/

/-- The caller leaves the wallet and what the cache keeps alone when it is told about a block. -/
structure Aside (hooks : ScanHooks τ) : Prop where
  wallet : ∀ report st, ((hooks.progress report).after st).wallet = st.wallet
  cache : ∀ report st, ((hooks.progress report).after st).cache.stored = st.cache.stored

theorem aside_none : Aside (ScanHooks.none : ScanHooks τ) where
  wallet _ _ := rfl
  cache _ _ := rfl

theorem Aside.of_ok {hooks : ScanHooks τ} (h : Aside hooks) {report : ScanProgress}
    {st st' : SyncState τ} {u : Unit} (hp : hooks.progress report st = .ok u st') :
    st'.wallet = st.wallet := by
  rw [← h.wallet report st, Action.after_of_ok hp]

theorem Aside.of_error {hooks : ScanHooks τ} (h : Aside hooks) {report : ScanProgress}
    {st st' : SyncState τ} {e : Failure} (hp : hooks.progress report st = .error e st') :
    st'.wallet = st.wallet := by
  rw [← h.wallet report st, Action.after_of_error hp]

/-! ## One block -/

theorem onWallet_query {α : Type} {f : Wallet → Except Failure α} {st st' : SyncState τ} {a : α} :
    SyncState.onWallet (Database.query f) st = .ok a st' ↔
      f st.wallet.content = .ok a ∧ st' = st := by
  unfold SyncState.onWallet Action.within Database.query
  dsimp only
  cases hf : f st.wallet.content with
  | ok b =>
      constructor
      · intro h
        cases h
        exact ⟨rfl, rfl⟩
      · rintro ⟨h, rfl⟩
        cases h
        rfl
  | error e =>
      constructor
      · intro h
        cases h
      · rintro ⟨h, -⟩
        cases h

theorem onWallet_eq_ok {α : Type} {act : Action WalletStore α} {st st' : SyncState τ} {a : α} :
    SyncState.onWallet act st = .ok a st' ↔
      ∃ s, act st.wallet = .ok a s ∧ st' = { st with wallet := s } := by
  unfold SyncState.onWallet Action.within
  dsimp only
  cases act st.wallet with
  | ok b s =>
      constructor
      · intro h
        cases h
        exact ⟨s, rfl, rfl⟩
      · rintro ⟨s', h, rfl⟩
        cases h
        rfl
  | error e s =>
      constructor
      · intro h
        cases h
      · rintro ⟨s', h, -⟩
        cases h

theorem onCache_eq_ok {α : Type} {act : Action Cache α} {st st' : SyncState τ} {a : α} :
    SyncState.onCache act st = .ok a st' ↔
      ∃ c, act st.cache = .ok a c ∧ st' = { st with cache := c } := by
  unfold SyncState.onCache
  cases act st.cache with
  | ok b c =>
      constructor
      · intro h
        cases h
        exact ⟨c, rfl, rfl⟩
      · rintro ⟨c', h, rfl⟩
        cases h
        rfl
  | error e c =>
      constructor
      · intro h
        cases h
      · rintro ⟨c', h, -⟩
        cases h

theorem onWallet_eq_error {α : Type} {act : Action WalletStore α} {st st' : SyncState τ}
    {e : Failure} :
    SyncState.onWallet act st = .error e st' ↔
      ∃ s, act st.wallet = .error e s ∧ st' = { st with wallet := s } := by
  unfold SyncState.onWallet Action.within
  dsimp only
  cases act st.wallet with
  | ok b s => simp
  | error e' s =>
      constructor
      · intro h
        cases h
        exact ⟨s, rfl, rfl⟩
      · rintro ⟨s', h, rfl⟩
        cases h
        rfl

theorem onCache_eq_error {α : Type} {act : Action Cache α} {st st' : SyncState τ} {e : Failure} :
    SyncState.onCache act st = .error e st' ↔
      ∃ c, act st.cache = .error e c ∧
        st' = { st with cache := c, console := st.console ++ SyncState.lastWords e } := by
  unfold SyncState.onCache
  cases act st.cache with
  | ok b c => simp
  | error e' c =>
      constructor
      · intro h
        cases h
        exact ⟨c, rfl, rfl⟩
      · rintro ⟨c', h, rfl⟩
        cases h
        rfl

/-- Telling about a block does nothing but write to the console. -/
theorem announce_eq (setup : ScanSetup τ) (b : ScannedBlock) (st : SyncState τ) :
    ∃ console, announce setup b st = .ok () { st with console } := by
  unfold announce
  split
  · exact ⟨st.console, rfl⟩
  · exact ⟨_, rfl⟩

/-! ### Entering -/

/-- Inspects a block and commits what was found. -/
def enter (reader : NoteReader) (keys : List AccountKey) (p : Point) (b : Block) :
    Action WalletStore ScannedBlock := do
  let scanned ← Database.query fun w => inspect reader keys w p b
  WalletStore.commitBlock scanned
  return scanned

section

variable {reader : NoteReader} {keys : List AccountKey} {p : Point} {b : Block}
  {s s' : WalletStore} {scanned : ScannedBlock}

theorem enter_eq_ok : enter reader keys p b s = .ok scanned s' ↔
    inspect reader keys s.content p b = .ok scanned ∧
      WalletStore.commitBlock scanned s = .ok () s' := by
  unfold enter
  rw [Action.bind_apply, Database.query]
  cases inspect reader keys s.content p b with
  | error e =>
      constructor
      · intro h
        cases h
      · rintro ⟨h, -⟩
        cases h
  | ok found =>
      dsimp only
      rw [Action.bind_apply]
      cases hcommit : WalletStore.commitBlock found s with
      | error e t =>
          constructor
          · intro h
            cases h
          · rintro ⟨h, hc⟩
            cases h
            rw [hcommit] at hc
            cases hc
      | ok u t =>
          constructor
          · intro h
            cases h
            exact ⟨rfl, hcommit⟩
          · rintro ⟨h, hc⟩
            cases h
            rw [hcommit] at hc
            cases hc
            rfl

/-- A block that is entered is taken. -/
theorem take_of_enter (h : enter reader keys p b s = .ok scanned s') :
    take reader keys p s.content b = .ok (p.advance scanned, s'.content) := by
  obtain ⟨hs, hcommit⟩ := enter_eq_ok.1 h
  exact take_eq_ok.2 ⟨scanned, hs, (WalletStore.record_of_commitBlock hcommit).1, rfl⟩

end

/-! ### Steps -/

variable {setup : ScanSetup τ} {keys : List AccountKey} {p p' : Point} {b : Block}
  {st st' : SyncState τ}

theorem blocksScanned_advance (p : Point) (found : ScannedBlock) :
    (p.advance found).summary.blocksScanned = p.summary.blocksScanned + 1 := rfl

/-- What a caller is told when a scan has come to a point. -/
def Point.progress (p : Point) : ScanProgress :=
  ⟨p.height, p.summary.blocksScanned, p.summary.notesReceived, p.summary.notesSpent⟩

/-- A step that succeeds: the block is inspected and committed, and then the caller is told. -/
theorem of_step_eq_ok (h : step setup keys p b st = .ok p' st') :
    ∃ s store console, inspect setup.reader keys st.wallet.content p b = .ok s ∧
      WalletStore.commitBlock s st.wallet = .ok () store ∧
      setup.hooks.progress p'.progress { st with wallet := store, console } = .ok () st' ∧
      p' = p.advance s := by
  obtain ⟨s, st0, hquery, h1⟩ := Action.bind_eq_ok.1 h
  obtain ⟨hs, rfl⟩ := onWallet_query.1 hquery
  obtain ⟨u, st1, hunit, h2⟩ := Action.bind_eq_ok.1 h1
  obtain ⟨store, hcommit, rfl⟩ := onWallet_eq_ok.1 hunit
  obtain ⟨u2, st2, hannounce, h3⟩ := Action.bind_eq_ok.1 h2
  obtain ⟨console, hwrite⟩ := announce_eq setup s { st0 with wallet := store }
  rw [hwrite] at hannounce
  cases hannounce
  obtain ⟨u3, st3, hprogress, h4⟩ := Action.bind_eq_ok.1 h3
  cases h4
  exact ⟨s, store, console, hs, hcommit, hprogress, rfl⟩

/-- A step that fails: the block is refused when it is inspected or when it is committed, or the
caller fails when it is told about the block. -/
theorem of_step_eq_error {e : Failure} (h : step setup keys p b st = .error e st') :
    (inspect setup.reader keys st.wallet.content p b = .error e ∧ st' = st) ∨
    (∃ s store, inspect setup.reader keys st.wallet.content p b = .ok s ∧
      WalletStore.commitBlock s st.wallet = .error e store ∧ st' = { st with wallet := store }) ∨
    ∃ s store console report, inspect setup.reader keys st.wallet.content p b = .ok s ∧
      WalletStore.commitBlock s st.wallet = .ok () store ∧
      setup.hooks.progress report { st with wallet := store, console } = .error e st' := by
  rcases Action.bind_eq_error.1 h with hquery | ⟨s, st0, hquery, h1⟩
  · refine Or.inl ?_
    unfold SyncState.onWallet Action.within Database.query at hquery
    dsimp only at hquery
    split at hquery
    · cases hquery
    · rename_i hq
      split at hq
      · cases hq
      · rename_i hinspect
        cases hq
        cases hquery
        exact ⟨hinspect, rfl⟩
  obtain ⟨hs, rfl⟩ := onWallet_query.1 hquery
  refine Or.inr ?_
  rcases Action.bind_eq_error.1 h1 with hunit | ⟨u, st1, hunit, h2⟩
  · refine Or.inl ?_
    unfold SyncState.onWallet Action.within at hunit
    split at hunit
    · cases hunit
    · rename_i hcommit
      cases hunit
      exact ⟨s, _, hs, hcommit, rfl⟩
  obtain ⟨store, hcommit, rfl⟩ := onWallet_eq_ok.1 hunit
  obtain ⟨console, hwrite⟩ := announce_eq setup s { st0 with wallet := store }
  rcases Action.bind_eq_error.1 h2 with hannounce | ⟨u2, st2, hannounce, h3⟩
  · rw [hwrite] at hannounce
    cases hannounce
  rw [hwrite] at hannounce
  cases hannounce
  rcases Action.bind_eq_error.1 h3 with hprogress | ⟨u3, st3, -, h4⟩
  · exact Or.inr ⟨s, store, console, _, hs, hcommit, hprogress⟩
  · cases h4

/-- A step that succeeds has entered its block. -/
theorem enter_of_step (haside : Aside setup.hooks) (h : step setup keys p b st = .ok p' st') :
    ∃ s, enter setup.reader keys p b st.wallet = .ok s st'.wallet ∧ p' = p.advance s := by
  obtain ⟨s, store, console, hs, hcommit, hprogress, rfl⟩ := of_step_eq_ok h
  rw [haside.of_ok hprogress]
  exact ⟨s, enter_eq_ok.2 ⟨hs, hcommit⟩, rfl⟩

/-- A step that fails has entered its block, or nothing is noticed of it in the wallet. -/
theorem enter_of_step_error (haside : Aside setup.hooks) {e : Failure}
    (h : step setup keys p b st = .error e st') :
    (∃ s, enter setup.reader keys p b st.wallet = .ok s st'.wallet) ∨
      Database.Same st'.wallet st.wallet := by
  rcases of_step_eq_error h with ⟨-, rfl⟩ | ⟨s, store, -, hcommit, rfl⟩ |
    ⟨s, store, console, report, hs, hcommit, hprogress⟩
  · exact Or.inr (Database.Same.refl _)
  · exact Or.inr (WalletStore.same_of_commitBlock_error hcommit)
  · -- the block is committed when the caller is told about it
    rw [haside.of_error hprogress]
    exact Or.inl ⟨s, enter_eq_ok.2 ⟨hs, hcommit⟩⟩

/-- A step that succeeds has taken its block. -/
theorem take_of_step (haside : Aside setup.hooks) (h : step setup keys p b st = .ok p' st') :
    take setup.reader keys p st.wallet.content b = .ok (p', st'.wallet.content) ∧
      st'.wallet.AtRest := by
  obtain ⟨s, henter, rfl⟩ := enter_of_step haside h
  exact ⟨take_of_enter henter, (WalletStore.record_of_commitBlock (enter_eq_ok.1 henter).2).2.1⟩

/-- A step that fails has taken its block or done nothing. -/
theorem take_of_step_error (haside : Aside setup.hooks) (hrest : st.wallet.AtRest) {e : Failure}
    (h : step setup keys p b st = .error e st') :
    st'.wallet.AtRest ∧ (st'.wallet.content = st.wallet.content ∨
      ∃ p', take setup.reader keys p st.wallet.content b = .ok (p', st'.wallet.content)) := by
  rcases enter_of_step_error haside h with ⟨s, henter⟩ | hsame
  · exact ⟨(WalletStore.record_of_commitBlock (enter_eq_ok.1 henter).2).2.1,
      Or.inr ⟨_, take_of_enter henter⟩⟩
  · exact ⟨hsame.before.trans hrest, Or.inl hsame.content⟩

/-- Without a fault a block that can be taken is taken. -/
theorem step_of_take {w : Wallet} (hhooks : setup.hooks = ScanHooks.none)
    (hrest : st.wallet.AtRest) (hfault : st.wallet.fault = none)
    (h : take setup.reader keys p st.wallet.content b = .ok (p', w)) :
    ∃ st', step setup keys p b st = .ok p' st' ∧ st'.wallet.content = w ∧ st'.wallet.AtRest ∧
      st'.wallet.fault = none := by
  obtain ⟨s, hs, hrecord, rfl⟩ := take_eq_ok.1 h
  obtain ⟨store, hcommit, hc, hr, hx⟩ := WalletStore.commitBlock_of_record hrest hfault hrecord
  obtain ⟨console, hwrite⟩ := announce_eq setup s { st with wallet := store }
  refine ⟨{ st with wallet := store, console }, ?_, hc, hr, hx⟩
  unfold step
  rw [hhooks]
  refine Action.bind_eq_ok.2 ⟨s, st, onWallet_query.2 ⟨hs, rfl⟩, ?_⟩
  refine Action.bind_eq_ok.2 ⟨(), _, onWallet_eq_ok.2 ⟨store, hcommit, rfl⟩, ?_⟩
  exact Action.bind_eq_ok.2 ⟨(), _, hwrite, rfl⟩

/-! ## All blocks -/

variable {stop : Option Failure} {bs : List Block}

theorem steps_cons (setup : ScanSetup τ) (keys : List AccountKey) (stop : Option Failure)
    (p : Point) (b : Block) (bs : List Block) (st : SyncState τ) :
    steps setup keys stop p (b :: bs) st =
      if setup.hooks.stops st.host then .ok { p.summary with aborted := true } st
      else (step setup keys p b >>= fun p => steps setup keys stop p bs) st := by
  show (if setup.hooks.stops st.host then _ else _ : Action (SyncState τ) ScanSummary) st = _
  split
  · rfl
  · rfl

variable (st) in
/-- After a scan, however it ended, the wallet is what taking the first blocks made of it. -/
theorem content_after_steps (haside : Aside setup.hooks) (hrest : st.wallet.AtRest) :
    ((steps setup keys stop p bs).after st).wallet.AtRest ∧ ∃ before q, before <+: bs ∧
      takeAll setup.reader keys p st.wallet.content before =
        .ok (q, ((steps setup keys stop p bs).after st).wallet.content) := by
  induction bs generalizing p st with
  | nil =>
      have hafter : (steps setup keys stop p []).after st = st := by
        cases stop <;> rfl
      rw [hafter]
      exact ⟨hrest, [], p, List.prefix_refl [], rfl⟩
  | cons b bs ih =>
      by_cases hstops : setup.hooks.stops st.host = true
      · have hafter : (steps setup keys stop p (b :: bs)).after st = st := by
          rw [Action.after, steps_cons, if_pos hstops]
        -- nothing more is taken once the caller asks to stop
        rw [hafter]
        exact ⟨hrest, [], p, List.nil_prefix, rfl⟩
      · have hafter : (steps setup keys stop p (b :: bs)).after st =
            (step setup keys p b >>= fun p => steps setup keys stop p bs).after st :=
          Action.after_congr (by rw [steps_cons, if_neg hstops])
        rw [hafter, Action.after_bind]
        cases hstep : step setup keys p b st with
        | ok p1 st1 =>
            obtain ⟨htake, hrest1⟩ := take_of_step haside hstep
            obtain ⟨hrest', before, q, hbefore, hall⟩ := ih (p := p1) st1 hrest1
            refine ⟨hrest', b :: before, q, List.cons_prefix_cons.2 ⟨rfl, hbefore⟩, ?_⟩
            exact Except.bind_eq_ok.2 ⟨_, htake, hall⟩
        | error e st1 =>
            obtain ⟨hrest1, hsame | ⟨q, htake⟩⟩ := take_of_step_error haside hrest hstep
            · dsimp only
              rw [hsame]
              exact ⟨hrest1, [], p, List.nil_prefix, rfl⟩
            · refine ⟨hrest1, [b], q, List.cons_prefix_cons.2 ⟨rfl, List.nil_prefix⟩, ?_⟩
              exact Except.bind_eq_ok.2 ⟨_, htake, rfl⟩

/-- What holds behind the last block and where the caller asks to stop, and in front of a block if
it does behind it, holds where a scan begins that succeeds. -/
theorem steps_induction {summary : ScanSummary} {P : Point → List Block → SyncState τ → Prop}
    (hnil : ∀ p, summary = p.summary → P p [] st')
    (hstopped : ∀ p b bs, setup.hooks.stops st'.host = true →
      summary = { p.summary with aborted := true } → P p (b :: bs) st')
    (hnext : ∀ {p q b bs st st1}, step setup keys p b st = .ok q st1 → P q bs st1 →
      P p (b :: bs) st)
    (h : steps setup keys stop p bs st = .ok summary st') : P p bs st := by
  induction bs generalizing p st with
  | nil =>
      cases stop with
      | some e => cases h
      | none =>
          cases h
          exact hnil p rfl
  | cons b bs ih =>
      rw [steps_cons] at h
      split at h
      · rename_i hstops
        cases h
        exact hstopped p b bs hstops rfl
      · obtain ⟨q, st1, hstep, hsteps⟩ := Action.bind_eq_ok.1 h
        exact hnext hstep (ih hsteps)

/-- A scan that succeeds has taken as many blocks as it reports, all of them if it was not
stopped. -/
theorem takeAll_of_steps (haside : Aside setup.hooks) {summary : ScanSummary}
    (h : steps setup keys stop p bs st = .ok summary st') :
    ∃ n q, takeAll setup.reader keys p st.wallet.content (bs.take n) =
        .ok (q, st'.wallet.content) ∧
      summary.blocksScanned = p.summary.blocksScanned + n ∧
      (summary.aborted = false → n = bs.length) := by
  refine steps_induction (P := fun p bs st => ∃ n q,
    takeAll setup.reader keys p st.wallet.content (bs.take n) = .ok (q, st'.wallet.content) ∧
      summary.blocksScanned = p.summary.blocksScanned + n ∧
      (summary.aborted = false → n = bs.length)) ?_ ?_ ?_ h
  · rintro p rfl
    exact ⟨0, p, rfl, rfl, fun _ => rfl⟩
  · rintro p b bs - rfl
    exact ⟨0, p, rfl, rfl, fun hf => by cases hf⟩
  · rintro p p1 b bs st st1 hstep ⟨n, q, hall, hcount, hlength⟩
    obtain ⟨htake, -⟩ := take_of_step haside hstep
    obtain ⟨s, -, -, rfl⟩ := take_eq_ok.1 htake
    refine ⟨n + 1, q, Except.bind_eq_ok.2 ⟨_, htake, hall⟩, ?_, fun hf => ?_⟩
    · rw [hcount, blocksScanned_advance, Nat.add_assoc, Nat.add_comm 1 n]
    · rw [hlength hf, List.length_cons]

/-- A scan that is never asked to stop does not stop. -/
theorem aborted_of_steps (hgoes : ∀ host, setup.hooks.stops host = false) {summary : ScanSummary}
    (h : steps setup keys stop p bs st = .ok summary st') :
    summary.aborted = p.summary.aborted := by
  refine steps_induction (P := fun p _ _ => summary.aborted = p.summary.aborted) ?_ ?_ ?_ h
  · rintro p rfl
    rfl
  · intro p b bs hstops
    rw [hgoes] at hstops
    cases hstops
  · intro p q b bs st st1 hstep hrest
    -- a block that is added to the report leaves its end open
    obtain ⟨s, store, console, -, -, -, rfl⟩ := of_step_eq_ok hstep
    exact hrest

variable (setup st) in
/-- Without a fault and a caller that stops it, a scan succeeds on blocks that can be taken. -/
theorem steps_of_takeAll {w : Wallet} (hhooks : setup.hooks = ScanHooks.none)
    (hrest : st.wallet.AtRest) (hfault : st.wallet.fault = none)
    (h : takeAll setup.reader keys p st.wallet.content bs = .ok (p', w)) :
    ∃ st', steps setup keys none p bs st = .ok p'.summary st' ∧ st'.wallet.content = w := by
  induction bs generalizing p st with
  | nil =>
      cases h
      exact ⟨st, rfl, rfl⟩
  | cons b bs ih =>
      obtain ⟨⟨p1, w1⟩, htake, hall⟩ := Except.bind_eq_ok.1 h
      obtain ⟨st1, hstep, rfl, hr, hx⟩ := step_of_take hhooks hrest hfault htake
      obtain ⟨st2, hsteps, hw⟩ := ih st1 hr hx hall
      refine ⟨st2, ?_, hw⟩
      rw [steps_cons, if_neg (by rw [hhooks]; exact Bool.false_ne_true)]
      exact Action.bind_eq_ok.2 ⟨p1, st1, hstep, hsteps⟩

/-! ## From the cache -/

/-- The blocks of the cache that a scan of the wallet is about. -/
def pending (setup : ScanSetup τ) (st : SyncState τ) : List Block :=
  (st.cache.blocks (some (startOf setup.activation st.wallet.content).height) setup.limit).items

/-- A scan of the cache begins where the wallet ends. -/
theorem run_eq (setup : ScanSetup τ) (st : SyncState τ) :
    run setup st =
      SyncState.traverse (some (startOf setup.activation st.wallet.content).height) setup.limit
        (fun walk => steps setup st.wallet.content.accountKeys walk.stop
          (startOf setup.activation st.wallet.content) walk.items) st := rfl

/-- After a scan of the cache, however it ended, the wallet is what taking the first of the blocks
made of it. -/
theorem content_after_run (haside : Aside setup.hooks) (hrest : st.wallet.AtRest) :
    ((run setup).after st).wallet.AtRest ∧ ∃ before q, before <+: pending setup st ∧
      takeAll setup.reader st.wallet.content.accountKeys
        (startOf setup.activation st.wallet.content) st.wallet.content before =
        .ok (q, ((run setup).after st).wallet.content) := by
  rw [Action.after_congr (run_eq setup st)]
  refine SyncState.after_traverse
    (P := fun t : SyncState τ => t.wallet.AtRest ∧ ∃ before q, before <+: pending setup st ∧
      takeAll setup.reader st.wallet.content.accountKeys
        (startOf setup.activation st.wallet.content) st.wallet.content before =
        .ok (q, t.wallet.content)) (fun c => ?_) fun _ _ h => h
  exact content_after_steps { st with cache := c } haside hrest

/-- The blocks that a scan took, by its report. -/
def scanned (setup : ScanSetup τ) (st : SyncState τ) (summary : ScanSummary) : List Block :=
  (pending setup st).take summary.blocksScanned

/-- A scan of the cache that succeeds has taken the blocks it reports, all of them if it was not
stopped. -/
theorem takeAll_of_run (haside : Aside setup.hooks) {summary : ScanSummary}
    (h : run setup st = .ok summary st') :
    (∃ q, takeAll setup.reader st.wallet.content.accountKeys
      (startOf setup.activation st.wallet.content) st.wallet.content
      (scanned setup st summary) = .ok (q, st'.wallet.content)) ∧
    (summary.aborted = false → scanned setup st summary = pending setup st) := by
  rw [run_eq] at h
  obtain ⟨c, s, c', hs, rfl⟩ := SyncState.of_traverse_eq_ok h
  obtain ⟨n, q, hq, hn, hlength⟩ := takeAll_of_steps haside hs
  have hzero : (startOf setup.activation st.wallet.content).summary = emptySummary := by
    unfold startOf
    split <;> rfl
  rw [hzero, show emptySummary.blocksScanned = 0 from rfl, Nat.zero_add] at hn
  unfold scanned
  rw [hn]
  exact ⟨⟨q, hq⟩, fun hf => List.take_of_length_le (Nat.le_of_eq (hlength hf).symm)⟩

/-- A scan of the cache that succeeds and is never asked to stop has taken all blocks. -/
theorem takeAll_pending (haside : Aside setup.hooks)
    (hgoes : ∀ host, setup.hooks.stops host = false) {summary : ScanSummary}
    (h : run setup st = .ok summary st') :
    ∃ q, takeAll setup.reader st.wallet.content.accountKeys
      (startOf setup.activation st.wallet.content) st.wallet.content (pending setup st) =
        .ok (q, st'.wallet.content) := by
  obtain ⟨⟨q, hq⟩, hall⟩ := takeAll_of_run haside h
  obtain ⟨c, s, c', hs, -⟩ := SyncState.of_traverse_eq_ok (run_eq setup st ▸ h)
  have hopen : summary.aborted = false := by
    rw [aborted_of_steps hgoes hs]
    unfold startOf
    split <;> rfl
  rw [hall hopen] at hq
  exact ⟨q, hq⟩

/-! ## From a wallet without blocks -/

/-- The wallet that scanning blocks in order makes of one without blocks, in memory and with
nobody watching. -/
def onto (reader : NoteReader) (activation : Number) (accounts : Keyed Bytes) (bs : List Block) :
    Except Failure Wallet :=
  let w := Wallet.unscanned accounts
  let setup : ScanSetup Unit :=
    { reader, activation, limit := none, verbose := false, hooks := ScanHooks.none }
  match steps setup w.accountKeys none (startOf activation w) bs
      (SyncState.idle (Cache.inMemory Keyed.empty) w) with
  | .ok _ st => .ok st.wallet.content
  | .error e _ => .error e

theorem onto_of_takeAll {reader : NoteReader} {activation : Number} {accounts : Keyed Bytes}
    {w : Wallet} (h : takeAll reader (Wallet.unscanned accounts).accountKeys
      (startOf activation (Wallet.unscanned accounts)) (Wallet.unscanned accounts) bs =
        .ok (p, w)) : onto reader activation accounts bs = .ok w := by
  obtain ⟨st, hst, hw⟩ := steps_of_takeAll ⟨reader, activation, none, false, ScanHooks.none⟩
    (SyncState.idle (Cache.inMemory Keyed.empty) (Wallet.unscanned accounts)) rfl rfl rfl h
  unfold onto
  dsimp only
  rw [hst]
  exact congrArg _ hw

end Scan
end LightSync
