import LightSync.Proofs.Cache.Stored
import LightSync.Proofs.Chain.Agreement
import LightSync.Proofs.Number.Grid

/-!
# Entering blocks in a wallet

A scan as an action on the wallet alone (`enterAll`): each block is inspected and committed, and
nobody is told. A scan that nobody disturbs does to the wallet just that and fails in the same way
(`told_of_run`), and any scan leaves the wallet as entering the first of the blocks does
(`enterAll_of_run`). Where a scan stands is always where the next one would begin (`Stands`), so
that entering blocks can be cut in two anywhere.
-/

set_option autoImplicit false

namespace LightSync
namespace Scan

open LightSync.Action (Parallel)
open Agreement (Patient)
open Database (Same)

variable {τ : Type}

/-! ## Entering -/

/-- Enters blocks in order. -/
def enterAll (reader : NoteReader) (keys : List AccountKey) :
    Point → List Block → Action WalletStore (List ScannedBlock)
  | _, [] => return []
  | p, b :: bs => do
      let scanned ← enter reader keys p b
      let found ← enterAll reader keys (p.advance scanned) bs
      return scanned :: found

/-- Enters the blocks of a walk, and then fails as the walk does. -/
def enterWalk (reader : NoteReader) (keys : List AccountKey) (p : Point) (walk : Walk Block) :
    Action WalletStore (List ScannedBlock) := do
  let found ← enterAll reader keys p walk.items
  match walk.stop with
  | some e => throw e
  | none => return found

section

variable {reader : NoteReader} {keys : List AccountKey} {p q : Point} {b : Block}
  {bs : List Block} {s s' : WalletStore} {scanned : ScannedBlock} {found : List ScannedBlock}

theorem enterAll_cons_eq_ok {found : List ScannedBlock} :
    enterAll reader keys p (b :: bs) s = .ok found s' ↔
      ∃ scanned s1 more, enter reader keys p b s = .ok scanned s1 ∧
        enterAll reader keys (p.advance scanned) bs s1 = .ok more s' ∧ found = scanned :: more := by
  constructor
  · intro h
    obtain ⟨scanned, s1, h1, h⟩ := Action.bind_eq_ok.1 h
    obtain ⟨more, s2, h2, h⟩ := Action.bind_eq_ok.1 h
    cases h
    exact ⟨scanned, s1, more, h1, h2, rfl⟩
  · rintro ⟨scanned, s1, more, h1, h2, rfl⟩
    exact Action.bind_eq_ok.2 ⟨scanned, s1, h1, Action.bind_eq_ok.2 ⟨more, s', h2, rfl⟩⟩

/-- Blocks that are entered are taken. -/
theorem takeAll_of_enterAll (h : enterAll reader keys p bs s = .ok found s') :
    takeAll reader keys p s.content bs = .ok (found.foldl Point.advance p, s'.content) := by
  induction bs generalizing p s found with
  | nil =>
      cases h
      rfl
  | cons b bs ih =>
      obtain ⟨scanned, s1, more, h1, h2, rfl⟩ := enterAll_cons_eq_ok.1 h
      exact Except.bind_eq_ok.2 ⟨_, take_of_enter h1, ih h2⟩

/-- Of blocks that are entered the first ones are. -/
theorem enterAll_left {cs : List Block} (h : enterAll reader keys p (bs ++ cs) s = .ok found s') :
    ∃ first t, enterAll reader keys p bs s = .ok first t := by
  induction bs generalizing p s found with
  | nil => exact ⟨[], s, rfl⟩
  | cons b bs ih =>
      obtain ⟨scanned, s1, more, h1, h2, -⟩ := enterAll_cons_eq_ok.1 h
      obtain ⟨first, t, hfirst⟩ := ih h2
      exact ⟨scanned :: first, t, enterAll_cons_eq_ok.2 ⟨scanned, s1, first, h1, hfirst, rfl⟩⟩

/-- Entering blocks leaves no transaction open, and the fault where it was. -/
theorem atRest_of_enterAll (hrest : s.AtRest) (h : enterAll reader keys p bs s = .ok found s') :
    s'.AtRest ∧ s'.fault = s.fault := by
  induction bs generalizing p s found with
  | nil =>
      cases h
      exact ⟨hrest, rfl⟩
  | cons b bs ih =>
      obtain ⟨scanned, s1, more, h1, h2, -⟩ := enterAll_cons_eq_ok.1 h
      obtain ⟨-, hrest1, hfault1⟩ := WalletStore.record_of_commitBlock (enter_eq_ok.1 h1).2
      obtain ⟨hrest', hfault'⟩ := ih hrest1 h2
      exact ⟨hrest', hfault'.trans hfault1⟩

/-- A walk that was entered has come to its end. -/
theorem enterWalk_eq_ok {walk : Walk Block} : enterWalk reader keys p walk s = .ok found s' ↔
    enterAll reader keys p walk.items s = .ok found s' ∧ walk.stop = none := by
  unfold enterWalk
  rw [Action.bind_apply]
  cases enterAll reader keys p walk.items s with
  | error e t =>
      constructor
      · intro h
        cases h
      · rintro ⟨h, -⟩
        cases h
  | ok more t =>
      cases walk.stop with
      | none => exact ⟨fun h => ⟨h, rfl⟩, fun h => h.1⟩
      | some e =>
          constructor
          · intro h
            cases h
          · rintro ⟨-, h⟩
            cases h

/-! ### The report does not matter -/

theorem inspect_congr (h : p.Alike q) (w : Wallet) (b : Block) :
    inspect reader keys w p b = inspect reader keys w q b := by
  unfold inspect checkNext
  rw [h.1, h.2.1, h.2.2]

theorem enterAll_congr (h : p.Alike q) (bs : List Block) :
    enterAll reader keys p bs = enterAll reader keys q bs := by
  induction bs generalizing p q with
  | nil => rfl
  | cons b bs ih =>
      have hinspect : (fun w => inspect reader keys w p b) = fun w => inspect reader keys w q b :=
        funext fun w => inspect_congr h w b
      have hnext (s : ScannedBlock) : enterAll reader keys (p.advance s) bs =
          enterAll reader keys (q.advance s) bs := ih ⟨rfl, rfl, rfl⟩
      unfold enterAll enter
      rw [hinspect]
      simp only [hnext]

theorem enterWalk_congr (h : p.Alike q) (walk : Walk Block) :
    enterWalk reader keys p walk = enterWalk reader keys q walk := by
  unfold enterWalk
  rw [enterAll_congr h]

/-! ### The connection does not matter -/

theorem parallel_enterAll (p : Point) (bs : List Block) :
    Parallel Same (enterAll reader keys p bs) (enterAll reader keys p bs) := by
  induction bs generalizing p with
  | nil => exact Parallel.pure []
  | cons b bs ih =>
      have hone : Parallel Same (enter reader keys p b) (enter reader keys p b) := by
        refine (Database.parallel_query _).bind fun scanned => ?_
        exact (WalletStore.parallel_commitBlock scanned).bind fun _ => Parallel.pure scanned
      exact hone.bind fun scanned => (ih _).bind fun more => Parallel.pure _

theorem parallel_enterWalk (p : Point) (walk : Walk Block) :
    Parallel Same (enterWalk reader keys p walk) (enterWalk reader keys p walk) := by
  refine (parallel_enterAll p walk.items).bind fun found => ?_
  cases walk.stop with
  | none => exact Parallel.pure found
  | some e => exact Parallel.throw e

/-! ### Cutting the work in two -/

/-- What comes of entering blocks when others were entered before. -/
def withMore (found : List ScannedBlock) :
    EStateM.Result Failure WalletStore (List ScannedBlock) →
      EStateM.Result Failure WalletStore (List ScannedBlock)
  | .ok more t => .ok (found ++ more) t
  | .error e t => .error e t

theorem enterWalk_cons (reader : NoteReader) (keys : List AccountKey) (p : Point) (b : Block)
    (bs : List Block) (stop : Option Failure) (s : WalletStore) :
    enterWalk reader keys p ⟨b :: bs, stop⟩ s = match enter reader keys p b s with
      | .ok scanned t => withMore [scanned] (enterWalk reader keys (p.advance scanned) ⟨bs, stop⟩ t)
      | .error e t => .error e t := by
  unfold enterWalk
  dsimp only
  rw [enterAll, Action.bind_apply, Action.bind_apply]
  cases enter reader keys p b s with
  | error e t => rfl
  | ok scanned t =>
      dsimp only
      rw [Action.bind_apply, Action.bind_apply]
      cases enterAll reader keys (p.advance scanned) bs t with
      | error e u => rfl
      | ok more u =>
          cases stop with
          | none => rfl
          | some e => rfl

/-- Entering the blocks of a walk is entering the first of them, and the others from there. -/
theorem enterWalk_append {done : List Block} (h : enterAll reader keys p done s = .ok found s')
    (rest : List Block) (stop : Option Failure) :
    enterWalk reader keys p ⟨done ++ rest, stop⟩ s =
      withMore found (enterWalk reader keys (found.foldl Point.advance p) ⟨rest, stop⟩ s') := by
  induction done generalizing p s found with
  | nil =>
      cases h
      show enterWalk reader keys p ⟨rest, stop⟩ s' = withMore [] (enterWalk reader keys p _ s')
      cases enterWalk reader keys p ⟨rest, stop⟩ s' <;> rfl
  | cons b done ih =>
      obtain ⟨scanned, s1, more, h1, h2, rfl⟩ := enterAll_cons_eq_ok.1 h
      rw [List.cons_append, enterWalk_cons, h1, List.foldl_cons]
      dsimp only
      rw [ih h2]
      cases enterWalk reader keys (more.foldl Point.advance (p.advance scanned)) ⟨rest, stop⟩ s' <;>
        rfl

end

/-! ## Where a scan stands -/

/-- The wallet ends where the scan stands, which is where the next one would begin, and the walk is
what it would go through. -/
structure Stands (activation : Number) (c : Cache) (p : Point) (w : Wallet) (walk : Walk Block) :
    Prop where
  here : p.Alike (startOf activation w)
  ahead : c.blocks (some p.height) none = walk
  grid : p.treeSize.OnGrid

/-- The number of commitments at the tip is a number that a column keeps. -/
def CountOnGrid (w : Wallet) : Prop := ∀ t, w.tip? = some t → t.treeSize.OnGrid

theorem stands_start (activation : Number) {w : Wallet} (h : CountOnGrid w) (c : Cache) :
    Stands activation c (startOf activation w) w
      (c.blocks (some (startOf activation w).height) none) where
  here := ⟨rfl, rfl, rfl⟩
  ahead := rfl
  grid := by
    unfold startOf
    cases ht : w.tip? with
    | none => exact .int 0
    | some t => exact h t ht

section

variable {reader : NoteReader} {keys : List AccountKey} {activation : Number} {c : Cache}
  {p p' : Point} {w w' : Wallet} {b : Block} {bs : List Block} {stop : Option Failure}

theorem onGrid_receiveAll {height : Number} {tx : Tx} {outputs : List SaplingOutput}
    {found found' : Findings} {i : Nat} (hgrid : found.position.OnGrid)
    (h : receiveAll reader keys height tx found i outputs = .ok found') :
    found'.position.OnGrid := by
  induction outputs generalizing found i with
  | nil =>
      cases h
      exact hgrid
  | cons output outputs ih =>
      obtain ⟨next, hnext, h⟩ := Except.bind_eq_ok.1 h
      refine ih ?_ h
      rw [position_receive hnext]
      exact Number.onGrid_add_one hgrid

theorem onGrid_takeTxs {isUnspent : Bytes → Bool} {height : Number} {txs : List Tx}
    {found found' : Findings} (hgrid : found.position.OnGrid)
    (h : takeTxs isUnspent reader keys height found txs = .ok found') :
    found'.position.OnGrid := by
  induction txs generalizing found with
  | nil =>
      cases h
      exact hgrid
  | cons tx txs ih =>
      obtain ⟨next, hnext, h⟩ := Except.bind_eq_ok.1 h
      exact ih (onGrid_receiveAll (by rwa [position_reveals]) hnext) h

theorem onGrid_block {isUnspent : Bytes → Bool} {treeSize : Number} {s : ScannedBlock}
    (hgrid : treeSize.OnGrid) (h : block isUnspent reader keys treeSize b = .ok s) :
    s.treeSize.OnGrid := by
  obtain ⟨found, hfound, h⟩ := Except.bind_eq_ok.1 h
  obtain ⟨hash, -, h⟩ := Except.bind_eq_ok.1 h
  cases h
  exact onGrid_takeTxs hgrid hfound

/-- A block that is recorded becomes the tip, whatever the wallet held before. -/
theorem tip_of_recorded {s : ScannedBlock} {k : Int} (hk : s.height = .int k)
    (hsafe : k.natAbs < Number.exactLimit) (h : Wallet.Recorded s k w w') :
    w'.tip? = some (Wallet.tipOf s k) := by
  have hbelow : ∀ e ∈ w.checkpoints.entries, e.1 < k := by
    intro e he
    cases ht : w.tip? with
    | none =>
        rw [Wallet.entries_of_tip?_eq_none ht] at he
        cases he
    | some t =>
        have hfollows := h.follows t ht
        rw [hk] at hfollows
        have hnext := Number.eq_add_one_of_same hfollows hsafe
        obtain ⟨x, hx, rfl⟩ := Option.map_eq_some_iff.1 ht
        have hle := Keyed.le_of_last? hx he
        dsimp only at hnext
        omega
  rw [Wallet.tip?, h.checkpoints, Keyed.last?_insert_above hbelow]
  rfl

/-- What taking a block makes of a wallet: the block is its tip, and the accounts are the same. -/
theorem tip_of_take (hword : b.HasWordHeight) (h : take reader keys p w b = .ok (p', w')) :
    ∃ (s : ScannedBlock) (n : Nat), checkNext p b = .ok () ∧
      block (fun nf => (w.unspentNote? nf).isSome) reader keys p.treeSize b = .ok s ∧
      p' = p.advance s ∧ b.height = .int n ∧ s.height = b.height ∧ n < wordRange ∧
      Wallet.Recorded s n w w' ∧ w'.tip? = some (Wallet.tipOf s n) := by
  obtain ⟨n, hb, hn⟩ := hword
  obtain ⟨s, hs, hrecord, rfl⟩ := take_eq_ok.1 h
  obtain ⟨hcheck, hblock⟩ := inspect_eq_ok.1 hs
  have hheight := (identity_of_block hblock).1
  have hrec := Wallet.recorded_of_record (by rw [hheight, hb]; rfl) hrecord
  exact ⟨s, n, hcheck, hblock, rfl, hb, hheight, hn, hrec,
    tip_of_recorded (hheight.trans hb) (Nat.lt_of_succ_lt (natAbs_lt_of_word hn)) hrec⟩

theorem Stands.hasWordHeight (h : Stands activation c p w ⟨bs, stop⟩) :
    ∀ b ∈ bs, b.HasWordHeight := by
  intro b hb
  have hmem : b ∈ (c.blocks (some p.height) none).items := by
    rw [h.ahead]
    exact hb
  exact Cache.hasWordHeight_of_mem_blocks hmem

/-- After a block the scan stands where the next one would begin. -/
theorem Stands.take (h : Stands activation c p w ⟨b :: bs, stop⟩)
    (ht : take reader keys p w b = .ok (p', w')) :
    Stands activation c p' w' ⟨bs, stop⟩ ∧ w'.accounts = w.accounts := by
  obtain ⟨s, n, -, hblock, rfl, hb, hheight, -, hrec, htip⟩ :=
    tip_of_take (h.hasWordHeight b List.mem_cons_self) ht
  have hgrid := onGrid_block h.grid hblock
  refine ⟨⟨?_, ?_, hgrid⟩, hrec.accounts⟩
  · rw [startOf, htip]
    exact ⟨hheight.trans hb, rfl, (Number.kept_of_onGrid hgrid).symm⟩
  · show c.blocks (some s.height) none = _
    rw [hheight]
    exact Cache.blocks_after h.ahead

theorem Stands.takeAll {done rest : List Block} {q : Point}
    (h : Stands activation c p w ⟨done ++ rest, stop⟩)
    (ht : takeAll reader keys p w done = .ok (q, w')) :
    Stands activation c q w' ⟨rest, stop⟩ ∧ w'.accounts = w.accounts := by
  induction done generalizing p w with
  | nil =>
      cases ht
      exact ⟨h, rfl⟩
  | cons b done ih =>
      obtain ⟨⟨p1, w1⟩, h1, h2⟩ := Except.bind_eq_ok.1 ht
      obtain ⟨hstands, haccounts⟩ := h.take h1
      obtain ⟨hstands', haccounts'⟩ := ih hstands h2
      exact ⟨hstands', haccounts'.trans haccounts⟩

end

/-! ## Scans that nobody disturbs -/

/-- A scan whose report began with `summary` came to what entering its blocks came to. -/
inductive Told (summary : ScanSummary) :
    EStateM.Result Failure WalletStore (List ScannedBlock) →
      EStateM.Result Failure (SyncState τ) ScanSummary → Prop where
  | ok (found : List ScannedBlock) {store : WalletStore} {st : SyncState τ}
      (h : st.wallet = store) : Told summary (.ok found store) (.ok (found.foldl withBlock summary) st)
  | error (e : Failure) {store : WalletStore} {st : SyncState τ} (h : st.wallet = store) :
      Told summary (.error e store) (.error e st)

theorem Told.ensuring {summary : ScanSummary}
    {entered : EStateM.Result Failure WalletStore (List ScannedBlock)}
    {act : Action (SyncState τ) ScanSummary} {st : SyncState τ} (h : Told summary entered (act st))
    {cleanup : SyncState τ → SyncState τ} (hclean : ∀ st, (cleanup st).wallet = st.wallet) :
    Told summary entered (act.ensuring cleanup st) := by
  unfold Action.ensuring
  generalize act st = r at h
  cases h with
  | ok found h => exact .ok found ((hclean _).trans h)
  | error e h => exact .error e ((hclean _).trans h)

theorem summary_startOf (activation : Number) (w : Wallet) :
    (startOf activation w).summary = emptySummary := by
  unfold startOf
  split <;> rfl

section

variable {setup : ScanSetup τ} {keys : List AccountKey} {p : Point} {b : Block}
  {st st' : SyncState τ} {stop : Option Failure} {bs : List Block}

variable (stop bs) in
theorem steps_of_commit_error (hpatient : Patient setup.hooks) {s : ScannedBlock}
    {store : WalletStore} {e : Failure}
    (h : inspect setup.reader keys st.wallet.content p b = .ok s)
    (hcommit : WalletStore.commitBlock s st.wallet = .error e store) :
    steps setup keys stop p (b :: bs) st = .error e { st with wallet := store } := by
  have hunit : SyncState.onWallet (WalletStore.commitBlock s) st =
      .error e { st with wallet := store } := by
    unfold SyncState.onWallet Action.within
    rw [hcommit]
  have hstep : step setup keys p b st = .error e { st with wallet := store } :=
    Action.bind_eq_error.2 (Or.inr ⟨s, st, onWallet_query.2 ⟨h, rfl⟩,
      Action.bind_eq_error.2 (Or.inl hunit)⟩)
  rw [steps_cons, if_neg (by rw [hpatient.goes]; exact Bool.false_ne_true)]
  exact Action.bind_eq_error.2 (Or.inl hstep)

variable (setup keys stop p bs st) in
/-- A scan that nobody disturbs enters its blocks. -/
theorem told_of_steps (hpatient : Patient setup.hooks) :
    Told p.summary (enterWalk setup.reader keys p ⟨bs, stop⟩ st.wallet)
      (steps setup keys stop p bs st) := by
  induction bs generalizing p st with
  | nil =>
      cases stop with
      | none => exact .ok [] rfl
      | some e => exact .error e rfl
  | cons b bs ih =>
      rw [enterWalk_cons, enter, Action.bind_apply, Database.query]
      cases hinspect : inspect setup.reader keys st.wallet.content p b with
      | error e =>
          rw [Agreement.steps_of_inspect_error hpatient hinspect]
          exact .error e rfl
      | ok scanned =>
          dsimp only
          rw [Action.bind_apply]
          cases hcommit : WalletStore.commitBlock scanned st.wallet with
          | error e store =>
              rw [steps_of_commit_error stop bs hpatient hinspect hcommit]
              exact .error e rfl
          | ok u store =>
              obtain ⟨st', hwallet, hsteps⟩ :=
                Agreement.steps_of_commit setup stop bs hpatient hinspect hcommit
              rw [hsteps, ← hwallet]
              have hrest := ih (p.advance scanned) st'
              -- the first block is added to the report of the others
              show Told p.summary (withMore [scanned] _) _
              generalize enterWalk setup.reader keys (p.advance scanned) ⟨bs, stop⟩ st'.wallet = r
                at hrest
              generalize steps setup keys stop (p.advance scanned) bs st' = r' at hrest
              cases hrest with
              | ok found h => exact .ok (scanned :: found) h
              | error e h => exact .error e h

variable (setup st) in
/-- **A scan of the cache that nobody disturbs enters the blocks ahead.** -/
theorem told_of_run (hpatient : Patient setup.hooks) :
    Told emptySummary (enterWalk setup.reader st.wallet.content.accountKeys
      (startOf setup.activation st.wallet.content)
      (st.cache.blocks (some (startOf setup.activation st.wallet.content).height) setup.limit)
      st.wallet) (run setup st) := by
  rw [run_eq, ← summary_startOf setup.activation st.wallet.content]
  obtain ⟨c, close, htraverse⟩ := SyncState.traverse_eq
    (some (startOf setup.activation st.wallet.content).height) setup.limit
    (fun walk => steps setup st.wallet.content.accountKeys walk.stop
      (startOf setup.activation st.wallet.content) walk.items) st
  rw [htraverse]
  exact (told_of_steps setup _ _ { st with cache := c } _ _ hpatient).ensuring fun _ => rfl

/-! ## Scans that somebody may disturb -/

variable (setup keys stop p bs st) in
/-- Any scan enters the first of its blocks; nothing else is noticed of it in the wallet. -/
theorem enterAll_of_steps (haside : Aside setup.hooks) :
    ∃ done found store, done <+: bs ∧
      enterAll setup.reader keys p done st.wallet = .ok found store ∧
      Same store ((steps setup keys stop p bs).after st).wallet := by
  induction bs generalizing p st with
  | nil =>
      have hafter : (steps setup keys stop p []).after st = st := by
        cases stop <;> rfl
      rw [hafter]
      exact ⟨[], [], st.wallet, List.prefix_refl [], rfl, Same.refl _⟩
  | cons b bs ih =>
      by_cases hstops : setup.hooks.stops st.host = true
      · have hafter : (steps setup keys stop p (b :: bs)).after st = st := by
          rw [Action.after, steps_cons, if_pos hstops]
        rw [hafter]
        exact ⟨[], [], st.wallet, List.nil_prefix, rfl, Same.refl _⟩
      have hafter : (steps setup keys stop p (b :: bs)).after st =
          (step setup keys p b >>= fun p => steps setup keys stop p bs).after st :=
        Action.after_congr (by rw [steps_cons, if_neg hstops])
      rw [hafter, Action.after_bind]
      cases hstep : step setup keys p b st with
      | ok p1 st1 =>
          obtain ⟨s, henter, rfl⟩ := enter_of_step haside hstep
          obtain ⟨done, found, store, hdone, hall, hsame⟩ := ih (p.advance s) st1
          exact ⟨b :: done, s :: found, store, List.cons_prefix_cons.2 ⟨rfl, hdone⟩,
            enterAll_cons_eq_ok.2 ⟨s, st1.wallet, found, henter, hall, rfl⟩, hsame⟩
      | error e st1 =>
          rcases enter_of_step_error haside hstep with ⟨s, henter⟩ | hsame
          · exact ⟨[b], [s], st1.wallet, List.cons_prefix_cons.2 ⟨rfl, List.nil_prefix⟩,
              enterAll_cons_eq_ok.2 ⟨s, st1.wallet, [], henter, rfl, rfl⟩, Same.refl _⟩
          · exact ⟨[], [], st.wallet, List.nil_prefix, rfl, hsame.symm⟩

variable (setup st) in
/-- **Any scan of the cache enters the first of the blocks ahead.** -/
theorem enterAll_of_run (haside : Aside setup.hooks) :
    ∃ done found store, done <+: pending setup st ∧
      enterAll setup.reader st.wallet.content.accountKeys
        (startOf setup.activation st.wallet.content) done st.wallet = .ok found store ∧
      Same store ((run setup).after st).wallet := by
  rw [Action.after_congr (run_eq setup st)]
  refine SyncState.after_traverse (P := fun t : SyncState τ => ∃ done found store,
    done <+: pending setup st ∧ enterAll setup.reader st.wallet.content.accountKeys
      (startOf setup.activation st.wallet.content) done st.wallet = .ok found store ∧
    Same store t.wallet) (fun c => ?_) fun _ _ h => h
  exact enterAll_of_steps setup _ _ { st with cache := c } _ _ haside

/-! ### The cache -/

theorem stored_after_steps (haside : Aside setup.hooks) (x : Stored) :
    Action.Keeps (fun st : SyncState τ => st.cache.stored = x) (steps setup keys stop p bs) := by
  induction bs generalizing p with
  | nil =>
      intro st hst
      cases stop <;> exact hst
  | cons b bs ih =>
      intro st hst
      have hstep : Action.Keeps (fun st : SyncState τ => st.cache.stored = x)
          (step setup keys p b) := by
        intro st hst
        cases hrun : step setup keys p b st with
        | ok p' st' =>
            obtain ⟨s, store, console, -, -, hprogress, -⟩ := of_step_eq_ok hrun
            have := haside.cache p'.progress { st with wallet := store, console }
            rw [Action.after_of_ok hprogress] at this
            rw [Action.after_of_ok hrun]
            exact this.trans hst
        | error e st' =>
            rw [Action.after_of_error hrun]
            rcases of_step_eq_error hrun with ⟨-, rfl⟩ | ⟨s, store, -, -, rfl⟩ |
              ⟨s, store, console, report, -, -, hprogress⟩
            · exact hst
            · exact hst
            · have := haside.cache report { st with wallet := store, console }
              rw [Action.after_of_error hprogress] at this
              exact this.trans hst
      by_cases hstops : setup.hooks.stops st.host = true
      · rw [Action.after, steps_cons, if_pos hstops]
        exact hst
      · rw [Action.after_congr (show steps setup keys stop p (b :: bs) st =
          (step setup keys p b >>= fun p => steps setup keys stop p bs) st by
            rw [steps_cons, if_neg hstops])]
        exact (hstep.bind fun _ => ih) st hst

variable (setup) in
/-- A scan leaves what the cache keeps as it was. -/
theorem stored_after_run (haside : Aside setup.hooks) (st : SyncState τ) :
    ((run setup).after st).cache.stored = st.cache.stored := by
  rw [Action.after_congr (run_eq setup st)]
  exact SyncState.keeps_stored_traverse (fun walk => stored_after_steps haside _) st rfl

end

end Scan
end LightSync
