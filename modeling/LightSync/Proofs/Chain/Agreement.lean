import LightSync.Proofs.Cache.Readings
import LightSync.Proofs.Scan.Steps
import LightSync.Sync.Synchronizer

/-!
# Validating and scanning agree

Validating follows the links of the cached blocks and stops quietly at a gap; scanning follows
them again, records each block and fails at a gap. As long as both stand at the same place
(`Abreast`), they treat the next row in the same way, so they come to the same row with the same
failure (`scan_of_check_ok`, `scan_of_check_error`).
-/

set_option autoImplicit false

namespace LightSync
namespace Agreement

open Cache (Reading walkOf)
open Scan (Point inspect steps step startOf)

variable {τ : Type}

/-! ## Scans that nobody disturbs -/

/-- The caller never asks to stop, does not fail, and leaves the wallet and what the cache keeps
alone. -/
structure Patient (hooks : ScanHooks τ) : Prop where
  goes : ∀ host, hooks.stops host = false
  listens : ∀ report st, ∃ st', hooks.progress report st = .ok () st' ∧
    st'.wallet = st.wallet ∧ st'.cache.stored = st.cache.stored

theorem patient_none : Patient (ScanHooks.none : ScanHooks τ) where
  goes _ := rfl
  listens _ st := ⟨st, rfl, rfl, rfl⟩

/-- A reader that tells of every output whether it is a note. -/
def total (read : SaplingOutput → List AccountKey → OutputPlace → Option OpenedNote) : NoteReader :=
  fun output keys place => .ok (read output keys place)

/-- Whether every block that a scan inspects with success is committed. -/
def commitsSucceed (reader : NoteReader) (keys : List AccountKey) :
    Point → WalletStore → List Block → Bool
  | _, _, [] => true
  | p, store, b :: rest =>
      match inspect reader keys store.content p b with
      | .error _ => true
      | .ok s =>
          match WalletStore.commitBlock s store with
          | .ok _ store' => commitsSucceed reader keys (p.advance s) store' rest
          | .error _ _ => false

theorem commit_of_commitsSucceed {reader : NoteReader} {keys : List AccountKey} {p : Point}
    {store : WalletStore} {b : Block} {rest : List Block} {s : ScannedBlock}
    (h : commitsSucceed reader keys p store (b :: rest) = true)
    (hs : inspect reader keys store.content p b = .ok s) :
    ∃ store', WalletStore.commitBlock s store = .ok () store' ∧
      commitsSucceed reader keys (p.advance s) store' rest = true := by
  rw [commitsSucceed, hs] at h
  dsimp only at h
  split at h
  · rename_i store' hcommit
    exact ⟨store', hcommit, h⟩
  · cases h

/-! ## One block -/

section

variable (read : SaplingOutput → List AccountKey → OutputPlace → Option OpenedNote)
  (keys : List AccountKey)

/-- Only an unusable hash keeps a block from being scanned. -/
theorem block_total (isUnspent : Bytes → Bool) (treeSize : Number) (b : Block) :
    ∃ found : Scan.Findings, Scan.block isUnspent (total read) keys treeSize b =
      b.hash?.map fun hash =>
        ⟨b.height, hash, b.time, found.position, found.notes, found.spends⟩ := by
  cases htake : Scan.takeTxs isUnspent (total read) keys b.height ⟨treeSize, [], []⟩ b.txs with
  | error e =>
      -- a reader without failures takes everything
      obtain ⟨output, place, hread, -⟩ := Scan.of_takeTxs_error htake
      cases hread
  | ok found =>
      refine ⟨found, ?_⟩
      unfold Scan.block
      rw [htake]
      cases b.hash? <;> rfl

/-- What both make of a block at the right height: its hash, if it names its parent. -/
def identify (parent : Option Bytes) (b : Block) : Except Failure Bytes :=
  Links.checkParent parent b >>= fun _ => b.hash?

theorem checkBlock_eq (e : Links.Expectation) (b : Block) :
    Links.checkBlock e b =
      (identify e.parent b).map fun hash => ⟨some (b.height + 1), some hash⟩ := by
  unfold Links.checkBlock identify
  cases Links.checkParent e.parent b with
  | error f => rfl
  | ok u => cases b.hash? <;> rfl

variable {e : Links.Expectation} {p : Point} (w : Wallet) {b : Block}

theorem inspect_eq (hsame : b.height.same (p.height + 1) = true) :
    ∃ found : Scan.Findings, inspect (total read) keys w p b =
      (identify p.hash b).map fun hash =>
        ⟨b.height, hash, b.time, found.position, found.notes, found.spends⟩ := by
  obtain ⟨found, hfound⟩ :=
    block_total read keys (fun nf => (w.unspentNote? nf).isSome) p.treeSize b
  refine ⟨found, ?_⟩
  have hnext : Scan.checkNext p b = Links.checkParent p.hash b := by
    unfold Scan.checkNext
    rw [if_pos hsame]
  unfold inspect identify
  rw [hnext]
  cases Links.checkParent p.hash b with
  | error f => rfl
  | ok u => exact hfound

/-- A block at the right height is refused by a scan as it is by the validation. -/
theorem inspect_of_checkBlock_error (hparent : e.parent = p.hash)
    (hsame : b.height.same (p.height + 1) = true) {f : Failure}
    (h : Links.checkBlock e b = .error f) : inspect (total read) keys w p b = .error f := by
  obtain ⟨found, hinspect⟩ := inspect_eq read keys w hsame
  rw [checkBlock_eq, hparent] at h
  rw [hinspect]
  cases hi : identify p.hash b with
  | error f' =>
      rw [hi] at h
      cases h
      rfl
  | ok hash =>
      rw [hi] at h
      cases h

/-- A block at the right height that passes the validation is scanned. -/
theorem inspect_of_checkBlock (hparent : e.parent = p.hash)
    (hsame : b.height.same (p.height + 1) = true) {next : Links.Expectation}
    (h : Links.checkBlock e b = .ok next) :
    ∃ s, inspect (total read) keys w p b = .ok s ∧ s.height = b.height ∧
      next = ⟨some (b.height + 1), some s.hash⟩ := by
  obtain ⟨found, hinspect⟩ := inspect_eq read keys w hsame
  rw [checkBlock_eq, hparent] at h
  cases hi : identify p.hash b with
  | error f =>
      rw [hi] at h
      cases h
  | ok hash =>
      rw [hi] at h hinspect
      cases h
      exact ⟨_, hinspect, rfl, rfl⟩

theorem inspect_of_gap (hgap : ¬ b.height.same (p.height + 1) = true) :
    inspect (total read) keys w p b =
      .error (.brokenChain (.discontinuity (p.height + 1) b.height)) := by
  unfold inspect Scan.checkNext
  rw [if_neg hgap]

end

section

variable {setup : ScanSetup τ} {keys : List AccountKey} {p : Point} {b : Block} {st : SyncState τ}
  {stop : Option Failure} {bs : List Block}

theorem steps_of_inspect_error (hpatient : Patient setup.hooks) {f : Failure}
    (h : inspect setup.reader keys st.wallet.content p b = .error f) :
    steps setup keys stop p (b :: bs) st = .error f st := by
  have hstep : step setup keys p b st = .error f st := by
    refine Action.bind_eq_error.2 (Or.inl ?_)
    simp only [SyncState.onWallet, Action.within, Database.query, h]
  rw [Scan.steps_cons, if_neg (by rw [hpatient.goes]; exact Bool.false_ne_true)]
  exact Action.bind_eq_error.2 (Or.inl hstep)

variable (setup stop bs) in
theorem steps_of_commit (hpatient : Patient setup.hooks) {s : ScannedBlock} {store : WalletStore}
    (h : inspect setup.reader keys st.wallet.content p b = .ok s)
    (hcommit : WalletStore.commitBlock s st.wallet = .ok () store) :
    ∃ st', st'.wallet = store ∧
      steps setup keys stop p (b :: bs) st = steps setup keys stop (p.advance s) bs st' := by
  obtain ⟨console, hwrite⟩ := Scan.announce_eq setup s { st with wallet := store }
  let next := p.advance s
  obtain ⟨st', hprogress, hwallet, -⟩ := hpatient.listens
    ⟨s.height, next.summary.blocksScanned, next.summary.notesReceived, next.summary.notesSpent⟩
    { st with wallet := store, console }
  have hstep : step setup keys p b st = .ok next st' := by
    refine Action.bind_eq_ok.2 ⟨s, st, Scan.onWallet_query.2 ⟨h, rfl⟩, ?_⟩
    refine Action.bind_eq_ok.2 ⟨(), _, Scan.onWallet_eq_ok.2 ⟨store, hcommit, rfl⟩, ?_⟩
    refine Action.bind_eq_ok.2 ⟨(), _, hwrite, ?_⟩
    exact Action.bind_eq_ok.2 ⟨(), st', hprogress, rfl⟩
  refine ⟨st', hwallet, ?_⟩
  rw [Scan.steps_cons, if_neg (by rw [hpatient.goes]; exact Bool.false_ne_true),
    Action.bind_apply, hstep]

end

/-! ## Side by side -/

/-- The validation of readings. -/
def check (e : Links.Expectation) (report : LinkReport) (rs : List Reading) :
    Except Failure LinkReport :=
  Links.follow (walkOf rs).stop e report (walkOf rs).items

theorem check_cons (e : Links.Expectation) (report : LinkReport) (k : Int) (b : Block)
    (rs : List Reading) :
    check e report ((k, .ok b) :: rs) =
      if Links.fits e b then
        match Links.checkBlock e b with
        | .error f => .error f
        | .ok next => check next ⟨report.checked + 1, some b.height⟩ rs
      else .ok report := rfl

/-- The scan of readings. -/
def scan (setup : ScanSetup τ) (keys : List AccountKey) (p : Point) (rs : List Reading) :
    Action (SyncState τ) ScanSummary :=
  steps setup keys (walkOf rs).stop p (walkOf rs).items

/-- Each block stands at the height it was read at, and that is a safe integer. -/
def Placed (rs : List Reading) : Prop :=
  ∀ k b, (k, Except.ok b) ∈ rs → b.height = .int k ∧ k.natAbs + 1 < Number.exactLimit

/-- A validation and a scan that stand at the same place. An empty wallet is validated from the
first block on, whatever its height, so that one has to be where a scan begins. -/
structure Abreast (e : Links.Expectation) (p : Point) (w : Wallet) (rs : List Reading) : Prop where
  parent : e.parent = p.hash
  height : e.height = some (p.height + 1) ∨
    e.height = none ∧ ∀ k b rest, rs = (k, .ok b) :: rest → b.height.same (p.height + 1) = true
  below : ∀ n : Int, n.natAbs < Number.exactLimit → (Number.int n).same (p.height + 1) = true →
    ∀ entry ∈ w.checkpoints.entries, entry.1 < n

/-- The last of the heights, or where a scan began if there are none. -/
def lastOf (start : Number) (heights : List Int) : Number :=
  (heights.getLast?.map Number.int).getD start

theorem lastOf_cons (start : Number) (k : Int) (heights : List Int) :
    lastOf start (k :: heights) = lastOf (.int k) heights := by
  rw [lastOf, lastOf, List.getLast?_cons]
  cases heights.getLast? <;> rfl

/-- How a scan ends that has processed blocks up to `last` and finds the rows at `rest`: at the end
of the cache, or at a gap. -/
def Ends (result : EStateM.Result Failure (SyncState τ) ScanSummary) (st : SyncState τ)
    (last : Number) : List Int → Prop
  | [] => ∃ summary, result = .ok summary st
  | next :: _ => result = .error (.brokenChain (.discontinuity (last + 1) (.int next))) st

section

variable {read : SaplingOutput → List AccountKey → OutputPlace → Option OpenedNote}
  {activation : Number} {verbose : Bool} {hooks : ScanHooks τ} {keys : List AccountKey}
  {e e' : Links.Expectation} {p : Point} {w w' : Wallet} {k : Int} {b : Block}
  {rs : List Reading} {st : SyncState τ} {report report' : LinkReport}

theorem Abreast.same_of_fits (h : Abreast e p w ((k, .ok b) :: rs)) (hfits : Links.fits e b = true) :
    b.height.same (p.height + 1) = true := by
  unfold Links.fits at hfits
  rcases h.height with hsome | ⟨hnone, hfirst⟩
  · rw [hsome] at hfits
    exact hfits
  · exact hfirst k b rs rfl

theorem Abreast.gap_of_not_fits (h : Abreast e p w ((k, .ok b) :: rs))
    (hfits : ¬ Links.fits e b = true) : ¬ b.height.same (p.height + 1) = true := by
  unfold Links.fits at hfits
  rcases h.height with hsome | ⟨hnone, -⟩
  · rw [hsome] at hfits
    exact hfits
  · rw [hnone] at hfits
    exact absurd rfl hfits

/-- After a block that both take they stand at the same place again, one checkpoint further. -/
theorem Abreast.next (h : Abreast e p w ((k, .ok b) :: rs)) (hplaced : Placed ((k, .ok b) :: rs))
    (hsame : b.height.same (p.height + 1) = true) {s : ScannedBlock} (hs : s.height = b.height)
    (hrecord : w.record s = .ok w') :
    Abreast ⟨some (b.height + 1), some s.hash⟩ (p.advance s) w' rs ∧
      w'.checkpoints.keys = w.checkpoints.keys ++ [k] := by
  obtain ⟨hb, hk⟩ := hplaced k b List.mem_cons_self
  have hrec := Wallet.recorded_of_record (b := s) (k := k) (by rw [hs, hb]; rfl) hrecord
  rw [hb] at hsame
  have hbelow := h.below k (Nat.lt_of_succ_lt hk) hsame
  -- the new checkpoint lies above all others, so it goes to the end of the table
  have hentries : w'.checkpoints.entries = w.checkpoints.entries ++ [(k, Wallet.checkpointOf s)] := by
    rw [hrec.checkpoints]
    exact Keyed.insertEntry_above hbelow
  refine ⟨⟨rfl, Or.inl ?_, fun n hn hnext => ?_⟩, ?_⟩
  · show some (b.height + 1) = some (s.height + 1)
    rw [hs]
  · have hnext : (Number.int n).same (Number.int k + 1) = true := by
      rw [← hb, ← hs]
      exact hnext
    have hnk := Number.eq_add_one_of_same hnext hn
    intro entry hentry
    rw [hentries] at hentry
    rcases List.mem_append.1 hentry with hentry | hentry
    · have := hbelow entry hentry
      omega
    · cases List.mem_singleton.1 hentry
      omega
  · simp [Keyed.keys, hentries]

variable (activation verbose) in
/-- A block that passes the validation is committed, and both go on. -/
theorem Abreast.both (hpatient : Patient hooks)
    (habreast : Abreast e p st.wallet.content ((k, .ok b) :: rs))
    (hplaced : Placed ((k, .ok b) :: rs))
    (hcommits : commitsSucceed (total read) keys p st.wallet (b :: (walkOf rs).items) = true)
    (hfits : Links.fits e b = true) (hcheck : Links.checkBlock e b = .ok e') :
    ∃ q st', q.height = .int k ∧ Abreast e' q st'.wallet.content rs ∧
      commitsSucceed (total read) keys q st'.wallet (walkOf rs).items = true ∧
      st'.wallet.content.checkpoints.keys = st.wallet.content.checkpoints.keys ++ [k] ∧
      scan ⟨total read, activation, none, verbose, hooks⟩ keys p ((k, .ok b) :: rs) st =
        scan ⟨total read, activation, none, verbose, hooks⟩ keys q rs st' := by
  have hsame := habreast.same_of_fits hfits
  obtain ⟨s, hs, hheight, rfl⟩ :=
    inspect_of_checkBlock read keys st.wallet.content habreast.parent hsame hcheck
  obtain ⟨store, hcommit, hrest⟩ := commit_of_commitsSucceed hcommits hs
  obtain ⟨st', rfl, hsteps⟩ := steps_of_commit ⟨total read, activation, none, verbose, hooks⟩
    (walkOf rs).stop (walkOf rs).items hpatient hs hcommit
  obtain ⟨hnext, hkeys⟩ := habreast.next hplaced hsame hheight
    (WalletStore.record_of_commitBlock hcommit).1
  exact ⟨p.advance s, st', hheight.trans (hplaced k b List.mem_cons_self).1, hnext, hrest, hkeys,
    hsteps⟩

theorem Placed.tail (h : Placed ((k, .ok b) :: rs)) : Placed rs :=
  fun j c hj => h j c (List.mem_cons_of_mem _ hj)

variable (activation verbose st) in
/-- Where the validation passes, the scan commits the same rows and ends at the same place. -/
theorem scan_of_check_ok (hpatient : Patient hooks) (habreast : Abreast e p st.wallet.content rs)
    (hplaced : Placed rs)
    (hcommits : commitsSucceed (total read) keys p st.wallet (walkOf rs).items = true)
    (h : check e report rs = .ok report') :
    ∃ done rest st', rs.map (·.1) = done ++ rest ∧
      report'.height = (done.getLast?.map Number.int).or report.height ∧
      st'.wallet.content.checkpoints.keys = st.wallet.content.checkpoints.keys ++ done ∧
      Ends (scan ⟨total read, activation, none, verbose, hooks⟩ keys p rs st) st'
        (lastOf p.height done) rest := by
  -- on the rows; they stay abreast as long as both take them
  induction rs generalizing e p st report with
  | nil =>
      cases h
      exact ⟨[], [], st, rfl, rfl, (List.append_nil _).symm, p.summary, rfl⟩
  | cons r rs ih =>
      obtain ⟨k, result⟩ := r
      cases result with
      | error f => cases h
      | ok b =>
          have hb := (hplaced k b List.mem_cons_self).1
          rw [check_cons] at h
          by_cases hfits : Links.fits e b = true
          · rw [if_pos hfits] at h
            cases hcheck : Links.checkBlock e b with
            | error f =>
                rw [hcheck] at h
                cases h
            | ok e' =>
                rw [hcheck] at h
                obtain ⟨q, st1, hq, hnext, hrest, hkeys, hscan⟩ :=
                  habreast.both activation verbose hpatient hplaced hcommits hfits hcheck
                obtain ⟨done, rest, st', hsplit, hlast, hkeys', hends⟩ :=
                  ih st1 hnext hplaced.tail hrest h
                refine ⟨k :: done, rest, st', congrArg (k :: ·) hsplit, ?_, ?_, ?_⟩
                · rw [hlast, hb, List.getLast?_cons]
                  cases done.getLast? <;> rfl
                · rw [hkeys', hkeys, List.append_assoc]
                  rfl
                · rw [hscan, lastOf_cons, ← hq]
                  exact hends
          · -- a gap, at which the validation stops and the scan fails
            rw [if_neg hfits] at h
            cases h
            refine ⟨[], k :: rs.map (·.1), st, rfl, rfl, (List.append_nil _).symm, ?_⟩
            have hgap := inspect_of_gap read keys st.wallet.content
              (habreast.gap_of_not_fits hfits)
            rw [hb] at hgap
            exact steps_of_inspect_error hpatient hgap

variable (activation verbose st) in
/-- Where the validation fails, the scan commits the rows before and fails in the same way. -/
theorem scan_of_check_error (hpatient : Patient hooks)
    (habreast : Abreast e p st.wallet.content rs) (hplaced : Placed rs)
    (hcommits : commitsSucceed (total read) keys p st.wallet (walkOf rs).items = true)
    {f : Failure} (h : check e report rs = .error f) :
    ∃ done r rest st', rs = done ++ r :: rest ∧
      (∃ report', check e report done = .ok report') ∧ check e report (done ++ [r]) = .error f ∧
      st'.wallet.content.checkpoints.keys =
        st.wallet.content.checkpoints.keys ++ done.map (·.1) ∧
      scan ⟨total read, activation, none, verbose, hooks⟩ keys p rs st = .error f st' := by
  induction rs generalizing e p st report with
  | nil => cases h
  | cons r rs ih =>
      obtain ⟨k, result⟩ := r
      cases result with
      | error f' =>
          -- a row that cannot be read ends both, wherever it stands
          cases h
          exact ⟨[], _, rs, st, rfl, ⟨report, rfl⟩, rfl, (List.append_nil _).symm, rfl⟩
      | ok b =>
          rw [check_cons] at h
          by_cases hfits : Links.fits e b = true
          · rw [if_pos hfits] at h
            cases hcheck : Links.checkBlock e b with
            | error f' =>
                rw [hcheck] at h
                cases h
                refine ⟨[], (k, .ok b), rs, st, rfl, ⟨report, rfl⟩, ?_, (List.append_nil _).symm, ?_⟩
                · rw [List.nil_append, check_cons, if_pos hfits, hcheck]
                · exact steps_of_inspect_error hpatient
                    (inspect_of_checkBlock_error read keys _ habreast.parent
                      (habreast.same_of_fits hfits) hcheck)
            | ok e' =>
                rw [hcheck] at h
                obtain ⟨q, st1, -, hnext, hrest, hkeys, hscan⟩ :=
                  habreast.both activation verbose hpatient hplaced hcommits hfits hcheck
                obtain ⟨done, r, rest, st', rfl, ⟨report', hbefore⟩, hat, hkeys', hfails⟩ :=
                  ih st1 hnext hplaced.tail hrest h
                refine ⟨(k, .ok b) :: done, r, rest, st', rfl, ⟨report', ?_⟩, ?_, ?_, ?_⟩
                · rw [check_cons, if_pos hfits, hcheck]
                  exact hbefore
                · rw [List.cons_append, check_cons, if_pos hfits, hcheck]
                  exact hat
                · rw [hkeys', hkeys, List.append_assoc]
                  rfl
                · rw [hscan]
                  exact hfails
          · -- at a gap the validation does not fail
            rw [if_neg hfits] at h
            cases h

end

/-! ## Where both begin -/

/-- What validating a cache against a wallet comes to. -/
def verdict (w : Wallet) (c : Cache) : Except Failure LinkReport :=
  Links.check w.chainTip? (c.blocks (w.chainTip?.map (·.height)) none)

/-- The wallet has blocks, or the cache begins where the wallet should: at a height from zero on,
and not so great that rounding brings its predecessor up to it again. -/
def Begins (activation : Number) (w : Wallet) (c : Cache) : Prop :=
  w.tip? ≠ none ∨ ∃ first : Int, activation.toInt? = some first ∧ c.heights.head? = some first ∧
    0 ≤ first ∧ activation - 1 < activation

/-- Validating comes to the verdict and leaves nothing behind but an opened and closed cursor. -/
theorem validate_eq_verdict (st : SyncState τ) :
    Synchronizer.validate st = Action.ofExcept (verdict st.wallet.content st.cache)
      { st with cache := st.cache.openCursor.closeCursor } := by
  show (Action.ofExcept (verdict st.wallet.content st.cache)).ensuring _ _ = _
  cases verdict st.wallet.content st.cache <;> rfl

theorem verdict_of_validate_ok {st st' : SyncState τ} {report : LinkReport}
    (h : Synchronizer.validate st = .ok report st') :
    verdict st.wallet.content st.cache = .ok report := by
  rw [validate_eq_verdict] at h
  cases hv : verdict st.wallet.content st.cache with
  | ok report' =>
      rw [hv] at h
      cases h
      rfl
  | error f =>
      rw [hv] at h
      cases h

theorem verdict_of_validate_error {st st' : SyncState τ} {f : Failure}
    (h : Synchronizer.validate st = .error f st') :
    verdict st.wallet.content st.cache = .error f := by
  rw [validate_eq_verdict] at h
  cases hv : verdict st.wallet.content st.cache with
  | ok report =>
      rw [hv] at h
      cases h
  | error f' =>
      rw [hv] at h
      cases h
      rfl

section

variable {activation : Number} {w : Wallet} {c : Cache}

theorem verdict_eq_check (w : Wallet) (c : Cache) :
    verdict w c = check (Links.after w.chainTip?) ⟨0, none⟩
      (c.readingsAbove ((w.chainTip?.map (·.height)).getD Keyed.beforeAll)) := by
  rw [verdict, Cache.blocks_eq]
  rfl

/-- One before a height that is not too great. -/
theorem sub_one_of_toInt? {a : Number} {n : Int} (ha : a.toInt? = some n)
    (hle : n.natAbs + 1 ≤ Number.exactLimit) : a - 1 = .int (n - 1) := by
  rcases Number.toInt?_eq_some.1 ha with rfl | ⟨rfl, rfl⟩
  · exact Number.int_sub_int (b := 1) (by omega)
  · rfl

theorem le_of_head? {n : Int} (hhead : c.heights.head? = some n) {r : Reading}
    (hr : r ∈ c.readings) : n ≤ r.1 :=
  Cache.le_of_head?_of_sorted c.sorted_heights hhead (List.mem_map_of_mem hr)

/-- Above a height below the first one there is every row. -/
theorem readingsAbove_of_lt_head {n : Int} {height : Number} (hhead : c.heights.head? = some n)
    (hlt : height < .int n) : c.readingsAbove height = c.readings :=
  List.filter_eq_self.2 fun _ hr =>
    decide_eq_true (Number.lt_int_of_le hlt (le_of_head? hhead hr))

/-- Validation and scan go through the same rows. -/
theorem readingsAbove_start (h : Begins activation w c) :
    c.readingsAbove ((w.chainTip?.map (·.height)).getD Keyed.beforeAll) =
      c.readingsAbove (startOf activation w).height := by
  unfold startOf Wallet.chainTip?
  cases ht : w.tip? with
  | some t => rfl
  | none =>
      rcases h with h | ⟨n, hn, hhead, hnonneg, hlt⟩
      · exact absurd ht h
      · have hbefore : Number.int (-1) < .int n := Number.int_lt_int.2 (by omega)
        exact (readingsAbove_of_lt_head hhead hbefore).trans
          (readingsAbove_of_lt_head hhead ((Number.lt_iff_of_toInt? hn).1 hlt)).symm

theorem placed_readingsAbove (c : Cache) (height : Number) : Placed (c.readingsAbove height) :=
  fun _ _ h => Cache.height_of_reading (List.mem_filter.1 h).1

/-- Validation and scan begin at the same place. -/
theorem abreast_start (h : Begins activation w c) :
    Abreast (Links.after w.chainTip?) (startOf activation w) w
      (c.readingsAbove (startOf activation w).height) := by
  unfold startOf Wallet.chainTip?
  cases ht : w.tip? with
  | some t =>
      -- the tip is the highest checkpoint
      refine ⟨rfl, Or.inl rfl, fun n hn hnext entry hentry => ?_⟩
      have hnt := Number.eq_add_one_of_same hnext hn
      obtain ⟨x, hx, rfl⟩ := Option.map_eq_some_iff.1 ht
      have hle := Keyed.le_of_last? hx hentry
      dsimp only at hnt
      omega
  | none =>
      rcases h with h | ⟨n, hn, hhead, -, hlt⟩
      · exact absurd ht h
      refine ⟨rfl, Or.inr ⟨rfl, fun k b rest hrs => ?_⟩, fun m _ _ entry hentry => ?_⟩
      · have hall : c.readings = (k, .ok b) :: rest :=
          (readingsAbove_of_lt_head hhead ((Number.lt_iff_of_toInt? hn).1 hlt)).symm.trans hrs
        have hkn : k = n := by
          rw [Cache.heights, hall] at hhead
          exact Option.some.inj hhead
        -- a row of which a block was read is not that far out
        obtain ⟨hb, hk⟩ := Cache.height_of_reading (hall ▸ List.mem_cons_self :
          (k, Except.ok b) ∈ c.readings)
        rw [hkn] at hb hk
        dsimp only
        rw [hb, sub_one_of_toInt? hn (Nat.le_of_lt hk), Number.int_add_one,
          Number.ofInt_of_le (by omega), Number.int_same_int]
        omega
      · -- there are no checkpoints
        rw [Wallet.entries_of_tip?_eq_none ht] at hentry
        cases hentry

end

/-! ## The result -/

theorem Ends.ensuring {act : Action (SyncState τ) ScanSummary} {s t : SyncState τ} {last : Number}
    {rest : List Int} (h : Ends (act s) t last rest) (cleanup : SyncState τ → SyncState τ) :
    Ends (act.ensuring cleanup s) (cleanup t) last rest := by
  unfold Action.ensuring
  cases rest with
  | nil =>
      obtain ⟨summary, h⟩ := h
      rw [h]
      exact ⟨summary, rfl⟩
  | cons next rest =>
      have h : act s = _ := h
      rw [h]
      rfl

/-- The cached heights at which a scan has to look. -/
def heightsAhead (setup : ScanSetup τ) (st : SyncState τ) : List Int :=
  st.cache.heights.filter fun k =>
    decide ((startOf setup.activation st.wallet.content).height < .int k)

/-- What a scan without a limit makes of a cache that was validated: where validation passes, it
commits the heights up to the validated one and ends there, at the end of the cache or at a gap;
where validation fails at a height — what is stored below it passes, and with it fails — it
commits the heights below and fails in the same way. -/
structure Agree (setup : ScanSetup τ) (st : SyncState τ) : Prop where
  passes (report : LinkReport) (st₁ : SyncState τ) :
    Synchronizer.validate st = .ok report st₁ →
      ∃ done rest st', heightsAhead setup st = done ++ rest ∧
        report.height = done.getLast?.map Number.int ∧
        st'.wallet.content.checkpoints.keys = st.wallet.content.checkpoints.keys ++ done ∧
        Ends (Scan.run setup st) st'
          (lastOf (startOf setup.activation st.wallet.content).height done) rest
  fails (failure : Failure) (st₁ : SyncState τ) :
    Synchronizer.validate st = .error failure st₁ →
      ∃ done height rest st', heightsAhead setup st = done ++ height :: rest ∧
        (∃ report, verdict st.wallet.content
          (st.cache.restrict fun k => decide (k < height)) = .ok report) ∧
        verdict st.wallet.content (st.cache.restrict fun k => decide (k ≤ height)) =
          .error failure ∧
        st'.wallet.content.checkpoints.keys = st.wallet.content.checkpoints.keys ++ done ∧
        Scan.run setup st = .error failure st'

/-- **Validating and scanning agree.** -/
theorem scan_agrees_with_validate
    (read : SaplingOutput → List AccountKey → OutputPlace → Option OpenedNote)
    (activation : Number) (verbose : Bool) (hooks : ScanHooks τ) (hpatient : Patient hooks)
    (st : SyncState τ) (hbegins : Begins activation st.wallet.content st.cache)
    (hcommits : commitsSucceed (total read) st.wallet.content.accountKeys
      (startOf activation st.wallet.content) st.wallet
      (Scan.pending ⟨total read, activation, none, verbose, hooks⟩ st) = true) :
    Agree ⟨total read, activation, none, verbose, hooks⟩ st := by
  let setup : ScanSetup τ := ⟨total read, activation, none, verbose, hooks⟩
  let start := (startOf activation st.wallet.content).height
  have hahead : (st.cache.readingsAbove start).map (·.1) = heightsAhead setup st := by
    show _ = (List.map _ _).filter _
    rw [List.filter_map]
    rfl
  have hitems : Scan.pending setup st = (walkOf (st.cache.readingsAbove start)).items := by
    unfold Scan.pending
    rw [Cache.blocks_eq]
    rfl
  rw [hitems] at hcommits
  have habreast := abreast_start hbegins
  have hplaced := placed_readingsAbove st.cache start
  have hverdict (p : Int → Bool) : verdict st.wallet.content (st.cache.restrict p) =
      check (Links.after st.wallet.content.chainTip?) ⟨0, none⟩
        ((st.cache.restrict p).readingsAbove start) := by
    rw [verdict_eq_check, Cache.readingsAbove_restrict, Cache.readingsAbove_restrict,
      readingsAbove_start hbegins]
  have hall : verdict st.wallet.content st.cache =
      check (Links.after st.wallet.content.chainTip?) ⟨0, none⟩ (st.cache.readingsAbove start) := by
    rw [verdict_eq_check, readingsAbove_start hbegins]
  -- a cursor is open while the scan runs
  obtain ⟨c, close, hrun⟩ := SyncState.traverse_eq (some start) none
    (fun walk => steps setup st.wallet.content.accountKeys walk.stop
      (startOf activation st.wallet.content) walk.items) st
  have hrun : Scan.run setup st =
      (scan setup st.wallet.content.accountKeys (startOf activation st.wallet.content)
        (st.cache.readingsAbove start)).ensuring (fun s => { s with cache := close s.cache })
          { st with cache := c } := by
    rw [Scan.run_eq]
    refine hrun.trans ?_
    rw [Cache.blocks_eq]
    rfl
  constructor
  · intro report st₁ hvalidate
    have hcheck := verdict_of_validate_ok hvalidate
    rw [hall] at hcheck
    obtain ⟨done, rest, st', hsplit, hlast, hkeys, hends⟩ := scan_of_check_ok activation verbose
      { st with cache := c } hpatient habreast hplaced hcommits hcheck
    refine ⟨done, rest, { st' with cache := close st'.cache }, hahead ▸ hsplit, ?_, hkeys, ?_⟩
    · rw [hlast, Option.or_none]
    · rw [hrun]
      exact hends.ensuring _
  · intro failure st₁ hvalidate
    have hcheck := verdict_of_validate_error hvalidate
    rw [hall] at hcheck
    obtain ⟨done, r, rest, st', hsplit, hbefore, hat, hkeys, hscan⟩ :=
      scan_of_check_error activation verbose { st with cache := c } hpatient habreast hplaced
        hcommits hcheck
    refine ⟨done.map (·.1), r.1, rest.map (·.1), { st' with cache := close st'.cache }, ?_, ?_, ?_,
      hkeys, ?_⟩
    · show heightsAhead setup st = _
      rw [← hahead, hsplit, List.map_append]
      rfl
    · rw [hverdict, Cache.readingsAbove_restrict_lt hsplit]
      exact hbefore
    · rw [hverdict, Cache.readingsAbove_restrict_le hsplit]
      exact hat
    · rw [hrun]
      unfold Action.ensuring
      rw [hscan]

/-- A cache from height 50 on with a gap, and a wallet without blocks. -/
def gapState : SyncState Unit :=
  let bs := [linkedBlock 50 1 0 [], linkedBlock 51 2 1 [], linkedBlock 53 4 3 []]
  SyncState.idle (Cache.inMemory ⟨bs.map rowOf, by decide +kernel⟩)
    (Wallet.unscanned Keyed.empty)

theorem scan_agrees_with_validate_at_gap :
    ∃ st', st'.wallet.content.checkpoints.keys = [50, 51] ∧
      Scan.run ⟨total fun _ _ _ => none, 50, none, false, ScanHooks.none⟩ gapState =
        .error (.brokenChain (.discontinuity 52 53)) st' := by
  have hreport : Action.value? Synchronizer.validate gapState = some ⟨2, some 51⟩ := by
    decide +kernel
  obtain ⟨st₁, hvalid⟩ := Action.value?_eq_some.1 hreport
  obtain ⟨done, rest, st', habove, hlast, hkeys, hends⟩ :=
    (scan_agrees_with_validate (fun _ _ _ => none) 50 false ScanHooks.none patient_none gapState
      (Or.inr ⟨50, rfl, by decide +kernel, by decide, by decide +kernel⟩)
      (by decide +kernel)).passes _ st₁ hvalid
  have hrows : [50, 51, 53] = done ++ rest := by
    rw [← habove]
    decide +kernel
  have hdone : done.getLast? = some 51 := by
    obtain ⟨k, hk, hint⟩ := Option.map_eq_some_iff.1 hlast.symm
    exact hk.trans (congrArg some (Number.int.inj hint))
  obtain ⟨before, rfl⟩ := List.getLast?_eq_some_iff.1 hdone
  match before with
  | [] => cases hrows
  | [k] =>
      cases hrows
      exact ⟨st', hkeys, hends⟩
  | [_, _] => cases hrows
  | _ :: _ :: _ :: _ => simp at hrows

/-- A wallet without blocks, and a cache of one row that is cut short. -/
def strayState (height : Int) : SyncState Unit :=
  SyncState.idle (Cache.inMemory ⟨[(height, [0])], List.pairwise_singleton _ _⟩)
    (Wallet.unscanned Keyed.empty)

/-- A scan from a height on, with nobody watching. -/
def scanFrom (height : Int) : ScanSetup Unit :=
  ⟨total fun _ _ _ => none, .int height, none, false, ScanHooks.none⟩

/-- The cache begins where the wallet should and no block fails to be committed, and yet validation
and scan disagree. -/
def Parts (setup : ScanSetup Unit) (st : SyncState Unit) (height : Int) : Prop :=
  st.wallet.content.tip? = none ∧ setup.activation = .int height ∧
    st.cache.heights.head? = some height ∧
    commitsSucceed setup.reader st.wallet.content.accountKeys
      (startOf setup.activation st.wallet.content) st.wallet (Scan.pending setup st) = true ∧
    ¬ Agree setup st

/-- Validation and scan part below zero: a validation of a wallet without blocks reads the rows above
-1, so that it sees nothing, and the scan fails at the row. -/
theorem scan_disagrees_with_validate_below_zero :
    Parts (scanFrom (-5)) (strayState (-5)) (-5) := by
  refine ⟨rfl, rfl, rfl, by decide +kernel, fun hagree => ?_⟩
  have hreport : Action.value? Synchronizer.validate (strayState (-5)) = some ⟨0, none⟩ := by
    decide +kernel
  obtain ⟨st₁, hvalid⟩ := Action.value?_eq_some.1 hreport
  obtain ⟨done, rest, st', hahead, hlast, -, hends⟩ := hagree.passes _ _ hvalid
  -- nothing was validated, so the scan ought to find a gap at once
  have hdone : done = [] := by simpa using hlast.symm
  subst hdone
  have hrest : [-5] = rest := hahead
  subst hrest
  have hgap := Action.failure?_eq_some.2 ⟨st', hends⟩
  revert hgap
  decide +kernel

/-- They part, too, where the number before a height rounds to the height: the scan begins above the
only row, at which validation fails. No block has such a height. -/
theorem scan_disagrees_with_validate_beyond_precision :
    Parts (scanFrom 10000000000000004) (strayState 10000000000000004) 10000000000000004 := by
  refine ⟨rfl, rfl, rfl, by decide +kernel, fun hagree => ?_⟩
  have hfailure :
      (Action.failure? Synchronizer.validate (strayState 10000000000000004)).isSome := by
    decide +kernel
  obtain ⟨failure, hfailure⟩ := Option.isSome_iff_exists.1 hfailure
  obtain ⟨st₁, hinvalid⟩ := Action.failure?_eq_some.1 hfailure
  obtain ⟨done, height, rest, st', hahead, -⟩ := hagree.fails _ _ hinvalid
  have hnone : heightsAhead (scanFrom 10000000000000004) (strayState 10000000000000004) = [] := by
    decide +kernel
  rw [hnone] at hahead
  simp at hahead

end Agreement
end LightSync
