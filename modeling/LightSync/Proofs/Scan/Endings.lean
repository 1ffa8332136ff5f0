import LightSync.Proofs.Scan.Course

/-!
# How scans end

A scan that ends before the last block of the cache does so because of the cache: the next row
cannot be read, or the next block does not stand at the next height, has no usable hash, or does not
name its parent; unless it is the caller who ends it (`Scan.Ending`). Wallets never do: whatever was
added, scanned and rewound before (`WalletStore.Ran`), the wallet is charted
(`WalletStore.tidy_of_ran`), so it takes every block that it is offered (`Scan.ending_of_ran`).
-/

set_option autoImplicit false

namespace LightSync
namespace Scan

/-! ## Refused blocks -/

/-- At counted positions notes can be read, so a block cannot be looked into for want of its hash
only. -/
theorem hash?_of_block_error {isUnspent : Bytes → Bool} {keys : List AccountKey} {m : Nat}
    {b : Block} {e : Failure} (h : block isUnspent Note.reader keys (.counted m) b = .error e) :
    b.hash? = .error e := by
  rcases of_block_error h with hhash | ⟨output, place, hread, hcounted⟩
  · exact hhash
  obtain ⟨n, hposition⟩ := hcounted m rfl
  unfold Note.reader at hread
  rw [hposition] at hread
  split at hread
  · cases hread
  · split at hread <;> cases hread

section

variable {keys : List AccountKey} {w : Wallet} {p : Point} {b : Block} {e : Failure}

/-- A block that is refused stands at another height, or has a flaw. -/
theorem of_inspect_error {m : Nat} (hposition : p.treeSize = .counted m)
    (h : inspect Note.reader keys w p b = .error e) :
    (b.height.same (p.height + 1) = false ∧
      e = .brokenChain (.discontinuity (p.height + 1) b.height)) ∨
    (b.height.same (p.height + 1) = true ∧ Links.Flaw p.hash [b] 0 b e) := by
  by_cases hsame : b.height.same (p.height + 1) = true
  · refine Or.inr ⟨hsame, ?_⟩
    have hnext : checkNext p b = Links.checkParent p.hash b := if_pos hsame
    have hcheck : Links.checkBlock ⟨some b.height, p.hash⟩ b = .error e := by
      unfold inspect at h
      rw [hnext, hposition] at h
      unfold Links.checkBlock
      cases hparent : Links.checkParent p.hash b with
      | error f =>
          rw [hparent] at h
          cases h
          rfl
      | ok u =>
          rw [hparent] at h
          dsimp only
          rw [hash?_of_block_error h]
    rcases Links.checkBlock_cases ⟨some b.height, p.hash⟩ [b] b with ⟨hash, -, hpass, -⟩ |
      ⟨f, hfail, hflaw⟩
    · rw [hcheck] at hpass
      cases hpass
    · rw [hcheck] at hfail
      cases hfail
      exact hflaw
  · refine Or.inl ⟨Bool.eq_false_iff.2 hsame, ?_⟩
    have hnext : checkNext p b = .error (.brokenChain (.discontinuity (p.height + 1) b.height)) :=
      if_neg hsame
    unfold inspect at h
    rw [hnext] at h
    cases h
    rfl

end

/-! ## Endings -/

variable {τ : Type}

/-- Why the cache hands out no more blocks to a scan, if there is a reason. -/
def unread (setup : ScanSetup τ) (st : SyncState τ) : Option Failure :=
  (st.cache.blocks (some (startOf setup.activation st.wallet.content).height) setup.limit).stop

theorem blocks_of_no_limit {c : Cache} {last limit : Option Number} {e : Failure}
    (h : RowLimit.ofBlocks limit = .error e) : c.blocks last limit = Walk.failed e := by
  rw [Cache.blocks, h]

theorem pending_of_no_limit {setup : ScanSetup τ} (st : SyncState τ) {e : Failure}
    (h : RowLimit.ofBlocks setup.limit = .error e) : pending setup st = [] :=
  congrArg Walk.items (blocks_of_no_limit h)

/-- The scan of the cache took the blocks `done` first, and stands at `q` behind them. -/
def Took (setup : ScanSetup τ) (st : SyncState τ) (done : List Block) (q : Point)
    (st' : SyncState τ) : Prop :=
  takeAll setup.reader st.wallet.content.accountKeys (startOf setup.activation st.wallet.content)
    st.wallet.content done = .ok (q, st'.wallet.content)

/-- How a scan of the cache ends: with the last block, or before because of the cache, or because
of its caller, who may have it stopped, fail when told about a block, or have set no proper limit.
The blocks so far were taken. -/
inductive Ending (setup : ScanSetup τ) (st : SyncState τ) :
    EStateM.Result Failure (SyncState τ) ScanSummary → Prop
  | complete (q : Point) (st' : SyncState τ) (htook : Took setup st (pending setup st) q st') :
      Ending setup st (.ok q.summary st')
  | unreadable (q : Point) (e : Failure) (st' : SyncState τ)
      (htook : Took setup st (pending setup st) q st')
      (hunreadable : st.cache.Unreadable
        (some (startOf setup.activation st.wallet.content).height) setup.limit e) :
      Ending setup st (.error e st')
  | gap (done rest : List Block) (b : Block) (q : Point) (st' : SyncState τ)
      (hpending : pending setup st = done ++ b :: rest) (htook : Took setup st done q st')
      (hgap : b.height.same (q.height + 1) = false) :
      Ending setup st (.error (.brokenChain (.discontinuity (q.height + 1) b.height)) st')
  | flaw (done rest : List Block) (b : Block) (q : Point) (e : Failure) (st' : SyncState τ)
      (hpending : pending setup st = done ++ b :: rest) (htook : Took setup st done q st')
      (hsame : b.height.same (q.height + 1) = true) (hflaw : Links.Flaw q.hash [b] 0 b e) :
      Ending setup st (.error e st')
  | refused (q : Point) (e : Failure) (st' : SyncState τ) (htook : Took setup st [] q st')
      (hlimit : RowLimit.ofBlocks setup.limit = .error e) : Ending setup st (.error e st')
  | stopped (done rest : List Block) (b : Block) (q : Point) (st' : SyncState τ)
      (hpending : pending setup st = done ++ b :: rest) (htook : Took setup st done q st')
      (host : τ) (hstops : setup.hooks.stops host = true) :
      Ending setup st (.ok { q.summary with aborted := true } st')
  | interrupted (done rest : List Block) (q : Point) (e : Failure) (st' : SyncState τ)
      (hpending : pending setup st = done ++ rest) (htook : Took setup st done q st')
      (report : ScanProgress) (before after : SyncState τ)
      (hprogress : setup.hooks.progress report before = .error e after) :
      Ending setup st (.error e st')

section

variable {setup : ScanSetup τ} {st st' : SyncState τ} {done rest : List Block} {q : Point}
  {inputs : List Bytes}

/-- One more block. -/
theorem Took.concat (h : Took setup st done q st') {b : Block} {found : ScannedBlock}
    {store : WalletStore}
    (hinspect : inspect setup.reader st.wallet.content.accountKeys st'.wallet.content q b =
      .ok found)
    (hcommit : WalletStore.commitBlock found st'.wallet = .ok () store) {st'' : SyncState τ}
    (hwallet : st''.wallet = store) : Took setup st (done ++ [b]) (q.advance found) st'' := by
  refine takeAll_concat_eq_ok.2 ⟨q, st'.wallet.content, h, take_eq_ok.2 ⟨found, hinspect, ?_, rfl⟩⟩
  rw [hwallet]
  exact (WalletStore.record_of_commitBlock hcommit).1

/-- What is done with the cache afterwards does not matter. -/
theorem Ending.ensuring {act : Action (SyncState τ) ScanSummary} {s : SyncState τ}
    (h : Ending setup st (act s)) {cleanup : SyncState τ → SyncState τ}
    (hcleanup : ∀ t, (cleanup t).wallet = t.wallet) :
    Ending setup st ((act.ensuring cleanup) s) := by
  have hkeeps {done : List Block} {q : Point} {t : SyncState τ} (htook : Took setup st done q t) :
      Took setup st done q (cleanup t) := by
    unfold Took
    rw [hcleanup]
    exact htook
  unfold Action.ensuring
  generalize act s = result at h
  cases h with
  | complete q t htook => exact .complete q _ (hkeeps htook)
  | unreadable q e t htook hunreadable => exact .unreadable q e _ (hkeeps htook) hunreadable
  | gap done rest b q t hpending htook hgap =>
      exact .gap done rest b q _ hpending (hkeeps htook) hgap
  | flaw done rest b q e t hpending htook hsame hflaw =>
      exact .flaw done rest b q e _ hpending (hkeeps htook) hsame hflaw
  | refused q e t htook hlimit => exact .refused q e _ (hkeeps htook) hlimit
  | stopped done rest b q t hpending htook host hstops =>
      exact .stopped done rest b q _ hpending (hkeeps htook) host hstops
  | interrupted done rest q e t hpending htook report before after hprogress =>
      exact .interrupted done rest q e _ hpending (hkeeps htook) report before after hprogress

/-- The course of a scan of the cache, if the wallet takes all that it offers. -/
theorem ending_of_course {s : SyncState τ} {bs : List Block} {stop : Option Failure}
    {offers : List (WalletStore × ScannedBlock)}
    {result : EStateM.Result Failure (SyncState τ) ScanSummary}
    (hreader : setup.reader = Note.reader) (haside : Aside setup.hooks)
    (hcourse : Course setup st.wallet.content.accountKeys stop q bs s offers result)
    (hstart : Underway inputs st.wallet.content.accountKeys q s.wallet)
    (hbs : ∀ b ∈ bs, b.HasWordHeight ∧ b.InRange)
    (htakes : ∀ o ∈ offers, ∃ s', WalletStore.commitBlock o.2 o.1 = .ok () s')
    (hstop : stop = unread setup st)
    (hpending : pending setup st = done ++ bs) (htook : Took setup st done q s) :
    Ending setup st result := by
  induction hcourse generalizing done inputs with
  | @complete p s _ =>
      rw [List.append_nil] at hpending
      exact .complete p s (hpending ▸ htook)
  | @halted p s e h =>
      rw [List.append_nil] at hpending
      rcases Cache.of_stop_blocks (hstop.symm.trans h) with hlimit | hunreadable
      · -- there are no blocks without a limit
        have hnone : done = [] := hpending.symm.trans (pending_of_no_limit st hlimit)
        exact .refused p e s (hnone ▸ htook) hlimit
      · exact .unreadable p e s (hpending ▸ htook) hunreadable
  | @stopped p b rest s h => exact .stopped done rest b p s hpending htook s.host h
  | @misfit p b rest s e h =>
      obtain ⟨size, m, -, hbehind⟩ := hstart.charted
      rcases of_inspect_error hbehind.treeSize (hreader ▸ h) with ⟨hgap, rfl⟩ | ⟨hsame, hflaw⟩
      · exact .gap done rest b p s hpending htook hgap
      · exact .flaw done rest b p e s hpending htook hsame hflaw
  | refused _ hcommit =>
      -- the wallet takes the block
      obtain ⟨s', hok⟩ := htakes _ List.mem_cons_self
      rw [hcommit] at hok
      cases hok
  | @interrupted p b rest s s' found store console report e h hcommit hprogress =>
      refine .interrupted (done ++ [b]) rest (p.advance found) e s' ?_
        (htook.concat h hcommit (haside.of_error hprogress)) report _ s' hprogress
      rw [hpending, List.append_assoc, List.singleton_append]
  | @next p b rest s s' found store console report offers result h hcommit hprogress _ ih =>
      obtain ⟨hword, hb⟩ := hbs b List.mem_cons_self
      have hwallet : s'.wallet = store := haside.of_ok hprogress
      have hnext := hstart.next hword hb (hreader ▸ h) hcommit
      rw [← hwallet] at hnext
      refine ih hnext (fun c hc => hbs c (List.mem_cons_of_mem b hc))
        (fun o ho => htakes o (List.mem_cons_of_mem _ ho)) ?_ (htook.concat h hcommit hwallet)
      rw [hpending, List.append_assoc, List.singleton_append]

end

/-! ## From the cache -/

section

variable {setup : ScanSetup τ} {st : SyncState τ} {inputs : List Bytes}

variable (setup st) in
/-- A scan of the cache goes through the blocks that are pending; the wallet is the same when it
sets out, and what is done with the cache afterwards leaves the wallet alone. -/
theorem course_of_run : ∃ (act : Action (SyncState τ) ScanSummary) (s : SyncState τ)
    (close : Cache → Cache), s.wallet = st.wallet ∧
    Course setup st.wallet.content.accountKeys (unread setup st)
      (startOf setup.activation st.wallet.content) (pending setup st) s (offered setup st) (act s) ∧
    run setup st = (act.ensuring fun t => { t with cache := close t.cache }) s := by
  let act := steps setup st.wallet.content.accountKeys (unread setup st)
    (startOf setup.activation st.wallet.content) (pending setup st)
  rw [run_eq]
  cases hlimit : RowLimit.ofBlocks setup.limit with
  | ok rows =>
      exact ⟨act, { st with cache := st.cache.openCursor }, Cache.closeCursor, rfl,
        course_of_steps _ _ _ _ _ _, SyncState.traverse_of_limit hlimit _ st⟩
  | error e =>
      have hnone := pending_of_no_limit st hlimit
      have hoffered : offered setup st = [] := by
        rw [offered, hnone]
        rfl
      refine ⟨act, st, id, rfl, ?_, ?_⟩
      · rw [hoffered]
        show Course _ _ _ _ _ _ _ (steps _ _ _ _ (pending setup st) st)
        rw [hnone]
        exact course_of_steps _ _ _ _ [] st
      · rw [SyncState.traverse_of_no_limit hlimit, ← blocks_of_no_limit hlimit]
        show act st = _
        unfold Action.ensuring
        cases act st <;> rfl

/-- The blocks that are pending were decoded. -/
theorem inRange_of_mem_pending {b : Block} (hb : b ∈ pending setup st) :
    b.HasWordHeight ∧ b.InRange :=
  ⟨Cache.hasWordHeight_of_mem_blocks hb, Cache.inRange_of_mem_blocks hb⟩

/-- However a scan of the cache ends, it leaves a charted wallet. -/
theorem tidy_of_run (hreader : setup.reader = Note.reader) (haside : Aside setup.hooks)
    (h : WalletStore.Tidy inputs st.wallet) :
    WalletStore.Tidy (inputs ++ inputsOf (offered setup st)) ((run setup).after st).wallet := by
  obtain ⟨act, s, close, hwallet, hcourse, hrun⟩ := course_of_run setup st
  have hstart : Underway inputs st.wallet.content.accountKeys
      (startOf setup.activation st.wallet.content) s.wallet := by
    rw [hwallet]
    exact underway_startOf setup.activation h
  have hafter : ((run setup).after st).wallet = (act.after s).wallet := by
    rw [Action.after_eq_stateOf, hrun, ← Action.after_eq_stateOf, Action.after_ensuring]
  rw [hafter, Action.after_eq_stateOf]
  exact tidy_of_course hreader haside hcourse hstart fun b hb => inRange_of_mem_pending hb

end

end Scan

/-! ## Histories of a wallet -/

namespace WalletStore

/-- What an empty wallet becomes by adding accounts, by scans for encrypted notes, and by rewinding
and truncating it, whether or not they succeed; with the strings that were hashed for the notes that
were found on the way. -/
inductive Ran : WalletStore → List Bytes → Prop where
  | fresh (backing : Backing Wallet) : Ran (Database.connect Wallet.empty backing) []
  | addAccount {s : WalletStore} {inputs : List Bytes} (account : Number) (viewingKey : Bytes)
      (h : Ran s inputs) : Ran ((addAccount account viewingKey).after s) inputs
  | scan {τ : Type} {setup : ScanSetup τ} {st : SyncState τ} {inputs : List Bytes}
      (hreader : setup.reader = Note.reader) (haside : Scan.Aside setup.hooks)
      (h : Ran st.wallet inputs) :
      Ran ((Scan.run setup).after st).wallet (inputs ++ Scan.inputsOf (Scan.offered setup st))
  | rewind {s : WalletStore} {inputs : List Bytes} (target depth : Number) (stable : Option Number)
      (h : Ran s inputs) : Ran ((rewind target depth stable).after s) inputs
  | truncate {s : WalletStore} {inputs : List Bytes} (height : Number) (h : Ran s inputs) :
      Ran ((truncate height).after s) inputs

theorem tidy_of_ran {s : WalletStore} {inputs : List Bytes} (h : Ran s inputs) : Tidy inputs s := by
  induction h with
  | fresh backing =>
      exact ⟨⟨rfl, Wallet.coherent_empty⟩, rfl, fun _ => 0, Wallet.charted_empty _⟩
  | addAccount account viewingKey _ ih => exact ih.addAccount account viewingKey
  | scan hreader haside _ ih => exact Scan.tidy_of_run hreader haside ih
  | rewind target depth stable _ ih => exact ih.rewind target depth stable
  | truncate height _ ih => exact ih.truncate height

end WalletStore

namespace Scan

/-- **A wallet takes every block that a scan offers it**, whatever was added, scanned and rewound
before, so a scan ends early only because of the cache or of the caller; as long as the commitments
can be counted and no two of the strings that were hashed have the same nullifier. -/
theorem ending_of_ran {τ : Type} {setup : ScanSetup τ} {st : SyncState τ} {inputs : List Bytes}
    (hran : WalletStore.Ran st.wallet inputs) (hreader : setup.reader = Note.reader)
    (haside : Aside setup.hooks)
    (hsizes : ∀ o ∈ offered setup st, o.2.treeSize < .int Number.exactLimit)
    (hseparate : Note.Separates (inputs ++ inputsOf (offered setup st))) :
    (∀ o ∈ offered setup st, o.1.content.Consistent o.2 ∧
      ∃ s', WalletStore.commitBlock o.2 o.1 = .ok () s') ∧ Ending setup st (run setup st) := by
  obtain ⟨act, s, close, hwallet, hcourse, hrun⟩ := course_of_run setup st
  have hstart : Underway inputs st.wallet.content.accountKeys
      (startOf setup.activation st.wallet.content) s.wallet := by
    rw [hwallet]
    exact underway_startOf setup.activation (WalletStore.tidy_of_ran hran)
  have htakes := takes_of_course hreader haside hcourse hstart
    (fun b hb => inRange_of_mem_pending hb) hsizes hseparate
  refine ⟨htakes, ?_⟩
  rw [hrun]
  refine Ending.ensuring ?_ fun _ => rfl
  have htook : Took setup st [] (startOf setup.activation st.wallet.content) s := by
    rw [Took, hwallet]
    rfl
  exact ending_of_course hreader haside hcourse hstart (fun b hb => inRange_of_mem_pending hb)
    (fun o ho => (htakes o ho).2) rfl (List.nil_append _).symm htook

/-! ### The same notes once more -/

def encryptedScan : ScanSetup Unit := ⟨Note.reader, 50, none, false, ScanHooks.none⟩

/-- A note that is encrypted to the viewing key `[1]`, always with the same commitment. -/
def payment : SaplingOutput :=
  let ephemeralKey := List.replicate Note.ephemeralKeyLength 7
  ⟨[2], ephemeralKey, match Note.encrypt [1] ephemeralKey 5 Note.zeroSeed with
    | .ok ciphertext => ciphertext
    | .error _ => []⟩

/-- An account is added, and a block with a note is there to be scanned. -/
def paid : SyncState Unit :=
  { SyncState.idle (Cache.inMemory
      ⟨[rowOf (linkedBlock 50 1 0 [⟨0, [7], 0, [], [payment], []⟩])], by decide +kernel⟩)
      Wallet.empty with
    wallet := (WalletStore.addAccount 0 [1]).after (Database.connect Wallet.empty .memory) }

/-- After the block was scanned and rewound away another one has the same note, the next one spends
it and has it once more, and there is a gap behind it. -/
def paidAgain : SyncState Unit :=
  { SyncState.idle (Cache.inMemory
      ⟨[rowOf (linkedBlock 50 3 0 [⟨0, [8], 0, [], [payment], []⟩]),
        rowOf (linkedBlock 51 4 3 [⟨0, [9], 0, [Blake2s.hash Note.nullifierPurpose
          (Note.nullifierInput [1] [2] 0)], [payment], []⟩]),
        rowOf (linkedBlock 53 6 5 [])], by decide +kernel⟩) Wallet.empty with
    wallet := (WalletStore.rewind 49 100 none).after ((run encryptedScan).after paid).wallet }

theorem ran_paidAgain :
    WalletStore.Ran paidAgain.wallet ([] ++ inputsOf (offered encryptedScan paid)) := by
  have hadded := (WalletStore.Ran.fresh .memory).addAccount 0 [1]
  have hscanned : WalletStore.Ran ((run encryptedScan).after paid).wallet _ :=
    .scan rfl aside_none hadded
  exact hscanned.rewind 49 100 none

/-- The wallet takes both blocks, and the scan ends at the gap. -/
theorem ending_of_ran_paidAgain :
    WalletStore.Ran paidAgain.wallet ([] ++ inputsOf (offered encryptedScan paid)) ∧
      encryptedScan.reader = Note.reader ∧ Aside encryptedScan.hooks ∧
      ((∀ o ∈ offered encryptedScan paidAgain, o.2.treeSize < .int Number.exactLimit) ∧
        Note.Separates ([] ++ inputsOf (offered encryptedScan paid) ++
          inputsOf (offered encryptedScan paidAgain)) ∧
        (offered encryptedScan paidAgain).map (fun o => (o.2.notes.length, o.2.spends.length)) =
          [(1, 0), (1, 1)] ∧
        (run encryptedScan).failure? paidAgain = some (.brokenChain (.discontinuity 52 53))) ∧
      (∀ o ∈ offered encryptedScan paidAgain, o.1.content.Consistent o.2 ∧
        ∃ s', WalletStore.commitBlock o.2 o.1 = .ok () s') ∧
      Ending encryptedScan paidAgain (run encryptedScan paidAgain) := by
  have hcomputed : (∀ o ∈ offered encryptedScan paidAgain,
        o.2.treeSize < .int Number.exactLimit) ∧
      Note.Separates ([] ++ inputsOf (offered encryptedScan paid) ++
        inputsOf (offered encryptedScan paidAgain)) ∧
      (offered encryptedScan paidAgain).map (fun o => (o.2.notes.length, o.2.spends.length)) =
        [(1, 0), (1, 1)] ∧
      (run encryptedScan).failure? paidAgain = some (.brokenChain (.discontinuity 52 53)) := by
    decide +kernel
  exact ⟨ran_paidAgain, rfl, aside_none, hcomputed,
    ending_of_ran ran_paidAgain rfl aside_none hcomputed.1 hcomputed.2.1⟩

end Scan
end LightSync
