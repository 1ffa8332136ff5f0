import LightSync.Proofs.Chain.FirstFlaw
import LightSync.Proofs.Scan.Charted
import LightSync.Proofs.Wallet.Rewinding

/-!
# The course of a scan

A scan asks the wallet to record one block after another (`Scan.offered`). `Scan.Course` lists what
can become of it at each block. Between the blocks the wallet is charted and the scan stands behind
it (`Scan.Underway`), which every block that is recorded keeps. So a scan leaves a charted wallet,
however it ends (`Scan.tidy_of_course`), and as long as nullifiers can be told apart the wallet takes
all that it is offered (`Scan.takes_of_course`).
-/

set_option autoImplicit false

namespace LightSync
namespace Scan

variable {τ : Type}

/-! ## What is offered to the wallet -/

/-- The blocks that a scan asks the wallet to record, each with the wallet as it is then. All but
the last one were recorded. -/
def offers (setup : ScanSetup τ) (keys : List AccountKey) :
    Point → List Block → SyncState τ → List (WalletStore × ScannedBlock)
  | _, [], _ => []
  | p, b :: rest, st =>
      if setup.hooks.stops st.host then []
      else
        match inspect setup.reader keys st.wallet.content p b with
        | .error _ => []
        | .ok found =>
            (st.wallet, found) ::
              match step setup keys p b st with
              | .ok q st => offers setup keys q rest st
              | .error _ _ => []

/-- The blocks that a scan of the cache asks the wallet to record. -/
def offered (setup : ScanSetup τ) (st : SyncState τ) : List (WalletStore × ScannedBlock) :=
  offers setup st.wallet.content.accountKeys (startOf setup.activation st.wallet.content)
    (pending setup st) { st with cache := st.cache.openCursor }

/-- The strings that were hashed for the notes in what a scan offers. -/
def inputsOf (offers : List (WalletStore × ScannedBlock)) : List Bytes :=
  offers.flatMap fun o => o.2.inputs o.1.content.accounts

theorem inputsOf_cons (s : WalletStore) (found : ScannedBlock)
    (offers : List (WalletStore × ScannedBlock)) :
    inputsOf ((s, found) :: offers) = found.inputs s.content.accounts ++ inputsOf offers :=
  List.flatMap_cons

/-! ## The course of a scan -/

/-- How a scan goes through blocks: what it offers to the wallet, and what it comes to. -/
inductive Course (setup : ScanSetup τ) (keys : List AccountKey) (stop : Option Failure) :
    Point → List Block → SyncState τ → List (WalletStore × ScannedBlock) →
      EStateM.Result Failure (SyncState τ) ScanSummary → Prop where
  | complete {p : Point} {st : SyncState τ} (h : stop = none) :
      Course setup keys stop p [] st [] (.ok p.summary st)
  | halted {p : Point} {st : SyncState τ} {e : Failure} (h : stop = some e) :
      Course setup keys stop p [] st [] (.error e st)
  | stopped {p : Point} {b : Block} {rest : List Block} {st : SyncState τ}
      (h : setup.hooks.stops st.host = true) :
      Course setup keys stop p (b :: rest) st [] (.ok { p.summary with aborted := true } st)
  | misfit {p : Point} {b : Block} {rest : List Block} {st : SyncState τ} {e : Failure}
      (h : inspect setup.reader keys st.wallet.content p b = .error e) :
      Course setup keys stop p (b :: rest) st [] (.error e st)
  | refused {p : Point} {b : Block} {rest : List Block} {st : SyncState τ} {found : ScannedBlock}
      {store : WalletStore} {e : Failure}
      (h : inspect setup.reader keys st.wallet.content p b = .ok found)
      (hcommit : WalletStore.commitBlock found st.wallet = .error e store) :
      Course setup keys stop p (b :: rest) st [(st.wallet, found)]
        (.error e { st with wallet := store })
  | interrupted {p : Point} {b : Block} {rest : List Block} {st st' : SyncState τ}
      {found : ScannedBlock} {store : WalletStore} {console : List (Console.Line Detail)}
      {report : ScanProgress} {e : Failure}
      (h : inspect setup.reader keys st.wallet.content p b = .ok found)
      (hcommit : WalletStore.commitBlock found st.wallet = .ok () store)
      (hprogress : setup.hooks.progress report { st with wallet := store, console } =
        .error e st') :
      Course setup keys stop p (b :: rest) st [(st.wallet, found)] (.error e st')
  | next {p : Point} {b : Block} {rest : List Block} {st st' : SyncState τ} {found : ScannedBlock}
      {store : WalletStore} {console : List (Console.Line Detail)} {report : ScanProgress}
      {offers : List (WalletStore × ScannedBlock)}
      {result : EStateM.Result Failure (SyncState τ) ScanSummary}
      (h : inspect setup.reader keys st.wallet.content p b = .ok found)
      (hcommit : WalletStore.commitBlock found st.wallet = .ok () store)
      (hprogress : setup.hooks.progress report { st with wallet := store, console } = .ok () st')
      (hrest : Course setup keys stop (p.advance found) rest st' offers result) :
      Course setup keys stop p (b :: rest) st ((st.wallet, found) :: offers) result

section

variable {setup : ScanSetup τ} {keys : List AccountKey} {stop : Option Failure} {p : Point}
  {bs : List Block} {st : SyncState τ} {offers : List (WalletStore × ScannedBlock)}
  {result : EStateM.Result Failure (SyncState τ) ScanSummary}

variable (setup keys stop p bs st) in
theorem course_of_steps :
    Course setup keys stop p bs st (Scan.offers setup keys p bs st)
      (steps setup keys stop p bs st) := by
  induction bs generalizing p st with
  | nil =>
      cases hstop : stop with
      | none => exact .complete rfl
      | some e => exact .halted rfl
  | cons b bs ih =>
      rw [steps_cons, Scan.offers]
      by_cases hstops : setup.hooks.stops st.host = true
      · rw [if_pos hstops, if_pos hstops]
        exact .stopped hstops
      rw [if_neg hstops, if_neg hstops, Action.bind_apply]
      cases hstep : step setup keys p b st with
      | ok q st' =>
          obtain ⟨found, store, console, hinspect, hcommit, hprogress, rfl⟩ := of_step_eq_ok hstep
          rw [hinspect]
          exact .next hinspect hcommit hprogress (ih _ st')
      | error e st' =>
          rcases of_step_eq_error hstep with ⟨hinspect, rfl⟩ |
            ⟨found, store, hinspect, hcommit, rfl⟩ |
            ⟨found, store, console, report, hinspect, hcommit, hprogress⟩
          · rw [hinspect]
            exact .misfit hinspect
          · rw [hinspect]
            exact .refused hinspect hcommit
          · rw [hinspect]
            exact .interrupted hinspect hcommit hprogress

end

end Scan

/-! ## Between two blocks -/

namespace WalletStore

/-- Between calls the wallet is at rest, free of faults, and charted. -/
structure Tidy (inputs : List Bytes) (s : WalletStore) : Prop where
  settled : Settled s
  fault : s.fault = none
  charted : ∃ size, Wallet.Charted inputs size s.content

variable {inputs inputs' : List Bytes} {s s' : WalletStore}

theorem Tidy.mono (h : Tidy inputs s) (hsub : inputs ⊆ inputs') : Tidy inputs' s :=
  ⟨h.settled, h.fault, h.charted.imp fun _ hcharted => hcharted.mono hsub⟩

/-- A block that is refused changes nothing. -/
theorem Tidy.refused (h : Tidy inputs s) {found : ScannedBlock} {e : Failure}
    (hcommit : commitBlock found s = .error e s') : Tidy inputs s' := by
  obtain ⟨hcontent, hrest, hfault, -⟩ := content_of_commitBlock_error h.settled.rest hcommit
  refine ⟨⟨hrest, hcontent ▸ h.settled.coherent⟩, hfault.trans h.fault, ?_⟩
  rw [hcontent]
  exact h.charted

theorem Tidy.addAccount (h : Tidy inputs s) (account : Number) (viewingKey : Bytes) :
    Tidy inputs ((addAccount account viewingKey).after s) := by
  refine ⟨h.settled.addAccount account viewingKey,
    (fault_after_addAccount account viewingKey s).trans h.fault, ?_⟩
  obtain ⟨size, hcharted⟩ := h.charted
  rcases (after_addAccount account viewingKey s).2 with hsame | hadd
  · rw [hsame]
    exact ⟨size, hcharted⟩
  · exact ⟨size, hcharted.addAccount hadd⟩

theorem Tidy.cut (h : Tidy inputs s) {height : Number} (hcontent : s'.content = s.content.cut height)
    (hrest : s'.AtRest) (hfault : s'.fault = s.fault) : Tidy inputs s' := by
  obtain ⟨size, hcharted⟩ := h.charted
  refine ⟨⟨hrest, ?_⟩, hfault.trans h.fault, size, ?_⟩
  · rw [hcontent]
    exact h.settled.coherent.cut height
  · rw [hcontent]
    exact hcharted.cut height

theorem Tidy.rewind (h : Tidy inputs s) (target depth : Number) (stable : Option Number) :
    Tidy inputs ((rewind target depth stable).after s) := by
  rcases after_rewind h.settled.rest target depth stable with hsame | ⟨hcontent, hrest, hfault⟩
  · rw [hsame]
    exact h
  · exact h.cut hcontent hrest hfault

theorem Tidy.truncate (h : Tidy inputs s) (height : Number) :
    Tidy inputs ((truncate height).after s) := by
  obtain ⟨s', hs', hcontent, hrest, hfault⟩ := truncate_of_atRest height h.settled.rest
  rw [Action.after_of_ok hs']
  exact h.cut hcontent hrest hfault

end WalletStore

namespace Scan

variable {τ : Type}

open WalletStore (Tidy commitBlock)

/-- Between two blocks the scan stands behind the wallet, with its viewing keys. -/
structure Underway (inputs : List Bytes) (keys : List AccountKey) (p : Point) (s : WalletStore) :
    Prop where
  settled : WalletStore.Settled s
  fault : s.fault = none
  keys : s.content.accountKeys = keys
  charted : ∃ size m, Wallet.Charted inputs size s.content ∧ Behind size m p s.content

section

variable {inputs : List Bytes} {keys : List AccountKey} {p : Point} {b : Block}
  {s s' : WalletStore} {found : ScannedBlock} {e : Failure}

theorem Underway.tidy (h : Underway inputs keys p s) : Tidy inputs s :=
  let ⟨size, _, hcharted, _⟩ := h.charted
  ⟨h.settled, h.fault, size, hcharted⟩

theorem underway_startOf (activation : Number) (h : Tidy inputs s) :
    Underway inputs s.content.accountKeys (startOf activation s.content) s := by
  obtain ⟨size, hcharted⟩ := h.charted
  obtain ⟨m, hbehind⟩ := behind_startOf activation hcharted
  exact ⟨h.settled, h.fault, rfl, size, m, hcharted, hbehind⟩

/-- A wallet takes what was found, if commitments can be counted and nullifiers be told apart. -/
theorem Underway.takes (h : Underway inputs keys p s) (hword : b.HasWordHeight) (hb : b.InRange)
    (hinspect : inspect Note.reader keys s.content p b = .ok found)
    (hsize : found.treeSize < .int Number.exactLimit)
    (hseparate : Note.Separates (inputs ++ found.inputs s.content.accounts)) :
    s.content.Consistent found ∧ ∃ s', commitBlock found s = .ok () s' := by
  obtain ⟨size, m, hcharted, hbehind⟩ := h.charted
  rw [← h.keys] at hinspect
  have hconsistent := consistent_of_inspect h.settled.coherent hcharted hbehind hword hb hinspect
    hsize hseparate
  obtain ⟨w, hrecord⟩ := (Wallet.record_isOk_iff_of_storable h.settled.coherent
    (storable_of_inspect hbehind hword hb hinspect)).2 hconsistent
  obtain ⟨s', hcommit, -⟩ := WalletStore.commitBlock_of_record h.settled.rest h.fault hrecord
  exact ⟨hconsistent, s', hcommit⟩

/-- When a block was recorded, the scan is behind it. -/
theorem Underway.next (h : Underway inputs keys p s) (hword : b.HasWordHeight) (hb : b.InRange)
    (hinspect : inspect Note.reader keys s.content p b = .ok found)
    (hcommit : commitBlock found s = .ok () s') :
    Underway (inputs ++ found.inputs s.content.accounts) keys (p.advance found) s' := by
  obtain ⟨size, m, hcharted, hbehind⟩ := h.charted
  obtain ⟨hrecord, hrest, hfault⟩ := WalletStore.record_of_commitBlock hcommit
  obtain ⟨found', k, -, hblock, hadvance, hk, hheight, hlt, hrec, -⟩ :=
    tip_of_take hword (take_eq_ok.2 ⟨found, hinspect, hrecord, rfl⟩)
  cases hblock.symm.trans (inspect_eq_ok.1 hinspect).2
  have htoInt : found.height.toInt? = some (k : Int) := by
    rw [hheight, hk]
    rfl
  rw [← h.keys] at hinspect
  obtain ⟨size', hcharted', hbehind'⟩ := charted_of_record h.settled.coherent hcharted hbehind
    hword hb hinspect hrecord
  refine ⟨⟨hrest, ?_⟩, hfault.trans h.fault, ?_, size', _, hcharted', hbehind'⟩
  · exact hrec.coherent h.settled.coherent htoInt (natAbs_le_maxSafe_of_word hlt)
  · rw [← h.keys, Wallet.accountKeys, hrec.accounts]
    rfl

end

/-! ## Whole scans -/

section

variable {setup : ScanSetup τ} {keys : List AccountKey} {stop : Option Failure} {p : Point}
  {bs : List Block} {st : SyncState τ} {offers : List (WalletStore × ScannedBlock)}
  {result : EStateM.Result Failure (SyncState τ) ScanSummary} {inputs : List Bytes}

/-- However a scan ends, it leaves a charted wallet. -/
theorem tidy_of_course (hreader : setup.reader = Note.reader) (haside : Aside setup.hooks)
    (hcourse : Course setup keys stop p bs st offers result)
    (hstart : Underway inputs keys p st.wallet)
    (hbs : ∀ b ∈ bs, b.HasWordHeight ∧ b.InRange) :
    Tidy (inputs ++ inputsOf offers) (Action.stateOf result).wallet := by
  have hleft (offers : List (WalletStore × ScannedBlock)) (inputs : List Bytes) :
      inputs ⊆ inputs ++ inputsOf offers := List.subset_append_left _ _
  induction hcourse generalizing inputs with
  | complete => exact hstart.tidy.mono (hleft _ _)
  | halted => exact hstart.tidy.mono (hleft _ _)
  | stopped => exact hstart.tidy.mono (hleft _ _)
  | misfit => exact hstart.tidy.mono (hleft _ _)
  | refused _ hcommit => exact (hstart.tidy.refused hcommit).mono (hleft _ _)
  | @interrupted p b rest s s' found store console report e hinspect hcommit hprogress =>
      obtain ⟨hword, hb⟩ := hbs b List.mem_cons_self
      have hwallet : s'.wallet = store := haside.of_error hprogress
      have hnext := hstart.next hword hb (hreader ▸ hinspect) hcommit
      rw [← hwallet] at hnext
      rw [inputsOf_cons, ← List.append_assoc]
      exact hnext.tidy.mono (hleft _ _)
  | @next p b rest s s' found store console report offers result hinspect hcommit hprogress _ ih =>
      obtain ⟨hword, hb⟩ := hbs b List.mem_cons_self
      have hwallet : s'.wallet = store := haside.of_ok hprogress
      have hnext := hstart.next hword hb (hreader ▸ hinspect) hcommit
      rw [← hwallet] at hnext
      rw [inputsOf_cons, ← List.append_assoc]
      exact ih hnext fun c hc => hbs c (List.mem_cons_of_mem _ hc)

/-- The wallet takes all that a scan offers. -/
theorem takes_of_course (hreader : setup.reader = Note.reader) (haside : Aside setup.hooks)
    (hcourse : Course setup keys stop p bs st offers result)
    (hstart : Underway inputs keys p st.wallet)
    (hbs : ∀ b ∈ bs, b.HasWordHeight ∧ b.InRange)
    (hsizes : ∀ o ∈ offers, o.2.treeSize < .int Number.exactLimit)
    (hseparate : Note.Separates (inputs ++ inputsOf offers)) :
    ∀ o ∈ offers, o.1.content.Consistent o.2 ∧ ∃ s', commitBlock o.2 o.1 = .ok () s' := by
  -- the block at hand, of those that a scan offers from here on
  have hfirst {inputs : List Bytes} {p : Point} {b : Block} {s : WalletStore}
      {found : ScannedBlock} {rest : List (WalletStore × ScannedBlock)}
      (hstart : Underway inputs keys p s) (hb : b.HasWordHeight ∧ b.InRange)
      (hinspect : inspect setup.reader keys s.content p b = .ok found)
      (hsizes : ∀ o ∈ (s, found) :: rest, o.2.treeSize < .int Number.exactLimit)
      (hseparate : Note.Separates (inputs ++ inputsOf ((s, found) :: rest))) :
      s.content.Consistent found ∧ ∃ s', commitBlock found s = .ok () s' := by
    refine hstart.takes hb.1 hb.2 (hreader ▸ hinspect) (hsizes _ List.mem_cons_self)
      (hseparate.mono ?_)
    rw [inputsOf_cons, ← List.append_assoc]
    exact List.subset_append_left _ _
  induction hcourse generalizing inputs with
  | complete => exact fun o ho => by cases ho
  | halted => exact fun o ho => by cases ho
  | stopped => exact fun o ho => by cases ho
  | misfit => exact fun o ho => by cases ho
  | refused hinspect _ =>
      rw [List.forall_mem_singleton]
      exact hfirst hstart (hbs _ List.mem_cons_self) hinspect hsizes hseparate
  | interrupted hinspect _ _ =>
      rw [List.forall_mem_singleton]
      exact hfirst hstart (hbs _ List.mem_cons_self) hinspect hsizes hseparate
  | @next p b rest s s' found store console report offers result hinspect hcommit hprogress _ ih =>
      have hb := hbs b List.mem_cons_self
      have hwallet : s'.wallet = store := haside.of_ok hprogress
      have hnext := hstart.next hb.1 hb.2 (hreader ▸ hinspect) hcommit
      rw [← hwallet] at hnext
      refine List.forall_mem_cons.2 ⟨hfirst hstart hb hinspect hsizes hseparate, ?_⟩
      rw [inputsOf_cons, ← List.append_assoc] at hseparate
      exact ih hnext (fun c hc => hbs c (List.mem_cons_of_mem _ hc))
        (fun o ho => hsizes o (List.mem_cons_of_mem _ ho)) hseparate

end

end Scan
end LightSync
