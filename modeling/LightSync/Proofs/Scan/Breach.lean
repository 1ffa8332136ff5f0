import LightSync.Proofs.Scan.Entering
import LightSync.Proofs.Store.Quiet

/-!
# Where a scan breaks off

Among the failures of a scan those about the chain come from one place: a block that may not follow
the last one (`of_run_error`). Rows that cannot be read, readers, databases and callers fail in
other ways, the last two by assumption. The blocks before it were taken, and nothing else was done.
A link that passed the validation does not break a scan that asks for no more where it begins
(`checkNext_of_follow`).
-/

set_option autoImplicit false

namespace LightSync

open LightSync.Action (Quiet)

/-! ## Rows -/

namespace Cache

theorem quiet_ofBlocks {limit : Option Number} {e : Failure}
    (h : RowLimit.ofBlocks limit = .error e) : e.concernsChain = false := by
  unfold RowLimit.ofBlocks at h
  split at h
  · cases h
  · split at h
    · cases h
    · cases h
      rfl

theorem quiet_above {β : Type} {t : Keyed β} {last limit : Option Number} {e : Failure}
    (h : t.above last limit = .error e) : e.concernsChain = false := by
  rcases Except.bind_eq_error.1 h with hlimit | ⟨asked, -, h⟩
  · exact quiet_ofBlocks hlimit
  · split at h
    · cases h
      rfl
    · split at h <;> cases h

theorem quiet_storedRows {c : Cache} {last limit : Option Number} {e : Failure}
    (h : (c.storedRows last limit).stop = some e) : e.concernsChain = false := by
  cases c with
  | rows c =>
      change (c.rows last limit).stop = some e at h
      unfold RowCache.rows at h
      split at h
      · rename_i habove
        cases h
        exact quiet_above habove
      · cases h
  | files c =>
      change (c.rows last limit).stop = some e at h
      unfold FileCache.rows at h
      split at h
      · rename_i habove
        cases h
        exact quiet_above habove
      · rcases Walk.of_stop_attempt h with hstop | ⟨entry, -, hread⟩
        · cases hstop
        · unfold FileCache.readFile at hread
          dsimp only at hread
          split at hread
          · cases hread
          · cases hread
            rfl

theorem quiet_decodeRow {row : CachedRow} {e : Failure} (h : decodeRow row = .error e) :
    e.concernsChain = false := by
  unfold decodeRow at h
  split at h
  · rename_i hdecode
    cases h
    unfold Block.decode at hdecode
    split at hdecode
    · cases hdecode
    · rename_i stop _
      cases hdecode
      cases stop <;> rfl
  · split at h
    · cases h
    · cases h
      rfl

/-- A row that cannot be read is no matter of the chain. -/
theorem quiet_blocks {c : Cache} {last limit : Option Number} {e : Failure}
    (h : (c.blocks last limit).stop = some e) : e.concernsChain = false := by
  rcases of_stop_blocks h with hlimit | hunreadable
  · exact quiet_ofBlocks hlimit
  cases hunreadable with
  | row row _ _ hdecode => exact quiet_decodeRow hdecode
  | store e' he' => exact (Failure.concernsChain_duringStorage _ _).trans (quiet_storedRows he')

end Cache

/-! ## Readers and callers -/

/-- The reader has no failures about the chain. -/
def NoteReader.Quiet (reader : NoteReader) : Prop :=
  ∀ output keys place e, reader output keys place = .error e → e.concernsChain = false

theorem NoteReader.quiet_ofList (listed : List ListedNote) : (NoteReader.ofList listed).Quiet := by
  intro output keys place e h
  cases h

theorem Note.quiet_reader : Note.reader.Quiet := by
  intro output keys place e h
  unfold Note.reader at h
  split at h
  · cases h
  · split at h
    · cases h
    · rcases Except.bind_eq_error.1 h with hnullifier | ⟨nf, -, h⟩
      · rcases Except.bind_eq_error.1 hnullifier with hplace | ⟨place, -, hplace⟩
        · unfold Number.toBytes at hplace
          split at hplace
          · cases hplace
          · cases hplace
            rfl
        · cases hplace
      · cases h

namespace Scan

/-- A caller that stands aside and has no failures about the chain. -/
structure Onlooker {τ : Type} (hooks : ScanHooks τ) : Prop extends Aside hooks where
  quiet : ∀ report, Quiet (hooks.progress report)

theorem onlooker_none {τ : Type} : Onlooker (ScanHooks.none : ScanHooks τ) where
  toAside := aside_none
  quiet _ := Quiet.pure ()

/-! ## Blocks -/

section

variable {reader : NoteReader} {keys : List AccountKey} {p p' q : Point} {w w' : Wallet} {b : Block}
  {s : ScannedBlock} {e : Failure}

/-- A block is refused for its place in the chain before it is looked into. -/
theorem checkNext_of_inspect_error (hquiet : reader.Quiet) (h : inspect reader keys w p b = .error e)
    (he : e.concernsChain = true) : checkNext p b = .error e := by
  unfold inspect at h
  split at h
  · rename_i hcheck
    cases h
    exact hcheck
  · have hnot : e.concernsChain = false := by
      rcases of_block_error h with hhash | ⟨output, place, hread, -⟩
      · rw [Block.hash?_eq_error hhash]
        rfl
      · exact hquiet output keys place e hread
    rw [hnot] at he
    cases he

/-- A link does not hold only at the block itself. -/
theorem mismatch_of_checkParent_error {parent : Option Bytes}
    (h : Links.checkParent parent b = .error e) (he : e.concernsChain = true) :
    e = .brokenChain (.parentMismatch b.height) := by
  unfold Links.checkParent at h
  split at h
  · cases h
  · split at h
    · rename_i hparent
      cases h
      rw [Block.parent?_eq_error hparent] at he
      cases he
    · split at h
      · cases h
      · cases h
        rfl

/-- A block that stands at the next height is refused for the parent it names, another one for its
height. -/
theorem of_checkNext_error (h : checkNext p b = .error e) (he : e.concernsChain = true) :
    (b.height.same (p.height + 1) = true ∧ e = .brokenChain (.parentMismatch b.height)) ∨
      (b.height.same (p.height + 1) = false ∧
        e = .brokenChain (.discontinuity (p.height + 1) b.height)) := by
  unfold checkNext at h
  dsimp only at h
  split at h
  · rename_i hsame
    exact Or.inl ⟨hsame, mismatch_of_checkParent_error h he⟩
  · rename_i hsame
    cases h
    exact Or.inr ⟨Bool.eq_false_iff.2 hsame, rfl⟩

/-! ### The tip -/

/-- The scan stands at the tip, if the wallet has one. -/
def AtTip (p : Point) (w : Wallet) : Prop := ∀ t, w.tip? = some t → p.height = .int t.height

theorem atTip_startOf (activation : Number) (w : Wallet) : AtTip (startOf activation w) w := by
  intro t ht
  unfold startOf
  rw [ht]

theorem atTip_of_take (hword : b.HasWordHeight) (h : take reader keys p w b = .ok (p', w')) :
    AtTip p' w' := by
  obtain ⟨s, n, -, -, rfl, hb, hheight, -, -, htip⟩ := tip_of_take hword h
  intro t ht
  cases htip.symm.trans ht
  exact hheight.trans hb

theorem atTip_of_takeAll {bs : List Block} (hword : ∀ b ∈ bs, b.HasWordHeight) (htip : AtTip p w)
    (h : takeAll reader keys p w bs = .ok (q, w')) : AtTip q w' := by
  induction bs generalizing p w with
  | nil =>
      cases h
      exact htip
  | cons b bs ih =>
      obtain ⟨⟨p1, w1⟩, h1, h2⟩ := Except.bind_eq_ok.1 h
      exact ih (fun c hc => hword c (List.mem_cons_of_mem _ hc))
        (atTip_of_take (hword b List.mem_cons_self) h1) h2

/-- What may follow the last block follows the tip. -/
theorem AtTip.checkHeight (h : AtTip p w) (hcheck : checkNext p b = .ok ())
    (hs : s.height = b.height) : WalletStore.checkHeight s w = .ok () := by
  unfold WalletStore.checkHeight
  cases ht : w.tip? with
  | none => rfl
  | some t =>
      have hsame := (checkNext_eq_ok.1 hcheck).1
      rw [h t ht, ← hs] at hsame
      exact if_pos hsame

end

/-! ## Scans -/

section

variable {τ : Type} {setup : ScanSetup τ} {keys : List AccountKey} {p p' : Point} {b : Block}
  {st st' : SyncState τ} {stop : Option Failure} {bs : List Block} {e : Failure}

/-- A step that fails with a failure about the chain has done nothing: the block may not follow. -/
theorem of_step_error (hquiet : setup.reader.Quiet) (honlooker : Onlooker setup.hooks)
    (htip : AtTip p st.wallet.content) (h : step setup keys p b st = .error e st')
    (he : e.concernsChain = true) : checkNext p b = .error e ∧ st' = st := by
  rcases of_step_eq_error h with ⟨hinspect, rfl⟩ | ⟨s, store, hinspect, hcommit, -⟩ |
    ⟨s, store, console, report, -, -, hprogress⟩
  · exact ⟨checkNext_of_inspect_error hquiet hinspect he, rfl⟩
  · obtain ⟨hcheck, hblock⟩ := inspect_eq_ok.1 hinspect
    have hheight := WalletStore.checkHeight_of_commitBlock_error hcommit he
    rw [htip.checkHeight hcheck (identity_of_block hblock).1] at hheight
    cases hheight
  · rw [honlooker.quiet _ _ _ _ hprogress] at he
    cases he

/-- A scan that fails with a failure about the chain has taken the blocks up to one that may not
follow. -/
theorem of_steps_error (hquiet : setup.reader.Quiet) (honlooker : Onlooker setup.hooks)
    (h : steps setup keys stop p bs st = .error e st') (he : e.concernsChain = true)
    (hstop : ∀ f, stop = some f → f.concernsChain = false) (hword : ∀ b ∈ bs, b.HasWordHeight)
    (htip : AtTip p st.wallet.content) :
    ∃ done b rest q, bs = done ++ b :: rest ∧
      takeAll setup.reader keys p st.wallet.content done = .ok (q, st'.wallet.content) ∧
      checkNext q b = .error e := by
  induction bs generalizing p st with
  | nil =>
      cases stop with
      | none => cases h
      | some f =>
          cases h
          rw [hstop e rfl] at he
          cases he
  | cons b bs ih =>
      rw [steps_cons] at h
      split at h
      · cases h
      · rcases Action.bind_eq_error.1 h with hstep | ⟨p1, st1, hstep, hrest⟩
        · obtain ⟨hcheck, rfl⟩ := of_step_error hquiet honlooker htip hstep he
          exact ⟨[], b, bs, p, rfl, rfl, hcheck⟩
        · obtain ⟨htake, -⟩ := take_of_step honlooker.toAside hstep
          obtain ⟨done, c, rest, q, rfl, hdone, hcheck⟩ :=
            ih hrest (fun c hc => hword c (List.mem_cons_of_mem _ hc))
              (atTip_of_take (hword b List.mem_cons_self) htake)
          exact ⟨b :: done, c, rest, q, rfl, Except.bind_eq_ok.2 ⟨_, htake, hdone⟩, hcheck⟩

/-- **A scan of the cache breaks off at a block that may not follow**, and has taken those before
it. -/
theorem of_run_error (hquiet : setup.reader.Quiet) (honlooker : Onlooker setup.hooks)
    (h : run setup st = .error e st') (he : e.concernsChain = true) :
    ∃ done b rest q, pending setup st = done ++ b :: rest ∧
      takeAll setup.reader st.wallet.content.accountKeys
        (startOf setup.activation st.wallet.content) st.wallet.content done =
          .ok (q, st'.wallet.content) ∧
      checkNext q b = .error e := by
  rw [run_eq] at h
  obtain ⟨c, s, c', hs, rfl⟩ := SyncState.of_traverse_eq_error h
  have hbreak := of_steps_error hquiet honlooker hs he (fun f hf => Cache.quiet_blocks hf)
    (fun b hb => Cache.hasWordHeight_of_mem_blocks hb) (atTip_startOf _ _)
  exact hbreak

end

/-! ## Validated links -/

section

variable {reader : NoteReader} {keys : List AccountKey} {p q : Point} {w w' : Wallet} {b : Block}
  {e : Links.Expectation} {stop : Option Failure} {done rest : List Block}

/-- A validation fails with a failure about the chain at a block that names another parent. -/
theorem of_follow_error {report : LinkReport} {bs : List Block} {f : Failure}
    (hstop : ∀ f, stop = some f → f.concernsChain = false)
    (h : Links.follow stop e report bs = .error f) (hf : f.concernsChain = true) :
    ∃ b ∈ bs, f = .brokenChain (.parentMismatch b.height) := by
  induction bs generalizing e report with
  | nil =>
      cases stop with
      | none => cases h
      | some f' =>
          cases h
          rw [hstop f rfl] at hf
          cases hf
  | cons b bs ih =>
      rw [Links.follow] at h
      split at h
      · split at h
        · rename_i hcheck
          cases h
          refine ⟨b, List.mem_cons_self, ?_⟩
          unfold Links.checkBlock at hcheck
          split at hcheck
          · rename_i hparent
            cases hcheck
            exact mismatch_of_checkParent_error hparent hf
          · split at hcheck
            · rename_i hhash
              cases hcheck
              rw [Block.hash?_eq_error hhash] at hf
              cases hf
            · cases hcheck
        · obtain ⟨c, hc, hmismatch⟩ := ih h
          exact ⟨c, List.mem_cons_of_mem _ hc, hmismatch⟩
      · cases h

/-- **A link that was validated holds for a scan that comes to it**, if where both begin the scan
asks for nothing that the validation does not. -/
theorem checkNext_of_follow {report report' : LinkReport}
    (hparent : ∀ hash, p.hash = some hash → e.parent = some hash)
    (hfits : ∀ c, (done ++ b :: rest).head? = some c → c.height.same (p.height + 1) = true →
      Links.fits e c = true)
    (h : Links.follow stop e report (done ++ b :: rest) = .ok report')
    (htake : takeAll reader keys p w done = .ok (q, w')) (height : Number) :
    checkNext q b ≠ .error (.brokenChain (.parentMismatch height)) := by
  induction done generalizing e p w report with
  | nil =>
      cases htake
      intro hcheck
      rcases of_checkNext_error hcheck rfl with ⟨hsame, -⟩ | ⟨-, hgap⟩
      · unfold checkNext at hcheck
        rw [if_pos hsame] at hcheck
        cases hhash : q.hash with
        | none =>
            rw [hhash] at hcheck
            cases hcheck
        | some hash =>
            rw [hhash, ← hparent hash hhash] at hcheck
            rw [List.nil_append, Links.follow, if_pos (hfits b rfl hsame), Links.checkBlock,
              hcheck] at h
            cases h
      · cases hgap
  | cons c done ih =>
      obtain ⟨⟨p1, w1⟩, h1, h2⟩ := Except.bind_eq_ok.1 htake
      obtain ⟨s, hs, -, rfl⟩ := take_eq_ok.1 h1
      obtain ⟨hcheck, hblock⟩ := inspect_eq_ok.1 hs
      obtain ⟨hheight, hhash⟩ := identity_of_block hblock
      rw [List.cons_append, Links.follow, if_pos (hfits c rfl (checkNext_eq_ok.1 hcheck).1)] at h
      split at h
      · cases h
      · rename_i next hnext
        unfold Links.checkBlock at hnext
        rw [hhash] at hnext
        split at hnext
        · cases hnext
        · -- behind a block both ask for the same
          cases hnext
          refine ih (fun _ hsame => hsame) (fun d _ hsame => ?_) h h2
          show d.height.same (c.height + 1) = true
          rw [← hheight]
          exact hsame

end

end Scan
end LightSync
