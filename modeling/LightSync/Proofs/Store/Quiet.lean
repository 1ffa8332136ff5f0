import LightSync.Proofs.Store.Transaction
import LightSync.Wallet.Rewind

/-!
# Where failures about the chain come from

Two failures are about the chain (`Failure.concernsChain`): a link that does not hold and a rewind
that is refused. The storage operations pass them on as they are and have none of their own
(`Action.Quiet`). So a block is refused for its place in the chain only before it is written
(`WalletStore.checkHeight_of_commitBlock_error`), and a rewind only for its depth and before
anything is removed (`WalletStore.of_rewind_error`).
-/

set_option autoImplicit false

namespace LightSync

/-! ## Failures about the chain -/

namespace Failure

/-- A link does not hold, or a rewind is refused. -/
def concernsChain : Failure → Bool
  | .brokenChain _ => true
  | .rewindRefused _ _ _ => true
  | _ => false

@[simp] theorem concernsChain_duringStorage (operation : Operation) (e : Failure) :
    (e.duringStorage operation).concernsChain = e.concernsChain := by
  cases e <;> rfl

theorem duringStorage_of_concernsChain {operation : Operation} {e : Failure}
    (h : e.concernsChain = true) : e.duringStorage operation = e := by
  cases e with
  | brokenChain breach => rfl
  | rewindRefused safe requested depth => rfl
  | _ => cases h

end Failure

/-! ## Quiet actions -/

namespace Action

variable {σ ρ α β : Type}

/-- The action never fails with a failure about the chain. -/
def Quiet (act : Action σ α) : Prop := ∀ s t e, act s = .error e t → e.concernsChain = false

theorem Quiet.pure (a : α) : Quiet (pure a : Action σ α) := by
  intro s t e h
  cases h

theorem Quiet.throw {e : Failure} (he : e.concernsChain = false) :
    Quiet (throw e : Action σ α) := by
  intro s t e' h
  cases h
  exact he

theorem Quiet.bind {act : Action σ α} {next : α → Action σ β} (hact : Quiet act)
    (hnext : ∀ a, Quiet (next a)) : Quiet (act >>= next) := by
  intro s u e h
  rcases bind_eq_error.1 h with h | ⟨a, t, -, h⟩
  · exact hact s u e h
  · exact hnext a t u e h

theorem Quiet.forM {l : List β} {act : β → Action σ PUnit} (h : ∀ b, Quiet (act b)) :
    Quiet (l.forM act) := by
  induction l with
  | nil => exact Quiet.pure PUnit.unit
  | cons b l ih => exact (h b).bind fun _ => ih

theorem Quiet.storing {operation : Operation} {act : Action σ α} (hact : Quiet act) :
    Quiet (storing operation act) := by
  intro s t e h
  unfold Action.storing mapFailure at h
  split at h
  · cases h
  · rename_i hs
    cases h
    exact (Failure.concernsChain_duringStorage _ _).trans (hact _ _ _ hs)

theorem Quiet.within {get : σ → ρ} {set : ρ → σ → σ} {act : Action ρ α} (hact : Quiet act) :
    Quiet (within get set act) := by
  intro s t e h
  unfold Action.within at h
  split at h
  · cases h
  · rename_i hs
    cases h
    exact hact _ _ _ hs

/-- A storage operation passes a failure about the chain on as it is. -/
theorem of_storing_error {operation : Operation} {act : Action σ α} {s t : σ} {e : Failure}
    (h : Action.storing operation act s = .error e t) (he : e.concernsChain = true) :
    act s = .error e t := by
  unfold Action.storing mapFailure at h
  split at h
  · cases h
  · rename_i e' t' hs
    cases h
    rw [Failure.concernsChain_duringStorage] at he
    rw [Failure.duringStorage_of_concernsChain he]
    exact hs

end Action

/-! ## Databases -/

namespace Database

variable {σ α : Type}

open LightSync.Action (Quiet)

theorem query_eq_ok {f : σ → Except Failure α} {db t : Database σ} {a : α} :
    query f db = .ok a t ↔ f db.content = .ok a ∧ t = db := by
  unfold query
  cases f db.content with
  | ok b =>
      constructor
      · intro h
        cases h
        exact ⟨rfl, rfl⟩
      · rintro ⟨h, rfl⟩
        cases h
        rfl
  | error e =>
      constructor
      · intro h
        cases h
      · rintro ⟨h, -⟩
        cases h

theorem query_eq_error {f : σ → Except Failure α} {db t : Database σ} {e : Failure} :
    query f db = .error e t ↔ f db.content = .error e ∧ t = db := by
  unfold query
  cases f db.content with
  | ok b =>
      constructor
      · intro h
        cases h
      · rintro ⟨h, -⟩
        cases h
  | error e' =>
      constructor
      · intro h
        cases h
        exact ⟨rfl, rfl⟩
      · rintro ⟨h, rfl⟩
        cases h
        rfl

theorem quiet_query {f : σ → Except Failure α}
    (hf : ∀ c e, f c = .error e → e.concernsChain = false) : Quiet (query f) :=
  fun _ _ e h => hf _ e (query_eq_error.1 h).1

theorem quiet_queryRows {f : σ → Except Failure α}
    (hf : ∀ c e, f c = .error e → e.concernsChain = false) : Quiet (queryRows f) := by
  intro db t e h
  unfold queryRows Action.ensuring at h
  split at h
  · cases h
  · rename_i hs
    cases h
    exact quiet_query hf _ _ _ hs

theorem quiet_run (f : σ → Except StoreFault (σ × α)) : Quiet (run f) := by
  intro db t e h
  unfold run at h
  split at h
  · cases h
  · cases h
    rfl

theorem quiet_insert (table : Table) (height : Number) (f : σ → Except StoreFault σ) :
    Quiet (insert table height f) := by
  intro db t e h
  unfold insert at h
  split at h
  · cases h
    rfl
  · split at h
    · cases h
      rfl
    · exact quiet_run _ _ _ _ h

theorem quiet_commit : Quiet (commit (σ := σ)) := by
  intro db t e h
  unfold commit at h
  split at h
  · cases h
    rfl
  · cases h

/-- A failure about the chain comes from inside a transaction. -/
theorem of_transactionEnding_error {ending : Action (Database σ) Unit} (hending : Quiet ending)
    {act : Action (Database σ) α} {db t : Database σ} {e : Failure}
    (h : transactionEnding ending act db = .error e t) (he : e.concernsChain = true) :
    ∃ db' t', db'.content = db.content ∧ act db' = .error e t' := by
  unfold transactionEnding at h
  split at h
  · rename_i e' db' hbegin
    unfold begin at hbegin
    split at hbegin
    · cases hbegin
      cases h
      cases he
    · cases hbegin
  · rename_i u db' hbegin
    have hcontent : db'.content = db.content := by
      unfold begin at hbegin
      split at hbegin
      · cases hbegin
      · cases hbegin
        rfl
    split at h
    · cases h
    · rename_i e' db1 hbody
      split at h
      · cases h
        rcases Action.bind_eq_error.1 hbody with hact | ⟨a, db2, -, hrest⟩
        · exact ⟨db', db1, hcontent, hact⟩
        · have hquiet : Quiet (do ending; return a : Action (Database σ) α) :=
            hending.bind fun _ => Quiet.pure a
          rw [hquiet _ _ _ hrest] at he
          cases he
      · cases h
        cases he

theorem quiet_transactionEnding {ending : Action (Database σ) Unit} (hending : Quiet ending)
    {act : Action (Database σ) α} (hact : Quiet act) : Quiet (transactionEnding ending act) := by
  intro db t e h
  cases he : e.concernsChain with
  | false => rfl
  | true =>
      obtain ⟨db', t', -, hfail⟩ := of_transactionEnding_error hending h he
      rw [hact _ _ _ hfail] at he
      cases he

theorem quiet_transaction {act : Action (Database σ) α} (hact : Quiet act) :
    Quiet (transaction act) := quiet_transactionEnding quiet_commit hact

end Database

/-! ## Wallets -/

namespace WalletStore

open LightSync.Action (Quiet)
open Database (query_eq_ok query_eq_error quiet_run quiet_insert quiet_transaction)

theorem quiet_recordSpend (b : ScannedBlock) (s : FoundSpend) : Quiet (recordSpend b s) := by
  refine (quiet_run _).bind fun changes => ?_
  by_cases h : changes ≠ 1
  · rw [if_pos h]
    exact Quiet.throw rfl
  · rw [if_neg h]
    exact Quiet.pure _

/-- A block that is refused for its place in the chain is refused before it is written. -/
theorem checkHeight_of_commitBlock_error {b : ScannedBlock} {s t : WalletStore} {e : Failure}
    (h : commitBlock b s = .error e t) (he : e.concernsChain = true) :
    checkHeight b s.content = .error e := by
  obtain ⟨s', t', hcontent, hact⟩ :=
    Database.of_transactionEnding_error Database.quiet_commit (Action.of_storing_error h he) he
  rcases Action.bind_eq_error.1 hact with hcheck | ⟨u, s1, -, hrest⟩
  · rw [← hcontent]
    exact (query_eq_error.1 hcheck).1
  · have hquiet : Quiet (do
        Database.insert .checkpoints b.height (Wallet.addCheckpoint b)
        b.notes.forM (recordNote b)
        b.spends.forM (recordSpend b) : Action WalletStore Unit) :=
      (quiet_insert _ _ _).bind fun _ =>
        (Quiet.forM fun n => quiet_insert _ _ _).bind fun _ =>
          Quiet.forM fun spend => quiet_recordSpend b spend
    rw [hquiet _ _ _ hrest] at he
    cases he

theorem quiet_truncate (height : Number) : Quiet (truncate height) := by
  refine Quiet.storing (quiet_transaction ?_)
  exact (quiet_run _).bind fun _ => (quiet_run _).bind fun _ => (quiet_run _).bind fun _ =>
    Quiet.pure _

/-- A rewind that is refused is refused for its depth, and before anything is removed. -/
theorem of_rewind_error {target depth : Number} {stable : Option Number} {s t : WalletStore}
    {e : Failure} (h : rewind target depth stable s = .error e t) (he : e.concernsChain = true) :
    t = s ∧ ∃ tip, s.content.tip? = some tip ∧
      checkDepth target depth stable tip.height s.content = .error e := by
  have hbelow (tip : Int) : rewindBelow target depth stable tip s = .error e t →
      t = s ∧ checkDepth target depth stable tip s.content = .error e := by
    intro h
    rcases Action.bind_eq_error.1 h with hcheck | ⟨u, s1, -, hrest⟩
    · exact (query_eq_error.1 hcheck).symm
    · have hquiet : Quiet (do
          let done ← truncate target
          let height ← Database.query fun w => .ok (tipHeight w)
          return { previous := some (.int tip), height, notesRemoved := done.notesRemoved
                   spendsReversed := done.spendsReversed, rewound := true } :
          Action WalletStore RewindReport) :=
        (quiet_truncate target).bind fun _ =>
          (Database.quiet_query fun _ _ hf => by cases hf).bind fun _ => Quiet.pure _
      rw [hquiet _ _ _ hrest] at he
      cases he
  unfold rewind at h
  split at h
  · -- a height that is no integer is no matter of the chain
    cases h
    cases he
  · rcases Action.bind_eq_error.1 h with htip | ⟨tip, s1, htip, hrest⟩
    · cases (query_eq_error.1 htip).1
    · obtain ⟨htip, rfl⟩ := query_eq_ok.1 htip
      cases tip with
      | none => cases hrest
      | some tip =>
          dsimp only at hrest
          split at hrest
          · cases hrest
          · obtain ⟨hsame, hcheck⟩ := hbelow tip.height hrest
            exact ⟨hsame, tip, Except.ok.inj htip, hcheck⟩

end WalletStore

end LightSync
