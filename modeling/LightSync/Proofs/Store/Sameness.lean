import LightSync.Proofs.Action.Parallel
import LightSync.Proofs.Wallet.Recording

/-!
# Connections that nobody can tell apart

Two connections are the same to their users when they agree in the content, in what a rollback
would restore, and in the injected fault: statements and transactions run alike on them, whatever
cursors are open and wherever their images are kept (`parallel_transaction`). Recording a block,
in particular, does not notice on which of them it works (`WalletStore.parallel_commitBlock`), and
a block that is not recorded leaves a connection the same (`WalletStore.same_of_commitBlock_error`).
-/

set_option autoImplicit false

namespace LightSync
namespace Database

open LightSync.Action (Parallel Alike)

variable {σ α : Type}

/-- The connections agree in all that decides how they answer. -/
structure Same (db db' : Database σ) : Prop where
  content : db.content = db'.content
  before : db.before = db'.before
  fault : db.fault = db'.fault

namespace Same

variable {db db' db'' : Database σ}

theorem refl (db : Database σ) : Same db db := ⟨rfl, rfl, rfl⟩

theorem symm (h : Same db db') : Same db' db := ⟨h.content.symm, h.before.symm, h.fault.symm⟩

theorem trans (h : Same db db') (h' : Same db' db'') : Same db db'' :=
  ⟨h.content.trans h'.content, h.before.trans h'.before, h.fault.trans h'.fault⟩

/-- Writing the image is not noticed. -/
theorem saveIfIdle (h : Same db db') : Same db.saveIfIdle db'.saveIfIdle := by
  constructor
  · simpa using h.content
  · simpa using h.before
  · simpa using h.fault

theorem strike (h : Same db db') (fault : InjectedFault) :
    Same (Database.strike fault db) (Database.strike fault db') := by
  unfold Database.strike
  rw [h.before]
  split
  · exact ⟨rfl, rfl, h.fault⟩
  · exact h

end Same

/-! ## Statements -/

theorem parallel_query (f : σ → Except Failure α) : Parallel Same (query f) (query f) := by
  intro db db' h
  unfold query
  rw [h.content]
  cases f db'.content with
  | ok a => exact .ok a h
  | error e => exact .error e h

theorem parallel_run (f : σ → Except StoreFault (σ × α)) : Parallel Same (run f) (run f) := by
  intro db db' h
  unfold run
  rw [h.content]
  cases f db'.content with
  | ok r => exact .ok r.2 (Same.saveIfIdle ⟨rfl, h.before, h.fault⟩)
  | error fault => exact .error _ h

theorem parallel_insert (table : Table) (height : Number) (f : σ → Except StoreFault σ) :
    Parallel Same (insert table height f) (insert table height f) := by
  intro db db' h
  unfold insert
  rw [h.fault]
  split
  · exact .error _ h
  · split
    · exact .error _ (h.strike _)
    · exact parallel_run _ db db' h

/-! ## Transactions -/

theorem parallel_begin : Parallel (Same (σ := σ)) begin begin := by
  intro db db' h
  unfold begin
  rw [h.before]
  split
  · exact .error _ h
  · exact .ok () ⟨h.content, congrArg some h.content, h.fault⟩

theorem parallel_commit : Parallel (Same (σ := σ)) commit commit := by
  intro db db' h
  unfold commit
  rw [h.before]
  split
  · exact .error _ h
  · exact .ok () (Same.saveIfIdle ⟨h.content, rfl, h.fault⟩)

theorem parallel_rollback : Parallel (Same (σ := σ)) rollback rollback := by
  intro db db' h
  unfold rollback
  rw [h.before]
  split
  · exact .error _ ⟨h.content, rfl, h.fault⟩
  · exact .ok () ⟨rfl, rfl, h.fault⟩

theorem parallel_transaction {act : Action (Database σ) α} (hact : Parallel Same act act) :
    Parallel Same (transaction act) (transaction act) := by
  intro db db' h
  have hbody : Parallel Same (do let a ← act; commit; return a : Action (Database σ) α)
      (do let a ← act; commit; return a) :=
    hact.bind fun a => parallel_commit.bind fun _ => Parallel.pure a
  unfold transaction transactionEnding
  have hbegin := parallel_begin db db' h
  generalize begin db = r at hbegin
  generalize begin db' = r' at hbegin
  cases hbegin with
  | error e h => exact .error e h
  | ok u h =>
      dsimp only
      have hrun := hbody _ _ h
      generalize (do let a ← act; commit; return a : Action (Database σ) α) _ = r at hrun
      generalize (do let a ← act; commit; return a : Action (Database σ) α) _ = r' at hrun
      cases hrun with
      | ok a h => exact .ok a h
      | error e h =>
          dsimp only
          -- what cannot be undone on one cannot be undone on the other
          have hback := parallel_rollback _ _ h
          generalize rollback _ = r at hback
          generalize rollback _ = r' at hback
          cases hback with
          | ok u h => exact .error e h
          | error second h => exact .error _ h

end Database

/-! ## Recording a block -/

namespace WalletStore

open LightSync.Action (Parallel)
open Database (Same)

theorem parallel_commitBlock (b : ScannedBlock) :
    Parallel Same (commitBlock b) (commitBlock b) := by
  refine Parallel.mapFailure _ (Database.parallel_transaction ?_)
  refine (Database.parallel_query _).bind fun _ => ?_
  refine (Database.parallel_insert _ _ _).bind fun _ => ?_
  refine (Parallel.forM fun n => Database.parallel_insert _ _ _).bind fun _ => ?_
  refine Parallel.forM fun s => (Database.parallel_run _).bind fun changes => ?_
  split
  · exact Parallel.throw _
  · exact Parallel.pure _

/-- Nothing is noticed of a block that was not recorded. -/
theorem same_of_commitBlock_error {b : ScannedBlock} {s s' : WalletStore} {e : Failure}
    (h : commitBlock b s = .error e s') : Same s' s := by
  cases hbefore : s.before with
  | none =>
      obtain ⟨hcontent, hrest, hfault, -⟩ := content_of_commitBlock_error hbefore h
      exact ⟨hcontent, hrest.trans hbefore.symm, hfault⟩
  | some content =>
      -- inside a transaction of somebody else no other can begin
      have hnested : commitBlock b s =
          .error (Failure.duringStorage .commitBlock (.store .nestedTransaction)) s := by
        simp only [commitBlock, Action.storing, Action.mapFailure, Database.transaction,
          Database.transactionEnding, Database.begin, hbefore]
      rw [hnested] at h
      cases h
      exact Same.refl s

end WalletStore
end LightSync
