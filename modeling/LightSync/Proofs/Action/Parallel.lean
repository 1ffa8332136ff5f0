import LightSync.Proofs.Action.Outcome

/-!
# Actions that run alike

Two actions run alike from related states when they return or fail with the same and lead to
related states again. `Action.Parallel` says so and is composed along an action.
-/

set_option autoImplicit false

namespace LightSync

namespace Action

variable {σ α β : Type} {R : σ → σ → Prop}

/-- The same came of two actions, and their states are related. -/
inductive Alike (R : σ → σ → Prop) : EStateM.Result Failure σ α → EStateM.Result Failure σ α → Prop
  where
  | ok (a : α) {s t : σ} (h : R s t) : Alike R (.ok a s) (.ok a t)
  | error (e : Failure) {s t : σ} (h : R s t) : Alike R (.error e s) (.error e t)

/-- Two actions run alike from related states. -/
def Parallel (R : σ → σ → Prop) (act act' : Action σ α) : Prop :=
  ∀ s t, R s t → Alike R (act s) (act' t)

theorem Parallel.pure (a : α) : Parallel R (pure a) (pure a) := fun _ _ h => .ok a h

theorem Parallel.throw (e : Failure) : Parallel R (throw e : Action σ α) (throw e) :=
  fun _ _ h => .error e h

theorem Parallel.ofExcept (result : Except Failure α) :
    Parallel R (ofExcept result) (ofExcept result) := by
  intro s t h
  cases result with
  | ok a => exact .ok a h
  | error e => exact .error e h

theorem Parallel.bind {act act' : Action σ α} {next next' : α → Action σ β}
    (hact : Parallel R act act') (hnext : ∀ a, Parallel R (next a) (next' a)) :
    Parallel R (act >>= next) (act' >>= next') := by
  intro s t h
  have hfirst := hact s t h
  rw [bind_apply, bind_apply]
  generalize act s = r at hfirst
  generalize act' t = r' at hfirst
  cases hfirst with
  | ok a h => exact hnext a _ _ h
  | error e h => exact .error e h

theorem Parallel.ensuring {act act' : Action σ α} {cleanup cleanup' : σ → σ}
    (hact : Parallel R act act') (hclean : ∀ s t, R s t → R (cleanup s) (cleanup' t)) :
    Parallel R (act.ensuring cleanup) (act'.ensuring cleanup') := by
  intro s t h
  have hfirst := hact s t h
  unfold Action.ensuring
  generalize act s = r at hfirst
  generalize act' t = r' at hfirst
  cases hfirst with
  | ok a h => exact .ok a (hclean _ _ h)
  | error e h => exact .error e (hclean _ _ h)

theorem Parallel.forM {l : List β} {act act' : β → Action σ PUnit}
    (h : ∀ b, Parallel R (act b) (act' b)) : Parallel R (l.forM act) (l.forM act') := by
  induction l with
  | nil => exact Parallel.pure PUnit.unit
  | cons b l ih => exact (h b).bind fun _ => ih

theorem Parallel.mapFailure {act act' : Action σ α} (f : Failure → Failure)
    (hact : Parallel R act act') : Parallel R (act.mapFailure f) (act'.mapFailure f) := by
  intro s t h
  have hfirst := hact s t h
  unfold Action.mapFailure
  generalize act s = r at hfirst
  generalize act' t = r' at hfirst
  cases hfirst with
  | ok a h => exact .ok a h
  | error e h => exact .error (f e) h

/-! ## What comes of them -/

variable {act act' : Action σ α} {s : σ}

/-- Actions that run alike from one state do the same with it. -/
theorem Parallel.apply_eq {P : σ → Prop} (hact : Parallel (fun s t => s = t ∧ P s) act act')
    (hs : P s) : act s = act' s := by
  have hboth := hact s s ⟨rfl, hs⟩
  generalize act s = r at hboth ⊢
  generalize act' s = r' at hboth ⊢
  cases hboth with
  | ok a h => rw [h.1]
  | error e h => rw [h.1]

end Action
end LightSync
