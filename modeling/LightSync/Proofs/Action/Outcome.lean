import LightSync.Action

/-!
# What actions leave behind

An action that fails has done what it did before it failed, so most laws are about the state
after it, whatever came of it (`Action.after`). `Action.Keeps` says of a property that it
survives an action in either case; it is composed along the action.
-/

set_option autoImplicit false

namespace LightSync

/-- An `Except` chain that succeeded went through its first part. -/
theorem Except.bind_eq_ok {ε α β : Type} {x : Except ε α} {f : α → Except ε β} {b : β} :
    x >>= f = .ok b ↔ ∃ a, x = .ok a ∧ f a = .ok b := by
  constructor
  · intro h
    cases x with
    | error e => cases h
    | ok a => exact ⟨a, rfl, h⟩
  · rintro ⟨a, rfl, hf⟩
    exact hf

theorem Except.toOption_eq_some {ε α : Type} {x : Except ε α} {a : α} :
    x.toOption = some a ↔ x = .ok a := by
  cases x <;> simp [Except.toOption]

theorem StateT.bind_eq_ok {ε σ α β : Type} {f : StateT σ (Except ε) α}
    {g : α → StateT σ (Except ε) β} {s u : σ} {b : β} :
    (f >>= g) s = .ok (b, u) ↔ ∃ a t, f s = .ok (a, t) ∧ g a t = .ok (b, u) := by
  constructor
  · intro h
    obtain ⟨⟨a, t⟩, hf, hg⟩ := Except.bind_eq_ok.1 h
    exact ⟨a, t, hf, hg⟩
  · rintro ⟨a, t, hf, hg⟩
    exact Except.bind_eq_ok.2 ⟨(a, t), hf, hg⟩

/-- A loop goes on from the one state to which its first step can lead. -/
theorem StateT.forM_cons_isOk_iff {ε σ α : Type} {f : α → StateT σ (Except ε) PUnit} {a : α}
    {as : List α} {s t : σ} {P : Prop} (hfirst : ∀ u, f a s = .ok (⟨⟩, u) ↔ P ∧ u = t) :
    (∃ u, ((a :: as).forM f) s = .ok (⟨⟩, u)) ↔ P ∧ ∃ u, (as.forM f) t = .ok (⟨⟩, u) := by
  constructor
  · rintro ⟨u, h⟩
    obtain ⟨_, t', h1, h2⟩ := StateT.bind_eq_ok.1 h
    obtain ⟨hP, rfl⟩ := (hfirst t').1 h1
    exact ⟨hP, u, h2⟩
  · rintro ⟨hP, u, h⟩
    exact ⟨u, StateT.bind_eq_ok.2 ⟨⟨⟩, t, (hfirst t).2 ⟨hP, rfl⟩, h⟩⟩

theorem Except.bind_eq_error {ε α β : Type} {x : Except ε α} {f : α → Except ε β} {e : ε} :
    x >>= f = .error e ↔ x = .error e ∨ ∃ a, x = .ok a ∧ f a = .error e := by
  constructor
  · intro h
    cases x with
    | error e' =>
        cases h
        exact Or.inl rfl
    | ok a => exact Or.inr ⟨a, rfl, h⟩
  · rintro (rfl | ⟨a, rfl, hf⟩)
    · rfl
    · exact hf

theorem StateT.bind_eq_error {ε σ α β : Type} {f : StateT σ (Except ε) α}
    {g : α → StateT σ (Except ε) β} {s : σ} {e : ε} :
    (f >>= g) s = .error e ↔ f s = .error e ∨ ∃ a t, f s = .ok (a, t) ∧ g a t = .error e := by
  constructor
  · intro h
    rcases Except.bind_eq_error.1 h with hf | ⟨⟨a, t⟩, hf, hg⟩
    · exact Or.inl hf
    · exact Or.inr ⟨a, t, hf, hg⟩
  · rintro (hf | ⟨a, t, hf, hg⟩)
    · exact Except.bind_eq_error.2 (Or.inl hf)
    · exact Except.bind_eq_error.2 (Or.inr ⟨(a, t), hf, hg⟩)

namespace Action

variable {σ α β : Type} {P : σ → Prop}

/-- The state after an action, whatever came of it. -/
def after (act : Action σ α) (s : σ) : σ :=
  match act s with
  | .ok _ t => t
  | .error _ t => t

/-- The state that a result leaves. -/
def stateOf : EStateM.Result Failure σ α → σ
  | .ok _ t => t
  | .error _ t => t

theorem after_eq_stateOf (act : Action σ α) (s : σ) : act.after s = stateOf (act s) := by
  unfold after stateOf
  rfl

theorem after_of_ok {act : Action σ α} {s t : σ} {a : α} (h : act s = .ok a t) :
    act.after s = t := by
  rw [after, h]

theorem after_of_error {act : Action σ α} {s t : σ} {e : Failure} (h : act s = .error e t) :
    act.after s = t := by
  rw [after, h]

/-- Only what an action does to this state counts. -/
theorem after_congr {act act' : Action σ α} {s : σ} (h : act s = act' s) :
    act.after s = act'.after s := by
  rw [after, after, h]

theorem bind_apply (act : Action σ α) (next : α → Action σ β) (s : σ) :
    (act >>= next) s = match act s with
      | .ok a t => next a t
      | .error e t => .error e t := by
  show EStateM.bind act next s = _
  unfold EStateM.bind
  cases act s <;> rfl

theorem bind_eq_ok {act : Action σ α} {next : α → Action σ β} {s u : σ} {b : β} :
    (act >>= next) s = .ok b u ↔ ∃ a t, act s = .ok a t ∧ next a t = .ok b u := by
  rw [bind_apply]
  constructor
  · intro h
    split at h
    · rename_i a t hact
      exact ⟨a, t, hact, h⟩
    · cases h
  · rintro ⟨a, t, hact, hnext⟩
    rw [hact]
    exact hnext

theorem bind_eq_error {act : Action σ α} {next : α → Action σ β} {s u : σ} {e : Failure} :
    (act >>= next) s = .error e u ↔
      act s = .error e u ∨ ∃ a t, act s = .ok a t ∧ next a t = .error e u := by
  rw [bind_apply]
  constructor
  · intro h
    split at h
    · rename_i a t hact
      exact Or.inr ⟨a, t, hact, h⟩
    · rename_i hact
      cases h
      exact Or.inl hact
  · rintro (hact | ⟨a, t, hact, hnext⟩)
    · rw [hact]
    · rw [hact]
      exact hnext

theorem after_bind (act : Action σ α) (next : α → Action σ β) (s : σ) :
    (act >>= next).after s = match act s with
      | .ok a t => (next a).after t
      | .error _ t => t := by
  rw [after, bind_apply]
  cases act s <;> rfl

theorem after_ensuring (act : Action σ α) (cleanup : σ → σ) (s : σ) :
    (act.ensuring cleanup).after s = cleanup (act.after s) := by
  simp only [Action.ensuring, after]
  cases act s <;> rfl

theorem after_mapFailure (act : Action σ α) (f : Failure → Failure) (s : σ) :
    (act.mapFailure f).after s = act.after s := by
  simp only [Action.mapFailure, after]
  cases act s <;> rfl

theorem after_within {ρ : Type} (get : σ → ρ) (set : ρ → σ → σ) (act : Action ρ α) (s : σ) :
    (within get set act).after s = set (act.after (get s)) s := by
  simp only [Action.within, after]
  cases act (get s) <;> rfl

/-! ## What comes of an action -/

/-- What an action returns, if it succeeds. -/
def value? (act : Action σ α) (s : σ) : Option α :=
  match act s with
  | .ok a _ => some a
  | .error _ _ => none

/-- What an action fails with, if it does. -/
def failure? (act : Action σ α) (s : σ) : Option Failure :=
  match act s with
  | .ok _ _ => none
  | .error e _ => some e

theorem value?_eq_some {act : Action σ α} {s : σ} {a : α} :
    act.value? s = some a ↔ ∃ t, act s = .ok a t := by
  unfold value?
  cases act s <;> simp

theorem failure?_eq_some {act : Action σ α} {s : σ} {e : Failure} :
    act.failure? s = some e ↔ ∃ t, act s = .error e t := by
  unfold failure?
  cases act s <;> simp

/-! ## Properties that survive -/

/-- What holds before an action holds after it, even if it fails. -/
def Keeps (P : σ → Prop) (act : Action σ α) : Prop := ∀ s, P s → P (act.after s)

theorem Keeps.pure (a : α) : Keeps P (pure a : Action σ α) := fun _ h => h

theorem Keeps.bind {act : Action σ α} {next : α → Action σ β} (hact : Keeps P act)
    (hnext : ∀ a, Keeps P (next a)) : Keeps P (act >>= next) := by
  intro s hs
  have h := hact s hs
  rw [after_bind]
  cases he : act s with
  | ok a t =>
      rw [after_of_ok he] at h
      exact hnext a t h
  | error e t =>
      rw [after_of_error he] at h
      exact h

theorem Keeps.forM {l : List β} {act : β → Action σ PUnit} (h : ∀ b, Keeps P (act b)) :
    Keeps P (l.forM act) := by
  induction l with
  | nil => exact .pure PUnit.unit
  | cons b l ih => exact (h b).bind fun _ => ih

/-- What is said of a component survives an action on that component. -/
theorem Keeps.within {ρ : Type} {get : σ → ρ} {set : ρ → σ → σ} {Q : ρ → Prop} {act : Action ρ α}
    (hget : ∀ r s, get (set r s) = r) (h : Keeps Q act) :
    Keeps (fun s => Q (get s)) (Action.within get set act) := by
  intro s hs
  show Q (get ((Action.within get set act).after s))
  rw [after_within, hget]
  exact h (get s) hs

theorem Keeps.mapFailure {act : Action σ α} (h : Keeps P act) (f : Failure → Failure) :
    Keeps P (act.mapFailure f) := by
  intro s hs
  rw [after_mapFailure]
  exact h s hs

theorem Keeps.ofExcept (result : Except Failure α) : Keeps P (ofExcept result) := by
  intro s hs
  cases result <;> exact hs

end Action

end LightSync
