import LightSync.Proofs.Store.Keyed
import LightSync.Proofs.Wallet.Recording
import LightSync.Wallet.Rewind

/-!
# What truncating does to a wallet

`WalletStore.truncate` as a function of the wallet (`Wallet.cut`), and how it meets recording: a
block recorded above the height is cut away with all its traces (`cut_of_recorded`), and a wallet
that holds nothing above the height is not changed (`cut_of_capped`). A rewind keeps what truncating
keeps (`keeps_rewind`).
-/

set_option autoImplicit false

namespace LightSync

namespace Wallet

/-- The wallet without what was recorded above a height. -/
def cut (height : Number) (w : Wallet) : Wallet :=
  dropCheckpoints height (dropNotes height (reverseSpends height w).1).1

/-- What is told about cutting it. -/
def truncation (height : Number) (w : Wallet) : Truncation :=
  { notesRemoved := (dropNotes height (reverseSpends height w).1).2,
    spendsReversed := (reverseSpends height w).2 }

end Wallet

namespace WalletStore

open Database

/-- Truncating cannot fail, whatever the height. -/
theorem truncate_of_atRest (height : Number) {s : WalletStore} (hrest : s.AtRest) :
    ∃ s', truncate height s = .ok (s.content.truncation height) s' ∧
      s'.content = s.content.cut height ∧ s'.AtRest ∧ s'.fault = s.fault := by
  have hsteps : Succeeds (do
      let spendsReversed ← run fun w => .ok (w.reverseSpends height)
      let notesRemoved ← run fun w => .ok (w.dropNotes height)
      run fun w => .ok (w.dropCheckpoints height, ())
      return Truncation.mk notesRemoved spendsReversed)
      fun w : Wallet => (w.truncation height, w.cut height) :=
    (succeeds_run (Wallet.reverseSpends height)).bind fun spendsReversed =>
      (succeeds_run (Wallet.dropNotes height)).bind fun notesRemoved =>
        (succeeds_run fun w => (Wallet.dropCheckpoints height w, ())).bind fun _ =>
          Succeeds.pure (Truncation.mk notesRemoved spendsReversed)
  obtain ⟨s', h, hc, hr, hx⟩ := hsteps.transaction hrest
  refine ⟨s', ?_, hc, hr, hx⟩
  unfold truncate Action.storing Action.mapFailure
  rw [h]

end WalletStore

namespace Wallet

theorem eq_of_tables {w w' : Wallet} (haccounts : w.accounts = w'.accounts)
    (hcheckpoints : w.checkpoints = w'.checkpoints) (hnotes : w.notes = w'.notes) : w = w' := by
  cases w
  cases w'
  cases haccounts
  cases hcheckpoints
  cases hnotes
  rfl

/-! ## Cutting away a block -/

theorem unmark_of_unspent {n : WalletNote} (h : n.spent = none) : { n with spent := none } = n := by
  cases n
  cases h
  rfl

/-- A note without the mark of a spend above a height. -/
def unmark (height : Number) (n : WalletNote) : WalletNote :=
  if isSpentAbove height n then { n with spent := none } else n

@[simp] theorem height_unmark (height : Number) (n : WalletNote) :
    (unmark height n).height = n.height := by
  unfold unmark
  split <;> rfl

theorem notes_cut (height : Number) (w : Wallet) :
    (w.cut height).notes =
      (w.notes.filter fun n => !decide (height < Number.int n.height)).map (unmark height) := by
  show (w.notes.map (unmark height)).filter _ = _
  rw [List.filter_map]
  congr 2
  funext n
  simp

theorem checkpoints_cut (height : Number) (w : Wallet) :
    (w.cut height).checkpoints = w.checkpoints.filter fun k => !decide (height < Number.int k) := rfl

/-- A note that stays does not keep the marks of a block above the height. -/
theorem unmark_settle {height : Number} {k : Int} (hk : height < .int k)
    (spends : List FoundSpend) {n : WalletNote} (hn : ¬ height < .int n.height) :
    unmark height (settle k spends n) = unmark height n := by
  cases hs : n.spent with
  | some s => rw [settle_of_spent k spends (by simp [hs])]
  | none =>
      have hle : Number.int n.height ≤ height := Number.int_le_of_not_lt hk hn
      -- the note was unspent, and is so again
      have hn' : unmark height n = n := by simp [unmark, isSpentAbove, hs]
      rw [hn']
      cases hm : spends.find? (fun s => n.nullifier = s.nullifier) with
      | none =>
          have hsettle : settle k spends n = { n with spent := none } := by
            simp [settle, hs, hm]
          rw [hsettle, unmark_of_unspent hs, hn']
      | some s =>
          have hsettle : settle k spends n = { n with spent := some ⟨k, s.txid⟩ } := by
            simp [settle, hs, hm]
          rw [hsettle]
          simp only [unmark, isSpentAbove, hk, hle, decide_true, Bool.and_self, if_true]
          exact unmark_of_unspent hs

theorem mem_rows {k : Int} {ns : List FoundNote} {id : Int} {n : WalletNote}
    (h : n ∈ rows k id ns) : n.height = k ∧ n.spent = none := by
  obtain ⟨m, -, i, rfl⟩ := exists_of_mem_rows h
  exact ⟨rfl, rfl⟩

/-- Cutting away a block takes back all that recording it did. -/
theorem cut_of_recorded {b : ScannedBlock} {k : Int} {w w' : Wallet} {height : Number}
    (h : Recorded b k w w') (hk : height < .int k) : w'.cut height = w.cut height := by
  have hcheckpoints : (w'.cut height).checkpoints = (w.cut height).checkpoints := by
    rw [checkpoints_cut, checkpoints_cut, h.checkpoints]
    exact Keyed.filter_insert (by simp [hk])
  -- the notes of the block go, and the marks of its spends are taken back from the others
  let keep (n : WalletNote) : Bool := !decide (height < Number.int n.height)
  have hrows : (rows k w.nextNoteId b.notes).filter keep = [] := by
    rw [List.filter_eq_nil_iff]
    intro n hn
    simp [keep, (mem_rows hn).1, hk]
  have hmarks : ∀ n ∈ w.notes.filter keep,
      (unmark height ∘ settle k b.spends) n = unmark height n := by
    intro n hn
    rw [List.mem_filter] at hn
    exact unmark_settle hk b.spends (by simpa [keep] using hn.2)
  have hnotes : (w'.cut height).notes = (w.cut height).notes := by
    calc (w'.cut height).notes
      _ = ((w.notes ++ rows k w.nextNoteId b.notes).filter keep).map
            (unmark height ∘ settle k b.spends) := by
          rw [notes_cut, h.notes, notesAfter, List.filter_map, List.map_map]
          rfl
      _ = (w.notes.filter keep).map (unmark height ∘ settle k b.spends) := by
          rw [List.filter_append, hrows, List.append_nil]
      _ = (w.notes.filter keep).map (unmark height) := List.map_congr_left hmarks
      _ = (w.cut height).notes := (notes_cut height w).symm
  exact eq_of_tables h.accounts hcheckpoints hnotes

/-! ## Bounded wallets -/

/-- Everything in the wallet was recorded up to a height. -/
structure Capped (w : Wallet) (k : Int) : Prop where
  checkpoints : ∀ e ∈ w.checkpoints.entries, e.1 ≤ k
  notes : ∀ n ∈ w.notes, n.height ≤ k
  spends : ∀ n ∈ w.notes, ∀ s, n.spent = some s → s.height ≤ k

/-- A wallet that ends at or below a height has nothing to be cut away. -/
theorem cut_of_capped {w : Wallet} {k : Int} {height : Number} (h : Capped w k)
    (hk : ¬ height < .int k) : w.cut height = w := by
  have hbelow {j : Int} (hj : j ≤ k) : ¬ height < .int j := fun hlt =>
    hk (Number.lt_int_of_le hlt hj)
  have hcheckpoints : (w.cut height).checkpoints = w.checkpoints := by
    rw [checkpoints_cut]
    refine Keyed.ext (List.filter_eq_self.2 fun e he => ?_)
    simp [hbelow (h.checkpoints e he)]
  have hunmark : ∀ n ∈ w.notes, unmark height n = n := by
    intro n hn
    have hspent : isSpentAbove height n = false := by
      unfold isSpentAbove
      cases hs : n.spent with
      | none => rfl
      | some s => simp [hbelow (h.spends n hn s hs)]
    simp [unmark, hspent]
  have hnotes : (w.cut height).notes = w.notes := by
    rw [notes_cut, List.filter_eq_self.2 fun n hn => by simp [hbelow (h.notes n hn)]]
    exact (List.map_congr_left hunmark).trans (List.map_id' _)
  exact eq_of_tables rfl hcheckpoints hnotes

/-- Recording a block at the cap or above it raises the cap to its height. -/
theorem capped_of_recorded {b : ScannedBlock} {j k : Int} {w w' : Wallet} (h : Recorded b k w w')
    (hw : Capped w j) (hjk : j ≤ k) : Capped w' k := by
  have hmem : ∀ n ∈ w'.notes, ∃ m, n = settle k b.spends m ∧ m.height ≤ k ∧
      ∀ s, m.spent = some s → s.height ≤ k := by
    intro n hn
    rw [h.notes] at hn
    obtain ⟨m, hm, rfl⟩ := List.mem_map.1 hn
    refine ⟨m, rfl, ?_⟩
    rcases List.mem_append.1 hm with hm | hm
    · exact ⟨Int.le_trans (hw.notes m hm) hjk, fun s hs =>
        Int.le_trans (hw.spends m hm s hs) hjk⟩
    · obtain ⟨hheight, hspent⟩ := mem_rows hm
      refine ⟨Int.le_of_eq hheight, fun s hs => ?_⟩
      rw [hspent] at hs
      cases hs
  constructor
  · intro e he
    rw [h.checkpoints] at he
    rcases Keyed.mem_insertEntry he with rfl | he
    · exact Int.le_refl k
    · exact Int.le_trans (hw.checkpoints e he) hjk
  · intro n hn
    obtain ⟨m, rfl, hm, -⟩ := hmem n hn
    exact hm
  · intro n hn s hs
    obtain ⟨m, rfl, -, hm⟩ := hmem n hn
    rcases spent_settle hs with hs | hs
    · exact hm s hs
    · exact Int.le_of_eq hs

end Wallet

/-! ## Rewinding -/

namespace WalletStore

open Database (keeps_query)

/-- A rewind changes a wallet by truncating it, if at all. -/
theorem keeps_rewind {P : WalletStore → Prop}
    (htruncate : ∀ height, Action.Keeps P (truncate height)) (target depth : Number)
    (stable : Option Number) : Action.Keeps P (rewind target depth stable) := by
  have hbelow (tip : Int) : Action.Keeps P (rewindBelow target depth stable tip) :=
    (keeps_query _).bind fun _ => (htruncate target).bind fun _ =>
      (keeps_query _).bind fun _ => .pure _
  unfold rewind
  split
  · exact fun s hs => hs
  · refine (keeps_query _).bind fun tip => ?_
    cases tip with
    | none => exact .pure _
    | some t =>
        dsimp only
        split
        · exact .pure _
        · exact hbelow t.height

end WalletStore
end LightSync
