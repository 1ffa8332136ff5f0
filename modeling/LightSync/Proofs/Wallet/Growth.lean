import LightSync.Proofs.Wallet.Refusal
import Mathlib.Data.List.Nodup

/-!
# What a recorded block adds

The rows of a wallet are told apart by their keys: checkpoints by their heights, notes by their
identifiers. Recording a block adds its height above the others and an identifier for each of its
notes, takes no mark from a note that is spent, and marks one note more for each of its spends
(`Wallet.Grows`).
-/

set_option autoImplicit false

namespace LightSync

/-! ## Keys that were added -/

/-- The keys of the second list that are not in the first. -/
def added (before after : List Int) : List Int := after.filter fun a => a ∉ before

section

variable {l l' m : List Int}

theorem added_append (h : (l ++ m).Nodup) : added l (l ++ m) = m := by
  obtain ⟨-, -, hdisjoint⟩ := List.nodup_append.1 h
  unfold added
  rw [List.filter_append]
  have hold : l.filter (fun a => a ∉ l) = [] :=
    List.filter_eq_nil_iff.2 fun a ha => by simpa using ha
  have hnew : m.filter (fun a => a ∉ l) = m :=
    List.filter_eq_self.2 fun a ha => by simpa using fun hal => hdisjoint a hal a ha rfl
  rw [hold, hnew, List.nil_append]

/-- Where no key is lost, as many were added as there are more. -/
theorem length_added (hl : l.Nodup) (hl' : l'.Nodup) (hsub : l ⊆ l') :
    l'.length = l.length + (added l l').length := by
  have hkept : (l'.filter fun a => a ∈ l).Perm l := by
    refine (List.perm_ext_iff_of_nodup (hl'.filter _) hl).2 fun a => ?_
    simpa using fun ha => hsub ha
  rw [List.length_eq_length_filter_add fun a => decide (a ∈ l), hkept.length_eq]
  simp only [added, decide_not]

end

/-- The highest of ascending keys is the last one. -/
theorem max?_of_sorted {l : List Int} (h : l.Pairwise (· < ·)) : l.max? = l.getLast? := by
  cases hlast : l.getLast? with
  | none =>
      rw [List.getLast?_eq_none_iff.1 hlast]
      rfl
  | some a =>
      obtain ⟨l', rfl⟩ := List.getLast?_eq_some_iff.1 hlast
      refine List.max?_eq_some_iff.2 ⟨by simp, fun b hb => ?_⟩
      rcases List.mem_append.1 hb with hb | hb
      · exact Int.le_of_lt ((List.pairwise_append.1 h).2.2 b hb a List.mem_cons_self)
      · exact Int.le_of_eq (List.mem_singleton.1 hb)

namespace Wallet

/-! ## Keys of a wallet -/

/-- The heights of the checkpoints. -/
def heights (w : Wallet) : List Int := w.checkpoints.keys

/-- The identifiers of the notes. -/
def noteIds (w : Wallet) : List Int := w.notes.map (·.id)

/-- The identifiers of the notes that are marked as spent. -/
def spentIds (w : Wallet) : List Int := (w.notes.filter fun n => !isUnspent n).map (·.id)

variable {w w' : Wallet}

theorem sorted_heights (w : Wallet) : w.heights.Pairwise (· < ·) :=
  List.pairwise_map.2 w.checkpoints.sorted

theorem nodup_heights (w : Wallet) : w.heights.Nodup := w.sorted_heights.imp Int.ne_of_lt

theorem nodup_firstIds (n : Nat) : (firstIds n).Nodup :=
  List.nodup_range.map fun i j (h : (i : Int) + 1 = j + 1) => by omega

theorem Coherent.nodup_noteIds (h : w.Coherent) : w.noteIds.Nodup := by
  rw [noteIds, h.ids]
  exact nodup_firstIds _

theorem Coherent.nodup_spentIds (h : w.Coherent) : w.spentIds.Nodup :=
  h.nodup_noteIds.sublist (List.filter_sublist.map _)

/-! ## Recording -/

/-- A note is unspent after spends if it was before and none of them is for its nullifier. -/
theorem isUnspent_settle {k : Int} {ss : List FoundSpend} (hss : (ss.map (·.nullifier)).Nodup)
    (n : WalletNote) :
    isUnspent (settle k ss n) = (isUnspent n && !decide (n.nullifier ∈ ss.map (·.nullifier))) := by
  by_cases hmem : n.nullifier ∈ ss.map (·.nullifier)
  · obtain ⟨s, hs, hsame⟩ := List.mem_map.1 hmem
    cases hspent : n.spent with
    | none =>
        rw [settle_of_mem hss hs hsame.symm hspent]
        simp [isUnspent, hmem]
    | some spend =>
        rw [settle_of_spent k ss (by simp [hspent])]
        simp [isUnspent, hspent]
  · rw [settle_of_not_mem fun s hs hsame => hmem (List.mem_map.2 ⟨s, hs, hsame⟩)]
    simp [hmem]

/-- The unspent notes with the nullifiers of some spends are as many as the spends, if these are
different ones and each has its note. -/
theorem length_filter_nullifiers {notes : List WalletNote} {ss : List FoundSpend}
    (hnotes : (notes.map (·.nullifier)).Nodup) (hss : (ss.map (·.nullifier)).Nodup)
    (hfound : ∀ s ∈ ss, ∃ n ∈ notes, n.nullifier = s.nullifier ∧ n.spent = none) :
    (notes.filter fun n => isUnspent n && decide (n.nullifier ∈ ss.map (·.nullifier))).length =
      ss.length := by
  have hperm : ((notes.filter fun n => isUnspent n &&
      decide (n.nullifier ∈ ss.map (·.nullifier))).map (·.nullifier)).Perm
        (ss.map (·.nullifier)) := by
    refine (List.perm_ext_iff_of_nodup (hnotes.sublist (List.filter_sublist.map _)) hss).2
      fun nf => ⟨fun hnf => ?_, fun hnf => ?_⟩
    · obtain ⟨n, hn, rfl⟩ := List.mem_map.1 hnf
      simpa using (Bool.and_eq_true_iff.1 (List.mem_filter.1 hn).2).2
    · obtain ⟨s, hs, rfl⟩ := List.mem_map.1 hnf
      obtain ⟨n, hn, hsame, hspent⟩ := hfound s hs
      refine List.mem_map.2 ⟨n, List.mem_filter.2 ⟨hn, ?_⟩, hsame⟩
      have hmem : n.nullifier ∈ ss.map (·.nullifier) := hsame ▸ hnf
      simp [isUnspent, hspent, hmem]
  simpa using hperm.length_eq

/-- Each of the spends marks one note more. -/
theorem length_filter_settle (k : Int) {notes : List WalletNote} {ss : List FoundSpend}
    (hnotes : (notes.map (·.nullifier)).Nodup) (hss : (ss.map (·.nullifier)).Nodup)
    (hfound : ∀ s ∈ ss, ∃ n ∈ notes, n.nullifier = s.nullifier ∧ n.spent = none) :
    (notes.filter fun n => !isUnspent (settle k ss n)).length =
      (notes.filter fun n => !isUnspent n).length + ss.length := by
  -- those that were spent stay so, and the others are spent if one of the spends is theirs
  have hstill : notes.filter (fun n => !isUnspent n && !isUnspent (settle k ss n)) =
      notes.filter fun n => !isUnspent n := by
    refine List.filter_congr fun n _ => ?_
    rw [isUnspent_settle hss]
    cases isUnspent n <;> rfl
  have hnewly : notes.filter (fun n => !!isUnspent n && !isUnspent (settle k ss n)) =
      notes.filter fun n => isUnspent n && decide (n.nullifier ∈ ss.map (·.nullifier)) := by
    refine List.filter_congr fun n _ => ?_
    rw [isUnspent_settle hss, Bool.not_not]
    cases isUnspent n <;> simp only [Bool.false_and, Bool.true_and, Bool.not_not]
  rw [List.length_eq_length_filter_add fun n => !isUnspent n, List.filter_filter,
    List.filter_filter, hstill, hnewly, length_filter_nullifiers hnotes hss hfound]

namespace Recorded

variable {b : ScannedBlock} {k : Int}

theorem heights_eq (h : Recorded b k w w')
    (hbelow : ∀ j, w.checkpoints.contains j = true → j < k) : w'.heights = w.heights ++ [k] := by
  have habove : ∀ e ∈ w.checkpoints.entries, e.1 < k :=
    fun e he => hbelow e.1 (Keyed.contains_iff.2 ⟨e.2, he⟩)
  rw [heights, h.checkpoints]
  show (Keyed.insertEntry k (checkpointOf b) w.checkpoints.entries).map (·.1) = _
  rw [Keyed.insertEntry_above habove, List.map_append]
  rfl

theorem noteIds_eq (h : Recorded b k w w') :
    w'.noteIds = w.noteIds ++ (rows k w.nextNoteId b.notes).map (·.id) := by
  rw [noteIds, h.notes, notesAfter, List.map_map, List.map_append]
  rfl

/-- A note that was spent stays so. -/
theorem spentIds_subset (h : Recorded b k w w') : w.spentIds ⊆ w'.spentIds := by
  intro id hid
  obtain ⟨n, hn, rfl⟩ := List.mem_map.1 hid
  obtain ⟨hn, hspent⟩ := List.mem_filter.1 hn
  have hstays : settle k b.spends n = n := by
    refine settle_of_spent k b.spends fun hnone => ?_
    simp [isUnspent, hnone] at hspent
  refine List.mem_map.2 ⟨n, List.mem_filter.2 ⟨?_, hspent⟩, rfl⟩
  rw [h.notes, ← hstays]
  exact List.mem_map_of_mem (List.mem_append_left _ hn)

/-- Every spend of the block marks one note. -/
theorem length_spentIds (h : Recorded b k w w') (hmatched : Matched w b.notes b.spends)
    (hnodup : (w.notes.map (·.nullifier)).Nodup) :
    w'.spentIds.length = w.spentIds.length + b.spends.length := by
  let all := w.notes ++ rows k w.nextNoteId b.notes
  have hnotes : w'.notes = all.map (settle k b.spends) := h.notes
  have hall : (all.map (·.nullifier)).Nodup := by
    have hafter := h.nullifiers hnodup
    rw [hnotes, List.map_map] at hafter
    exact hafter
  -- the notes of the block come without a mark
  have hrows : (rows k w.nextNoteId b.notes).filter (fun n => !isUnspent n) = [] := by
    refine List.filter_eq_nil_iff.2 fun n hn => ?_
    obtain ⟨f, -, i, rfl⟩ := exists_of_mem_rows hn
    simp [FoundNote.row, isUnspent]
  calc w'.spentIds.length
    _ = (all.filter fun n => !isUnspent (settle k b.spends n)).length := by
        rw [spentIds, List.length_map, hnotes, List.filter_map, List.length_map]
        rfl
    _ = (all.filter fun n => !isUnspent n).length + b.spends.length :=
        length_filter_settle k hall hmatched.nodup fun s hs =>
          holdsUnspent_rows.2 (hmatched.known s hs)
    _ = w.spentIds.length + b.spends.length := by
        rw [List.filter_append, hrows, List.append_nil, spentIds, List.length_map]

end Recorded

/-- What the record `b` of a block adds to a wallet; nothing is taken away. -/
structure Grows (b : ScannedBlock) (w w' : Wallet) : Prop where
  coherent : w'.Coherent
  heights : ∃ k : Int, b.height = .int k ∧ w'.heights = w.heights ++ [k]
  noteIds : ∃ new, w'.noteIds = w.noteIds ++ new ∧ new.length = b.notes.length
  spentIds : w.spentIds ⊆ w'.spentIds
  spends : w'.spentIds.length = w.spentIds.length + b.spends.length

/-- **A block that is recorded adds what was found in it.** -/
theorem Recorded.grows {b : ScannedBlock} {k : Int} (h : Recorded b k w w') (hw : w.Coherent)
    (hb : b.height = .int k) (hk : k.natAbs ≤ Number.maxSafe)
    (hmatched : Matched w b.notes b.spends) : Grows b w w' := by
  have htoInt : b.height.toInt? = some k := by
    rw [hb]
    rfl
  constructor
  case coherent => exact h.coherent hw htoInt hk
  case heights => exact ⟨k, hb, h.heights_eq fun _ hj => h.below hw htoInt hk hj⟩
  case noteIds => exact ⟨_, h.noteIds_eq, by rw [List.length_map, length_rows]⟩
  case spentIds => exact h.spentIds_subset
  case spends => exact h.length_spentIds hmatched hw.nullifiers

end Wallet
end LightSync
