import LightSync.Proofs.Wallet.Replay

/-!
# How the tables of a wallet hang together

The tables refer to each other, and only some of that is checked where a row is written.
`Wallet.Coherent` says what holds between them: the checkpoints form one interval of heights, notes
and spends lie in it, and the notes are numbered in the order in which they were added, which is
that of their heights. Recording a block keeps it (`Recorded.coherent`), since the block follows the
tip; so does cutting (`Coherent.cut`), since it takes an end of the interval together with an end of
the notes. Hence it holds of every wallet that is reached from an empty one, whatever was refused on
the way (`WalletStore.coherent_of_reachable`).
-/

set_option autoImplicit false

namespace LightSync

/-! ## Parts of a list -/

/-- Of a list in order, what is kept is a beginning, if what comes before a kept element is kept. -/
theorem filter_prefix_of_pairwise {α : Type} {R : α → α → Prop} {p : α → Bool} {l : List α}
    (hl : l.Pairwise R) (hp : ∀ a b, R a b → p b = true → p a = true) : l.filter p <+: l := by
  induction l with
  | nil => exact List.prefix_refl []
  | cons a l ih =>
      obtain ⟨ha, hl⟩ := List.pairwise_cons.1 hl
      by_cases h : p a = true
      · rw [List.filter_cons_of_pos h]
        exact List.cons_prefix_cons.2 ⟨rfl, ih hl⟩
      · have hnone : l.filter p = [] :=
          List.filter_eq_nil_iff.2 fun b hb hpb => h (hp a b (ha b hb) hpb)
        rw [List.filter_cons_of_neg h, hnone]
        exact List.nil_prefix

/-! ## Notes and their spends -/

namespace WalletNote

/-- The column with the height of the spend. -/
def spentHeight? (n : WalletNote) : Option Int := n.spent.map (·.height)

/-- The column with the transaction of the spend. -/
def spentTxid? (n : WalletNote) : Option Bytes := n.spent.map (·.txid)

/-- The columns of a spend are both empty, or both filled, with the height of a checkpoint that is
not below that of the note. -/
def SpentWithin (checkpoints : Keyed Checkpoint) (n : WalletNote) : Prop :=
  (n.spentHeight? = none ∧ n.spentTxid? = none) ∨
    ∃ height txid, n.spentHeight? = some height ∧ n.spentTxid? = some txid ∧
      checkpoints.contains height = true ∧ n.height ≤ height

theorem spentWithin_iff {checkpoints : Keyed Checkpoint} {n : WalletNote} :
    n.SpentWithin checkpoints ↔
      ∀ s, n.spent = some s → checkpoints.contains s.height = true ∧ n.height ≤ s.height := by
  unfold SpentWithin spentHeight? spentTxid?
  cases n.spent with
  | none => simp
  | some s => simp

end WalletNote

namespace Wallet

/-- The identifiers of the first `n` notes. -/
def firstIds (n : Nat) : List Int := (List.range n).map fun i : Nat => (i : Int) + 1

/-- How the tables of a wallet hang together. -/
structure Coherent (w : Wallet) : Prop where
  gapless : ∀ i j k, w.checkpoints.contains i = true → w.checkpoints.contains k = true →
    i ≤ j → j ≤ k → w.checkpoints.contains j = true
  safe : ∀ k, w.checkpoints.contains k = true → k.natAbs ≤ Number.maxSafe
  heights : ∀ n ∈ w.notes, w.checkpoints.contains n.height = true
  owners : ∀ n ∈ w.notes, w.accounts.contains n.account = true
  spends : ∀ n ∈ w.notes, n.SpentWithin w.checkpoints
  nullifiers : (w.notes.map (·.nullifier)).Nodup
  positions : (w.notes.map (·.position)).Nodup
  ids : w.notes.map (·.id) = firstIds w.notes.length
  ascending : w.notes.Pairwise fun m n => m.height ≤ n.height

theorem coherent_empty : Coherent empty where
  gapless i j k hi := by cases hi
  safe k hk := by cases hk
  heights n hn := by cases hn
  owners n hn := by cases hn
  spends n hn := by cases hn
  nullifiers := List.nodup_nil
  positions := List.nodup_nil
  ids := rfl
  ascending := List.Pairwise.nil

/-! ## Identifiers -/

theorem firstIds_succ (n : Nat) : firstIds (n + 1) = firstIds n ++ [(n : Int) + 1] := by
  simp [firstIds, List.range_succ]

theorem take_firstIds {m n : Nat} (h : m ≤ n) : (firstIds n).take m = firstIds m := by
  rw [firstIds, ← List.map_take, List.take_range, Nat.min_eq_left h]
  rfl

theorem foldl_max_firstIds (n : Nat) : (firstIds n).foldl max 0 = (n : Int) := by
  induction n with
  | zero => rfl
  | succ n ih =>
      rw [firstIds_succ, List.foldl_append, ih]
      show max (n : Int) ((n : Int) + 1) = _
      omega

theorem ids_rows (k : Int) (n : Nat) (ns : List FoundNote) :
    firstIds n ++ (rows k ((n : Int) + 1) ns).map (·.id) = firstIds (n + ns.length) := by
  induction ns generalizing n with
  | nil => exact List.append_nil _
  | cons m ns ih =>
      have hnext := ih (n + 1)
      rw [firstIds_succ, List.append_assoc] at hnext
      rw [List.length_cons, Nat.add_comm ns.length, ← Nat.add_assoc]
      exact hnext

variable {w w' : Wallet}

theorem Coherent.nextNoteId (h : w.Coherent) : w.nextNoteId = (w.notes.length : Int) + 1 := by
  rw [Wallet.nextNoteId, h.ids, foldl_max_firstIds]

/-- A note of a greater height has a greater identifier. -/
theorem Coherent.id_lt_of_height_lt (h : w.Coherent) {m n : WalletNote} (hm : m ∈ w.notes)
    (hn : n ∈ w.notes) (hlt : m.height < n.height) : m.id < n.id := by
  have hid : ∀ i (hi : i < w.notes.length), w.notes[i].id = (i : Int) + 1 := by
    intro i hi
    have hmap : (w.notes.map (·.id))[i]? = (firstIds w.notes.length)[i]? := by rw [h.ids]
    simpa [firstIds, hi] using hmap
  obtain ⟨i, hi, rfl⟩ := List.getElem_of_mem hm
  obtain ⟨j, hj, rfl⟩ := List.getElem_of_mem hn
  rw [hid i hi, hid j hj]
  -- otherwise the second note came first, or is the same
  by_contra hle
  rcases Nat.lt_or_ge j i with hji | hij
  · have := List.pairwise_iff_getElem.1 h.ascending j i hj hi hji
    omega
  · have hsame : i = j := by omega
    subst hsame
    exact absurd hlt (Int.lt_irrefl _)

/-! ## The tip -/

theorem contains_of_tip? {t : WalletTip} (h : w.tip? = some t) :
    w.checkpoints.contains t.height = true := by
  obtain ⟨e, he, rfl⟩ := Option.map_eq_some_iff.1 h
  exact Keyed.contains_iff.2 ⟨e.2, List.mem_of_getLast? he⟩

theorem le_of_tip? {t : WalletTip} (h : w.tip? = some t) {k : Int}
    (hk : w.checkpoints.contains k = true) : k ≤ t.height := by
  obtain ⟨e, he, rfl⟩ := Option.map_eq_some_iff.1 h
  obtain ⟨row, hrow⟩ := Keyed.contains_iff.1 hk
  exact Keyed.le_of_last? he hrow

theorem not_contains_of_tip?_eq_none (h : w.tip? = none) (k : Int) :
    ¬ w.checkpoints.contains k = true := by
  intro hk
  obtain ⟨row, hrow⟩ := Keyed.contains_iff.1 hk
  rw [entries_of_tip?_eq_none h] at hrow
  cases hrow

/-- Nothing lies above the tip. -/
theorem Coherent.sound (h : w.Coherent) : Sound w where
  bare ht := List.eq_nil_iff_forall_not_mem.2 fun n hn =>
    not_contains_of_tip?_eq_none ht _ (h.heights n hn)
  capped _ ht :=
    { checkpoints := fun e he => le_of_tip? ht (Keyed.contains_iff.2 ⟨e.2, he⟩)
      notes := fun n hn => le_of_tip? ht (h.heights n hn)
      spends := fun n hn s hs =>
        le_of_tip? ht (WalletNote.spentWithin_iff.1 (h.spends n hn) s hs).1 }
  safe _ ht := h.safe _ (contains_of_tip? ht)

/-! ## Recording -/

namespace Recorded

variable {b : ScannedBlock} {k : Int}

theorem contains_iff (hrec : Recorded b k w w') {j : Int} :
    w'.checkpoints.contains j = true ↔ j = k ∨ w.checkpoints.contains j = true := by
  rw [hrec.checkpoints, Keyed.contains_insert]

theorem exists_of_mem (hrec : Recorded b k w w') {n : WalletNote} (hn : n ∈ w'.notes) :
    ∃ m, n = settle k b.spends m ∧ (m ∈ w.notes ∨ ∃ f ∈ b.notes, ∃ i, m = f.row k i) := by
  rw [hrec.notes] at hn
  obtain ⟨m, hm, rfl⟩ := List.mem_map.1 hn
  exact ⟨m, rfl, (List.mem_append.1 hm).imp id exists_of_mem_rows⟩

theorem owner_of_mem (hrec : Recorded b k w w') (h : w.Coherent) {n : WalletNote}
    (hn : n ∈ w'.notes) : w'.accounts.contains n.account = true := by
  rw [hrec.accounts]
  obtain ⟨m, rfl, hm | ⟨f, hf, i, rfl⟩⟩ := hrec.exists_of_mem hn
  · exact h.owners m hm
  · obtain ⟨a, ha, howner⟩ := hrec.owners f hf
    show w.accounts.contains f.account.truncate = true
    rwa [Number.truncate_of_toInt? ha]

theorem ids (hrec : Recorded b k w w') (h : w.Coherent) :
    w'.notes.map (·.id) = firstIds w'.notes.length := by
  have hlength : w'.notes.length = w.notes.length + b.notes.length := by
    rw [hrec.notes, notesAfter, List.length_map, List.length_append, length_rows]
  calc w'.notes.map (·.id)
    _ = w.notes.map (·.id) ++ (rows k w.nextNoteId b.notes).map (·.id) := by
        rw [hrec.notes, notesAfter, List.map_map, List.map_append]
        rfl
    _ = firstIds w.notes.length ++ (rows k ((w.notes.length : Int) + 1) b.notes).map (·.id) := by
        rw [h.ids, h.nextNoteId]
    _ = firstIds w'.notes.length := by rw [ids_rows, hlength]

/-! ### Above what was there -/

section

variable (hrec : Recorded b k w w') (h : w.Coherent)
  (hbelow : ∀ j, w.checkpoints.contains j = true → j < k)
include hrec h hbelow

theorem spentWithin_of_mem {n : WalletNote} (hn : n ∈ w'.notes) :
    n.SpentWithin w'.checkpoints := by
  rw [WalletNote.spentWithin_iff]
  intro s hs
  obtain ⟨m, rfl, hm⟩ := hrec.exists_of_mem hn
  have hle : m.height ≤ k := by
    rcases hm with hm | ⟨f, -, i, rfl⟩
    · exact Int.le_of_lt (hbelow _ (h.heights m hm))
    · exact Int.le_refl k
  rcases spent_settle hs with hs | hs
  · -- a mark from before, which a new note does not have
    rcases hm with hm | ⟨f, -, i, rfl⟩
    · obtain ⟨hin, hheight⟩ := WalletNote.spentWithin_iff.1 (h.spends m hm) s hs
      exact ⟨hrec.contains_iff.2 (Or.inr hin), hheight⟩
    · cases hs
  · rw [hs]
    exact ⟨hrec.contains_iff.2 (Or.inl rfl), hle⟩

theorem ascending : w'.notes.Pairwise fun m n => m.height ≤ n.height := by
  have hrows : ∀ n ∈ rows k w.nextNoteId b.notes, n.height = k := fun n hn => (mem_rows hn).1
  rw [hrec.notes, notesAfter, List.pairwise_map, List.pairwise_append]
  refine ⟨h.ascending, ?_, ?_⟩
  · refine List.pairwise_of_forall_mem_list fun m hm n hn => ?_
    exact Int.le_of_eq ((hrows m hm).trans (hrows n hn).symm)
  · intro m hm n hn
    show m.height ≤ n.height
    rw [hrows n hn]
    exact Int.le_of_lt (hbelow _ (h.heights m hm))

/-- Between a checkpoint and the block there is the tip. -/
theorem gapless (hnext : ∀ t, w.tip? = some t → k = t.height + 1) (i j l : Int)
    (hi : w'.checkpoints.contains i = true) (hl : w'.checkpoints.contains l = true) (hij : i ≤ j)
    (hjl : j ≤ l) : w'.checkpoints.contains j = true := by
  have hlk : l ≤ k := by
    rcases hrec.contains_iff.1 hl with rfl | hl
    · exact Int.le_refl l
    · exact Int.le_of_lt (hbelow l hl)
  rw [hrec.contains_iff]
  by_cases hjk : j = k
  · exact Or.inl hjk
  · have hi' : w.checkpoints.contains i = true :=
      (hrec.contains_iff.1 hi).resolve_left (by omega)
    cases ht : w.tip? with
    | none => exact absurd hi' (not_contains_of_tip?_eq_none ht i)
    | some t =>
        have hkt := hnext t ht
        exact Or.inr (h.gapless i j t.height hi' (contains_of_tip? ht) hij (by omega))

end

/-- A block that is recorded follows the tip, so its height is above all others. -/
theorem below (hrec : Recorded b k w w') (h : w.Coherent) (hb : b.height.toInt? = some k)
    (hk : k.natAbs ≤ Number.maxSafe) {j : Int} (hj : w.checkpoints.contains j = true) : j < k := by
  obtain ⟨-, -, hnext⟩ := sound_of_recorded hrec hb hk h.sound
  cases ht : w.tip? with
  | none => exact absurd hj (not_contains_of_tip?_eq_none ht j)
  | some t =>
      have hle := le_of_tip? ht hj
      have hkt := hnext t ht
      omega

/-- Recording a block keeps the tables together. -/
theorem coherent (hrec : Recorded b k w w') (h : w.Coherent) (hb : b.height.toInt? = some k)
    (hk : k.natAbs ≤ Number.maxSafe) : w'.Coherent := by
  obtain ⟨-, -, hnext⟩ := sound_of_recorded hrec hb hk h.sound
  have hbelow : ∀ j, w.checkpoints.contains j = true → j < k :=
    fun _ hj => hrec.below h hb hk hj
  constructor
  case gapless => exact hrec.gapless h hbelow hnext
  case safe =>
    intro j hj
    rcases hrec.contains_iff.1 hj with rfl | hj
    · exact hk
    · exact h.safe j hj
  case heights =>
    intro n hn
    rw [hrec.contains_iff]
    obtain ⟨m, rfl, hm | ⟨f, -, i, rfl⟩⟩ := hrec.exists_of_mem hn
    · exact Or.inr (h.heights m hm)
    · exact Or.inl rfl
  case owners => exact fun n hn => hrec.owner_of_mem h hn
  case spends => exact fun n hn => hrec.spentWithin_of_mem h hbelow hn
  case nullifiers => exact hrec.nullifiers h.nullifiers
  case positions => exact hrec.positions h.positions
  case ids => exact hrec.ids h
  case ascending => exact hrec.ascending h hbelow

end Recorded

/-! ## Cutting -/

/-- The other columns of a note are not touched. -/
theorem column_unmark {β : Type} {f : WalletNote → β}
    (hf : ∀ n spent, f { n with spent := spent } = f n) (height : Number) (n : WalletNote) :
    f (unmark height n) = f n := by
  unfold unmark
  split
  · exact hf n none
  · rfl

/-- A mark that stays on a note is not above the height, if the note is not. -/
theorem spent_unmark {height : Number} {n : WalletNote} {s : Spending}
    (hn : ¬ height < .int n.height) (h : (unmark height n).spent = some s) :
    n.spent = some s ∧ ¬ height < .int s.height := by
  unfold unmark at h
  by_cases habove : isSpentAbove height n = true
  · rw [if_pos habove] at h
    cases h
  · rw [if_neg habove] at h
    refine ⟨h, fun hlt => habove ?_⟩
    have hle : Number.int n.height ≤ height := Number.int_le_of_not_lt hlt hn
    simp [isSpentAbove, h, hlt, hle]

/-- The notes up to a height, as they were. -/
def kept (height : Number) (w : Wallet) : List WalletNote :=
  w.notes.filter fun n => !decide (height < Number.int n.height)

theorem mem_kept {height : Number} {n : WalletNote} :
    n ∈ w.kept height ↔ n ∈ w.notes ∧ ¬ height < .int n.height := by
  simp [kept]

theorem contains_cut {height : Number} {k : Int} :
    (w.cut height).checkpoints.contains k = true ↔
      ¬ height < .int k ∧ w.checkpoints.contains k = true := by
  rw [checkpoints_cut, Keyed.contains_filter]
  simp

/-- The notes that are kept are the first ones. -/
theorem Coherent.kept_prefix (h : w.Coherent) (height : Number) : w.kept height <+: w.notes := by
  refine filter_prefix_of_pairwise h.ascending fun m n hmn hn => ?_
  have hn' : ¬ height < .int n.height := by simpa using hn
  have hm : ¬ height < .int m.height := fun hlt => hn' (Number.lt_int_of_le hlt hmn)
  simp [hm]

theorem Coherent.ids_kept (h : w.Coherent) (height : Number) :
    (w.kept height).map (·.id) = firstIds (w.kept height).length := by
  have hprefix := h.kept_prefix height
  calc (w.kept height).map (·.id)
    _ = (w.notes.take (w.kept height).length).map (·.id) := by
        rw [← List.prefix_iff_eq_take.1 hprefix]
    _ = (firstIds w.notes.length).take (w.kept height).length := by rw [List.map_take, h.ids]
    _ = firstIds (w.kept height).length := take_firstIds hprefix.length_le

/-- Cutting takes an end of the interval and an end of the notes, and with them all that refers to
either. -/
theorem Coherent.cut (h : w.Coherent) (height : Number) : (w.cut height).Coherent := by
  have hnotes : (w.cut height).notes = (w.kept height).map (unmark height) := notes_cut height w
  have hsub : (w.kept height).Sublist w.notes := List.filter_sublist
  have hmem : ∀ n ∈ (w.cut height).notes, ∃ m ∈ w.notes, ¬ height < .int m.height ∧
      n = unmark height m := by
    intro n hn
    rw [hnotes] at hn
    obtain ⟨m, hm, rfl⟩ := List.mem_map.1 hn
    obtain ⟨hm, hbelow⟩ := mem_kept.1 hm
    exact ⟨m, hm, hbelow, rfl⟩
  have hcolumn {β : Type} {f : WalletNote → β}
      (hf : ∀ n spent, f { n with spent := spent } = f n) :
      (w.cut height).notes.map f = (w.kept height).map f := by
    rw [hnotes, List.map_map]
    exact List.map_congr_left fun n _ => column_unmark hf height n
  constructor
  case gapless =>
    intro i j k hi hk hij hjk
    rw [contains_cut] at hi hk ⊢
    exact ⟨fun hlt => hk.1 (Number.lt_int_of_le hlt hjk), h.gapless i j k hi.2 hk.2 hij hjk⟩
  case safe => exact fun k hk => h.safe k (contains_cut.1 hk).2
  case heights =>
    intro n hn
    obtain ⟨m, hm, hbelow, rfl⟩ := hmem n hn
    rw [contains_cut, height_unmark]
    exact ⟨hbelow, h.heights m hm⟩
  case owners =>
    intro n hn
    obtain ⟨m, hm, -, rfl⟩ := hmem n hn
    rw [column_unmark (f := (·.account)) fun _ _ => rfl]
    exact h.owners m hm
  case spends =>
    intro n hn
    rw [WalletNote.spentWithin_iff]
    intro s hs
    obtain ⟨m, hm, hbelow, rfl⟩ := hmem n hn
    obtain ⟨hs, hmark⟩ := spent_unmark hbelow hs
    obtain ⟨hin, hle⟩ := WalletNote.spentWithin_iff.1 (h.spends m hm) s hs
    rw [height_unmark]
    exact ⟨contains_cut.2 ⟨hmark, hin⟩, hle⟩
  case nullifiers =>
    rw [hcolumn fun _ _ => rfl]
    exact h.nullifiers.sublist (hsub.map _)
  case positions =>
    rw [hcolumn fun _ _ => rfl]
    exact h.positions.sublist (hsub.map _)
  case ids => rw [hcolumn fun _ _ => rfl, h.ids_kept height, hnotes, List.length_map]
  case ascending =>
    rw [hnotes, List.pairwise_map]
    simp only [height_unmark]
    exact h.ascending.sublist hsub

/-! ## Accounts -/

theorem addAccount_eq_ok {account : Number} {viewingKey : Bytes}
    (h : w.addAccount account viewingKey = .ok w') :
    ∃ k, w' = { w with accounts := w.accounts.insert k viewingKey } := by
  unfold addAccount at h
  obtain ⟨key, -, h⟩ := Except.bind_eq_ok.1 h
  dsimp only at h
  split at h
  · cases h
  · split at h
    · cases h
    · cases h
      exact ⟨_, rfl⟩

theorem Coherent.addAccount {account : Number} {viewingKey : Bytes} (h : w.Coherent)
    (hadd : w.addAccount account viewingKey = .ok w') : w'.Coherent := by
  obtain ⟨k, rfl⟩ := addAccount_eq_ok hadd
  exact { h with owners := fun n hn => Keyed.contains_insert.2 (Or.inr (h.owners n hn)) }

end Wallet

/-! ## Reachable wallets -/

namespace WalletStore

/-- What a store without accounts and blocks becomes by adding accounts, committing blocks of safe
heights and truncating, with faults coming and going; calls that fail are among them. -/
inductive Reachable : WalletStore → Prop where
  | fresh (backing : Backing Wallet) : Reachable (Database.connect Wallet.empty backing)
  | fault {s : WalletStore} (x : Option InjectedFault) (h : Reachable s) :
      Reachable { s with fault := x }
  | addAccount {s : WalletStore} (account : Number) (viewingKey : Bytes) (h : Reachable s) :
      Reachable ((addAccount account viewingKey).after s)
  | commit {s : WalletStore} (b : ScannedBlock) (hb : b.height.toSafeInt?.isSome = true)
      (h : Reachable s) : Reachable ((commitBlock b).after s)
  | truncate {s : WalletStore} (height : Number) (h : Reachable s) :
      Reachable ((truncate height).after s)

/-- Adding an account adds one, or changes nothing. -/
theorem after_addAccount (account : Number) (viewingKey : Bytes) (s : WalletStore) :
    ((addAccount account viewingKey).after s).before = s.before ∧
      (((addAccount account viewingKey).after s).content = s.content ∨
        s.content.addAccount account viewingKey =
          .ok ((addAccount account viewingKey).after s).content) := by
  unfold addAccount
  split
  · simp only [Action.after, Action.storing, Action.mapFailure, Database.run]
    cases hadd : s.content.addAccount account viewingKey with
    | error fault => exact ⟨rfl, Or.inl rfl⟩
    | ok w =>
        have hcontent : (Database.changed s w).content = w := Database.content_saveIfIdle _
        exact ⟨Database.before_saveIfIdle _, Or.inr (congrArg Except.ok hcontent.symm)⟩
  · exact ⟨rfl, Or.inl rfl⟩

theorem fault_after_addAccount (account : Number) (viewingKey : Bytes) (s : WalletStore) :
    ((addAccount account viewingKey).after s).fault = s.fault := by
  unfold addAccount
  split
  · simp only [Action.after, Action.storing, Action.mapFailure, Database.run]
    cases s.content.addAccount account viewingKey with
    | error fault => rfl
    | ok w => exact Database.fault_saveIfIdle _
  · rfl

/-- Between calls no transaction is open, and the tables hang together. -/
structure Settled (s : WalletStore) : Prop where
  rest : s.AtRest
  coherent : s.content.Coherent

theorem Settled.addAccount {s : WalletStore} (h : Settled s) (account : Number)
    (viewingKey : Bytes) : Settled ((addAccount account viewingKey).after s) := by
  obtain ⟨hbefore, hcontent⟩ := after_addAccount account viewingKey s
  refine ⟨hbefore.trans h.rest, ?_⟩
  rcases hcontent with hsame | hadd
  · rw [hsame]
    exact h.coherent
  · exact h.coherent.addAccount hadd

theorem Settled.commit {s : WalletStore} (h : Settled s) {b : ScannedBlock}
    (hb : b.height.toSafeInt?.isSome = true) : Settled ((commitBlock b).after s) := by
  obtain ⟨k, hk⟩ := Option.isSome_iff_exists.1 hb
  obtain ⟨hk, hsafe⟩ := Number.toSafeInt?_eq_some.1 hk
  cases hcommit : commitBlock b s with
  | ok u s' =>
      rw [Action.after_of_ok hcommit]
      obtain ⟨hrecord, hrest, -⟩ := record_of_commitBlock hcommit
      exact ⟨hrest, (Wallet.recorded_of_record hk hrecord).coherent h.coherent hk hsafe⟩
  | error e s' =>
      rw [Action.after_of_error hcommit]
      obtain ⟨hcontent, hrest, -⟩ := content_of_commitBlock_error h.rest hcommit
      exact ⟨hrest, hcontent ▸ h.coherent⟩

theorem Settled.truncate {s : WalletStore} (h : Settled s) (height : Number) :
    Settled ((truncate height).after s) := by
  obtain ⟨s', hs', hcontent, hrest, -⟩ := truncate_of_atRest height h.rest
  rw [Action.after_of_ok hs']
  exact ⟨hrest, hcontent ▸ h.coherent.cut height⟩

theorem settled_of_reachable {s : WalletStore} (h : Reachable s) : Settled s := by
  induction h with
  | fresh backing => exact ⟨rfl, Wallet.coherent_empty⟩
  | fault x _ ih => exact ⟨ih.rest, ih.coherent⟩
  | addAccount account viewingKey _ ih => exact ih.addAccount account viewingKey
  | commit b hb _ ih => exact ih.commit hb
  | truncate height _ ih => exact ih.truncate height

/-- **The tables of every wallet hang together**, whatever was added, committed, truncated and
refused; and what was received later has the greater identifier. -/
theorem coherent_of_reachable {s : WalletStore} (h : Reachable s) :
    s.content.Coherent ∧ ∀ m ∈ s.content.notes, ∀ n ∈ s.content.notes,
      m.height < n.height → m.id < n.id := by
  have hcoherent := (settled_of_reachable h).coherent
  exact ⟨hcoherent, fun m hm n hn => hcoherent.id_lt_of_height_lt hm hn⟩

/-! ### A fork -/

def scanned (height : Int) (notes : List FoundNote) (spends : List FoundSpend) : ScannedBlock :=
  ⟨.int height, [7], 0, 9, notes, spends⟩

def received (position : Number) (nullifier : Bytes) : FoundNote :=
  ⟨0, 5, none, position, [7], 0, 0, [7], nullifier⟩

/-- A note is received and spent, the spend and a second note are truncated away, a block that does
not follow and one with a nullifier that is known are refused, and another block takes the place. -/
def reorganized : WalletStore :=
  let s := Database.connect Wallet.empty .memory
  let s := (addAccount 0 [1]).after s
  let s := (commitBlock (scanned 1 [received 0 [2]] [])).after s
  let s := (commitBlock (scanned 2 [received 1 [3]] [⟨[2], [8]⟩])).after s
  let s := (truncate 1).after s
  let s := (commitBlock (scanned 4 [received 1 [4]] [])).after s
  let s := (commitBlock (scanned 2 [received 1 [4], received 2 [2]] [])).after s
  (commitBlock (scanned 2 [received 3 [4]] [⟨[2], [9]⟩])).after s

theorem reachable_reorganized : Reachable reorganized := by
  have h := (Reachable.fresh .memory).addAccount 0 [1]
  have h := h.commit (scanned 1 [received 0 [2]] []) rfl
  have h := h.commit (scanned 2 [received 1 [3]] [⟨[2], [8]⟩]) rfl
  have h := h.truncate 1
  have h := h.commit (scanned 4 [received 1 [4]] []) rfl
  have h := h.commit (scanned 2 [received 1 [4], received 2 [2]] []) rfl
  unfold reorganized
  exact h.commit (scanned 2 [received 3 [4]] [⟨[2], [9]⟩]) rfl

theorem coherent_of_reachable_reorganized :
    Reachable reorganized ∧
      reorganized.content.notes.map (fun n => (n.id, n.height, n.spentHeight?)) =
        [(1, 1, some 2), (2, 2, none)] ∧
      reorganized.content.Coherent ∧ ∀ m ∈ reorganized.content.notes,
        ∀ n ∈ reorganized.content.notes, m.height < n.height → m.id < n.id := by
  have hnotes : reorganized.content.notes.map (fun n => (n.id, n.height, n.spentHeight?)) =
      [(1, 1, some 2), (2, 2, none)] := by decide +kernel
  exact ⟨reachable_reorganized, hnotes, coherent_of_reachable reachable_reorganized⟩

end WalletStore

end LightSync
