import LightSync.Proofs.Wallet.Coherence

/-!
# Which blocks a wallet takes

A block is consistent with a wallet (`Wallet.Consistent`) if it follows the tip, its notes belong to
accounts and are new, and its spends meet different unspent notes, of the wallet or of the block.
Recording checks this bit by bit, some of it where a row is written and some of it by counting the
rows that a spend has marked; each bit is told of here as a condition on the wallet that the step
finds (`addNotes_isOk_iff`, `spendings_isOk_iff`). Together they say that a block of safe numbers is
committed if and only if it is consistent, and what is added then (`commitBlock_iff_consistent`).
-/

set_option autoImplicit false

namespace LightSync

/-! ## Numbers that are kept -/

/-- No number of a note is missing. -/
structure FoundNote.Storable (n : FoundNote) : Prop where
  account : n.account ≠ .nan
  value : n.value ≠ .nan
  position : n.position ≠ .nan
  txIndex : n.txIndex ≠ .nan
  outputIndex : n.outputIndex ≠ .nan

/-- The height of a block is an integer whose neighbours are numbers too, and no other number of it
is missing. -/
structure ScannedBlock.Storable (b : ScannedBlock) : Prop where
  height : b.height.toSafeInt?.isSome = true
  time : b.time ≠ .nan
  treeSize : b.treeSize ≠ .nan
  notes : ∀ n ∈ b.notes, n.Storable

/-- All numbers of a note are integers whose neighbours are numbers too. -/
structure FoundNote.SafeNumbers (n : FoundNote) : Prop where
  account : n.account.toSafeInt?.isSome = true
  value : n.value.toSafeInt?.isSome = true
  position : n.position.toSafeInt?.isSome = true
  txIndex : n.txIndex.toSafeInt?.isSome = true
  outputIndex : n.outputIndex.toSafeInt?.isSome = true

/-- All numbers of a block are. -/
structure ScannedBlock.SafeNumbers (b : ScannedBlock) : Prop where
  height : b.height.toSafeInt?.isSome = true
  time : b.time.toSafeInt?.isSome = true
  treeSize : b.treeSize.toSafeInt?.isSome = true
  notes : ∀ n ∈ b.notes, n.SafeNumbers

theorem Number.ne_nan_of_safe {a : Number} (ha : a.toSafeInt?.isSome = true) : a ≠ .nan :=
  let ⟨_, hn⟩ := Option.isSome_iff_exists.1 ha
  Number.ne_nan_of_toInt? (Number.toSafeInt?_eq_some.1 hn).1

theorem FoundNote.SafeNumbers.storable {n : FoundNote} (h : n.SafeNumbers) : n.Storable :=
  ⟨Number.ne_nan_of_safe h.account, Number.ne_nan_of_safe h.value,
    Number.ne_nan_of_safe h.position, Number.ne_nan_of_safe h.txIndex,
    Number.ne_nan_of_safe h.outputIndex⟩

theorem ScannedBlock.SafeNumbers.storable {b : ScannedBlock} (h : b.SafeNumbers) : b.Storable :=
  ⟨h.height, Number.ne_nan_of_safe h.time, Number.ne_nan_of_safe h.treeSize,
    fun n hn => (h.notes n hn).storable⟩

theorem rowKey_of_safe {a : Number} {k : Int} (hk : a.toInt? = some k)
    (hsafe : k.natAbs ≤ Number.maxSafe) : a.rowKey = .ok (some k) := by
  have hfits : fitsWord k = true := by
    have hbound : -wordBound ≤ k ∧ k < wordBound := by
      unfold Number.maxSafe Number.exactLimit at hsafe
      unfold wordBound
      omega
    simp [fitsWord, hbound]
  rcases Number.toInt?_eq_some.1 hk with rfl | ⟨rfl, rfl⟩
  · unfold Number.rowKey
    dsimp only [Number.toInt?]
    rw [if_pos hfits]
  · rfl

namespace Wallet

open Database (asking changing inserting inserting_eq_ok)

/-! ## Consistent blocks -/

section

variable {α : Type}

/-- No entry occurs twice, and none is among the old ones. -/
def Fresh (old new : List α) : Prop := new.Nodup ∧ ∀ a ∈ new, a ∉ old

instance [DecidableEq α] (old new : List α) : Decidable (Fresh old new) :=
  inferInstanceAs (Decidable (_ ∧ _))

theorem fresh_nil (old : List α) : Fresh old [] :=
  ⟨List.nodup_nil, fun a ha => by cases ha⟩

theorem fresh_cons {old new : List α} {a : α} :
    Fresh old (a :: new) ↔ a ∉ old ∧ Fresh (old ++ [a]) new := by
  unfold Fresh
  rw [List.nodup_cons, List.forall_mem_cons]
  constructor
  · rintro ⟨⟨hnew, hnodup⟩, hold, hrest⟩
    refine ⟨hold, hnodup, fun x hx hmem => ?_⟩
    rcases List.mem_append.1 hmem with hmem | hmem
    · exact hrest x hx hmem
    · rw [List.mem_singleton.1 hmem] at hx
      exact hnew hx
  · rintro ⟨hold, hnodup, hrest⟩
    refine ⟨⟨fun ha => hrest a ha (by simp), hnodup⟩, hold, fun x hx hmem => ?_⟩
    exact hrest x hx (List.mem_append_left _ hmem)

end

/-- The wallet has an unspent note of this nullifier. -/
def HoldsUnspent (w : Wallet) (nullifier : Bytes) : Prop :=
  ∃ n ∈ w.notes, n.nullifier = nullifier ∧ n.spent = none

instance (w : Wallet) (nullifier : Bytes) : Decidable (w.HoldsUnspent nullifier) :=
  inferInstanceAs (Decidable (∃ n ∈ w.notes, _ ∧ _))

instance (accounts : Keyed Bytes) (account : Number) : Decidable (Owns accounts account) :=
  decidable_of_iff (∃ a ∈ account.toInt?, accounts.contains a = true) Iff.rfl

/-- A block fits a wallet. Positions are compared as they are kept. -/
structure Consistent (w : Wallet) (b : ScannedBlock) : Prop where
  follows : ∀ t, w.tip? = some t → b.height.toInt? = some (t.height + 1)
  owners : ∀ n ∈ b.notes, Owns w.accounts n.account
  nullifiers : Fresh (w.notes.map (·.nullifier)) (b.notes.map (·.nullifier))
  positions : Fresh (w.notes.map (·.position)) (b.notes.map (·.position.kept))
  spends : (b.spends.map (·.nullifier)).Nodup
  unspent : ∀ s ∈ b.spends, w.HoldsUnspent s.nullifier ∨ ∃ n ∈ b.notes, n.nullifier = s.nullifier

instance (w : Wallet) (b : ScannedBlock) : Decidable (w.Consistent b) :=
  decidable_of_iff
    ((∀ t ∈ w.tip?, b.height.toInt? = some (t.height + 1)) ∧
      (∀ n ∈ b.notes, Owns w.accounts n.account) ∧
      Fresh (w.notes.map (·.nullifier)) (b.notes.map (·.nullifier)) ∧
      Fresh (w.notes.map (·.position)) (b.notes.map (·.position.kept)) ∧
      (b.spends.map (·.nullifier)).Nodup ∧
      ∀ s ∈ b.spends, w.HoldsUnspent s.nullifier ∨ ∃ n ∈ b.notes, n.nullifier = s.nullifier)
    ⟨fun ⟨h1, h2, h3, h4, h5, h6⟩ => ⟨h1, h2, h3, h4, h5, h6⟩,
      fun h => ⟨h.follows, h.owners, h.nullifiers, h.positions, h.spends, h.unspent⟩⟩

/-! ## The steps -/

section

variable {b : ScannedBlock} {k : Int} {w w' : Wallet}

/-- A block whose height may follow is one above the tip. -/
theorem checkHeight_eq_ok (hk : b.height.toInt? = some k)
    (hsafe : ∀ t, w.tip? = some t → t.height.natAbs ≤ Number.maxSafe) :
    WalletStore.checkHeight b w = .ok () ↔ ∀ t, w.tip? = some t → k = t.height + 1 := by
  unfold WalletStore.checkHeight
  cases ht : w.tip? with
  | none => simp
  | some t =>
      have hsame : b.height.same (.int t.height + 1) = true ↔ k = t.height + 1 := by
        rw [Number.int_add_one_of_safe (hsafe t ht), Number.same_int_of_toInt? hk]
      dsimp only
      by_cases hnext : k = t.height + 1
      · rw [if_pos (hsame.2 hnext)]
        simp [hnext]
      · rw [if_neg (mt hsame.1 hnext)]
        simp [hnext]

theorem addCheckpoint_of_storable (hb : b.Storable) (hk : b.height.toInt? = some k)
    (hsafe : k.natAbs ≤ Number.maxSafe) (habsent : w.checkpoints.contains k = false) :
    w.addCheckpoint b = .ok { w with checkpoints := w.checkpoints.insert k (checkpointOf b) } := by
  unfold addCheckpoint
  rw [rowKey_of_safe hk hsafe, storedIn_of_ne_nan hb.time rfl, storedIn_of_ne_nan hb.treeSize rfl]
  show (if w.checkpoints.contains k then _ else _ : Except StoreFault Wallet) = _
  rw [habsent]
  rfl

/-- A note is added if and only if it is welcome. -/
theorem addNote_iff {n : FoundNote} (hn : n.Storable) :
    w.addNote (some k) n = .ok w' ↔
      Welcome w n ∧ w' = { w with notes := w.notes ++ [n.row k w.nextNoteId] } := by
  refine ⟨addNote_eq_ok, ?_⟩
  rintro ⟨⟨hnullifier, hposition, a, ha, howner⟩, rfl⟩
  have hknown : ¬ w.notes.any (·.nullifier == n.nullifier) = true := by simpa using hnullifier
  have htaken : ¬ w.notes.any (·.position == n.position.kept) = true := by simpa using hposition
  have haccount : n.account.kept.toInt?.filter w.accounts.contains = some a := by
    rw [Number.toInt?_kept, ha, Option.filter_some, if_pos howner]
  unfold addNote
  rw [storedIn_of_ne_nan hn.account rfl, storedIn_of_ne_nan hn.value rfl,
    storedIn_of_ne_nan hn.position rfl, storedIn_of_ne_nan hn.txIndex rfl,
    storedIn_of_ne_nan hn.outputIndex rfl]
  simp only [bind, Except.bind, pure, Except.pure]
  rw [if_neg hknown, if_neg htaken, haccount]
  dsimp only
  rw [FoundNote.row, Number.truncate_of_toInt? ha]

end

/-! ## The notes -/

section

variable {k : Int} {ns : List FoundNote} {w : Wallet}

/-- The notes of a block are added if and only if each belongs to an account and all are new, to
the wallet and to each other. -/
theorem addNotes_isOk_iff (hstorable : ∀ n ∈ ns, n.Storable) :
    (∃ w', (ns.forM fun n => inserting (addNote (some k) n)) w = .ok (⟨⟩, w')) ↔
      (∀ n ∈ ns, Owns w.accounts n.account) ∧
      Fresh (w.notes.map (·.nullifier)) (ns.map (·.nullifier)) ∧
      Fresh (w.notes.map (·.position)) (ns.map (·.position.kept)) := by
  induction ns generalizing w with
  | nil =>
      refine iff_of_true ⟨w, rfl⟩ ⟨fun n hn => (by cases hn), fresh_nil _, fresh_nil _⟩
  | cons n ns ih =>
      have hn := hstorable n List.mem_cons_self
      have hrest := fun m hm => hstorable m (List.mem_cons_of_mem n hm)
      -- the wallet that the other notes find
      let w1 : Wallet := { w with notes := w.notes ++ [n.row k w.nextNoteId] }
      have hfirst : ∀ u, inserting (addNote (some k) n) w = .ok (⟨⟩, u) ↔ Welcome w n ∧ u = w1 :=
        fun u => inserting_eq_ok.trans (addNote_iff hn)
      have hnullifiers : w1.notes.map (·.nullifier) = w.notes.map (·.nullifier) ++ [n.nullifier] := by
        simp [w1, FoundNote.row]
      have hpositions : w1.notes.map (·.position) =
          w.notes.map (·.position) ++ [n.position.kept] := by
        simp [w1, FoundNote.row]
      rw [StateT.forM_cons_isOk_iff (f := fun n => inserting (addNote (some k) n)) hfirst, ih hrest,
        hnullifiers, hpositions, List.forall_mem_cons, List.map_cons, List.map_cons, fresh_cons,
        fresh_cons]
      constructor
      · rintro ⟨⟨hnew, hplace, howner⟩, howners, hnew', hplace'⟩
        exact ⟨⟨howner, howners⟩, ⟨hnew, hnew'⟩, ⟨hplace, hplace'⟩⟩
      · rintro ⟨⟨howner, howners⟩, ⟨hnew, hnew'⟩, ⟨hplace, hplace'⟩⟩
        exact ⟨⟨hnew, hplace, howner⟩, howners, hnew', hplace'⟩

/-- With the notes of a block a wallet holds those unspent, too. -/
theorem holdsUnspent_rows {id : Int} {nullifier : Bytes} :
    HoldsUnspent { w with notes := w.notes ++ rows k id ns } nullifier ↔
      w.HoldsUnspent nullifier ∨ ∃ n ∈ ns, n.nullifier = nullifier := by
  have hrows : (∃ n ∈ rows k id ns, n.nullifier = nullifier ∧ n.spent = none) ↔
      ∃ n ∈ ns, n.nullifier = nullifier := by
    induction ns generalizing id with
    | nil => simp [rows]
    | cons n ns ih =>
        simp only [rows, List.mem_cons, exists_eq_or_imp, ih]
        simp [FoundNote.row]
  unfold HoldsUnspent
  rw [← hrows]
  simp only [List.mem_append, or_and_right, exists_or]

end

/-! ## The spends -/

section

variable {b : ScannedBlock} {k : Int} {s : FoundSpend} {ss : List FoundSpend} {w w' : Wallet}

/-- A spend marks one note if and only if the wallet holds it unspent: no two notes have the same
nullifier. -/
theorem length_filter_isSpentBy (hnodup : (w.notes.map (·.nullifier)).Nodup) {nullifier : Bytes} :
    (w.notes.filter (isSpentBy nullifier)).length = 1 ↔ w.HoldsUnspent nullifier := by
  have hmost : (w.notes.filter (isSpentBy nullifier)).length ≤ 1 := by
    have hsame : (w.notes.filter (isSpentBy nullifier)).map (·.nullifier) =
        List.replicate (w.notes.filter (isSpentBy nullifier)).length nullifier := by
      refine List.map_eq_replicate_iff.2 fun n hn => ?_
      have hspent := (List.mem_filter.1 hn).2
      simp only [isSpentBy, Bool.and_eq_true, decide_eq_true_eq] at hspent
      exact hspent.1
    have hsub : ((w.notes.filter (isSpentBy nullifier)).map (·.nullifier)).Nodup :=
      hnodup.sublist (List.filter_sublist.map _)
    rw [hsame, List.nodup_replicate] at hsub
    exact hsub
  have hsome : 0 < (w.notes.filter (isSpentBy nullifier)).length ↔ w.HoldsUnspent nullifier := by
    rw [List.length_pos_iff_exists_mem]
    simp [HoldsUnspent, isSpentBy, isUnspent]
  rw [← hsome]
  omega

/-- A spend is recorded if and only if the wallet holds its note unspent. -/
theorem spending_iff (hk : b.height.toInt? = some k)
    (hnodup : (w.notes.map (·.nullifier)).Nodup) :
    spending b s w = .ok (⟨⟩, w') ↔
      w.HoldsUnspent s.nullifier ∧ w' = { w with notes := w.notes.map (settle k [s]) } := by
  have hmarked : w.markSpent b.height.toInt? s =
      ({ w with notes := w.notes.map (settle k [s]) },
        (w.notes.filter (isSpentBy s.nullifier)).length) := by
    rw [hk]
    simp [markSpent, settle_singleton]
  unfold spending
  rw [← length_filter_isSpentBy hnodup, StateT.bind_eq_ok]
  simp only [changing, hmarked]
  constructor
  · rintro ⟨changes, w1, h1, h2⟩
    cases h1
    by_cases hone : (w.notes.filter (isSpentBy s.nullifier)).length = 1
    · rw [if_neg (not_not.2 hone)] at h2
      cases h2
      exact ⟨hone, rfl⟩
    · rw [if_pos hone] at h2
      cases h2
  · rintro ⟨hone, rfl⟩
    refine ⟨_, _, rfl, ?_⟩
    rw [if_neg (not_not.2 hone)]
    rfl

/-- What a wallet still holds unspent behind a spend. -/
theorem holdsUnspent_settle {nullifier : Bytes} :
    HoldsUnspent { w with notes := w.notes.map (settle k [s]) } nullifier ↔
      nullifier ≠ s.nullifier ∧ w.HoldsUnspent nullifier := by
  constructor
  · rintro ⟨m, hm, rfl, hspent⟩
    obtain ⟨n, hn, rfl⟩ := List.mem_map.1 hm
    rw [settle_singleton] at hspent
    by_cases hmark : isSpentBy s.nullifier n = true
    · rw [if_pos hmark] at hspent
      cases hspent
    · rw [if_neg hmark] at hspent
      refine ⟨fun hsame => hmark ?_, n, hn, rfl, hspent⟩
      have hsame : n.nullifier = s.nullifier := hsame
      simp [isSpentBy, isUnspent, hsame, hspent]
  · rintro ⟨hother, n, hn, rfl, hspent⟩
    refine ⟨settle k [s] n, List.mem_map_of_mem hn, rfl, ?_⟩
    have hmark : ¬ isSpentBy s.nullifier n = true := by simp [isSpentBy, hother]
    rw [settle_singleton, if_neg hmark, hspent]

/-- The spends of a block are recorded if and only if their nullifiers are different ones and the
wallet holds all their notes unspent. -/
theorem spendings_isOk_iff (hk : b.height.toInt? = some k)
    (hnodup : (w.notes.map (·.nullifier)).Nodup) :
    (∃ w', (ss.forM (spending b)) w = .ok (⟨⟩, w')) ↔
      (ss.map (·.nullifier)).Nodup ∧ ∀ s ∈ ss, w.HoldsUnspent s.nullifier := by
  induction ss generalizing w with
  | nil =>
      refine iff_of_true ⟨w, rfl⟩ ⟨List.nodup_nil, fun s hs => by cases hs⟩
  | cons s ss ih =>
      let w1 : Wallet := { w with notes := w.notes.map (settle k [s]) }
      have hnodup1 : (w1.notes.map (·.nullifier)).Nodup := by
        have hsame : w1.notes.map (·.nullifier) = w.notes.map (·.nullifier) := by
          simp [w1, Function.comp_def]
        rwa [hsame]
      have hfirst : ∀ u, spending b s w = .ok (⟨⟩, u) ↔ w.HoldsUnspent s.nullifier ∧ u = w1 :=
        fun u => spending_iff hk hnodup
      rw [StateT.forM_cons_isOk_iff hfirst, ih hnodup1, List.map_cons, List.nodup_cons,
        List.forall_mem_cons]
      -- the other spends need notes that this one leaves unspent
      have hrest : (∀ x ∈ ss, w1.HoldsUnspent x.nullifier) ↔
          s.nullifier ∉ ss.map (·.nullifier) ∧ ∀ x ∈ ss, w.HoldsUnspent x.nullifier := by
        constructor
        · intro h
          refine ⟨fun hmem => ?_, fun x hx => (holdsUnspent_settle.1 (h x hx)).2⟩
          obtain ⟨x, hx, hsame⟩ := List.mem_map.1 hmem
          exact (holdsUnspent_settle.1 (h x hx)).1 hsame
        · rintro ⟨hnew, h⟩ x hx
          refine holdsUnspent_settle.2 ⟨fun hsame => hnew ?_, h x hx⟩
          exact hsame ▸ List.mem_map_of_mem hx
      rw [hrest]
      tauto

end

/-! ## The whole -/

section

variable {b : ScannedBlock} {k : Int} {w w' : Wallet}

/-- A block that follows the tip stands where no checkpoint is. -/
theorem not_contains_of_follows (hfollows : ∀ t, w.tip? = some t → k = t.height + 1) :
    w.checkpoints.contains k = false := by
  refine Bool.eq_false_iff.2 fun hk => ?_
  cases ht : w.tip? with
  | none => exact not_contains_of_tip?_eq_none ht k hk
  | some t =>
      have hle := le_of_tip? ht hk
      have hnext := hfollows t ht
      omega

/-- The steps of recording a block succeed if and only if it is consistent. -/
theorem recording_isOk_iff (hw : w.Coherent) (hb : b.Storable) :
    (∃ w', recording b w = .ok (⟨⟩, w')) ↔ w.Consistent b := by
  obtain ⟨k, hk⟩ := Option.isSome_iff_exists.1 hb.height
  obtain ⟨hk, hsafe⟩ := Number.toSafeInt?_eq_some.1 hk
  have hcheck := checkHeight_eq_ok (w := w) hk hw.sound.safe
  have hnext : ∀ t : WalletTip, b.height.toInt? = some (t.height + 1) ↔ k = t.height + 1 := by
    intro t
    rw [hk, Option.some_inj]
  unfold recording
  constructor
  · rintro ⟨w', h⟩
    rw [hk] at h
    obtain ⟨_, w1, hasked, h⟩ := StateT.bind_eq_ok.1 h
    obtain ⟨_, w2, hpoint, h⟩ := StateT.bind_eq_ok.1 h
    obtain ⟨_, w3, hnotes, hspends⟩ := StateT.bind_eq_ok.1 h
    obtain ⟨hfollows, rfl⟩ := Database.asking_eq_ok.1 hasked
    obtain ⟨-, rfl⟩ := addCheckpoint_eq_ok hk (inserting_eq_ok.1 hpoint)
    obtain ⟨howners, hnullifiers, hpositions⟩ := (addNotes_isOk_iff hb.notes).1 ⟨w3, hnotes⟩
    obtain ⟨rfl, -, hnodup, -⟩ := addNotes_eq_ok hnotes
    obtain ⟨hdistinct, hunspent⟩ :=
      (spendings_isOk_iff hk (hnodup hw.nullifiers)).1 ⟨w', hspends⟩
    exact
      { follows := fun t ht => (hnext t).2 (hcheck.1 hfollows t ht)
        owners := howners
        nullifiers := hnullifiers
        positions := hpositions
        spends := hdistinct
        unspent := fun s hs => holdsUnspent_rows.1 (hunspent s hs) }
  · intro h
    rw [hk]
    have hfollows : ∀ t, w.tip? = some t → k = t.height + 1 :=
      fun t ht => (hnext t).1 (h.follows t ht)
    -- the wallets that the steps come to
    let w1 : Wallet := { w with checkpoints := w.checkpoints.insert k (checkpointOf b) }
    have hpoint : w.addCheckpoint b = .ok w1 :=
      addCheckpoint_of_storable hb hk hsafe (not_contains_of_follows hfollows)
    obtain ⟨w2, hnotes⟩ : ∃ w2, (b.notes.forM fun n => inserting (addNote (some k) n)) w1 =
        .ok (⟨⟩, w2) :=
      (addNotes_isOk_iff hb.notes).2 ⟨h.owners, h.nullifiers, h.positions⟩
    obtain ⟨hw2, -, hnodup, -⟩ := addNotes_eq_ok hnotes
    obtain ⟨w3, hspends⟩ : ∃ w3, (b.spends.forM (spending b)) w2 = .ok (⟨⟩, w3) := by
      refine (spendings_isOk_iff hk (hnodup hw.nullifiers)).2 ⟨h.spends, fun s hs => ?_⟩
      rw [hw2]
      exact holdsUnspent_rows.2 (h.unspent s hs)
    refine ⟨w3, StateT.bind_eq_ok.2 ⟨(), w, Database.asking_eq_ok.2 ⟨hcheck.2 hfollows, rfl⟩, ?_⟩⟩
    refine StateT.bind_eq_ok.2 ⟨(), w1, inserting_eq_ok.2 hpoint, ?_⟩
    exact StateT.bind_eq_ok.2 ⟨⟨⟩, w2, hnotes, hspends⟩

/-- A block of which no number is missing is recorded if and only if it is consistent. -/
theorem record_isOk_iff_of_storable (hw : w.Coherent) (hb : b.Storable) :
    (∃ w', w.record b = .ok w') ↔ w.Consistent b := by
  rw [← recording_isOk_iff hw hb]
  unfold record storageResult
  cases recording b w with
  | ok r => exact iff_of_true ⟨r.2, rfl⟩ ⟨r.2, rfl⟩
  | error e =>
      refine iff_of_false ?_ ?_
      · rintro ⟨w', h⟩
        cases h
      · rintro ⟨w', h⟩
        cases h

theorem record_isOk_iff (hw : w.Coherent) (hb : b.SafeNumbers) :
    (∃ w', w.record b = .ok w') ↔ w.Consistent b :=
  record_isOk_iff_of_storable hw hb.storable

end

/-! ## What is added -/

/-- The note that a spend belongs to is marked by it. -/
theorem settle_of_mem {k : Int} {spends : List FoundSpend}
    (hdistinct : (spends.map (·.nullifier)).Nodup) {s : FoundSpend} (hs : s ∈ spends)
    {n : WalletNote} (hn : n.nullifier = s.nullifier) (hunspent : n.spent = none) :
    settle k spends n = { n with spent := some ⟨k, s.txid⟩ } := by
  have hfind : spends.find? (fun x => n.nullifier = x.nullifier) = some s := by
    obtain ⟨before, after, rfl⟩ := List.append_of_mem hs
    refine List.find?_eq_some_iff_append.2 ⟨by simpa using hn, before, after, rfl, fun x hx => ?_⟩
    rw [List.map_append, List.nodup_append] at hdistinct
    have hother : x.nullifier ≠ s.nullifier :=
      hdistinct.2.2 _ (List.mem_map_of_mem hx) _ (by simp)
    simpa [hn] using hother.symm
  unfold settle
  rw [hfind, hunspent]
  rfl

/-- Other notes stay as they are. -/
theorem settle_of_not_mem {k : Int} {spends : List FoundSpend} {n : WalletNote}
    (h : ∀ s ∈ spends, s.nullifier ≠ n.nullifier) : settle k spends n = n := by
  have hfind : spends.find? (fun x => n.nullifier = x.nullifier) = none :=
    List.find?_eq_none.2 fun s hs => by simpa [eq_comm] using h s hs
  unfold settle
  rw [hfind]
  simp

/-- What a block of height `k` adds to a wallet: its checkpoint, a row for each of its notes behind
those that are there, and for each of its spends the mark on the one note that it belongs to. -/
structure Added (b : ScannedBlock) (k : Int) (w w' : Wallet) : Prop where
  accounts : w'.accounts = w.accounts
  new : w.checkpoints.contains k = false
  checkpoints : w'.checkpoints = w.checkpoints.insert k (checkpointOf b)
  notes : w'.notes = (w.notes ++ rows k w.nextNoteId b.notes).map (settle k b.spends)
  marked : ∀ s ∈ b.spends, ∃ n ∈ w.notes ++ rows k w.nextNoteId b.notes,
    n.nullifier = s.nullifier ∧ n.spent = none ∧
      settle k b.spends n = { n with spent := some ⟨k, s.txid⟩ }
  unmarked : ∀ n ∈ w.notes ++ rows k w.nextNoteId b.notes,
    (∀ s ∈ b.spends, s.nullifier ≠ n.nullifier) → settle k b.spends n = n

theorem added_of_record {b : ScannedBlock} {k : Int} {w w' : Wallet}
    (hk : b.height.toInt? = some k) (hconsistent : w.Consistent b) (h : w.record b = .ok w') :
    Added b k w w' := by
  have hrec := recorded_of_record hk h
  refine ⟨hrec.accounts, hrec.absent, hrec.checkpoints, hrec.notes, fun s hs => ?_,
    fun n _ => settle_of_not_mem⟩
  obtain ⟨n, hn, hnullifier, hspent⟩ : HoldsUnspent
      { w with notes := w.notes ++ rows k w.nextNoteId b.notes } s.nullifier :=
    holdsUnspent_rows.2 (hconsistent.unspent s hs)
  exact ⟨n, hn, hnullifier, hspent, settle_of_mem hconsistent.spends hs hnullifier hspent⟩

end Wallet

namespace WalletStore

/-- **A block is committed if and only if it is consistent with the wallet**, and then it adds just
what it holds; a block that is not committed changes nothing. -/
theorem commitBlock_iff_consistent {s : WalletStore} (hs : Reachable s) (hfault : s.fault = none)
    {b : ScannedBlock} (hb : b.SafeNumbers) :
    ((∃ s', commitBlock b s = .ok () s') ↔ s.content.Consistent b) ∧
    (∀ s', commitBlock b s = .ok () s' →
      ∃ k, b.height.toInt? = some k ∧ Wallet.Added b k s.content s'.content) ∧
    ∀ e s', commitBlock b s = .error e s' → s'.content = s.content := by
  obtain ⟨hrest, hcoherent⟩ := settled_of_reachable hs
  have hiff := Wallet.record_isOk_iff hcoherent hb
  refine ⟨?_, fun s' h => ?_, fun e s' h => (content_of_commitBlock_error hrest h).1⟩
  · rw [← hiff]
    constructor
    · rintro ⟨s', h⟩
      exact ⟨s'.content, (record_of_commitBlock h).1⟩
    · rintro ⟨w', h⟩
      obtain ⟨s', hcommit, -⟩ := commitBlock_of_record hrest hfault h
      exact ⟨s', hcommit⟩
  · obtain ⟨k, hk⟩ := Option.isSome_iff_exists.1 hb.height
    obtain ⟨hk, -⟩ := Number.toSafeInt?_eq_some.1 hk
    have hrecord := (record_of_commitBlock h).1
    exact ⟨k, hk, Wallet.added_of_record hk (hiff.1 ⟨_, hrecord⟩) hrecord⟩

/-- Two notes are found, and one of them is spent together with one that was there. -/
def foundAndSpent : ScannedBlock :=
  scanned 3 [received 4 [5], received 5 [6]] [⟨[6], [10]⟩, ⟨[4], [11]⟩]

/-- The second spend is of a note that is spent already. -/
def spentTwice : ScannedBlock :=
  scanned 3 [received 4 [5], received 5 [6]] [⟨[6], [10]⟩, ⟨[2], [11]⟩]

/-- The one is committed; the other is refused when its notes and its first spend are recorded, and
leaves nothing behind. -/
theorem commitBlock_iff_consistent_reorganized :
    Reachable reorganized ∧ reorganized.fault = none ∧
    (foundAndSpent.SafeNumbers ∧ reorganized.content.Consistent foundAndSpent ∧
      ∃ s', commitBlock foundAndSpent reorganized = .ok () s' ∧
        Wallet.Added foundAndSpent 3 reorganized.content s'.content) ∧
    (spentTwice.SafeNumbers ∧ ¬ reorganized.content.Consistent spentTwice ∧
      ∃ e s', commitBlock spentTwice reorganized = .error e s' ∧
        s'.content = reorganized.content) := by
  have hsafe : ∀ n ∈ [received 4 [5], received 5 [6]], n.SafeNumbers := by
    intro n hn
    simp only [List.mem_cons, List.not_mem_nil, or_false] at hn
    rcases hn with rfl | rfl <;> exact ⟨rfl, rfl, rfl, rfl, rfl⟩
  have hfirst : foundAndSpent.SafeNumbers := ⟨rfl, rfl, rfl, hsafe⟩
  have hsecond : spentTwice.SafeNumbers := ⟨rfl, rfl, rfl, hsafe⟩
  have hfits : reorganized.content.Consistent foundAndSpent := by decide +kernel
  have hclashes : ¬ reorganized.content.Consistent spentTwice := by decide +kernel
  obtain ⟨haccept, hadded, -⟩ := commitBlock_iff_consistent reachable_reorganized rfl hfirst
  obtain ⟨hrefuse, -, hunchanged⟩ := commitBlock_iff_consistent reachable_reorganized rfl hsecond
  refine ⟨reachable_reorganized, rfl, ⟨hfirst, hfits, ?_⟩, ⟨hsecond, hclashes, ?_⟩⟩
  · obtain ⟨s', hcommit⟩ := haccept.2 hfits
    obtain ⟨k, hk, hadd⟩ := hadded s' hcommit
    cases hk
    exact ⟨s', hcommit, hadd⟩
  · cases hcommit : commitBlock spentTwice reorganized with
    | ok u s' => exact absurd (hrefuse.1 ⟨s', hcommit⟩) hclashes
    | error e s' => exact ⟨e, s', rfl, hunchanged e s' hcommit⟩

end WalletStore

end LightSync
