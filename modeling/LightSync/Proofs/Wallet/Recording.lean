import LightSync.Proofs.Number.Integers
import LightSync.Proofs.Store.Transaction
import LightSync.Wallet.Store

/-!
# What recording a block does to a wallet

`WalletStore.commitBlock` as a function of the wallet (`Wallet.record`), and what a block that was
recorded has added (`Recorded`): a checkpoint at its height, a row for each of its notes, and the
mark of the first spend of its nullifier on every note that was unspent (`settle`).
-/

set_option autoImplicit false

namespace LightSync

/-! ## Recording as a function -/

namespace Wallet

open Database (asking changing inserting)

/-- Marks the unspent note of a spend; there has to be exactly one. -/
def spending (b : ScannedBlock) (s : FoundSpend) : StateT Wallet (Except Failure) PUnit :=
  changing (fun w => .ok (w.markSpent b.height.toInt? s)) >>= fun changes =>
    if changes ≠ 1 then fun _ => .error (.corrupted (.unmatchedSpend s.nullifier b.height))
    else pure PUnit.unit

/-- The steps of recording a block. -/
def recording (b : ScannedBlock) : StateT Wallet (Except Failure) PUnit :=
  asking (WalletStore.checkHeight b) >>= fun _ =>
  inserting (addCheckpoint b) >>= fun _ =>
  (b.notes.forM fun n => inserting (addNote b.height.toInt? n)) >>= fun _ =>
  b.spends.forM (spending b)

/-- The wallet once a block is recorded in it. -/
def record (b : ScannedBlock) (w : Wallet) : Except Failure Wallet :=
  (storageResult .commitBlock (recording b w)).map Prod.snd

end Wallet

namespace WalletStore

open Database

theorem enacts_recordNote (b : ScannedBlock) (n : FoundNote) :
    Enacts (recordNote b n) (inserting (Wallet.addNote b.height.toInt? n)) :=
  enacts_insert fun _ hk => by cases hk

theorem enacts_recordSpend (b : ScannedBlock) (s : FoundSpend) :
    Enacts (recordSpend b s) (Wallet.spending b s) := by
  refine (enacts_run _).bind fun changes => ?_
  by_cases h : changes = 1
  · subst h
    exact Enacts.pure _
  · rw [if_pos h, if_pos h]
    exact Enacts.throw _

/-- A height that is no key is refused as such by the table of checkpoints. -/
theorem addCheckpoint_of_rowKey {b : ScannedBlock} {fault : StoreFault}
    (h : b.height.rowKey = .error fault) (w : Wallet) :
    w.addCheckpoint b = .error fault := by
  unfold Wallet.addCheckpoint
  rw [h]
  rfl

/-- The steps of the transaction. -/
theorem enacts_recording (b : ScannedBlock) :
    Enacts (do
      query (checkHeight b)
      insert .checkpoints b.height (Wallet.addCheckpoint b)
      b.notes.forM (recordNote b)
      b.spends.forM (recordSpend b) : Action WalletStore Unit) (Wallet.recording b) := by
  refine (enacts_query _).bind fun _ => ?_
  refine Enacts.bind (enacts_insert fun _ _ h => addCheckpoint_of_rowKey h) fun _ => ?_
  refine (Enacts.forM fun n => enacts_recordNote b n).bind fun _ => ?_
  exact Enacts.forM fun s => enacts_recordSpend b s

theorem atomic_commitBlock (b : ScannedBlock) :
    Atomic (commitBlock b) fun w => storageResult .commitBlock (Wallet.recording b w) :=
  Atomic.storing (Enacts.transaction (enacts_recording b)) _

/-- A block that was committed was recorded. -/
theorem record_of_commitBlock {b : ScannedBlock} {s s' : WalletStore}
    (h : commitBlock b s = .ok () s') :
    s.content.record b = .ok s'.content ∧ s'.AtRest ∧ s'.fault = s.fault := by
  have hrest : s.AtRest := by
    simp only [commitBlock, Action.storing, Action.mapFailure] at h
    split at h
    · rename_i h1
      exact atRest_of_transaction h1
    · cases h
  obtain ⟨hf, hr, hx⟩ := (atomic_commitBlock b).of_ok hrest h
  refine ⟨?_, hr, hx⟩
  unfold Wallet.record
  rw [hf]
  rfl

/-- A block that was not committed changed nothing, and without an injected fault the wallet is
to blame. -/
theorem content_of_commitBlock_error {b : ScannedBlock} {s s' : WalletStore} {e : Failure}
    (hrest : s.AtRest) (h : commitBlock b s = .error e s') :
    s'.content = s.content ∧ s'.AtRest ∧ s'.fault = s.fault ∧
      (s.fault = none → s.content.record b = .error e) := by
  obtain ⟨hc, hr, hx, hf⟩ := (atomic_commitBlock b).of_error hrest h
  refine ⟨hc, hr, hx, fun hfault => ?_⟩
  unfold Wallet.record
  rw [hf hfault]
  rfl

/-- A block that can be recorded is committed where no fault is injected. -/
theorem commitBlock_of_record {b : ScannedBlock} {s : WalletStore} {w : Wallet}
    (hrest : s.AtRest) (hfault : s.fault = none) (h : s.content.record b = .ok w) :
    ∃ s', commitBlock b s = .ok () s' ∧ s'.content = w ∧ s'.AtRest ∧ s'.fault = none := by
  unfold Wallet.record at h
  cases hf : storageResult .commitBlock (Wallet.recording b s.content) with
  | error e => rw [hf] at h; cases h
  | ok r =>
      rw [hf] at h
      cases h
      exact (atomic_commitBlock b).eq_ok hrest hfault hf

end WalletStore

/-! ## What was recorded -/

/-- The row of a note that was found at a height. -/
def FoundNote.row (height id : Int) (n : FoundNote) : WalletNote :=
  { id, account := n.account.truncate, value := n.value.kept, memo := n.memo,
    position := n.position.kept, height, txid := n.txid, txIndex := n.txIndex.kept,
    outputIndex := n.outputIndex.kept, commitment := n.commitment, nullifier := n.nullifier,
    spent := none }

namespace Wallet

open Database (asking changing inserting inserting_eq_ok)

/-- The rows of the notes of a block, with identifiers from `id` on. -/
def rows (height : Int) : Int → List FoundNote → List WalletNote
  | _, [] => []
  | id, n :: rest => n.row height id :: rows height (id + 1) rest

/-- A note after the spends of a block: the first one with its nullifier counts. -/
def settle (height : Int) (spends : List FoundSpend) (n : WalletNote) : WalletNote :=
  let mark := spends.find? fun s => n.nullifier = s.nullifier
  { n with spent := n.spent.or (mark.map fun s => ⟨height, s.txid⟩) }

/-- The notes of a wallet once a block with these notes and spends is recorded. -/
def notesAfter (w : Wallet) (height : Int) (notes : List FoundNote) (spends : List FoundSpend) :
    List WalletNote :=
  (w.notes ++ rows height w.nextNoteId notes).map (settle height spends)

/-- What the checkpoint of a block keeps of it. -/
def checkpointOf (b : ScannedBlock) : Checkpoint :=
  { hash := b.hash, time := b.time.kept, treeSize := b.treeSize.kept }

/-! ### Settling -/

@[simp] theorem settle_nil (height : Int) (n : WalletNote) : settle height [] n = n := by
  simp [settle]

theorem settle_append (height : Int) (ss ts : List FoundSpend) (n : WalletNote) :
    settle height (ss ++ ts) n = settle height ts (settle height ss n) := by
  simp only [settle, List.find?_append, Option.map_or, Option.or_assoc]
  rfl

theorem settle_of_spent (height : Int) (spends : List FoundSpend) {n : WalletNote}
    (h : n.spent ≠ none) : settle height spends n = n := by
  have hor (m : Option Spending) : n.spent.or m = n.spent := by
    cases hs : n.spent with
    | none => exact absurd hs h
    | some s => rfl
  simp only [settle, hor]

theorem settle_singleton (height : Int) (s : FoundSpend) (n : WalletNote) :
    settle height [s] n =
      if isSpentBy s.nullifier n then { n with spent := some ⟨height, s.txid⟩ } else n := by
  by_cases hn : n.nullifier = s.nullifier
  · cases hs : n.spent with
    | none => simp [settle, isSpentBy, isUnspent, hn, hs]
    | some x =>
        rw [settle_of_spent height [s] (by simp [hs])]
        simp [isSpentBy, isUnspent, hs]
  · simp [settle, isSpentBy, hn]

@[simp] theorem nullifier_settle (height : Int) (spends : List FoundSpend) (n : WalletNote) :
    (settle height spends n).nullifier = n.nullifier := rfl

@[simp] theorem position_settle (height : Int) (spends : List FoundSpend) (n : WalletNote) :
    (settle height spends n).position = n.position := rfl

/-- A note keeps the mark that it has, or gets one with the height of the block. -/
theorem spent_settle {height : Int} {spends : List FoundSpend} {n : WalletNote} {s : Spending}
    (h : (settle height spends n).spent = some s) : n.spent = some s ∨ s.height = height := by
  rcases Option.or_eq_some_iff.1 h with h | ⟨-, h⟩
  · exact Or.inl h
  · obtain ⟨x, -, rfl⟩ := Option.map_eq_some_iff.1 h
    exact Or.inr rfl

theorem length_rows (k id : Int) (ns : List FoundNote) : (rows k id ns).length = ns.length := by
  induction ns generalizing id with
  | nil => rfl
  | cons n ns ih => exact congrArg (· + 1) (ih (id + 1))

theorem exists_of_mem_rows {height : Int} {ns : List FoundNote} {id : Int} {n : WalletNote}
    (h : n ∈ rows height id ns) : ∃ m ∈ ns, ∃ i, n = m.row height i := by
  induction ns generalizing id with
  | nil => cases h
  | cons m ns ih =>
      rcases List.mem_cons.1 h with rfl | h
      · exact ⟨m, List.mem_cons_self, id, rfl⟩
      · obtain ⟨x, hx, hn⟩ := ih h
        exact ⟨x, List.mem_cons_of_mem m hx, hn⟩

/-! ### Identifiers -/

theorem nextNoteId_append (accounts : Keyed Bytes) (checkpoints : Keyed Checkpoint)
    (w : Wallet) (n : WalletNote) (hid : n.id = w.nextNoteId) :
    nextNoteId ⟨accounts, checkpoints, w.notes ++ [n]⟩ = w.nextNoteId + 1 := by
  simp only [nextNoteId, List.map_append, List.map_cons, List.map_nil, List.foldl_append,
    List.foldl_cons, List.foldl_nil, hid]
  omega

/-! ### The steps -/

theorem rowKey_eq_ok {a : Number} {k : Int} {key : Option Int} (hk : a.toInt? = some k)
    (h : a.rowKey = .ok key) : key = some k := by
  rcases Number.toInt?_eq_some.1 hk with rfl | ⟨rfl, rfl⟩
  · simp only [Number.rowKey, Number.toInt?] at h
    split at h
    · cases h; rfl
    · cases h
  · cases h; rfl

theorem storedIn_eq_ok {column : String} {a b : Number} (h : storedIn column a = .ok b) :
    a ≠ .nan ∧ b = a.kept := by
  unfold storedIn at h
  split at h
  · rename_i hs
    cases h
    exact Number.stored?_eq_some.1 hs
  · cases h

theorem addCheckpoint_eq_ok {b : ScannedBlock} {k : Int} {w w' : Wallet}
    (hk : b.height.toInt? = some k) (h : w.addCheckpoint b = .ok w') :
    w.checkpoints.contains k = false ∧
      w' = { w with checkpoints := w.checkpoints.insert k (checkpointOf b) } := by
  unfold addCheckpoint at h
  obtain ⟨key, hkey, h⟩ := Except.bind_eq_ok.1 h
  obtain ⟨time, htime, h⟩ := Except.bind_eq_ok.1 h
  obtain ⟨treeSize, hsize, h⟩ := Except.bind_eq_ok.1 h
  rw [rowKey_eq_ok hk hkey, (storedIn_eq_ok htime).2, (storedIn_eq_ok hsize).2] at h
  simp only [Option.getD_some] at h
  split at h
  · cases h
  · rename_i hc
    cases h
    exact ⟨by simpa using hc, rfl⟩

/-- The number is that of an account. -/
def Owns (accounts : Keyed Bytes) (account : Number) : Prop :=
  ∃ a, account.toInt? = some a ∧ accounts.contains a = true

/-- What a note needs to be added to a wallet. -/
structure Welcome (w : Wallet) (n : FoundNote) : Prop where
  nullifier : n.nullifier ∉ w.notes.map (·.nullifier)
  position : n.position.kept ∉ w.notes.map (·.position)
  owner : Owns w.accounts n.account

theorem addNote_eq_ok {k : Int} {n : FoundNote} {w w' : Wallet}
    (h : w.addNote (some k) n = .ok w') :
    Welcome w n ∧ w' = { w with notes := w.notes ++ [n.row k w.nextNoteId] } := by
  unfold addNote at h
  obtain ⟨account, haccount, h⟩ := Except.bind_eq_ok.1 h
  obtain ⟨value, hvalue, h⟩ := Except.bind_eq_ok.1 h
  obtain ⟨position, hposition, h⟩ := Except.bind_eq_ok.1 h
  obtain ⟨height, hheight, h⟩ := Except.bind_eq_ok.1 h
  obtain ⟨txIndex, htxIndex, h⟩ := Except.bind_eq_ok.1 h
  obtain ⟨outputIndex, houtputIndex, h⟩ := Except.bind_eq_ok.1 h
  cases hheight
  rw [(storedIn_eq_ok haccount).2, (storedIn_eq_ok hvalue).2, (storedIn_eq_ok hposition).2,
    (storedIn_eq_ok htxIndex).2, (storedIn_eq_ok houtputIndex).2, Number.toInt?_kept] at h
  dsimp only at h
  split at h
  · cases h
  · rename_i hnf
    split at h
    · cases h
    · rename_i hposition'
      split at h
      · rename_i a ha
        cases h
        obtain ⟨ha, hc⟩ := Option.filter_eq_some_iff.1 ha
        refine ⟨⟨?_, ?_, a, ha, hc⟩, ?_⟩
        · simpa using hnf
        · simpa using hposition'
        · rw [FoundNote.row, Number.truncate_of_toInt? ha]
      · cases h

theorem nodup_map_concat {α β : Type} {f : α → β} {l : List α} {a : α} (h : (l.map f).Nodup)
    (ha : f a ∉ l.map f) : ((l ++ [a]).map f).Nodup := by
  rw [List.map_append, List.nodup_append]
  refine ⟨h, by simp, ?_⟩
  rintro x hx y hy rfl
  simp only [List.map_cons, List.map_nil, List.mem_singleton] at hy
  rw [hy] at hx
  exact ha hx

theorem addNotes_eq_ok {k : Int} {ns : List FoundNote} {w w' : Wallet} {u : PUnit}
    (h : (ns.forM fun n => inserting (addNote (some k) n)) w = .ok (u, w')) :
    w' = { w with notes := w.notes ++ rows k w.nextNoteId ns } ∧
      (∀ n ∈ ns, Owns w.accounts n.account) ∧
      ((w.notes.map (·.nullifier)).Nodup → (w'.notes.map (·.nullifier)).Nodup) ∧
      ((w.notes.map (·.position)).Nodup → (w'.notes.map (·.position)).Nodup) := by
  induction ns generalizing w with
  | nil =>
      cases h
      exact ⟨by simp [rows], fun n hn => (by cases hn), id, id⟩
  | cons n ns ih =>
      obtain ⟨_, w1, h1, h2⟩ := StateT.bind_eq_ok.1 h
      obtain ⟨hwelcome, rfl⟩ := addNote_eq_ok (inserting_eq_ok.1 h1)
      obtain ⟨rfl, howners, hnullifiers, hpositions⟩ := ih h2
      refine ⟨?_, List.forall_mem_cons.2 ⟨hwelcome.owner, howners⟩, fun hn => hnullifiers ?_,
        fun hn => hpositions ?_⟩
      · rw [nextNoteId_append w.accounts w.checkpoints w _ rfl, rows, List.append_assoc]
        rfl
      · exact nodup_map_concat hn hwelcome.nullifier
      · exact nodup_map_concat hn hwelcome.position

theorem spendings_eq_ok {b : ScannedBlock} {k : Int} (hk : b.height.toInt? = some k)
    {ss : List FoundSpend} {w w' : Wallet} {u : PUnit}
    (h : (ss.forM (spending b)) w = .ok (u, w')) :
    w' = { w with notes := w.notes.map (settle k ss) } := by
  induction ss generalizing w with
  | nil =>
      cases h
      rw [show settle k [] = id from funext (settle_nil k), List.map_id]
  | cons s ss ih =>
      obtain ⟨_, w1, h1, h2⟩ := StateT.bind_eq_ok.1 h
      -- one spend marks the one note that it belongs to
      have hw1 : w1 = { w with notes := w.notes.map (settle k [s]) } := by
        obtain ⟨changes, w2, h3, h4⟩ := StateT.bind_eq_ok.1 h1
        by_cases hone : changes ≠ 1
        · rw [if_pos hone] at h4
          cases h4
        · rw [if_neg hone] at h4
          cases h4
          cases h3
          simp [hk, settle_singleton]
      rw [ih h2, hw1]
      simp [← settle_append]

/-! ### The whole -/

/-- What it means that the block `b` of height `k` was recorded: `w` became `w'`. -/
structure Recorded (b : ScannedBlock) (k : Int) (w w' : Wallet) : Prop where
  follows : ∀ t, w.tip? = some t → b.height.same (.int t.height + 1) = true
  absent : w.checkpoints.contains k = false
  accounts : w'.accounts = w.accounts
  checkpoints : w'.checkpoints = w.checkpoints.insert k (checkpointOf b)
  notes : w'.notes = w.notesAfter k b.notes b.spends
  owners : ∀ n ∈ b.notes, Owns w.accounts n.account
  nullifiers : (w.notes.map (·.nullifier)).Nodup → (w'.notes.map (·.nullifier)).Nodup
  positions : (w.notes.map (·.position)).Nodup → (w'.notes.map (·.position)).Nodup

theorem recording_of_record {b : ScannedBlock} {w w' : Wallet} (h : w.record b = .ok w') :
    ∃ u, recording b w = .ok (u, w') := by
  unfold record storageResult at h
  split at h
  · rename_i r hr
    cases h
    exact ⟨r.1, hr⟩
  · cases h

theorem recorded_of_record {b : ScannedBlock} {k : Int} {w w' : Wallet}
    (hk : b.height.toInt? = some k) (h : w.record b = .ok w') : Recorded b k w w' := by
  obtain ⟨u, hrec⟩ := recording_of_record h
  -- the steps of the transaction one after another
  unfold recording at hrec
  rw [hk] at hrec
  obtain ⟨_, w1, hcheck, hrec⟩ := StateT.bind_eq_ok.1 hrec
  obtain ⟨_, w2, hpoint, hrec⟩ := StateT.bind_eq_ok.1 hrec
  obtain ⟨_, w3, hnotes, hspends⟩ := StateT.bind_eq_ok.1 hrec
  obtain ⟨hfollows, rfl⟩ : (∀ t, w.tip? = some t → b.height.same (.int t.height + 1) = true) ∧
      w1 = w := by
    unfold asking WalletStore.checkHeight at hcheck
    cases ht : w.tip? with
    | none =>
        rw [ht] at hcheck
        cases hcheck
        exact ⟨fun t h => (by cases h), rfl⟩
    | some tip =>
        rw [ht] at hcheck
        dsimp only at hcheck
        split at hcheck
        · rename_i hsame
          cases hcheck
          refine ⟨fun t h => ?_, rfl⟩
          cases h
          exact hsame
        · cases hcheck
  obtain ⟨habsent, rfl⟩ := addCheckpoint_eq_ok hk (inserting_eq_ok.1 hpoint)
  obtain ⟨rfl, howners, hnullifiers, hpositions⟩ := addNotes_eq_ok hnotes
  have hw' := spendings_eq_ok hk hspends
  subst hw'
  refine ⟨hfollows, habsent, rfl, rfl, rfl, howners, fun hn => ?_, fun hn => ?_⟩
  · simpa [Function.comp_def] using hnullifiers hn
  · simpa [Function.comp_def] using hpositions hn

end Wallet

end LightSync
