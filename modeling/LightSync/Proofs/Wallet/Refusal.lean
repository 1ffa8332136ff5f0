import LightSync.Proofs.Wallet.Admission

/-!
# Why a block is not committed

Where a block is not committed, either the wallet is to blame, as recording the block in it fails in
the same way, or a fault was injected (`WalletStore.cause_of_commitBlock_error`). Of all failures the
one of a spend that meets no unspent note comes last, when the notes of the block are in the wallet
already. So it does not come where the spends are different ones and each is of an unspent note of
the wallet or of a note of the block (`not_blamesSpend_of_commitBlock`). That needs the constraints
of the tables only, which hold whatever is asked of the store (`WalletStore.Attainable`).
-/

set_option autoImplicit false

namespace LightSync

/-! ## Failures of steps -/

namespace Database

variable {σ α β : Type}

/-- Where the step fails, the function fails in the same way, or a fault was injected. -/
def FailsAs (act : Action (Database σ) α) (f : StateT σ (Except Failure) α) : Prop :=
  ∀ db db' e, act db = .error e db' → e = .store .injected ∨ f db.content = .error e

theorem FailsAs.pure (a : α) : FailsAs (pure a : Action (Database σ) α) (pure a) := by
  intro db db' e h
  cases h

theorem FailsAs.throw (e : Failure) :
    FailsAs (throw e : Action (Database σ) α) (fun _ => .error e) := by
  intro db db' e' h
  cases h
  exact Or.inr rfl

theorem FailsAs.bind {act : Action (Database σ) α} {f : StateT σ (Except Failure) α}
    {next : α → Action (Database σ) β} {g : α → StateT σ (Except Failure) β}
    (henacts : Enacts act f) (hact : FailsAs act f) (hnext : ∀ a, FailsAs (next a) (g a)) :
    FailsAs (act >>= next) (f >>= g) := by
  intro db db' e h
  rcases Action.bind_eq_error.1 h with h | ⟨a, db1, h1, h2⟩
  · exact (hact _ _ _ h).imp_right fun hf => StateT.bind_eq_error.2 (Or.inl hf)
  · have hf := (henacts.of_ok h1).1
    exact (hnext a _ _ _ h2).imp_right fun hg =>
      StateT.bind_eq_error.2 (Or.inr ⟨a, db1.content, hf, hg⟩)

theorem FailsAs.forM {l : List β} {act : β → Action (Database σ) PUnit}
    {f : β → StateT σ (Except Failure) PUnit} (henacts : ∀ b, Enacts (act b) (f b))
    (h : ∀ b, FailsAs (act b) (f b)) : FailsAs (l.forM act) (l.forM f) := by
  induction l with
  | nil => exact FailsAs.pure PUnit.unit
  | cons b l ih =>
      show FailsAs (act b >>= fun _ => l.forM act) (f b >>= fun _ => l.forM f)
      exact FailsAs.bind (henacts b) (h b) fun _ => ih

theorem failsAs_query (f : σ → Except Failure α) : FailsAs (query f) (asking f) := by
  intro db db' e h
  refine Or.inr ?_
  unfold query at h
  split at h
  · cases h
  · rename_i hf
    cases h
    rw [asking, hf]
    rfl

theorem failsAs_run (f : σ → Except StoreFault (σ × α)) : FailsAs (run f) (changing f) := by
  intro db db' e h
  refine Or.inr ?_
  unfold run at h
  split at h
  · cases h
  · rename_i hf
    cases h
    rw [changing, hf]

theorem failsAs_insert {table : Table} {height : Number} {f : σ → Except StoreFault σ}
    (hkey : ∀ fault, table.keyedByHeight = true → height.rowKey = .error fault →
      ∀ c, f c = .error fault) : FailsAs (insert table height f) (inserting f) := by
  intro db db' e h
  unfold insert at h
  split at h
  · rename_i fault hfault
    cases h
    split at hfault
    · rename_i hk
      refine Or.inr ?_
      rw [inserting, changing, hkey fault hk hfault]
      rfl
    · cases hfault
  · split at h
    · cases h
      exact Or.inl rfl
    · exact failsAs_run _ _ _ _ h

/-- A transaction fails with what one of its steps failed with; where the engine has ended it by
itself, that it could not be undone is told, too. -/
theorem FailsAs.transaction {act : Action (Database σ) α} {f : StateT σ (Except Failure) α}
    (henacts : Enacts act f) (hact : FailsAs act f) {db db' : Database σ} {e : Failure}
    (hrest : db.AtRest) (h : transaction act db = .error e db') :
    ∃ cause, (cause = .store .injected ∨ f db.content = .error cause) ∧
      (e = cause ∨ e = .unrecoverable cause (.store .noRollback)) := by
  obtain ⟨cause, db1, hstep, hend⟩ := step_of_transaction_error henacts hrest h
  refine ⟨cause, hact { db with before := some db.content, inTransaction := true } _ _ hstep, ?_⟩
  rcases hend with ⟨-, rfl⟩ | ⟨second, hrollback, rfl⟩
  · exact Or.inl rfl
  · unfold rollback at hrollback
    split at hrollback
    · cases hrollback
      exact Or.inr rfl
    · cases hrollback

theorem asking_eq_error {f : σ → Except Failure α} {c : σ} {e : Failure} :
    asking f c = .error e ↔ f c = .error e := by
  unfold asking
  cases f c <;> simp [Except.map]

theorem inserting_eq_error {f : σ → Except StoreFault σ} {c : σ} {e : Failure}
    (h : inserting f c = .error e) : ∃ fault, e = .store fault := by
  simp only [inserting, changing] at h
  split at h
  · cases h
  · rename_i fault _
    cases h
    exact ⟨fault, rfl⟩

end Database

/-! ## Failures about spends -/

namespace Failure

/-- A spend that met no unspent note is told of, on whatever way. -/
def blamesSpend : Failure → Bool
  | .corrupted (.unmatchedSpend _ _) => true
  | .storage _ cause => cause.blamesSpend
  | .unrecoverable primary rollback => primary.blamesSpend || rollback.blamesSpend
  | .aborted cause => cause.blamesSpend
  | _ => false

@[simp] theorem blamesSpend_duringStorage (operation : Operation) (e : Failure) :
    (e.duringStorage operation).blamesSpend = e.blamesSpend := by
  cases e <;> rfl

end Failure

namespace WalletStore

open Database

theorem failsAs_recordSpend (b : ScannedBlock) (s : FoundSpend) :
    FailsAs (recordSpend b s) (Wallet.spending b s) := by
  refine FailsAs.bind (enacts_run _) (failsAs_run _) fun changes => ?_
  by_cases h : changes = 1
  · subst h
    exact FailsAs.pure _
  · rw [if_pos h, if_pos h]
    exact FailsAs.throw _

/-- The steps of the transaction fail as recording the block in the wallet does. -/
theorem failsAs_recording (b : ScannedBlock) :
    FailsAs (do
      query (checkHeight b)
      insert .checkpoints b.height (Wallet.addCheckpoint b)
      b.notes.forM (recordNote b)
      b.spends.forM (recordSpend b) : Action WalletStore Unit) (Wallet.recording b) := by
  have hkey : ∀ fault, Table.checkpoints.keyedByHeight = true →
      b.height.rowKey = .error fault → ∀ w : Wallet, w.addCheckpoint b = .error fault :=
    fun _ _ h => addCheckpoint_of_rowKey h
  have hnote (n : FoundNote) := enacts_recordNote b n
  refine FailsAs.bind (enacts_query _) (failsAs_query _) fun _ => ?_
  refine FailsAs.bind (enacts_insert hkey) (failsAs_insert hkey) fun _ => ?_
  refine FailsAs.bind (Enacts.forM hnote) (FailsAs.forM hnote fun n => ?_) fun _ => ?_
  · exact failsAs_insert fun _ hk => by cases hk
  · exact FailsAs.forM (fun s => enacts_recordSpend b s) fun s => failsAs_recordSpend b s

/-- A block that is not committed cannot be recorded, or a fault was injected. -/
theorem cause_of_commitBlock_error {b : ScannedBlock} {s s' : WalletStore} {e : Failure}
    (hrest : s.AtRest) (h : commitBlock b s = .error e s') :
    ∃ cause, (cause = .store .injected ∨ Wallet.recording b s.content = .error cause) ∧
      (e = cause.duringStorage .commitBlock ∨
        e = .unrecoverable cause (.store .noRollback)) := by
  unfold commitBlock Action.storing Action.mapFailure at h
  split at h
  · cases h
  · rename_i htransaction
    cases h
    obtain ⟨cause, hcause, he⟩ :=
      (failsAs_recording b).transaction (enacts_recording b) hrest htransaction
    refine ⟨cause, hcause, ?_⟩
    rcases he with rfl | rfl
    · exact Or.inl rfl
    · exact Or.inr rfl

end WalletStore

/-! ## Recording -/

namespace Wallet

open Database

/-- The constraints of the tables: no nullifier is there twice, and each note was received at a
checkpoint. -/
structure Lawful (w : Wallet) : Prop where
  nullifiers : (w.notes.map (·.nullifier)).Nodup
  heights : ∀ n ∈ w.notes, w.checkpoints.contains n.height = true

variable {b : ScannedBlock} {w w' : Wallet} {e : Failure}

/-- Notes need a height. -/
theorem addNotes_of_no_height {ns : List FoundNote} {u : PUnit}
    (h : (ns.forM fun n => inserting (addNote none n)) w = .ok (u, w')) : ns = [] ∧ w' = w := by
  cases ns with
  | nil =>
      cases h
      exact ⟨rfl, rfl⟩
  | cons n ns =>
      obtain ⟨_, w1, h1, -⟩ := StateT.bind_eq_ok.1 h
      have h1 := inserting_eq_ok.1 h1
      unfold addNote at h1
      obtain ⟨account, -, h1⟩ := Except.bind_eq_ok.1 h1
      obtain ⟨value, -, h1⟩ := Except.bind_eq_ok.1 h1
      obtain ⟨position, -, h1⟩ := Except.bind_eq_ok.1 h1
      obtain ⟨height, hheight, -⟩ := Except.bind_eq_ok.1 h1
      cases hheight

/-- Spends need a height. -/
theorem spendings_of_no_height (hk : b.height.toInt? = none) {ss : List FoundSpend} {u : PUnit}
    (h : (ss.forM (spending b)) w = .ok (u, w')) : w' = w := by
  cases ss with
  | nil =>
      cases h
      rfl
  | cons s ss =>
      obtain ⟨_, w1, h1, -⟩ := StateT.bind_eq_ok.1 h
      obtain ⟨changes, w2, h2, h3⟩ := StateT.bind_eq_ok.1 h1
      rw [changing, hk] at h2
      cases h2
      rw [if_pos (by decide)] at h3
      cases h3

theorem addCheckpoint_of_ok (h : w.addCheckpoint b = .ok w') :
    ∃ key row, w' = { w with checkpoints := w.checkpoints.insert key row } := by
  unfold addCheckpoint at h
  obtain ⟨key, -, h⟩ := Except.bind_eq_ok.1 h
  obtain ⟨time, -, h⟩ := Except.bind_eq_ok.1 h
  obtain ⟨treeSize, -, h⟩ := Except.bind_eq_ok.1 h
  dsimp only at h
  split at h
  · cases h
  · cases h
    exact ⟨_, _, rfl⟩

/-- Among the numbers that are no integers only not-a-number is the height of a checkpoint. -/
theorem height_of_addCheckpoint (hk : b.height.toInt? = none) (h : w.addCheckpoint b = .ok w') :
    b.height = .nan := by
  unfold addCheckpoint at h
  obtain ⟨key, hkey, -⟩ := Except.bind_eq_ok.1 h
  cases hb : b.height with
  | nan => rfl
  | int n => rw [hb] at hk; cases hk
  | negZero => rw [hb] at hk; cases hk
  | fraction q => rw [hb] at hkey; cases hkey
  | infinite negative => rw [hb] at hkey; cases hkey

/-- Recording keeps the constraints, also where the height of the block is no integer. -/
theorem Lawful.record (hw : w.Lawful) (h : w.record b = .ok w') : w'.Lawful := by
  cases hk : b.height.toInt? with
  | some k =>
      have hrec := recorded_of_record hk h
      refine ⟨hrec.nullifiers hw.nullifiers, fun n hn => ?_⟩
      rw [hrec.contains_iff]
      obtain ⟨m, rfl, hm | ⟨f, -, i, rfl⟩⟩ := hrec.exists_of_mem hn
      · exact Or.inr (hw.heights m hm)
      · exact Or.inl rfl
  | none =>
      obtain ⟨u, hrec⟩ := recording_of_record h
      unfold recording at hrec
      rw [hk] at hrec
      obtain ⟨_, w1, hcheck, hrec⟩ := StateT.bind_eq_ok.1 hrec
      obtain ⟨_, w2, hpoint, hrec⟩ := StateT.bind_eq_ok.1 hrec
      obtain ⟨_, w3, hnotes, hspends⟩ := StateT.bind_eq_ok.1 hrec
      obtain ⟨-, rfl⟩ := asking_eq_ok.1 hcheck
      obtain ⟨key, row, rfl⟩ := addCheckpoint_of_ok (inserting_eq_ok.1 hpoint)
      obtain ⟨-, rfl⟩ := addNotes_of_no_height hnotes
      rw [spendings_of_no_height hk hspends]
      exact ⟨hw.nullifiers, fun n hn => Keyed.contains_insert.2 (Or.inr (hw.heights n hn))⟩

theorem Lawful.addAccount {account : Number} {viewingKey : Bytes} (hw : w.Lawful)
    (h : w.addAccount account viewingKey = .ok w') : w'.Lawful := by
  obtain ⟨k, rfl⟩ := addAccount_eq_ok h
  exact ⟨hw.nullifiers, hw.heights⟩

theorem Lawful.cut (hw : w.Lawful) (height : Number) : (w.cut height).Lawful := by
  constructor
  case nullifiers =>
    rw [notes_cut]
    show (((w.kept height).map (unmark height)).map (·.nullifier)).Nodup
    have hsame : ∀ n ∈ w.kept height, ((·.nullifier) ∘ unmark height) n = n.nullifier :=
      fun n _ => column_unmark (f := (·.nullifier)) (fun _ _ => rfl) height n
    rw [List.map_map, List.map_congr_left hsame]
    exact hw.nullifiers.sublist (List.filter_sublist.map _)
  case heights =>
    intro n hn
    rw [notes_cut] at hn
    obtain ⟨m, hm, rfl⟩ := List.mem_map.1 hn
    obtain ⟨hm, hbelow⟩ := mem_kept.1 hm
    rw [height_unmark]
    exact contains_cut.2 ⟨hbelow, hw.heights m hm⟩

/-- The spends of the block are different ones, each of an unspent note of the wallet or of a note
of the block. -/
structure Matched (w : Wallet) (notes : List FoundNote) (spends : List FoundSpend) : Prop where
  nodup : (spends.map (·.nullifier)).Nodup
  known : ∀ s ∈ spends, w.HoldsUnspent s.nullifier ∨ ∃ n ∈ notes, n.nullifier = s.nullifier

/-- The steps before the spends fail for other reasons. -/
theorem not_blamesSpend_of_addNotes {height : Option Int} {ns : List FoundNote}
    (h : (ns.forM fun n => inserting (addNote height n)) w = .error e) : e.blamesSpend = false := by
  induction ns generalizing w with
  | nil => cases h
  | cons n ns ih =>
      rcases StateT.bind_eq_error.1 h with h | ⟨_, w1, -, h⟩
      · obtain ⟨fault, rfl⟩ := inserting_eq_error h
        rfl
      · exact ih h

/-- Where the spends match, recording a block does not fail for one of them. -/
theorem not_blamesSpend_of_recording (hw : w.Lawful) (hmatched : Matched w b.notes b.spends)
    (h : recording b w = .error e) : e.blamesSpend = false := by
  unfold recording at h
  rcases StateT.bind_eq_error.1 h with hcheck | ⟨_, w1, hcheck, h1⟩
  · have hcheck := asking_eq_error.1 hcheck
    unfold WalletStore.checkHeight at hcheck
    split at hcheck
    · cases hcheck
    · dsimp only at hcheck
      split at hcheck
      · cases hcheck
      · cases hcheck
        rfl
  obtain ⟨hcheck, rfl⟩ := asking_eq_ok.1 hcheck
  rcases StateT.bind_eq_error.1 h1 with hpoint | ⟨_, w2, hpoint, h2⟩
  · obtain ⟨fault, rfl⟩ := inserting_eq_error hpoint
    rfl
  rcases StateT.bind_eq_error.1 h2 with hnotes | ⟨_, w3, hnotes, hspends⟩
  · exact not_blamesSpend_of_addNotes hnotes
  -- when it comes to the spends, the notes of the block are in the wallet
  have hpoint := inserting_eq_ok.1 hpoint
  obtain ⟨key, row, rfl⟩ := addCheckpoint_of_ok hpoint
  cases hk : b.height.toInt? with
  | some k =>
      rw [hk] at hnotes
      obtain ⟨rfl, -, hnullifiers, -⟩ := addNotes_eq_ok hnotes
      obtain ⟨w', hw'⟩ := (spendings_isOk_iff hk (hnullifiers hw.nullifiers)).2
        ⟨hmatched.nodup, fun s hs => holdsUnspent_rows.2 (hmatched.known s hs)⟩
      rw [hspends] at hw'
      cases hw'
  | none =>
      rw [hk] at hnotes
      obtain ⟨hempty, rfl⟩ := addNotes_of_no_height hnotes
      -- there is no tip, hence no note, hence no spend
      have hnone : w1.tip? = none := by
        unfold WalletStore.checkHeight at hcheck
        cases ht : w1.tip? with
        | none => rfl
        | some t =>
            rw [ht, height_of_addCheckpoint hk hpoint] at hcheck
            cases hcheck
      have hnospends : b.spends = [] := by
        refine List.eq_nil_iff_forall_not_mem.2 fun s hs => ?_
        rcases hmatched.known s hs with ⟨n, hn, -⟩ | ⟨n, hn, -⟩
        · exact not_contains_of_tip?_eq_none hnone _ (hw.heights n hn)
        · rw [hempty] at hn
          cases hn
      rw [hnospends] at hspends
      cases hspends

end Wallet

/-! ## Attainable wallets -/

namespace WalletStore

/-- What a store without accounts and blocks becomes by adding accounts, committing any blocks and
truncating, with faults coming and going; calls that fail are among them. -/
inductive Attainable : WalletStore → Prop where
  | fresh (backing : Backing Wallet) : Attainable (Database.connect Wallet.empty backing)
  | fault {s : WalletStore} (x : Option InjectedFault) (h : Attainable s) :
      Attainable { s with fault := x }
  | addAccount {s : WalletStore} (account : Number) (viewingKey : Bytes) (h : Attainable s) :
      Attainable ((addAccount account viewingKey).after s)
  | commit {s : WalletStore} (b : ScannedBlock) (h : Attainable s) :
      Attainable ((commitBlock b).after s)
  | truncate {s : WalletStore} (height : Number) (h : Attainable s) :
      Attainable ((truncate height).after s)

/-- Between calls no transaction is open, and the constraints hold. -/
theorem lawful_of_attainable {s : WalletStore} (h : Attainable s) : s.AtRest ∧ s.content.Lawful := by
  induction h with
  | fresh backing => exact ⟨rfl, List.nodup_nil, fun n hn => by cases hn⟩
  | fault x _ ih => exact ih
  | @addAccount s account viewingKey _ ih =>
      obtain ⟨hbefore, hcontent⟩ := after_addAccount account viewingKey s
      refine ⟨hbefore.trans ih.1, ?_⟩
      rcases hcontent with hsame | hadd
      · rw [hsame]
        exact ih.2
      · exact ih.2.addAccount hadd
  | @commit s b _ ih =>
      cases hcommit : commitBlock b s with
      | ok u s' =>
          rw [Action.after_of_ok hcommit]
          obtain ⟨hrecord, hrest, -⟩ := record_of_commitBlock hcommit
          exact ⟨hrest, ih.2.record hrecord⟩
      | error e s' =>
          rw [Action.after_of_error hcommit]
          obtain ⟨hcontent, hrest, -⟩ := content_of_commitBlock_error ih.1 hcommit
          exact ⟨hrest, hcontent ▸ ih.2⟩
  | @truncate s height _ ih =>
      obtain ⟨s', hs', hcontent, hrest, -⟩ := truncate_of_atRest height ih.1
      rw [Action.after_of_ok hs']
      exact ⟨hrest, hcontent ▸ ih.2.cut height⟩

/-- Where the spends match, committing a block does not fail for one of them. -/
theorem not_blamesSpend_of_commitBlock {b : ScannedBlock} {s s' : WalletStore} {e : Failure}
    (hs : Attainable s) (hmatched : Wallet.Matched s.content b.notes b.spends)
    (h : commitBlock b s = .error e s') : e.blamesSpend = false := by
  obtain ⟨hrest, hlawful⟩ := lawful_of_attainable hs
  obtain ⟨cause, hcause, he⟩ := cause_of_commitBlock_error hrest h
  have hblames : cause.blamesSpend = false := by
    rcases hcause with rfl | hrecording
    · rfl
    · exact Wallet.not_blamesSpend_of_recording hlawful hmatched hrecording
  rcases he with rfl | rfl
  · rw [Failure.blamesSpend_duringStorage, hblames]
  · simp [Failure.blamesSpend, hblames]

end WalletStore

end LightSync
