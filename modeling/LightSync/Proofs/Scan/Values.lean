import LightSync.Proofs.Scan.Endings
import LightSync.Proofs.Wallet.Balance

/-!
# The values of scanned notes

A note that is opened is worth a safe number of zatoshis, and a wallet that is only filled by scans
for encrypted notes keeps such values (`whole_of_ran`). Nothing bounds how many notes there are: the
balance of many of them can leave the integers that are numbers, and then the 64 bits of the store.

Main statement: `answers_of_ran`.
-/

set_option autoImplicit false

namespace LightSync

/-! ## Opened notes -/

namespace Note

theorem le_of_firstOpening {output : SaplingOutput} {keys : List AccountKey} {key : AccountKey}
    {value : Nat} (h : firstOpening output keys = some (key, value)) : value ≤ Number.maxSafe := by
  induction keys with
  | nil => cases h
  | cons first keys ih =>
      rw [firstOpening] at h
      split at h
      · rename_i v hopen
        cases h
        -- a greater value is none, so the next key is tried
        obtain ⟨text, -, hvalue⟩ := Option.bind_eq_some_iff.1 hopen
        unfold valueOf? at hvalue
        split at hvalue
        · dsimp only at hvalue
          split at hvalue
          · rename_i hle
            cases hvalue
            exact hle
          · cases hvalue
        · cases hvalue
      · exact ih h

theorem value_of_reader {output : SaplingOutput} {keys : List AccountKey} {place : OutputPlace}
    {note : OpenedNote} (h : reader output keys place = .ok (some note)) :
    ∃ v : Nat, note.value = .int v ∧ v ≤ Number.maxSafe := by
  unfold reader at h
  split at h
  · cases h
  · split at h
    · cases h
    · rename_i key value hopening
      obtain ⟨nf, -, h⟩ := Except.bind_eq_ok.1 h
      cases h
      exact ⟨value, rfl, le_of_firstOpening hopening⟩

end Note

namespace Scan

section

variable {isUnspent : Bytes → Bool} {reader : NoteReader} {keys : List AccountKey}
  {height : Number} {tx : Tx} {before after : Findings}

/-- A note that the reader opened somewhere in the block. -/
def Opened (reader : NoteReader) (keys : List AccountKey) (n : FoundNote) : Prop :=
  ∃ output place note, reader output keys place = .ok (some note) ∧ n.value = note.value

theorem opened_receive {i : Nat} {output : SaplingOutput}
    (h : ∀ n ∈ before.notes, Opened reader keys n)
    (hreceive : receive reader keys height tx before i output = .ok after) :
    ∀ n ∈ after.notes, Opened reader keys n := by
  obtain ⟨note, hread, hreceive⟩ := Except.bind_eq_ok.1 hreceive
  cases note with
  | none =>
      cases hreceive
      exact h
  | some note =>
      cases hreceive
      intro n hn
      rcases List.mem_append.1 hn with hn | hn
      · exact h n hn
      · cases List.mem_singleton.1 hn
        exact ⟨output, _, note, hread, rfl⟩

theorem opened_receiveAll {i : Nat} {outputs : List SaplingOutput}
    (h : ∀ n ∈ before.notes, Opened reader keys n)
    (hreceive : receiveAll reader keys height tx before i outputs = .ok after) :
    ∀ n ∈ after.notes, Opened reader keys n := by
  induction outputs generalizing before i with
  | nil =>
      cases hreceive
      exact h
  | cons output outputs ih =>
      obtain ⟨next, hnext, hrest⟩ := Except.bind_eq_ok.1 hreceive
      exact ih (opened_receive h hnext) hrest

theorem opened_takeTxs {txs : List Tx} (h : ∀ n ∈ before.notes, Opened reader keys n)
    (htake : takeTxs isUnspent reader keys height before txs = .ok after) :
    ∀ n ∈ after.notes, Opened reader keys n := by
  induction txs generalizing before with
  | nil =>
      cases htake
      exact h
  | cons tx txs ih =>
      obtain ⟨next, hnext, hrest⟩ := Except.bind_eq_ok.1 htake
      refine ih (opened_receiveAll ?_ hnext) hrest
      rw [notes_reveals]
      exact h

/-- Every note of a scanned block was opened by the reader. -/
theorem opened_block {treeSize : Number} {b : Block} {found : ScannedBlock}
    (h : block isUnspent reader keys treeSize b = .ok found) :
    ∀ n ∈ found.notes, Opened reader keys n := by
  obtain ⟨after, htake, h⟩ := Except.bind_eq_ok.1 h
  obtain ⟨hash, -, h⟩ := Except.bind_eq_ok.1 h
  cases h
  exact @opened_takeTxs isUnspent reader keys b.height ⟨treeSize, [], []⟩ after b.txs
    (fun n hn => by cases hn) htake

end

/-! ## Wallets -/

section

variable {keys : List AccountKey} {p q : Point} {w w' : Wallet} {b : Block} {bs : List Block}

theorem whole_of_take (hw : w.Whole) (hword : b.HasWordHeight)
    (h : take Note.reader keys p w b = .ok (q, w')) : w'.Whole := by
  obtain ⟨found, k, -, hblock, -, -, -, -, hrec, -⟩ := tip_of_take hword h
  intro n hn
  obtain ⟨m, rfl, hm | ⟨f, hf, i, rfl⟩⟩ := hrec.exists_of_mem hn
  · exact hw m hm
  · obtain ⟨output, place, note, hread, hvalue⟩ := opened_block hblock f hf
    obtain ⟨v, hv, hle⟩ := Note.value_of_reader hread
    refine ⟨v, ?_, hle⟩
    show f.value.kept = .int v
    rw [hvalue, hv]
    rfl

theorem whole_of_takeAll (hw : w.Whole) (hword : ∀ b ∈ bs, b.HasWordHeight)
    (h : takeAll Note.reader keys p w bs = .ok (q, w')) : w'.Whole := by
  induction bs generalizing p w with
  | nil =>
      cases h
      exact hw
  | cons b bs ih =>
      obtain ⟨⟨p1, w1⟩, htake, hrest⟩ := Except.bind_eq_ok.1 h
      exact ih (whole_of_take hw (hword b List.mem_cons_self) htake)
        (fun c hc => hword c (List.mem_cons_of_mem b hc)) hrest

end

end Scan

theorem Wallet.Whole.cut {w : Wallet} (h : w.Whole) (height : Number) : (w.cut height).Whole := by
  intro n hn
  rw [notes_cut] at hn
  obtain ⟨m, hm, rfl⟩ := List.mem_map.1 hn
  rw [column_unmark (f := (·.value)) fun _ _ => rfl]
  exact h m (List.mem_filter.1 hm).1

namespace WalletStore

/-- Notes that were received by scanning are worth safe numbers of zatoshis. -/
theorem whole_of_ran {s : WalletStore} {inputs : List Bytes} (h : Ran s inputs) :
    s.content.Whole := by
  induction h with
  | fresh backing => exact fun n hn => by cases hn
  | @addAccount s inputs account viewingKey _ ih =>
      rcases (after_addAccount account viewingKey s).2 with hsame | hadd
      · rw [hsame]
        exact ih
      · obtain ⟨k, hk⟩ := Wallet.addAccount_eq_ok hadd
        rw [hk]
        exact ih
  | @scan τ setup st inputs hreader haside h ih =>
      have hrest := (tidy_of_ran h).settled.rest
      obtain ⟨-, taken, q, htaken, htake⟩ := Scan.content_after_run haside hrest
      rw [hreader] at htake
      refine Scan.whole_of_takeAll ih (fun b hb => ?_) htake
      exact (Scan.inRange_of_mem_pending (htaken.subset hb)).1
  | @rewind s inputs target depth stable h ih =>
      rcases after_rewind (tidy_of_ran h).settled.rest target depth stable with hsame | ⟨hcut, -⟩
      · rw [hsame]
        exact ih
      · rw [hcut]
        exact ih.cut target
  | @truncate s inputs height h ih =>
      obtain ⟨s', hs', hcut, -⟩ := truncate_of_atRest height (tidy_of_ran h).settled.rest
      rw [Action.after_of_ok hs', hcut]
      exact ih.cut height

/-- **What a question for a balance comes to**, in every wallet that was filled by scanning: what
the notes are worth if that is at most `2 ^ 53`, the number nearest to it if it has 64 bits, and a
failure beyond that; although every single note is worth a safe number. -/
theorem answers_of_ran {s : WalletStore} {inputs : List Bytes} (h : Ran s inputs)
    (account : Number) :
    (∀ n ∈ s.content.notes, n.value = .int n.zatoshis ∧ n.zatoshis ≤ Number.maxSafe) ∧
      Answers .readBalance (worth account Wallet.isUnspent s.content.notes) (s.balance account) ∧
      ∀ anchor i, anchor.toInt? = some i →
        Answers .readBalanceAt (worth account (Wallet.isVerified i) s.content.notes)
          (s.balanceAt account anchor) := by
  have hwhole := whole_of_ran h
  refine ⟨fun n hn => hwhole.value_eq hn, answers_balance hwhole account, fun anchor i hi => ?_⟩
  exact answers_balanceAt hwhole account hi

end WalletStore

/-! ### Two notes -/

namespace Scan

/-- A note of some value that is encrypted to the viewing key `[1]`. -/
def paymentOf (value : Number) : SaplingOutput :=
  let ephemeralKey := List.replicate Note.ephemeralKeyLength 7
  ⟨[2], ephemeralKey, match Note.encrypt [1] ephemeralKey value Note.zeroSeed with
    | .ok ciphertext => ciphertext
    | .error _ => []⟩

/-- An account is added, and a block with the greatest possible note and a small one is there. -/
def endowed : SyncState Unit :=
  { SyncState.idle (Cache.inMemory ⟨[rowOf (linkedBlock 50 1 0
      [⟨0, [7], 0, [], [paymentOf 9007199254740991, paymentOf 2], []⟩])],
      List.pairwise_singleton _ _⟩) Wallet.empty with
    wallet := (WalletStore.addAccount 0 [1]).after (Database.connect Wallet.empty .memory) }

/-- The block was scanned. -/
def wealthy : SyncState Unit := (run encryptedScan).after endowed

theorem ran_wealthy :
    WalletStore.Ran wealthy.wallet ([] ++ inputsOf (offered encryptedScan endowed)) := by
  have hadded := (WalletStore.Ran.fresh .memory).addAccount 0 [1]
  exact .scan rfl aside_none hadded

/-- Both notes were received at the first block, and neither is spent. -/
theorem notes_wealthy :
    wealthy.wallet.content.notes.map (fun n => (n.account, n.value, n.height, n.spent)) =
      [(0, .int 9007199254740991, 50, none), (0, .int 2, 50, none)] := by decide +kernel

theorem worth_wealthy :
    worth 0 Wallet.isUnspent wealthy.wallet.content.notes = 9007199254740993 ∧
      worth 0 (Wallet.isVerified 50) wealthy.wallet.content.notes = 9007199254740993 := by
  have hnotes := notes_wealthy
  obtain ⟨a, l, hl, ha, hrest⟩ := List.map_eq_cons_iff.1 hnotes
  obtain ⟨b, l', rfl, hb, hnil⟩ := List.map_eq_cons_iff.1 hrest
  cases List.map_eq_nil_iff.1 hnil
  simp only [Prod.mk.injEq] at ha hb
  have hzero : Number.same 0 (.int 0) = true := rfl
  have hempty (p : WalletNote → Bool) : worth 0 p [] = 0 := rfl
  rw [hl]
  constructor
  · simp [worth_cons, hempty, WalletNote.isOf, WalletNote.zatoshis, Wallet.isUnspent, ha, hb, hzero,
      Number.truncate]
  · simp [worth_cons, hempty, WalletNote.isOf, WalletNote.zatoshis, Wallet.isVerified,
      Wallet.isUnspent, ha, hb, hzero, Number.truncate]

theorem answers_of_ran_wealthy :
    WalletStore.Ran wealthy.wallet ([] ++ inputsOf (offered encryptedScan endowed)) ∧
      WalletStore.Answers .readBalance 9007199254740993 (wealthy.wallet.balance 0) ∧
      WalletStore.Answers .readBalanceAt 9007199254740993 (wealthy.wallet.balanceAt 0 50) := by
  obtain ⟨-, hbalance, hat⟩ := WalletStore.answers_of_ran ran_wealthy 0
  obtain ⟨hworth, hworthAt⟩ := worth_wealthy
  refine ⟨ran_wealthy, ?_, ?_⟩
  · rwa [hworth] at hbalance
  · have hverified := hat 50 50 rfl
    rwa [hworthAt] at hverified

/-- The sum of the two values is no number, and the balance falls short of it by one. -/
theorem balance_wealthy_inexact :
    WalletStore.Ran wealthy.wallet ([] ++ inputsOf (offered encryptedScan endowed)) ∧
      worth 0 Wallet.isUnspent wealthy.wallet.content.notes = 9007199254740993 ∧
      wealthy.wallet.balance 0 = .ok (.int 9007199254740992) ∧
      wealthy.wallet.balanceAt 0 50 = .ok (.int 9007199254740992) := by
  have hwhole := WalletStore.whole_of_ran ran_wealthy
  obtain ⟨hworth, hworthAt⟩ := worth_wealthy
  have hfar : Number.exactLimit < 9007199254740993 := by decide
  have hword : ((9007199254740993 : Nat) : Int) < wordBound := by decide
  have hnearest : Number.nearest ((9007199254740993 : Nat) : Rat) = .int 9007199254740992 := by
    decide +kernel
  have hanchor : Number.toInt? 50 = some 50 := rfl
  refine ⟨ran_wealthy, hworth, ?_, ?_⟩
  · have hbalance := WalletStore.answers_balance hwhole 0
    rw [hworth] at hbalance
    rw [hbalance.eq_nearest hfar hword, hnearest]
  · have hbalance := WalletStore.answers_balanceAt hwhole 0 hanchor
    rw [hworthAt] at hbalance
    rw [hbalance.eq_nearest hfar hword, hnearest]

end Scan
end LightSync
