import LightSync.Wallet.Basic

/-!
# The wallet store

Recording a block and rewinding, each as one transaction on the database of a wallet.
-/

set_option autoImplicit false

namespace LightSync

/-- The database of a wallet. -/
abbrev WalletStore := Database Wallet

/-- What was undone above a height. -/
structure Truncation where
  notesRemoved : Nat
  spendsReversed : Nat
  deriving DecidableEq, Repr

namespace WalletStore

/-! ## Accounts -/

/-- Adds an account with the viewing key that recognizes its notes. -/
def addAccount (account : Number) (viewingKey : Bytes) : Action WalletStore Unit :=
  if account.isInteger && !decide (account < 0) then
    Action.storing .addAccount <|
      Database.run fun w => (w.addAccount account viewingKey).map fun w => (w, ())
  else throw (.refused .accountId (some account))

/-! ## Reading -/

/-- The balance of an account. -/
def balance (s : WalletStore) (account : Number) : Except Failure Number :=
  match s.content.balance account with
  | .ok a => .ok a
  | .error fault => .error (.storage .readBalance (.store fault))

/-- The balance of an account at an anchor. -/
def balanceAt (s : WalletStore) (account anchor : Number) : Except Failure Number :=
  match s.content.balanceAt account anchor with
  | .ok a => .ok a
  | .error fault => .error (.storage .readBalanceAt (.store fault))

/-! ## Recording a block -/

/-- A block has to follow the highest scanned one, if there is one. -/
def checkHeight (b : ScannedBlock) (w : Wallet) : Except Failure Unit :=
  match w.tip? with
  | none => .ok ()
  | some tip =>
      let expected := Number.int tip.height + 1
      if b.height.same expected then .ok ()
      else .error (.brokenChain (.discontinuity expected b.height))

def recordNote (b : ScannedBlock) (n : FoundNote) : Action WalletStore Unit :=
  Database.insert .notes b.height (Wallet.addNote b.height.toInt? n)

/-- Every spend has to meet exactly one unspent note. -/
def recordSpend (b : ScannedBlock) (s : FoundSpend) : Action WalletStore Unit := do
  let changes ← Database.run fun w => .ok (w.markSpent b.height.toInt? s)
  if changes ≠ 1 then throw (.corrupted (.unmatchedSpend s.nullifier b.height))

/-- Records a scanned block: its checkpoint, its notes and its spends, all of them or none. -/
def commitBlock (b : ScannedBlock) : Action WalletStore Unit :=
  Action.storing .commitBlock <| Database.transaction do
    Database.query (checkHeight b)
    Database.insert .checkpoints b.height (Wallet.addCheckpoint b)
    b.notes.forM (recordNote b)
    b.spends.forM (recordSpend b)

/-! ## Truncation -/

/-- Removes everything recorded above a height: notes, spends and checkpoints. -/
def truncate (height : Number) : Action WalletStore Truncation :=
  Action.storing .truncateWallet <| Database.transaction do
    let spendsReversed ← Database.run fun w => .ok (w.reverseSpends height)
    let notesRemoved ← Database.run fun w => .ok (w.dropNotes height)
    Database.run fun w => .ok (w.dropCheckpoints height, ())
    return { notesRemoved, spendsReversed }

end WalletStore

end LightSync
