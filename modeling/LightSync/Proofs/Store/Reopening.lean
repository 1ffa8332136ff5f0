import LightSync.Proofs.Cache.Filing
import LightSync.Proofs.Wallet.Truncation
import LightSync.Wallet.Schema
import Mathlib.Logic.Relation

/-!
# Stores that are opened again

A store in a file is opened, and works. After each operation a store that is opened on the same file
answers every question like the one that is there, and nothing is ever in the file that was rolled
back or is not committed yet (`answers_of_operations`).
-/

set_option autoImplicit false

namespace LightSync

open Relation (ReflTransGen)
open Database (Reached Contained contained_insert contained_query contained_run Lasting
  lasting_queryRows lasting_run)

/-! ## Wallets -/

namespace WalletStore

theorem lasting_addAccount (account : Number) (viewingKey : Bytes) :
    Lasting (addAccount account viewingKey) := by
  unfold addAccount
  split
  · exact (lasting_run _).mapFailure _
  · exact .throw _

theorem contained_recordSpend (b : ScannedBlock) (s : FoundSpend) : Contained (recordSpend b s) := by
  refine (contained_run _).bind fun changes => ?_
  split
  · exact .throw _
  · exact .pure _

theorem lasting_commitBlock (b : ScannedBlock) : Lasting (commitBlock b) := by
  refine Lasting.mapFailure (Contained.transaction ?_) _
  refine (contained_query _).bind fun _ => (contained_insert _ _ _).bind fun _ => ?_
  exact (Contained.forM fun n => contained_insert _ _ _).bind fun _ =>
    .forM (contained_recordSpend b)

theorem lasting_truncate (height : Number) : Lasting (truncate height) := by
  refine Lasting.mapFailure (Contained.transaction ?_) _
  exact (contained_run _).bind fun _ => (contained_run _).bind fun _ =>
    (contained_run _).bind fun _ => .pure _

/-- What can be done with a wallet. Questions whose rows are taken one by one are among it. -/
inductive Operated : WalletStore → WalletStore → Prop where
  | addAccount (s : WalletStore) (account : Number) (viewingKey : Bytes) :
      Operated s ((WalletStore.addAccount account viewingKey).after s)
  | commitBlock (s : WalletStore) (b : ScannedBlock) :
      Operated s ((WalletStore.commitBlock b).after s)
  | truncate (s : WalletStore) (height : Number) : Operated s ((WalletStore.truncate height).after s)
  | rewind (s : WalletStore) (target depth : Number) (stable : Option Number) :
      Operated s ((WalletStore.rewind target depth stable).after s)
  | question {α : Type} (s : WalletStore) (f : Wallet → Except Failure α) :
      Operated s ((Database.queryRows f).after s)
  | fault (s : WalletStore) (x : Option InjectedFault) : Operated s { s with fault := x }

theorem reached_operated {start s s' : WalletStore} (h : Reached start s)
    (hoperated : Operated s s') : Reached start s' := by
  cases hoperated with
  | addAccount _ account viewingKey => exact (lasting_addAccount account viewingKey).keeps s h
  | commitBlock _ b => exact (lasting_commitBlock b).keeps s h
  | truncate _ height => exact (lasting_truncate height).keeps s h
  | rewind _ target depth stable =>
      exact keeps_rewind (fun height => (lasting_truncate height).keeps) target depth stable s h
  | question _ f => exact (lasting_queryRows f).keeps s h
  | fault _ x => exact h.fault x

/-- The store was opened on a file. -/
def OpenedOnFile (s : WalletStore) : Prop :=
  ∃ m, WalletStore.connect m = .ok s ∧ s.backing ≠ .memory

/-- The stores answer every question alike. -/
structure AnswersLike (s s' : WalletStore) : Prop where
  accountKeys : s.content.accountKeys = s'.content.accountKeys
  tip : s.content.tip? = s'.content.tip?
  chainTip : s.content.chainTip? = s'.content.chainTip?
  isEmpty : s.content.isEmpty = s'.content.isEmpty
  blockHash : ∀ height, s.content.blockHash? height = s'.content.blockHash? height
  unspentNote : ∀ nullifier, s.content.unspentNote? nullifier = s'.content.unspentNote? nullifier
  notes : ∀ account, s.content.notesOf account = s'.content.notesOf account
  balance : ∀ account, s.balance account = s'.balance account
  balanceAt : ∀ account anchor, s.balanceAt account anchor = s'.balanceAt account anchor
  lowestUnspent : s.content.lowestUnspent? = s'.content.lowestUnspent?

theorem answersLike_reopened (s : WalletStore) : AnswersLike (Database.reopened s) s :=
  ⟨rfl, rfl, rfl, rfl, fun _ => rfl, fun _ => rfl, fun _ => rfl, fun _ => rfl, fun _ _ => rfl, rfl⟩

/-- A wallet of the current schema is found as it is. -/
theorem connect_image (w : Wallet) :
    WalletStore.connect (.image w) = .ok (Database.connect w (.file (some w))) := rfl

end WalletStore

/-! ## Opening again -/

/-- **Stores in files lose nothing.** A cache or a wallet is opened on a file that takes every image
of it, and any operations follow, successful or not, with every traversal at an end before the next
operation. Who opens the file then, whether the store was closed or not, finds a store that answers
every question like the one that was used. All that was done were statements; and whatever
statements are executed on a connection to a file, the image is always what counted then or
earlier, and what is done in a transaction does not count unless it is committed. -/
theorem answers_of_operations :
    (∀ start c : Cache, start.OpenedOnFile → ReflTransGen Cache.Operated start c →
      (∃ fresh, c.reconnect = .ok fresh ∧ c.close.reconnect = .ok fresh ∧ fresh.AnswersLike c) ∧
      Cache.OnDatabases Database.ByStatements start c) ∧
    (∀ start s : WalletStore, start.OpenedOnFile → ReflTransGen WalletStore.Operated start s →
      (∃ fresh, WalletStore.connect s.medium = .ok fresh ∧
        WalletStore.connect s.close.medium = .ok fresh ∧ WalletStore.AnswersLike fresh s) ∧
      Database.ByStatements start s) ∧
    ∀ (σ : Type) (content : σ) (statements : List (Database.Statement σ)),
      Database.Careful (Database.connect content (.file (some content))) statements := by
  refine ⟨?_, ?_, fun _ _ => Database.Filed.careful ⟨rfl, rfl, rfl, rfl⟩⟩
  · intro start c hopened hoperations
    have hreached : Cache.Reached start c := by
      induction hoperations with
      | refl => exact hopened.reached
      | tail _ hoperated ih => exact ih.operated hoperated
    obtain ⟨hreconnect, hclosed⟩ := hreached.reconnect
    exact ⟨⟨c.reopened, hreconnect, hclosed, c.answersLike_reopened⟩, hreached.byStatements⟩
  · rintro start s ⟨m, hopened, hfile⟩ hoperations
    have hreached : Reached start s := by
      induction hoperations with
      | refl => exact (Database.filed_of_connect hopened hfile).reached
      | tail _ hoperated ih => exact WalletStore.reached_operated ih hoperated
    obtain ⟨hclosed, hcontent⟩ := hreached.filed.close
    refine ⟨⟨Database.reopened s, ?_, ?_, WalletStore.answersLike_reopened s⟩, hreached.made⟩
    · rw [hreached.filed.medium]
      exact WalletStore.connect_image _
    · rw [hclosed.medium, hcontent]
      exact WalletStore.connect_image _

/-- A cache of rows in a new file. -/
def rowsInFile : RowCache := ⟨0, Database.connect Keyed.empty (.file (some Keyed.empty))⟩

/-- A consumer that stops after the first block. -/
def stopAtFirst : Walk Block → Action (Cache × Nat) (Option Number) := fun walk =>
  return walk.items.head?.map (·.height)

/-- Two blocks are stored, a batch is lost because the engine ends its transaction, and a traversal
is stopped early; then a block is dropped. -/
def usedRows : Cache :=
  let stored := (Cache.apply (.insertBlocks [linkedBlock 1 1 0 [], linkedBlock 2 2 1 []])).after
    (.rows rowsInFile)
  let struck := stored.withFault (some ⟨.blockRows, 4, true⟩)
  let lost := (Cache.apply (.insertBlocks [linkedBlock 3 3 2 [], linkedBlock 4 4 3 []])).after struck
  let traversed := ((Cache.traverse (·.1) (fun c s => (c, s.2)) none none stopAtFirst).after
    (lost, 0)).1
  (Cache.apply (.truncate 1)).after traversed

/-- An account is added, a block is recorded, a wrong one is refused, and a rewind is made. -/
def usedWallet : WalletStore :=
  let start : WalletStore := Database.connect Wallet.empty (.file (some Wallet.empty))
  let added := (WalletStore.addAccount 0 [1]).after start
  let recorded := (WalletStore.commitBlock ⟨50, [1], 0, 0, [], []⟩).after added
  let refused := (WalletStore.commitBlock ⟨51, [2], 0, 0, [], [⟨[9], [9]⟩]⟩).after recorded
  (WalletStore.rewind 49 100 none).after refused

theorem answers_of_operations_used :
    (Cache.OpenedOnFile (.rows rowsInFile) ∧
      ReflTransGen Cache.Operated (.rows rowsInFile) usedRows ∧ usedRows.maxHeight = some 1 ∧
      ∃ fresh, usedRows.reconnect = .ok fresh ∧ fresh.AnswersLike usedRows) ∧
    ∃ start, WalletStore.OpenedOnFile start ∧
      ReflTransGen WalletStore.Operated start usedWallet ∧
      usedWallet.content.accountKeys = [⟨0, [1]⟩] ∧
      ∃ fresh, WalletStore.connect usedWallet.medium = .ok fresh ∧
        WalletStore.AnswersLike fresh usedWallet := by
  have hrows : Cache.OpenedOnFile (.rows rowsInFile) :=
    @Cache.OpenedOnFile.rows 0 .absent rowsInFile rfl nofun
  have hused : ReflTransGen Cache.Operated (.rows rowsInFile) usedRows := by
    have hstop : Cache.Consumer stopAtFirst := fun _ _ => rfl
    dsimp only [usedRows]
    exact .tail (.tail (.tail (.tail (.tail .refl (.change _ _)) (.fault _ _)) (.change _ _))
      (.traverse _ _ _ hstop 0)) (.change _ _)
  let start : WalletStore := Database.connect Wallet.empty (.file (some Wallet.empty))
  have hwallet : WalletStore.OpenedOnFile start := ⟨.absent, rfl, nofun⟩
  have hworked : ReflTransGen WalletStore.Operated start usedWallet := by
    dsimp only [usedWallet]
    exact .tail (.tail (.tail (.tail .refl (.addAccount _ _ _)) (.commitBlock _ _))
      (.commitBlock _ _)) (.rewind _ _ _ _)
  obtain ⟨hcaches, hwallets, -⟩ := answers_of_operations
  obtain ⟨⟨fresh, hfresh, -, hanswers⟩, -⟩ := hcaches _ _ hrows hused
  obtain ⟨⟨found, hfound, -, hsame⟩, -⟩ := hwallets _ _ hwallet hworked
  exact ⟨⟨hrows, hused, by decide +kernel, fresh, hfresh, hanswers⟩,
    start, hwallet, hworked, by decide +kernel, found, hfound, hsame⟩

end LightSync
