import LightSync.Proofs.Scan.Receipts
import LightSync.Proofs.Wallet.Refusal

/-!
# The spends that a scan finds

While a block is scanned, the nullifiers that were taken notice of are different ones, and each
belongs to a note that the wallet holds unspent or to one found in the block before
(`Wallet.Matched`). A nullifier that is revealed keeps that, whether it is taken notice of or not,
and so does an output, which at most adds a note. Hence a scanned block is never refused for one of
its spends by the wallet for which it was scanned (`not_blamesSpend_of_block`).
-/

set_option autoImplicit false

namespace LightSync
namespace Scan

open Wallet (Matched)

variable {w : Wallet} {reader : NoteReader} {keys : List AccountKey} {height : Number}
  {before after : Findings}

theorem holds_iff {nf : Bytes} : holds w nf = true ↔ w.HoldsUnspent nf := by
  unfold holds Wallet.unspentNote?
  rw [List.find?_isSome]
  simp [Wallet.HoldsUnspent, Wallet.isUnspent]

/-! ## Revealed nullifiers -/

theorem matched_reveal (h : Matched w before.notes before.spends) (txid nf : Bytes) :
    Matched w before.notes (reveal (holds w) txid before nf).spends := by
  unfold reveal
  split
  · exact h
  · rename_i hnew
    split
    · rename_i hknown
      refine ⟨?_, fun s hs => ?_⟩
      · -- the nullifier is none of those before
        refine Wallet.nodup_map_concat h.nodup fun hmem => hnew ?_
        obtain ⟨s, hs, hsame⟩ := List.mem_map.1 hmem
        exact List.any_eq_true.2 ⟨s, hs, beq_iff_eq.2 hsame⟩
      · rcases List.mem_append.1 hs with hs | hs
        · exact h.known s hs
        · rw [List.mem_singleton.1 hs]
          rcases Bool.or_eq_true_iff.1 hknown with hfound | hheld
          · obtain ⟨n, hn, hsame⟩ := List.any_eq_true.1 hfound
            exact Or.inr ⟨n, hn, beq_iff_eq.1 hsame⟩
          · exact Or.inl (holds_iff.1 hheld)
    · exact h

theorem matched_reveals (h : Matched w before.notes before.spends) (txid : Bytes)
    (nfs : List Bytes) :
    Matched w (nfs.foldl (reveal (holds w) txid) before).notes
      (nfs.foldl (reveal (holds w) txid) before).spends := by
  induction nfs generalizing before with
  | nil => exact h
  | cons nf nfs ih =>
      refine ih ?_
      rw [notes_reveal]
      exact matched_reveal h txid nf

/-! ## Outputs -/

/-- More notes do no harm. -/
theorem matched_receive {tx : Tx} {i : Nat} {output : SaplingOutput}
    (h : Matched w before.notes before.spends)
    (hreceive : receive reader keys height tx before i output = .ok after) :
    Matched w after.notes after.spends := by
  obtain ⟨note, -, hreceive⟩ := Except.bind_eq_ok.1 hreceive
  cases note with
  | none =>
      cases hreceive
      exact h
  | some note =>
      cases hreceive
      refine ⟨h.nodup, fun s hs => (h.known s hs).imp_right ?_⟩
      rintro ⟨n, hn, hsame⟩
      exact ⟨n, List.mem_append_left _ hn, hsame⟩

theorem matched_receiveAll {tx : Tx} {i : Nat} {outputs : List SaplingOutput}
    (h : Matched w before.notes before.spends)
    (hreceive : receiveAll reader keys height tx before i outputs = .ok after) :
    Matched w after.notes after.spends := by
  induction outputs generalizing before i with
  | nil =>
      cases hreceive
      exact h
  | cons output outputs ih =>
      obtain ⟨next, hnext, hrest⟩ := Except.bind_eq_ok.1 hreceive
      exact ih (matched_receive h hnext) hrest

/-! ## Blocks -/

theorem matched_takeTxs {txs : List Tx} (h : Matched w before.notes before.spends)
    (htake : takeTxs (holds w) reader keys height before txs = .ok after) :
    Matched w after.notes after.spends := by
  induction txs generalizing before with
  | nil =>
      cases htake
      exact h
  | cons tx txs ih =>
      obtain ⟨next, hnext, hrest⟩ := Except.bind_eq_ok.1 htake
      exact ih (matched_receiveAll (matched_reveals h tx.hash tx.spends) hnext) hrest

/-- The spends of a scanned block match the wallet for which it was scanned. -/
theorem matched_block {treeSize : Number} {b : Block} {found : ScannedBlock}
    (h : block (holds w) reader keys treeSize b = .ok found) :
    Matched w found.notes found.spends := by
  obtain ⟨after, htake, h⟩ := Except.bind_eq_ok.1 h
  obtain ⟨hash, -, h⟩ := Except.bind_eq_ok.1 h
  cases h
  -- before the first transaction nothing is found
  have hstart : Matched w [] [] := ⟨List.nodup_nil, fun s hs => by cases hs⟩
  exact @matched_takeTxs w reader keys b.height ⟨treeSize, [], []⟩ after b.txs hstart htake

/-- **A scanned block is never refused for one of its spends.** Whatever a block reveals and however
often, a scan of it finds spends of different nullifiers, each of an unspent note of the wallet or
of a note found in the block; so if the same wallet does not take what was found, it is not for a
spend that met no unspent note. -/
theorem not_blamesSpend_of_block {s : WalletStore} (hs : WalletStore.Attainable s)
    (reader : NoteReader) (keys : List AccountKey) (treeSize : Number) (b : Block)
    (found : ScannedBlock) (h : block (holds s.content) reader keys treeSize b = .ok found) :
    (found.spends.map (·.nullifier)).Nodup ∧
      (∀ x ∈ found.spends, s.content.HoldsUnspent x.nullifier ∨
        ∃ n ∈ found.notes, n.nullifier = x.nullifier) ∧
      ∀ e s', WalletStore.commitBlock found s = .error e s' → e.blamesSpend = false := by
  have hmatched := matched_block h
  exact ⟨hmatched.nodup, hmatched.known, fun e s' hcommit =>
    WalletStore.not_blamesSpend_of_commitBlock hs hmatched hcommit⟩

/-! ### A nullifier that is revealed again and again -/

/-- A wallet with one note, which is unspent. -/
def oneNote : WalletStore :=
  let s := Database.connect Wallet.empty .memory
  let s := (WalletStore.addAccount 0 [1]).after s
  (WalletStore.commitBlock (WalletStore.scanned 49 [WalletStore.received 0 [9]] [])).after s

theorem attainable_oneNote : WalletStore.Attainable oneNote := by
  have h := (WalletStore.Attainable.fresh .memory).addAccount 0 [1]
  unfold oneNote
  exact h.commit (WalletStore.scanned 49 [WalletStore.received 0 [9]] [])

/-- The nullifier of the note that the wallet holds is revealed by both transactions, and that of
the note in the block before the note appears, by the transaction with the note, and after it. -/
def restlessBlock : Block :=
  linkedBlock 50 1 7 [⟨0, [1], 0, [[9], [9], [5]], [], []⟩,
    ⟨1, [2], 0, [[5], [9]], [⟨[1], [2], [3]⟩], []⟩, ⟨2, [3], 0, [[5], [5], [4]], [], []⟩]

def restlessReader : NoteReader := .ofList [⟨[1], ⟨0, 5, none, [5]⟩⟩]

theorem not_blamesSpend_of_block_restless :
    ∃ found, block (holds oneNote.content) restlessReader [] 1 restlessBlock = .ok found ∧
      found.spends = [⟨[9], [1]⟩, ⟨[5], [3]⟩] ∧
      ∀ e s', WalletStore.commitBlock found oneNote = .error e s' → e.blamesSpend = false := by
  have hfound : (block (holds oneNote.content) restlessReader [] 1 restlessBlock).toOption =
      some ⟨50, List.replicate Block.hashLength 1, 0, 2, [⟨0, 5, none, 1, [2], 1, 0, [1], [5]⟩],
        [⟨[9], [1]⟩, ⟨[5], [3]⟩]⟩ := by
    decide +kernel
  have hfound := Except.toOption_eq_some.1 hfound
  exact ⟨_, hfound, rfl,
    (not_blamesSpend_of_block attainable_oneNote restlessReader [] 1 restlessBlock _ hfound).2.2⟩

end Scan
end LightSync
