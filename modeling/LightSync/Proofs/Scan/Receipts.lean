import LightSync.Proofs.Scan.Ledger
import LightSync.Proofs.Scan.Steps

/-!
# A scan finds the notes of its chain

A scan meets spends in two places, among the notes that the wallet holds and among those found in
the block at hand, and takes each nullifier once per block. Between two transactions, what it has
found so far is what recording it now would make of the wallet: the notes of the chain up to there
(`Tracks`). With that a scanned wallet holds the notes of the scanned blocks
(`holdsLedger_of_takeAll`).
-/

set_option autoImplicit false

namespace LightSync
namespace Scan

open Ledger (Entry Receipt strike opened? outputsOf receiptsOf)
open Wallet (settle rows length_rows unscanned)

/-! ## Revealed nullifiers -/

/-- The nullifiers of the notes that a scan knows of. -/
def known (w : Wallet) (found : Findings) : List Bytes :=
  w.notes.map (·.nullifier) ++ found.notes.map (·.nullifier)

/-- What the wallet knows of a nullifier when a block is scanned. -/
abbrev holds (w : Wallet) (nullifier : Bytes) : Bool := (w.unspentNote? nullifier).isSome

theorem nullifiers_rows (k id : Int) (ns : List FoundNote) :
    (rows k id ns).map (·.nullifier) = ns.map (·.nullifier) := by
  induction ns generalizing id with
  | nil => rfl
  | cons n ns ih => exact congrArg (n.nullifier :: ·) (ih (id + 1))

theorem strike_nil (s : Spending) (n : WalletNote) : strike s [] n = n := by
  simp [strike]

theorem strike_cons (s : Spending) (nf : Bytes) (nfs : List Bytes) (n : WalletNote) :
    strike s (nf :: nfs) n = strike s nfs (strike s [nf] n) := by
  by_cases h : n.nullifier = nf
  · cases hs : n.spent <;> simp [strike, h, hs]
  · simp [strike, h]

theorem settle_eq_strike (k : Int) (s : FoundSpend) (n : WalletNote) :
    settle k [s] n = strike ⟨k, s.txid⟩ [s.nullifier] n := by
  by_cases h : n.nullifier = s.nullifier <;> simp [settle, strike, h]

theorem strike_of_spent (s : Spending) (nfs : List Bytes) {n : WalletNote}
    (h : n.nullifier ∈ nfs → n.spent ≠ none) : strike s nfs n = n := by
  have hor : n.spent.or (if n.nullifier ∈ nfs then some s else none) = n.spent := by
    by_cases hm : n.nullifier ∈ nfs
    · cases hs : n.spent with
      | none => exact absurd hs (h hm)
      | some x => rfl
    · rw [if_neg hm, Option.or_none]
  rw [strike, hor]

/-- A note whose nullifier is among the spends is spent. -/
theorem spent_settle_of_mem {k : Int} {spends : List FoundSpend} {n : WalletNote}
    (h : ∃ s ∈ spends, n.nullifier = s.nullifier) : (settle k spends n).spent ≠ none := by
  obtain ⟨s, hs, hn⟩ := h
  have hfind : (spends.find? fun s => n.nullifier = s.nullifier).isSome = true :=
    List.find?_isSome.2 ⟨s, hs, by simpa using hn⟩
  obtain ⟨x, hx⟩ := Option.isSome_iff_exists.1 hfind
  simp only [settle, hx, Option.map_some]
  cases n.spent <;> simp

theorem spent_of_not_holds {w : Wallet} {nf : Bytes} (h : holds w nf = false) {n : WalletNote}
    (hn : n ∈ w.notes) (hnf : n.nullifier = nf) : n.spent ≠ none := by
  intro hspent
  have hnone : w.unspentNote? nf = none := by simpa [holds] using h
  have hn' := List.find?_eq_none.1 hnone n hn
  simp [hnf, Wallet.isUnspent, hspent] at hn'

/-- Taking notice of a nullifier marks the unspent note that it belongs to, if there is one. -/
theorem notesAfter_reveal (w : Wallet) (k : Int) (txid : Bytes) (found : Findings) (nf : Bytes) :
    w.notesAfter k found.notes (reveal (holds w) txid found nf).spends =
      (w.notesAfter k found.notes found.spends).map (strike ⟨k, txid⟩ [nf]) := by
  unfold reveal
  split
  · -- the nullifier was met before, and its note is spent
    rename_i hmet
    refine ((List.map_congr_left fun n hn => ?_).trans (List.map_id _)).symm
    obtain ⟨m, -, rfl⟩ := List.mem_map.1 hn
    refine strike_of_spent _ _ fun hm => spent_settle_of_mem ?_
    obtain ⟨s, hs, hsn⟩ := List.any_eq_true.1 hmet
    exact ⟨s, hs, (List.mem_singleton.1 hm).trans (by simpa using hsn : s.nullifier = nf).symm⟩
  · split
    · -- the nullifier is added to the spends
      unfold Wallet.notesAfter
      rw [List.map_map]
      refine List.map_congr_left fun n _ => ?_
      dsimp only
      rw [Wallet.settle_append, settle_eq_strike]
      rfl
    · -- no note of this nullifier is unspent
      rename_i hnone
      rw [Bool.or_eq_true, not_or, Bool.not_eq_true, Bool.not_eq_true] at hnone
      refine ((List.map_congr_left fun n hn => ?_).trans (List.map_id _)).symm
      obtain ⟨m, hm, rfl⟩ := List.mem_map.1 hn
      refine strike_of_spent _ _ fun hnf => ?_
      have hmnf : m.nullifier = nf := by simpa using hnf
      rcases List.mem_append.1 hm with hm | hm
      · rw [Wallet.settle_of_spent k _ (spent_of_not_holds hnone.2 hm hmnf)]
        exact spent_of_not_holds hnone.2 hm hmnf
      · -- it is none of those found in the block either
        have hmem : nf ∈ found.notes.map (·.nullifier) := by
          rw [← nullifiers_rows k w.nextNoteId, ← hmnf]
          exact List.mem_map_of_mem hm
        obtain ⟨x, hx, hxnf⟩ := List.mem_map.1 hmem
        have := List.any_eq_false.1 hnone.1 x hx
        simp [hxnf] at this

theorem notesAfter_reveals (w : Wallet) (k : Int) (txid : Bytes) (found : Findings)
    (nfs : List Bytes) :
    (nfs.foldl (reveal (holds w) txid) found).notes = found.notes ∧
      w.notesAfter k found.notes (nfs.foldl (reveal (holds w) txid) found).spends =
        (w.notesAfter k found.notes found.spends).map (strike ⟨k, txid⟩ nfs) := by
  induction nfs generalizing found with
  | nil =>
      refine ⟨rfl, ?_⟩
      rw [show strike ⟨k, txid⟩ [] = id from funext (strike_nil ⟨k, txid⟩), List.map_id]
      rfl
  | cons nf nfs ih =>
      obtain ⟨hnotes, hspends⟩ := ih (reveal (holds w) txid found nf)
      rw [notes_reveal] at hnotes hspends
      refine ⟨hnotes, ?_⟩
      calc w.notesAfter k found.notes ((nf :: nfs).foldl (reveal (holds w) txid) found).spends
        _ = (w.notesAfter k found.notes (reveal (holds w) txid found nf).spends).map
              (strike ⟨k, txid⟩ nfs) := by rw [List.foldl_cons, hspends]
        _ = (w.notesAfter k found.notes found.spends).map
              (strike ⟨k, txid⟩ nfs ∘ strike ⟨k, txid⟩ [nf]) := by
            rw [notesAfter_reveal, List.map_map]
        _ = (w.notesAfter k found.notes found.spends).map (strike ⟨k, txid⟩ (nf :: nfs)) :=
            List.map_congr_left fun n _ => (strike_cons ⟨k, txid⟩ nf nfs n).symm

/-- Only known nullifiers are taken notice of. -/
theorem spends_reveal {w : Wallet} {txid nf : Bytes} {found : Findings}
    (h : ∀ s ∈ found.spends, s.nullifier ∈ known w found) :
    ∀ s ∈ (reveal (holds w) txid found nf).spends, s.nullifier ∈ known w found := by
  unfold reveal
  split
  · exact h
  · split
    · rename_i hknown
      intro s hs
      rcases List.mem_append.1 hs with hs | hs
      · exact h s hs
      · cases List.mem_singleton.1 hs
        rcases Bool.or_eq_true_iff.1 hknown with hfound | hheld
        · obtain ⟨n, hn, hnf⟩ := List.any_eq_true.1 hfound
          have hnf : n.nullifier = nf := by simpa using hnf
          exact List.mem_append_right _ (List.mem_map.2 ⟨n, hn, hnf⟩)
        · obtain ⟨n, hn⟩ := Option.isSome_iff_exists.1 hheld
          have hnf := List.find?_some hn
          have hnf : n.nullifier = nf := (by simpa using hnf : _ ∧ _).1
          exact List.mem_append_left _ (List.mem_map.2 ⟨n, List.mem_of_find?_eq_some hn, hnf⟩)
    · exact h

theorem spends_reveals {w : Wallet} (txid : Bytes) (nfs : List Bytes) {found : Findings}
    (h : ∀ s ∈ found.spends, s.nullifier ∈ known w found) :
    ∀ s ∈ (nfs.foldl (reveal (holds w) txid) found).spends, s.nullifier ∈ known w found := by
  induction nfs generalizing found with
  | nil => exact h
  | cons nf nfs ih =>
      have hknown : known w (reveal (holds w) txid found nf) = known w found := by
        rw [known, notes_reveal, known]
      have hnext : ∀ s ∈ (reveal (holds w) txid found nf).spends,
          s.nullifier ∈ known w (reveal (holds w) txid found nf) := by
        rw [hknown]
        exact spends_reveal h
      have hall := ih hnext
      rwa [hknown] at hall

/-! ## Received notes -/

/-- What a scan keeps of a receipt. -/
def found (r : Receipt) : FoundNote :=
  { account := r.note.account, value := r.note.value, memo := r.note.memo,
    position := .counted r.position, txid := r.output.entry.tx.hash,
    txIndex := r.output.entry.tx.index, outputIndex := Number.ofNat r.output.index,
    commitment := r.output.output.commitment, nullifier := r.note.nullifier }

theorem receive_eq_ok {reader : NoteReader} {keys : List AccountKey} {e : Entry}
    {before after : Findings} {i m : Nat} {output : SaplingOutput} (number : Nat)
    (hm : before.position = .counted m)
    (h : receive reader keys e.height e.tx before i output = .ok after) :
    after.spends = before.spends ∧ after.notes =
      before.notes ++ (opened? reader keys ⟨number, e, i, output⟩ m).toList.map found := by
  obtain ⟨note, hread, h⟩ := Except.bind_eq_ok.1 h
  rw [hm] at hread h
  have hopened : opened? reader keys ⟨number, e, i, output⟩ m =
      note.map fun note => ⟨⟨number, e, i, output⟩, m, note⟩ := by
    unfold opened? Ledger.Output.place
    rw [hread]
  rw [hopened]
  cases note with
  | none =>
      cases h
      exact ⟨rfl, (List.append_nil _).symm⟩
  | some note =>
      cases h
      exact ⟨rfl, rfl⟩

theorem receiveAll_eq_ok {reader : NoteReader} {keys : List AccountKey} {e : Entry}
    {before after : Findings} {i m : Nat} {outputs : List SaplingOutput} (number : Nat)
    (hm : before.position = .counted m)
    (h : receiveAll reader keys e.height e.tx before i outputs = .ok after) :
    after.spends = before.spends ∧ after.notes = before.notes ++
      ((((outputs.zipIdx i).map fun o => Ledger.Output.mk number e o.2 o.1).zipIdx m).filterMap
        fun o => opened? reader keys o.1 o.2).map found := by
  induction outputs generalizing before i m with
  | nil =>
      cases h
      exact ⟨rfl, (List.append_nil _).symm⟩
  | cons output outputs ih =>
      obtain ⟨next, hnext, h⟩ := Except.bind_eq_ok.1 h
      obtain ⟨hspends, hnotes⟩ := receive_eq_ok number hm hnext
      have hpos : next.position = .counted (m + 1) := by
        rw [position_receive hnext, hm, Number.counted_add_one]
      obtain ⟨hspends', hnotes'⟩ := ih hpos h
      refine ⟨hspends'.trans hspends, ?_⟩
      rw [hnotes', hnotes, List.append_assoc, List.zipIdx_cons, List.map_cons, List.zipIdx_cons,
        List.filterMap_cons]
      -- one note more, or none
      cases opened? reader keys ⟨number, e, i, output⟩ m <;> rfl

theorem rows_append (k id : Int) (ns ms : List FoundNote) :
    rows k id (ns ++ ms) = rows k id ns ++ rows k (id + ns.length) ms := by
  induction ns generalizing id with
  | nil => simp [rows]
  | cons n ns ih =>
      rw [List.cons_append, rows, rows, ih, List.cons_append, List.length_cons]
      congr 3
      omega

/-- The rows of receipts are their notes. -/
theorem rows_found {k : Int} {rs : List Receipt}
    (hk : ∀ r ∈ rs, r.output.entry.height.truncate = k) (i : Nat) :
    rows k ((i : Int) + 1) (rs.map found) = (rs.zipIdx i).map fun r => r.1.toNote (r.2 + 1) none := by
  induction rs generalizing i with
  | nil => rfl
  | cons r rs ih =>
      rw [List.map_cons, rows, List.zipIdx_cons, List.map_cons]
      congr 1
      · cases hk r List.mem_cons_self
        rfl
      · rw [← ih (fun r hr => hk r (List.mem_cons_of_mem _ hr))]
        rfl

theorem settle_of_unknown {k : Int} {spends : List FoundSpend} {n : WalletNote}
    (h : ∀ s ∈ spends, n.nullifier ≠ s.nullifier) : settle k spends n = n := by
  have hfind : spends.find? (fun s => n.nullifier = s.nullifier) = none :=
    List.find?_eq_none.2 fun s hs => by simpa using h s hs
  simp only [settle, hfind, Option.map_none, Option.or_none]

/-! ## Between two transactions -/

/-- Recording now what was found so far in a block of height `k`, which began after the
transactions `es₀`, would make the wallet hold the notes of the transactions `es`, if no nullifier
is there twice. -/
structure Tracks (reader : NoteReader) (keys : List AccountKey) (w : Wallet) (k : Int)
    (es₀ : List Entry) (found : Findings) (es : List Entry) : Prop where
  position : found.position = .counted (Ledger.outputs es).length
  receipts : ∃ rs, found.notes = rs.map Scan.found ∧
    Ledger.receipts reader keys es = Ledger.receipts reader keys es₀ ++ rs
  spends : ∀ s ∈ found.spends, s.nullifier ∈ known w found
  notes : (known w found).Nodup →
    w.notesAfter k found.notes found.spends = Ledger.notes reader keys es

variable {reader : NoteReader} {keys : List AccountKey} {w w' : Wallet} {k : Int}
  {before after : Findings} {es₀ es : List Entry}

theorem Tracks.takeTx (h : Tracks reader keys w k es₀ before es)
    (hid : w.nextNoteId = w.notes.length + 1) {e : Entry} (hk : e.height.truncate = k)
    (ht : takeTx (holds w) reader keys e.height before e.tx = .ok after) :
    Tracks reader keys w k es₀ after (es ++ [e]) := by
  obtain ⟨hnotes, hstruck⟩ := notesAfter_reveals w k e.tx.hash before e.tx.spends
  have hspends := spends_reveals e.tx.hash e.tx.spends h.spends
  unfold Scan.takeTx at ht
  have hpos : (e.tx.spends.foldl (reveal (holds w) e.tx.hash) before).position =
      .counted (Ledger.outputs es).length := by rw [position_reveals, h.position]
  obtain ⟨hspends', hnotes'⟩ := receiveAll_eq_ok es.length hpos ht
  rw [hnotes] at hnotes'
  have hnotes' : after.notes = before.notes ++
      (receiptsOf reader keys es.length (Ledger.outputs es).length e).map found := hnotes'
  generalize hrs : receiptsOf reader keys es.length (Ledger.outputs es).length e = rs at hnotes'
  have hknown : known w after = known w before ++ rs.map (·.note.nullifier) := by
    rw [known, hnotes', List.map_append, known, List.append_assoc, List.map_map]
    rfl
  refine ⟨?_, ?_, fun s hs => ?_, fun hnodup => ?_⟩
  · rw [position_receiveAll hpos ht, Ledger.length_outputs_concat]
  · obtain ⟨rs₀, hrs₀, hreceipts⟩ := h.receipts
    refine ⟨rs₀ ++ rs, ?_, ?_⟩
    · rw [hnotes', hrs₀, List.map_append]
    · rw [Ledger.receipts_concat, hreceipts, hrs, List.append_assoc]
  · rw [hspends'] at hs
    rw [hknown]
    exact List.mem_append_left _ (hspends s hs)
  · rw [hknown] at hnodup
    obtain ⟨hbefore, -, hdisjoint⟩ := List.nodup_append.1 hnodup
    have hlength : (Ledger.notes reader keys es).length = w.notes.length + before.notes.length := by
      rw [← h.notes hbefore]
      simp [Wallet.notesAfter, length_rows]
    have hheights : ∀ r ∈ rs, r.output.entry.height.truncate = k := by
      intro r hr
      rw [← hrs] at hr
      rw [Ledger.entry_of_mem_receiptsOf hr, hk]
    -- a note that is found now is not among those spent before
    have hfresh : (rows k (w.nextNoteId + before.notes.length) (rs.map found)).map
        (settle k after.spends) =
          rows k (w.nextNoteId + before.notes.length) (rs.map found) := by
      refine (List.map_congr_left fun n hn => settle_of_unknown fun s hs heq => ?_).trans
        (List.map_id _)
      have hn' : n.nullifier ∈ rs.map (·.note.nullifier) := by
        have := List.mem_map_of_mem (f := (·.nullifier)) hn
        rw [nullifiers_rows, List.map_map] at this
        exact this
      rw [hspends'] at hs
      exact hdisjoint _ (heq ▸ hspends s hs) _ hn' rfl
    calc w.notesAfter k after.notes after.spends
      _ = w.notesAfter k before.notes after.spends ++
            (rows k (w.nextNoteId + before.notes.length) (rs.map found)).map
              (settle k after.spends) := by
          rw [Wallet.notesAfter, hnotes', rows_append, ← List.append_assoc, List.map_append]
          rfl
      _ = (Ledger.notes reader keys es).map (strike ⟨e.height.truncate, e.tx.hash⟩ e.tx.spends) ++
            rows k (((Ledger.notes reader keys es).length : Int) + 1) (rs.map found) := by
          rw [hfresh, hspends', hstruck, h.notes hbefore, hk, hid, hlength]
          congr 2
          omega
      _ = Ledger.notes reader keys (es ++ [e]) := by
          rw [rows_found hheights, Ledger.notes_concat, hrs]

theorem Tracks.takeTxs {height : Number} {txs : List Tx} (h : Tracks reader keys w k es₀ before es)
    (hid : w.nextNoteId = w.notes.length + 1) (hk : height.truncate = k)
    (ht : takeTxs (holds w) reader keys height before txs = .ok after) :
    Tracks reader keys w k es₀ after (es ++ txs.map (Entry.mk height)) := by
  induction txs generalizing before es with
  | nil =>
      cases ht
      rw [List.map_nil, List.append_nil]
      exact h
  | cons tx txs ih =>
      obtain ⟨next, hnext, ht⟩ := Except.bind_eq_ok.1 ht
      rw [List.map_cons, List.append_cons]
      exact ih (h.takeTx (e := ⟨height, tx⟩) hid hk hnext) ht

/-! ## Whole chains -/

theorem length_outputs_append (es : List Entry) (height : Number) (txs : List Tx) :
    (Ledger.outputs (es ++ txs.map (Entry.mk height))).length =
      (Ledger.outputs es).length + (txs.map (·.outputs.length)).foldr (· + ·) 0 := by
  induction txs generalizing es with
  | nil => simp
  | cons tx txs ih =>
      rw [List.map_cons, List.append_cons, ih, Ledger.length_outputs_concat, List.map_cons,
        List.foldr_cons, Nat.add_assoc]

theorem entries_concat (bs : List Block) (b : Block) :
    Ledger.entries (bs ++ [b]) = Ledger.entries bs ++ b.txs.map (Entry.mk b.height) := by
  simp [Ledger.entries]

/-- The outputs of a chain are as many as those of its blocks. -/
theorem length_outputs_entries (bs : List Block) :
    (Ledger.outputs (Ledger.entries bs)).length = outputCount bs := by
  induction bs using List.reverseRecOn with
  | nil => rfl
  | append_singleton bs b ih =>
      rw [entries_concat, length_outputs_append, ih, outputCount_concat]
      rfl

theorem nextNoteId_of_notes (h : w.notes = Ledger.notes reader keys es) :
    w.nextNoteId = w.notes.length + 1 := by
  have hmax := Ledger.foldl_max_ids (Ledger.receipts reader keys es)
    (fun r => Ledger.spending? es r.1.output.number r.1.note.nullifier) 0
  have hlength : w.notes.length = (Ledger.receipts reader keys es).length := by
    rw [h]
    simp [Ledger.notes]
  rw [Nat.zero_add] at hmax
  rw [Wallet.nextNoteId, hlength, h]
  exact congrArg (· + 1) hmax

/-- The wallet holds the notes of a chain, each for one of its accounts, and no nullifier twice. -/
structure HoldsLedger (reader : NoteReader) (keys : List AccountKey) (accounts : Keyed Bytes)
    (chain : List Block) (w : Wallet) : Prop where
  notes : w.notes = Ledger.notes reader keys (Ledger.entries chain)
  owners : ∀ r ∈ Ledger.receipts reader keys (Ledger.entries chain),
    Wallet.Owns accounts r.note.account
  distinct : (w.notes.map (·.nullifier)).Nodup

section

variable {activation : Number} {accounts : Keyed Bytes} {chain : List Block} {p p' : Point}
  {b : Block}

/-- A block that is taken adds its notes and marks those that it spends. -/
theorem HoldsLedger.take (h : HoldsLedger reader keys accounts chain w)
    (hreached : Reached activation accounts chain p w) (hword : b.HasWordHeight)
    (ht : take reader keys p w b = .ok (p', w')) :
    HoldsLedger reader keys accounts (chain ++ [b]) w' := by
  obtain ⟨s, n, hb, -, -, hblock, -, hrec, -⟩ := hreached.recorded hword ht
  obtain ⟨after, hafter, hblock⟩ := Except.bind_eq_ok.1 hblock
  obtain ⟨hash, -, hblock⟩ := Except.bind_eq_ok.1 hblock
  cases hblock
  -- before the first transaction nothing is found, and the wallet is as it was
  have hstart : Tracks reader keys w n (Ledger.entries chain)
      ⟨.counted (outputCount chain), [], []⟩ (Ledger.entries chain) := by
    refine ⟨by rw [length_outputs_entries], ⟨[], rfl, (List.append_nil _).symm⟩,
      fun s hs => (by cases hs), fun _ => ?_⟩
    rw [Wallet.notesAfter, show settle n [] = id from funext (Wallet.settle_nil n), List.map_id,
      ← h.notes]
    exact List.append_nil _
  have hend := hstart.takeTxs (nextNoteId_of_notes h.notes) (by rw [hb]; rfl) hafter
  -- the store refuses a nullifier that is there twice
  have hdistinct := hrec.nullifiers h.distinct
  have hknown : w'.notes.map (·.nullifier) = known w after := by
    rw [hrec.notes, Wallet.notesAfter, List.map_map, known]
    have : ((fun x : WalletNote => x.nullifier) ∘ settle n after.spends) =
        fun x : WalletNote => x.nullifier := rfl
    rw [this, List.map_append, nullifiers_rows]
  constructor
  · rw [entries_concat, hrec.notes]
    exact hend.notes (hknown ▸ hdistinct)
  · intro r hr
    obtain ⟨rs, hfound, hreceipts⟩ := hend.receipts
    rw [entries_concat, hreceipts] at hr
    rcases List.mem_append.1 hr with hr | hr
    · exact h.owners r hr
    · have hnote : found r ∈ after.notes := hfound ▸ List.mem_map_of_mem hr
      exact hreached.accounts ▸ hrec.owners _ hnote
  · exact hdistinct

/-- **A wallet holds the notes of its chain.** -/
theorem holdsLedger_of_takeAll (hword : ∀ b ∈ chain, b.HasWordHeight)
    (h : takeAll reader keys (startOf activation (unscanned accounts)) (unscanned accounts) chain =
      .ok (p, w)) : HoldsLedger reader keys accounts chain w := by
  refine takeAll_induction (P := fun chain _ w => HoldsLedger reader keys accounts chain w)
    ⟨rfl, fun r hr => (by cases hr), List.nodup_nil⟩ ?_ hword h
  intro chain p w b p' w' hreached _ hholds hb ht
  exact hholds.take hreached hb ht

end

/-- **What a scan finds.** A scan of a wallet without blocks that succeeds leaves the notes of the
scanned blocks, in the order of their outputs and each for one of its accounts, and a tip that
counts the outputs. -/
theorem notes_of_run {τ : Type} (setup : ScanSetup τ) (haside : Aside setup.hooks)
    (st : SyncState τ) (accounts : Keyed Bytes) (hempty : st.wallet.content = unscanned accounts)
    (summary : ScanSummary) (st' : SyncState τ) (h : run setup st = .ok summary st') :
    let bs := scanned setup st summary
    let es := Ledger.entries bs
    (summary.aborted = false → bs = pending setup st) ∧
    st'.wallet.content.notesOf none =
      Ledger.notes setup.reader (unscanned accounts).accountKeys es ∧
    (∀ r ∈ Ledger.receipts setup.reader (unscanned accounts).accountKeys es,
      Wallet.Owns accounts r.note.account) ∧
    (bs ≠ [] → ∃ t, st'.wallet.content.tip? = some t ∧
      t.treeSize = .counted (Ledger.outputs es).length) := by
  intro bs es
  obtain ⟨⟨q, hq⟩, hall⟩ := takeAll_of_run haside h
  rw [hempty] at hq
  have hword : ∀ b ∈ bs, b.HasWordHeight := fun b hb =>
    Cache.hasWordHeight_of_mem_blocks (List.mem_of_mem_take hb)
  have hreached := reached_of_takeAll hword hq
  have hholds := holdsLedger_of_takeAll hword hq
  refine ⟨hall, ?_, hholds.owners, fun hne => ?_⟩
  · unfold Wallet.notesOf
    dsimp only
    rw [hholds.notes]
    exact List.mergeSort_of_pairwise ((Ledger.sorted_notes es).imp fun hab => by simpa using hab)
  · cases ht : st'.wallet.content.tip? with
    | none => exact absurd (hreached.bare ht) hne
    | some t =>
        refine ⟨t, rfl, ?_⟩
        have hsize := hreached.size
        rw [hreached.point.2.2, startOf, ht] at hsize
        rw [length_outputs_entries]
        exact hsize

/-! ### A note that is spent -/

/-- A block with one output and its successor, which reveals the nullifier of the note in it; and
a wallet without blocks. -/
def noteAndSpendState : SyncState Unit :=
  let bs := [linkedBlock 50 1 0 [⟨0, [1], 0, [], [⟨[1], [2], [3]⟩], []⟩],
    linkedBlock 51 2 1 [⟨0, [2], 0, [[9]], [], []⟩]]
  SyncState.idle (Cache.inMemory ⟨bs.map rowOf, by decide +kernel⟩)
    (unscanned Wallet.oneAccount)

def noteAndSpendSetup : ScanSetup Unit where
  reader := .ofList [⟨[1], ⟨0, 5, none, [9]⟩⟩]
  activation := 50
  limit := none
  verbose := false
  hooks := ScanHooks.none

theorem notes_of_run_noteAndSpend :
    ∃ summary st', run noteAndSpendSetup noteAndSpendState = .ok summary st' ∧
      summary.blocksScanned = 2 ∧
      st'.wallet.content.notesOf none =
        Ledger.notes noteAndSpendSetup.reader [⟨0, [1]⟩]
          (Ledger.entries (scanned noteAndSpendSetup noteAndSpendState summary)) := by
  have hsummary : (run noteAndSpendSetup).value? noteAndSpendState =
      some ⟨2, some 50, some 51, 1, 1, false⟩ := by decide +kernel
  obtain ⟨st', h⟩ := Action.value?_eq_some.1 hsummary
  exact ⟨_, st', h, rfl,
    (notes_of_run noteAndSpendSetup aside_none noteAndSpendState Wallet.oneAccount rfl _ st' h).2.1⟩

end Scan
end LightSync
