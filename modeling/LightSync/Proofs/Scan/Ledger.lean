import LightSync.Proofs.Number.Integers
import LightSync.Wallet.Basic

/-!
# The notes of a chain

What a wallet should hold of a chain, said of the chain as a whole: a note for every output that
the reader opens at its place, spent by the first later transaction that reveals its nullifier
(`Ledger.notes`). One more transaction marks notes as spent and adds its own (`notes_concat`).
-/

set_option autoImplicit false

namespace LightSync
namespace Ledger

/-- A transaction of a chain, with the height of its block. -/
structure Entry where
  height : Number
  tx : Tx

/-- The transactions of blocks in order. -/
def entries (bs : List Block) : List Entry :=
  bs.flatMap fun b => b.txs.map fun tx => ⟨b.height, tx⟩

/-- An output of a chain: the number of its transaction among all transactions, and its index in
that transaction. -/
structure Output where
  number : Nat
  entry : Entry
  index : Nat
  output : SaplingOutput

/-- The outputs of a transaction. -/
def outputsOf (number : Nat) (e : Entry) : List Output :=
  e.tx.outputs.zipIdx.map fun o => ⟨number, e, o.2, o.1⟩

/-- All outputs of a chain in order. -/
def outputs (es : List Entry) : List Output := es.zipIdx.flatMap fun e => outputsOf e.2 e.1

/-- An output that was opened, and its position: the number of outputs before it. -/
structure Receipt where
  output : Output
  position : Nat
  note : OpenedNote

/-- Where an output stands that has `position` outputs before it. -/
def Output.place (o : Output) (position : Nat) : OutputPlace :=
  { height := o.entry.height, txid := o.entry.tx.hash, txIndex := o.entry.tx.index,
    outputIndex := o.index, position := .counted position }

/-- What the reader makes of an output at a position. -/
def opened? (reader : NoteReader) (keys : List AccountKey) (o : Output) (position : Nat) :
    Option Receipt :=
  match reader o.output keys (o.place position) with
  | .ok note => note.map fun note => ⟨o, position, note⟩
  | .error _ => none

/-- The outputs of a chain that the reader opens. -/
def receipts (reader : NoteReader) (keys : List AccountKey) (es : List Entry) : List Receipt :=
  (outputs es).zipIdx.filterMap fun o => opened? reader keys o.1 o.2

/-- The first transaction after number `number` that reveals a nullifier. -/
def spending? (es : List Entry) (number : Nat) (nullifier : Bytes) : Option Spending :=
  ((es.drop (number + 1)).find? fun e => nullifier ∈ e.tx.spends).map fun e =>
    ⟨e.height.truncate, e.tx.hash⟩

/-- The note of a receipt. -/
def Receipt.toNote (r : Receipt) (id : Int) (spent : Option Spending) : WalletNote :=
  { id, account := r.note.account.truncate, value := r.note.value.kept, memo := r.note.memo,
    position := .counted r.position, height := r.output.entry.height.truncate,
    txid := r.output.entry.tx.hash, txIndex := r.output.entry.tx.index.kept,
    outputIndex := (Number.ofNat r.output.index).kept, commitment := r.output.output.commitment,
    nullifier := r.note.nullifier, spent }

/-- The notes of a chain, in the order of their outputs. -/
def notes (reader : NoteReader) (keys : List AccountKey) (es : List Entry) : List WalletNote :=
  (receipts reader keys es).zipIdx.map fun r =>
    r.1.toNote (r.2 + 1) (spending? es r.1.output.number r.1.note.nullifier)

/-! ## One more transaction -/

/-- The outputs of a transaction that the reader opens, when `position` outputs came before. -/
def receiptsOf (reader : NoteReader) (keys : List AccountKey) (number position : Nat) (e : Entry) :
    List Receipt :=
  ((outputsOf number e).zipIdx position).filterMap fun o => opened? reader keys o.1 o.2

/-- A note after a transaction that reveals nullifiers. -/
def strike (s : Spending) (nullifiers : List Bytes) (n : WalletNote) : WalletNote :=
  { n with spent := n.spent.or (if n.nullifier ∈ nullifiers then some s else none) }

variable {reader : NoteReader} {keys : List AccountKey}

theorem outputs_concat (es : List Entry) (e : Entry) :
    outputs (es ++ [e]) = outputs es ++ outputsOf es.length e := by
  simp [outputs, List.zipIdx_append]

theorem length_outputs_concat (es : List Entry) (e : Entry) :
    (outputs (es ++ [e])).length = (outputs es).length + e.tx.outputs.length := by
  simp [outputs_concat, outputsOf]

theorem receipts_concat (es : List Entry) (e : Entry) :
    receipts reader keys (es ++ [e]) =
      receipts reader keys es ++ receiptsOf reader keys es.length (outputs es).length e := by
  simp [receipts, receiptsOf, outputs_concat, List.zipIdx_append]

theorem output_of_opened? {o : Output} {position : Nat} {r : Receipt}
    (h : opened? reader keys o position = some r) : r.output = o ∧ r.position = position := by
  unfold opened? at h
  split at h
  · obtain ⟨note, -, rfl⟩ := Option.map_eq_some_iff.1 h
    exact ⟨rfl, rfl⟩
  · cases h

theorem number_lt_of_mem {es : List Entry} {r : Receipt} (h : r ∈ receipts reader keys es) :
    r.output.number < es.length := by
  obtain ⟨⟨o, p⟩, ho, hr⟩ := List.mem_filterMap.1 h
  rw [(output_of_opened? hr).1]
  obtain ⟨⟨e, t⟩, he, hoe⟩ := List.mem_flatMap.1 (List.fst_mem_of_mem_zipIdx ho)
  obtain ⟨x, -, rfl⟩ := List.mem_map.1 hoe
  have := (List.mem_zipIdx he).2.1
  simpa using this

theorem number_of_mem_receiptsOf {number position : Nat} {e : Entry} {r : Receipt}
    (h : r ∈ receiptsOf reader keys number position e) : r.output.number = number := by
  obtain ⟨⟨o, p⟩, ho, hr⟩ := List.mem_filterMap.1 h
  rw [(output_of_opened? hr).1]
  obtain ⟨x, -, rfl⟩ := List.mem_map.1 (List.fst_mem_of_mem_zipIdx ho)
  rfl

theorem entry_of_mem_receiptsOf {number position : Nat} {e : Entry} {r : Receipt}
    (h : r ∈ receiptsOf reader keys number position e) : r.output.entry = e := by
  obtain ⟨⟨o, p⟩, ho, hr⟩ := List.mem_filterMap.1 h
  rw [(output_of_opened? hr).1]
  obtain ⟨x, -, rfl⟩ := List.mem_map.1 (List.fst_mem_of_mem_zipIdx ho)
  rfl

/-- A transaction spends what no transaction before it has spent. -/
theorem spending?_concat {es : List Entry} {e : Entry} {number : Nat} (h : number < es.length)
    (nullifier : Bytes) :
    spending? (es ++ [e]) number nullifier =
      (spending? es number nullifier).or
        (if nullifier ∈ e.tx.spends then some ⟨e.height.truncate, e.tx.hash⟩ else none) := by
  unfold spending?
  rw [List.drop_append_of_le_length h, List.find?_append, Option.map_or]
  congr 1
  by_cases hm : nullifier ∈ e.tx.spends <;> simp [hm]

/-- Nothing comes after the last transaction. -/
theorem spending?_last (es : List Entry) (e : Entry) (nullifier : Bytes) :
    spending? (es ++ [e]) es.length nullifier = none := by
  simp [spending?]

theorem notes_concat (es : List Entry) (e : Entry) :
    notes reader keys (es ++ [e]) =
      (notes reader keys es).map (strike ⟨e.height.truncate, e.tx.hash⟩ e.tx.spends) ++
        ((receiptsOf reader keys es.length (outputs es).length e).zipIdx
          (notes reader keys es).length).map fun r => r.1.toNote (r.2 + 1) none := by
  have hlength : (notes reader keys es).length = (receipts reader keys es).length := by
    simp [notes]
  rw [hlength]
  unfold notes
  rw [receipts_concat, List.zipIdx_append, List.map_append, List.map_map, Nat.zero_add]
  congr 1
  · -- the earlier notes may be spent by the new transaction
    refine List.map_congr_left fun r hr => ?_
    have hnumber := number_lt_of_mem (List.fst_mem_of_mem_zipIdx hr)
    simp only [Function.comp_apply, strike, Receipt.toNote, spending?_concat hnumber]
  · -- its own notes are not, whatever it reveals
    refine List.map_congr_left fun r hr => ?_
    rw [number_of_mem_receiptsOf (List.fst_mem_of_mem_zipIdx hr), spending?_last]

/-! ## Order -/

/-- The notes of a chain lie in the order of their positions. -/
theorem sorted_notes (es : List Entry) :
    (notes reader keys es).Pairwise fun a b => a.position ≤ b.position := by
  -- the positions are those of the outputs in a list, of which some are left out
  have hreceipts : (receipts reader keys es).Pairwise fun a b => a.position < b.position := by
    refine List.Pairwise.filterMap (fun o => opened? reader keys o.1 o.2) ?_
      (List.pairwise_map.1 ?_ : (outputs es).zipIdx.Pairwise fun a b => a.2 < b.2)
    · intro a b hab r hr r' hr'
      rw [(output_of_opened? hr).2, (output_of_opened? hr').2]
      exact hab
    · rw [List.zipIdx_map_snd]
      exact List.pairwise_lt_range'
  have hpairs : (receipts reader keys es).zipIdx.Pairwise fun a b =>
      a.1.position < b.1.position := by
    rw [← List.zipIdx_map_fst 0 (receipts reader keys es), List.pairwise_map] at hreceipts
    exact hreceipts
  refine List.pairwise_map.2 (hpairs.imp fun hab => ?_)
  exact Number.counted_le_counted (Nat.le_of_lt hab)

/-- Identifiers are counted from one. -/
theorem foldl_max_ids (rs : List Receipt) (f : Receipt × Nat → Option Spending) (i : Nat) :
    (((rs.zipIdx i).map fun r => r.1.toNote (r.2 + 1) (f r)).map (·.id)).foldl max (i : Int) =
      ((i + rs.length : Nat) : Int) := by
  induction rs generalizing i with
  | nil => rfl
  | cons r rs ih =>
      rw [List.zipIdx_cons, List.map_cons, List.map_cons, List.foldl_cons]
      have hmax : max (i : Int) (r.toNote ((i : Int) + 1) (f (r, i))).id = ((i + 1 : Nat) : Int) := by
        show max (i : Int) ((i : Int) + 1) = _
        omega
      rw [hmax, ih (i + 1), List.length_cons]
      congr 1
      omega

end Ledger
end LightSync
