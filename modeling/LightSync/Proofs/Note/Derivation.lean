import LightSync.Note.Cipher
import LightSync.Proofs.Scan.Replay

/-!
# Which notes a scan derives

The nullifier of a note is the hash of a string that ends with the position of the note in eight
bytes (`Note.nullifierInput`), so strings for different positions differ, whatever the viewing keys
and commitments before them are (`Note.position_eq_of_suffix`). A scan
with `Note.reader` finds notes of the given keys, and places them at different positions among those
of the outputs that it has seen (`Scan.Located`). Each output keeps that, and so does a whole block
(`Scan.located_block`).
-/

set_option autoImplicit false

namespace LightSync

/-! ## Positions in eight bytes -/

theorem Bytes.littleEndian_inj {width m n : Nat} (hm : m < range width) (hn : n < range width)
    (h : littleEndian width m = littleEndian width n) : m = n := by
  have hvalue := congrArg value h
  rwa [value_littleEndian, value_littleEndian, Nat.mod_eq_of_lt hm, Nat.mod_eq_of_lt hn] at hvalue

theorem Number.wrapped_counted (i : Nat) : (counted i).wrapped 64 = min i exactLimit := by
  have hsmall : min i exactLimit < 1 <<< 64 := Nat.lt_of_le_of_lt (Nat.min_le_right _ _) (by decide)
  show (((min i exactLimit : Nat) : Int) % ((1 <<< 64 : Nat) : Int)).toNat = _
  rw [← Int.natCast_emod, Nat.mod_eq_of_lt hsmall, Int.toNat_natCast]

namespace Note

/-- The string that is hashed for a nullifier. -/
def nullifierInput (viewingKey commitment : Bytes) (position : Number) : Bytes :=
  viewingKey ++ commitment ++ Bytes.littleEndian 8 (position.wrapped 64)

theorem nullifier_eq_ok {viewingKey commitment nf : Bytes} {position : Number}
    (h : nullifier viewingKey commitment position = .ok nf) :
    nf = Blake2s.hash nullifierPurpose (nullifierInput viewingKey commitment position) := by
  obtain ⟨place, hplace, h⟩ := Except.bind_eq_ok.1 h
  unfold Number.toBytes at hplace
  split at hplace
  · cases hplace
    cases h
    rfl
  · cases hplace

theorem nullifierInput_suffix (viewingKey commitment : Bytes) (position : Number) :
    Bytes.littleEndian 8 (position.wrapped 64) <:+ nullifierInput viewingKey commitment position :=
  List.suffix_append _ _

/-- One string does not end with two positions. -/
theorem position_eq_of_suffix {x : Bytes} {p q : Number} {i j : Nat} (hi : p = .counted i)
    (hj : q = .counted j) (hp : Bytes.littleEndian 8 (p.wrapped 64) <:+ x)
    (hq : Bytes.littleEndian 8 (q.wrapped 64) <:+ x) : p = q := by
  subst hi hj
  obtain ⟨before, rfl⟩ := hp
  obtain ⟨before', hsame⟩ := hq
  have hlength : (Bytes.littleEndian 8 ((Number.counted j).wrapped 64)).length =
      (Bytes.littleEndian 8 ((Number.counted i).wrapped 64)).length := by
    rw [Bytes.length_littleEndian, Bytes.length_littleEndian]
  have hplaces := (List.append_inj' hsame hlength).2
  rw [Number.wrapped_counted, Number.wrapped_counted] at hplaces
  have hsmall (n : Nat) : min n Number.exactLimit < Bytes.range 8 :=
    Nat.lt_of_le_of_lt (Nat.min_le_right _ _) (by decide)
  rw [Number.counted, Number.counted, Bytes.littleEndian_inj (hsmall j) (hsmall i) hplaces]

/-! ## Opened notes -/

theorem mem_of_firstOpening {output : SaplingOutput} {keys : List AccountKey} {key : AccountKey}
    {value : Nat} (h : firstOpening output keys = some (key, value)) : key ∈ keys := by
  induction keys with
  | nil => cases h
  | cons first keys ih =>
      rw [firstOpening] at h
      split at h
      · cases h
        exact List.mem_cons_self
      · exact List.mem_cons_of_mem first (ih h)

/-- A note that is opened belongs to one of the keys, and its nullifier is that of its place. -/
theorem of_reader_eq_ok {output : SaplingOutput} {keys : List AccountKey} {place : OutputPlace}
    {note : OpenedNote} (h : reader output keys place = .ok (some note)) :
    note.value ≠ .nan ∧ ∃ key ∈ keys, note.account = key.account ∧
      note.nullifier = Blake2s.hash nullifierPurpose
        (nullifierInput key.viewingKey output.commitment place.position) := by
  unfold reader at h
  split at h
  · cases h
  · split at h
    · cases h
    · rename_i key value hopening
      obtain ⟨nf, hnf, h⟩ := Except.bind_eq_ok.1 h
      cases h
      exact ⟨nofun, key, mem_of_firstOpening hopening, rfl, nullifier_eq_ok hnf⟩

end Note

/-- A note found for one of the keys, with the nullifier of its position, and none of its numbers
missing. -/
structure FoundNote.Derived (keys : List AccountKey) (n : FoundNote) : Prop where
  key : ∃ key ∈ keys, n.account = key.account ∧
    n.nullifier = Blake2s.hash Note.nullifierPurpose
      (Note.nullifierInput key.viewingKey n.commitment n.position)
  value : n.value ≠ .nan
  txIndex : n.txIndex ≠ .nan
  outputIndex : n.outputIndex ≠ .nan

namespace Scan

/-! ## Findings -/

/-- What is found while a scan goes over `count` outputs, before which there were `start`: notes at
different ones of their positions, in order. -/
structure Located (keys : List AccountKey) (start count : Nat) (found : Findings) : Prop where
  position : found.position = .counted (start + count)
  places : ∃ is : List Nat, is.Sublist (List.range' start count) ∧
    found.notes.map (·.position) = is.map .counted
  derived : ∀ n ∈ found.notes, n.Derived keys

variable {keys : List AccountKey} {start count : Nat} {before after : Findings} {height : Number}

/-- Each note stands at the position of an output that was seen. -/
theorem Located.place (h : Located keys start count before) {n : FoundNote}
    (hn : n ∈ before.notes) : ∃ i, start ≤ i ∧ i < start + count ∧ n.position = .counted i := by
  obtain ⟨is, hsub, hplaces⟩ := h.places
  have hmem : n.position ∈ is.map Number.counted := by
    rw [← hplaces]
    exact List.mem_map_of_mem hn
  obtain ⟨i, hi, hposition⟩ := List.mem_map.1 hmem
  obtain ⟨hle, hlt⟩ := List.mem_range'_1.1 (hsub.subset hi)
  exact ⟨i, hle, hlt, hposition.symm⟩

/-- As long as the outputs can be counted, no position is there twice. -/
theorem Located.nodup (h : Located keys start count before)
    (hlimit : start + count ≤ Number.exactLimit) : (before.notes.map (·.position)).Nodup := by
  obtain ⟨is, hsub, hplaces⟩ := h.places
  have hnodup : is.Nodup := hsub.nodup List.nodup_range'
  rw [hplaces, List.Nodup, List.pairwise_map]
  refine hnodup.imp_of_mem fun hi hj hne hsame => hne ?_
  have hi := List.mem_range'_1.1 (hsub.subset hi)
  have hj := List.mem_range'_1.1 (hsub.subset hj)
  exact Number.counted_inj (by omega) (by omega) hsame

theorem Located.reveals (h : Located keys start count before) (isUnspent : Bytes → Bool)
    (txid : Bytes) (nfs : List Bytes) :
    Located keys start count (nfs.foldl (reveal isUnspent txid) before) := by
  constructor
  · rw [position_reveals, h.position]
  · rw [notes_reveals]
    exact h.places
  · rw [notes_reveals]
    exact h.derived

theorem Located.receive {tx : Tx} {i : Nat} {output : SaplingOutput}
    (h : Located keys start count before) (hindex : tx.index ≠ .nan)
    (hreceive : receive Note.reader keys height tx before i output = .ok after) :
    Located keys start (count + 1) after := by
  have hposition : after.position = .counted (start + (count + 1)) := by
    rw [position_receive hreceive, h.position, Number.counted_add_one, Nat.add_assoc]
  obtain ⟨is, hsub, hplaces⟩ := h.places
  have hsub' : is.Sublist (List.range' start (count + 1)) := by
    rw [List.range'_1_concat]
    exact hsub.trans (List.sublist_append_left _ _)
  obtain ⟨note, hread, hreceive⟩ := Except.bind_eq_ok.1 hreceive
  cases note with
  | none =>
      cases hreceive
      exact ⟨hposition, ⟨is, hsub', hplaces⟩, h.derived⟩
  | some note =>
      cases hreceive
      refine ⟨hposition, ⟨is ++ [start + count], ?_, ?_⟩, fun n hn => ?_⟩
      · -- the note stands at the position of its output, behind all others
        rw [List.range'_1_concat]
        exact hsub.append (List.Sublist.refl _)
      · rw [List.map_append, hplaces, List.map_append, List.map_singleton, List.map_singleton,
          h.position]
      · rcases List.mem_append.1 hn with hn | hn
        · exact h.derived n hn
        · cases List.mem_singleton.1 hn
          obtain ⟨hvalue, hkey⟩ := Note.of_reader_eq_ok hread
          exact ⟨hkey, hvalue, hindex, (Number.ofNat_ne_nan i).1⟩

theorem Located.receiveAll {tx : Tx} {i : Nat} {outputs : List SaplingOutput}
    (h : Located keys start count before) (hindex : tx.index ≠ .nan)
    (hreceive : receiveAll Note.reader keys height tx before i outputs = .ok after) :
    Located keys start (count + outputs.length) after := by
  induction outputs generalizing before i count with
  | nil =>
      cases hreceive
      exact h
  | cons output outputs ih =>
      obtain ⟨next, hnext, hrest⟩ := Except.bind_eq_ok.1 hreceive
      have hall := ih (h.receive hindex hnext) hrest
      rwa [Nat.add_assoc, Nat.add_comm 1] at hall

theorem Located.takeTxs {isUnspent : Bytes → Bool} {txs : List Tx}
    (h : Located keys start count before) (hindices : ∀ tx ∈ txs, tx.index ≠ .nan)
    (htake : takeTxs isUnspent Note.reader keys height before txs = .ok after) :
    Located keys start (count + (txs.map (·.outputs.length)).foldr (· + ·) 0) after := by
  induction txs generalizing before count with
  | nil =>
      cases htake
      exact h
  | cons tx txs ih =>
      obtain ⟨next, hnext, hrest⟩ := Except.bind_eq_ok.1 htake
      obtain ⟨hindex, hothers⟩ := List.forall_mem_cons.1 hindices
      have hall := ih ((h.reveals isUnspent tx.hash tx.spends).receiveAll hindex hnext) hothers hrest
      rwa [Nat.add_assoc] at hall

/-- What is found in a block that comes after `start` outputs. -/
theorem located_block {isUnspent : Bytes → Bool} {b : Block} {found : ScannedBlock}
    (hindices : ∀ tx ∈ b.txs, tx.index ≠ .nan)
    (h : block isUnspent Note.reader keys (.counted start) b = .ok found) :
    Located keys start b.saplingOutputs ⟨found.treeSize, found.notes, found.spends⟩ := by
  obtain ⟨after, htake, h⟩ := Except.bind_eq_ok.1 h
  obtain ⟨hash, -, h⟩ := Except.bind_eq_ok.1 h
  cases h
  have hstart : Located keys start 0 ⟨.counted start, [], []⟩ :=
    ⟨rfl, ⟨[], List.Sublist.refl [], rfl⟩, fun n hn => by cases hn⟩
  have hall := hstart.takeTxs hindices htake
  rwa [Nat.zero_add] at hall

end Scan
end LightSync
