import LightSync.Proofs.Note.Derivation
import LightSync.Proofs.Scan.Breach
import LightSync.Proofs.Scan.Detection

/-!
# Where the notes of a wallet lie

The commitments of a chain are counted from its beginning, and what a wallet holds is told by how
many of them there were up to each of its blocks (`Wallet.Charted`): a checkpoint keeps that number,
and a note lies before the number of its block, at the position that its nullifier was derived
from. Adding accounts and cutting leave the chart as it is. A scan stands behind all that the wallet
holds (`Scan.Behind`), so the notes of the next block are at new positions; if no two derivations
have the same hash, then their nullifiers are new as well, and the block is consistent with the
wallet (`Scan.consistent_of_inspect`). Recording it adds one entry to the chart
(`Scan.charted_of_record`).
-/

set_option autoImplicit false

namespace LightSync

/-! ## The strings that are hashed -/

/-- No two of the strings have the same nullifier. -/
def Note.Separates (inputs : List Bytes) : Prop :=
  ∀ x ∈ inputs, ∀ y ∈ inputs,
    Blake2s.hash nullifierPurpose x = Blake2s.hash nullifierPurpose y → x = y

instance (inputs : List Bytes) : Decidable (Note.Separates inputs) :=
  inferInstanceAs (Decidable (∀ x ∈ inputs, ∀ y ∈ inputs, _ → _))

theorem Note.Separates.mono {xs ys : List Bytes} (h : Separates ys) (hsub : xs ⊆ ys) :
    Separates xs := fun x hx y hy => h x (hsub hx) y (hsub hy)

/-- The string that was hashed for the nullifier of a note: the viewing key of its account, its
commitment, and its position. -/
def FoundNote.input (accounts : Keyed Bytes) (n : FoundNote) : Bytes :=
  Note.nullifierInput ((n.account.toInt?.bind accounts.find?).getD []) n.commitment n.position

theorem FoundNote.input_suffix (accounts : Keyed Bytes) (n : FoundNote) :
    Bytes.littleEndian 8 (n.position.wrapped 64) <:+ n.input accounts :=
  Note.nullifierInput_suffix _ _ _

/-- The strings that were hashed for the notes of a block. -/
def ScannedBlock.inputs (accounts : Keyed Bytes) (b : ScannedBlock) : List Bytes :=
  b.notes.map (·.input accounts)

section

variable {w : Wallet} {n : FoundNote}

/-- A note that was found for the keys of a wallet belongs to one of its accounts, whose viewing key
its nullifier was derived with. -/
theorem FoundNote.Derived.of_accountKeys (h : n.Derived w.accountKeys) :
    Wallet.Owns w.accounts n.account ∧
      n.nullifier = Blake2s.hash Note.nullifierPurpose (n.input w.accounts) := by
  obtain ⟨key, hkey, haccount, hnullifier⟩ := h.key
  obtain ⟨e, he, rfl⟩ := List.mem_map.1 hkey
  have hint : n.account.toInt? = some e.1 := congrArg Number.toInt? haccount
  refine ⟨⟨e.1, hint, Keyed.contains_iff.2 ⟨e.2, he⟩⟩, ?_⟩
  rw [hnullifier, input, hint]
  show _ = Blake2s.hash _ (Note.nullifierInput ((w.accounts.find? e.1).getD []) _ _)
  rw [Keyed.find?_of_mem he]
  rfl

theorem FoundNote.Derived.storable (h : n.Derived w.accountKeys) {i : Nat}
    (hposition : n.position = .counted i) : n.Storable := by
  obtain ⟨a, ha, -⟩ := h.of_accountKeys.1
  exact ⟨Number.ne_nan_of_toInt? ha, h.value, hposition ▸ nofun, h.txIndex, h.outputIndex⟩

end

/-! ## Charts -/

namespace Wallet

/-- What a wallet holds, by how many commitments there were up to each of its blocks; the nullifiers
of its notes were derived from strings of the list. -/
structure Charted (inputs : List Bytes) (size : Int → Nat) (w : Wallet) : Prop where
  sizes : ∀ k c, w.checkpoints.find? k = some c → c.treeSize = .counted (size k)
  ascending : ∀ j k, w.checkpoints.contains j = true → w.checkpoints.contains k = true → j ≤ k →
    size j ≤ size k
  places : ∀ n ∈ w.notes, ∃ i < size n.height, n.position = .counted i
  inputs : ∀ n ∈ w.notes, ∃ x ∈ inputs,
    n.nullifier = Blake2s.hash Note.nullifierPurpose x ∧
      Bytes.littleEndian 8 (n.position.wrapped 64) <:+ x

variable {inputs inputs' : List Bytes} {size : Int → Nat} {w w' : Wallet}

theorem charted_empty (size : Int → Nat) : Charted [] size empty where
  sizes k c h := by cases h
  ascending j k hj := by cases hj
  places n hn := by cases hn
  inputs n hn := by cases hn

theorem Charted.mono (h : Charted inputs size w) (hsub : inputs ⊆ inputs') :
    Charted inputs' size w :=
  { h with inputs := fun n hn => (h.inputs n hn).imp fun _ hx => ⟨hsub hx.1, hx.2⟩ }

theorem Charted.addAccount {account : Number} {viewingKey : Bytes} (h : Charted inputs size w)
    (hadd : w.addAccount account viewingKey = .ok w') : Charted inputs size w' := by
  obtain ⟨k, rfl⟩ := addAccount_eq_ok hadd
  exact ⟨h.sizes, h.ascending, h.places, h.inputs⟩

/-- Cutting leaves the chart of what remains. -/
theorem Charted.cut (h : Charted inputs size w) (height : Number) :
    Charted inputs size (w.cut height) := by
  have hnote : ∀ n ∈ (w.cut height).notes, ∃ m ∈ w.notes, n.height = m.height ∧
      n.position = m.position ∧ n.nullifier = m.nullifier := by
    intro n hn
    rw [notes_cut] at hn
    obtain ⟨m, hm, rfl⟩ := List.mem_map.1 hn
    exact ⟨m, (List.mem_filter.1 hm).1, height_unmark height m,
      column_unmark (f := (·.position)) (fun _ _ => rfl) height m,
      column_unmark (f := (·.nullifier)) (fun _ _ => rfl) height m⟩
  constructor
  case sizes =>
    intro k c hc
    rw [checkpoints_cut, Keyed.find?_filter] at hc
    split at hc
    · exact h.sizes k c hc
    · cases hc
  case ascending =>
    exact fun j k hj hk => h.ascending j k (contains_cut.1 hj).2 (contains_cut.1 hk).2
  case places =>
    intro n hn
    obtain ⟨m, hm, hheight, hposition, -⟩ := hnote n hn
    rw [hheight, hposition]
    exact h.places m hm
  case inputs =>
    intro n hn
    obtain ⟨m, hm, -, hposition, hnullifier⟩ := hnote n hn
    rw [hposition, hnullifier]
    exact h.inputs m hm

end Wallet

/-! ## Behind a wallet -/

namespace Scan

open Wallet (Charted)

/-- A scan stands at the tip of the wallet, where there were `m` commitments. -/
structure Behind (size : Int → Nat) (m : Nat) (p : Point) (w : Wallet) : Prop where
  atTip : AtTip p w
  treeSize : p.treeSize = .counted m
  sizes : ∀ k, w.checkpoints.contains k = true → size k ≤ m

section

variable {inputs : List Bytes} {size : Int → Nat} {m : Nat} {w w' : Wallet} {p : Point} {b : Block}
  {found : ScannedBlock}

theorem behind_startOf (activation : Number) (h : Charted inputs size w) :
    ∃ m, Behind size m (startOf activation w) w := by
  have htip := atTip_startOf activation w
  cases ht : w.tip? with
  | none =>
      refine ⟨0, htip, ?_, fun k hk => absurd hk (Wallet.not_contains_of_tip?_eq_none ht k)⟩
      rw [startOf, ht]
      rfl
  | some t =>
      refine ⟨size t.height, htip, ?_, fun k hk =>
        h.ascending k t.height hk (Wallet.contains_of_tip? ht) (Wallet.le_of_tip? ht hk)⟩
      rw [startOf, ht]
      obtain ⟨e, he, rfl⟩ := Option.map_eq_some_iff.1 ht
      exact h.sizes e.1 e.2 (Keyed.find?_of_mem (List.mem_of_getLast? he))

/-- What a scan with the viewing keys of the wallet finds in the next block. -/
theorem located_of_inspect (hbehind : Behind size m p w) (hb : b.InRange)
    (hinspect : inspect Note.reader w.accountKeys w p b = .ok found) :
    Located w.accountKeys m b.saplingOutputs ⟨found.treeSize, found.notes, found.spends⟩ := by
  have hblock := (inspect_eq_ok.1 hinspect).2
  rw [hbehind.treeSize] at hblock
  refine located_block (fun tx htx => ?_) hblock
  obtain ⟨n, hn, -⟩ := hb.indices tx htx
  exact Number.ne_nan_of_toInt? hn

theorem storable_of_inspect (hbehind : Behind size m p w) (hword : b.HasWordHeight)
    (hb : b.InRange) (hinspect : inspect Note.reader w.accountKeys w p b = .ok found) :
    found.Storable := by
  have hlocated := located_of_inspect hbehind hb hinspect
  obtain ⟨k, hk, hlt⟩ := hword
  have hblock := (inspect_eq_ok.1 hinspect).2
  have hheight := (identity_of_block hblock).1
  have htime : found.time = b.time := by
    obtain ⟨after, -, hblock⟩ := Except.bind_eq_ok.1 hblock
    obtain ⟨hash, -, hblock⟩ := Except.bind_eq_ok.1 hblock
    cases hblock
    rfl
  constructor
  case height =>
    rw [hheight, hk]
    exact Option.isSome_iff_exists.2
      ⟨k, Number.toSafeInt?_eq_some.2 ⟨rfl, natAbs_le_maxSafe_of_word hlt⟩⟩
  case time =>
    obtain ⟨t, ht, -⟩ := hb.time
    rw [htime]
    exact Number.ne_nan_of_toInt? ht
  case treeSize =>
    have hposition : found.treeSize = _ := hlocated.position
    rw [hposition]
    exact nofun
  case notes =>
    intro n hn
    obtain ⟨i, -, -, hposition⟩ := hlocated.place hn
    exact (hlocated.derived n hn).storable hposition

/-! ### Consistency -/

/-- The notes of the wallet lie before where the scan stands. -/
theorem Behind.place (hbehind : Behind size m p w) (hcoherent : w.Coherent)
    (hcharted : Charted inputs size w) {x : WalletNote} (hx : x ∈ w.notes) :
    ∃ i < m, x.position = .counted i := by
  obtain ⟨i, hi, hplace⟩ := hcharted.places x hx
  exact ⟨i, Nat.lt_of_lt_of_le hi (hbehind.sizes _ (hcoherent.heights x hx)), hplace⟩

/-- As long as the outputs can be counted, a note that is found behind them is at another
position. -/
theorem Behind.position_ne (hbehind : Behind size m p w) (hcoherent : w.Coherent)
    (hcharted : Charted inputs size w) {keys : List AccountKey} {count : Nat} {findings : Findings}
    (hlocated : Located keys m count findings) (hlimit : m + count ≤ Number.exactLimit)
    {x : WalletNote} (hx : x ∈ w.notes) {n : FoundNote} (hn : n ∈ findings.notes) :
    x.position ≠ n.position := by
  obtain ⟨i, hi, hplace⟩ := hbehind.place hcoherent hcharted hx
  obtain ⟨j, hj, hlt, hplace'⟩ := hlocated.place hn
  intro hsame
  rw [hplace, hplace'] at hsame
  have := Number.counted_inj (by omega) (by omega) hsame
  omega

/-- If two notes of different positions would have different nullifiers, then the nullifiers of
notes at different positions are different. -/
theorem nodup_nullifiers {notes : List FoundNote} (hplaces : (notes.map (·.position)).Nodup)
    (h : ∀ n ∈ notes, ∀ n' ∈ notes, n.nullifier = n'.nullifier → n.position = n'.position) :
    (notes.map (·.nullifier)).Nodup := by
  rw [List.Nodup, List.pairwise_map] at hplaces ⊢
  exact hplaces.imp_of_mem fun hn hn' hother hsame => hother (h _ hn _ hn' hsame)

/-- **What a scan finds in the next block is consistent with the wallet**, as long as the
commitments can be counted and no two derivations of nullifiers have the same hash. -/
theorem consistent_of_inspect (hcoherent : w.Coherent) (hcharted : Charted inputs size w)
    (hbehind : Behind size m p w) (hword : b.HasWordHeight) (hb : b.InRange)
    (hinspect : inspect Note.reader w.accountKeys w p b = .ok found)
    (hsize : found.treeSize < .int Number.exactLimit)
    (hseparate : Note.Separates (inputs ++ found.inputs w.accounts)) : w.Consistent found := by
  obtain ⟨hcheck, hblock⟩ := inspect_eq_ok.1 hinspect
  have hlocated := located_of_inspect hbehind hb hinspect
  have hmatched := matched_block hblock
  have hposition : found.treeSize = .counted (m + b.saplingOutputs) := hlocated.position
  have hlimit : m + b.saplingOutputs ≤ Number.exactLimit := by
    rw [hposition, Number.counted, Number.int_lt_int] at hsize
    omega
  have hinput : ∀ n ∈ found.notes, n.input w.accounts ∈ inputs ++ found.inputs w.accounts :=
    fun n hn => List.mem_append_right _ (List.mem_map_of_mem hn)
  have hnullifier : ∀ n ∈ found.notes,
      n.nullifier = Blake2s.hash Note.nullifierPurpose (n.input w.accounts) :=
    fun n hn => (hlocated.derived n hn).of_accountKeys.2
  have hapart : ∀ x ∈ w.notes, ∀ n ∈ found.notes, x.position ≠ n.position :=
    fun x hx n hn => hbehind.position_ne hcoherent hcharted hlocated hlimit hx hn
  constructor
  case follows =>
    intro t ht
    obtain ⟨k, hk, hlt⟩ := hword
    have hheight := (identity_of_block hblock).1
    have htoInt : found.height.toInt? = some (k : Int) := by rw [hheight, hk]; rfl
    have hfollows := (Wallet.checkHeight_eq_ok htoInt hcoherent.sound.safe).1
      (hbehind.atTip.checkHeight hcheck hheight) t ht
    rw [htoInt, hfollows]
  case owners => exact fun n hn => (hlocated.derived n hn).of_accountKeys.1
  case positions =>
    have hkept : found.notes.map (·.position.kept) = found.notes.map (·.position) := by
      refine List.map_congr_left fun n hn => ?_
      obtain ⟨i, -, -, hplace⟩ := hlocated.place hn
      rw [hplace, Number.kept_counted]
    rw [hkept]
    refine ⟨hlocated.nodup hlimit, fun a ha hold => ?_⟩
    obtain ⟨n, hn, rfl⟩ := List.mem_map.1 ha
    obtain ⟨x, hx, hsame⟩ := List.mem_map.1 hold
    exact hapart x hx n hn hsame
  case nullifiers =>
    refine ⟨nodup_nullifiers (hlocated.nodup hlimit) fun n hn n' hn' hsame => ?_,
      fun a ha hold => ?_⟩
    · -- the same string was hashed for both
      rw [hnullifier n hn, hnullifier n' hn'] at hsame
      have hinput' := hseparate _ (hinput n hn) _ (hinput n' hn') hsame
      obtain ⟨i, -, -, hplace⟩ := hlocated.place hn
      obtain ⟨j, -, -, hplace'⟩ := hlocated.place hn'
      exact Note.position_eq_of_suffix hplace hplace' (n.input_suffix w.accounts)
        (hinput' ▸ n'.input_suffix w.accounts)
    · obtain ⟨n, hn, rfl⟩ := List.mem_map.1 ha
      obtain ⟨x, hx, hsame⟩ := List.mem_map.1 hold
      obtain ⟨y, hy, hhash, hend⟩ := hcharted.inputs x hx
      have hsame : x.nullifier = n.nullifier := hsame
      rw [hhash, hnullifier n hn] at hsame
      have hinput' := hseparate _ (List.mem_append_left _ hy) _ (hinput n hn) hsame
      obtain ⟨i, -, hplace⟩ := hbehind.place hcoherent hcharted hx
      obtain ⟨j, -, -, hplace'⟩ := hlocated.place hn
      exact hapart x hx n hn (Note.position_eq_of_suffix hplace hplace' hend
        (hinput' ▸ n.input_suffix w.accounts))
  case spends => exact hmatched.nodup
  case unspent => exact hmatched.known

/-! ### Recording -/

/-- A block that is recorded is one more entry of the chart, and the scan stands behind it. -/
theorem charted_of_record (hcoherent : w.Coherent) (hcharted : Charted inputs size w)
    (hbehind : Behind size m p w) (hword : b.HasWordHeight) (hb : b.InRange)
    (hinspect : inspect Note.reader w.accountKeys w p b = .ok found)
    (hrecord : w.record found = .ok w') :
    ∃ size', Charted (inputs ++ found.inputs w.accounts) size' w' ∧
      Behind size' (m + b.saplingOutputs) (p.advance found) w' := by
  have hlocated := located_of_inspect hbehind hb hinspect
  have hposition : found.treeSize = .counted (m + b.saplingOutputs) := hlocated.position
  have htip : AtTip (p.advance found) w' :=
    atTip_of_take hword (take_eq_ok.2 ⟨found, hinspect, hrecord, rfl⟩)
  obtain ⟨k, hk, hlt⟩ := hword
  have hheight : found.height.toInt? = some (k : Int) := by
    rw [(identity_of_block (inspect_eq_ok.1 hinspect).2).1, hk]
    rfl
  have hrec := Wallet.recorded_of_record hheight hrecord
  have hbelow : ∀ j, w.checkpoints.contains j = true → j < k :=
    fun _ hj => hrec.below hcoherent hheight (natAbs_le_maxSafe_of_word hlt) hj
  let size' : Int → Nat := fun j => if j = k then m + b.saplingOutputs else size j
  have hnew : size' k = m + b.saplingOutputs := if_pos rfl
  have hold : ∀ j, w.checkpoints.contains j = true → size' j = size j :=
    fun j hj => if_neg (Int.ne_of_lt (hbelow j hj))
  have hle : ∀ j, w'.checkpoints.contains j = true → size' j ≤ m + b.saplingOutputs := by
    intro j hj
    rcases hrec.contains_iff.1 hj with rfl | hj
    · exact Nat.le_of_eq hnew
    · rw [hold j hj]
      exact Nat.le_trans (hbehind.sizes j hj) (Nat.le_add_right _ _)
  refine ⟨size', ?_, htip, hposition, hle⟩
  constructor
  case sizes =>
    intro j c hc
    rw [hrec.checkpoints, Keyed.find?_insert] at hc
    split at hc
    · rename_i hj
      cases hc
      subst hj
      rw [hnew, ← hposition]
      show found.treeSize.kept = _
      rw [hposition, Number.kept_counted]
    · rw [hold j (Option.isSome_iff_exists.2 ⟨c, hc⟩)]
      exact hcharted.sizes j c hc
  case ascending =>
    intro i j hi hj hij
    rcases hrec.contains_iff.1 hj with rfl | hj
    · rw [hnew]
      exact hle i hi
    · -- nothing below an old block is new
      have hi : w.checkpoints.contains i = true := (hrec.contains_iff.1 hi).resolve_left fun h =>
        Int.not_lt.2 hij (h ▸ hbelow j hj)
      rw [hold i hi, hold j hj]
      exact hcharted.ascending i j hi hj hij
  case places =>
    intro n hn
    obtain ⟨x, rfl, hx | ⟨f, hf, id, rfl⟩⟩ := hrec.exists_of_mem hn
    · show ∃ i < size' x.height, x.position = .counted i
      rw [hold _ (hcoherent.heights x hx)]
      exact hcharted.places x hx
    · obtain ⟨i, -, hi, hplace⟩ := hlocated.place hf
      refine ⟨i, Nat.lt_of_lt_of_eq hi hnew.symm, ?_⟩
      show f.position.kept = _
      rw [hplace, Number.kept_counted]
  case inputs =>
    intro n hn
    obtain ⟨x, rfl, hx | ⟨f, hf, id, rfl⟩⟩ := hrec.exists_of_mem hn
    · obtain ⟨y, hy, hx⟩ := hcharted.inputs x hx
      exact ⟨y, List.mem_append_left _ hy, hx⟩
    · obtain ⟨i, -, -, hplace⟩ := hlocated.place hf
      refine ⟨f.input w.accounts, List.mem_append_right _ (List.mem_map_of_mem hf),
        (hlocated.derived f hf).of_accountKeys.2, ?_⟩
      show Bytes.littleEndian 8 (f.position.kept.wrapped 64) <:+ _
      rw [hplace, Number.kept_counted, ← hplace]
      exact f.input_suffix w.accounts

end

end Scan
end LightSync
