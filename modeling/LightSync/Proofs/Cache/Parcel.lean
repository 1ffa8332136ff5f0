import LightSync.Cache.FileCache
import LightSync.Proofs.Block.RoundTrip
import LightSync.Proofs.Cache.FileName
import LightSync.Store.Database

/-!
# Blocks that can be stored

A `Parcel` is a block that the caches can store, with its entry and its bytes; it carries the
proof that both could be made, and from it everything that is known of such a block: its height is
a number of 32 bits, its hash has the usual length, its file has a name of its own. A batch holds
one block per height (`FileCache.nodup_onePerHeight`), so parcels of a batch have different keys.
-/

set_option autoImplicit false

namespace LightSync

/-! ## Parcels -/

/-- A block that can be stored, with its entry and its bytes. -/
structure Parcel where
  block : Block
  entry : BlockMeta
  data : Bytes
  ofBlock : BlockMeta.ofBlock block = .ok entry
  encode : block.encode = .ok data

/-- An integer of 32 bits is the key of its row. -/
theorem Number.rowKey_of_word {a : Number} {k : Int} (h : a.toInt? = some k) (h0 : 0 ≤ k)
    (hk : k < wordRange) : a.rowKey = .ok (some k) := by
  have hfits : fitsWord k = true := by
    unfold wordRange at hk
    unfold fitsWord wordBound
    simp
    omega
  rcases toInt?_eq_some.1 h with rfl | ⟨rfl, rfl⟩
  · show (if fitsWord k then _ else _) = _
    rw [if_pos hfits]
  · rfl

theorem Number.toInt?_of_isWord32 {a : Number} (h : a.isWord32 = true) :
    ∃ n : Int, a.toInt? = some n ∧ 0 ≤ n ∧ n < wordRange := by
  obtain ⟨n, hn, hle⟩ := isWord32_iff.1 h
  refine ⟨n, hn, Int.natCast_nonneg n, ?_⟩
  unfold wordRange
  omega

/-- A block that is encoded passed its checks. -/
theorem Block.isWord32_of_encode {b : Block} {data : Bytes} (h : b.encode = .ok data) :
    b.height.isWord32 = true ∧ b.time.isWord32 = true := by
  have hrange := check_eq_ok.1 (encode_eq_ok.1 h).1
  exact ⟨Number.isWord32_iff.2 hrange.height, Number.isWord32_iff.2 hrange.time⟩

theorem Block.length_hash? {b : Block} {hash : Bytes} (h : b.hash? = .ok hash) :
    hash.length = hashLength := by
  unfold hash? at h
  split at h
  · cases h
    assumption
  · split at h
    · cases h
      exact Sha256.length_hash _
    · cases h

/-- What is kept of a block: the facts in the index and the bytes in the file. -/
structure StoredBlock where
  facts : BlockFacts
  data : Bytes
  deriving DecidableEq, Repr

namespace Parcel

/-- The key that the block is stored under. -/
def key (p : Parcel) : Int := p.block.height.truncate

/-- The facts as the index keeps them. -/
def facts (p : Parcel) : BlockFacts := { p.entry.toBlockFacts with time := p.entry.time.kept }

def stored (p : Parcel) : StoredBlock := ⟨p.facts, p.data⟩

/-- The name of the file. -/
def name (p : Parcel) : String := p.entry.fileName

/-- A block with a hash and an encoded form is a parcel's. -/
theorem exists_of_hash {b : Block} {hash data : Bytes} (hhash : b.hash? = .ok hash)
    (hencode : b.encode = .ok data) : ∃ p : Parcel, p.block = b :=
  ⟨⟨b, _, data, Except.bind_eq_ok.2 ⟨hash, hhash, rfl⟩, hencode⟩, rfl⟩

theorem entry_eq (p : Parcel) : ∃ hash, p.block.hash? = .ok hash ∧
    p.entry = {
      height := p.block.height, hash, time := p.block.time,
      saplingOutputs := Number.ofNat p.block.saplingOutputs,
      orchardActions := Number.ofNat p.block.orchardActions } := by
  obtain ⟨hash, hhash, h⟩ := Except.bind_eq_ok.1 p.ofBlock
  exact ⟨hash, hhash, (Except.ok.inj h).symm⟩

theorem height_entry (p : Parcel) : p.entry.height = p.block.height := by
  obtain ⟨hash, -, h⟩ := p.entry_eq
  rw [h]

theorem word_key (p : Parcel) :
    p.block.height.toInt? = some p.key ∧ 0 ≤ p.key ∧ p.key < wordRange := by
  obtain ⟨n, hn, h0, hlt⟩ := Number.toInt?_of_isWord32 (Block.isWord32_of_encode p.encode).1
  have hkey : p.key = n := Number.truncate_of_toInt? hn
  rw [hkey]
  exact ⟨hn, h0, hlt⟩

theorem length_hash (p : Parcel) : p.entry.hash.length = Block.hashLength := by
  obtain ⟨hash, hhash, h⟩ := p.entry_eq
  rw [h]
  exact Block.length_hash? hhash

theorem name_eq (p : Parcel) : p.name = BlockMeta.nameAt p.key p.entry.hash := by
  obtain ⟨hheight, h0, hlt⟩ := p.word_key
  rw [← p.height_entry] at hheight
  exact BlockMeta.fileName_eq hheight
    (Nat.le_of_lt (Nat.lt_of_succ_lt (natAbs_lt_of_nonneg h0 hlt)))

theorem isNameable_entry (p : Parcel) : p.entry.isNameable = true := by
  obtain ⟨hheight, h0, hlt⟩ := p.word_key
  rw [← p.height_entry] at hheight
  exact BlockMeta.isNameable_of_word hheight h0 hlt p.length_hash

theorem name_inj {p q : Parcel} : p.name = q.name ↔ p.key = q.key ∧ p.entry.hash = q.entry.hash := by
  rw [name_eq, name_eq, BlockMeta.nameAt_inj p.word_key.2.1 q.word_key.2.1]

theorem rowKey_height (p : Parcel) : p.entry.height.rowKey = .ok (some p.key) := by
  obtain ⟨hheight, h0, hlt⟩ := p.word_key
  rw [p.height_entry]
  exact Number.rowKey_of_word hheight h0 hlt

theorem kept_ofNat (n : Nat) : (Number.ofNat n).kept = Number.ofNat n := by
  cases h : Number.ofNat n with
  | negZero => exact absurd h (Number.ofNat_ne_nan n).2
  | _ => rfl

/-- Every fact of a parcel can be kept. -/
theorem storedFacts_entry (p : Parcel) :
    FileCache.storedFacts p.entry.toBlockFacts = .ok p.facts := by
  obtain ⟨hash, -, h⟩ := p.entry_eq
  obtain ⟨n, hn, -, -⟩ := Number.toInt?_of_isWord32 (Block.isWord32_of_encode p.encode).2
  have htime : p.block.time ≠ .nan := Number.ne_nan_of_toInt? hn
  unfold FileCache.storedFacts facts
  rw [h]
  refine Except.bind_eq_ok.2 ⟨p.block.time.kept, storedIn_of_ne_nan htime rfl, ?_⟩
  refine Except.bind_eq_ok.2 ⟨Number.ofNat p.block.saplingOutputs, storedIn_of_ne_nan
    (Number.ofNat_ne_nan _).1 (kept_ofNat _).symm, ?_⟩
  refine Except.bind_eq_ok.2 ⟨Number.ofNat p.block.orchardActions, storedIn_of_ne_nan
    (Number.ofNat_ne_nan _).1 (kept_ofNat _).symm, ?_⟩
  rfl

end Parcel

/-! ## One block per height -/

/-- A number as it is compared: the integers among the fractions, and one zero. -/
def Number.place : Number → Number
  | .int n => .fraction n
  | .negZero => .fraction 0
  | a => a

namespace FileCache

theorem sameHeight_iff {a b : Number} : sameHeight a b = true ↔ a.place = b.place := by
  cases a <;> cases b <;> simp [sameHeight, Number.same, Number.place, Number.toRat?]

theorem place_of_toInt? {a : Number} {k : Int} (h : a.toInt? = some k) : a.place = .fraction k := by
  rcases Number.toInt?_eq_some.1 h with rfl | ⟨rfl, rfl⟩
  · rfl
  · rfl

/-- A block takes the place of the one for its height, or a place of its own. -/
theorem places_addToBatch (batch : List Block) (b : Block) :
    (addToBatch batch b).map (fun a => a.height.place) =
      if b.height.place ∈ batch.map (fun a => a.height.place)
        then batch.map (fun a => a.height.place)
        else batch.map (fun a => a.height.place) ++ [b.height.place] := by
  have hany : batch.any (fun a => sameHeight a.height b.height) = true ↔
      b.height.place ∈ batch.map (fun a => a.height.place) := by
    simp only [List.any_eq_true, List.mem_map, sameHeight_iff]
  unfold addToBatch
  by_cases h : b.height.place ∈ batch.map (fun a => a.height.place)
  · rw [if_pos (hany.2 h), if_pos h, List.map_map]
    refine List.map_congr_left fun a _ => ?_
    by_cases hsame : sameHeight a.height b.height = true
    · show (if sameHeight a.height b.height = true then b else a).height.place = _
      rw [if_pos hsame]
      exact (sameHeight_iff.1 hsame).symm
    · show (if sameHeight a.height b.height = true then b else a).height.place = _
      rw [if_neg hsame]
  · rw [if_neg fun hb => h (hany.1 hb), if_neg h, List.map_append]
    rfl

/-- A batch holds only blocks that were given. -/
theorem mem_of_mem_onePerHeight {bs : List Block} {b : Block}
    (h : b ∈ onePerHeight bs) : b ∈ bs := by
  have hstep : ∀ (batch : List Block), b ∈ bs.foldl addToBatch batch →
      b ∈ batch ∨ b ∈ bs := by
    clear h
    induction bs with
    | nil => exact fun _ h => Or.inl h
    | cons a bs ih =>
        intro batch h
        rcases ih _ h with h | h
        · unfold addToBatch at h
          split at h
          · obtain ⟨x, hx, hb⟩ := List.mem_map.1 h
            split at hb
            · exact Or.inr (hb ▸ List.mem_cons_self)
            · exact Or.inl (hb ▸ hx)
          · rcases List.mem_append.1 h with h | h
            · exact Or.inl h
            · exact Or.inr (List.mem_singleton.1 h ▸ List.mem_cons_self)
        · exact Or.inr (List.mem_cons_of_mem a h)
  exact (hstep [] h).resolve_left (List.not_mem_nil)

/-- No two blocks of a batch have one height. -/
theorem nodup_onePerHeight (bs : List Block) :
    ((onePerHeight bs).map fun b => b.height.place).Nodup := by
  -- a fold over the blocks keeps the places distinct from any batch with distinct ones
  have hstep : ∀ (batch : List Block), (batch.map fun b => b.height.place).Nodup →
      ((bs.foldl addToBatch batch).map fun b => b.height.place).Nodup := by
    induction bs with
    | nil => exact fun _ h => h
    | cons b bs ih =>
        intro batch h
        refine ih (addToBatch batch b) ?_
        rw [places_addToBatch]
        split
        · exact h
        · rename_i hnew
          exact List.nodup_append.2 ⟨h, List.pairwise_singleton _ _, fun x hx y hy hxy =>
            hnew (List.mem_singleton.1 hy ▸ hxy ▸ hx)⟩
  exact hstep [] List.nodup_nil

end FileCache

/-- Parcels that a batch begins with have different keys. -/
theorem Parcel.nodup_keys_append {bs rest : List Block} {ps : List Parcel}
    (h : FileCache.onePerHeight bs = ps.map Parcel.block ++ rest) :
    (ps.map Parcel.key).Nodup := by
  have hplaces := FileCache.nodup_onePerHeight bs
  rw [h, List.map_append, List.map_map] at hplaces
  have hps := (List.nodup_append.1 hplaces).1
  refine List.pairwise_map.2 ((List.pairwise_map.1 hps).imp ?_)
  intro p q hne hkey
  have hp := p.word_key.1
  rw [hkey] at hp
  exact hne ((FileCache.place_of_toInt? hp).trans (FileCache.place_of_toInt? q.word_key.1).symm)

/-- Parcels of a batch have different keys. -/
theorem Parcel.nodup_keys {bs : List Block} {ps : List Parcel}
    (h : FileCache.onePerHeight bs = ps.map Parcel.block) : (ps.map Parcel.key).Nodup :=
  nodup_keys_append (h.trans (List.append_nil _).symm)

end LightSync
