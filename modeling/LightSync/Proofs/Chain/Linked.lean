import LightSync.Proofs.Cache.Tables

/-!
# Linked blocks in a cache

`Linked first bs` says that blocks have consecutive heights from `first` on and that each names the
one before it. Such blocks go into a table in their order, so that a cache hands them out again as
they were put in, above any height that separates them from what the cache held before
(`Linked.blocks_above`).
-/

set_option autoImplicit false

namespace LightSync

/-! ## Parts of a list -/

theorem filter_eq_drop {α : Type} {l : List α} {p : α → Bool} {m : Nat}
    (h : ∀ i a, l[i]? = some a → (p a = true ↔ m ≤ i)) : l.filter p = l.drop m := by
  induction l generalizing m with
  | nil => rw [List.drop_nil, List.filter_nil]
  | cons a l ih =>
      have hhead := h 0 a rfl
      cases m with
      | zero =>
          rw [List.drop_zero]
          refine List.filter_eq_self.2 fun b hb => ?_
          obtain ⟨i, hi, rfl⟩ := List.getElem_of_mem hb
          exact (h i _ (List.getElem?_eq_getElem hi)).2 (Nat.zero_le i)
      | succ m =>
          have hout : p a = false := by
            cases hp : p a with
            | false => rfl
            | true => exact absurd (hhead.1 hp) (Nat.not_succ_le_zero m)
          rw [List.filter_cons_of_neg (by simp [hout]), List.drop_succ_cons]
          exact ih fun i b hb => (h (i + 1) b hb).trans Nat.succ_le_succ_iff

theorem filter_eq_take {α : Type} {l : List α} {p : α → Bool} {m : Nat}
    (h : ∀ i a, l[i]? = some a → (p a = true ↔ i < m)) : l.filter p = l.take m := by
  induction l generalizing m with
  | nil => rw [List.take_nil, List.filter_nil]
  | cons a l ih =>
      have hhead := h 0 a rfl
      cases m with
      | zero =>
          rw [List.take_zero]
          refine List.filter_eq_nil_iff.2 fun b hb => ?_
          obtain ⟨i, hi, rfl⟩ := List.getElem_of_mem hb
          exact fun hp => Nat.not_lt_zero i ((h i _ (List.getElem?_eq_getElem hi)).1 hp)
      | succ m =>
          rw [List.filter_cons_of_pos (hhead.2 (Nat.succ_pos m)), List.take_succ_cons]
          exact congrArg (a :: ·) (ih fun i b hb => (h (i + 1) b hb).trans Nat.succ_lt_succ_iff)

theorem getElem?_of_take {α : Type} {l : List α} {m i : Nat} {a : α}
    (h : (l.take m)[i]? = some a) : l[i]? = some a := by
  rw [List.getElem?_take] at h
  split at h
  · exact h
  · cases h

/-! ## Linked blocks -/

/-- Blocks of consecutive heights from `first` on, each naming the one before it. -/
structure Linked (first : Int) (bs : List Block) : Prop where
  heights : ∀ (i : Nat) (b : Block), bs[i]? = some b → b.height.toInt? = some (first + i)
  links : ∀ (i : Nat) (a b : Block), bs[i]? = some a → bs[i + 1]? = some b →
    ∃ hash, a.hash? = .ok hash ∧ b.parent? = .ok hash

/-- Every block can be encoded, in fewer bytes than the widest count can tell. -/
def Encodable (bs : List Block) : Prop :=
  ∀ b ∈ bs, (∃ data, b.encode = .ok data) ∧ b.size < CompactSize.bound

theorem Encodable.take {bs : List Block} (h : Encodable bs) (m : Nat) : Encodable (bs.take m) :=
  fun b hb => h b (List.mem_of_mem_take hb)

theorem Encodable.drop {bs : List Block} (h : Encodable bs) (m : Nat) : Encodable (bs.drop m) :=
  fun b hb => h b (List.mem_of_mem_drop hb)

theorem Block.length_bytes {b : Block} {data : Bytes} (h : b.encode = .ok data) :
    b.bytes.length = b.size := by
  rw [b.bytes_of_encode h, (encode_eq_ok.1 h).2, b.length_pieces]

namespace Linked

variable {first : Int} {bs : List Block}

theorem keyed_eq (h : Linked first bs) {i : Nat} {b : Block} (hb : bs[i]? = some b) :
    Cache.keyed b = (first + i, b) := by
  rw [Cache.keyed, Number.truncate_of_toInt? (h.heights i b hb)]

/-- The height of a block as it is read back. -/
theorem height_plain (h : Linked first bs) {i : Nat} {b : Block} (hb : bs[i]? = some b) :
    b.plain.height = .int (first + i) :=
  Number.kept_of_toInt? (h.heights i b hb)

/-- The heights of blocks that can be encoded are words. -/
theorem word (h : Linked first bs) (hencodable : Encodable bs) {i : Nat} {b : Block}
    (hb : bs[i]? = some b) : 0 ≤ first + i ∧ first + i < wordRange := by
  obtain ⟨data, hdata⟩ := (hencodable b (List.mem_of_getElem? hb)).1
  obtain ⟨n, hn, hword⟩ := Number.toInt?_of_isWord32 (Block.isWord32_of_encode hdata).1
  rw [h.heights i b hb] at hn
  cases hn
  exact hword

theorem word_first (h : Linked first bs) (hencodable : Encodable bs) {i : Nat}
    (hi : i < bs.length) : 0 ≤ first ∧ first < wordRange := by
  have hpos : 0 < bs.length := Nat.zero_lt_of_lt hi
  simpa using h.word hencodable (List.getElem?_eq_getElem hpos)

/-- Read back, the blocks stand at heights that are words. -/
theorem hasWordHeight (h : Linked first bs) (hencodable : Encodable bs) :
    ∀ b ∈ bs.map Block.plain, b.HasWordHeight := by
  intro b hb
  obtain ⟨a, ha, rfl⟩ := List.mem_map.1 hb
  obtain ⟨i, hi, rfl⟩ := List.getElem_of_mem ha
  have hget := List.getElem?_eq_getElem hi
  obtain ⟨h0, hlt⟩ := h.word hencodable hget
  refine ⟨(first + i).toNat, ?_, by omega⟩
  rw [h.height_plain hget, Int.toNat_of_nonneg h0]

theorem drop (h : Linked first bs) (m : Nat) : Linked (first + m) (bs.drop m) where
  heights i b hb := by
    rw [List.getElem?_drop] at hb
    rw [h.heights _ b hb]
    congr 1
    omega
  links i a b ha hb := by
    rw [List.getElem?_drop] at ha hb
    exact h.links (m + i) a b ha hb

theorem take (h : Linked first bs) (m : Nat) : Linked first (bs.take m) where
  heights i b hb := h.heights i b (getElem?_of_take hb)
  links i a b ha hb := h.links i a b (getElem?_of_take ha) (getElem?_of_take hb)

/-! ### Rows -/

theorem of_mem_rows (h : Linked first bs) {r : Int × Block} (hr : r ∈ bs.map Cache.keyed) :
    ∃ i : Nat, r.1 = first + i ∧ bs[i]? = some r.2 := by
  obtain ⟨b, hb, rfl⟩ := List.mem_map.1 hr
  obtain ⟨i, hi, rfl⟩ := List.getElem_of_mem hb
  have hget := List.getElem?_eq_getElem hi
  exact ⟨i, by rw [h.keyed_eq hget], hget⟩

theorem sorted (h : Linked first bs) :
    (bs.map Cache.keyed).Pairwise fun r r' => r.1 < r'.1 := by
  refine List.pairwise_map.2 (List.pairwise_iff_getElem.2 fun i j hi hj hij => ?_)
  rw [h.keyed_eq (List.getElem?_eq_getElem hi), h.keyed_eq (List.getElem?_eq_getElem hj)]
  show first + (i : Int) < first + j
  omega

/-- **What was put in is handed out.** Above a height that lies below the blocks, but not below
what the cache held before, the cache hands out the blocks. -/
theorem blocks_above {c : Cache} {held : Keyed Block} (h : Linked first bs)
    (hencodable : Encodable bs) {last : Option Number}
    (hheld : ∀ k b, held.find? k = some b → k < first ∧ ¬ last.getD Keyed.beforeAll < .int k)
    (habove : ∀ (i : Nat) b, bs[i]? = some b → last.getD Keyed.beforeAll < .int (first + i))
    (hc : c.Stands (held.insertAll (bs.map Cache.keyed))) :
    c.blocks last none = ⟨bs.map Block.plain, none⟩ := by
  have hentries : (held.insertAll (bs.map Cache.keyed)).entries =
      held.entries ++ bs.map Cache.keyed := by
    refine Keyed.entries_insertAll_above (fun e he r hr => ?_) h.sorted
    obtain ⟨i, hi, -⟩ := h.of_mem_rows hr
    have hlow := (hheld e.1 e.2 (Keyed.find?_of_mem he)).1
    omega
  have hahead : ((held.insertAll (bs.map Cache.keyed)).entries.filter fun e =>
      decide (last.getD Keyed.beforeAll < .int e.1)) = bs.map Cache.keyed := by
    rw [hentries, List.filter_append, List.filter_eq_nil_iff.2, List.nil_append,
      List.filter_eq_self.2]
    · intro r hr
      obtain ⟨i, hi, hb⟩ := h.of_mem_rows hr
      rw [hi]
      exact decide_eq_true (habove i r.2 hb)
    · intro e he
      simpa using (hheld e.1 e.2 (Keyed.find?_of_mem he)).2
  rw [hc.blocks_eq fun k b hb hk => ?_, hahead, List.map_map]
  · rfl
  · -- what lies above is one of the blocks
    rcases Keyed.of_find?_insertAll hb with hrow | hold
    · obtain ⟨i, -, hget⟩ := h.of_mem_rows hrow
      rw [Block.length_bytes (hc.blocks k _ hb).2]
      exact (hencodable b (List.mem_of_getElem? hget)).2
    · exact absurd hk (hheld k b hold).2

end Linked

end LightSync
