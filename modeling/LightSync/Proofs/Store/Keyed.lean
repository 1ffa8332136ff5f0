import LightSync.Store.Keyed

/-!
# Tables and their views

A table is known by its rows under each key (`ext_find?`), so what is done to it can be followed
on the view: rows put in one after another (`find?_insertAll`), a function applied to every row
(`find?_map`), keys dropped. The last section is about tables that grow at their upper end.
-/

set_option autoImplicit false

namespace LightSync
namespace Keyed

variable {β γ : Type}

theorem ext {t u : Keyed β} (h : t.entries = u.entries) : t = u := by
  cases t
  cases u
  cases h
  rfl

/-! ## The view determines the table -/

theorem mem_of_lookup? {k : Int} {row : β} {l : List (Int × β)} (h : lookup? k l = some row) :
    (k, row) ∈ l := by
  induction l with
  | nil => cases h
  | cons e rest ih =>
      rw [lookup?] at h
      split at h
      · rename_i hkey
        cases h
        exact List.mem_cons.2 (Or.inl (Prod.ext hkey.symm rfl))
      · exact List.mem_cons_of_mem _ (ih h)

theorem lookup?_of_mem {k : Int} {row : β} {l : List (Int × β)}
    (hsorted : l.Pairwise fun a b => a.1 < b.1) (h : (k, row) ∈ l) : lookup? k l = some row := by
  induction l with
  | nil => cases h
  | cons e rest ih =>
      obtain ⟨hhead, htail⟩ := List.pairwise_cons.1 hsorted
      rw [lookup?]
      rcases List.mem_cons.1 h with rfl | h
      · exact if_pos rfl
      · have hlt : e.1 < k := hhead _ h
        rw [if_neg (Int.ne_of_lt hlt)]
        exact ih htail h

theorem mem_entries_iff {t : Keyed β} {k : Int} {row : β} :
    (k, row) ∈ t.entries ↔ t.find? k = some row :=
  ⟨lookup?_of_mem t.sorted, mem_of_lookup?⟩

theorem find?_of_mem {t : Keyed β} {e : Int × β} (h : e ∈ t.entries) : t.find? e.1 = some e.2 :=
  mem_entries_iff.1 h

/-- Two tables with the same rows under every key are one. -/
theorem ext_find? {t u : Keyed β} (h : ∀ k, t.find? k = u.find? k) : t = u := by
  have hnodup (t : Keyed β) : t.entries.Nodup :=
    t.sorted.imp fun {a b} hlt (heq : a = b) => Int.lt_irrefl b.1 (heq ▸ hlt)
  have hmem : ∀ e, e ∈ t.entries ↔ e ∈ u.entries := by
    intro e
    rw [mem_entries_iff, mem_entries_iff, h]
  have hperm := (List.perm_ext_iff_of_nodup (hnodup t) (hnodup u)).2 hmem
  refine ext (hperm.eq_of_pairwise (fun a b _ _ hab hba => ?_) t.sorted u.sorted)
  exact absurd (Int.lt_trans hab hba) (Int.lt_irrefl _)

/-! ## Keys -/

theorem contains_iff {t : Keyed β} {k : Int} :
    t.contains k = true ↔ ∃ row, (k, row) ∈ t.entries := by
  simp only [contains, Option.isSome_iff_exists, mem_entries_iff]

theorem contains_insert {t : Keyed β} {key k : Int} {row : β} :
    (t.insert key row).contains k = true ↔ k = key ∨ t.contains k = true := by
  rw [contains, find?_insert]
  by_cases h : k = key
  · simp [h]
  · simp [h, contains]

theorem contains_filter {t : Keyed β} {p : Int → Bool} {k : Int} :
    (t.filter p).contains k = true ↔ p k = true ∧ t.contains k = true := by
  rw [contains, find?_filter]
  by_cases h : p k = true
  · simp [h, contains]
  · simp [h]

/-! ## Many rows -/

/-- Rows put in one after another. -/
def insertAll (t : Keyed β) (rows : List (Int × β)) : Keyed β :=
  rows.foldl (fun t r => t.insert r.1 r.2) t

theorem insertAll_append (t : Keyed β) (rows rows' : List (Int × β)) :
    t.insertAll (rows ++ rows') = (t.insertAll rows).insertAll rows' :=
  List.foldl_append

/-- Of several rows for one key the last counts. -/
theorem find?_insertAll (t : Keyed β) (rows : List (Int × β)) (k : Int) :
    (t.insertAll rows).find? k =
      rows.foldl (fun found r => if k = r.1 then some r.2 else found) (t.find? k) := by
  induction rows generalizing t with
  | nil => rfl
  | cons r rows ih =>
      show ((t.insert r.1 r.2).insertAll rows).find? k = _
      rw [ih, find?_insert]
      rfl

theorem find?_insertAll_of_notMem {t : Keyed β} {rows : List (Int × β)} {k : Int}
    (h : ∀ r ∈ rows, r.1 ≠ k) : (t.insertAll rows).find? k = t.find? k := by
  induction rows generalizing t with
  | nil => rfl
  | cons r rows ih =>
      show ((t.insert r.1 r.2).insertAll rows).find? k = _
      rw [ih fun x hx => h x (List.mem_cons_of_mem r hx), find?_insert,
        if_neg fun hk => h r List.mem_cons_self hk.symm]

/-- A row is found when all rows for its key agree. -/
theorem find?_insertAll_of_mem {t : Keyed β} {rows : List (Int × β)} {r : Int × β} (hr : r ∈ rows)
    (hsame : ∀ x ∈ rows, x.1 = r.1 → x.2 = r.2) : (t.insertAll rows).find? r.1 = some r.2 := by
  induction rows generalizing t with
  | nil => cases hr
  | cons x rows ih =>
      show ((t.insert x.1 x.2).insertAll rows).find? r.1 = _
      by_cases hlater : r ∈ rows
      · exact ih hlater fun y hy => hsame y (List.mem_cons_of_mem x hy)
      · by_cases hany : ∃ y ∈ rows, y.1 = r.1
        · -- a later row for the key is the same one
          obtain ⟨y, hy, hkey⟩ := hany
          have heq : y = r := Prod.ext hkey (hsame y (List.mem_cons_of_mem x hy) hkey)
          exact absurd (heq ▸ hy) hlater
        · have hx : x = r := ((List.mem_cons.1 hr).resolve_right hlater).symm
          rw [find?_insertAll_of_notMem fun y hy hkey => hany ⟨y, hy, hkey⟩, hx, find?_insert,
            if_pos rfl]

/-- What is found was put in or was there before. -/
theorem of_find?_insertAll {t : Keyed β} {rows : List (Int × β)} {k : Int} {row : β}
    (h : (t.insertAll rows).find? k = some row) : (k, row) ∈ rows ∨ t.find? k = some row := by
  induction rows generalizing t with
  | nil => exact Or.inr h
  | cons r rows ih =>
      rcases ih (t := t.insert r.1 r.2) h with hrow | hfound
      · exact Or.inl (List.mem_cons_of_mem r hrow)
      · rw [find?_insert] at hfound
        split at hfound
        · rename_i hk
          cases hfound
          exact Or.inl (hk ▸ List.mem_cons_self)
        · exact Or.inr hfound

/-! ## Rows turned into others -/

/-- The table with a function applied to every row. -/
def map (f : β → γ) (t : Keyed β) : Keyed γ :=
  ⟨t.entries.map fun e => (e.1, f e.2), List.pairwise_map.2 t.sorted⟩

theorem lookup?_map (f : β → γ) (k : Int) (l : List (Int × β)) :
    lookup? k (l.map fun e => (e.1, f e.2)) = (lookup? k l).map f := by
  induction l with
  | nil => rfl
  | cons e rest ih =>
      rw [List.map_cons, lookup?, lookup?, ih]
      split <;> rfl

theorem find?_map (f : β → γ) (t : Keyed β) (k : Int) : (t.map f).find? k = (t.find? k).map f :=
  lookup?_map f k t.entries

theorem map_insert (f : β → γ) (t : Keyed β) (k : Int) (row : β) :
    (t.insert k row).map f = (t.map f).insert k (f row) := by
  refine ext_find? fun j => ?_
  rw [find?_map, find?_insert, find?_insert, find?_map]
  split <;> rfl

theorem map_insertAll (f : β → γ) (t : Keyed β) (rows : List (Int × β)) :
    (t.insertAll rows).map f = (t.map f).insertAll (rows.map fun r => (r.1, f r.2)) := by
  induction rows generalizing t with
  | nil => rfl
  | cons r rows ih =>
      show ((t.insert r.1 r.2).insertAll rows).map f = _
      rw [ih, map_insert]
      rfl

theorem map_filter (f : β → γ) (t : Keyed β) (p : Int → Bool) :
    (t.filter p).map f = (t.map f).filter p := by
  refine ext_find? fun j => ?_
  rw [find?_map, find?_filter, find?_filter, find?_map]
  split <;> rfl

/-! ## Tables with a highest key -/

theorem filter_insertEntry {key : Int} {row : β} {p : Int → Bool} (h : p key = false)
    (l : List (Int × β)) :
    (insertEntry key row l).filter (fun e => p e.1) = l.filter fun e => p e.1 := by
  induction l with
  | nil => simp [insertEntry, h]
  | cons e rest ih =>
      rw [insertEntry]
      split
      · simp [h]
      · split
        · rename_i heq
          simp [h, ← heq]
        · rw [List.filter_cons, List.filter_cons, ih]

/-- A row that is filtered out might as well not have been inserted. -/
theorem filter_insert {t : Keyed β} {key : Int} {row : β} {p : Int → Bool} (h : p key = false) :
    (t.insert key row).filter p = t.filter p :=
  ext (filter_insertEntry h t.entries)

theorem insertEntry_above {key : Int} {row : β} {l : List (Int × β)}
    (h : ∀ e ∈ l, e.1 < key) : insertEntry key row l = l ++ [(key, row)] := by
  induction l with
  | nil => rfl
  | cons e rest ih =>
      have he : e.1 < key := h e List.mem_cons_self
      rw [insertEntry, if_neg (by omega), if_neg (by omega),
        ih fun x hx => h x (List.mem_cons_of_mem _ hx)]
      rfl

/-- Ascending rows above all others go to the end of the table. -/
theorem entries_insertAll_above {t : Keyed β} {rows : List (Int × β)}
    (habove : ∀ e ∈ t.entries, ∀ r ∈ rows, e.1 < r.1)
    (hrows : rows.Pairwise fun r r' => r.1 < r'.1) :
    (t.insertAll rows).entries = t.entries ++ rows := by
  induction rows generalizing t with
  | nil => exact (List.append_nil _).symm
  | cons r rows ih =>
      obtain ⟨hr, hrows⟩ := List.pairwise_cons.1 hrows
      have hentries : (t.insert r.1 r.2).entries = t.entries ++ [r] :=
        insertEntry_above fun e he => habove e he r List.mem_cons_self
      show ((t.insert r.1 r.2).insertAll rows).entries = _
      rw [ih (fun e he x hx => ?_) hrows, hentries, List.append_assoc]
      · rfl
      · rw [hentries] at he
        rcases List.mem_append.1 he with he | he
        · exact habove e he x (List.mem_cons_of_mem r hx)
        · rw [List.mem_singleton.1 he]
          exact hr x hx

theorem last?_insert_above {t : Keyed β} {key : Int} {row : β}
    (h : ∀ e ∈ t.entries, e.1 < key) : (t.insert key row).last? = some (key, row) := by
  show (insertEntry key row t.entries).getLast? = _
  rw [insertEntry_above h, List.getLast?_concat]

/-- No key lies above the highest one. -/
theorem le_of_last? {t : Keyed β} {x y : Int × β} (hx : t.last? = some x) (hy : y ∈ t.entries) :
    y.1 ≤ x.1 := by
  obtain ⟨ys, hys⟩ := List.getLast?_eq_some_iff.1 hx
  have hsorted := t.sorted
  rw [hys] at hy hsorted
  rcases List.mem_append.1 hy with hy | hy
  · exact Int.le_of_lt ((List.pairwise_append.1 hsorted).2.2 y hy x List.mem_cons_self)
  · cases List.mem_singleton.1 hy
    exact Int.le_refl _

end Keyed
end LightSync
