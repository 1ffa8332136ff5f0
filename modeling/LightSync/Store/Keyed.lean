/-!
# Rows by key

A table of rows under integer keys, kept in ascending order of the keys, one row per key.
`find?` is the view of a table: `find?_insert` and `find?_filter` say what the two operations do
to it.
-/

set_option autoImplicit false

namespace LightSync

/-- Rows under strictly ascending keys. -/
structure Keyed (β : Type) where
  entries : List (Int × β)
  sorted : entries.Pairwise (fun a b => a.1 < b.1)
  deriving DecidableEq, Repr

namespace Keyed

variable {β : Type}

def empty : Keyed β := ⟨[], List.Pairwise.nil⟩

instance : Inhabited (Keyed β) := ⟨empty⟩

/-! ## Operations -/

/-- The entries with one more, in place of that with the same key if there is one. -/
def insertEntry (key : Int) (row : β) : List (Int × β) → List (Int × β)
  | [] => [(key, row)]
  | e :: rest =>
      if key < e.1 then (key, row) :: e :: rest
      else if key = e.1 then (key, row) :: rest
      else e :: insertEntry key row rest

theorem mem_insertEntry {key : Int} {row : β} {x : Int × β} {l : List (Int × β)}
    (h : x ∈ insertEntry key row l) : x = (key, row) ∨ x ∈ l := by
  induction l with
  | nil => exact Or.inl (List.mem_singleton.1 h)
  | cons e rest ih =>
      rw [insertEntry] at h
      split at h
      · exact List.mem_cons.1 h
      · split at h
        · rcases List.mem_cons.1 h with h | h
          · exact Or.inl h
          · exact Or.inr (List.mem_cons_of_mem _ h)
        · rcases List.mem_cons.1 h with h | h
          · exact Or.inr (h ▸ List.mem_cons_self)
          · exact (ih h).imp id (List.mem_cons_of_mem _)

theorem sorted_insertEntry {key : Int} {row : β} {l : List (Int × β)}
    (h : l.Pairwise (fun a b => a.1 < b.1)) :
    (insertEntry key row l).Pairwise (fun a b => a.1 < b.1) := by
  induction l with
  | nil => exact List.pairwise_singleton _ _
  | cons e rest ih =>
      have he : ∀ x ∈ rest, e.1 < x.1 := (List.pairwise_cons.1 h).1
      have hr := h.of_cons
      rw [insertEntry]
      split
      · rename_i hlt
        refine List.pairwise_cons.2 ⟨fun x hx => ?_, h⟩
        rcases List.mem_cons.1 hx with rfl | hx
        · exact hlt
        · exact Int.lt_trans hlt (he x hx)
      · split
        · rename_i heq
          refine List.pairwise_cons.2 ⟨fun x hx => ?_, hr⟩
          show key < x.1
          rw [heq]
          exact he x hx
        · refine List.pairwise_cons.2 ⟨fun x hx => ?_, ih hr⟩
          rcases mem_insertEntry hx with rfl | hx
          · show e.1 < key
            omega
          · exact he x hx

/-- Puts a row under a key. -/
def insert (t : Keyed β) (key : Int) (row : β) : Keyed β :=
  ⟨insertEntry key row t.entries, sorted_insertEntry t.sorted⟩

/-- The row under a key in a list of entries. -/
def lookup? (key : Int) : List (Int × β) → Option β
  | [] => none
  | e :: rest => if e.1 = key then some e.2 else lookup? key rest

/-- The row under a key. -/
def find? (t : Keyed β) (key : Int) : Option β := lookup? key t.entries

def contains (t : Keyed β) (key : Int) : Bool := (t.find? key).isSome

/-- The rows whose keys satisfy a condition. -/
def filter (t : Keyed β) (p : Int → Bool) : Keyed β :=
  ⟨t.entries.filter (fun e => p e.1), t.sorted.filter _⟩

def keys (t : Keyed β) : List Int := t.entries.map (·.1)

/-- The entry with the lowest key. -/
def first? (t : Keyed β) : Option (Int × β) := t.entries.head?

/-- The entry with the highest key. -/
def last? (t : Keyed β) : Option (Int × β) := t.entries.getLast?

/-- The key of a row that is added without one: one above the highest. -/
def nextKey (t : Keyed β) : Int :=
  match t.last? with
  | some e => e.1 + 1
  | none => 1

/-! ## The view -/

theorem lookup?_insertEntry (key k : Int) (row : β) (l : List (Int × β)) :
    lookup? k (insertEntry key row l) = if k = key then some row else lookup? k l := by
  induction l with
  | nil => simp only [insertEntry, lookup?, eq_comm]
  | cons e rest ih =>
      rw [insertEntry]
      split
      · simp only [lookup?, eq_comm]
      · split
        · rename_i heq
          simp only [lookup?, ← heq]
          by_cases h : k = key
          · simp [h]
          · have h' : ¬ key = k := fun e => h e.symm
            simp [h, h']
        · rename_i hne
          simp only [lookup?, ih]
          by_cases h : e.1 = k
          · have h' : ¬ k = key := fun e' => hne (by rw [← e', h])
            simp [h, h']
          · simp [h]

theorem find?_insert (t : Keyed β) (key k : Int) (row : β) :
    (t.insert key row).find? k = if k = key then some row else t.find? k :=
  lookup?_insertEntry key k row t.entries

theorem lookup?_filter (p : Int → Bool) (k : Int) (l : List (Int × β)) :
    lookup? k (l.filter fun e => p e.1) = if p k then lookup? k l else none := by
  induction l with
  | nil => simp [lookup?]
  | cons e rest ih =>
      by_cases hp : p e.1
      · simp only [List.filter_cons, hp, if_true, lookup?, ih]
        by_cases h : e.1 = k
        · simp [h, h ▸ hp]
        · simp [h]
      · simp only [List.filter_cons, hp, lookup?]
        by_cases h : e.1 = k
        · have : ¬ p k := h ▸ hp
          simp [this, ih]
        · simp [h, ih]

theorem find?_filter (t : Keyed β) (p : Int → Bool) (k : Int) :
    (t.filter p).find? k = if p k then t.find? k else none :=
  lookup?_filter p k t.entries

end Keyed

end LightSync
