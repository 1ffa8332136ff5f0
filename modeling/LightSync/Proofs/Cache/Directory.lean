import LightSync.Cache.Disk

/-!
# Directories

A directory as a map from names to bytes: what is read after a write and a removal, and the names
that there are. A name stands for one file (`Distinct`), and stays so.
-/

set_option autoImplicit false

namespace LightSync
namespace Directory

/-! ## Reading -/

theorem read?_cons (file : String × Bytes) (rest : Directory) (name : String) :
    read? (file :: rest) name = if name = file.1 then some file.2 else read? rest name := by
  unfold read?
  rw [List.lookup_cons]
  by_cases h : name = file.1
  · simp [h]
  · rw [if_neg h, beq_false_of_ne h]

theorem read?_write (d : Directory) (name other : String) (data : Bytes) :
    (d.write name data).read? other = if other = name then some data else d.read? other := by
  induction d with
  | nil => exact read?_cons (name, data) [] other
  | cons file rest ih =>
      rw [write]
      split
      · rename_i hfile
        rw [read?_cons, read?_cons, hfile]
        split <;> rfl
      · rename_i hfile
        rw [read?_cons, read?_cons, ih]
        by_cases hother : other = name
        · have hne : other ≠ file.1 := fun h => hfile (h ▸ hother)
          rw [if_neg hne, if_pos hother, if_pos hother]
        · simp only [hother, if_false]

theorem read?_remove (d : Directory) (name other : String) :
    (d.remove name).read? other = if other = name then none else d.read? other := by
  induction d with
  | nil => exact (ite_self none).symm
  | cons file rest ih =>
      show read? (List.filter _ _) other = _
      rw [List.filter_cons]
      by_cases hfile : file.1 = name
      · rw [if_neg (by simpa using hfile)]
        show (remove rest name).read? other = _
        rw [ih, read?_cons, hfile]
        split <;> rfl
      · rw [if_pos (by simpa using hfile), read?_cons]
        show (if other = file.1 then some file.2 else (remove rest name).read? other) = _
        rw [ih, read?_cons]
        by_cases hother : other = name
        · have hne : other ≠ file.1 := fun h => hfile (h ▸ hother)
          rw [if_neg hne, if_pos hother, if_pos hother]
        · simp only [hother, if_false]

/-- Several files removed one after another. -/
theorem read?_removeAll (d : Directory) (names : List String) (other : String) :
    (names.foldl remove d).read? other = if other ∈ names then none else d.read? other := by
  induction names generalizing d with
  | nil => simp
  | cons name names ih =>
      rw [List.foldl_cons, ih, read?_remove]
      by_cases hname : other = name
      · simp [hname]
      · simp [hname]

/-! ## Names -/

/-- A name stands for one file. -/
def Distinct (d : Directory) : Prop := (d.map (·.1)).Nodup

theorem mem_names_iff {d : Directory} {name : String} :
    name ∈ d.names ↔ (d.read? name).isSome = true := by
  rw [names, List.mem_mergeSort, read?, List.lookup_isSome_iff, List.mem_map]
  constructor
  · rintro ⟨file, hfile, rfl⟩
    exact ⟨file, hfile, beq_self_eq_true _⟩
  · rintro ⟨file, hfile, h⟩
    exact ⟨file, hfile, (eq_of_beq h).symm⟩

theorem names_write_subset {d : Directory} {name : String} {data : Bytes} {other : String}
    (h : other ∈ (d.write name data).map (·.1)) : other = name ∨ other ∈ d.map (·.1) := by
  induction d with
  | nil => exact Or.inl (List.mem_singleton.1 h)
  | cons file rest ih =>
      rw [write] at h
      split at h
      · exact (List.mem_cons.1 h).imp id (List.mem_cons_of_mem _)
      · rcases List.mem_cons.1 h with h | h
        · exact Or.inr (h ▸ List.mem_cons_self)
        · exact (ih h).imp id (List.mem_cons_of_mem _)

theorem Distinct.write {d : Directory} (h : d.Distinct) (name : String) (data : Bytes) :
    (d.write name data).Distinct := by
  induction d with
  | nil => exact List.pairwise_singleton _ _
  | cons file rest ih =>
      obtain ⟨hfile, hrest⟩ := List.nodup_cons.1 h
      rw [Directory.write]
      split
      · rename_i heq
        refine List.nodup_cons.2 ⟨?_, hrest⟩
        rw [← heq]
        exact hfile
      · rename_i hne
        refine List.nodup_cons.2 ⟨fun hmem => ?_, ih hrest⟩
        rcases names_write_subset hmem with heq | hmem
        · exact hne heq
        · exact hfile hmem

theorem Distinct.writePart {d : Directory} (h : d.Distinct) (name : String) (data : Bytes)
    (written : Option Nat) : (d.writePart name data written).Distinct := by
  cases written with
  | none => exact h
  | some n => exact h.write name (data.take n)

theorem Distinct.remove {d : Directory} (h : d.Distinct) (name : String) :
    (d.remove name).Distinct :=
  List.Pairwise.sublist (List.filter_sublist.map _) h

theorem Distinct.removeAll {d : Directory} (h : d.Distinct) (names : List String) :
    (names.foldl Directory.remove d).Distinct := by
  induction names generalizing d with
  | nil => exact h
  | cons name names ih => exact ih (h.remove name)

end Directory
end LightSync
