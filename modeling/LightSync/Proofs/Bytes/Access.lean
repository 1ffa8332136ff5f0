import LightSync.Bytes.Buffer
import LightSync.Proofs.Number.Between

/-!
# Accesses to a buffer

An offset may be any number; an access begins at the place that is left when it is cut off
(`position?_eq`). The place behind it is that of the next offset, which is rounded and may lie one
further (`exists_next`). Either way the accesses from both stay among the bytes that a piece from
the offset on touches, if only in part (`touches_floor`, `touches_next`), and inside of the buffer
if that piece fits (`next_add_le`). A store changes the bytes of its piece (`store_eq`), and a load
depends on those that it reads (`load_of_bytes`).
-/

set_option autoImplicit false

namespace LightSync
namespace Buffer

/-- The byte at place `i` is one of the `length` bytes from `start` on, if only in part. If `start`
is whole, these are the places from it up to `start + length`. -/
def Touches (start : Rat) (length i : Nat) : Prop := start < i + 1 ∧ (i : Rat) < start + length

/-! ## Places -/

section

variable {offset : Number} {start : Rat} {next : Nat}

theorem position?_eq (hoffset : offset.toRat? = some start) (hstart : 0 ≤ start)
    (hsafe : ⌊start⌋₊ ≤ Number.maxSafe) : position? offset = some ⌊start⌋₊ := by
  have hcut := Number.truncate_of_toRat? hoffset hstart
  cases offset with
  | infinite s => cases hoffset
  | _ => simp [position?, hcut, hsafe]

/-- The place behind the one that an offset denotes. -/
theorem exists_next (hoffset : offset.toRat? = some start) (hstart : 0 ≤ start)
    (hsafe : start + 1 ≤ Number.maxSafe) :
    ∃ next, position? (offset + 1) = some next ∧ ⌊start⌋₊ < next ∧ next ≤ ⌈start⌉₊ + 1 := by
  have hlimit : start + 1 < Number.exactLimit := lt_of_le_of_lt hsafe (by decide)
  obtain ⟨y, hy, hlow, hhigh⟩ := Number.exists_toRat?_add_one hoffset hstart hlimit
  have hfirst : ⌊start⌋₊ + 1 ≤ ⌊y⌋₊ := Nat.le_floor (by exact_mod_cast hlow)
  have hlast : ⌊y⌋₊ ≤ ⌈start⌉₊ + 1 := Nat.floor_le_of_le (by exact_mod_cast hhigh)
  have hpos : 0 ≤ y := le_trans (by positivity) hlow
  have hbehind : ⌈start⌉₊ + 1 ≤ Number.maxSafe := by
    rw [← Nat.ceil_add_one hstart]
    exact Nat.ceil_le.2 hsafe
  exact ⟨⌊y⌋₊, position?_eq hy hpos (Nat.le_trans hlast hbehind), hfirst, hlast⟩

-- behind the greatest number below one, the sum is rounded up to two
example : position? (.fraction (9007199254740991 / 9007199254740992)) = some 0 ∧
    position? (.fraction (9007199254740991 / 9007199254740992) + 1) = some 2 := by
  decide +kernel

theorem touches_floor (hstart : 0 ≤ start) {length : Nat} (hlength : 1 ≤ length) :
    Touches start length ⌊start⌋₊ := by
  have hone : (1 : Rat) ≤ length := by exact_mod_cast hlength
  exact ⟨Nat.lt_floor_add_one start, by linarith [Nat.floor_le hstart]⟩

/-- The bytes from the next place on are among those from the offset on. -/
theorem touches_next (hstart : 0 ≤ start) (hlow : ⌊start⌋₊ < next) (hhigh : next ≤ ⌈start⌉₊ + 1)
    {length i : Nat} (hi : next ≤ i) (hi' : i + 1 < next + length) : Touches start length i := by
  have hbehind : (⌊start⌋₊ + 1 : Rat) ≤ i := by exact_mod_cast Nat.le_trans hlow hi
  have hbefore : (i + 1 : Rat) ≤ ⌈start⌉₊ + length := by
    have : i + 1 ≤ ⌈start⌉₊ + length := by omega
    exact_mod_cast this
  exact ⟨by linarith [Nat.lt_floor_add_one start], by linarith [Nat.ceil_lt_add_one hstart]⟩

/-- They end inside of the buffer. -/
theorem next_add_le (hstart : 0 ≤ start) (hhigh : next ≤ ⌈start⌉₊ + 1) {size length : Nat}
    (hfits : start + (length + 1 : Nat) ≤ size) : next + length ≤ size := by
  have hceil : ⌈start⌉₊ + (length + 1) ≤ size := by
    rw [← Nat.ceil_add_natCast hstart]
    exact Nat.ceil_le.2 hfits
  omega

end

/-! ## Overwriting -/

section

variable {bs piece : Bytes} {n i : Nat}

theorem getElem?_overwrite_inside (h : n + piece.length ≤ bs.length) (hi : i < piece.length) :
    (overwrite bs n piece)[n + i]? = piece[i]? := by
  have hn : (bs.take n).length = n := by
    rw [List.length_take]
    omega
  rw [overwrite, List.append_assoc, List.getElem?_append_right (by omega), hn,
    Nat.add_sub_cancel_left, List.getElem?_append_left hi]

theorem getElem?_overwrite_outside (h : n + piece.length ≤ bs.length)
    (hi : i < n ∨ n + piece.length ≤ i) : (overwrite bs n piece)[i]? = bs[i]? := by
  have hn : (bs.take n).length = n := by
    rw [List.length_take]
    omega
  rw [overwrite, List.append_assoc]
  rcases hi with hi | hi
  · rw [List.getElem?_append_left (by omega), List.getElem?_take_of_lt hi]
  · rw [List.getElem?_append_right (by omega), List.getElem?_append_right (by omega), hn,
      List.getElem?_drop]
    congr 1
    omega

end

/-! ## Stores and loads -/

section

variable {bs piece : Bytes} {offset : Number} {n : Nat}

theorem locate_eq_ok {size length : Nat} :
    locate size offset length = .ok n ↔ position? offset = some n ∧ n + length ≤ size := by
  unfold locate
  split
  · rename_i hnone
    simp [hnone]
  · rename_i place hplace
    rw [hplace, Option.some_inj]
    split
    · rename_i hfits
      exact ⟨fun h => Except.ok.inj h ▸ ⟨rfl, hfits⟩, fun h => congrArg Except.ok h.1⟩
    · rename_i hfits
      exact ⟨nofun, fun h => absurd (h.1 ▸ h.2) hfits⟩

theorem store_eq (hplace : position? offset = some n) (hfits : n + piece.length ≤ bs.length) :
    store offset piece bs = .ok () (overwrite bs n piece) := by
  rw [store, locate_eq_ok.2 ⟨hplace, hfits⟩]

theorem load_eq_ok {length : Nat} : load bs offset length = .ok n ↔
    ∃ place, position? offset = some place ∧ place + length ≤ bs.length ∧
      n = Bytes.value ((bs.drop place).take length) := by
  unfold load
  cases hlocate : locate bs.length offset length with
  | error e =>
      refine iff_of_false nofun ?_
      rintro ⟨place, hplace, hfits, -⟩
      rw [locate_eq_ok.2 ⟨hplace, hfits⟩] at hlocate
      cases hlocate
  | ok place =>
      obtain ⟨hplace, hfits⟩ := locate_eq_ok.1 hlocate
      constructor
      · intro h
        exact ⟨place, hplace, hfits, (Except.ok.inj h).symm⟩
      · rintro ⟨place', hplace', -, rfl⟩
        rw [Option.some.inj (hplace.symm.trans hplace')]

/-- What is read has as many bytes as were asked for. -/
theorem load_lt {width : Nat} (h : load bs offset width = .ok n) : n < Bytes.range width := by
  obtain ⟨place, -, hfits, rfl⟩ := load_eq_ok.1 h
  have hlength : ((bs.drop place).take width).length = width := by
    rw [List.length_take, List.length_drop]
    omega
  have hlt := Bytes.value_lt ((bs.drop place).take width)
  rwa [hlength] at hlt

/-- The bytes from a place on are read as the number that they are the form of. -/
theorem load_of_bytes (hplace : position? offset = some n) (hne : piece ≠ [])
    (hbytes : ∀ i < piece.length, bs[n + i]? = piece[i]?) :
    load bs offset piece.length = .ok (Bytes.value piece) := by
  have hpos : 0 < piece.length := List.length_pos_iff.2 hne
  have hfits : n + piece.length ≤ bs.length := by
    have hlast := hbytes (piece.length - 1) (by omega)
    rw [List.getElem?_eq_getElem (show piece.length - 1 < piece.length by omega)] at hlast
    obtain ⟨hlt, -⟩ := List.getElem?_eq_some_iff.1 hlast
    omega
  refine load_eq_ok.2 ⟨n, hplace, hfits, congrArg Bytes.value ?_⟩
  apply List.ext_getElem?
  intro i
  rcases Nat.lt_or_ge i piece.length with hi | hi
  · rw [List.getElem?_take_of_lt hi, List.getElem?_drop, hbytes i hi]
  · rw [List.getElem?_eq_none hi, List.getElem?_eq_none]
    rw [List.length_take]
    omega

end

end Buffer
end LightSync
