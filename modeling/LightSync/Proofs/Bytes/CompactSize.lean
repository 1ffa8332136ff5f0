import LightSync.Proofs.Action.Outcome
import LightSync.Proofs.Block.Spelling
import LightSync.Proofs.Bytes.Access

/-!
# Compact sizes in buffers

Writing a natural number in the range of the format is putting its shortest form at an offset
(`write_eq_put`), and reading is telling which form lies at one (`read_of_lies`, `lies_of_read`). A
form that was put lies there whatever becomes of the bytes around it (`exists_put`), so that numbers
come back from buffers (`comesBack_of_fits`). The widest form goes beyond the integers that are all
numbers, so that several counts are read as the same number; none of their forms is shorter than the
one that is written (`length_le_of_form`).
-/

set_option autoImplicit false

namespace LightSync
namespace CompactSize

/-! ## Numbers in range -/

section

variable {value : Number} {n : Nat}

/-- The numbers up to which the forms go are small, so that an integer lies to them as it is. -/
theorem compare_iff (hvalue : value.toInt? = some (n : Int)) :
    (value < 0xfd ↔ n < 0xfd) ∧ (value ≤ 0xffff ↔ n ≤ 0xffff) ∧
      (value ≤ 0xffffffff ↔ n ≤ 0xffffffff) :=
  ⟨(Number.lt_int_of_toInt? hvalue 0xfd).trans Int.ofNat_lt,
    (Number.le_int_of_toInt? hvalue 0xffff).trans Int.ofNat_le,
    (Number.le_int_of_toInt? hvalue 0xffffffff).trans Int.ofNat_le⟩

/-- The length of the form that is written is that of the format. -/
theorem lengthOf_eq (hvalue : value.toInt? = some (n : Int)) : lengthOf value = length n := by
  obtain ⟨hbyte, hword16, hword32⟩ := compare_iff hvalue
  simp only [lengthOf, length, hbyte, hword16, hword32]

end

/-! ## Writing a form -/

/-- Writes a form: its first byte at the offset, and the others at the offset behind it. -/
def put (offset : Number) : Bytes → Action Bytes Number
  | [] => return offset
  | [first] => do
      Buffer.store offset [first]
      return offset + 1
  | first :: payload => do
      Buffer.store offset [first]
      Buffer.store (offset + 1) payload
      return offset + Number.ofNat (payload.length + 1)

/-- Writing a natural number in range is writing its shortest form. -/
theorem write_eq_put {value : Number} {n : Nat} (offset : Number)
    (hvalue : value.toInt? = some (n : Int)) (hn : n < bound) :
    write offset value = put offset (encode n) := by
  obtain ⟨hbyte, hword16, hword32⟩ := compare_iff hvalue
  have hinteger : value.isInteger = true := by rw [Number.isInteger, hvalue]; rfl
  unfold write encode
  by_cases h1 : n < 0xfd
  · have hfits : n < 1 <<< 8 := Nat.lt_trans h1 (by decide)
    rw [if_pos (hbyte.2 h1), if_pos h1, Number.wrapped_of_toInt? hvalue hfits]
    rfl
  rw [if_neg (mt hbyte.1 h1), if_neg h1]
  by_cases h2 : n ≤ 0xffff
  · have hfits : n < 1 <<< 16 := Nat.lt_of_le_of_lt h2 (by decide)
    rw [if_pos (hword16.2 h2), if_pos h2, Number.wrapped_of_toInt? hvalue hfits]
    rfl
  rw [if_neg (mt hword16.1 h2), if_neg h2]
  by_cases h3 : n ≤ 0xffffffff
  · have hfits : n < 1 <<< 32 := Nat.lt_of_le_of_lt h3 (by decide)
    rw [if_pos (hword32.2 h3), if_pos h3, Number.wrapped_of_toInt? hvalue hfits]
    rfl
  · rw [if_neg (mt hword32.1 h3), if_neg h3, if_pos hinteger, Number.wrapped_of_toInt? hvalue hn]
    rfl

/-! ## Reading a form -/

/-- The form lies at the offset: its first byte is read there, and the others from the offset behind
it on. -/
def Lies (bs : Bytes) (offset : Number) : Bytes → Prop
  | [] => False
  | first :: payload => Buffer.load bs offset 1 = .ok first.toNat ∧
      (payload ≠ [] → Buffer.load bs (offset + 1) payload.length = .ok (Bytes.value payload))

section

variable {bs form : Bytes} {offset r out : Number} {n : Nat}

/-- A payload that lies behind a marker is the number that is read there. -/
theorem load_of_lies {first : UInt8} {width : Nat}
    (hlies : Lies bs offset (first :: Bytes.littleEndian (width + 1) n))
    (hn : n < Bytes.range (width + 1)) : Buffer.load bs (offset + 1) (width + 1) = .ok n := by
  have hpayload := hlies.2 (List.cons_ne_nil _ _)
  rwa [Bytes.length_littleEndian, Bytes.value_littleEndian, Nat.mod_eq_of_lt hn] at hpayload

/-- Reading tells the form that lies at an offset. -/
theorem read_of_lies (hlies : Lies bs offset form) (hform : Form n form) :
    read bs offset = .ok (Number.ofNat n, offset + Number.ofNat form.length) := by
  unfold read
  cases hform with
  | byte h =>
      have hlt : n < 256 := Nat.lt_trans h (by decide)
      have hvalue : (UInt8.ofNat n).toNat = n := UInt8.toNat_ofNat_of_lt' hlt
      have hfirst : Buffer.load bs offset 1 = .ok n := hlies.1.trans (congrArg Except.ok hvalue)
      rw [hfirst]
      exact if_pos h
  | word16 h =>
      rw [hlies.1, load_of_lies hlies h]
      rfl
  | word32 h =>
      rw [hlies.1, load_of_lies hlies h]
      rfl
  | word64 h =>
      rw [hlies.1, load_of_lies hlies h]
      rfl

/-- A marker and the payload that is read behind it are a form that lies there. -/
theorem lies_of_load {first : UInt8} {width : Nat}
    (hfirst : Buffer.load bs offset 1 = .ok first.toNat)
    (hpayload : Buffer.load bs (offset + 1) width = .ok n) :
    Lies bs offset (first :: Bytes.littleEndian width n) := by
  refine ⟨hfirst, fun _ => ?_⟩
  rw [Bytes.length_littleEndian, Bytes.value_littleEndian,
    Nat.mod_eq_of_lt (Buffer.load_lt hpayload), hpayload]

/-- What is read is a form that lies at the offset. -/
theorem lies_of_read (h : read bs offset = .ok (r, out)) :
    ∃ n form, Form n form ∧ Lies bs offset form ∧ r = Number.ofNat n ∧
      out = offset + Number.ofNat form.length := by
  unfold read at h
  obtain ⟨first, hfirst, h⟩ := Except.bind_eq_ok.1 h
  have hlt : first < Bytes.range 1 := Buffer.load_lt hfirst
  by_cases h1 : first < 0xfd
  · rw [if_pos h1] at h
    cases h
    have hvalue : (UInt8.ofNat first).toNat = first := UInt8.toNat_ofNat_of_lt' hlt
    exact ⟨first, _, Form.byte h1, ⟨hvalue.symm ▸ hfirst, nofun⟩, rfl, rfl⟩
  rw [if_neg h1] at h
  by_cases h2 : first = 0xfd
  · rw [if_pos h2] at h
    obtain ⟨n, hpayload, h⟩ := Except.bind_eq_ok.1 h
    cases h
    rw [h2] at hfirst
    exact ⟨n, _, Form.word16 (Buffer.load_lt hpayload), lies_of_load hfirst hpayload, rfl, rfl⟩
  rw [if_neg h2] at h
  by_cases h3 : first = 0xfe
  · rw [if_pos h3] at h
    obtain ⟨n, hpayload, h⟩ := Except.bind_eq_ok.1 h
    cases h
    rw [h3] at hfirst
    exact ⟨n, _, Form.word32 (Buffer.load_lt hpayload), lies_of_load hfirst hpayload, rfl, rfl⟩
  · rw [if_neg h3] at h
    obtain ⟨n, hpayload, h⟩ := Except.bind_eq_ok.1 h
    cases h
    have h4 : first = 0xff := by
      have hrange : Bytes.range 1 = 256 := rfl
      omega
    rw [h4] at hfirst
    exact ⟨n, _, Form.word64 (Buffer.load_lt hpayload), lies_of_load hfirst hpayload, rfl, rfl⟩

end

/-! ## A form in a buffer -/

section

variable {bs payload : Bytes} {first : UInt8} {offset : Number} {start : Rat} {place next : Nat}

/-- The bytes of a form, each at its own place, take the place of those that were there. -/
theorem put_cons (hplace : Buffer.position? offset = some place)
    (hnext : Buffer.position? (offset + 1) = some next) (hroom : place + 1 ≤ bs.length)
    (hfits : next + payload.length ≤ bs.length) :
    put offset (first :: payload) bs = .ok (offset + Number.ofNat (payload.length + 1))
      (Buffer.overwrite (Buffer.overwrite bs place [first]) next payload) := by
  have hfirst : Buffer.store offset [first] bs = .ok () (Buffer.overwrite bs place [first]) :=
    Buffer.store_eq hplace hroom
  cases payload with
  | nil =>
      have hnone : Buffer.overwrite (Buffer.overwrite bs place [first]) next [] =
          Buffer.overwrite bs place [first] := by
        rw [Buffer.overwrite, List.append_nil, List.length_nil, Nat.add_zero, List.take_append_drop]
      rw [hnone]
      exact Action.bind_eq_ok.2 ⟨_, _, hfirst, rfl⟩
  | cons second payload =>
      have hroom' : next + (second :: payload).length ≤
          (Buffer.overwrite bs place [first]).length := by rwa [Buffer.length_overwrite hroom]
      have hpayload := Buffer.store_eq hnext hroom'
      exact Action.bind_eq_ok.2 ⟨_, _, hfirst, Action.bind_eq_ok.2 ⟨_, _, hpayload, rfl⟩⟩

/-- A form lies at an offset if its bytes stand at their places. -/
theorem lies_of_bytes (hplace : Buffer.position? offset = some place)
    (hnext : Buffer.position? (offset + 1) = some next) (hfirst : bs[place]? = some first)
    (hpayload : ∀ i < payload.length, bs[next + i]? = payload[i]?) :
    Lies bs offset (first :: payload) := by
  refine ⟨?_, fun hne => Buffer.load_of_bytes hnext hne hpayload⟩
  have hbyte (i : Nat) (hi : i < [first].length) : bs[place + i]? = [first][i]? := by
    rw [Nat.lt_one_iff.1 hi, Nat.add_zero, hfirst]
    rfl
  exact Buffer.load_of_bytes hplace (List.cons_ne_nil _ _) hbyte

/-- A form was put at an offset: only bytes that it touches were changed, and in any buffer that has
these bytes it lies there. -/
structure Put (bs : Bytes) (offset : Number) (start : Rat) (form written : Bytes) : Prop where
  put_eq : put offset form bs = .ok (offset + Number.ofNat form.length) written
  length_eq : written.length = bs.length
  outside : ∀ i, ¬ Buffer.Touches start form.length i → written[i]? = bs[i]?
  lies : ∀ other : Bytes, (∀ i, Buffer.Touches start form.length i → other[i]? = written[i]?) →
    Lies other offset form

/-- A form that fits can be put. -/
theorem exists_put {form : Bytes} (hbs : bs.length ≤ Number.maxSafe)
    (hoffset : offset.toRat? = some start) (hstart : 0 ≤ start) (hform : 1 ≤ form.length)
    (hfits : start + form.length ≤ bs.length) : ∃ written, Put bs offset start form written := by
  obtain ⟨first, payload, rfl⟩ := List.exists_cons_of_length_pos hform
  have hsafe : start + 1 ≤ Number.maxSafe := by
    have hone : (1 : Rat) ≤ (first :: payload).length := by exact_mod_cast hform
    have hbs' : (bs.length : Rat) ≤ Number.maxSafe := by exact_mod_cast hbs
    linarith
  obtain ⟨next, hnext, hlow, hhigh⟩ := Buffer.exists_next hoffset hstart hsafe
  have hend : next + payload.length ≤ bs.length := Buffer.next_add_le hstart hhigh hfits
  have hroom : ⌊start⌋₊ + 1 ≤ bs.length := by omega
  have hplace : Buffer.position? offset = some ⌊start⌋₊ :=
    Buffer.position?_eq hoffset hstart (by omega)
  have hend' : next + payload.length ≤ (Buffer.overwrite bs ⌊start⌋₊ [first]).length := by
    rwa [Buffer.length_overwrite hroom]
  -- the two pieces do not overlap, and the form touches the places of both
  have htouched : Buffer.Touches start (first :: payload).length ⌊start⌋₊ :=
    Buffer.touches_floor hstart hform
  have htouched' (i : Nat) (hi : next ≤ i) (hi' : i < next + payload.length) :
      Buffer.Touches start (first :: payload).length i :=
    Buffer.touches_next hstart hlow hhigh hi (by rw [List.length_cons]; omega)
  refine ⟨_, put_cons hplace hnext hroom hend, ?_, ?_, ?_⟩
  · rw [Buffer.length_overwrite hend', Buffer.length_overwrite hroom]
  · intro i hi
    have hne : i ≠ ⌊start⌋₊ := fun h => hi (h ▸ htouched)
    have hbeside : i < next ∨ next + payload.length ≤ i :=
      Decidable.or_iff_not_not_and_not.2 fun h => hi (htouched' i (by omega) (by omega))
    have hbeside' : i < ⌊start⌋₊ ∨ ⌊start⌋₊ + [first].length ≤ i := by
      rw [List.length_singleton]
      omega
    rw [Buffer.getElem?_overwrite_outside hend' hbeside,
      Buffer.getElem?_overwrite_outside hroom hbeside']
  · refine fun other hother => lies_of_bytes hplace hnext ?_ fun i hi => ?_
    · rw [hother _ htouched, Buffer.getElem?_overwrite_outside hend' (Or.inl hlow)]
      exact Buffer.getElem?_overwrite_inside (i := 0) hroom Nat.one_pos
    · have htouches := htouched' (next + i) (Nat.le_add_right next i) (Nat.add_lt_add_left hi next)
      rw [hother _ htouches]
      exact Buffer.getElem?_overwrite_inside hend' hi

end

/-! ## What comes back -/

theorem length_le_nine (n : Nat) : length n ≤ 9 := by
  unfold length
  split
  · omega
  · split
    · omega
    · split <;> omega

/-- No form that is read as a number is shorter than the one that is written for it. Beyond the
exact limit there may be several of them, but they are of the widest kind. -/
theorem length_le_of_form {n m : Nat} {form : Bytes} (hform : Form m form)
    (hread : Number.ofNat m = .int n) : length n ≤ form.length := by
  rcases Nat.lt_or_ge Number.exactLimit m with hfar | hnear
  · have hwide : form.length = 9 := by
      unfold Number.exactLimit at hfar
      have hranges : Bytes.range 2 = 0xffff + 1 ∧ Bytes.range 4 = 0xffffffff + 1 := by decide
      cases hform with
      | word64 h => rw [List.length_cons, Bytes.length_littleEndian]
      | _ => omega
    rw [hwide]
    exact length_le_nine n
  · have hsame : m = n := by
      rw [Number.ofNat, Number.ofInt_of_le (show (m : Int).natAbs ≤ _ from hnear)] at hread
      exact Int.ofNat.inj (Number.int.inj hread)
    rw [← hsame, ← length_encode]
    exact hform.encode_least.1

/-- The number `n` was written as `value` at an offset, which lies `start` into the buffer. The
offset behind its form was told; only bytes between the two have changed; and in any buffer that has
these bytes, reading at the offset gives the number and the offset behind it again. Whatever is read
as this number, wherever it stands, takes up at least as many bytes. -/
structure ComesBack (bs : Bytes) (offset value : Number) (start : Rat) (n : Nat) (written : Bytes) :
    Prop where
  write_eq : write offset value bs = .ok (offset + Number.ofNat (lengthOf value)) written
  length_eq : written.length = bs.length
  outside : ∀ i, ¬ Buffer.Touches start (lengthOf value) i → written[i]? = bs[i]?
  read_eq : ∀ other : Bytes,
    (∀ i, Buffer.Touches start (lengthOf value) i → other[i]? = written[i]?) →
      read other offset = .ok (.int n, offset + Number.ofNat (lengthOf value))
  shortest : ∀ (other : Bytes) (offset' out : Number), read other offset' = .ok (.int n, out) →
    ∃ first : UInt8, Buffer.load other offset' 1 = .ok first.toNat ∧
      out = offset' + Number.ofNat (width first) ∧ lengthOf value ≤ width first

/-- **What is written for a number comes back**, for every integer in the range of the format that
is a number (it is nearest to itself), and at every offset from which its form fits into the buffer,
whole or not. A buffer has at most `maxSafe` bytes. A negative zero comes back as zero. -/
theorem comesBack_of_fits {bs : Bytes} {offset value : Number} {start : Rat} {n : Nat}
    (hbs : bs.length ≤ Number.maxSafe) (hoffset : offset.toRat? = some start) (hstart : 0 ≤ start)
    (hvalue : value.toInt? = some (n : Int)) (hnumber : Number.ofNat n = .int n)
    (hrange : n ≤ 0xffffffffffffffff) (hfits : start + lengthOf value ≤ bs.length) :
    ∃ written, ComesBack bs offset value start n written := by
  have hn : n < bound := Nat.lt_succ_of_le hrange
  have hform : Form n (encode n) := form_encode hn
  have hlength : lengthOf value = (encode n).length := by rw [lengthOf_eq hvalue, length_encode]
  rw [hlength] at hfits
  obtain ⟨written, hput⟩ := exists_put hbs hoffset hstart (one_le_length_encode n) hfits
  refine ⟨written, ?_, hput.length_eq, hlength ▸ hput.outside, ?_, ?_⟩
  · rw [write_eq_put offset hvalue hn, hput.put_eq, hlength]
  · intro other hother
    rw [hlength] at hother ⊢
    rw [read_of_lies (hput.lies other hother) hform, hnumber]
  · intro other offset' out hread
    obtain ⟨m, form, hform', hlies, hm, hout⟩ := lies_of_read hread
    cases form with
    | nil => exact hlies.elim
    | cons first payload =>
        have hwidth : width first = (first :: payload).length := hform'.width_and_valueOf.1
        have hlength' : lengthOf value ≤ (first :: payload).length :=
          lengthOf_eq hvalue ▸ length_le_of_form hform' hm.symm
        exact ⟨first, hlies.1, hwidth ▸ hout, hwidth ▸ hlength'⟩

/-- A buffer into which the widest form fits from the second byte on. -/
def elevenBytes : Bytes := [1, 2, 3, 4, 5, 6, 7, 8, 9, 10, 11]

theorem comesBack_of_fits_wide :
    elevenBytes.length ≤ Number.maxSafe ∧ (Number.int 1).toRat? = some 1 ∧ (0 : Rat) ≤ 1 ∧
      (Number.int 9007199254740994).toInt? = some ((9007199254740994 : Nat) : Int) ∧
      Number.ofNat 9007199254740994 = .int (9007199254740994 : Nat) ∧
      9007199254740994 ≤ 0xffffffffffffffff ∧
      (1 : Rat) + lengthOf (.int 9007199254740994) ≤ elevenBytes.length ∧
      ∃ written,
        ComesBack elevenBytes (.int 1) (.int 9007199254740994) 1 9007199254740994 written := by
  have hoffset : (Number.int 1).toRat? = some 1 := rfl
  have hnumber : Number.ofNat 9007199254740994 = .int (9007199254740994 : Nat) := by
    decide +kernel
  have hfits : (1 : Rat) + lengthOf (.int 9007199254740994) ≤ elevenBytes.length := by
    decide +kernel
  exact ⟨by decide, hoffset, by decide, rfl, hnumber, by decide, hfits,
    comesBack_of_fits (by decide) hoffset (by decide) rfl hnumber (by decide) hfits⟩

end CompactSize
end LightSync
