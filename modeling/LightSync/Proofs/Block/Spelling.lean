import LightSync.Block.Encoding

/-!
# Spellings of a block

The bytes of a block are those of its parts, one behind the other (`Block.parts`): fields and byte
strings that stand as they are, and before each byte string and each list its size, which has up to
four forms (`CompactSize.Form`). `Spells parts forms bs` says that the bytes `bs` spell the parts
with these forms of their sizes. What is written for a block is the spelling with the shortest forms
(`spells_shortest`); no spelling is shorter (`Spells.length_le`), and a spelling in which every form
is the shortest is that one (`Spells.eq_shortest_iff`).
-/

set_option autoImplicit false

namespace LightSync

/-! ## The forms of a size -/

namespace CompactSize

/-- The counts that the widest form holds. -/
def bound : Nat := Bytes.range 8

/-- A count below `0xfd` may be one byte; behind a marker it has two, four or eight bytes, if it
fits. -/
inductive Form : Nat → Bytes → Prop where
  | byte {n : Nat} (h : n < 0xfd) : Form n (Bytes.littleEndian 1 n)
  | word16 {n : Nat} (h : n < Bytes.range 2) : Form n (0xfd :: Bytes.littleEndian 2 n)
  | word32 {n : Nat} (h : n < Bytes.range 4) : Form n (0xfe :: Bytes.littleEndian 4 n)
  | word64 {n : Nat} (h : n < Bytes.range 8) : Form n (0xff :: Bytes.littleEndian 8 n)

/-- No form of the same count is shorter. -/
def Shortest (form : Bytes) : Prop :=
  ∀ n other, Form n form → Form n other → form.length ≤ other.length

theorem Form.lt_bound {n : Nat} {form : Bytes} (h : Form n form) : n < bound := by
  have hranges : Bytes.range 2 ≤ bound ∧ Bytes.range 4 ≤ bound ∧ 0xfd ≤ bound := by decide
  cases h with
  | byte h => omega
  | word16 h => omega
  | word32 h => omega
  | word64 h => exact h

theorem valueOf_marked {marker : UInt8} {width n : Nat} (hmarker : ¬ marker < 0xfd)
    (hn : n < Bytes.range width) : valueOf (marker :: Bytes.littleEndian width n) = n := by
  rw [valueOf, if_neg hmarker, Bytes.value_littleEndian, Nat.mod_eq_of_lt hn]

/-- The first byte of a form tells its length, and the form its count. -/
theorem Form.width_and_valueOf {n : Nat} {form : Bytes} (h : Form n form) :
    width (form.headD 0) = form.length ∧ valueOf form = n := by
  cases h with
  | byte h =>
      have hvalue : (UInt8.ofNat n).toNat = n := by
        rw [UInt8.toNat_ofNat']
        omega
      have hfirst : UInt8.ofNat n < 0xfd := by
        rw [UInt8.lt_iff_toNat_lt, hvalue]
        exact h
      constructor
      · show width (UInt8.ofNat n) = 1
        rw [width, if_pos hfirst]
      · show valueOf [UInt8.ofNat n] = n
        rw [valueOf, if_pos hfirst, hvalue]
  | word16 h => exact ⟨by simp [width], valueOf_marked (by decide) h⟩
  | word32 h => exact ⟨by simp [width], valueOf_marked (by decide) h⟩
  | word64 h => exact ⟨by simp [width], valueOf_marked (by decide) h⟩

theorem one_le_width (first : UInt8) : 1 ≤ width first := by
  rw [width]
  split
  · omega
  · split
    · omega
    · split <;> omega

/-- As many bytes as the first one tells are a form. -/
theorem form_of_width {form : Bytes} (h : width (form.headD 0) = form.length) :
    Form (valueOf form) form := by
  cases form with
  | nil => simp [width] at h
  | cons first payload =>
      have hfirst : width first = payload.length + 1 := h
      have hpayload : Bytes.littleEndian payload.length (Bytes.value payload) = payload :=
        Bytes.littleEndian_value payload
      have hlt : Bytes.value payload < Bytes.range payload.length := Bytes.value_lt payload
      rw [width] at hfirst
      rw [valueOf]
      by_cases h1 : first < 0xfd
      · rw [if_pos h1] at hfirst
        rw [if_pos h1]
        have hnil : payload = [] := List.length_eq_zero_iff.1 (by omega)
        have hbyte : first.toNat < 0xfd := UInt8.lt_iff_toNat_lt.1 h1
        have hself : [first] = Bytes.littleEndian 1 first.toNat := by
          simp [Bytes.littleEndian]
        rw [hnil, hself]
        exact Form.byte hbyte
      · rw [if_neg h1] at hfirst
        rw [if_neg h1]
        by_cases h2 : first = 0xfd
        · have hlength : payload.length = 2 := by rw [if_pos h2] at hfirst; omega
          rw [hlength] at hpayload hlt
          have hform := Form.word16 hlt
          rwa [hpayload, ← h2] at hform
        · rw [if_neg h2] at hfirst
          by_cases h3 : first = 0xfe
          · have hlength : payload.length = 4 := by rw [if_pos h3] at hfirst; omega
            rw [hlength] at hpayload hlt
            have hform := Form.word32 hlt
            rwa [hpayload, ← h3] at hform
          · have hlength : payload.length = 8 := by rw [if_neg h3] at hfirst; omega
            have h4 : first = 0xff := by
              apply UInt8.toNat_inj.1
              have hrange := UInt8.toNat_lt first
              have h1' : ¬ first.toNat < 253 := fun hc => h1 (UInt8.lt_iff_toNat_lt.2 hc)
              have h2' : first.toNat ≠ 253 := fun hc => h2 (UInt8.toNat_inj.1 hc)
              have h3' : first.toNat ≠ 254 := fun hc => h3 (UInt8.toNat_inj.1 hc)
              show first.toNat = 255
              omega
            rw [hlength] at hpayload hlt
            have hform := Form.word64 hlt
            rwa [hpayload, ← h4] at hform

/-- What is written for a count is a form of it. -/
theorem form_encode {n : Nat} (hn : n < bound) : Form n (encode n) := by
  unfold encode
  by_cases h1 : n < 0xfd
  · rw [if_pos h1]
    exact Form.byte h1
  · rw [if_neg h1]
    by_cases h2 : n ≤ 0xffff
    · rw [if_pos h2]
      exact Form.word16 (Nat.lt_succ_of_le h2)
    · rw [if_neg h2]
      by_cases h3 : n ≤ 0xffffffff
      · rw [if_pos h3]
        exact Form.word32 (Nat.lt_succ_of_le h3)
      · rw [if_neg h3]
        exact Form.word64 hn

theorem one_le_length_encode (n : Nat) : 1 ≤ (encode n).length := by
  rw [length_encode, length]
  by_cases h1 : n < 0xfd
  · simp [h1]
  · by_cases h2 : n ≤ 0xffff
    · simp [h1, h2]
    · by_cases h3 : n ≤ 0xffffffff <;> simp [h1, h2, h3]

/-- What fits into two bytes takes no more than three, and what fits into four no more than five. -/
theorem length_encode_le_of_fits {n : Nat} :
    (n ≤ 0xffff → (encode n).length ≤ 3) ∧ (n ≤ 0xffffffff → (encode n).length ≤ 5) := by
  rw [length_encode, length]
  by_cases h1 : n < 0xfd
  · simp [h1]
  · by_cases h2 : n ≤ 0xffff
    · simp [h1, h2]
    · by_cases h3 : n ≤ 0xffffffff <;> simp [h1, h2, h3]

/-- The form that is written is the shortest one, and the only one of its length. -/
theorem Form.encode_least {n : Nat} {form : Bytes} (h : Form n form) :
    (encode n).length ≤ form.length ∧ (form.length ≤ (encode n).length → form = encode n) := by
  have hranges : Bytes.range 2 = 0xffff + 1 ∧ Bytes.range 4 = 0xffffffff + 1 := by decide
  obtain ⟨hthree, hfive⟩ := @length_encode_le_of_fits n
  -- a form with a marker is the written one if no shorter form has room
  cases h with
  | byte h =>
      have hencode : encode n = Bytes.littleEndian 1 n := by simp [encode, h]
      rw [hencode]
      exact ⟨Nat.le_refl _, fun _ => rfl⟩
  | word16 h =>
      by_cases h1 : n < 0xfd
      · have hone : (encode n).length = 1 := by simp [length_encode, length, h1]
        rw [hone]
        simp
      · have hencode : encode n = 0xfd :: Bytes.littleEndian 2 n := by
          simp [encode, h1, show n ≤ 0xffff by omega]
        rw [hencode]
        exact ⟨Nat.le_refl _, fun _ => rfl⟩
  | word32 h =>
      by_cases h2 : n ≤ 0xffff
      · have := hthree h2
        rw [List.length_cons, Bytes.length_littleEndian]
        omega
      · have hencode : encode n = 0xfe :: Bytes.littleEndian 4 n := by
          simp [encode, show ¬ n < 0xfd by omega, h2, show n ≤ 0xffffffff by omega]
        rw [hencode]
        exact ⟨Nat.le_refl _, fun _ => rfl⟩
  | word64 h =>
      by_cases h3 : n ≤ 0xffffffff
      · have := hfive h3
        rw [List.length_cons, Bytes.length_littleEndian]
        omega
      · have hencode : encode n = 0xff :: Bytes.littleEndian 8 n := by
          simp [encode, show ¬ n < 0xfd by omega, show ¬ n ≤ 0xffff by omega, h3]
        rw [hencode]
        exact ⟨Nat.le_refl _, fun _ => rfl⟩

theorem Form.shortest_iff {n : Nat} {form : Bytes} (h : Form n form) :
    Shortest form ↔ form = encode n := by
  constructor
  · intro hshort
    have hencode : Form n (encode n) := form_encode h.lt_bound
    exact h.encode_least.2 (hshort n _ h hencode)
  · intro heq m other hm hother
    have hmn : m = n := hm.width_and_valueOf.2.symm.trans h.width_and_valueOf.2
    rw [heq]
    exact (hmn ▸ hother).encode_least.1

/-- No form is the beginning of another one. -/
theorem Form.eq_of_append_eq {n m : Nat} {form form' bs bs' : Bytes} (h : Form n form)
    (h' : Form m form') (heq : form ++ bs = form' ++ bs') : form = form' ∧ bs = bs' := by
  have hpos : 1 ≤ form.length :=
    Nat.le_trans (one_le_length_encode n) h.encode_least.1
  have hpos' : 1 ≤ form'.length :=
    Nat.le_trans (one_le_length_encode m) h'.encode_least.1
  have hfirst : form.headD 0 = form'.headD 0 := by
    cases form with
    | nil => simp at hpos
    | cons first form =>
        cases form' with
        | nil => simp at hpos'
        | cons first' form' => exact (List.cons.inj heq).1
  have hlength : form.length = form'.length := by
    rw [← h.width_and_valueOf.1, ← h'.width_and_valueOf.1, hfirst]
  exact List.append_inj heq hlength

end CompactSize

/-! ## Parts -/

/-- A part of an encoded block: the size of what follows, or bytes that stand as they are. -/
inductive Part where
  | size (n : Nat)
  | bytes (bs : Bytes)
  deriving DecidableEq, Repr

namespace Part

/-- The part as it is written. -/
def shortest : Part → Bytes
  | size n => CompactSize.encode n
  | bytes bs => bs

def size? : Part → Option Nat
  | size n => some n
  | bytes _ => none

end Part

/-- The lengths and counts among the parts. -/
def sizes (parts : List Part) : List Nat := parts.filterMap Part.size?

/-- The parts as they are written. -/
def written (parts : List Part) : Bytes := (parts.map Part.shortest).flatten

/-- The bytes `bs` spell the parts, with `forms` for their sizes. -/
inductive Spells : List Part → List Bytes → Bytes → Prop where
  | nil : Spells [] [] []
  | size {n : Nat} {form bs : Bytes} {parts : List Part} {forms : List Bytes}
      (hform : CompactSize.Form n form) (h : Spells parts forms bs) :
      Spells (.size n :: parts) (form :: forms) (form ++ bs)
  | bytes {taken bs : Bytes} {parts : List Part} {forms : List Bytes} (h : Spells parts forms bs) :
      Spells (.bytes taken :: parts) forms (taken ++ bs)

section

variable {parts parts' : List Part} {forms forms' : List Bytes} {bs bs' : Bytes}

theorem Spells.append (h : Spells parts forms bs) (h' : Spells parts' forms' bs') :
    Spells (parts ++ parts') (forms ++ forms') (bs ++ bs') := by
  induction h with
  | nil => exact h'
  | size hform _ ih =>
      rw [List.append_assoc]
      exact Spells.size hform ih
  | bytes _ ih =>
      rw [List.append_assoc]
      exact Spells.bytes ih

/-- What spells parts and then others falls into two spellings. -/
theorem Spells.split (h : Spells (parts ++ parts') forms bs) :
    ∃ forms1 forms2 bs1 bs2, bs = bs1 ++ bs2 ∧ Spells parts forms1 bs1 ∧
      Spells parts' forms2 bs2 := by
  induction parts generalizing forms bs with
  | nil => exact ⟨[], forms, [], bs, rfl, Spells.nil, h⟩
  | cons part parts ih =>
      cases h with
      | @size n form bs _ forms hform h =>
          obtain ⟨forms1, forms2, bs1, bs2, rfl, h1, h2⟩ := ih h
          exact ⟨form :: forms1, forms2, form ++ bs1, bs2, (List.append_assoc _ _ _).symm,
            Spells.size hform h1, h2⟩
      | @bytes taken bs _ _ h =>
          obtain ⟨forms1, forms2, bs1, bs2, rfl, h1, h2⟩ := ih h
          exact ⟨forms1, forms2, taken ++ bs1, bs2, (List.append_assoc _ _ _).symm,
            Spells.bytes h1, h2⟩

/-- Only sizes that some form holds can be spelled. -/
theorem Spells.lt_bound (h : Spells parts forms bs) : ∀ n ∈ sizes parts, n < CompactSize.bound := by
  induction h with
  | nil => exact fun n hn => nomatch hn
  | size hform _ ih => exact List.forall_mem_cons.2 ⟨hform.lt_bound, ih⟩
  | bytes _ ih => exact ih

/-- The written form of parts spells them. -/
theorem spells_shortest (h : ∀ n ∈ sizes parts, n < CompactSize.bound) :
    Spells parts ((sizes parts).map CompactSize.encode) (written parts) := by
  induction parts with
  | nil => exact Spells.nil
  | cons part parts ih =>
      cases part with
      | size n =>
          obtain ⟨hn, hrest⟩ := List.forall_mem_cons.1 h
          exact Spells.size (CompactSize.form_encode hn) (ih hrest)
      | bytes taken => exact Spells.bytes (ih h)

/-- Bytes that spell the parts tell the forms. -/
theorem Spells.forms_eq (h : Spells parts forms bs) (h' : Spells parts forms' bs')
    (heq : bs = bs') : forms = forms' := by
  induction h generalizing forms' bs' with
  | nil =>
      cases h'
      rfl
  | size hform _ ih =>
      cases h' with
      | size hform' h' =>
          obtain ⟨hsame, hrest⟩ := hform.eq_of_append_eq hform' heq
          rw [hsame, ih h' hrest]
  | bytes _ ih =>
      cases h' with
      | bytes h' => exact ih h' (List.append_cancel_left heq)

/-- No spelling is shorter than the written one. -/
theorem Spells.length_le (h : Spells parts forms bs) : (written parts).length ≤ bs.length := by
  induction h with
  | nil => exact Nat.le_refl 0
  | @size n form bs parts forms hform _ ih =>
      have hleast := hform.encode_least.1
      show (CompactSize.encode n ++ written parts).length ≤ _
      rw [List.length_append, List.length_append]
      omega
  | @bytes taken bs parts forms _ ih =>
      show (taken ++ written parts).length ≤ _
      rw [List.length_append, List.length_append]
      omega

/-- A spelling is the written one exactly when every form in it is the shortest. -/
theorem Spells.eq_shortest_iff (h : Spells parts forms bs) :
    written parts = bs ↔ ∀ form ∈ forms, CompactSize.Shortest form := by
  induction h with
  | nil => exact iff_of_true rfl fun form hform => nomatch hform
  | @size n form bs parts forms hform hrest ih =>
      show CompactSize.encode n ++ written parts = form ++ bs ↔ _
      rw [List.forall_mem_cons, hform.shortest_iff, ← ih]
      constructor
      · intro heq
        -- neither of the two pieces can be longer than what it stands for
        have hform' := hform.encode_least
        have hle := hrest.length_le
        have hlength := congrArg List.length heq
        rw [List.length_append, List.length_append] at hlength
        have hsame : form = CompactSize.encode n := hform'.2 (by omega)
        rw [hsame] at heq
        exact ⟨hsame, List.append_cancel_left heq⟩
      · rintro ⟨rfl, rfl⟩
        rfl
  | @bytes taken bs parts forms _ ih =>
      show taken ++ written parts = taken ++ bs ↔ _
      rw [List.append_cancel_left_eq, ih]

end

/-! ## The parts of a block -/

/-- A byte string behind its length. -/
def bytesParts (bs : Bytes) : List Part := [.size bs.length, .bytes bs]

/-- A list behind its count. -/
def listParts {α : Type} (parts : α → List Part) (xs : List α) : List Part :=
  .size xs.length :: xs.flatMap parts

namespace SaplingOutput

def parts (o : SaplingOutput) : List Part :=
  bytesParts o.commitment ++ bytesParts o.ephemeralKey ++ bytesParts o.ciphertext

end SaplingOutput

namespace OrchardAction

def parts (a : OrchardAction) : List Part :=
  bytesParts a.nullifier ++ bytesParts a.commitment ++ bytesParts a.ephemeralKey
    ++ bytesParts a.ciphertext

end OrchardAction

namespace Tx

def parts (tx : Tx) : List Part :=
  .bytes (fixedPiece 4 tx.index) :: bytesParts tx.hash ++ .bytes (fixedPiece 8 tx.fee) ::
    (listParts bytesParts tx.spends ++ listParts SaplingOutput.parts tx.outputs
      ++ listParts OrchardAction.parts tx.actions)

end Tx

namespace Block

/-- The parts of a block in order. -/
def parts (b : Block) : List Part :=
  .bytes (fixedPiece 4 b.protoVersion) :: .bytes (fixedPiece 4 b.height) :: (bytesParts b.hash
    ++ bytesParts b.parent ++ .bytes (fixedPiece 4 b.time) :: (bytesParts b.header
      ++ listParts Tx.parts b.txs))

end Block

/-! ### What is written for them -/

theorem map_shortest_bytesParts (bs : Bytes) :
    (bytesParts bs).map Part.shortest = bytesPieces bs := rfl

theorem map_shortest_listParts {α : Type} {parts : α → List Part} {pieces : α → List Bytes}
    (h : ∀ x, (parts x).map Part.shortest = pieces x) (xs : List α) :
    (listParts parts xs).map Part.shortest = listPieces pieces xs := by
  have helements : (xs.flatMap parts).map Part.shortest = xs.flatMap pieces := by
    rw [List.map_flatMap]
    exact congrArg (xs.flatMap ·) (funext h)
  rw [listParts, List.map_cons, helements]
  rfl

theorem SaplingOutput.map_shortest_parts (o : SaplingOutput) :
    o.parts.map Part.shortest = o.pieces := rfl

theorem OrchardAction.map_shortest_parts (a : OrchardAction) :
    a.parts.map Part.shortest = a.pieces := rfl

theorem Tx.map_shortest_parts (tx : Tx) : tx.parts.map Part.shortest = tx.pieces := by
  simp only [parts, pieces, List.cons_append, List.map_cons, List.map_append,
    map_shortest_bytesParts, map_shortest_listParts map_shortest_bytesParts,
    map_shortest_listParts SaplingOutput.map_shortest_parts,
    map_shortest_listParts OrchardAction.map_shortest_parts]
  rfl

theorem Block.map_shortest_parts (b : Block) : b.parts.map Part.shortest = b.pieces := by
  simp only [parts, pieces, List.map_cons, List.map_append, map_shortest_bytesParts,
    map_shortest_listParts Tx.map_shortest_parts]
  rfl

/-- The pieces of a block are its parts in their shortest forms. -/
theorem Block.written_parts (b : Block) : written b.parts = b.pieces.flatten := by
  rw [written, b.map_shortest_parts]

/-! ### How long it is -/

theorem written_append (parts parts' : List Part) :
    written (parts ++ parts') = written parts ++ written parts' := by
  simp [written]

theorem one_le_written_bytes (bs : Bytes) : 1 ≤ (written (bytesParts bs)).length := by
  have hpos := CompactSize.one_le_length_encode bs.length
  show 1 ≤ (CompactSize.encode bs.length ++ _).length
  rw [List.length_append]
  omega

theorem one_le_written_append {parts : List Part} (h : 1 ≤ (written parts).length)
    (parts' : List Part) : 1 ≤ (written (parts ++ parts')).length := by
  rw [written_append, List.length_append]
  omega

theorem SaplingOutput.one_le_written (o : SaplingOutput) : 1 ≤ (written o.parts).length :=
  one_le_written_append (one_le_written_append (one_le_written_bytes _) _) _

theorem OrchardAction.one_le_written (a : OrchardAction) : 1 ≤ (written a.parts).length := by
  have hfirst := one_le_written_append (one_le_written_bytes a.nullifier) (bytesParts a.commitment)
  exact one_le_written_append (one_le_written_append hfirst _) _

theorem Tx.one_le_written (tx : Tx) : 1 ≤ (written tx.parts).length := by
  show 1 ≤ (fixedPiece 4 tx.index ++ _).length
  rw [List.length_append, fixedPiece, Bytes.length_littleEndian]
  omega

/-- No size among the parts is greater than the number of bytes that are written for them. -/
def Covered (parts : List Part) : Prop := ∀ n ∈ sizes parts, n ≤ (written parts).length

theorem Covered.append {parts parts' : List Part} (h : Covered parts) (h' : Covered parts') :
    Covered (parts ++ parts') := by
  intro n hn
  rw [written_append, List.length_append]
  rw [sizes, List.filterMap_append] at hn
  rcases List.mem_append.1 hn with hn | hn
  · have := h n hn
    omega
  · have := h' n hn
    omega

theorem covered_bytes (bs : Bytes) : Covered [.bytes bs] := nofun

theorem covered_bytesParts (bs : Bytes) : Covered (bytesParts bs) := by
  intro n hn
  have hlength : n = bs.length := List.mem_singleton.1 hn
  show n ≤ (CompactSize.encode bs.length ++ (bs ++ [])).length
  rw [List.length_append, List.length_append]
  omega

section

variable {α : Type} {parts : α → List Part}

/-- Elements of which each takes up at least a byte are no more than their bytes. -/
theorem length_le_written (hpos : ∀ x, 1 ≤ (written (parts x)).length) (xs : List α) :
    xs.length ≤ (written (xs.flatMap parts)).length := by
  induction xs with
  | nil => exact Nat.le_refl 0
  | cons x xs ih =>
      have hx := hpos x
      rw [List.flatMap_cons, written_append, List.length_append, List.length_cons]
      omega

theorem covered_flatMap (h : ∀ x, Covered (parts x)) (xs : List α) :
    Covered (xs.flatMap parts) := by
  induction xs with
  | nil => exact nofun
  | cons x xs ih =>
      rw [List.flatMap_cons]
      exact (h x).append ih

theorem covered_listParts (hpos : ∀ x, 1 ≤ (written (parts x)).length)
    (h : ∀ x, Covered (parts x)) (xs : List α) : Covered (listParts parts xs) := by
  have hcount := length_le_written hpos xs
  intro n hn
  show n ≤ (CompactSize.encode xs.length ++ written (xs.flatMap parts)).length
  rw [List.length_append]
  rcases List.mem_cons.1 hn with rfl | hn
  · omega
  · have := covered_flatMap h xs n hn
    omega

end

theorem SaplingOutput.covered_parts (o : SaplingOutput) : Covered o.parts :=
  ((covered_bytesParts _).append (covered_bytesParts _)).append (covered_bytesParts _)

theorem OrchardAction.covered_parts (a : OrchardAction) : Covered a.parts :=
  (((covered_bytesParts _).append (covered_bytesParts _)).append (covered_bytesParts _)).append
    (covered_bytesParts _)

theorem Tx.covered_parts (tx : Tx) : Covered tx.parts := by
  have hspends := covered_listParts one_le_written_bytes covered_bytesParts tx.spends
  have houtputs := covered_listParts SaplingOutput.one_le_written SaplingOutput.covered_parts
    tx.outputs
  have hactions := covered_listParts OrchardAction.one_le_written OrchardAction.covered_parts
    tx.actions
  have hlists := (hspends.append houtputs).append hactions
  have hfee := (covered_bytes (fixedPiece 8 tx.fee)).append hlists
  exact ((covered_bytes (fixedPiece 4 tx.index)).append (covered_bytesParts _)).append hfee

theorem Block.covered_parts (b : Block) : Covered b.parts := by
  have htxs := (covered_bytesParts b.header).append
    (covered_listParts Tx.one_le_written Tx.covered_parts b.txs)
  have htime := (covered_bytes (fixedPiece 4 b.time)).append htxs
  have hhashes := ((covered_bytesParts b.hash).append (covered_bytesParts b.parent)).append htime
  exact (covered_bytes _).append ((covered_bytes _).append hhashes)

end LightSync
