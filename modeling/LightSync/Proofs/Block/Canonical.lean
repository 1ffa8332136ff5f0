import LightSync.Proofs.Block.Reading

/-!
# Encoding undoes decoding, up to the forms of sizes

Several strings of bytes are decoded to the same block: those that spell it, each with its own forms
of the sizes (`Block.decode_iff_spells`). The encoded form of the block is the shortest of them, and
it is the string that was decoded exactly if that one has the shortest forms throughout
(`Block.encode_of_decode`).
-/

set_option autoImplicit false

namespace LightSync
namespace Block

variable {data : Bytes} {height : Option Number} {b : Block}

theorem spells_of_decode (h : Block.decode data height = .ok b) :
    ∃ forms, Spells b.parts forms data :=
  (read_of_decode h).spelled

/-- The strings that are decoded to a block are its spellings. -/
theorem decode_iff_spells (hrange : b.InRange) (hplain : b.plain = b) :
    Block.decode data height = .ok b ↔ ∃ forms, Spells b.parts forms data := by
  constructor
  · exact spells_of_decode
  · rintro ⟨forms, h⟩
    have hdecode := decode_of_spells hrange h height
    rwa [hplain] at hdecode

/-- What was decoded can be encoded. -/
theorem encode_eq_written (h : Block.decode data height = .ok b) :
    b.encode = .ok (written b.parts) := by
  have hcheck : b.check = .ok () := check_eq_ok.2 (read_of_decode h).inRange
  exact encode_eq_ok.2 ⟨hcheck, b.written_parts⟩

theorem decode_written (h : Block.decode data height = .ok b) (height' : Option Number) :
    Block.decode (written b.parts) height' = .ok b := by
  have hread := read_of_decode h
  obtain ⟨forms, hspells⟩ := hread.spelled
  exact (decode_iff_spells hread.inRange hread.plain).2 ⟨_, spells_shortest hspells.lt_bound⟩

/-- **Encoding undoes decoding up to the forms of sizes.** What was decoded is encoded in no more
bytes, which are decoded to it again; they are the same bytes exactly if the forms of all sizes in
them were the shortest ones; and what else is decoded has this encoded form exactly if it is the
same block. -/
theorem encode_of_decode (h : Block.decode data height = .ok b) :
    ∃ out, b.encode = .ok out ∧ out.length ≤ data.length ∧
      (∀ height', Block.decode out height' = .ok b) ∧
      (∃ forms, Spells b.parts forms data ∧
        (∀ forms', Spells b.parts forms' data → forms' = forms) ∧
        (out = data ↔ ∀ form ∈ forms, CompactSize.Shortest form)) ∧
      ∀ data' height' b', Block.decode data' height' = .ok b' →
        (b' = b ↔ b'.encode = .ok out) := by
  obtain ⟨forms, hspells⟩ := spells_of_decode h
  refine ⟨written b.parts, encode_eq_written h, hspells.length_le, decode_written h,
    ⟨forms, hspells, fun forms' h' => h'.forms_eq hspells rfl, hspells.eq_shortest_iff⟩, ?_⟩
  intro data' height' b' h'
  constructor
  · rintro rfl
    exact encode_eq_written h
  · intro hencode
    -- the encoded form that both have is decoded to either
    have hsame : written b'.parts = written b.parts :=
      Except.ok.inj ((encode_eq_written h').symm.trans hencode)
    have hdecode := decode_written h' none
    rw [hsame, decode_written h none] at hdecode
    exact (Except.ok.inj hdecode).symm

/-- Bytes of a block with one transaction, in which most sizes have a wider form than they need. -/
def wideBytes : Bytes :=
  [1, 0, 0, 0, 5, 0, 0, 0,                    -- version and height
    0xfd, 1, 0, 7,                            -- hash
    0xff, 0, 0, 0, 0, 0, 0, 0, 0,             -- parent
    9, 0, 0, 0,                               -- time
    0,                                        -- header
    0xfe, 1, 0, 0, 0,                         -- one transaction
    2, 0, 0, 0, 0, 3, 0, 0, 0, 0, 0, 0, 0,    -- index, hash and fee
    0xfd, 1, 0, 0xfd, 0, 0, 0, 0xfd, 0, 0]    -- one empty nullifier, no outputs, no actions

/-- The block that they encode. -/
def wideBlock : Block where
  protoVersion := 1
  height := 5
  hash := [7]
  parent := []
  time := 9
  header := []
  txs := [{ index := 2, hash := [], fee := 3, spends := [[]], outputs := [], actions := [] }]

theorem encode_of_decode_wideBytes :
    Block.decode wideBytes none = .ok wideBlock ∧ wideBlock.size < wideBytes.length ∧
      ∃ out, wideBlock.encode = .ok out ∧ out.length ≤ wideBytes.length ∧
        (∀ height', Block.decode out height' = .ok wideBlock) ∧
        (∃ forms, Spells wideBlock.parts forms wideBytes ∧
          (∀ forms', Spells wideBlock.parts forms' wideBytes → forms' = forms) ∧
          (out = wideBytes ↔ ∀ form ∈ forms, CompactSize.Shortest form)) ∧
        ∀ data' height' b', Block.decode data' height' = .ok b' →
          (b' = wideBlock ↔ b'.encode = .ok out) := by
  have hdecode : Block.decode wideBytes none = .ok wideBlock :=
    Except.toOption_eq_some.1 (by decide +kernel)
  exact ⟨hdecode, by decide, encode_of_decode hdecode⟩

end Block
end LightSync
