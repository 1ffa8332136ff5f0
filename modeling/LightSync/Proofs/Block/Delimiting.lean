import LightSync.Proofs.Block.Canonical

/-!
# Blocks tell their own end

The fields of a block are read in the same way whatever is behind them, so bytes behind a block are
found out by the question whether it was all (`Block.decode_append`). Hence no string that is decoded
is the beginning of another one (`Block.delimited_of_decode`): one that goes on is refused because of
what is left, and one that breaks off is refused because otherwise the whole would go on behind it.
-/

set_option autoImplicit false

namespace LightSync

/-- Bytes that are left behind a block. -/
theorem Reader.finished_of_rest {r : Reader} {tail : Bytes} (hr : r.rest = tail)
    (htail : tail ≠ []) : finished r = .error (.malformed (.trailing tail.length)) := by
  have hremaining : r.remaining = tail.length := by rw [r.remaining_eq, hr]
  have hleft : r.remaining ≠ 0 := by
    rw [hremaining]
    exact fun hnone => htail (List.length_eq_zero_iff.1 hnone)
  show (if r.remaining ≠ 0 then refuse (.trailing r.remaining) else pure () : Step Unit) r = _
  rw [if_pos hleft, hremaining]
  rfl

namespace Block

variable {data : Bytes} {height : Option Number} {b : Block}

/-- More bytes behind those of a block are refused. -/
theorem decode_append (h : Block.decode data height = .ok b) {more : Bytes} (hmore : more ≠ [])
    (height' : Option Number) :
    Block.decode (data ++ more) height' = .error (.undecodable (.trailing more.length) height') := by
  have hread := read_of_decode h
  obtain ⟨forms, hspells⟩ := hread.spelled
  obtain ⟨r, hfields, hr⟩ :=
    Reader.reads_blockFields hread.inRange hspells more (Reader.start (data ++ more)) rfl
  have hrun : Reader.block.run (Reader.start (data ++ more)) =
      .error (.malformed (.trailing more.length)) := by
    rw [StateT.run, Reader.block_eq]
    refine StateT.bind_eq_error.2 (Or.inr ⟨b.plain, r, hfields, ?_⟩)
    exact StateT.bind_eq_error.2 (Or.inl (Reader.finished_of_rest hr hmore))
  unfold Block.decode
  rw [hrun]
  rfl

/-- **The format of a block delimits itself.** Where a string is decoded, canonical or not, every
longer string that begins with it is refused because of the bytes that are left, and everything that
is only a beginning of it is refused with something that is true of it; at whatever height. -/
theorem delimited_of_decode (h : Block.decode data height = .ok b) :
    (∀ whole, data <+: whole → whole ≠ data → ∀ height', Block.decode whole height' =
      .error (.undecodable (.trailing (whole.length - data.length)) height')) ∧
    ∀ part, part <+: data → part ≠ data → ∀ height', ∃ defect : Defect,
      Block.decode part height' = .error (.undecodable defect height') ∧
        defect.TrueOf part.length := by
  constructor
  · rintro whole ⟨more, rfl⟩ hne height'
    have hmore : more ≠ [] := fun hnone => hne (by rw [hnone, List.append_nil])
    rw [List.length_append, Nat.add_sub_cancel_left]
    exact decode_append h hmore height'
  · rintro part ⟨more, rfl⟩ hne height'
    have hmore : more ≠ [] := fun hnone => hne (by rw [hnone, List.append_nil])
    rcases decode_or_refuse part height' with ⟨b', hpart⟩ | hrefused
    · -- then the whole would be refused
      rw [decode_append hpart hmore height] at h
      cases h
    · exact hrefused

theorem delimited_of_decode_wideBytes :
    Block.decode wideBytes none = .ok wideBlock ∧
      (∀ whole, wideBytes <+: whole → whole ≠ wideBytes → ∀ height', Block.decode whole height' =
        .error (.undecodable (.trailing (whole.length - wideBytes.length)) height')) ∧
      ∀ part, part <+: wideBytes → part ≠ wideBytes → ∀ height', ∃ defect : Defect,
        Block.decode part height' = .error (.undecodable defect height') ∧
          defect.TrueOf part.length := by
  have hdecode : Block.decode wideBytes none = .ok wideBlock :=
    Except.toOption_eq_some.1 (by decide +kernel)
  exact ⟨hdecode, delimited_of_decode hdecode⟩

end Block
end LightSync
