import LightSync.Bytes.Buffer
import LightSync.Proofs.Block.RoundTrip

/-!
# The size of a block and what is written for it

The size of an encoded block is computed in a pass of its own, before anything is written. Laying
pieces out in a space is writing them into a buffer of that size from an offset on
(`layOut_eq_fill`), and the pieces of a block come to exactly the size that was computed: writing
them ends at the end of the buffer and has replaced every byte of it (`Block.fits_size`). A block
is refused only for a number that its field does not hold (`Block.OutOfRange`).
-/

set_option autoImplicit false

namespace LightSync

/-! ## Writing into a buffer -/

namespace Buffer

/-- Writes pieces one behind the other from an offset on. An access beyond the end fails; otherwise
there is the buffer, and the offset behind the last piece. -/
def fill (buffer : Bytes) (offset : Nat) : List Bytes → Except Failure (Bytes × Nat)
  | [] => .ok (buffer, offset)
  | piece :: rest =>
      if offset + piece.length ≤ buffer.length then
        fill (overwrite buffer offset piece) (offset + piece.length) rest
      else .error .outOfBounds

theorem overwrite_append (done room piece : Bytes) :
    overwrite (done ++ room) done.length piece = (done ++ piece) ++ room.drop piece.length := by
  rw [overwrite, List.take_left, ← List.drop_drop, List.drop_left]

/-- Behind what is done, pieces take the place of as much room as they need. -/
theorem fill_append {done room : Bytes} {pieces : List Bytes}
    (h : pieces.flatten.length ≤ room.length) :
    fill (done ++ room) done.length pieces =
      .ok (done ++ pieces.flatten ++ room.drop pieces.flatten.length,
        done.length + pieces.flatten.length) := by
  -- the first piece is done, and the others follow it
  induction pieces generalizing done room with
  | nil => simp [fill]
  | cons piece rest ih =>
      rw [List.flatten_cons, List.length_append] at h
      have hfits : done.length + piece.length ≤ (done ++ room).length := by
        rw [List.length_append]
        omega
      have hrest : rest.flatten.length ≤ (room.drop piece.length).length := by
        rw [List.length_drop]
        omega
      rw [fill, if_pos hfits, overwrite_append, ← List.length_append, ih hrest, List.drop_drop]
      simp only [List.flatten_cons, List.length_append, List.append_assoc, Nat.add_assoc]

/-- Pieces that need as many bytes as there are replace all of them. -/
theorem fill_whole {buffer : Bytes} {pieces : List Bytes}
    (h : pieces.flatten.length = buffer.length) :
    fill buffer 0 pieces = .ok (pieces.flatten, buffer.length) := by
  have hfill := @fill_append [] buffer pieces (Nat.le_of_eq h)
  rwa [h, List.drop_length, List.append_nil, List.nil_append, List.nil_append, List.length_nil,
    Nat.zero_add] at hfill

end Buffer

/-- Laying pieces out is writing them into the room behind what is done. -/
theorem fill_replicate (done : Bytes) (room : Nat) (pieces : List Bytes) :
    (Buffer.fill (done ++ List.replicate room 0) done.length pieces).map Prod.fst =
      (layOut room pieces).map (done ++ ·) := by
  induction pieces generalizing done room with
  | nil => rfl
  | cons piece rest ih =>
      have hlength : (done ++ List.replicate room 0).length = done.length + room := by
        rw [List.length_append, List.length_replicate]
      rw [Buffer.fill, layOut, hlength]
      by_cases hfits : piece.length ≤ room
      · rw [if_pos (Nat.add_le_add_left hfits _), if_pos hfits, Buffer.overwrite_append,
          List.drop_replicate, ← List.length_append, ih]
        cases layOut (room - piece.length) rest with
        | ok bs => exact congrArg Except.ok (List.append_assoc done piece bs)
        | error e => rfl
      · rw [if_neg hfits, if_neg (by omega)]
        rfl

/-- **Laying pieces out in a space is writing them into a buffer of that size.** -/
theorem layOut_eq_fill (room : Nat) (pieces : List Bytes) :
    layOut room pieces = (Buffer.fill (List.replicate room 0) 0 pieces).map Prod.fst := by
  have hfill := fill_replicate [] room pieces
  rw [List.nil_append, List.length_nil] at hfill
  rw [hfill]
  cases layOut room pieces with
  | ok bs => rfl
  | error e => rfl

/-! ## Numbers that are refused -/

/-- A check that fails names the number that it refuses. -/
theorem not_of_require_error {r : Requirement} {holds : Bool} {a : Number} {p : Prop} {e : Failure}
    (hholds : holds = true ↔ p) (h : require r holds a = .error e) :
    ¬ p ∧ e = .refused r (some a) := by
  unfold require at h
  split at h
  · cases h
  · rename_i hno
    cases h
    exact ⟨fun hp => hno (hholds.2 hp), rfl⟩

namespace Block

/-- A number of the block that its field does not hold, and the requirement of the field. -/
inductive OutOfRange (b : Block) : Requirement → Number → Prop where
  | protoVersion (h : ¬ b.protoVersion.IsUpTo 0xffffffff) :
      OutOfRange b .protoVersion b.protoVersion
  | height (h : ¬ b.height.IsUpTo 0xffffffff) : OutOfRange b .height b.height
  | time (h : ¬ b.time.IsUpTo 0xffffffff) : OutOfRange b .time b.time
  | txIndex {tx : Tx} (htx : tx ∈ b.txs) (h : ¬ tx.index.IsUpTo 0xffffffff) :
      OutOfRange b .txIndex tx.index
  | fee {tx : Tx} (htx : tx ∈ b.txs) (h : ¬ tx.fee.IsUpTo Number.maxSafe) :
      OutOfRange b .fee tx.fee

theorem exists_outOfRange_iff {b : Block} : (∃ r a, b.OutOfRange r a) ↔ ¬ b.InRange := by
  constructor
  · rintro ⟨r, a, hout⟩ hrange
    cases hout with
    | protoVersion h => exact h hrange.protoVersion
    | height h => exact h hrange.height
    | time h => exact h hrange.time
    | txIndex htx h => exact h (hrange.indices _ htx)
    | fee htx h => exact h (hrange.fees _ htx)
  · refine fun hrange => Classical.byContradiction fun hnone => hrange ?_
    have holds {r : Requirement} {a : Number} {p : Prop} (hout : ¬ p → b.OutOfRange r a) : p :=
      Classical.byContradiction fun hp => hnone ⟨r, a, hout hp⟩
    exact ⟨holds .protoVersion, holds .height, holds .time, fun _ htx => holds (.txIndex htx),
      fun _ htx => holds (.fee htx)⟩

theorem exists_of_forM_check_error {txs : List Tx} {e : Failure} (h : txs.forM Tx.check = .error e) :
    ∃ tx ∈ txs, tx.check = .error e := by
  induction txs with
  | nil => cases h
  | cons tx txs ih =>
      have hbind : (tx.check >>= fun _ => txs.forM Tx.check) = .error e := h
      rcases Except.bind_eq_error.1 hbind with htx | ⟨_, -, hrest⟩
      · exact ⟨tx, List.mem_cons_self, htx⟩
      · obtain ⟨x, hx, hcheck⟩ := ih hrest
        exact ⟨x, List.mem_cons_of_mem tx hx, hcheck⟩

/-- A check fails with a number that is out of range. -/
theorem outOfRange_of_check_error {b : Block} {e : Failure} (h : b.check = .error e) :
    ∃ r a, b.OutOfRange r a ∧ e = .refused r (some a) := by
  unfold check at h
  -- the checks in their order, the first that fails decides
  rcases Except.bind_eq_error.1 h with h | ⟨_, -, h⟩
  · obtain ⟨hout, rfl⟩ := not_of_require_error Number.isWord32_iff h
    exact ⟨_, _, .protoVersion hout, rfl⟩
  rcases Except.bind_eq_error.1 h with h | ⟨_, -, h⟩
  · obtain ⟨hout, rfl⟩ := not_of_require_error Number.isWord32_iff h
    exact ⟨_, _, .height hout, rfl⟩
  rcases Except.bind_eq_error.1 h with h | ⟨_, -, h⟩
  · obtain ⟨hout, rfl⟩ := not_of_require_error Number.isWord32_iff h
    exact ⟨_, _, .time hout, rfl⟩
  obtain ⟨tx, htx, h⟩ := exists_of_forM_check_error h
  unfold Tx.check at h
  rcases Except.bind_eq_error.1 h with h | ⟨_, -, h⟩
  · obtain ⟨hout, rfl⟩ := not_of_require_error Number.isWord32_iff h
    exact ⟨_, _, .txIndex htx hout, rfl⟩
  · obtain ⟨hout, rfl⟩ := not_of_require_error Number.isSafeNat_iff h
    exact ⟨_, _, .fee htx hout, rfl⟩

/-- A block is refused only with a number that is out of range. -/
theorem outOfRange_of_encode_error {b : Block} {e : Failure} (h : b.encode = .error e) :
    ∃ r a, b.OutOfRange r a ∧ e = .refused r (some a) := by
  rcases Except.bind_eq_error.1 h with hcheck | ⟨_, -, hlayOut⟩
  · exact outOfRange_of_check_error hcheck
  · -- the pieces always fit
    rw [← b.length_pieces, layOut_flatten] at hlayOut
    cases hlayOut

/-! ## Both passes -/

/-- The size of a block fits what is written for it. The encoded form is what writing the pieces
leaves in a buffer of that size, if the block passes its checks; it does unless a number is out of
range, and is then refused for one. The bytes are as many as were computed; whatever was in the
buffer, writing stays inside of it, ends at its end and replaces it. -/
structure FitsSize (b : Block) : Prop where
  encode_eq : b.encode = b.check >>= fun _ =>
    (Buffer.fill (List.replicate b.size 0) 0 b.pieces).map Prod.fst
  refused_iff : (∃ e, b.encode = .error e) ↔ ∃ r a, b.OutOfRange r a
  refused : ∀ e, b.encode = .error e → ∃ r a, b.OutOfRange r a ∧ e = .refused r (some a)
  written : (∀ r a, ¬ b.OutOfRange r a) → ∃ bs, b.encode = .ok bs ∧ bs.length = b.size ∧
    ∀ buffer : Bytes, buffer.length = b.size → Buffer.fill buffer 0 b.pieces = .ok (bs, b.size)

/-- **The size that is computed for a block is that of what is written for it**, whatever numbers,
byte strings and lists it has. -/
theorem fits_size (b : Block) : b.FitsSize := by
  have hencode : b.InRange → b.encode = .ok b.pieces.flatten := fun hrange =>
    encode_eq_ok.2 ⟨check_eq_ok.2 hrange, rfl⟩
  refine ⟨by rw [encode, layOut_eq_fill], ?_, fun e he => outOfRange_of_encode_error he,
    fun hnone => ?_⟩
  · constructor
    · rintro ⟨e, he⟩
      obtain ⟨r, a, hout, -⟩ := outOfRange_of_encode_error he
      exact ⟨r, a, hout⟩
    · intro hout
      cases he : b.encode with
      | error e => exact ⟨e, rfl⟩
      | ok bs => exact absurd (check_eq_ok.1 (encode_eq_ok.1 he).1) (exists_outOfRange_iff.1 hout)
  · have hrange : b.InRange := Classical.byContradiction fun hout => by
      obtain ⟨r, a, hout⟩ := exists_outOfRange_iff.2 hout
      exact hnone r a hout
    refine ⟨_, hencode hrange, b.length_pieces, fun buffer hbuffer => ?_⟩
    have hfill := Buffer.fill_whole (b.length_pieces.trans hbuffer.symm)
    rwa [hbuffer] at hfill

end Block
end LightSync
