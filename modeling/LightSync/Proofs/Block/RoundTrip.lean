import LightSync.Block.Decoding
import LightSync.Block.Identity
import LightSync.Proofs.Action.Outcome
import LightSync.Proofs.Block.Spelling
import LightSync.Proofs.Number.Integers

/-!
# Decoding undoes encoding

`Reads step bs tail a` says that a step of the reader takes `bs` off bytes that go on with `tail`,
and yields `a`. It is composed along the steps, so that each part of a block is read from any of its
spellings, and so is the whole block (`decode_of_spells`), in particular from its encoded form
(`decode_encode`). A block whose numbers fit their fields has one
(`decode_encode_of_inRange`). Numbers come back as a column would keep them, with one zero
(`Block.plain`).
-/

set_option autoImplicit false

namespace LightSync

/-! ## Layout -/

/-- Pieces that fill a space are laid out one behind the other. -/
theorem layOut_flatten (pieces : List Bytes) :
    layOut pieces.flatten.length pieces = .ok pieces.flatten := by
  induction pieces with
  | nil => rfl
  | cons piece rest ih =>
      have hroom : (piece :: rest).flatten.length - piece.length = rest.flatten.length := by
        rw [List.flatten_cons, List.length_append]
        omega
      have hfits : piece.length ≤ (piece :: rest).flatten.length := by
        rw [List.flatten_cons, List.length_append]
        omega
      rw [layOut, if_pos hfits, hroom, ih]
      rfl

theorem length_bytesPieces (bs : Bytes) : (bytesPieces bs).flatten.length = sizeOfBytes bs := by
  simp [bytesPieces, sizeOfBytes, CompactSize.length_encode]

theorem length_listPieces {α : Type} {pieces : α → List Bytes} {size : α → Nat} {xs : List α}
    (h : ∀ x ∈ xs, (pieces x).flatten.length = size x) :
    (listPieces pieces xs).flatten.length = sizeOfList size xs := by
  have helements : (xs.flatMap pieces).flatten.length = (xs.map size).foldr (· + ·) 0 := by
    induction xs with
    | nil => rfl
    | cons x xs ih =>
        rw [List.flatMap_cons, List.flatten_append, List.length_append, h x List.mem_cons_self,
          ih fun y hy => h y (List.mem_cons_of_mem x hy)]
        rfl
  rw [listPieces, List.flatten_cons, List.length_append, CompactSize.length_encode, helements,
    sizeOfList]

theorem SaplingOutput.length_pieces (o : SaplingOutput) : o.pieces.flatten.length = o.size := by
  simp only [pieces, List.flatten_append, List.length_append, length_bytesPieces, size]

theorem OrchardAction.length_pieces (a : OrchardAction) : a.pieces.flatten.length = a.size := by
  simp only [pieces, List.flatten_append, List.length_append, length_bytesPieces, size]

@[simp] theorem length_fixedPiece (width : Nat) (a : Number) :
    (fixedPiece width a).length = width :=
  Bytes.length_littleEndian _ _

theorem Tx.length_pieces (tx : Tx) : tx.pieces.flatten.length = tx.size := by
  simp only [pieces, List.cons_append, List.flatten_cons, List.flatten_append, List.length_append,
    length_fixedPiece, length_bytesPieces, size,
    length_listPieces fun bs (_ : bs ∈ tx.spends) => length_bytesPieces bs,
    length_listPieces fun o (_ : o ∈ tx.outputs) => o.length_pieces,
    length_listPieces fun a (_ : a ∈ tx.actions) => a.length_pieces]
  omega

theorem Block.length_pieces (b : Block) : b.pieces.flatten.length = b.size := by
  simp only [pieces, List.flatten_cons, List.flatten_append, List.length_append,
    length_fixedPiece, length_bytesPieces, size,
    length_listPieces fun tx (_ : tx ∈ b.txs) => tx.length_pieces]
  omega

/-- The encoded form of a block that passes its checks. -/
theorem Block.encode_eq_ok {b : Block} {data : Bytes} :
    b.encode = .ok data ↔ b.check = .ok () ∧ data = b.pieces.flatten := by
  unfold encode
  rw [Except.bind_eq_ok, ← b.length_pieces, layOut_flatten]
  constructor
  · rintro ⟨_, hcheck, h⟩
    cases h
    exact ⟨hcheck, rfl⟩
  · rintro ⟨hcheck, rfl⟩
    exact ⟨(), hcheck, rfl⟩

namespace Reader

/-! ## Steps -/

/-- From `bs` with `tail` behind it a step reads `a`, and leaves the tail. -/
def Reads {α : Type} (step : Step α) (bs tail : Bytes) (a : α) : Prop :=
  ∀ r : Reader, r.rest = bs ++ tail → ∃ r', step r = .ok (a, r') ∧ r'.rest = tail

section

variable {α β : Type} {step : Step α} {next : α → Step β} {bs cs tail : Bytes} {a : α} {b : β}

theorem Reads.pure (a : α) (tail : Bytes) : Reads (pure a) [] tail a :=
  fun r hr => ⟨r, rfl, hr⟩

theorem Reads.bind (hstep : Reads step bs (cs ++ tail) a) (hnext : Reads (next a) cs tail b) :
    Reads (step >>= next) (bs ++ cs) tail b := by
  intro r hr
  obtain ⟨r1, h1, hr1⟩ := hstep r (by rw [hr, List.append_assoc])
  obtain ⟨r2, h2, hr2⟩ := hnext r1 hr1
  exact ⟨r2, StateT.bind_eq_ok.2 ⟨a, r1, h1, h2⟩, hr2⟩

/-- A step that only looks at the bytes. -/
theorem Reads.look (hstep : ∀ r : Reader, r.rest = bs ++ tail → step r = .ok (a, r))
    (hnext : Reads (next a) bs tail b) : Reads (step >>= next) bs tail b := by
  intro r hr
  obtain ⟨r1, h1, hr1⟩ := hnext r hr
  exact ⟨r1, StateT.bind_eq_ok.2 ⟨a, r, hstep r hr, h1⟩, hr1⟩

/-- What is read is turned into something else. -/
theorem Reads.map (hstep : Reads step bs tail a) (f : α → β) :
    Reads (step >>= fun a => Pure.pure (f a)) bs tail (f a) := by
  have h := @Reads.bind _ _ step (fun a => Pure.pure (f a)) bs [] tail a (f a) hstep
    (Reads.pure (f a) tail)
  rwa [List.append_nil] at h

end

/-! ## Bytes -/

section

variable {r : Reader} {bs tail : Bytes} {n : Nat}

/-- Behind `bs` there is more. -/
theorem length_le_remaining (hr : r.rest = bs ++ tail) : bs.length ≤ r.remaining := by
  rw [r.remaining_eq, hr, List.length_append]
  omega

theorem need_of_rest (hr : r.rest = bs ++ tail) (hn : n ≤ bs.length) : need n r = .ok ((), r) := by
  unfold need
  rw [if_neg (Nat.not_lt.2 (Nat.le_trans hn (length_le_remaining hr)))]

theorem peek_of_rest (hr : r.rest = bs ++ tail) (hn : n ≤ bs.length) :
    peek n r = .ok (bs.take n, r) := by
  unfold peek
  rw [if_pos (Nat.le_trans hn (length_le_remaining hr)), hr, List.take_append_of_le_length hn]

theorem reads_take (tail : Bytes) (hn : bs.length = n) : Reads (take n) bs tail bs := by
  subst hn
  intro r hr
  have htaken : r.rest.take bs.length = bs := by rw [hr, List.take_left]
  have hleft : r.rest.drop bs.length = tail := by rw [hr, List.drop_left]
  unfold take
  rw [if_pos (length_le_remaining hr), htaken]
  exact ⟨_, rfl, hleft⟩

end

/-! ## Numbers -/

theorem reads_word32 (n : Nat) (tail : Bytes) :
    Reads word32 (Bytes.littleEndian 4 n) tail (n % Bytes.range 4) := by
  refine Reads.look (fun r hr => need_of_rest hr (by simp)) ?_
  have h := (reads_take tail (Bytes.length_littleEndian 4 n)).map Bytes.value
  rwa [Bytes.value_littleEndian] at h

theorem reads_word64 {n : Nat} (hn : n ≤ Number.maxSafe) (tail : Bytes) :
    Reads word64 (Bytes.littleEndian 8 n) tail n := by
  have hvalue : Bytes.value (Bytes.littleEndian 8 n) = n := by
    rw [Bytes.value_littleEndian]
    exact Nat.mod_eq_of_lt (Nat.lt_of_le_of_lt hn (by decide))
  refine Reads.look (fun r hr => need_of_rest hr (by simp)) ?_
  refine Reads.look (fun r hr => peek_of_rest hr (by simp)) ?_
  have htake : (Bytes.littleEndian 8 n).take 8 = Bytes.littleEndian 8 n :=
    List.take_of_length_le (by simp)
  rw [htake, hvalue]
  show Reads (if Number.maxSafe < n then _ else take 8 >>= fun _ => pure n) _ _ _
  rw [if_neg (Nat.not_lt.2 hn)]
  exact (reads_take tail (Bytes.length_littleEndian 8 n)).map fun _ => n

/-! ## Sizes -/

theorem reads_compactSize {n : Nat} {form : Bytes} (h : CompactSize.Form n form) (tail : Bytes) :
    Reads compactSize form tail n := by
  obtain ⟨hwidth, hvalue⟩ := h.width_and_valueOf
  have hpos : 1 ≤ form.length :=
    Nat.le_trans (CompactSize.one_le_length_encode n) h.encode_least.1
  have hfirst : (form.take 1).headD 0 = form.headD 0 := by
    cases form <;> rfl
  refine Reads.look (fun r hr => need_of_rest hr hpos) ?_
  refine Reads.look (fun r hr => peek_of_rest hr hpos) ?_
  show Reads (need (CompactSize.width ((form.take 1).headD 0)) >>= fun _ =>
    take (CompactSize.width ((form.take 1).headD 0)) >>= fun bs =>
      pure (CompactSize.valueOf bs)) _ _ _
  rw [hfirst, hwidth]
  refine Reads.look (fun r hr => need_of_rest hr (Nat.le_refl _)) ?_
  have hread := (reads_take tail (rfl : form.length = _)).map CompactSize.valueOf
  rwa [hvalue] at hread

/-- A count is read if there are as many bytes behind it. -/
theorem reads_count {n : Nat} {form : Bytes} (h : CompactSize.Form n form) {tail : Bytes}
    (hleft : n ≤ tail.length) : Reads count form tail n := by
  intro r hr
  obtain ⟨r', hsize, hr'⟩ := reads_compactSize h tail r hr
  have henough : ¬ r'.remaining < n := by
    rw [r'.remaining_eq, hr']
    exact Nat.not_lt.2 hleft
  refine ⟨r', StateT.bind_eq_ok.2 ⟨n, r', hsize, ?_⟩, hr'⟩
  show (if r'.remaining < n then _ else pure n : Step Nat) r' = _
  rw [if_neg henough]
  rfl

/-! ## Byte strings and lists -/

theorem reads_bytes {x bs : Bytes} {forms : List Bytes} (h : Spells (bytesParts x) forms bs)
    (tail : Bytes) : Reads bytes bs tail x := by
  cases h with
  | size hform h =>
      cases h with
      | bytes h =>
          cases h
          rw [List.append_nil]
          refine (reads_compactSize hform (x ++ tail)).bind ?_
          exact Reads.look (fun r hr => need_of_rest hr (Nat.le_refl _)) (reads_take tail rfl)

section

variable {α β : Type} {step : Step β} {parts : α → List Part} {f : α → β} {xs : List α}
  {forms : List Bytes} {bs : Bytes}

theorem reads_times
    (h : ∀ x ∈ xs, ∀ forms bs, Spells (parts x) forms bs → ∀ tail, Reads step bs tail (f x))
    (hbs : Spells (xs.flatMap parts) forms bs) (tail : Bytes) :
    Reads (times step xs.length) bs tail (xs.map f) := by
  induction xs generalizing forms bs with
  | nil =>
      cases hbs
      exact Reads.pure [] tail
  | cons x xs ih =>
      rw [List.flatMap_cons] at hbs
      obtain ⟨_, _, bs1, bs2, rfl, h1, h2⟩ := hbs.split
      refine (h x List.mem_cons_self _ _ h1 _).bind ?_
      exact (ih (fun y hy => h y (List.mem_cons_of_mem x hy)) h2).map (f x :: ·)

/-- A list is read from its elements, which take up at least a byte each. -/
theorem reads_list (hpos : ∀ x, 1 ≤ (written (parts x)).length)
    (h : ∀ x ∈ xs, ∀ forms bs, Spells (parts x) forms bs → ∀ tail, Reads step bs tail (f x))
    (hbs : Spells (listParts parts xs) forms bs) (tail : Bytes) :
    Reads (list step) bs tail (xs.map f) := by
  cases hbs with
  | @size n form bs _ forms hform hbs =>
      have hleft : xs.length ≤ (bs ++ tail).length := by
        have hcount := length_le_written hpos xs
        have hle := hbs.length_le
        rw [List.length_append]
        omega
      exact (reads_count hform hleft).bind (reads_times h hbs tail)

end

end Reader

/-! ## Numbers of a block -/

namespace Number

/-- An integer from zero up to a bound. -/
def IsUpTo (bound : Nat) (a : Number) : Prop := ∃ n : Nat, a.toInt? = some (n : Int) ∧ n ≤ bound

theorem isWord32_iff {a : Number} : a.isWord32 = true ↔ a.IsUpTo 0xffffffff := by
  unfold isWord32
  constructor
  · intro h
    split at h
    · rename_i z hz
      simp only [Bool.and_eq_true, decide_eq_true_eq] at h
      obtain ⟨n, rfl⟩ := Int.eq_ofNat_of_zero_le h.1
      exact ⟨n, hz, by omega⟩
    · cases h
  · rintro ⟨n, hn, hle⟩
    have hle' : (n : Int) ≤ 0xffffffff := by omega
    simp [hn, hle']

theorem isSafeNat_iff {a : Number} : a.isSafeNat = true ↔ a.IsUpTo maxSafe := by
  unfold isSafeNat
  constructor
  · intro h
    split at h
    · rename_i z hz
      obtain ⟨hz, hsafe⟩ := toSafeInt?_eq_some.1 hz
      obtain ⟨n, rfl⟩ := Int.eq_ofNat_of_zero_le (of_decide_eq_true h)
      exact ⟨n, hz, hsafe⟩
    · cases h
  · rintro ⟨n, hn, hle⟩
    have hsafe : a.toSafeInt? = some (n : Int) := toSafeInt?_eq_some.2 ⟨hn, hle⟩
    simp [hsafe]

theorem kept_of_toInt? {a : Number} {n : Int} (h : a.toInt? = some n) : a.kept = .int n := by
  rcases toInt?_eq_some.1 h with rfl | ⟨rfl, rfl⟩
  · rfl
  · rfl

end Number

/-- A natural number that fits is written as it is. -/
theorem fixedPiece_of_toInt? {a : Number} {n width : Nat} (h : a.toInt? = some (n : Int))
    (hn : n < 1 <<< (8 * width)) : fixedPiece width a = Bytes.littleEndian width n := by
  rw [fixedPiece, Number.wrapped_of_toInt? h hn]

namespace Reader

/-- A number of 32 bits comes back. -/
theorem reads_word32_of_isUpTo {a : Number} (h : a.IsUpTo 0xffffffff) :
    ∃ n : Nat, a.kept = .int n ∧ ∀ tail, Reads word32 (fixedPiece 4 a) tail n := by
  obtain ⟨n, hn, hle⟩ := h
  have hlt : n < 4294967296 := by omega
  refine ⟨n, Number.kept_of_toInt? hn, fun tail => ?_⟩
  have hread := reads_word32 n tail
  rw [Nat.mod_eq_of_lt (show n < Bytes.range 4 from hlt)] at hread
  rwa [fixedPiece_of_toInt? hn hlt]

/-- A natural number in the exact range comes back. -/
theorem reads_word64_of_isUpTo {a : Number} (h : a.IsUpTo Number.maxSafe) :
    ∃ n : Nat, a.kept = .int n ∧ ∀ tail, Reads word64 (fixedPiece 8 a) tail n := by
  obtain ⟨n, hn, hle⟩ := h
  have hfits : n < 1 <<< (8 * 8) := Nat.lt_of_le_of_lt hle (by decide)
  refine ⟨n, Number.kept_of_toInt? hn, fun tail => ?_⟩
  rw [fixedPiece_of_toInt? hn hfits]
  exact reads_word64 hle tail

end Reader

/-! ### Checks -/

theorem require_eq_ok {r : Requirement} {holds : Bool} {a : Number} {u : Unit} :
    require r holds a = .ok u ↔ holds = true := by
  unfold require
  cases holds <;> simp

namespace Tx

/-- The transaction as it is read back. -/
def plain (tx : Tx) : Tx := { tx with index := tx.index.kept, fee := tx.fee.kept }

theorem check_eq_ok {tx : Tx} {u : Unit} :
    tx.check = .ok u ↔ tx.index.IsUpTo 0xffffffff ∧ tx.fee.IsUpTo Number.maxSafe := by
  unfold check
  rw [Except.bind_eq_ok, ← Number.isWord32_iff, ← Number.isSafeNat_iff]
  simp [require_eq_ok]

end Tx

namespace Block

/-- The block as it is read back: its numbers as a column would keep them. -/
def plain (b : Block) : Block :=
  { b with
    protoVersion := b.protoVersion.kept
    height := b.height.kept
    time := b.time.kept
    txs := b.txs.map Tx.plain }

/-- Every number of the block is one that its field holds. -/
structure InRange (b : Block) : Prop where
  protoVersion : b.protoVersion.IsUpTo 0xffffffff
  height : b.height.IsUpTo 0xffffffff
  time : b.time.IsUpTo 0xffffffff
  indices : ∀ tx ∈ b.txs, tx.index.IsUpTo 0xffffffff
  fees : ∀ tx ∈ b.txs, tx.fee.IsUpTo Number.maxSafe

theorem forM_check_eq_ok {txs : List Tx} {u : PUnit} :
    txs.forM Tx.check = .ok u ↔ ∀ tx ∈ txs, tx.check = .ok () := by
  induction txs with
  | nil => exact iff_of_true rfl nofun
  | cons tx txs ih =>
      rw [List.forall_mem_cons, ← ih]
      show (tx.check >>= fun _ => txs.forM Tx.check) = .ok u ↔ _
      rw [Except.bind_eq_ok]
      exact ⟨fun ⟨_, htx, hrest⟩ => ⟨htx, hrest⟩, fun ⟨htx, hrest⟩ => ⟨(), htx, hrest⟩⟩

/-- The checks let through the blocks whose numbers fit. -/
theorem check_eq_ok {b : Block} {u : Unit} : b.check = .ok u ↔ b.InRange := by
  unfold check
  simp only [Except.bind_eq_ok, require_eq_ok, Number.isWord32_iff, forM_check_eq_ok,
    Tx.check_eq_ok]
  constructor
  · rintro ⟨-, hversion, -, hheight, -, htime, htxs⟩
    exact ⟨hversion, hheight, htime, fun tx htx => (htxs tx htx).1, fun tx htx => (htxs tx htx).2⟩
  · intro h
    exact ⟨(), h.protoVersion, (), h.height, (), h.time,
      fun tx htx => ⟨h.indices tx htx, h.fees tx htx⟩⟩

end Block

/-! ## Parts of a block -/

namespace Reader

variable {forms : List Bytes} {bs : Bytes}

theorem reads_saplingOutput {o : SaplingOutput} (h : Spells o.parts forms bs) (tail : Bytes) :
    Reads saplingOutput bs tail o := by
  obtain ⟨_, _, _, bs3, rfl, h, h3⟩ := Spells.split h
  obtain ⟨_, _, bs1, bs2, rfl, h1, h2⟩ := h.split
  rw [List.append_assoc]
  refine (reads_bytes h1 _).bind ?_
  refine (reads_bytes h2 _).bind ?_
  exact (reads_bytes h3 _).map fun ciphertext =>
    SaplingOutput.mk o.commitment o.ephemeralKey ciphertext

theorem reads_orchardAction {a : OrchardAction} (h : Spells a.parts forms bs) (tail : Bytes) :
    Reads orchardAction bs tail a := by
  obtain ⟨_, _, _, bs4, rfl, h, h4⟩ := Spells.split h
  obtain ⟨_, _, _, bs3, rfl, h, h3⟩ := h.split
  obtain ⟨_, _, bs1, bs2, rfl, h1, h2⟩ := h.split
  rw [List.append_assoc, List.append_assoc]
  refine (reads_bytes h1 _).bind ?_
  refine (reads_bytes h2 _).bind ?_
  refine (reads_bytes h3 _).bind ?_
  exact (reads_bytes h4 _).map fun ciphertext =>
    OrchardAction.mk a.nullifier a.commitment a.ephemeralKey ciphertext

theorem reads_tx {t : Tx} (hindex : t.index.IsUpTo 0xffffffff) (hfee : t.fee.IsUpTo Number.maxSafe)
    (h : Spells t.parts forms bs) (tail : Bytes) : Reads tx bs tail t.plain := by
  obtain ⟨index, hkept, hindex⟩ := reads_word32_of_isUpTo hindex
  obtain ⟨fee, hkept', hfee⟩ := reads_word64_of_isUpTo hfee
  unfold Tx.plain
  rw [hkept, hkept']
  -- the index and the hash, the fee, and the three lists
  obtain ⟨_, _, _, _, rfl, hfirst, hsecond⟩ := Spells.split h
  cases hfirst with
  | @bytes _ bs1 _ _ h1 =>
  cases hsecond with
  | @bytes _ _ _ _ hlists =>
      obtain ⟨_, _, _, bs4, rfl, hlists, h4⟩ := hlists.split
      obtain ⟨_, _, bs2, bs3, rfl, h2, h3⟩ := hlists.split
      have hspends := reads_list one_le_written_bytes (fun _ _ _ _ => reads_bytes) h2
      have houtputs := reads_list SaplingOutput.one_le_written
        (fun _ _ _ _ => reads_saplingOutput) h3
      have hactions := reads_list OrchardAction.one_le_written
        (fun _ _ _ _ => reads_orchardAction) h4
      simp only [List.map_id'] at hspends houtputs hactions
      rw [List.append_assoc, List.append_assoc]
      refine (hindex _).bind ?_
      refine (reads_bytes h1 _).bind ?_
      refine (hfee _).bind ?_
      refine (hspends _).bind ?_
      refine (houtputs _).bind ?_
      exact (hactions _).map fun actions =>
        Tx.mk (.int index) t.hash (.int fee) t.spends t.outputs actions

theorem reads_finished : Reads finished [] [] () := by
  intro r hr
  have hnone : r.remaining = 0 := by
    rw [r.remaining_eq, hr]
    rfl
  refine ⟨r, ?_, hr⟩
  show (if r.remaining ≠ 0 then _ else pure () : Step Unit) r = _
  rw [if_neg (not_not_intro hnone)]
  rfl

/-- The fields of a block; what is behind them is not asked for. -/
def blockFields : Step Block := do
  let protoVersion ← word32
  let height ← word32
  let hash ← bytes
  let parent ← bytes
  let time ← word32
  let header ← bytes
  let txs ← list tx
  return {
    protoVersion := .int protoVersion, height := .int height, hash, parent,
    time := .int time, header, txs }

theorem block_eq : block = blockFields >>= fun b => finished >>= fun _ => Pure.pure b := by
  simp only [block, blockFields, bind_assoc, pure_bind]

/-- The fields of a block are read from any of its spellings, whatever is behind it. -/
theorem reads_blockFields {b : Block} (hrange : b.InRange) (h : Spells b.parts forms bs)
    (tail : Bytes) : Reads blockFields bs tail b.plain := by
  obtain ⟨version, hkept, hversion⟩ := reads_word32_of_isUpTo hrange.protoVersion
  obtain ⟨height, hkept', hheight⟩ := reads_word32_of_isUpTo hrange.height
  obtain ⟨time, hkept'', htime⟩ := reads_word32_of_isUpTo hrange.time
  unfold Block.plain
  rw [hkept, hkept', hkept'']
  cases h with
  | bytes h =>
  cases h with
  | bytes h =>
  obtain ⟨_, _, _, _, rfl, hhashes, htime'⟩ := Spells.split h
  obtain ⟨_, _, bs1, bs2, rfl, h1, h2⟩ := hhashes.split
  cases htime' with
  | bytes hlast =>
      obtain ⟨_, _, bs3, bs4, rfl, h3, h4⟩ := hlast.split
      have htxs := reads_list Tx.one_le_written (fun tx htx _ _ =>
        reads_tx (hrange.indices tx htx) (hrange.fees tx htx)) h4
      rw [List.append_assoc]
      refine (hversion _).bind ?_
      refine (hheight _).bind ?_
      refine (reads_bytes h1 _).bind ?_
      refine (reads_bytes h2 _).bind ?_
      refine (htime _).bind ?_
      refine (reads_bytes h3 _).bind ?_
      exact (htxs _).map fun txs =>
        Block.mk (.int version) (.int height) b.hash b.parent (.int time) b.header txs

end Reader

/-! ## Blocks -/

namespace Block

theorem reads_block {b : Block} {forms : List Bytes} {bs : Bytes} (hrange : b.InRange)
    (h : Spells b.parts forms bs) : Reader.Reads Reader.block bs [] b.plain := by
  rw [Reader.block_eq, ← List.append_nil bs]
  exact (Reader.reads_blockFields hrange h _).bind (Reader.reads_finished.map fun _ => b.plain)

/-- Every spelling of a block is decoded to it. -/
theorem decode_of_spells {b : Block} {forms : List Bytes} {data : Bytes} (hrange : b.InRange)
    (h : Spells b.parts forms data) (height : Option Number) :
    Block.decode data height = .ok b.plain := by
  obtain ⟨r, hread, -⟩ := reads_block hrange h (Reader.start data) (List.append_nil data).symm
  have hrun : Reader.block.run (Reader.start data) = .ok (b.plain, r) := hread
  unfold Block.decode
  rw [hrun]

/-! ### The encoded form -/

/-- **Decoding undoes encoding**, for a block whose encoded form has fewer bytes than the widest
count can tell. -/
theorem decode_encode {b : Block} {data : Bytes} (h : b.encode = .ok data)
    (hsize : data.length < CompactSize.bound) (height : Option Number) :
    Block.decode data height = .ok b.plain := by
  obtain ⟨hcheck, hdata⟩ := encode_eq_ok.1 h
  rw [← written_parts] at hdata
  subst hdata
  refine decode_of_spells (check_eq_ok.1 hcheck) (spells_shortest fun n hn => ?_) height
  exact Nat.lt_of_le_of_lt (b.covered_parts n hn) hsize

/-- **Every block whose numbers fit is encoded, and decoded again**, at whatever height: with byte
strings and lists of any length that the widest form of a size can tell, and field for field but
for the two zeros. -/
theorem decode_encode_of_inRange {b : Block} (hrange : b.InRange)
    (hsizes : ∀ n ∈ sizes b.parts, n < CompactSize.bound) :
    ∃ data, b.encode = .ok data ∧ ∀ height, Block.decode data height = .ok b.plain := by
  refine ⟨b.pieces.flatten, encode_eq_ok.2 ⟨check_eq_ok.2 hrange, rfl⟩, fun height => ?_⟩
  rw [← written_parts]
  exact decode_of_spells hrange (spells_shortest hsizes) height

/-- A block at the edges: numbers that are zero with a sign or the greatest of their fields, and
byte strings and lists that are empty or long enough for a size with a marker. -/
def edgeBlock : Block where
  protoVersion := .negZero
  height := 0xffffffff
  hash := []
  parent := List.replicate 253 7
  time := 0
  header := List.replicate 300 9
  txs := [
    { index := 0xffffffff, hash := [1], fee := .int Number.maxSafe, spends := List.replicate 254 [],
      outputs := [⟨[2], [], [3]⟩], actions := [⟨[4], [5], [], [6]⟩] },
    { index := .negZero, hash := [], fee := .negZero, spends := [], outputs := [], actions := [] }]

theorem decode_encode_of_inRange_edgeBlock :
    edgeBlock.InRange ∧ (∀ n ∈ sizes edgeBlock.parts, n < CompactSize.bound) ∧
      ∃ data, edgeBlock.encode = .ok data ∧
        ∀ height, Block.decode data height = .ok edgeBlock.plain := by
  have hrange : edgeBlock.InRange := check_eq_ok.1 (rfl : edgeBlock.check = .ok ())
  have hsizes : ∀ n ∈ sizes edgeBlock.parts, n < CompactSize.bound := by decide +kernel
  exact ⟨hrange, hsizes, decode_encode_of_inRange hrange hsizes⟩

/-! ### Who the block is -/

theorem hash?_plain {b : Block} {hash : Bytes} : b.plain.hash? = .ok hash ↔ b.hash? = .ok hash := by
  unfold hash? hasHeader plain
  dsimp only
  split
  · exact Iff.rfl
  · split
    · exact Iff.rfl
    · exact ⟨nofun, nofun⟩

theorem parent?_plain {b : Block} {hash : Bytes} :
    b.plain.parent? = .ok hash ↔ b.parent? = .ok hash := by
  unfold parent? hasHeader plain
  dsimp only
  split
  · exact Iff.rfl
  · split
    · exact Iff.rfl
    · exact ⟨nofun, nofun⟩

end Block

end LightSync
