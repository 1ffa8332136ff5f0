import LightSync.Proofs.Block.RoundTrip
import LightSync.Proofs.Number.Rounding

/-!
# What the reader takes

`Reader.Takes r step Taken` is the account of a step of the reader from `r` on, whatever the bytes:
if it yields something, the bytes that it took off the rest are as `Taken` says; and if it stops, it
refuses the bytes with something that is true of them, and was never asked for a byte beyond their
end. There is one rule for each way to compose steps and one account for each step. Of the whole it
follows that every string of bytes is decoded or refused with something true
(`Block.decode_or_refuse`), and that bytes which are decoded spell the block, whose numbers fit
(`Block.read_of_decode`).
-/

set_option autoImplicit false

namespace LightSync

/-! ## Refusals -/

/-- What a refusal says of a string of `size` bytes, as far as its length tells: reading stopped
inside it, and it does not have the bytes that were needed. -/
def Defect.TrueOf (size : Nat) : Defect → Prop
  | .unexpectedEnd offset needed => offset ≤ size ∧ size < offset + needed
  | .countTooLarge count remaining => remaining < count ∧ remaining ≤ size
  | .valueTooLarge value => Number.maxSafe < value ∧ value < CompactSize.bound
  | .trailing count => 0 < count ∧ count ≤ size
  | .other _ => False

namespace Reader

/-- How many bytes there are, read or not. -/
def size (r : Reader) : Nat := r.offset + r.remaining

theorem size_eq_of_rest {r r' : Reader} {bs : Bytes} (hrest : r.rest = bs ++ r'.rest)
    (hoffset : r'.offset = r.offset + bs.length) : r'.size = r.size := by
  unfold size
  rw [r'.remaining_eq, r.remaining_eq, hrest, hoffset, List.length_append]
  omega

/-! ## Accounts of steps -/

/-- From `r` on, a step takes bytes that are as `Taken` says, or refuses with something true. -/
def Takes {α : Type} (r : Reader) (step : Step α) (Taken : α → Bytes → Prop) : Prop :=
  match step r with
  | .ok (a, r') => ∃ bs, r.rest = bs ++ r'.rest ∧ r'.offset = r.offset + bs.length ∧ Taken a bs
  | .error stop => ∃ defect, stop = .malformed defect ∧ defect.TrueOf r.size

section

variable {α β : Type} {r : Reader} {step : Step α} {next : α → Step β} {Taken : α → Bytes → Prop}
  {Taken' : β → Bytes → Prop} {n : Nat}

theorem Takes.pure {b : β} (h : Taken' b []) : Takes r (Pure.pure b) Taken' :=
  ⟨[], rfl, rfl, h⟩

theorem takes_refuse {defect : Defect} (h : defect.TrueOf r.size) :
    Takes r (refuse defect) Taken :=
  ⟨defect, rfl, h⟩

theorem Takes.mono {Taken' : α → Bytes → Prop} (h : Takes r step Taken)
    (himp : ∀ a bs, Taken a bs → Taken' a bs) : Takes r step Taken' := by
  unfold Takes at h ⊢
  cases hstep : step r with
  | error stop =>
      rw [hstep] at h
      exact h
  | ok out =>
      rw [hstep] at h
      obtain ⟨bs, hrest, hoffset, hbs⟩ := h
      exact ⟨bs, hrest, hoffset, himp _ bs hbs⟩

/-- The next step goes on behind what was taken. -/
theorem Takes.bind (hstep : Takes r step Taken)
    (hnext : ∀ a bs r', Taken a bs → r.rest = bs ++ r'.rest →
      Takes r' (next a) fun b cs => Taken' b (bs ++ cs)) :
    Takes r (step >>= next) Taken' := by
  unfold Takes at hstep
  cases hrun : step r with
  | error stop =>
      rw [hrun] at hstep
      have hbind : (step >>= next) r = .error stop := StateT.bind_eq_error.2 (Or.inl hrun)
      unfold Takes
      rw [hbind]
      exact hstep
  | ok out =>
      rw [hrun] at hstep
      obtain ⟨bs, hrest, hoffset, hbs⟩ := hstep
      have hbind : (step >>= next) r = next out.1 out.2 := by
        show Except.bind (step r) _ = _
        rw [hrun]
        rfl
      have hthen := hnext out.1 bs out.2 hbs hrest
      unfold Takes at hthen ⊢
      rw [hbind]
      cases hrun' : next out.1 out.2 with
      | error stop =>
          rw [hrun', size_eq_of_rest hrest hoffset] at hthen
          exact hthen
      | ok out' =>
          rw [hrun'] at hthen
          obtain ⟨cs, hrest', hoffset', hcs⟩ := hthen
          refine ⟨bs ++ cs, ?_, ?_, hcs⟩
          · rw [hrest, hrest', List.append_assoc]
          · rw [hoffset', hoffset, List.length_append]
            omega

/-- A step that goes on from the same place. -/
theorem Takes.look {a : α} (hstep : step r = .ok (a, r)) (hnext : Takes r (next a) Taken') :
    Takes r (step >>= next) Taken' := by
  have hbind : (step >>= next) r = next a r := by
    show Except.bind (step r) _ = _
    rw [hstep]
    rfl
  unfold Takes
  rw [hbind]
  exact hnext

/-- A test that refuses the bytes, or lets the reader go on. -/
theorem Takes.unless {next : Unit → Step β} {refused : Prop} [Decidable refused] {defect : Defect}
    (htrue : refused → defect.TrueOf r.size)
    (hnext : ¬ refused → Takes r (next ()) Taken') :
    Takes r (if refused then refuse defect >>= next else next ()) Taken' := by
  by_cases h : refused
  · rw [if_pos h]
    exact (takes_refuse (htrue h)).bind fun _ _ _ (hnone : False) _ => hnone.elim
  · rw [if_neg h]
    exact hnext h

/-- Behind a check there are the bytes that were asked for. -/
theorem Takes.need {next : Unit → Step β} (hnext : n ≤ r.remaining → Takes r (next ()) Taken') :
    Takes r (need n >>= next) Taken' := by
  by_cases hn : r.remaining < n
  · have hstop : (Reader.need n >>= next) r = .error (.malformed (.unexpectedEnd r.offset n)) := by
      refine StateT.bind_eq_error.2 (Or.inl ?_)
      unfold Reader.need
      rw [if_pos hn]
    unfold Takes
    rw [hstop]
    refine ⟨_, rfl, Nat.le_add_right _ _, ?_⟩
    unfold size
    omega
  · refine Takes.look ?_ (hnext (Nat.le_of_not_lt hn))
    unfold Reader.need
    rw [if_neg hn]

theorem Takes.peek {next : Bytes → Step β} (hn : n ≤ r.remaining)
    (hnext : Takes r (next (r.rest.take n)) Taken') : Takes r (peek n >>= next) Taken' := by
  refine Takes.look ?_ hnext
  unfold Reader.peek
  rw [if_pos hn]

theorem length_take_rest (hn : n ≤ r.remaining) : (r.rest.take n).length = n := by
  rw [List.length_take, ← r.remaining_eq]
  omega

theorem takes_take (hn : n ≤ r.remaining) :
    Takes r (take n) fun taken bs => taken = r.rest.take n ∧ bs = taken := by
  unfold Takes take
  rw [if_pos hn]
  refine ⟨r.rest.take n, (List.take_append_drop n r.rest).symm, ?_, rfl, rfl⟩
  rw [length_take_rest hn]

/-- Bytes that are taken after they were asked for. -/
theorem Takes.needed {next : Bytes → Step β}
    (hnext : ∀ taken r', taken.length = n → r.rest = taken ++ r'.rest →
      Takes r' (next taken) fun b cs => Taken' b (taken ++ cs)) :
    Takes r (Reader.need n >>= fun _ => take n >>= next) Taken' := by
  refine Takes.need fun hn => (takes_take hn).bind ?_
  rintro taken bs r' ⟨htaken, rfl⟩ hrest
  refine hnext bs r' ?_ hrest
  rw [htaken, length_take_rest hn]

end

/-! ## Numbers -/

variable {r : Reader}

/-- A number that was read from bytes is written as these bytes. -/
theorem fixedPiece_value {bs : Bytes} {width : Nat} (hlength : bs.length = width)
    (hlt : Bytes.value bs < 1 <<< (8 * width)) :
    fixedPiece width (.int (Bytes.value bs)) = bs := by
  rw [fixedPiece_of_toInt? rfl hlt, ← hlength, Bytes.littleEndian_value]

theorem takes_word32 : Takes r word32 fun n bs =>
    (Number.int n).IsUpTo 0xffffffff ∧ bs = fixedPiece 4 (.int n) := by
  refine Takes.needed fun taken r' hlength _ => Takes.pure ?_
  have hlt : Bytes.value taken < 0x100000000 := by
    have := Bytes.value_lt taken
    rwa [hlength] at this
  refine ⟨⟨_, rfl, by omega⟩, ?_⟩
  rw [fixedPiece_value hlength hlt, List.append_nil]

/-- A number of 64 bits is looked at before it is taken. -/
theorem takes_word64 : Takes r word64 fun n bs =>
    (Number.int n).IsUpTo Number.maxSafe ∧ bs = fixedPiece 8 (.int n) := by
  refine Takes.need fun hn => Takes.peek hn ?_
  have hlength : (r.rest.take 8).length = 8 := length_take_rest hn
  have hlt : Bytes.value (r.rest.take 8) < CompactSize.bound := by
    have := Bytes.value_lt (r.rest.take 8)
    rwa [hlength] at this
  refine Takes.unless (fun hsafe => ⟨hsafe, hlt⟩) fun hsafe => ?_
  refine (takes_take hn).bind ?_
  rintro taken bs r' ⟨rfl, rfl⟩ -
  refine Takes.pure ⟨⟨_, rfl, Nat.le_of_not_lt hsafe⟩, ?_⟩
  rw [fixedPiece_value hlength hlt, List.append_nil]

/-- Whatever is read as a size is in one of its forms. -/
theorem takes_compactSize : Takes r compactSize CompactSize.Form := by
  refine Takes.need fun hone => Takes.peek hone ?_
  have hfirst : (r.rest.take 1).headD 0 = r.rest.headD 0 := by
    cases r.rest <;> rfl
  rw [hfirst]
  refine Takes.needed fun taken r' hlength hrest => Takes.pure ?_
  rw [List.append_nil]
  refine CompactSize.form_of_width ?_
  have hhead : taken.headD 0 = r.rest.headD 0 := by
    cases taken with
    | nil =>
        have hpos := CompactSize.one_le_width (r.rest.headD 0)
        rw [List.length_nil] at hlength
        omega
    | cons first taken => rw [hrest]; rfl
  rw [hhead, hlength]

theorem takes_count : Takes r count CompactSize.Form := by
  refine takes_compactSize.bind fun n form r' hform _ => ?_
  refine Takes.look (a := r') rfl ?_
  refine Takes.unless (fun hn => ⟨hn, Nat.le_add_left _ _⟩) fun _ => Takes.pure ?_
  rwa [List.append_nil]

/-! ## Byte strings and lists -/

/-- The bytes spell the parts, in whatever forms. -/
def Spelled (parts : List Part) (bs : Bytes) : Prop := ∃ forms, Spells parts forms bs

theorem Spelled.append {parts parts' : List Part} {bs bs' : Bytes} (h : Spelled parts bs)
    (h' : Spelled parts' bs') : Spelled (parts ++ parts') (bs ++ bs') := by
  obtain ⟨forms, h⟩ := h
  obtain ⟨forms', h'⟩ := h'
  exact ⟨forms ++ forms', h.append h'⟩

theorem spelled_nil : Spelled [] [] := ⟨[], Spells.nil⟩

theorem spelled_bytes (bs : Bytes) : Spelled [.bytes bs] bs := by
  have h : Spells [.bytes bs] [] (bs ++ []) := Spells.bytes Spells.nil
  rw [List.append_nil] at h
  exact ⟨[], h⟩

theorem spelled_size {n : Nat} {form : Bytes} (h : CompactSize.Form n form) :
    Spelled [.size n] form := by
  have h := Spells.size h Spells.nil
  rw [List.append_nil] at h
  exact ⟨[form], h⟩

theorem takes_bytes : Takes r bytes fun x bs => Spelled (bytesParts x) bs := by
  refine takes_compactSize.bind fun n form r1 hform _ => ?_
  refine Takes.need fun hn => (takes_take hn).mono ?_
  rintro taken bs ⟨htaken, rfl⟩
  have hlength : bs.length = n := by rw [htaken, length_take_rest hn]
  rw [← hlength] at hform
  exact (spelled_size hform).append (spelled_bytes bs)

section

variable {α : Type} {step : Step α} {parts : α → List Part} {Taken : α → Bytes → Prop}

theorem takes_times (hstep : ∀ r, Takes r step Taken)
    (hspelled : ∀ a bs, Taken a bs → Spelled (parts a) bs) (n : Nat) (r : Reader) :
    Takes r (times step n) fun as bs =>
      as.length = n ∧ (∀ a ∈ as, ∃ bs, Taken a bs) ∧ Spelled (as.flatMap parts) bs := by
  induction n generalizing r with
  | zero => exact Takes.pure ⟨rfl, nofun, spelled_nil⟩
  | succ n ih =>
      refine (hstep r).bind fun a bs r1 ha _ => ?_
      refine (ih r1).bind fun as cs r2 ⟨hlength, htaken, has⟩ _ => Takes.pure ⟨?_, ?_, ?_⟩
      · rw [List.length_cons, hlength]
      · exact List.forall_mem_cons.2 ⟨⟨bs, ha⟩, htaken⟩
      · rw [List.append_nil, List.flatMap_cons]
        exact (hspelled a bs ha).append has

theorem takes_list (hstep : ∀ r, Takes r step Taken)
    (hspelled : ∀ a bs, Taken a bs → Spelled (parts a) bs) :
    Takes r (list step) fun as bs =>
      (∀ a ∈ as, ∃ bs, Taken a bs) ∧ Spelled (listParts parts as) bs := by
  refine takes_count.bind fun n form r1 hform _ => ?_
  refine (takes_times hstep hspelled n r1).mono fun as bs ⟨hlength, htaken, has⟩ => ⟨htaken, ?_⟩
  rw [← hlength] at hform
  exact (spelled_size hform).append has

end

/-! ## Parts of a block -/

theorem takes_saplingOutput : Takes r saplingOutput fun o bs => Spelled o.parts bs := by
  refine takes_bytes.bind fun commitment _ _ h1 _ => ?_
  refine takes_bytes.bind fun key _ _ h2 _ => ?_
  refine takes_bytes.bind fun ciphertext _ _ h3 _ => Takes.pure ?_
  have hall : Spelled (SaplingOutput.mk commitment key ciphertext).parts _ :=
    (h1.append h2).append h3
  simpa only [List.append_assoc, List.append_nil] using hall

theorem takes_orchardAction : Takes r orchardAction fun a bs => Spelled a.parts bs := by
  refine takes_bytes.bind fun nullifier _ _ h1 _ => ?_
  refine takes_bytes.bind fun commitment _ _ h2 _ => ?_
  refine takes_bytes.bind fun key _ _ h3 _ => ?_
  refine takes_bytes.bind fun ciphertext _ _ h4 _ => Takes.pure ?_
  have hall : Spelled (OrchardAction.mk nullifier commitment key ciphertext).parts _ :=
    ((h1.append h2).append h3).append h4
  simpa only [List.append_assoc, List.append_nil] using hall

/-- A transaction as it comes off the bytes: its numbers fit and are what is read back, and the
bytes spell it. -/
structure ReadTx (tx : Tx) (bs : Bytes) : Prop where
  index : tx.index.IsUpTo 0xffffffff
  fee : tx.fee.IsUpTo Number.maxSafe
  plain : tx.plain = tx
  spelled : Spelled tx.parts bs

theorem takes_tx : Takes r tx ReadTx := by
  refine takes_word32.bind fun index _ _ ⟨hindex, h1⟩ _ => ?_
  refine takes_bytes.bind fun hash _ _ h2 _ => ?_
  refine takes_word64.bind fun fee _ _ ⟨hfee, h3⟩ _ => ?_
  refine (takes_list (fun _ => takes_bytes) fun _ _ h => h).bind fun spends _ _ ⟨_, h4⟩ _ => ?_
  refine (takes_list (fun _ => takes_saplingOutput) fun _ _ h => h).bind
    fun outputs _ _ ⟨_, h5⟩ _ => ?_
  refine (takes_list (fun _ => takes_orchardAction) fun _ _ h => h).bind
    fun actions _ _ ⟨_, h6⟩ _ => Takes.pure ?_
  subst h1 h3
  refine ⟨hindex, hfee, rfl, ?_⟩
  have hfirst := (spelled_bytes (fixedPiece 4 (.int index))).append h2
  have hsecond := (spelled_bytes (fixedPiece 8 (.int fee))).append ((h4.append h5).append h6)
  have hall : Spelled (Tx.mk (.int index) hash (.int fee) spends outputs actions).parts _ :=
    hfirst.append hsecond
  simpa only [List.append_assoc, List.append_nil] using hall

theorem takes_finished : Takes r finished fun _ bs => bs = [] ∧ r.rest = [] := by
  refine Takes.look (a := r) rfl ?_
  refine Takes.unless (fun hleft => ⟨Nat.pos_of_ne_zero hleft, Nat.le_add_left _ _⟩) fun hleft => ?_
  have hnone : r.rest.length = 0 := r.remaining_eq ▸ Decidable.not_not.1 hleft
  exact Takes.pure ⟨rfl, List.length_eq_zero_iff.1 hnone⟩

/-- A block comes off all of the bytes. -/
structure ReadBlock (data : Bytes) (b : Block) (bs : Bytes) : Prop where
  inRange : b.InRange
  plain : b.plain = b
  spelled : Spelled b.parts bs
  all : bs = data

theorem takes_block : Takes r block (ReadBlock r.rest) := by
  refine takes_word32.bind fun version _ _ ⟨hversion, h1⟩ hrest1 => ?_
  refine takes_word32.bind fun height _ _ ⟨hheight, h2⟩ hrest2 => ?_
  refine takes_bytes.bind fun hash _ _ h3 hrest3 => ?_
  refine takes_bytes.bind fun parent _ _ h4 hrest4 => ?_
  refine takes_word32.bind fun time _ _ ⟨htime, h5⟩ hrest5 => ?_
  refine takes_bytes.bind fun header _ _ h6 hrest6 => ?_
  refine (takes_list (fun _ => takes_tx) fun _ _ h => h.spelled).bind
    fun txs _ _ ⟨htxs, h7⟩ hrest7 => ?_
  refine takes_finished.bind fun _ _ _ ⟨h8, hnone⟩ _ => Takes.pure ?_
  subst h1 h2 h5 h8
  constructor
  · exact ⟨hversion, hheight, htime, fun tx htx => (htxs tx htx).choose_spec.index,
      fun tx htx => (htxs tx htx).choose_spec.fee⟩
  · have hplain : txs.map Tx.plain = txs.map id :=
      List.map_congr_left fun tx htx => (htxs tx htx).choose_spec.plain
    unfold Block.plain
    dsimp only
    rw [hplain, List.map_id]
    rfl
  · have hnumbers := (spelled_bytes (fixedPiece 4 (.int version))).append
      (spelled_bytes (fixedPiece 4 (.int height)))
    have hlast := (spelled_bytes (fixedPiece 4 (.int time))).append (h6.append h7)
    have hall : Spelled (Block.mk (.int version) (.int height) hash parent (.int time) header
        txs).parts _ :=
      hnumbers.append ((h3.append h4).append hlast)
    simpa only [List.append_assoc, List.append_nil] using hall
  · rw [hrest1, hrest2, hrest3, hrest4, hrest5, hrest6, hrest7, hnone, List.append_nil]

end Reader

/-! ## Decoding -/

namespace Block

/-- The account of the whole. -/
theorem decode_cases (data : Bytes) (height : Option Number) :
    (∃ b, Block.decode data height = .ok b ∧ Reader.ReadBlock data b data) ∨
      ∃ defect : Defect, Block.decode data height = .error (.undecodable defect height) ∧
        defect.TrueOf data.length := by
  have htakes : Reader.Takes (Reader.start data) Reader.block _ := Reader.takes_block
  unfold Reader.Takes at htakes
  unfold Block.decode
  cases hrun : Reader.block (Reader.start data) with
  | ok out =>
      rw [hrun] at htakes
      obtain ⟨bs, -, -, hread⟩ := htakes
      have hall : bs = data := hread.all
      exact Or.inl ⟨out.1, by rw [StateT.run, hrun], hall ▸ hread⟩
  | error stop =>
      rw [hrun] at htakes
      obtain ⟨defect, rfl, htrue⟩ := htakes
      have hsize : (Reader.start data).size = data.length := Nat.zero_add _
      exact Or.inr ⟨defect, by rw [StateT.run, hrun]; rfl, hsize ▸ htrue⟩

/-- **Every string of bytes is decoded or refused.** It is refused with the height that the caller
gave, and with something that is true of it; there is never a read beyond its end. -/
theorem decode_or_refuse (data : Bytes) (height : Option Number) :
    (∃ b, Block.decode data height = .ok b) ∨
      ∃ defect : Defect, Block.decode data height = .error (.undecodable defect height) ∧
        defect.TrueOf data.length := by
  rcases decode_cases data height with ⟨b, hb, -⟩ | hrefused
  · exact Or.inl ⟨b, hb⟩
  · exact Or.inr hrefused

/-- What is decoded comes off all the bytes. -/
theorem read_of_decode {data : Bytes} {height : Option Number} {b : Block}
    (h : Block.decode data height = .ok b) : Reader.ReadBlock data b data := by
  rcases decode_cases data height with ⟨b', hb, hread⟩ | ⟨defect, hrefused, -⟩
  · rw [h] at hb
    cases hb
    exact hread
  · rw [h] at hrefused
    cases hrefused

end Block

end LightSync
