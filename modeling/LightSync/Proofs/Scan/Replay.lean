import LightSync.Proofs.Cache.Traversal
import LightSync.Proofs.Wallet.Replay
import LightSync.Scan.Run

/-!
# Scanning as a function of the wallet

A scan takes blocks one by one: it inspects a block and records what it found (`take`). What a
wallet without blocks becomes by taking blocks determines where the next scan begins
(`reached_of_takeAll`), so that scans one after another are one scan. The blocks that were taken
are a chain (`chainFrom_of_takeAll`), and cutting the wallet leaves those up to the height
(`takeAll_upTo`).
-/

set_option autoImplicit false

namespace LightSync
namespace Scan

open Wallet (unscanned Sound)

/-! ## Positions and notes -/

theorem position_receive {reader : NoteReader} {keys : List AccountKey} {height : Number} {tx : Tx}
    {found found' : Findings} {i : Nat} {output : SaplingOutput}
    (h : receive reader keys height tx found i output = .ok found') :
    found'.position = found.position + 1 := by
  unfold receive at h
  obtain ⟨note, -, h⟩ := Except.bind_eq_ok.1 h
  cases note with
  | none => cases h; rfl
  | some note => cases h; rfl

theorem position_receiveAll {reader : NoteReader} {keys : List AccountKey} {height : Number}
    {tx : Tx} {outputs : List SaplingOutput} {found found' : Findings} {i m : Nat}
    (hm : found.position = .counted m)
    (h : receiveAll reader keys height tx found i outputs = .ok found') :
    found'.position = .counted (m + outputs.length) := by
  induction outputs generalizing found i m with
  | nil =>
      cases h
      exact hm
  | cons output outputs ih =>
      obtain ⟨next, hnext, h⟩ := Except.bind_eq_ok.1 h
      have hpos : next.position = .counted (m + 1) := by
        rw [position_receive hnext, hm, Number.counted_add_one]
      rw [ih hpos h, List.length_cons]
      congr 1
      omega

@[simp] theorem position_reveals (isUnspent : Bytes → Bool) (txid : Bytes) (spends : List Bytes)
    (found : Findings) :
    (spends.foldl (reveal isUnspent txid) found).position = found.position := by
  induction spends generalizing found with
  | nil => rfl
  | cons nf spends ih =>
      rw [List.foldl_cons, ih]
      unfold reveal
      split
      · rfl
      · split <;> rfl

@[simp] theorem notes_reveal (isUnspent : Bytes → Bool) (txid : Bytes) (found : Findings)
    (nf : Bytes) : (reveal isUnspent txid found nf).notes = found.notes := by
  unfold reveal
  split
  · rfl
  · split <;> rfl

theorem notes_reveals (isUnspent : Bytes → Bool) (txid : Bytes) (spends : List Bytes)
    (found : Findings) :
    (spends.foldl (reveal isUnspent txid) found).notes = found.notes := by
  induction spends generalizing found with
  | nil => rfl
  | cons nf spends ih => rw [List.foldl_cons, ih, notes_reveal]

theorem position_takeTxs {isUnspent : Bytes → Bool} {reader : NoteReader} {keys : List AccountKey}
    {height : Number} {txs : List Tx} {found found' : Findings} {m : Nat}
    (hm : found.position = .counted m)
    (h : takeTxs isUnspent reader keys height found txs = .ok found') :
    found'.position = .counted (m + (txs.map (·.outputs.length)).foldr (· + ·) 0) := by
  induction txs generalizing found m with
  | nil =>
      cases h
      exact hm
  | cons tx txs ih =>
      obtain ⟨next, hnext, h⟩ := Except.bind_eq_ok.1 h
      have hpos : next.position = .counted (m + tx.outputs.length) :=
        position_receiveAll (by rw [position_reveals, hm]) hnext
      rw [ih hpos h, List.map_cons, List.foldr_cons, Nat.add_assoc]

/-! ### Outputs that cannot be read -/

/-- Outputs cannot be taken when the reader fails at one of them, which stands at a counted position
if the first one does. -/
theorem of_receiveAll_error {reader : NoteReader} {keys : List AccountKey} {height : Number}
    {tx : Tx} {outputs : List SaplingOutput} {found : Findings} {i : Nat} {e : Failure}
    (h : receiveAll reader keys height tx found i outputs = .error e) :
    ∃ output place, reader output keys place = .error e ∧
      ∀ m, found.position = .counted m → ∃ n, place.position = .counted n := by
  induction outputs generalizing found i with
  | nil => cases h
  | cons output outputs ih =>
      rcases Except.bind_eq_error.1 h with hone | ⟨next, hnext, hrest⟩
      · rcases Except.bind_eq_error.1 hone with hread | ⟨opened, -, hopened⟩
        · exact ⟨output, _, hread, fun m hm => ⟨m, hm⟩⟩
        · cases opened <;> cases hopened
      · obtain ⟨output', place, hread, hposition⟩ := ih hrest
        refine ⟨output', place, hread, fun m hm => hposition (m + 1) ?_⟩
        rw [position_receive hnext, hm, Number.counted_add_one]

theorem of_takeTxs_error {isUnspent : Bytes → Bool} {reader : NoteReader} {keys : List AccountKey}
    {height : Number} {txs : List Tx} {found : Findings} {e : Failure}
    (h : takeTxs isUnspent reader keys height found txs = .error e) :
    ∃ output place, reader output keys place = .error e ∧
      ∀ m, found.position = .counted m → ∃ n, place.position = .counted n := by
  induction txs generalizing found with
  | nil => cases h
  | cons tx txs ih =>
      rcases Except.bind_eq_error.1 h with hone | ⟨next, hnext, hrest⟩
      · obtain ⟨output, place, hread, hposition⟩ := of_receiveAll_error hone
        exact ⟨output, place, hread, fun m hm => hposition m (by rw [position_reveals, hm])⟩
      · obtain ⟨output, place, hread, hposition⟩ := ih hrest
        exact ⟨output, place, hread, fun m hm =>
          hposition _ (position_receiveAll (by rw [position_reveals, hm]) hnext)⟩

/-- A block cannot be looked into when the reader fails at one of its outputs, or when it has no
hash. -/
theorem of_block_error {isUnspent : Bytes → Bool} {reader : NoteReader} {keys : List AccountKey}
    {treeSize : Number} {b : Block} {e : Failure}
    (h : block isUnspent reader keys treeSize b = .error e) :
    b.hash? = .error e ∨ ∃ output place, reader output keys place = .error e ∧
      ∀ m, treeSize = .counted m → ∃ n, place.position = .counted n := by
  rcases Except.bind_eq_error.1 h with htxs | ⟨found, -, h⟩
  · exact Or.inr (of_takeTxs_error htxs)
  · rcases Except.bind_eq_error.1 h with hhash | ⟨hash, -, h⟩
    · exact Or.inl hhash
    · cases h

/-! ### Recorded blocks -/

/-- What the record of a block says about the block itself. -/
theorem identity_of_block {isUnspent : Bytes → Bool} {reader : NoteReader}
    {keys : List AccountKey} {treeSize : Number} {b : Block} {s : ScannedBlock}
    (h : block isUnspent reader keys treeSize b = .ok s) :
    s.height = b.height ∧ b.hash? = .ok s.hash := by
  obtain ⟨found, -, h⟩ := Except.bind_eq_ok.1 h
  obtain ⟨hash, hhash, h⟩ := Except.bind_eq_ok.1 h
  cases h
  exact ⟨rfl, hhash⟩

theorem block_eq_ok {isUnspent : Bytes → Bool} {reader : NoteReader} {keys : List AccountKey}
    {m : Nat} {b : Block} {s : ScannedBlock}
    (h : block isUnspent reader keys (.counted m) b = .ok s) :
    s.height = b.height ∧ b.hash? = .ok s.hash ∧ s.treeSize = .counted (m + b.saplingOutputs) := by
  obtain ⟨hheight, hhash⟩ := identity_of_block h
  obtain ⟨found, hfound, h⟩ := Except.bind_eq_ok.1 h
  obtain ⟨hash, -, h⟩ := Except.bind_eq_ok.1 h
  cases h
  exact ⟨hheight, hhash, position_takeTxs rfl hfound⟩

/-! ## Taking blocks -/

/-- What taking a block makes of a point and a wallet. -/
def take (reader : NoteReader) (keys : List AccountKey) (p : Point) (w : Wallet) (b : Block) :
    Except Failure (Point × Wallet) := do
  let scanned ← inspect reader keys w p b
  let next ← w.record scanned
  return (p.advance scanned, next)

/-- Takes blocks in order. -/
def takeAll (reader : NoteReader) (keys : List AccountKey) :
    Point → Wallet → List Block → Except Failure (Point × Wallet)
  | p, w, [] => .ok (p, w)
  | p, w, b :: rest => do
      let next ← take reader keys p w b
      takeAll reader keys next.1 next.2 rest

section

variable {reader : NoteReader} {keys : List AccountKey} {p p' q : Point} {w w' : Wallet} {b : Block}

theorem takeAll_append (bs cs : List Block) :
    takeAll reader keys p w (bs ++ cs) =
      takeAll reader keys p w bs >>= fun next => takeAll reader keys next.1 next.2 cs := by
  induction bs generalizing p w with
  | nil => rfl
  | cons b bs ih =>
      show (take reader keys p w b >>= _) = (take reader keys p w b >>= _) >>= _
      rw [bind_assoc]
      congr 1
      funext next
      exact ih

theorem takeAll_concat_eq_ok {bs : List Block} {r : Point × Wallet} :
    takeAll reader keys p w (bs ++ [b]) = .ok r ↔
      ∃ p1 w1, takeAll reader keys p w bs = .ok (p1, w1) ∧ take reader keys p1 w1 b = .ok r := by
  rw [takeAll_append, Except.bind_eq_ok]
  have hone (p : Point) (w : Wallet) : takeAll reader keys p w [b] = take reader keys p w b :=
    bind_pure (take reader keys p w b)
  simp only [hone, Prod.exists]

theorem take_eq_ok :
    take reader keys p w b = .ok (p', w') ↔
      ∃ s, inspect reader keys w p b = .ok s ∧ w.record s = .ok w' ∧ p' = p.advance s := by
  constructor
  · intro h
    obtain ⟨s, hs, h⟩ := Except.bind_eq_ok.1 h
    obtain ⟨next, hnext, h⟩ := Except.bind_eq_ok.1 h
    cases h
    exact ⟨s, hs, hnext, rfl⟩
  · rintro ⟨s, hs, hnext, rfl⟩
    exact Except.bind_eq_ok.2 ⟨s, hs, Except.bind_eq_ok.2 ⟨w', hnext, rfl⟩⟩

theorem checkNext_eq_ok :
    checkNext p b = .ok () ↔
      b.height.same (p.height + 1) = true ∧ ∀ hash, p.hash = some hash → b.parent? = .ok hash := by
  unfold checkNext Links.checkParent
  by_cases hsame : b.height.same (p.height + 1) = true
  · rw [if_pos hsame]
    cases hp : p.hash with
    | none => simp [hsame]
    | some hash =>
        cases hb : b.parent? with
        | error e => simp
        | ok named => by_cases hn : named = hash <;> simp [hsame, hn]
  · rw [if_neg hsame]
    simp [hsame]

theorem inspect_eq_ok {s : ScannedBlock} :
    inspect reader keys w p b = .ok s ↔
      checkNext p b = .ok () ∧
        block (fun nf => (w.unspentNote? nf).isSome) reader keys p.treeSize b = .ok s := by
  unfold inspect
  cases checkNext p b with
  | error e => simp
  | ok u => simp

/-- Every block that was taken has a hash. -/
theorem hash_of_takeAll {bs : List Block} {r : Point × Wallet}
    (h : takeAll reader keys p w bs = .ok r) : ∀ b ∈ bs, ∃ hash, b.hash? = .ok hash := by
  induction bs generalizing p w with
  | nil => exact fun b hb => by cases hb
  | cons a bs ih =>
      obtain ⟨⟨p1, w1⟩, h1, h2⟩ := Except.bind_eq_ok.1 h
      obtain ⟨s, hs, -⟩ := take_eq_ok.1 h1
      intro b hb
      rcases List.mem_cons.1 hb with rfl | hb
      · exact ⟨s.hash, (identity_of_block (inspect_eq_ok.1 hs).2).2⟩
      · exact ih h2 b hb

/-! ### The report does not matter -/

/-- The same place in a scan, whatever was reported so far. -/
def Point.Alike (p q : Point) : Prop :=
  p.height = q.height ∧ p.hash = q.hash ∧ p.treeSize = q.treeSize

theorem Point.Alike.symm (h : p.Alike q) : q.Alike p :=
  ⟨h.1.symm, h.2.1.symm, h.2.2.symm⟩

theorem take_congr (h : p.Alike q) (ht : take reader keys p w b = .ok (p', w')) :
    ∃ q', take reader keys q w b = .ok (q', w') ∧ p'.Alike q' := by
  obtain ⟨s, hs, hw, rfl⟩ := take_eq_ok.1 ht
  refine ⟨q.advance s, take_eq_ok.2 ⟨s, ?_, hw, rfl⟩, rfl, rfl, rfl⟩
  rw [inspect_eq_ok, checkNext_eq_ok] at hs ⊢
  rwa [← h.1, ← h.2.1, ← h.2.2]

theorem takeAll_congr {bs : List Block} (h : p.Alike q)
    (ht : takeAll reader keys p w bs = .ok (p', w')) :
    ∃ q', takeAll reader keys q w bs = .ok (q', w') ∧ p'.Alike q' := by
  induction bs generalizing p q w with
  | nil =>
      cases ht
      exact ⟨q, rfl, h⟩
  | cons b bs ih =>
      obtain ⟨⟨p1, w1⟩, h1, h2⟩ := Except.bind_eq_ok.1 ht
      obtain ⟨q1, hq1, halike⟩ := take_congr h h1
      obtain ⟨q', hq', hq⟩ := ih halike h2
      exact ⟨q', Except.bind_eq_ok.2 ⟨(q1, w1), hq1, hq'⟩, hq⟩

end

/-! ## From a wallet without blocks -/

/-- Blocks with consecutive heights from `first` on, each naming the one before it. -/
structure ChainFrom (first : Int) (bs : List Block) : Prop where
  heights : ∀ i (h : i < bs.length), bs[i].height = .int (first + i)
  links : ∀ i (h : i + 1 < bs.length), ∃ hash, bs[i].hash? = .ok hash ∧ bs[i + 1].parent? = .ok hash

theorem chainFrom_nil (first : Int) : ChainFrom first [] where
  heights i h := by cases h
  links i h := by cases h

theorem ChainFrom.concat {first : Int} {bs : List Block} {b : Block} (h : ChainFrom first bs)
    (hb : b.height = .int (first + bs.length))
    (hlink : ∀ a, bs.getLast? = some a → ∃ hash, a.hash? = .ok hash ∧ b.parent? = .ok hash) :
    ChainFrom first (bs ++ [b]) where
  heights i hi := by
    rcases Nat.lt_or_ge i bs.length with hlt | hge
    · rw [List.getElem_append_left hlt]
      exact h.heights i hlt
    · obtain rfl : i = bs.length := by
        rw [List.length_append, List.length_singleton] at hi
        omega
      simpa using hb
  links i hi := by
    rw [List.length_append, List.length_singleton] at hi
    rcases Nat.lt_or_ge (i + 1) bs.length with hlt | hge
    · rw [List.getElem_append_left (Nat.lt_of_succ_lt hlt), List.getElem_append_left hlt]
      exact h.links i hlt
    · obtain hlen : bs.length = i + 1 := by omega
      have hlast : bs.getLast? = some bs[i] := by
        rw [List.getLast?_eq_getElem?, show bs.length - 1 = i by omega]
        exact List.getElem?_eq_getElem _
      obtain ⟨hash, ha, hp⟩ := hlink _ hlast
      refine ⟨hash, ?_, ?_⟩
      · rw [List.getElem_append_left (by omega)]
        exact ha
      · rw [List.getElem_append_right (by omega)]
        simpa [hlen] using hp

theorem ChainFrom.height_of_getLast? {first : Int} {bs : List Block} {a : Block}
    (h : ChainFrom first bs) (ha : bs.getLast? = some a) :
    a.height = .int (first + bs.length - 1) := by
  rw [List.getLast?_eq_getElem?] at ha
  obtain ⟨hi, rfl⟩ := List.getElem?_eq_some_iff.1 ha
  rw [h.heights _ hi]
  congr 1
  omega

/-- The number of outputs in blocks. -/
def outputCount (bs : List Block) : Nat := (bs.map (·.saplingOutputs)).foldr (· + ·) 0

theorem outputCount_concat (bs : List Block) (b : Block) :
    outputCount (bs ++ [b]) = outputCount bs + b.saplingOutputs := by
  induction bs with
  | nil => simp [outputCount]
  | cons a bs ih =>
      simp only [outputCount, List.cons_append, List.map_cons, List.foldr_cons] at ih ⊢
      omega

/-- What taking the blocks of `chain` from a wallet without blocks comes to: the wallet ends at the
last of them, and the next scan begins where this one ended. -/
structure Reached (activation : Number) (accounts : Keyed Bytes) (chain : List Block) (p : Point)
    (w : Wallet) : Prop where
  sound : Sound w
  accounts : w.accounts = accounts
  point : p.Alike (startOf activation w)
  bare : w.tip? = none → chain = []
  last : ∀ a, chain.getLast? = some a →
    ∃ t, w.tip? = some t ∧ a.height = .int t.height ∧ a.hash? = .ok t.hash
  size : p.treeSize = .counted (outputCount chain)

section

variable {reader : NoteReader} {keys : List AccountKey} {activation : Number} {first : Int}
  {chain : List Block} {p p' : Point} {w w' : Wallet} {b : Block} {accounts : Keyed Bytes}

theorem Reached.accountKeys (h : Reached activation accounts chain p w) :
    w.accountKeys = (unscanned accounts).accountKeys := by
  unfold Wallet.accountKeys
  rw [h.accounts]
  rfl

theorem reached_nil :
    Reached activation accounts [] (startOf activation (unscanned accounts))
      (unscanned accounts) where
  sound := Wallet.sound_unscanned accounts
  accounts := rfl
  point := ⟨rfl, rfl, rfl⟩
  bare _ := rfl
  last a h := by cases h
  size := rfl

/-- What a block was recorded as that was taken. -/
theorem Reached.recorded (h : Reached activation accounts chain p w) (hword : b.HasWordHeight)
    (ht : take reader keys p w b = .ok (p', w')) :
    ∃ s, ∃ n : Nat, b.height = .int n ∧ n < wordRange ∧ checkNext p b = .ok () ∧
      block (fun nf => (w.unspentNote? nf).isSome) reader keys (.counted (outputCount chain)) b =
        .ok s ∧
      s.height.toInt? = some (n : Int) ∧ Wallet.Recorded s n w w' ∧ p' = p.advance s := by
  obtain ⟨n, hb, hn⟩ := hword
  obtain ⟨s, hs, hrecord, rfl⟩ := take_eq_ok.1 ht
  obtain ⟨hcheck, hblock⟩ := inspect_eq_ok.1 hs
  rw [h.size] at hblock
  have hk : s.height.toInt? = some (n : Int) := by rw [(block_eq_ok hblock).1, hb]; rfl
  exact ⟨s, n, hb, hn, hcheck, hblock, hk, Wallet.recorded_of_record hk hrecord, rfl⟩

theorem Reached.take (h : Reached activation accounts chain p w) (hword : b.HasWordHeight)
    (ht : take reader keys p w b = .ok (p', w')) :
    Reached activation accounts (chain ++ [b]) p' w' := by
  obtain ⟨s, n, hb, hn, -, hblock, hk, hrec, rfl⟩ := h.recorded hword ht
  obtain ⟨hheight, hhash, hsize⟩ := block_eq_ok hblock
  obtain ⟨hsound, htip, -⟩ :=
    Wallet.sound_of_recorded hrec hk (natAbs_le_maxSafe_of_word hn) h.sound
  refine ⟨hsound, hrec.accounts.trans h.accounts, ?_, fun hnone => ?_, fun a ha => ?_, ?_⟩
  · rw [startOf, htip]
    refine ⟨hheight.trans hb, rfl, ?_⟩
    show s.treeSize = s.treeSize.kept
    rw [hsize, Number.kept_counted]
  · rw [htip] at hnone
    cases hnone
  · rw [List.getLast?_concat] at ha
    cases ha
    exact ⟨_, htip, hb, hhash⟩
  · rw [outputCount_concat]
    exact hsize

theorem reached_of_takeAll (hword : ∀ b ∈ chain, b.HasWordHeight)
    (h : takeAll reader keys (startOf activation (unscanned accounts)) (unscanned accounts) chain =
      .ok (p, w)) : Reached activation accounts chain p w := by
  induction chain using List.reverseRecOn generalizing p w with
  | nil =>
      cases h
      exact reached_nil
  | append_singleton chain b ih =>
      obtain ⟨p1, w1, h1, h2⟩ := takeAll_concat_eq_ok.1 h
      have hprev := ih (fun x hx => hword x (List.mem_append_left _ hx)) h1
      exact hprev.take (hword b (List.mem_append_right _ List.mem_cons_self)) h2

/-- What holds of a wallet without blocks, and goes on to hold when one more block is taken, holds
whenever blocks were taken. -/
theorem takeAll_induction {P : List Block → Point → Wallet → Prop}
    (hnil : P [] (startOf activation (unscanned accounts)) (unscanned accounts))
    (hconcat : ∀ {chain p w b p' w'}, Reached activation accounts chain p w →
      takeAll reader keys (startOf activation (unscanned accounts)) (unscanned accounts) chain =
        .ok (p, w) →
      P chain p w → b.HasWordHeight → take reader keys p w b = .ok (p', w') →
      P (chain ++ [b]) p' w')
    (hword : ∀ b ∈ chain, b.HasWordHeight)
    (h : takeAll reader keys (startOf activation (unscanned accounts)) (unscanned accounts) chain =
      .ok (p, w)) : P chain p w := by
  induction chain using List.reverseRecOn generalizing p w with
  | nil =>
      cases h
      exact hnil
  | append_singleton chain b ih =>
      obtain ⟨hwords, hb⟩ := List.forall_mem_append.1 hword
      obtain ⟨p1, w1, h1, h2⟩ := takeAll_concat_eq_ok.1 h
      exact hconcat (reached_of_takeAll hwords h1) h1 (ih hwords h1) (hb b List.mem_cons_self) h2

/-- Every block that was taken stands at the tip or below it. -/
theorem below_of_takeAll (hword : ∀ b ∈ chain, b.HasWordHeight)
    (h : takeAll reader keys (startOf activation (unscanned accounts)) (unscanned accounts) chain =
      .ok (p, w)) :
    ∀ a ∈ chain, ∃ (k : Int) (t : WalletTip), a.height = .int k ∧ w.tip? = some t ∧ k ≤ t.height := by
  refine takeAll_induction (P := fun chain _ w => ∀ a ∈ chain, ∃ (k : Int) (t : WalletTip),
    a.height = .int k ∧ w.tip? = some t ∧ k ≤ t.height) (fun a ha => by cases ha) ?_ hword h
  intro chain p w b p' w' hprev h1 hbelow hb h2
  obtain ⟨s, n, hheight, hn, -, -, hk, hrec, -⟩ := hprev.recorded hb h2
  obtain ⟨-, htip, hnext⟩ :=
    Wallet.sound_of_recorded hrec hk (natAbs_le_maxSafe_of_word hn) hprev.sound
  intro a ha
  rcases List.mem_append.1 ha with ha | ha
  · obtain ⟨k, t, hak, ht, hkt⟩ := hbelow a ha
    refine ⟨k, _, hak, htip, ?_⟩
    have := hnext t ht
    show k ≤ (n : Int)
    omega
  · rw [List.mem_singleton.1 ha]
    exact ⟨n, _, hheight, htip, Int.le_refl _⟩

/-- Cutting a wallet is taking only the blocks up to the height. -/
theorem takeAll_upTo (hword : ∀ b ∈ chain, b.HasWordHeight)
    (h : takeAll reader keys (startOf activation (unscanned accounts)) (unscanned accounts) chain =
      .ok (p, w)) (height : Number) :
    ∃ q, takeAll reader keys (startOf activation (unscanned accounts)) (unscanned accounts)
      (chain.filter fun b => !decide (height < b.height)) = .ok (q, w.cut height) := by
  refine takeAll_induction (P := fun chain _ w => (∀ b ∈ chain, b.HasWordHeight) →
    ∃ q, takeAll reader keys (startOf activation (unscanned accounts)) (unscanned accounts)
      (chain.filter fun b => !decide (height < b.height)) = .ok (q, w.cut height))
    (fun _ => ⟨_, rfl⟩) ?_ hword h hword
  intro chain p w b p' w' hprev h1 hcut hb h2 hword
  have hwords : ∀ x ∈ chain, x.HasWordHeight := fun x hx => hword x (List.mem_append_left _ hx)
  have hall := takeAll_concat_eq_ok.2 ⟨p, w, h1, h2⟩
  obtain ⟨s, n, hheight, hn, -, -, hk, hrec, -⟩ := hprev.recorded hb h2
  by_cases hlt : height < .int n
  · have hdrop : (chain ++ [b]).filter (fun b => !decide (height < b.height)) =
        chain.filter fun b => !decide (height < b.height) := by
      simp [List.filter_append, hheight, hlt]
    rw [Wallet.cut_of_recorded hrec hlt, hdrop]
    exact hcut hwords
  · -- the new block is the highest, so that all of them stay and nothing is cut
    obtain ⟨hsound, htip, -⟩ :=
      Wallet.sound_of_recorded hrec hk (natAbs_le_maxSafe_of_word hn) hprev.sound
    have hkeep : (chain ++ [b]).filter (fun b => !decide (height < b.height)) = chain ++ [b] := by
      refine List.filter_eq_self.2 fun x hx => ?_
      obtain ⟨k, t, hxk, ht, hkt⟩ := below_of_takeAll hword hall x hx
      rw [htip] at ht
      cases ht
      have hnot : ¬ height < .int k := fun hc => hlt (Number.lt_int_of_le hc hkt)
      simp [hxk, hnot]
    rw [Wallet.cut_of_capped (hsound.capped _ htip) hlt, hkeep]
    exact ⟨p', hall⟩

/-- From an integer activation height the blocks that are taken are a chain. -/
theorem chainFrom_of_takeAll (hactivation : activation.toInt? = some first)
    (hword : ∀ b ∈ chain, b.HasWordHeight)
    (h : takeAll reader keys (startOf activation (unscanned accounts)) (unscanned accounts) chain =
      .ok (p, w)) : ChainFrom first chain := by
  refine takeAll_induction (P := fun chain _ _ => ChainFrom first chain) (chainFrom_nil first) ?_
    hword h
  intro chain p w b p' w' hprev h1 hchain hb h2
  obtain ⟨s, n, hb, hn, hcheck, -⟩ := hprev.recorded hb h2
  obtain ⟨hsame, hparent⟩ := checkNext_eq_ok.1 hcheck
  rw [hb, hprev.point.1] at hsame
  rw [hprev.point.2.1] at hparent
  cases hlast : chain.getLast? with
  | none =>
      -- the first block stands one above the predecessor of the activation height
      rw [List.getLast?_eq_none_iff] at hlast
      subst hlast
      cases h1
      refine hchain.concat ?_ fun a ha => by cases ha
      rw [hb, Number.eq_of_same_sub_one_add_one hactivation hsame (natAbs_lt_of_word hn)]
      simp
  | some a =>
      -- the tip is the last block of the chain, and the new one follows it
      obtain ⟨t, ht, hheight, hhash⟩ := hprev.last a hlast
      rw [startOf, ht] at hsame hparent
      refine hchain.concat ?_ fun x hx => ?_
      · have hn' := Number.eq_add_one_of_same hsame (Nat.lt_of_succ_lt (natAbs_lt_of_word hn))
        have hat := hchain.height_of_getLast? hlast
        rw [hheight] at hat
        rw [hb, hn', Number.int.inj hat]
        congr 1
        omega
      · rw [hlast] at hx
        cases hx
        exact ⟨t.hash, hhash, hparent _ rfl⟩

end

end Scan
end LightSync
