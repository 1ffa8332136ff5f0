import LightSync.Proofs.Chain.Linked
import LightSync.Proofs.Number.Rounding
import LightSync.Proofs.Sync.Round
import LightSync.Proofs.Sync.Session

/-!
# Getting in step after a fork

The chain that a wallet was scanned from is replaced by a longer one. Round after round the blocks
that are asked for are put into the cache and the wallet is synchronized. As long as the wallet
ends on a replaced block, a round cuts it further down (`Course.reorganized`); once it ends on a
shared one, or is empty, a round scans the rest (`Course.scanned`). So the wallet becomes what
scanning the new chain makes of a wallet without blocks (`getInStep_of_fork`).

`Standing` is what holds between rounds: how many of the replaced blocks the wallet was scanned
from, and that the cache holds no others. That number shrinks with every round that goes back.
-/

set_option autoImplicit false

namespace LightSync

open Agreement (verdict sub_one_of_toInt?)
open Wallet (unscanned)
open Scan (Point takeAll startOf)

/-! ## Forks -/

/-- A chain `stale` that is replaced by a longer one: they have `shared` blocks in common, and from
there on their hashes differ. No block takes up more bytes than the widest count can tell. -/
structure Fork (first : Int) (stale chain : List Block) (shared : Nat) : Prop where
  staleLinked : Linked first stale
  chainLinked : Linked first chain
  longer : stale.length < chain.length
  common : chain.take shared = stale.take shared
  parts : shared < stale.length
  differ : ∀ (i : Nat) (a b : Block), shared ≤ i → stale[i]? = some a → chain[i]? = some b →
    a.hash? ≠ b.hash?
  sizes : ∀ b ∈ stale ++ chain, b.size < CompactSize.bound

/-- A policy by which the wallet begins at `first` and goes back `depth` blocks after a fork, two
at least and never so many that it is refused. The depth is a number, however great. -/
structure GoesBack (p : Policy) (first depth : Int) : Prop where
  activation : p.activation.toInt? = some first
  unlimited : p.scanLimit = none
  rewind : p.reorgRewindDepth = .int depth
  number : Number.ofInt depth = .int depth
  two : 2 ≤ depth
  allowed : ∃ pruning, p.pruningDepth.toInt? = some pruning ∧ depth ≤ pruning + 1

namespace Synchronizer

section

variable {τ : Type} (s : Synchronizer) (accounts : Keyed Bytes)

/-! ## Scanning a chain and getting in step with it -/

/-- What taking blocks, as they are read back, makes of a wallet without blocks. -/
def taking (bs : List Block) : Except Failure (Point × Wallet) :=
  takeAll s.reader (unscanned accounts).accountKeys
    (startOf s.policy.activation (unscanned accounts)) (unscanned accounts) (bs.map Block.plain)

/-- The wallet that scanning blocks makes of one without blocks: they are put into an empty cache,
which is scanned. -/
def scanOf (bs : List Block) : Except Failure Wallet :=
  match (do
      SyncState.onCache (Cache.insertBlocks bs)
      s.scan none ScanHooks.none : Action (SyncState Unit) ScanSummary)
      (SyncState.idle (Cache.inMemory Keyed.empty) (unscanned accounts)) with
  | .ok _ st => .ok st.wallet.content
  | .error e _ => .error e

/-- Puts the blocks of a chain from a height on into the cache, and synchronizes. -/
def round (chain : List Block) (refetchFrom : Number) : Action (SyncState τ) SyncOutcome := do
  SyncState.onCache (Cache.insertBlocks (chain.filter fun b => decide (refetchFrom ≤ b.height)))
  s.sync ScanHooks.none

/-- Does a round, and up to `more` others as long as blocks are asked for. -/
def getInStep (chain : List Block) : Nat → Number → Action (SyncState τ) SyncOutcome
  | 0, refetchFrom => s.round chain refetchFrom
  | more + 1, refetchFrom => do
      match ← s.round chain refetchFrom with
      | .reorganized _ refetchFrom _ => getInStep chain more refetchFrom
      | outcome => return outcome

end

variable {s : Synchronizer} {accounts : Keyed Bytes} {first : Int} {bs : List Block} {w : Wallet}

/-- A chain whose scan succeeds can be encoded, and taken block by block. -/
theorem taking_of_scanOf (hactivation : s.policy.activation.toInt? = some first)
    (hlimit : s.policy.scanLimit = none) (hlinked : Linked first bs)
    (hsizes : ∀ b ∈ bs, b.size < CompactSize.bound) (h : s.scanOf accounts bs = .ok w) :
    Encodable bs ∧ ∃ p, s.taking accounts bs = .ok (p, w) := by
  unfold scanOf at h
  split at h
  · rename_i summary st hrun
    cases h
    obtain ⟨_, st1, hinsert, hscan⟩ := Action.bind_eq_ok.1 hrun
    obtain ⟨c, hc, rfl⟩ := Scan.onCache_eq_ok.1 hinsert
    obtain ⟨r, hr, -⟩ := Cache.either_rows_eq_ok.1 hc
    have hencodes := (RowCache.insertBlocks_ok Cache.stands_empty.keeps.1 hr).1
    have hencodable : Encodable bs := fun b hb => ⟨hencodes b hb, hsizes b hb⟩
    have hstands := (Cache.stands_empty.of_insertBlocks hencodes hc).1
    have hblocks : c.blocks (some (s.policy.activation - 1)) none = ⟨bs.map Block.plain, none⟩ := by
      refine hlinked.blocks_above hencodable (fun k b hb => by cases hb) (fun i b hb => ?_) hstands
      obtain ⟨h0, hlt⟩ := hlinked.word_first hencodable (List.getElem?_eq_some_iff.1 hb).1
      have hsmall := natAbs_lt_of_nonneg h0 hlt
      show s.policy.activation - 1 < _
      rw [sub_one_of_toInt? hactivation (Nat.le_of_lt hsmall), Number.int_lt_int]
      omega
    obtain ⟨p, hp⟩ := takeAll_of_scan rfl hlimit hscan
    have hitems : (c.blocks (some (s.policy.activation - 1)) none).items = bs.map Block.plain :=
      congrArg Walk.items hblocks
    refine ⟨hencodable, p, ?_⟩
    rw [taking, ← hitems]
    exact hp
  · cases h

/-! ## Where a wallet stands -/

/-- The wallet was scanned from the first `m` of the replaced blocks, and the cache holds nothing
but blocks at their heights. -/
structure Standing {τ : Type} (s : Synchronizer) (accounts : Keyed Bytes) (first : Int)
    (stale : List Block) (m : Nat) (w : Wallet) (held : Keyed Block) (st : SyncState τ) : Prop where
  idle : st.active = none
  reaches : m ≤ stale.length
  settled : st.Settled w held
  taken : ∃ p, s.taking accounts (stale.take m) = .ok (p, w)
  below : ∀ k b, held.find? k = some b → first ≤ k ∧ k < first + m

/-- A walk above this height leaves out the first `m` heights, and no other one. -/
def Divides (first : Int) (m : Nat) (last : Option Number) : Prop :=
  ∀ k : Int, first ≤ k → (last.getD Keyed.beforeAll < .int k ↔ first + m ≤ k)

/-- The blocks that are asked for are those from the one at place `m` on. -/
def AsksFrom (first : Int) (m : Nat) (refetchFrom : Number) : Prop :=
  ∀ k : Int, first ≤ k → k < wordRange → (refetchFrom ≤ .int k ↔ first + m ≤ k)

section

variable {τ : Type} {stale chain : List Block} {m : Nat} {p : Point} {held : Keyed Block}
  {st : SyncState τ}

theorem reached_of_taking (hlinked : Linked first bs) (hencodable : Encodable bs)
    (h : s.taking accounts bs = .ok (p, w)) :
    Scan.Reached s.policy.activation accounts (bs.map Block.plain) p w :=
  Scan.reached_of_takeAll (hlinked.hasWordHeight hencodable) h

/-- The tip is the last block that was taken. -/
theorem tip_of_taking (hlinked : Linked first bs) (hencodable : Encodable bs)
    (h : s.taking accounts (bs.take (m + 1)) = .ok (p, w)) {a : Block} (ha : bs[m]? = some a) :
    ∃ t, w.tip? = some t ∧ t.height = first + m ∧ a.hash? = .ok t.hash := by
  have hlast : ((bs.take (m + 1)).map Block.plain).getLast? = some a.plain := by
    rw [List.take_add_one, ha, List.map_append]
    exact List.getLast?_concat
  obtain ⟨t, ht, hheight, hhash⟩ :=
    (reached_of_taking (hlinked.take (m + 1)) (hencodable.take (m + 1)) h).last _ hlast
  rw [hlinked.height_plain ha] at hheight
  exact ⟨t, ht, (Number.int.inj hheight).symm, Block.hash?_plain.1 hhash⟩

/-- The check and the scan of a wallet begin where the blocks end that were taken. -/
theorem divides_of_taking (hactivation : s.policy.activation.toInt? = some first)
    (hfirst : 0 ≤ first ∧ first < wordRange) (hlinked : Linked first bs)
    (hencodable : Encodable bs) (hm : m ≤ bs.length)
    (h : s.taking accounts (bs.take m) = .ok (p, w)) :
    Divides first m (w.chainTip?.map (·.height)) ∧
      Divides first m (some (startOf s.policy.activation w).height) := by
  cases m with
  | zero =>
      cases h
      refine ⟨fun k hk => ?_, fun k hk => ?_⟩
      · show Number.int (-1) < .int k ↔ _
        rw [Number.int_lt_int]
        omega
      · have hsmall := natAbs_lt_of_nonneg hfirst.1 hfirst.2
        show s.policy.activation - 1 < .int k ↔ _
        rw [sub_one_of_toInt? hactivation (Nat.le_of_lt hsmall), Number.int_lt_int]
        omega
  | succ n =>
      obtain ⟨t, ht, hheight, -⟩ :=
        tip_of_taking hlinked hencodable h (List.getElem?_eq_getElem hm)
      have hdivides : Divides first (n + 1) (some (.int t.height)) := by
        intro k hk
        show Number.int t.height < .int k ↔ _
        rw [Number.int_lt_int, hheight]
        omega
      unfold Wallet.chainTip? startOf
      rw [ht]
      exact ⟨hdivides, hdivides⟩

/-! ## A round -/

theorem asked_eq_drop (hlinked : Linked first chain) (hencodable : Encodable chain)
    {refetchFrom : Number} (hasks : AsksFrom first m refetchFrom) :
    (chain.filter fun b => decide (refetchFrom ≤ b.height)) = chain.drop m := by
  refine filter_eq_drop fun i b hb => ?_
  have hword := hlinked.word hencodable hb
  rw [decide_eq_true_iff, Number.le_iff_of_toInt? (hlinked.heights i b hb),
    hasks _ (by omega) hword.2]
  omega

/-- The blocks that are asked for go into the cache, above which it hands them out. -/
theorem Standing.inserted (h : Standing s accounts first stale m w held st)
    (hlinked : Linked first chain) (hencodable : Encodable chain)
    (hhashes : ∀ b ∈ chain, ∃ hash, b.hash? = .ok hash) :
    ∃ c, Cache.insertBlocks (chain.drop m) st.cache = .ok () c ∧
      SyncState.Settled w (held.insertAll ((chain.drop m).map Cache.keyed))
        { st with cache := c } ∧
      ∀ last, Divides first m last →
        c.blocks last none = ⟨(chain.drop m).map Block.plain, none⟩ := by
  have hencodes : ∀ b ∈ chain.drop m, ∃ data, b.encode = .ok data :=
    fun b hb => (hencodable.drop m b hb).1
  obtain ⟨c, hc⟩ := h.settled.stands.insertBlocks_parcels h.settled.faultless.2 fun b hb => by
    obtain ⟨hash, hhash⟩ := hhashes b (List.mem_of_mem_drop hb)
    obtain ⟨data, hdata⟩ := hencodes b hb
    exact Parcel.exists_of_hash hhash hdata
  obtain ⟨hstands, hfault⟩ := h.settled.stands.of_insertBlocks hencodes hc
  refine ⟨c, hc, h.settled.withCache hstands hfault, fun last hlast => ?_⟩
  refine (hlinked.drop m).blocks_above (hencodable.drop m) (fun k b hb => ?_) (fun i b hb => ?_)
    hstands
  · obtain ⟨hfirst, hlow⟩ := h.below k b hb
    rw [hlast k hfirst]
    omega
  · rw [hlast _ (by omega)]
    omega

end

/-- A fork, the policy by which it is met, and what scanning the new chain comes to. -/
structure Course (s : Synchronizer) (accounts : Keyed Bytes) (first depth : Int)
    (stale chain : List Block) (shared : Nat) (goal : Wallet) : Prop where
  policy : GoesBack s.policy first depth
  fork : Fork first stale chain shared
  staleEncodable : Encodable stale
  chainEncodable : Encodable chain
  reaches : ∃ p, s.taking accounts chain = .ok (p, goal)

namespace Course

variable {τ : Type} {depth : Int} {stale chain : List Block} {shared m : Nat} {goal : Wallet}
  {held : Keyed Block} {st : SyncState τ} {refetchFrom : Number}

theorem word_first (h : Course s accounts first depth stale chain shared goal) :
    0 ≤ first ∧ first < wordRange :=
  h.fork.staleLinked.word_first h.staleEncodable h.fork.parts

theorem hashes (h : Course s accounts first depth stale chain shared goal) :
    ∀ b ∈ chain, ∃ hash, b.hash? = .ok hash := by
  intro b hb
  obtain ⟨p, hp⟩ := h.reaches
  obtain ⟨hash, hhash⟩ := Scan.hash_of_takeAll hp _ (List.mem_map_of_mem hb)
  exact ⟨hash, Block.hash?_plain.1 hhash⟩

theorem take_eq (h : Course s accounts first depth stale chain shared goal) (hm : m ≤ shared) :
    chain.take m = stale.take m := by
  have hcommon := congrArg (List.take m) h.fork.common
  rwa [List.take_take, List.take_take, Nat.min_eq_left hm] at hcommon

/-- From a wallet that ends on a shared block the rest of the chain can be taken. -/
theorem rest (h : Course s accounts first depth stale chain shared goal) (hm : m ≤ shared)
    {p : Point} (hp : s.taking accounts (stale.take m) = .ok (p, w)) :
    ∃ q, takeAll s.reader w.accountKeys (startOf s.policy.activation w) w
      ((chain.drop m).map Block.plain) = .ok (q, goal) := by
  have hreached := reached_of_taking (h.fork.staleLinked.take m) (h.staleEncodable.take m) hp
  obtain ⟨q, hq⟩ := h.reaches
  rw [taking, ← List.take_append_drop m chain, List.map_append, Scan.takeAll_append,
    h.take_eq hm] at hq
  obtain ⟨⟨p', w'⟩, hp', hq⟩ := Except.bind_eq_ok.1 hq
  cases hp.symm.trans hp'
  obtain ⟨q', hq', -⟩ := Scan.takeAll_congr hreached.point hq
  rw [hreached.accountKeys]
  exact ⟨q', hq'⟩

/-- **A wallet that ends on a shared block gets in step.** -/
theorem scanned (h : Course s accounts first depth stale chain shared goal)
    (hstanding : Standing s accounts first stale m w held st) (hm : m ≤ shared)
    (hasks : AsksFrom first m refetchFrom) :
    ∃ summary st', s.round chain refetchFrom st = .ok (.scanned summary) st' ∧
      st'.wallet.content = goal := by
  obtain ⟨c, hinsert, hsettled, hblocks⟩ :=
    hstanding.inserted h.fork.chainLinked h.chainEncodable h.hashes
  obtain ⟨p, hp⟩ := hstanding.taken
  obtain ⟨hcheck, hscan⟩ := divides_of_taking h.policy.activation h.word_first h.fork.staleLinked
    h.staleEncodable hstanding.reaches hp
  obtain ⟨q, hq⟩ := h.rest hm hp
  -- the check follows the same blocks from the same place
  have hverdict : ∃ report, verdict w c = .ok report := by
    unfold verdict Links.check
    rw [hblocks _ hcheck]
    refine follow_of_takeAll ?_ ?_ hq _
    · unfold startOf Wallet.chainTip?
      cases w.tip? <;> rfl
    · unfold startOf Wallet.chainTip?
      cases w.tip? with
      | none => exact Or.inl rfl
      | some t => exact Or.inr rfl
  obtain ⟨report, hreport⟩ := hverdict
  obtain ⟨summary, st', hsync, hgoal⟩ :=
    sync_of_takeAll hsettled hstanding.idle h.policy.unlimited hreport (hblocks _ hscan) hq
  refine ⟨summary, st', Action.bind_eq_ok.2 ⟨(), _, ?_, hsync⟩, hgoal⟩
  rw [asked_eq_drop h.fork.chainLinked h.chainEncodable hasks]
  exact Scan.onCache_eq_ok.2 ⟨c, hinsert, rfl⟩

/-! ### Going back -/

/-- How many of the blocks are left when a wallet of `m` blocks goes back. -/
def left (depth : Int) (m : Nat) : Nat := (m + 1 - depth).toNat

theorem left_lt (h : Course s accounts first depth stale chain shared goal) (hm : 0 < m) :
    left depth m < m := by
  have := h.policy.two
  unfold left
  omega

theorem forkTarget_eq (h : Course s accounts first depth stale chain shared goal)
    (hm : m < chain.length) :
    s.forkTarget (.int (first + m)) = .int (Number.rounded (first + m - depth)) := by
  obtain ⟨h0, hlt⟩ := h.fork.chainLinked.word h.chainEncodable (List.getElem?_eq_getElem hm)
  have hsmall := natAbs_lt_of_nonneg h0 hlt
  have htwo := h.policy.two
  unfold forkTarget
  rw [h.policy.rewind]
  exact Number.ofInt_sub h0 (by omega) (by omega) h.policy.number

/-- Going back leaves the blocks below the first one that is left out. -/
theorem forkTarget_lt_iff (h : Course s accounts first depth stale chain shared goal)
    (hm : m < chain.length) {k : Int} (hfirst : first ≤ k) (hk : k < wordRange) :
    s.forkTarget (.int (first + m)) < .int k ↔ first + left depth m ≤ k := by
  have hsmall := natAbs_lt_of_nonneg (Int.le_trans h.word_first.1 hfirst) hk
  rw [h.forkTarget_eq hm, Number.int_lt_int, Number.rounded_lt_iff (Nat.lt_of_succ_lt hsmall)]
  unfold left
  omega

theorem asksFrom_forkTarget (h : Course s accounts first depth stale chain shared goal)
    (hm : m < chain.length) :
    AsksFrom first (left depth m) (s.forkTarget (.int (first + m)) + 1) := by
  intro k hfirst hk
  have hsmall := natAbs_lt_of_nonneg (Int.le_trans h.word_first.1 hfirst) hk
  -- rounding moves the successor past no word
  rw [← h.forkTarget_lt_iff hm hfirst hk, h.forkTarget_eq hm, Number.int_add_one,
    Number.ofInt_le_int (Nat.lt_of_succ_lt hsmall), Number.int_lt_int]
  exact Int.add_one_le_iff

theorem isInteger_forkTarget (h : Course s accounts first depth stale chain shared goal)
    (hm : m < chain.length) : (s.forkTarget (.int (first + m))).isInteger = true := by
  rw [h.forkTarget_eq hm]
  rfl

/-- Going back goes below the tip. -/
theorem not_le_forkTarget (h : Course s accounts first depth stale chain shared goal)
    (hm : m + 1 < chain.length) :
    ¬ Number.int (first + m) ≤ s.forkTarget (.int (first + (m + 1 : Nat))) := by
  obtain ⟨h0, hlt⟩ := h.fork.chainLinked.word h.chainEncodable
    (List.getElem?_eq_getElem (Nat.lt_of_succ_lt hm))
  have hsmall := natAbs_lt_of_nonneg h0 hlt
  have htwo := h.policy.two
  rw [h.forkTarget_eq hm, Number.int_le_int, Int.not_le,
    Number.rounded_lt_iff (Nat.lt_of_succ_lt hsmall)]
  omega

/-- Going back is always allowed. -/
theorem isDeep_forkTarget (h : Course s accounts first depth stale chain shared goal) :
    WalletStore.isDeep (s.forkTarget (.int (first + (m + 1 : Nat)))) s.policy.pruningDepth
      (first + m) = false := by
  obtain ⟨pruning, hpruning, hdepth⟩ := h.policy.allowed
  have htwo := h.policy.two
  unfold WalletStore.isDeep forkTarget
  rw [h.policy.rewind, decide_eq_false_iff_not]
  rcases Number.toInt?_eq_some.1 hpruning with hp | ⟨-, rfl⟩
  · -- both sides are rounded, and rounding keeps their order
    rw [hp]
    refine Number.not_ofInt_lt_ofInt (a := first + m - pruning) ?_
    omega
  · omega

/-- The first block that is asked for does not name the tip of a wallet that ends on a replaced
block. -/
theorem verdict_eq (h : Course s accounts first depth stale chain shared goal)
    (hstanding : Standing s accounts first stale (m + 1) w held st) (hm : shared ≤ m) {c : Cache}
    (hblocks : ∀ last, Divides first (m + 1) last →
      c.blocks last none = ⟨(chain.drop (m + 1)).map Block.plain, none⟩) :
    verdict w c = .error (.brokenChain (.parentMismatch (.int (first + (m + 1 : Nat))))) := by
  obtain ⟨p, hp⟩ := hstanding.taken
  have hstale : m < stale.length := hstanding.reaches
  have hnext : m + 1 < chain.length := Nat.lt_of_le_of_lt hstanding.reaches h.fork.longer
  have hget := List.getElem?_eq_getElem hstale
  have hold := List.getElem?_eq_getElem (Nat.lt_of_succ_lt hnext)
  have hnew := List.getElem?_eq_getElem hnext
  obtain ⟨t, ht, hheight, hhash⟩ :=
    tip_of_taking h.fork.staleLinked h.staleEncodable hp hget
  obtain ⟨hash, hnewer, hparent⟩ := h.fork.chainLinked.links m _ _ hold hnew
  -- the tip is not the block that the new chain has in its place
  have hother : hash ≠ t.hash := by
    rintro rfl
    exact h.fork.differ m _ _ hm hget hold (hhash.trans hnewer.symm)
  have hword := h.fork.chainLinked.word h.chainEncodable hnew
  have hplain := h.fork.chainLinked.height_plain hnew
  have hafter : Number.int t.height + 1 = .int (first + (m + 1 : Nat)) := by
    rw [hheight, Number.int_add_one_of_safe]
    · congr 1
      omega
    · have hfirst := h.word_first
      have hsmall := natAbs_lt_of_nonneg hword.1 hword.2
      unfold Number.maxSafe
      omega
  have hfits : Links.fits (Links.after w.chainTip?) chain[m + 1].plain = true := by
    unfold Wallet.chainTip?
    rw [ht]
    show chain[m + 1].plain.height.same (.int t.height + 1) = true
    rw [hplain, hafter]
    exact Number.int_same_int.2 rfl
  have htip : (Links.after w.chainTip?).parent = some t.hash := by
    unfold Wallet.chainTip?
    rw [ht]
    rfl
  obtain ⟨hdivides, -⟩ := divides_of_taking h.policy.activation h.word_first h.fork.staleLinked
    h.staleEncodable hstanding.reaches hp
  unfold verdict Links.check
  rw [hblocks _ hdivides, List.drop_eq_getElem_cons hnext, List.map_cons, ← hplain]
  exact follow_of_stranger hfits htip (Block.parent?_plain.2 hparent) hother _ _

/-- Cutting a wallet at the fork target leaves it standing further down. -/
theorem taken_cut (h : Course s accounts first depth stale chain shared goal)
    (hm : m < chain.length) {p : Point}
    (hp : s.taking accounts (stale.take m) = .ok (p, w)) (hleft : left depth m ≤ m) :
    ∃ q, s.taking accounts (stale.take (left depth m)) =
      .ok (q, w.cut (s.forkTarget (.int (first + m)))) := by
  have hlinked := h.fork.staleLinked.take m
  have hencodable := h.staleEncodable.take m
  obtain ⟨q, hq⟩ := Scan.takeAll_upTo (hlinked.hasWordHeight hencodable) hp
    (s.forkTarget (.int (first + m)))
  have hkept : ((stale.take m).filter fun b =>
      !decide (s.forkTarget (.int (first + m)) < b.plain.height)) = stale.take (left depth m) := by
    rw [filter_eq_take (m := left depth m) fun i b hb => ?_, List.take_take, Nat.min_eq_left hleft]
    have hword := hlinked.word hencodable hb
    rw [hlinked.height_plain hb, Bool.not_eq_true', decide_eq_false_iff_not,
      h.forkTarget_lt_iff hm (by omega) hword.2]
    omega
  rw [List.filter_map] at hq
  refine ⟨q, ?_⟩
  rw [taking, ← hkept]
  exact hq

/-- What the cache still holds when it is truncated stands below the wallet's end. -/
theorem below_upTo (h : Course s accounts first depth stale chain shared goal)
    (hstanding : Standing s accounts first stale m w held st) (hm : m < chain.length) {c : Cache}
    (hstands : c.Stands ((held.insertAll ((chain.drop m).map Cache.keyed)).upTo
      (s.forkTarget (.int (first + m))))) {k : Int} {b : Block}
    (hb : ((held.insertAll ((chain.drop m).map Cache.keyed)).upTo
      (s.forkTarget (.int (first + m)))).find? k = some b) :
    first ≤ k ∧ k < first + left depth m := by
  have hword := hstands.word hb
  rw [Keyed.find?_upTo] at hb
  split at hb
  · cases hb
  · rename_i hlow
    -- nothing stands below the chain, neither what was held nor what was put in
    have hfirst : first ≤ k := by
      rcases Keyed.of_find?_insertAll hb with hrow | hold
      · obtain ⟨i, hi, -⟩ := (h.fork.chainLinked.drop m).of_mem_rows hrow
        have hi : k = first + m + i := hi
        omega
      · exact (hstanding.below k b hold).1
    rw [h.forkTarget_lt_iff hm hfirst hword.2] at hlow
    omega

/-- **A wallet that ends on a replaced block goes back.** -/
theorem reorganized (h : Course s accounts first depth stale chain shared goal)
    (hstanding : Standing s accounts first stale (m + 1) w held st) (hm : shared ≤ m)
    (hasks : AsksFrom first (m + 1) refetchFrom) :
    ∃ height next report w' held' st',
      s.round chain refetchFrom st = .ok (.reorganized height next report) st' ∧
        Standing s accounts first stale (left depth (m + 1)) w' held' st' ∧
        AsksFrom first (left depth (m + 1)) next := by
  have hnext : m + 1 < chain.length := Nat.lt_of_le_of_lt hstanding.reaches h.fork.longer
  have hleft : left depth (m + 1) < m + 1 := h.left_lt (Nat.succ_pos m)
  obtain ⟨c, hinsert, hsettled, hblocks⟩ :=
    hstanding.inserted h.fork.chainLinked h.chainEncodable h.hashes
  obtain ⟨p, hp⟩ := hstanding.taken
  obtain ⟨t, ht, hheight, -⟩ := tip_of_taking h.fork.staleLinked h.staleEncodable hp
    (List.getElem?_eq_getElem hstanding.reaches)
  have hbelow := h.not_le_forkTarget hnext
  have hdeep := h.isDeep_forkTarget (m := m)
  rw [← hheight] at hbelow hdeep
  obtain ⟨report, st', hsync, hidle, hcut⟩ := sync_of_fork hsettled hstanding.idle
    (h.verdict_eq hstanding hm hblocks) ht (h.isInteger_forkTarget hnext) hbelow hdeep
  have hround : s.round chain refetchFrom st = .ok (.reorganized (.int (first + (m + 1 : Nat)))
      (s.forkTarget (.int (first + (m + 1 : Nat))) + 1) report) st' := by
    refine Action.bind_eq_ok.2 ⟨(), _, ?_, hsync⟩
    rw [asked_eq_drop h.fork.chainLinked h.chainEncodable hasks]
    exact Scan.onCache_eq_ok.2 ⟨c, hinsert, rfl⟩
  have hlower : Standing s accounts first stale (left depth (m + 1)) _ _ st' :=
    { idle := hidle
      reaches := Nat.le_trans (Nat.le_of_lt hleft) hstanding.reaches
      settled := hcut
      taken := h.taken_cut hnext hp (Nat.le_of_lt hleft)
      below := fun _ _ hb => h.below_upTo hstanding hnext hcut.stands hb }
  exact ⟨_, _, report, _, _, st', hround, hlower, h.asksFrom_forkTarget hnext⟩

end Course

/-! ## Round after round -/

theorem getInStep_of_standing {τ : Type} {depth : Int} {stale chain : List Block}
    {shared m more : Nat}
    {goal : Wallet} {held : Keyed Block} {st : SyncState τ} {refetchFrom : Number}
    (h : Course s accounts first depth stale chain shared goal)
    (hstanding : Standing s accounts first stale m w held st) (hmore : m ≤ more)
    (hasks : AsksFrom first m refetchFrom) :
    ∃ summary st', s.getInStep chain more refetchFrom st = .ok (.scanned summary) st' ∧
      st'.wallet.content = goal := by
  -- a round either scans, or leaves fewer of the replaced blocks than there are rounds to come
  induction more generalizing m w held st refetchFrom with
  | zero =>
      obtain rfl : m = 0 := Nat.le_zero.1 hmore
      exact h.scanned hstanding (Nat.zero_le shared) hasks
  | succ more ih =>
      rcases Nat.lt_or_ge shared m with hm | hm
      · obtain ⟨n, rfl⟩ := Nat.exists_eq_succ_of_ne_zero (Nat.ne_zero_of_lt hm)
        obtain ⟨height, next, report, w', held', st1, hround, hstanding', hasks'⟩ :=
          h.reorganized hstanding (Nat.le_of_lt_succ hm) hasks
        obtain ⟨summary, st', hrest, hgoal⟩ := ih hstanding'
          (Nat.le_of_lt_succ (Nat.lt_of_lt_of_le (h.left_lt (Nat.succ_pos n)) hmore)) hasks'
        exact ⟨summary, st', Action.bind_eq_ok.2 ⟨_, st1, hround, hrest⟩, hgoal⟩
      · obtain ⟨summary, st', hround, hgoal⟩ := h.scanned hstanding hm hasks
        exact ⟨summary, st', Action.bind_eq_ok.2 ⟨_, st', hround, rfl⟩, hgoal⟩

/-- **After a fork the wallet gets in step.** It was scanned from the replaced chain, and the cache
holds nothing but blocks of it. Then as many rounds as that chain has blocks, and one more, are
enough: each of them goes back or scans, none fails or ends at a gap, and in the end the wallet is
what scanning the new chain makes of one without blocks. -/
theorem getInStep_of_fork {τ : Type} (s : Synchronizer) (accounts : Keyed Bytes)
    {first depth : Int} {stale chain : List Block} {shared : Nat} {before goal : Wallet}
    {held : Keyed Block} {st : SyncState τ} (hpolicy : GoesBack s.policy first depth)
    (hfork : Fork first stale chain shared) (hbefore : s.scanOf accounts stale = .ok before)
    (hgoal : s.scanOf accounts chain = .ok goal) (hidle : st.active = none)
    (hsettled : st.Settled before held) (hheld : ∀ k b, held.find? k = some b → b ∈ stale) :
    ∃ summary st', s.getInStep chain stale.length (.int (first + stale.length)) st =
        .ok (.scanned summary) st' ∧ st'.wallet.content = goal := by
  obtain ⟨hstale, htaken⟩ := taking_of_scanOf hpolicy.activation hpolicy.unlimited hfork.staleLinked
    (fun b hb => hfork.sizes b (List.mem_append_left _ hb)) hbefore
  obtain ⟨hchain, hreaches⟩ := taking_of_scanOf hpolicy.activation hpolicy.unlimited
    hfork.chainLinked (fun b hb => hfork.sizes b (List.mem_append_right _ hb)) hgoal
  have hcourse : Course s accounts first depth stale chain shared goal :=
    ⟨hpolicy, hfork, hstale, hchain, hreaches⟩
  have hstanding : Standing s accounts first stale stale.length before held st := by
    refine ⟨hidle, Nat.le_refl _, hsettled, ?_, fun k b hb => ?_⟩
    · rw [List.take_length]
      exact htaken
    · obtain ⟨i, hi, rfl⟩ := List.getElem_of_mem (hheld k b hb)
      have hheight := (hsettled.stands.blocks k _ hb).1
      rw [hfork.staleLinked.heights i _ (List.getElem?_eq_getElem hi)] at hheight
      cases hheight
      omega
  exact getInStep_of_standing hcourse hstanding (Nat.le_refl _) fun k _ _ => Number.int_le_int

/-! ### A fork deeper than one way back -/

/-- Three blocks, of which the last two are replaced. -/
def replacedChain : List Block :=
  [linkedBlock 50 1 0 [], linkedBlock 51 2 1 [], linkedBlock 52 3 2 []]

def replacingChain : List Block :=
  [linkedBlock 50 1 0 [], linkedBlock 51 9 1 [], linkedBlock 52 10 9 [], linkedBlock 53 11 10 []]

theorem fork_replacing : Fork 50 replacedChain replacingChain 1 where
  staleLinked := {
    heights := by
      rintro (_ | _ | _ | i) b hb
      all_goals cases hb
      all_goals rfl
    links := by
      rintro (_ | _ | _ | i) a b ha hb
      all_goals cases ha
      all_goals cases hb
      all_goals exact ⟨_, rfl, rfl⟩ }
  chainLinked := {
    heights := by
      rintro (_ | _ | _ | _ | i) b hb
      all_goals cases hb
      all_goals rfl
    links := by
      rintro (_ | _ | _ | _ | i) a b ha hb
      all_goals cases ha
      all_goals cases hb
      all_goals exact ⟨_, rfl, rfl⟩ }
  longer := by decide
  common := rfl
  parts := by decide
  differ := by
    rintro (_ | _ | _ | i) a b hi ha hb
    all_goals cases ha
    all_goals cases hb
    · cases hi
    all_goals decide
  sizes := by decide +kernel

/-- The policy of `fromFifty` goes back two blocks, so that two rounds go back and a third one
scans. -/
theorem getInStep_of_fork_replacing : ∃ before goal held st,
    let s := fromFifty (.ofList [])
    GoesBack s.policy 50 2 ∧ Fork 50 replacedChain replacingChain 1 ∧
    s.scanOf Keyed.empty replacedChain = .ok before ∧
    s.scanOf Keyed.empty replacingChain = .ok goal ∧ st.active = none ∧
    st.Settled before held ∧ (∀ k b, held.find? k = some b → b ∈ replacedChain) ∧
    ∃ summary, ∃ st' : SyncState Unit,
      s.getInStep replacingChain replacedChain.length (.int (50 + replacedChain.length)) st =
        .ok (.scanned summary) st' ∧ st'.wallet.content = goal := by
  let s := fromFifty (.ofList [])
  have hok (bs : List Block) (h : (s.scanOf Keyed.empty bs).toBool = true) :
      ∃ w, s.scanOf Keyed.empty bs = .ok w := by
    cases hscan : s.scanOf Keyed.empty bs with
    | ok w => exact ⟨w, rfl⟩
    | error e =>
        rw [hscan] at h
        cases h
  obtain ⟨before, hbefore⟩ := hok replacedChain (by decide +kernel)
  obtain ⟨goal, hgoal⟩ := hok replacingChain (by decide +kernel)
  have hpolicy : GoesBack s.policy 50 2 := ⟨rfl, rfl, rfl, rfl, by decide, 100, rfl, by decide⟩
  have hsizes : ∀ b ∈ replacedChain, b.size < CompactSize.bound := fun b hb =>
    fork_replacing.sizes b (List.mem_append_left _ hb)
  have hencodable := (taking_of_scanOf rfl rfl fork_replacing.staleLinked hsizes hbefore).1
  let held : Keyed Block := Keyed.empty.insertAll (replacedChain.map Cache.keyed)
  have hheld : ∀ k b, held.find? k = some b → b ∈ replacedChain := by
    intro k b hb
    rcases Keyed.of_find?_insertAll hb with hrow | hnone
    · obtain ⟨i, -, hi⟩ := fork_replacing.staleLinked.of_mem_rows hrow
      exact List.mem_of_getElem? hi
    · cases hnone
  let st := SyncState.idle (Cache.inMemory (held.map Block.bytes)) before
  have hsettled : st.Settled before held := by
    refine ⟨rfl, rfl, ⟨rfl, rfl⟩, Cache.stands_inMemory ?_⟩
    exact Cache.blocks_insertAll Cache.stands_empty fun b hb => (hencodable b hb).1
  exact ⟨before, goal, held, st, hpolicy, fork_replacing, hbefore, hgoal, rfl, hsettled, hheld,
    getInStep_of_fork s Keyed.empty hpolicy fork_replacing hbefore hgoal rfl hsettled hheld⟩

end Synchronizer

end LightSync
