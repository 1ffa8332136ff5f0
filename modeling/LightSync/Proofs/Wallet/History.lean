import LightSync.Proofs.Wallet.Replay

/-!
# The history of a wallet

Blocks are committed to a wallet and truncated away again, in any order, and a commit may fail. At
any time the wallet is what the surviving blocks alone make of one without blocks
(`History.Faithful`), so that truncating to an earlier tip brings back what the wallet was then.
-/

set_option autoImplicit false

namespace LightSync

open Wallet (unscanned recordAll upTo SafeHeights)
open WalletStore (commitBlock truncate)

/-! ## Changes -/

/-- What is asked of the store of a wallet. -/
inductive Change where
  | commit (b : ScannedBlock)
  | truncate (height : Number)

/-- The store of a wallet, and the blocks that were committed to it and survived. -/
structure History where
  store : WalletStore
  blocks : List ScannedBlock

namespace History

/-- A wallet without blocks, in a store that may have a fault injected. -/
def fresh (accounts : Keyed Bytes) (backing : Backing Wallet) (fault : Option InjectedFault) :
    History :=
  ⟨{ Database.connect (unscanned accounts) backing with fault }, []⟩

/-- The history after a change. A block that was not committed does not count. -/
def apply (h : History) : Change → History
  | .commit b =>
      match commitBlock b h.store with
      | .ok _ store => ⟨store, h.blocks ++ [b]⟩
      | .error _ store => ⟨store, h.blocks⟩
  | .truncate height => ⟨(truncate height).after h.store, upTo height h.blocks⟩

def run (h : History) (changes : List Change) : History := changes.foldl apply h

theorem apply_commit_of_ok {h : History} {b : ScannedBlock} {s : WalletStore}
    (h1 : commitBlock b h.store = .ok () s) : h.apply (.commit b) = ⟨s, h.blocks ++ [b]⟩ := by
  simp only [apply, h1]

theorem apply_commit_of_error {h : History} {b : ScannedBlock} {s : WalletStore} {e : Failure}
    (h1 : commitBlock b h.store = .error e s) : h.apply (.commit b) = ⟨s, h.blocks⟩ := by
  simp only [apply, h1]

/-! ## Faithful histories -/

/-- The wallet is what the surviving blocks make of one without blocks. -/
structure Faithful (accounts : Keyed Bytes) (h : History) : Prop where
  rest : h.store.AtRest
  safe : SafeHeights h.blocks
  replay : recordAll h.blocks (unscanned accounts) = .ok h.store.content

theorem faithful_fresh (accounts : Keyed Bytes) (backing : Backing Wallet)
    (fault : Option InjectedFault) : Faithful accounts (fresh accounts backing fault) where
  rest := rfl
  safe b hb := by cases hb
  replay := rfl

/-- The blocks of the changes have safe heights. -/
def SafeChanges (changes : List Change) : Prop :=
  ∀ b, Change.commit b ∈ changes → b.height.toSafeInt?.isSome = true

theorem safeChanges_singleton {b : ScannedBlock} (h : b.height.toSafeInt?.isSome = true) :
    SafeChanges [.commit b] := by
  intro x hx
  cases List.mem_singleton.1 hx
  exact h

theorem SafeChanges.head {c : Change} {changes : List Change} (h : SafeChanges (c :: changes)) :
    SafeChanges [c] := by
  intro b hb
  cases List.mem_singleton.1 hb
  exact h b List.mem_cons_self

theorem SafeChanges.tail {c : Change} {changes : List Change} (h : SafeChanges (c :: changes)) :
    SafeChanges changes := fun b hb => h b (List.mem_cons_of_mem _ hb)

theorem content_after_truncate {h : History} {accounts : Keyed Bytes} (hf : Faithful accounts h)
    (height : Number) : ((truncate height).after h.store).content = h.store.content.cut height ∧
      ((truncate height).after h.store).AtRest := by
  obtain ⟨s, hs, hc, hr, -⟩ := WalletStore.truncate_of_atRest height hf.rest
  rw [Action.after_of_ok hs]
  exact ⟨hc, hr⟩

theorem Faithful.apply {accounts : Keyed Bytes} {h : History} (hf : Faithful accounts h)
    {c : Change} (hc : SafeChanges [c]) : Faithful accounts (h.apply c) := by
  cases c with
  | commit b =>
      have hb : SafeHeights [b] := by
        intro x hx
        cases List.mem_singleton.1 hx
        exact hc _ List.mem_cons_self
      cases h1 : commitBlock b h.store with
      | ok u s =>
          obtain ⟨hrec, hr, -⟩ := WalletStore.record_of_commitBlock h1
          rw [apply_commit_of_ok h1]
          refine ⟨hr, hf.safe.append hb, ?_⟩
          rw [Wallet.recordAll_concat, hf.replay]
          exact hrec
      | error e s =>
          obtain ⟨hs, hr, -⟩ := WalletStore.content_of_commitBlock_error hf.rest h1
          rw [apply_commit_of_error h1]
          refine ⟨hr, hf.safe, ?_⟩
          rw [hf.replay]
          exact congrArg _ hs.symm
  | truncate height =>
      obtain ⟨hcut, hr⟩ := content_after_truncate hf height
      refine ⟨hr, fun b hb => hf.safe b (List.mem_filter.1 hb).1, ?_⟩
      show recordAll (upTo height h.blocks) _ = .ok ((truncate height).after h.store).content
      rw [hcut]
      exact Wallet.recordAll_upTo hf.safe hf.replay height

theorem Faithful.run {accounts : Keyed Bytes} {h : History} (hf : Faithful accounts h)
    {changes : List Change} (hc : SafeChanges changes) : Faithful accounts (h.run changes) := by
  induction changes generalizing h with
  | nil => exact hf
  | cons c changes ih => exact ih (hf.apply hc.head) hc.tail

/-! ## Committing the survivors -/

/-- Blocks that can be recorded in order are committed in order where no fault is injected. -/
theorem commitAll_of_recordAll {bs : List ScannedBlock} {s : WalletStore} {w : Wallet}
    (hrest : s.AtRest) (hfault : s.fault = none) (h : recordAll bs s.content = .ok w) :
    ∃ s', bs.forM commitBlock s = .ok PUnit.unit s' ∧ s'.content = w := by
  induction bs generalizing s with
  | nil =>
      cases h
      exact ⟨s, rfl, rfl⟩
  | cons b bs ih =>
      obtain ⟨v, hb, hbs⟩ := Except.bind_eq_ok.1 h
      obtain ⟨s1, h1, rfl, hr, hx⟩ := WalletStore.commitBlock_of_record hrest hfault hb
      obtain ⟨s2, h2, hw⟩ := ih hr hx hbs
      exact ⟨s2, Action.bind_eq_ok.2 ⟨PUnit.unit, s1, h1, h2⟩, hw⟩

/-! ## Going back to an earlier tip -/

/-- `h` came from `past`: none of its blocks was truncated away since, and the others lie above
`tip`. -/
def Extends (past h : History) (tip : Int) : Prop :=
  ∃ later, h.blocks = past.blocks ++ later ∧ ∀ b ∈ later, Number.int tip < b.height

/-- Truncations to the height `tip` or above. -/
def StaysAbove (tip : Int) (changes : List Change) : Prop :=
  ∀ height, Change.truncate height ∈ changes → ¬ height < .int tip

theorem StaysAbove.head {tip : Int} {c : Change} {changes : List Change}
    (h : StaysAbove tip (c :: changes)) : StaysAbove tip [c] := by
  intro height hh
  cases List.mem_singleton.1 hh
  exact h height List.mem_cons_self

theorem StaysAbove.tail {tip : Int} {c : Change} {changes : List Change}
    (h : StaysAbove tip (c :: changes)) : StaysAbove tip changes :=
  fun height hh => h height (List.mem_cons_of_mem _ hh)

theorem Extends.refl (h : History) (tip : Int) : Extends h h tip :=
  ⟨[], (List.append_nil _).symm, fun x hx => by cases hx⟩

/-- What was committed up to the tip has no height above it. -/
theorem not_lt_of_mem {accounts : Keyed Bytes} {h : History} (hf : Faithful accounts h)
    {t : WalletTip} (ht : h.store.content.tip? = some t) {b : ScannedBlock} (hb : b ∈ h.blocks)
    {height : Number} (hh : ¬ height < .int t.height) : ¬ height < b.height := by
  obtain ⟨k, t', hk, ht', hkt⟩ := (Wallet.replayed_of_recordAll hf.safe hf.replay).below b hb
  rw [ht] at ht'
  cases ht'
  exact fun hc => hh (Number.lt_int_of_le ((Number.lt_iff_of_toInt? hk).1 hc) hkt)

theorem Extends.apply {accounts : Keyed Bytes} {past h : History} {t : WalletTip}
    (hp : Faithful accounts past) (ht : past.store.content.tip? = some t)
    (hf : Faithful accounts h) (he : Extends past h t.height) {c : Change}
    (hc : SafeChanges [c]) (hstay : StaysAbove t.height [c]) :
    Extends past (h.apply c) t.height := by
  obtain ⟨later, hblocks, hlater⟩ := he
  cases c with
  | commit b =>
      cases h1 : commitBlock b h.store with
      | error e s =>
          rw [apply_commit_of_error h1]
          exact ⟨later, hblocks, hlater⟩
      | ok u s =>
          -- the tip of the past is among the blocks, so the new one lies above it
          obtain ⟨x, hx, hxt⟩ := (Wallet.replayed_of_recordAll hp.safe hp.replay).tip t ht
          have hall := Wallet.replayed_of_recordAll hf.safe hf.replay
          obtain ⟨j, t', hj, ht', hjt⟩ :=
            hall.below x (hblocks ▸ List.mem_append_left later hx)
          rw [hxt] at hj
          cases hj
          obtain ⟨k, hk⟩ := Option.isSome_iff_exists.1 (hc b List.mem_cons_self)
          obtain ⟨hk, hsafe⟩ := Number.toSafeInt?_eq_some.1 hk
          have hrec := Wallet.recorded_of_record hk (WalletStore.record_of_commitBlock h1).1
          have hnext := (Wallet.sound_of_recorded hrec hk hsafe hall.sound).2.2 t' ht'
          rw [apply_commit_of_ok h1]
          refine ⟨later ++ [b], ?_, ?_⟩
          · rw [← List.append_assoc, ← hblocks]
          · intro y hy
            rcases List.mem_append.1 hy with hy | hy
            · exact hlater y hy
            · cases List.mem_singleton.1 hy
              rw [Number.lt_iff_of_toInt? hk, Number.int_lt_int]
              omega
  | truncate height =>
      have hstay := hstay height List.mem_cons_self
      refine ⟨upTo height later, ?_, fun b hb => hlater b (List.mem_filter.1 hb).1⟩
      show upTo height h.blocks = _
      rw [hblocks, upTo, List.filter_append, List.filter_eq_self.2]
      · rfl
      · intro b hb
        simp [not_lt_of_mem hp ht hb hstay]

theorem Extends.run {accounts : Keyed Bytes} {past h : History} {t : WalletTip}
    (hp : Faithful accounts past) (ht : past.store.content.tip? = some t)
    (hf : Faithful accounts h) (he : Extends past h t.height) {changes : List Change}
    (hc : SafeChanges changes) (hstay : StaysAbove t.height changes) :
    Extends past (h.run changes) t.height := by
  induction changes generalizing h with
  | nil => exact he
  | cons c changes ih =>
      have hnext := he.apply hp ht hf hc.head hstay.head
      exact ih (hf.apply hc.head) hnext hc.tail hstay.tail

/-- Of a history that came from another one the blocks up to the tip of that one are its blocks. -/
theorem Extends.upTo_blocks {accounts : Keyed Bytes} {past h : History} {t : WalletTip}
    (hp : Faithful accounts past) (ht : past.store.content.tip? = some t)
    (he : Extends past h t.height) : upTo (.int t.height) h.blocks = past.blocks := by
  obtain ⟨later, hblocks, hlater⟩ := he
  rw [hblocks, upTo, List.filter_append, List.filter_eq_self.2, List.filter_eq_nil_iff.2,
    List.append_nil]
  · intro b hb
    simp [hlater b hb]
  · intro b hb
    have : ¬ Number.int t.height < .int t.height := by simp [Number.int_lt_int]
    simp [not_lt_of_mem hp ht hb this]

/-- Truncating to the tip of an earlier time brings back the content of that time, if the wallet
was not truncated below it since. -/
theorem content_after_return {accounts : Keyed Bytes} {past h : History} {t : WalletTip}
    (hp : Faithful accounts past) (ht : past.store.content.tip? = some t)
    (hf : Faithful accounts h) (he : Extends past h t.height) :
    ((truncate (.int t.height)).after h.store).content = past.store.content := by
  have hcut := Wallet.recordAll_upTo hf.safe hf.replay (.int t.height)
  rw [he.upTo_blocks hp ht, hp.replay] at hcut
  calc ((truncate (.int t.height)).after h.store).content
    _ = h.store.content.cut (.int t.height) := (content_after_truncate hf _).1
    _ = past.store.content := (Except.ok.inj hcut).symm

/-! ## The result -/

/-- **A wallet is a replay of its surviving blocks.** Committed in order to a wallet without
blocks, the blocks that survived the changes all succeed and lead to the same content. Truncating
to the tip takes back a commit, and truncating to the tip of an earlier time brings back the
content of that time, if the wallet was not truncated below it since. -/
theorem content_eq_replay (accounts : Keyed Bytes) (backing : Backing Wallet)
    (fault : Option InjectedFault) (changes : List Change) (hsafe : SafeChanges changes) :
    let start := fresh accounts backing fault
    let now := start.run changes
    (∀ elsewhere, ∃ s, now.blocks.forM commitBlock
        (Database.connect (unscanned accounts) elsewhere) = .ok PUnit.unit s ∧
      s.content = now.store.content) ∧
    (∀ b s tip, b.height.toSafeInt?.isSome = true → commitBlock b now.store = .ok () s →
      now.store.content.tip? = some tip →
      ((truncate (.int tip.height)).after s).content = now.store.content) ∧
    (∀ before since tip, changes = before ++ since →
      (start.run before).store.content.tip? = some tip → StaysAbove tip.height since →
      ((truncate (.int tip.height)).after now.store).content =
        (start.run before).store.content) := by
  intro start now
  have hstart : Faithful accounts start := faithful_fresh accounts backing fault
  have hnow : Faithful accounts now := hstart.run hsafe
  refine ⟨fun elsewhere => ?_, fun b s tip hb h1 ht => ?_, fun before since tip hc ht hstay => ?_⟩
  · exact commitAll_of_recordAll rfl rfl hnow.replay
  · -- the commit is a change, after which the tip of now is one of an earlier time
    have hb := safeChanges_singleton hb
    have hstay : StaysAbove tip.height [.commit b] := by
      intro height hh
      cases List.mem_singleton.1 hh
    have hnext := (Extends.refl now tip.height).apply hnow ht hnow hb hstay
    have hback := content_after_return hnow ht (hnow.apply hb) hnext
    rw [apply_commit_of_ok h1] at hback
    exact hback
  · subst hc
    have hbefore : SafeChanges before := fun b hb => hsafe b (List.mem_append_left _ hb)
    have hsince : SafeChanges since := fun b hb => hsafe b (List.mem_append_right _ hb)
    have hpast := hstart.run hbefore
    have hlater := (Extends.refl _ tip.height).run hpast ht hpast hsince hstay
    have hrun : now = (start.run before).run since := List.foldl_append
    rw [hrun]
    exact content_after_return hpast ht (hpast.run hsince) hlater

/-! ### A fork -/

def plainBlock (height : Int) (hash : UInt8) : ScannedBlock :=
  ⟨.int height, [hash], 0, 1, [], []⟩

/-- A note is found and spent, the spend is truncated away, another block takes its place, and
one that does not follow is refused. -/
def forkedChanges : List Change :=
  [.commit { plainBlock 1 7 with notes := [⟨0, 5, none, 0, [7], 0, 0, [7], [7]⟩] },
    .commit { plainBlock 2 8 with spends := [⟨[7], [8]⟩] },
    .truncate 1, .commit (plainBlock 2 9), .commit (plainBlock 4 10)]

theorem content_eq_replay_forked :
    let start := fresh Wallet.oneAccount .memory none
    SafeChanges forkedChanges ∧ ∃ tip,
      (start.run (forkedChanges.take 1)).store.content.tip? = some tip ∧
      StaysAbove tip.height (forkedChanges.drop 1) ∧
      ((truncate (.int tip.height)).after (start.run forkedChanges).store).content =
        (start.run (forkedChanges.take 1)).store.content := by
  intro start
  have hsafe : SafeChanges forkedChanges := by
    intro b hb
    simp only [forkedChanges, List.mem_cons, Change.commit.injEq, reduceCtorEq, List.not_mem_nil,
      or_false, false_or] at hb
    rcases hb with rfl | rfl | rfl | rfl <;> rfl
  have hstay : StaysAbove 1 (forkedChanges.drop 1) := by
    intro height hh
    simp only [forkedChanges, List.drop_succ_cons, List.drop_zero, List.mem_cons, reduceCtorEq,
      Change.truncate.injEq, List.not_mem_nil, or_false, false_or] at hh
    subst hh
    decide
  refine ⟨hsafe, Wallet.tipOf (plainBlock 1 7) 1, rfl, hstay, ?_⟩
  exact (content_eq_replay Wallet.oneAccount .memory none forkedChanges hsafe).2.2 _ _ _ rfl rfl hstay

end History

end LightSync
