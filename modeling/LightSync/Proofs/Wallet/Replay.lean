import LightSync.Proofs.Wallet.Truncation
import Mathlib.Data.List.Induction

/-!
# Recording blocks in order

A wallet in which blocks of safe heights were recorded one after another holds nothing above its
tip, and each block stood one above the one before it (`Sound`, `sound_of_recorded`). Truncating
it is therefore the same as recording only the blocks up to the height (`recordAll_upTo`).
-/

set_option autoImplicit false

namespace LightSync

namespace Wallet

/-! ## Recording blocks in order -/

/-- A wallet with accounts in which no block was recorded. -/
def unscanned (accounts : Keyed Bytes) : Wallet := ⟨accounts, Keyed.empty, []⟩

def oneAccount : Keyed Bytes := ⟨[(0, [1])], List.pairwise_singleton _ _⟩

/-- Records blocks in order. -/
def recordAll (bs : List ScannedBlock) (w : Wallet) : Except Failure Wallet :=
  bs.foldlM (fun w b => w.record b) w

theorem recordAll_concat (bs : List ScannedBlock) (b : ScannedBlock) (w : Wallet) :
    recordAll (bs ++ [b]) w = recordAll bs w >>= fun w => w.record b := by
  simp [recordAll, List.foldlM_append]

/-- The blocks that are not above a height. -/
def upTo (height : Number) (bs : List ScannedBlock) : List ScannedBlock :=
  bs.filter fun b => !decide (height < b.height)

/-! ## Sound wallets -/

/-- A wallet that holds nothing above its tip. -/
structure Sound (w : Wallet) : Prop where
  bare : w.tip? = none → w.notes = []
  capped : ∀ t, w.tip? = some t → Capped w t.height
  safe : ∀ t, w.tip? = some t → t.height.natAbs ≤ Number.maxSafe

theorem sound_unscanned (accounts : Keyed Bytes) : Sound (unscanned accounts) where
  bare _ := rfl
  capped t h := by cases h
  safe t h := by cases h

theorem entries_of_tip?_eq_none {w : Wallet} (h : w.tip? = none) : w.checkpoints.entries = [] := by
  simpa [tip?, Keyed.last?] using h

/-- The tip once a block is recorded. -/
def tipOf (b : ScannedBlock) (k : Int) : WalletTip := { checkpointOf b with height := k }

/-- A block that is recorded in a sound wallet follows its tip and becomes the tip. -/
theorem sound_of_recorded {b : ScannedBlock} {k : Int} {w w' : Wallet} (h : Recorded b k w w')
    (hb : b.height.toInt? = some k) (hk : k.natAbs ≤ Number.maxSafe) (hw : Sound w) :
    Sound w' ∧ w'.tip? = some (tipOf b k) ∧ ∀ t, w.tip? = some t → k = t.height + 1 := by
  have hnext : ∀ t, w.tip? = some t → k = t.height + 1 := by
    intro t ht
    have hsame := h.follows t ht
    rw [Number.int_add_one_of_safe (hw.safe t ht)] at hsame
    exact (Number.same_int_of_toInt? hb).1 hsame
  have hbelow : ∀ e ∈ w.checkpoints.entries, e.1 < k := by
    intro e he
    cases ht : w.tip? with
    | none =>
        rw [entries_of_tip?_eq_none ht] at he
        cases he
    | some t =>
        have := (hw.capped t ht).checkpoints e he
        have := hnext t ht
        omega
  -- its checkpoint lies above all others, so it is the tip
  have htip : w'.tip? = some (tipOf b k) := by
    rw [tip?, h.checkpoints, Keyed.last?_insert_above hbelow]
    rfl
  have hcap : Capped w k := by
    cases ht : w.tip? with
    | none =>
        have hnotes := hw.bare ht
        constructor
        · intro e he
          exact Int.le_of_lt (hbelow e he)
        · intro n hn
          rw [hnotes] at hn
          cases hn
        · intro n hn
          rw [hnotes] at hn
          cases hn
    | some t =>
        have hc := hw.capped t ht
        have hle : t.height ≤ k := by
          have := hnext t ht
          omega
        exact ⟨fun e he => Int.le_trans (hc.checkpoints e he) hle,
          fun n hn => Int.le_trans (hc.notes n hn) hle,
          fun n hn s hs => Int.le_trans (hc.spends n hn s hs) hle⟩
  refine ⟨⟨fun ht => ?_, fun t ht => ?_, fun t ht => ?_⟩, htip, hnext⟩
  · rw [htip] at ht
    cases ht
  · rw [htip] at ht
    cases ht
    exact capped_of_recorded h hcap (Int.le_refl k)
  · rw [htip] at ht
    cases ht
    exact hk

/-! ## Replaying -/

/-- What recording blocks in order comes to: a sound wallet, whose tip is a block of the list that
none of them lies above. -/
structure Replayed (bs : List ScannedBlock) (w : Wallet) : Prop where
  sound : Sound w
  below : ∀ b ∈ bs, ∃ k t, b.height.toInt? = some k ∧ w.tip? = some t ∧ k ≤ t.height
  tip : ∀ t, w.tip? = some t → ∃ b ∈ bs, b.height.toInt? = some t.height

/-- Every height is an integer whose neighbours are numbers too. -/
def SafeHeights (bs : List ScannedBlock) : Prop :=
  ∀ b ∈ bs, b.height.toSafeInt?.isSome = true

theorem SafeHeights.toInt? {bs : List ScannedBlock} (h : SafeHeights bs) {b : ScannedBlock}
    (hb : b ∈ bs) : ∃ k, b.height.toInt? = some k ∧ k.natAbs ≤ Number.maxSafe := by
  obtain ⟨k, hk⟩ := Option.isSome_iff_exists.1 (h b hb)
  exact ⟨k, Number.toSafeInt?_eq_some.1 hk⟩

theorem SafeHeights.append {bs cs : List ScannedBlock} (hb : SafeHeights bs)
    (hc : SafeHeights cs) : SafeHeights (bs ++ cs) := by
  intro b hm
  exact (List.mem_append.1 hm).elim (hb b) (hc b)

theorem SafeHeights.left {bs cs : List ScannedBlock} (h : SafeHeights (bs ++ cs)) :
    SafeHeights bs := fun b hb => h b (List.mem_append_left _ hb)

theorem replayed_of_recordAll {accounts : Keyed Bytes} {bs : List ScannedBlock} {w : Wallet}
    (hsafe : SafeHeights bs) (h : recordAll bs (unscanned accounts) = .ok w) : Replayed bs w := by
  induction bs using List.reverseRecOn generalizing w with
  | nil =>
      cases h
      exact ⟨sound_unscanned accounts, fun b hb => (by cases hb), fun t ht => (by cases ht)⟩
  | append_singleton bs b ih =>
      rw [recordAll_concat] at h
      obtain ⟨v, hv, hb⟩ := Except.bind_eq_ok.1 h
      obtain ⟨k, hk, hsafek⟩ := hsafe.toInt? (List.mem_append_right bs List.mem_cons_self)
      have ihv := ih hsafe.left hv
      have hrec := recorded_of_record hk hb
      obtain ⟨hsound, htip, hnext⟩ := sound_of_recorded hrec hk hsafek ihv.sound
      refine ⟨hsound, fun x hx => ?_, fun t ht => ?_⟩
      · rcases List.mem_append.1 hx with hx | hx
        · obtain ⟨j, t, hj, ht, hjt⟩ := ihv.below x hx
          refine ⟨j, tipOf b k, hj, htip, ?_⟩
          have := hnext t ht
          show j ≤ k
          omega
        · cases List.mem_singleton.1 hx
          exact ⟨k, tipOf b k, hk, htip, Int.le_refl k⟩
      · rw [htip] at ht
        cases ht
        exact ⟨b, List.mem_append_right bs List.mem_cons_self, hk⟩

/-- Recording only the blocks up to a height is recording all of them and cutting the wallet. -/
theorem recordAll_upTo {accounts : Keyed Bytes} {bs : List ScannedBlock} {w : Wallet}
    (hsafe : SafeHeights bs) (h : recordAll bs (unscanned accounts) = .ok w) (height : Number) :
    recordAll (upTo height bs) (unscanned accounts) = .ok (w.cut height) := by
  induction bs using List.reverseRecOn generalizing w with
  | nil =>
      cases h
      rfl
  | append_singleton bs b ih =>
      have hall := replayed_of_recordAll hsafe h
      rw [recordAll_concat] at h
      obtain ⟨v, hv, hb⟩ := Except.bind_eq_ok.1 h
      obtain ⟨k, hk, hsafek⟩ := hsafe.toInt? (List.mem_append_right bs List.mem_cons_self)
      have hrec := recorded_of_record hk hb
      obtain ⟨-, htip, -⟩ :=
        sound_of_recorded hrec hk hsafek (replayed_of_recordAll hsafe.left hv).sound
      by_cases hlt : height < b.height
      · have hdrop : upTo height (bs ++ [b]) = upTo height bs := by
          simp [upTo, List.filter_append, hlt]
        calc recordAll (upTo height (bs ++ [b])) (unscanned accounts)
          _ = recordAll (upTo height bs) (unscanned accounts) := by rw [hdrop]
          _ = .ok (v.cut height) := ih hsafe.left hv
          _ = .ok (w.cut height) := by
              rw [cut_of_recorded hrec ((Number.lt_iff_of_toInt? hk).1 hlt)]
      · -- the new block is the highest, so that all of them stay
        rw [Number.lt_iff_of_toInt? hk] at hlt
        have hkeep : upTo height (bs ++ [b]) = bs ++ [b] := by
          refine List.filter_eq_self.2 fun x hx => ?_
          obtain ⟨j, t, hj, ht, hjt⟩ := hall.below x hx
          rw [htip] at ht
          cases ht
          have hx : ¬ height < x.height := fun hc =>
            hlt (Number.lt_int_of_le ((Number.lt_iff_of_toInt? hj).1 hc) hjt)
          simp [hx]
        calc recordAll (upTo height (bs ++ [b])) (unscanned accounts)
          _ = recordAll (bs ++ [b]) (unscanned accounts) := by rw [hkeep]
          _ = .ok w := by
              rw [recordAll_concat, hv]
              exact hb
          _ = .ok (w.cut height) := by rw [cut_of_capped (hall.sound.capped _ htip) hlt]

end Wallet

end LightSync
