import LightSync.Proofs.Number.Rounding
import LightSync.Proofs.Scan.Replay
import LightSync.Proofs.Store.Quiet
import LightSync.Proofs.Wallet.Coherence

/-!
# What rewinding does to a wallet

A rewind that succeeds leaves the wallet cut at the height, also where it had nothing to do
(`content_of_rewind_ok`): a wallet without blocks and one that ends at the height or below have
nothing to be cut away. Then nothing is left above the height (`endsBelow_cut`). Heights are safe,
so that the height of a cut may be rounded far from them (`cut_congr`).
-/

set_option autoImplicit false

namespace LightSync

namespace Wallet

variable {w : Wallet}

/-- Nothing in the wallet was recorded at a height or above it: no checkpoint, no note, and no
mark of a spend. -/
structure EndsBelow (height : Number) (w : Wallet) : Prop where
  checkpoints : ∀ k, w.checkpoints.contains k = true → ¬ height ≤ .int k
  notes : ∀ n ∈ w.notes, ¬ height ≤ .int n.height
  spends : ∀ n ∈ w.notes, ∀ s, n.spent = some s → ¬ height ≤ .int s.height

/-- Where no checkpoint is, there is nothing. -/
theorem Coherent.endsBelow (h : w.Coherent) {height : Number}
    (hbelow : ∀ k, w.checkpoints.contains k = true → ¬ height ≤ .int k) : w.EndsBelow height where
  checkpoints := hbelow
  notes n hn := hbelow _ (h.heights n hn)
  spends n hn s hs := hbelow _ (WalletNote.spentWithin_iff.1 (h.spends n hn) s hs).1

theorem Coherent.lt_exactLimit (h : w.Coherent) {k : Int} (hk : w.checkpoints.contains k = true) :
    k.natAbs < Number.exactLimit := by
  have := h.safe k hk
  unfold Number.maxSafe Number.exactLimit at *
  omega

/-- Nothing is left above the height of a cut. -/
theorem Coherent.endsBelow_cut (h : w.Coherent) (t : Int) :
    (w.cut (.int t)).EndsBelow (.int t + 1) := by
  refine (h.cut _).endsBelow fun k hk hle => ?_
  obtain ⟨hlt, hk⟩ := contains_cut.1 hk
  rw [Number.int_add_one, Number.ofInt_le_int (h.lt_exactLimit hk)] at hle
  exact hlt (Number.int_lt_int.2 hle)

/-- Two heights cut a wallet in the same way if the same checkpoints lie above them. -/
theorem Coherent.cut_congr (h : w.Coherent) {a b : Number}
    (hab : ∀ k, w.checkpoints.contains k = true → (a < .int k ↔ b < .int k)) :
    w.cut a = w.cut b := by
  have hnotes : ∀ n ∈ w.notes, a < .int n.height ↔ b < .int n.height := fun n hn =>
    hab _ (h.heights n hn)
  have hcheckpoints : (w.cut a).checkpoints = (w.cut b).checkpoints := by
    rw [checkpoints_cut, checkpoints_cut]
    refine Keyed.ext (List.filter_congr fun e he => ?_)
    simp [hab e.1 (Keyed.contains_iff.2 ⟨e.2, he⟩)]
  have hunmark : ∀ n ∈ w.notes.filter fun n => !decide (a < Number.int n.height),
      unmark a n = unmark b n := by
    intro n hn
    obtain ⟨hn, hstays⟩ := List.mem_filter.1 hn
    have ha : ¬ a < .int n.height := by simpa using hstays
    have hb : ¬ b < .int n.height := fun hlt => ha ((hnotes n hn).2 hlt)
    have hspent : isSpentAbove a n = isSpentAbove b n := by
      unfold isSpentAbove
      cases hs : n.spent with
      | none => rfl
      | some s =>
          have hmark := hab _ (WalletNote.spentWithin_iff.1 (h.spends n hn) s hs).1
          by_cases hlt : a < .int s.height
          · simp [hlt, hmark.1 hlt, Number.int_le_of_not_lt hlt ha,
              Number.int_le_of_not_lt (hmark.1 hlt) hb]
          · have hlt' : ¬ b < .int s.height := fun hb => hlt (hmark.2 hb)
            simp [hlt, hlt']
    unfold unmark
    rw [hspent]
  have hkeep : ∀ n ∈ w.notes, (!decide (a < Number.int n.height)) =
      !decide (b < Number.int n.height) := fun n hn => by simp [hnotes n hn]
  have hkept : (w.cut a).notes = (w.cut b).notes := by
    calc (w.cut a).notes
      _ = (w.notes.filter fun n => !decide (a < Number.int n.height)).map (unmark a) :=
          notes_cut a w
      _ = (w.notes.filter fun n => !decide (a < Number.int n.height)).map (unmark b) :=
          List.map_congr_left hunmark
      _ = (w.notes.filter fun n => !decide (b < Number.int n.height)).map (unmark b) := by
          rw [List.filter_congr hkeep]
      _ = (w.cut b).notes := (notes_cut b w).symm
  exact eq_of_tables rfl hcheckpoints hkept

/-- A wallet that ends at a height or below has nothing to be cut away. -/
theorem Coherent.cut_eq_self (h : w.Coherent) {t : Int}
    (hbelow : ∀ k, w.checkpoints.contains k = true → k ≤ t) : w.cut (.int t) = w := by
  refine cut_of_capped (k := t) ⟨?_, ?_, ?_⟩ fun hlt => Int.lt_irrefl t (Number.int_lt_int.1 hlt)
  · exact fun e he => hbelow _ (Keyed.contains_iff.2 ⟨e.2, he⟩)
  · exact fun n hn => hbelow _ (h.heights n hn)
  · exact fun n hn s hs => hbelow _ (WalletNote.spentWithin_iff.1 (h.spends n hn) s hs).1

/-- Taking blocks keeps the tables together. -/
theorem Coherent.takeAll (h : w.Coherent) {reader : NoteReader} {keys : List AccountKey}
    {p q : Scan.Point} {w' : Wallet} {bs : List Block} (hword : ∀ b ∈ bs, b.HasWordHeight)
    (htake : Scan.takeAll reader keys p w bs = .ok (q, w')) : w'.Coherent := by
  induction bs generalizing p w with
  | nil =>
      cases htake
      exact h
  | cons b bs ih =>
      obtain ⟨⟨p1, w1⟩, h1, h2⟩ := Except.bind_eq_ok.1 htake
      obtain ⟨n, hb, hn⟩ := hword b List.mem_cons_self
      obtain ⟨s, hs, hrecord, rfl⟩ := Scan.take_eq_ok.1 h1
      have hk : s.height.toInt? = some (n : Int) := by
        rw [(Scan.identity_of_block (Scan.inspect_eq_ok.1 hs).2).1, hb]
        rfl
      refine ih ((recorded_of_record hk hrecord).coherent h hk (natAbs_le_maxSafe_of_word hn))
        (fun c hc => hword c (List.mem_cons_of_mem _ hc)) h2

end Wallet

namespace WalletStore

variable {s s' : WalletStore} {t : Int} {depth : Number} {stable : Option Number}
  {report : RewindReport}

theorem isInteger_of_rewind_ok {target : Number}
    (h : rewind target depth stable s = .ok report s') : target.isInteger = true := by
  unfold rewind at h
  split at h
  · cases h
  · rename_i hinteger
    simpa using hinteger

/-! ## The three ways of a rewind -/

section

variable {target : Number} {tip : WalletTip}

/-- A wallet without blocks stays as it is. -/
theorem rewind_of_no_tip (hinteger : target.isInteger = true) (hnone : s.content.tip? = none) :
    rewind target depth stable s = .ok ⟨none, none, 0, 0, false⟩ s := by
  unfold rewind
  rw [hinteger]
  exact Action.bind_eq_ok.2 ⟨none, s, Database.query_eq_ok.2 ⟨congrArg _ hnone, rfl⟩, rfl⟩

/-- A wallet whose tip is not above the height stays as it is. -/
theorem rewind_of_le (hinteger : target.isInteger = true) (htip : s.content.tip? = some tip)
    (hle : .int tip.height ≤ target) :
    rewind target depth stable s =
      .ok ⟨some (.int tip.height), some (.int tip.height), 0, 0, false⟩ s := by
  unfold rewind
  rw [hinteger]
  refine Action.bind_eq_ok.2 ⟨some tip, s, Database.query_eq_ok.2 ⟨congrArg _ htip, rfl⟩, ?_⟩
  dsimp only
  rw [if_pos hle]
  rfl

/-- Below the tip it is left to the check of the depth. -/
theorem rewind_of_not_le (hinteger : target.isInteger = true) (htip : s.content.tip? = some tip)
    (hbelow : ¬ .int tip.height ≤ target) :
    rewind target depth stable s = rewindBelow target depth stable tip.height s := by
  have hquery : (Database.query (fun w => .ok w.tip?) : Action WalletStore _) s = .ok (some tip) s :=
    Database.query_eq_ok.2 ⟨congrArg _ htip, rfl⟩
  unfold rewind
  rw [hinteger]
  show (Database.query _ >>= _ : Action WalletStore RewindReport) s = _
  rw [Action.bind_apply, hquery]
  dsimp only
  rw [if_neg hbelow]

/-- Where the check of the depth fails, nothing is done. -/
theorem rewind_of_refused (hinteger : target.isInteger = true) (htip : s.content.tip? = some tip)
    (hbelow : ¬ .int tip.height ≤ target) {e : Failure}
    (hcheck : checkDepth target depth stable tip.height s.content = .error e) :
    rewind target depth stable s = .error e s := by
  rw [rewind_of_not_le hinteger htip hbelow]
  refine Action.bind_eq_error.2 (Or.inl ?_)
  unfold Database.query
  rw [hcheck]

/-- What is told where a wallet is cut below its tip. -/
def cutReport (target : Number) (tip : Int) (w : Wallet) : RewindReport :=
  ⟨some (.int tip), tipHeight (w.cut target), (w.truncation target).notesRemoved,
    (w.truncation target).spendsReversed, true⟩

/-- Where the check of the depth passes, the wallet is cut. -/
theorem rewind_of_allowed (hrest : s.AtRest) (hinteger : target.isInteger = true)
    (htip : s.content.tip? = some tip) (hbelow : ¬ .int tip.height ≤ target)
    (hcheck : checkDepth target depth stable tip.height s.content = .ok ()) :
    ∃ s', rewind target depth stable s = .ok (cutReport target tip.height s.content) s' ∧
      s'.content = s.content.cut target ∧ s'.AtRest ∧ s'.fault = s.fault := by
  obtain ⟨s', htruncate, hcut, hrest', hfault⟩ := truncate_of_atRest target hrest
  refine ⟨s', ?_, hcut, hrest', hfault⟩
  rw [rewind_of_not_le hinteger htip hbelow, cutReport, ← hcut]
  refine Action.bind_eq_ok.2 ⟨(), s, Database.query_eq_ok.2 ⟨hcheck, rfl⟩, ?_⟩
  refine Action.bind_eq_ok.2 ⟨_, s', htruncate, ?_⟩
  exact Action.bind_eq_ok.2 ⟨_, s', Database.query_eq_ok.2 ⟨rfl, rfl⟩, rfl⟩

/-- However a rewind ends, it does nothing, or cuts the wallet. -/
theorem after_rewind (hrest : s.AtRest) (target depth : Number) (stable : Option Number) :
    (rewind target depth stable).after s = s ∨
      ((rewind target depth stable).after s).content = s.content.cut target ∧
        ((rewind target depth stable).after s).AtRest ∧
        ((rewind target depth stable).after s).fault = s.fault := by
  cases hinteger : target.isInteger with
  | false =>
      refine Or.inl (Action.after_of_error (e := .refused .rewindHeight (some target)) ?_)
      unfold rewind
      rw [hinteger]
      rfl
  | true =>
      cases htip : s.content.tip? with
      | none => exact Or.inl (Action.after_of_ok (rewind_of_no_tip hinteger htip))
      | some tip =>
          by_cases hle : .int tip.height ≤ target
          · exact Or.inl (Action.after_of_ok (rewind_of_le hinteger htip hle))
          · cases hcheck : checkDepth target depth stable tip.height s.content with
            | error e =>
                exact Or.inl (Action.after_of_error (rewind_of_refused hinteger htip hle hcheck))
            | ok u =>
                obtain ⟨s', hs', hcut, hrest', hfault⟩ :=
                  rewind_of_allowed hrest hinteger htip hle hcheck
                rw [Action.after_of_ok hs']
                exact Or.inr ⟨hcut, hrest', hfault⟩

end

/-- A rewind to the tip or above it does nothing. -/
theorem eq_of_rewind_ok {target : Number} {tip : WalletTip} (htip : s.content.tip? = some tip)
    (hle : .int tip.height ≤ target) (h : rewind target depth stable s = .ok report s') : s' = s := by
  rw [rewind_of_le (isInteger_of_rewind_ok h) htip hle] at h
  cases h
  rfl

/-- Only a deep rewind is refused. -/
theorem isDeep_of_checkDepth_error {target : Number} {tip : Int} {w : Wallet} {e : Failure}
    (h : checkDepth target depth stable tip w = .error e) : isDeep target depth tip = true := by
  unfold checkDepth at h
  split at h
  · assumption
  · cases h

theorem checkDepth_of_not_isDeep {target : Number} {tip : Int} {w : Wallet}
    (h : isDeep target depth tip = false) : checkDepth target depth stable tip w = .ok () := by
  unfold checkDepth
  rw [h]
  rfl

/-- **A rewind that succeeds leaves the wallet cut at the height**, even if it did nothing. -/
theorem content_of_rewind_ok (hs : Settled s) (h : rewind (.int t) depth stable s = .ok report s') :
    s'.content = s.content.cut (.int t) := by
  have hinteger := isInteger_of_rewind_ok h
  cases htip : s.content.tip? with
  | none =>
      rw [rewind_of_no_tip hinteger htip] at h
      cases h
      exact (hs.coherent.cut_eq_self fun k hk =>
        absurd hk (Wallet.not_contains_of_tip?_eq_none htip k)).symm
  | some tip =>
      by_cases hle : Number.int tip.height ≤ .int t
      · rw [eq_of_rewind_ok htip hle h]
        exact (hs.coherent.cut_eq_self fun k hk =>
          Int.le_trans (Wallet.le_of_tip? htip hk) (Number.int_le_int.1 hle)).symm
      · cases hcheck : checkDepth (.int t) depth stable tip.height s.content with
        | error e =>
            rw [rewind_of_refused hinteger htip hle hcheck] at h
            cases h
        | ok u =>
            obtain ⟨s1, hs1, hcontent, -⟩ := rewind_of_allowed hs.rest hinteger htip hle hcheck
            cases hs1.symm.trans h
            exact hcontent

end WalletStore

end LightSync
