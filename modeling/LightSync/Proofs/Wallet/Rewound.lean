import LightSync.Proofs.Wallet.Rewinding

/-!
# What a rewind comes to

A rewind to an integer finds nothing to do, is refused, or takes the wallet back; which of these,
and what is told and left, is `RewindOutcome`, whose three cases exclude each other
(`rewind_of_reachable`). The heights of the checkpoints are an interval, so that a wallet that is
taken back to a height from the lowest one on ends exactly there (`tipHeight_cut`).
-/

set_option autoImplicit false

namespace LightSync

/-! ## What is left -/

/-- A note without the mark of a spend above a height. -/
def WalletNote.spentUpTo (t : Int) (n : WalletNote) : WalletNote :=
  { n with spent := n.spent.filter fun s => decide (s.height ≤ t) }

namespace Wallet

/-- The height of the lowest checkpoint. -/
def lowest? (w : Wallet) : Option Int := w.checkpoints.entries.head?.map (·.1)

/-- The notes received above a height. -/
def notesAbove (t : Int) (w : Wallet) : List WalletNote :=
  w.notes.filter fun n => decide (t < n.height)

/-- The notes received up to a height that were spent above it. -/
def spentAcross (t : Int) (w : Wallet) : List WalletNote :=
  w.notes.filter fun n => decide (n.height ≤ t) && n.spent.any fun s => decide (t < s.height)

/-- What is left of a wallet that is taken back to a height: the accounts, the checkpoints and the
notes up to it, these without the marks of spends above it. -/
structure RewoundTo (t : Int) (w w' : Wallet) : Prop where
  capped : w'.Capped t
  accounts : w'.accounts = w.accounts
  checkpoints : ∀ k, w'.checkpoints.find? k = if k ≤ t then w.checkpoints.find? k else none
  notes : w'.notes = (w.notes.filter fun n => decide (n.height ≤ t)).map (WalletNote.spentUpTo t)

section

variable {w : Wallet} {target : Number} {t : Int}

theorem isSpentAbove_of_toInt? (ht : target.toInt? = some t) (n : WalletNote) :
    isSpentAbove target n =
      (decide (n.height ≤ t) && n.spent.any fun s => decide (t < s.height)) := by
  unfold isSpentAbove
  cases n.spent with
  | none => simp
  | some s =>
      simp [Number.lt_int_of_toInt? ht, Number.int_le_of_toInt? ht, Bool.and_comm]

theorem unmark_of_toInt? (ht : target.toInt? = some t) {n : WalletNote} (hn : n.height ≤ t) :
    unmark target n = n.spentUpTo t := by
  unfold unmark WalletNote.spentUpTo
  rw [isSpentAbove_of_toInt? ht]
  cases hs : n.spent with
  | none => simp [unmark_of_unspent hs]
  | some s =>
      rw [Option.filter_some]
      by_cases habove : t < s.height
      · simp [hn, habove, Int.not_le.2 habove]
      · have hstays : ({ n with spent := some s } : WalletNote) = n := by rw [← hs]
        simp [habove, Int.not_lt.1 habove, hstays]

/-- Cutting a wallet at an integer takes it back to it. -/
theorem Coherent.rewoundTo_cut (h : w.Coherent) (ht : target.toInt? = some t) :
    RewoundTo t w (w.cut target) := by
  have hcut := h.cut target
  have hle : ∀ k, (w.cut target).checkpoints.contains k = true → k ≤ t := by
    intro k hk
    have habove := (contains_cut.1 hk).1
    rw [Number.lt_int_of_toInt? ht] at habove
    omega
  constructor
  case capped =>
    exact ⟨fun e he => hle _ (Keyed.contains_iff.2 ⟨e.2, he⟩), fun n hn => hle _ (hcut.heights n hn),
      fun n hn s hs => hle _ (WalletNote.spentWithin_iff.1 (hcut.spends n hn) s hs).1⟩
  case accounts => rfl
  case checkpoints =>
    intro k
    rw [checkpoints_cut, Keyed.find?_filter]
    by_cases hk : k ≤ t
    · simp [hk, Number.lt_int_of_toInt? ht]
    · simp [hk, Number.lt_int_of_toInt? ht, Int.not_le.1 hk]
  case notes =>
    have hkeep : ∀ n : WalletNote,
        (!decide (target < Number.int n.height)) = decide (n.height ≤ t) := by
      intro n
      rw [← decide_not, decide_eq_decide, Number.lt_int_of_toInt? ht, Int.not_lt]
    rw [notes_cut, List.filter_congr fun n _ => hkeep n]
    exact List.map_congr_left fun n hn =>
      unmark_of_toInt? ht (of_decide_eq_true (List.mem_filter.1 hn).2)

theorem truncation_of_toInt? (ht : target.toInt? = some t) (w : Wallet) :
    w.truncation target = ⟨(w.notesAbove t).length, (w.spentAcross t).length⟩ := by
  have hremoved : (dropNotes target (reverseSpends target w).1).2 = (w.notesAbove t).length := by
    show ((w.notes.map (unmark target)).filter _).length = _
    rw [List.filter_map, List.length_map, notesAbove]
    congr 2
    funext n
    simp [Number.lt_int_of_toInt? ht]
  have hreversed : (reverseSpends target w).2 = (w.spentAcross t).length := by
    show (w.notes.filter (isSpentAbove target)).length = _
    rw [spentAcross, funext (isSpentAbove_of_toInt? ht)]
  rw [truncation, hremoved, hreversed]

theorem contains_of_lowest? {low : Int} (h : w.lowest? = some low) :
    w.checkpoints.contains low = true := by
  obtain ⟨e, he, rfl⟩ := Option.map_eq_some_iff.1 h
  exact Keyed.contains_iff.2 ⟨e.2, List.mem_of_mem_head? he⟩

theorem lowest?_le {low k : Int} (h : w.lowest? = some low)
    (hk : w.checkpoints.contains k = true) : low ≤ k := by
  obtain ⟨row, hrow⟩ := Keyed.contains_iff.1 hk
  obtain ⟨e, he, rfl⟩ := Option.map_eq_some_iff.1 h
  obtain ⟨rest, hentries⟩ := List.head?_eq_some_iff.1 he
  have hsorted := w.checkpoints.sorted
  rw [hentries] at hrow hsorted
  rcases List.mem_cons.1 hrow with rfl | hrow
  · exact Int.le_refl k
  · exact Int.le_of_lt ((List.pairwise_cons.1 hsorted).1 _ hrow)

end
end Wallet

namespace WalletStore

open Wallet (RewoundTo)

variable {w : Wallet} {s : WalletStore} {target depth : Number} {stable : Option Number} {t : Int}

/-- Of an interval of checkpoints that ends above a height, the height is the new end, unless they
all lie above it. -/
theorem tipHeight_cut (hw : w.Coherent) (ht : target.toInt? = some t) {tip : WalletTip}
    (htip : w.tip? = some tip) (hbelow : t < tip.height) :
    tipHeight (w.cut target) = (w.lowest?.filter fun low => decide (low ≤ t)).map fun _ => .int t := by
  have hcontains {k : Int} : (w.cut target).checkpoints.contains k = true ↔
      k ≤ t ∧ w.checkpoints.contains k = true := by
    rw [Wallet.contains_cut, Number.lt_int_of_toInt? ht, Int.not_lt]
  have hlow : ∃ low, w.lowest? = some low := by
    obtain ⟨e, he, -⟩ := Option.map_eq_some_iff.1 htip
    have hmem := List.mem_of_getLast? he
    cases hentries : w.checkpoints.entries with
    | nil =>
        rw [hentries] at hmem
        cases hmem
    | cons first rest => exact ⟨first.1, by rw [Wallet.lowest?, hentries]; rfl⟩
  obtain ⟨low, hlow⟩ := hlow
  rw [hlow]
  by_cases hle : low ≤ t
  · -- the height lies in the interval
    have hin : (w.cut target).checkpoints.contains t = true :=
      hcontains.2 ⟨Int.le_refl t, hw.gapless low t tip.height (Wallet.contains_of_lowest? hlow)
        (Wallet.contains_of_tip? htip) hle (Int.le_of_lt hbelow)⟩
    cases hnew : (w.cut target).tip? with
    | none => exact absurd hin (Wallet.not_contains_of_tip?_eq_none hnew t)
    | some new =>
        have hsame : new.height = t := Int.le_antisymm
          (hcontains.1 (Wallet.contains_of_tip? hnew)).1 (Wallet.le_of_tip? hnew hin)
        simp [tipHeight, hnew, hsame, hle, Option.filter_some]
  · cases hnew : (w.cut target).tip? with
    | none => simp [tipHeight, hnew, hle, Option.filter_some]
    | some new =>
        obtain ⟨hnew, hold⟩ := hcontains.1 (Wallet.contains_of_tip? hnew)
        exact absurd (Int.le_trans (Wallet.lowest?_le hlow hold) hnew) hle

/-! ## The safe height -/

/-- The height that a deep rewind has to reach: the stable checkpoint if there is one, and else the
lowest height of an unspent note. -/
def IsSafeHeight (stable : Option Number) (w : Wallet) (safe : Number) : Prop :=
  match stable with
  | some height => safe = height
  | none => ∃ n ∈ w.notes, n.spent = none ∧ safe = .int n.height ∧
      ∀ m ∈ w.notes, m.spent = none → n.height ≤ m.height

theorem safeHeight_eq_some {safe : Number} :
    safeHeight stable w = some safe ↔ IsSafeHeight stable w safe := by
  cases stable with
  | some height => exact Option.some_inj.trans eq_comm
  | none =>
      have hunspent {k : Int} : k ∈ (w.notes.filter Wallet.isUnspent).map (·.height) ↔
          ∃ n ∈ w.notes, n.spent = none ∧ n.height = k := by
        simp [Wallet.isUnspent, and_assoc]
      show w.lowestUnspent?.map Number.int = some safe ↔ ∃ n ∈ w.notes, _
      rw [Option.map_eq_some_iff]
      constructor
      · rintro ⟨k, hk, rfl⟩
        obtain ⟨hmem, hleast⟩ := List.min?_eq_some_iff.1 hk
        obtain ⟨n, hn, hspent, rfl⟩ := hunspent.1 hmem
        exact ⟨n, hn, hspent, rfl, fun m hm hm' => hleast _ (hunspent.2 ⟨m, hm, hm', rfl⟩)⟩
      · rintro ⟨n, hn, hspent, rfl, hleast⟩
        refine ⟨n.height, List.min?_eq_some_iff.2 ⟨hunspent.2 ⟨n, hn, hspent, rfl⟩, ?_⟩, rfl⟩
        intro k hk
        obtain ⟨m, hm, hm', rfl⟩ := hunspent.1 hk
        exact hleast m hm hm'

/-- Whether a rewind goes deeper than is always allowed and stops above a safe height. -/
def StopsAbove (target depth safe : Number) (tip : Int) : Prop :=
  target < .int tip - depth ∧ safe < target

/-- A rewind is refused where it goes deep and stops above the safe height. -/
theorem checkDepth_cases (target depth : Number) (stable : Option Number) (tip : Int) (w : Wallet) :
    (∃ safe, IsSafeHeight stable w safe ∧ StopsAbove target depth safe tip ∧
        checkDepth target depth stable tip w = .error (.rewindRefused safe target depth)) ∨
      (∀ safe, IsSafeHeight stable w safe → ¬ StopsAbove target depth safe tip) ∧
        checkDepth target depth stable tip w = .ok () := by
  unfold checkDepth
  by_cases hdeep : isDeep target depth tip = true
  · rw [if_pos hdeep]
    cases hsafe : safeHeight stable w with
    | none =>
        refine Or.inr ⟨fun safe h => ?_, rfl⟩
        rw [safeHeight_eq_some.2 h] at hsafe
        cases hsafe
    | some safe =>
        dsimp only
        by_cases habove : safe < target
        · rw [if_pos habove]
          exact Or.inl ⟨safe, safeHeight_eq_some.1 hsafe, ⟨of_decide_eq_true hdeep, habove⟩, rfl⟩
        · rw [if_neg habove]
          refine Or.inr ⟨fun safe' h hstops => habove ?_, rfl⟩
          rw [safeHeight_eq_some.2 h] at hsafe
          rw [← Option.some.inj hsafe]
          exact hstops.2
  · rw [if_neg hdeep]
    exact Or.inr ⟨fun safe _ hstops => hdeep (decide_eq_true hstops.1), rfl⟩

/-! ## Outcomes -/

/-- What a rewind to an integer comes to. Nothing is done where the tip is not above it; a rewind
that stops above the safe height although it goes deep is refused; and any other takes the wallet
back. -/
inductive RewindOutcome (target : Number) (t : Int) (depth : Number) (stable : Option Number)
    (s : WalletStore) : EStateM.Result Failure WalletStore RewindReport → Prop
  | idle (hreached : ∀ tip, s.content.tip? = some tip → tip.height ≤ t) :
      RewindOutcome target t depth stable s
        (.ok ⟨tipHeight s.content, tipHeight s.content, 0, 0, false⟩ s)
  | refused (tip : WalletTip) (safe : Number) (htip : s.content.tip? = some tip)
      (hbelow : t < tip.height) (hsafe : IsSafeHeight stable s.content safe)
      (hstops : StopsAbove target depth safe tip.height) :
      RewindOutcome target t depth stable s (.error (.rewindRefused safe target depth) s)
  | rewound (tip : WalletTip) (s' : WalletStore) (htip : s.content.tip? = some tip)
      (hbelow : t < tip.height)
      (hallowed : ∀ safe, IsSafeHeight stable s.content safe →
        ¬ StopsAbove target depth safe tip.height)
      (hcontent : RewoundTo t s.content s'.content) :
      RewindOutcome target t depth stable s
        (.ok
          { previous := some (.int tip.height)
            height := (s.content.lowest?.filter fun low => decide (low ≤ t)).map fun _ => .int t
            notesRemoved := (s.content.notesAbove t).length
            spendsReversed := (s.content.spentAcross t).length
            rewound := true } s')

/-- A rewind of a coherent wallet comes to one of its outcomes. -/
theorem rewind_of_settled (hs : Settled s) (ht : target.toInt? = some t) (depth : Number)
    (stable : Option Number) :
    RewindOutcome target t depth stable s (rewind target depth stable s) := by
  have hinteger : target.isInteger = true := by rw [Number.isInteger, ht]; rfl
  cases htip : s.content.tip? with
  | none =>
      rw [rewind_of_no_tip hinteger htip]
      have hnone : tipHeight s.content = none := by rw [tipHeight, htip]; rfl
      have hidle : RewindOutcome target t depth stable s _ :=
        .idle fun tip h => by rw [htip] at h; cases h
      rwa [hnone] at hidle
  | some tip =>
      by_cases hreached : tip.height ≤ t
      · rw [rewind_of_le hinteger htip ((Number.int_le_of_toInt? ht _).2 hreached)]
        have hsome : tipHeight s.content = some (.int tip.height) := by rw [tipHeight, htip]; rfl
        have hidle : RewindOutcome target t depth stable s _ :=
          .idle fun tip' h => by rw [htip] at h; cases h; exact hreached
        rwa [hsome] at hidle
      · have hbelow : t < tip.height := Int.not_le.1 hreached
        have hlow : ¬ Number.int tip.height ≤ target := by
          rwa [Number.int_le_of_toInt? ht]
        rcases checkDepth_cases target depth stable tip.height s.content with
          ⟨safe, hsafe, hstops, hcheck⟩ | ⟨hallowed, hcheck⟩
        · rw [rewind_of_refused hinteger htip hlow hcheck]
          exact .refused tip safe htip hbelow hsafe hstops
        · obtain ⟨s', hrewind, hcontent, -⟩ := rewind_of_allowed hs.rest hinteger htip hlow hcheck
          have hcut := hs.coherent.rewoundTo_cut ht
          rw [← hcontent] at hcut
          rw [hrewind, cutReport, Wallet.truncation_of_toInt? ht, tipHeight_cut hs.coherent ht htip hbelow]
          exact .rewound tip s' htip hbelow hallowed hcut

/-- **A rewind comes to exactly one thing.** In every wallet that can be reached and for every
integer it does nothing, is refused, or takes the wallet back, as `RewindOutcome` says; and among
numbers that are not too great, going deep means what it does for integers. -/
theorem rewind_of_reachable (hs : Reachable s) (ht : target.toInt? = some t) (depth : Number)
    (stable : Option Number) :
    RewindOutcome target t depth stable s (rewind target depth stable s) ∧
      ∀ d tip, depth.toInt? = some d → s.content.tip? = some tip →
        (tip.height - d).natAbs ≤ Number.exactLimit →
        (target < .int tip.height - depth ↔ t < tip.height - d) := by
  refine ⟨rewind_of_settled (settled_of_reachable hs) ht depth stable, fun d tip hd _ hexact => ?_⟩
  rw [Number.int_sub_of_toInt? hd, Number.ofInt_of_le hexact, Number.lt_int_of_toInt? ht]

/-! ### A spend that is taken back -/

/-- The spend of the first note and the second note lie above the height. -/
theorem rewind_of_reachable_reorganized :
    Reachable reorganized ∧ Number.toInt? 1 = some 1 ∧
      ∃ s', rewind 1 100 none reorganized = .ok ⟨some 2, some 1, 1, 1, true⟩ s' ∧
        RewoundTo 1 reorganized.content s'.content := by
  refine ⟨reachable_reorganized, rfl, ?_⟩
  have hvalue : Action.value? (rewind 1 100 none) reorganized = some ⟨some 2, some 1, 1, 1, true⟩ := by
    decide +kernel
  obtain ⟨s', hs'⟩ := Action.value?_eq_some.1 hvalue
  refine ⟨s', hs', ?_⟩
  have hinteger : Number.toInt? 1 = some 1 := rfl
  have houtcome := (rewind_of_reachable reachable_reorganized hinteger 100 none).1
  generalize hresult : rewind 1 100 none reorganized = result at houtcome
  rw [hs'] at hresult
  cases houtcome with
  | idle => cases hresult
  | refused => cases hresult
  | rewound tip s'' htip hbelow hallowed hcontent =>
      obtain ⟨-, rfl⟩ := EStateM.Result.ok.inj hresult
      exact hcontent

end WalletStore
end LightSync
