import LightSync.Proofs.Chain.Runs
import LightSync.Proofs.Sync.Recovery

/-!
# Synchronizing what was validated

A cache that passes the validation is not found to be forked by the synchronization that comes
after it, if the scan goes through nothing but what the validation has gone through. Above a tip it
does. A wallet without blocks is scanned from the activation height on, but validated from the
lowest block of the cache on, and the validation ends where a height is missing. So the cache has to
be filled up to the block with which the scan begins (`not_reorganized_of_validate`).
-/

set_option autoImplicit false

namespace LightSync

open Agreement (verdict verdict_eq_check verdict_of_validate_ok check_of_filled)
open Cache (walkOf)
open Scan (Onlooker Point takeAll startOf pending checkNext)

/-- A scan of the wallet begins with the block at this height, if there is one. -/
def Scan.BeginsAt (activation : Number) (w : Wallet) (n : Int) : Prop :=
  (Number.int n).same ((startOf activation w).height + 1) = true

/-- A wallet without blocks is scanned from the activation height on. -/
theorem Scan.beginsAt_iff {activation : Number} {w : Wallet} (hempty : w.tip? = none) {n a : Int}
    (ha : activation.toInt? = some a) (hsmall : a.natAbs + 1 ≤ Number.exactLimit) :
    BeginsAt activation w n ↔ n = a := by
  have hfirst : (startOf activation w).height + 1 = .int a := by
    unfold startOf
    rw [hempty]
    show activation - 1 + 1 = _
    rw [Agreement.sub_one_of_toInt? ha hsmall, Number.int_add_one, Int.sub_add_cancel]
    exact Number.ofInt_of_le (by omega)
  unfold BeginsAt
  rw [hfirst, Number.int_same_int]

namespace Synchronizer

variable {τ : Type} {s : Synchronizer} {hooks : ScanHooks τ} {st st' : SyncState τ}

section

variable {done rest : List Block} {b : Block} {q : Point} {w : Wallet} {lower : Number}
  (hpending : pending (s.scanSetup hooks) st = done ++ b :: rest)
  (htake : takeAll s.reader st.wallet.content.accountKeys
    (startOf s.policy.activation st.wallet.content) st.wallet.content done = .ok (q, w))
  (hnext : checkNext q b = .error (.brokenChain (.parentMismatch lower)))
include hpending htake hnext

/-- The first block that a scan comes to stands where the scan begins. -/
theorem same_of_pending {c : Block} (hc : (done ++ b :: rest).head? = some c) :
    c.height.same ((startOf s.policy.activation st.wallet.content).height + 1) = true := by
  cases done with
  | nil =>
      cases hc
      cases htake
      rcases Scan.of_checkNext_error hnext rfl with ⟨hsame, -⟩ | ⟨-, hgap⟩
      · exact hsame
      · cases hgap
  | cons d done =>
      cases hc
      obtain ⟨⟨p1, w1⟩, h1, -⟩ := Except.bind_eq_ok.1 htake
      obtain ⟨scanned, hinspect, -, -⟩ := Scan.take_eq_ok.1 h1
      exact (Scan.checkNext_eq_ok.1 (Scan.inspect_eq_ok.1 hinspect).1).1

/-- Where the check has passed a cache that is filled up to the first block of a scan, the scan of
a wallet without blocks finds no fork. -/
theorem false_of_filled (hempty : st.wallet.content.tip? = none)
    (hfilled : ∀ n, Scan.BeginsAt s.policy.activation st.wallet.content n →
      st.cache.FilledUpTo n) {report : LinkReport}
    (hcheck : verdict st.wallet.content st.cache = .ok report) : False := by
  let start := startOf s.policy.activation st.wallet.content
  obtain ⟨c, bs, hbs⟩ : ∃ c bs, done ++ b :: rest = c :: bs := by
    cases done with
    | nil => exact ⟨b, rest, rfl⟩
    | cons d done => exact ⟨d, done ++ b :: rest, rfl⟩
  have hsame := same_of_pending hpending htake hnext (congrArg List.head? hbs)
  -- the scan begins with a row of the cache, to which the validation comes as well
  obtain ⟨n, high, more, hrows, hhigh⟩ : ∃ n high more,
      st.cache.readingsAbove start.height = (n, .ok c) :: high ∧
        (walkOf high).items = bs ++ more :=
    Cache.readings_of_items_cons (hpending.trans hbs)
  have hrow : (n, Except.ok c) ∈ st.cache.readings :=
    (List.mem_filter.1 (hrows ▸ List.mem_cons_self : _ ∈ st.cache.readingsAbove start.height)).1
  have hbegins : Scan.BeginsAt s.policy.activation st.wallet.content n := by
    unfold Scan.BeginsAt
    rw [← (Cache.height_of_reading hrow).1]
    exact hsame
  have hchain : st.wallet.content.chainTip? = none := by
    unfold Wallet.chainTip?
    rw [hempty]
    rfl
  rw [verdict_eq_check, hchain, Option.map_none, Option.getD_none] at hcheck
  obtain ⟨e, reached, hfits, hpass⟩ := check_of_filled (hfilled n hbegins) hrows hcheck
  have hfollow : Links.follow (walkOf ((n, .ok c) :: high)).stop e reached
      (done ++ b :: (rest ++ more)) = .ok report := by
    have hsplit : done ++ b :: (rest ++ more) = c :: (walkOf high).items := by
      rw [hhigh, ← List.cons_append, ← List.append_assoc, hbs, List.cons_append]
    rw [hsplit]
    exact hpass
  refine Scan.checkNext_of_follow (p := start) ?_ ?_ hfollow htake lower hnext
  · intro hash hhash
    rw [show start.hash = none by unfold start startOf; rw [hempty]] at hhash
    cases hhash
  · intro d hd _
    rw [← List.cons_append, ← List.append_assoc, hbs] at hd
    cases hd
    exact hfits

end

/-- **What was validated is not found to be forked.** If the check returns, a synchronization of the
same state reports no fork, whatever the limit of its scan, as long as no height is missing from the
cache below the block with which a scan of a wallet without blocks begins. -/
theorem not_reorganized_of_validate (hquiet : s.reader.Quiet) (honlooker : Onlooker hooks)
    (hfilled : st.wallet.content.tip? = none →
      ∀ n, Scan.BeginsAt s.policy.activation st.wallet.content n → st.cache.FilledUpTo n)
    {report : LinkReport} {st1 : SyncState τ} (hvalidate : validate st = .ok report st1)
    (lower refetch : Number) (rewound : RewindReport) (st' : SyncState τ) :
    s.sync hooks st ≠ .ok (.reorganized lower refetch rewound) st' := by
  intro h
  have hverdict := verdict_of_validate_ok hvalidate
  obtain ⟨st2, hattempt, -, -, -⟩ := of_sync_eq_reorganized h
  obtain ⟨hobstacle, -⟩ := obstacle_of_checkAndScan hquiet honlooker hattempt rfl
  generalize st2.wallet = store at hobstacle
  cases hobstacle with
  | link b hb hcheck =>
      -- the check does not come to two results
      cases hverdict.symm.trans hcheck
  | next report' done b rest q hcheck hpending htake hnext =>
      cases ht : (working st).wallet.content.tip? with
      | some t => exact checkNext_of_verdict ht hcheck hpending htake lower hnext
      | none => exact false_of_filled hpending htake hnext ht (hfilled ht) hverdict

/-- A wallet without blocks, and a cache that begins below the activation height 50. -/
def preceded : SyncState Unit :=
  let blocks := [linkedBlock 48 1 0 [], linkedBlock 49 2 1 [], linkedBlock 50 3 2 [],
    linkedBlock 51 4 3 [], linkedBlock 53 6 5 []]
  SyncState.idle (Cache.inMemory (Keyed.empty.insertAll (blocks.map rowOf)))
    (Wallet.unscanned Keyed.empty)

/-- The validation goes through four blocks, and the scan through the last two of them. -/
theorem not_reorganized_of_validate_preceded :
    let s := fromFifty (.ofList [])
    s.reader.Quiet ∧ Onlooker (ScanHooks.none : ScanHooks Unit) ∧
    (preceded.wallet.content.tip? = none ∧
      ∀ n, Scan.BeginsAt s.policy.activation preceded.wallet.content n →
        preceded.cache.FilledUpTo n) ∧
    (∃ st1, validate preceded = .ok ⟨4, some 51⟩ st1) ∧
    ∀ lower refetch rewound st', s.sync ScanHooks.none preceded ≠
      .ok (.reorganized lower refetch rewound) st' := by
  intro s
  have hquiet : s.reader.Quiet := NoteReader.quiet_ofList []
  have hempty : preceded.wallet.content.tip? = none := rfl
  have hfilled : ∀ n, Scan.BeginsAt s.policy.activation preceded.wallet.content n →
      preceded.cache.FilledUpTo n := by
    intro n hn
    obtain rfl : n = 50 := (Scan.beginsAt_iff (a := 50) hempty rfl (by decide)).1 hn
    have hheights : preceded.cache.heights = [48, 49, 50, 51, 53] := by decide +kernel
    intro k hk _ j hkj hj
    rw [hheights] at hk ⊢
    simp only [List.mem_cons, List.not_mem_nil, or_false] at hk ⊢
    omega
  have hvalue : (validate : Action (SyncState Unit) LinkReport).value? preceded =
      some ⟨4, some 51⟩ := by decide +kernel
  obtain ⟨st1, hvalidate⟩ := Action.value?_eq_some.1 hvalue
  exact ⟨hquiet, Scan.onlooker_none, ⟨hempty, hfilled⟩, ⟨st1, hvalidate⟩,
    not_reorganized_of_validate hquiet Scan.onlooker_none (fun _ => hfilled) hvalidate⟩

/-- A wallet without blocks, and a cache that forks above the activation height 50. The validation
ends at a gap below it. -/
def forkedAbove : SyncState Unit :=
  let blocks := [linkedBlock 48 1 0 [], linkedBlock 50 3 2 [], linkedBlock 51 5 4 []]
  SyncState.idle (Cache.inMemory (Keyed.empty.insertAll (blocks.map rowOf)))
    (Wallet.unscanned Keyed.empty)

/-- Not every cache that passes the validation passes the synchronization. -/
theorem reorganized_of_validate : ¬ ∀ (s : Synchronizer) (hooks : ScanHooks Unit)
    (st st1 : SyncState Unit) (report : LinkReport), validate st = .ok report st1 →
    ∀ lower refetch rewound st', s.sync hooks st ≠ .ok (.reorganized lower refetch rewound) st' := by
  intro hall
  have hvalue : (validate : Action (SyncState Unit) LinkReport).value? forkedAbove =
      some ⟨1, some 48⟩ := by decide +kernel
  obtain ⟨st1, hvalidate⟩ := Action.value?_eq_some.1 hvalue
  have houtcome : ((fromFifty (.ofList [])).sync ScanHooks.none).value? forkedAbove =
      some (.reorganized 51 50 ⟨some 50, none, 0, 0, true⟩) := by decide +kernel
  obtain ⟨st', hsync⟩ := Action.value?_eq_some.1 houtcome
  exact hall _ _ _ _ _ hvalidate _ _ _ _ hsync

end Synchronizer
end LightSync
