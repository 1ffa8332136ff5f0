import LightSync.Proofs.Cache.Stored
import LightSync.Proofs.Chain.Agreement
import Mathlib.Data.List.Chain

/-!
# Runs of heights

A cache is filled up to a height if it holds all heights from any of its own up to that one
(`Cache.FilledUpTo`). Then the rows below a row there are a run (`isChain_of_filled`), and a
validation that passes goes through them and comes to that row (`check_of_filled`).
-/

set_option autoImplicit false

namespace LightSync

open Cache (Reading walkOf)

/-- No height is missing from the cache between one that it holds and a given one. There are no
blocks below zero. -/
def Cache.FilledUpTo (n : Int) (c : Cache) : Prop :=
  ∀ k ∈ c.heights, 0 ≤ k → ∀ j, k ≤ j → j < n → j ∈ c.heights

/-- Heights in order are a run up to `n` if none is missing between one of them and `n`. -/
theorem isChain_of_filled {l : List Int} {n : Int} (hsorted : (l ++ [n]).Pairwise (· < ·))
    (hfilled : ∀ k ∈ l, ∀ j, k ≤ j → j < n → j ∈ l) :
    (l ++ [n]).IsChain fun a b => b = a + 1 := by
  induction l with
  | nil => exact List.isChain_singleton n
  | cons a l ih =>
      obtain ⟨hfirst, hrest⟩ := List.pairwise_cons.1 hsorted
      refine List.isChain_cons.2 ⟨fun b hb => ?_, ih hrest fun k hk j hkj hjn => ?_⟩
      · -- the height after the first is there, and nothing lies between
        have hab : a < b := hfirst b (List.mem_of_mem_head? hb)
        have hnext : a + 1 ∈ l ++ [n] := by
          have han : a < n := hfirst n (by simp)
          by_cases hn : a + 1 = n
          · simp [hn]
          · have hmem := hfilled a List.mem_cons_self (a + 1) (by omega) (by omega)
            rcases List.mem_cons.1 hmem with hsame | hmem
            · omega
            · exact List.mem_append_left _ hmem
        have := Cache.le_of_head?_of_sorted hrest hb hnext
        omega
      · have hak : a < k := hfirst k (List.mem_append_left _ hk)
        rcases List.mem_cons.1 (hfilled k (List.mem_cons_of_mem _ hk) j hkj hjn) with rfl | hj
        · omega
        · exact hj

/-- A row below another one is among those before it. -/
theorem mem_low_of_lt {low rest : List Reading} {r y : Reading}
    (hsorted : (low ++ r :: rest).Pairwise fun r r' => r.1 < r'.1) (hy : y ∈ low ++ r :: rest)
    (hlt : y.1 < r.1) : y ∈ low := by
  rcases List.mem_append.1 hy with hlow | hhigh
  · exact hlow
  · have hle : r.1 ≤ y.1 := by
      rcases List.mem_cons.1 hhigh with rfl | hrest
      · exact Int.le_refl _
      · have hright := (List.pairwise_append.1 hsorted).2.1
        exact Int.le_of_lt ((List.pairwise_cons.1 hright).1 y hrest)
    omega

/-- In a cache that is filled up to a row the rows below it are a run. -/
theorem Cache.FilledUpTo.isChain {c : Cache} {r : Reading} (h : c.FilledUpTo r.1)
    {low rest : List Reading} (hrows : c.readingsAbove Keyed.beforeAll = low ++ r :: rest) :
    (low ++ [r]).IsChain fun r r' : Reading => r'.1 = r.1 + 1 := by
  have hsorted : (low ++ r :: rest).Pairwise fun r r' => r.1 < r'.1 := by
    rw [← hrows]
    exact c.sorted_readings.filter _
  have hprefix : (low ++ [r]).Sublist (low ++ r :: rest) :=
    (List.Sublist.refl low).append (List.singleton_sublist.2 List.mem_cons_self)
  have hchain : ((low.map (·.1)) ++ [r.1]).IsChain fun a b => b = a + 1 := by
    refine isChain_of_filled ?_ fun k hk j hkj hjn => ?_
    · have := List.pairwise_map.2 (hsorted.sublist hprefix)
      simpa using this
    · obtain ⟨x, hx, rfl⟩ := List.mem_map.1 hk
      have hx' : x ∈ c.readingsAbove Keyed.beforeAll := hrows ▸ List.mem_append_left _ hx
      obtain ⟨hmem, habove⟩ := List.mem_filter.1 hx'
      have h0 : 0 ≤ x.1 := by
        have : Number.int (-1) < .int x.1 := of_decide_eq_true habove
        rw [Number.int_lt_int] at this
        omega
      obtain ⟨y, hy, rfl⟩ := List.mem_map.1 (h x.1 (List.mem_map_of_mem hmem) h0 j hkj hjn)
      have hy' : y ∈ low ++ r :: rest := by
        rw [← hrows]
        exact List.mem_filter.2
          ⟨hy, decide_eq_true (Number.int_lt_int.2 (show (-1 : Int) < y.1 by omega))⟩
      exact List.mem_map_of_mem (mem_low_of_lt hsorted hy' hjn)
  have hmap : (low ++ [r]).map (·.1) = low.map (·.1) ++ [r.1] := by simp
  rw [← hmap] at hchain
  exact (List.isChain_map _).1 hchain

namespace Agreement

/-- Behind a block the validation expects the one above it. -/
theorem fits_next {e next : Links.Expectation} {c d : Block} {j : Int}
    (hcheck : Links.checkBlock e c = .ok next) (hc : c.height = .int j)
    (hj : j.natAbs + 1 < Number.exactLimit) (hd : d.height = .int (j + 1)) :
    Links.fits next d = true := by
  have hnext : next.height = some (c.height + 1) := by
    rw [checkBlock_eq] at hcheck
    cases hhash : identify e.parent c with
    | error f =>
        rw [hhash] at hcheck
        cases hcheck
    | ok hash =>
        rw [hhash] at hcheck
        cases hcheck
        rfl
  unfold Links.fits
  rw [hnext]
  show d.height.same (c.height + 1) = true
  rw [hc, hd, Number.int_add_one, Number.ofInt_of_le (by omega), Number.int_same_int]

/-- A validation that passes comes to the row above a run. -/
theorem check_of_run {low rs : List Reading} {k : Int} {b : Block} {e : Links.Expectation}
    {report report' : LinkReport}
    (hrun : (low ++ [(k, Except.ok b)]).IsChain fun r r' : Reading => r'.1 = r.1 + 1)
    (hplaced : Placed (low ++ (k, .ok b) :: rs))
    (hfits : ∀ j c, (low ++ [(k, Except.ok b)]).head? = some (j, .ok c) → Links.fits e c = true)
    (h : check e report (low ++ (k, .ok b) :: rs) = .ok report') :
    ∃ e' reached, Links.fits e' b = true ∧ check e' reached ((k, .ok b) :: rs) = .ok report' := by
  induction low generalizing e report with
  | nil => exact ⟨e, report, hfits k b rfl, h⟩
  | cons r low ih =>
      obtain ⟨j, result⟩ := r
      cases result with
      | error f => cases h
      | ok c =>
          rw [List.cons_append, check_cons, if_pos (hfits j c rfl)] at h
          cases hcheck : Links.checkBlock e c with
          | error f =>
              rw [hcheck] at h
              cases h
          | ok next =>
              rw [hcheck] at h
              obtain ⟨hfirst, hrest⟩ := List.isChain_cons.1 hrun
              refine ih hrest (fun i d hd => hplaced i d (List.mem_cons_of_mem _ hd)) ?_ h
              -- the next row stands one above this one
              intro i d hd
              have hi : i = j + 1 := hfirst (i, .ok d) hd
              have hmem : (i, Except.ok d) ∈ low ++ (k, Except.ok b) :: rs := by
                have hrow := List.mem_of_mem_head? hd
                rcases List.mem_append.1 hrow with hrow | hrow
                · exact List.mem_append_left _ hrow
                · rw [List.mem_singleton.1 hrow]
                  exact List.mem_append_right _ List.mem_cons_self
              obtain ⟨hc, hj⟩ := hplaced j c List.mem_cons_self
              have hd' := (hplaced i d (List.mem_cons_of_mem _ hmem)).1
              exact fits_next hcheck hc hj (hi ▸ hd')

/-- A validation of a wallet without blocks that passes a cache filled up to a row comes to that
row. -/
theorem check_of_filled {c : Cache} {start : Number} {k : Int} {b : Block} {rs : List Reading}
    {report : LinkReport} (hfilled : c.FilledUpTo k)
    (hrows : c.readingsAbove start = (k, .ok b) :: rs)
    (h : check (Links.after none) ⟨0, none⟩ (c.readingsAbove Keyed.beforeAll) = .ok report) :
    ∃ e reached, Links.fits e b = true ∧ check e reached ((k, .ok b) :: rs) = .ok report := by
  have hrow : (k, Except.ok b) ∈ c.readings :=
    (List.mem_filter.1 (hrows ▸ List.mem_cons_self : _ ∈ c.readingsAbove start)).1
  -- the validation reads that row as well, after others
  obtain ⟨low, rest, hall⟩ : ∃ low rest, c.readingsAbove Keyed.beforeAll =
      low ++ (k, .ok b) :: rest := by
    have habove : Keyed.beforeAll < .int k :=
      Number.int_lt_int.2 (show (-1 : Int) < k by have := (Cache.word_of_reading hrow).1; omega)
    exact List.append_of_mem (List.mem_filter.2 ⟨hrow, decide_eq_true habove⟩)
  obtain rfl : rest = rs :=
    (Cache.readingsAbove_after low hall).symm.trans (Cache.readingsAbove_after [] hrows)
  have hplaced := placed_readingsAbove c Keyed.beforeAll
  rw [hall] at h hplaced
  exact check_of_run (hfilled.isChain hall) hplaced (fun _ _ _ => rfl) h

end Agreement
end LightSync
