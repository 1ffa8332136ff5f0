import LightSync.Proofs.Cache.Contents
import LightSync.Proofs.Store.Keyed
import Mathlib.Algebra.BigOperators.Group.List.Basic
import Mathlib.Algebra.GroupWithZero.Nat

/-!
# Visiting a cache, at once and page by page

`Visited` says what visiting the blocks of a walk comes to: all of them are visited and then the
walk's own failure is met, or a visit fails and its failure is told as it is. A caller may read a
cache in pages, each of which begins at the last height of the one before it (`visitPages`); that
visits what one read without a limit visits, as far as the pages go (`visitPages_eq`).

Main statement: `readsInOrder_of_natural`.
-/

set_option autoImplicit false

namespace LightSync

namespace Walk

variable {α β σ : Type} {visit : α → Action σ Unit}

/-- **What visiting the things of a walk comes to**: how it fails, if it does, and the state then.
Nothing behind a visit that fails is visited. -/
inductive Visited (visit : α → Action σ Unit) (w : Walk α) (s : σ) : Option Failure → σ → Prop
  | all {s' : σ} (hall : visitAll visit w.items s = .ok () s') : Visited visit w s w.stop s'
  | refused {done rest : List α} {a : α} {s1 s2 : σ} {e : Failure}
      (hitems : w.items = done ++ a :: rest) (hdone : visitAll visit done s = .ok () s1)
      (hvisit : visit a s1 = .error e s2) : Visited visit w s (some e) s2

/-- Visiting goes through the list, or stops at the first thing that refuses. -/
theorem visitAll_cases (visit : α → Action σ Unit) (l : List α) (s : σ) :
    (∃ s', visitAll visit l s = .ok () s') ∨ ∃ done a rest s1 e s2, l = done ++ a :: rest ∧
      visitAll visit done s = .ok () s1 ∧ visit a s1 = .error e s2 ∧
        visitAll visit l s = .error e s2 := by
  induction l generalizing s with
  | nil => exact Or.inl ⟨s, rfl⟩
  | cons a l ih =>
      cases hvisit : visit a s with
      | error e s2 =>
          exact Or.inr ⟨[], a, l, s, e, s2, rfl, rfl, hvisit,
            Action.bind_eq_error.2 (Or.inl hvisit)⟩
      | ok u s1 =>
          rcases ih s1 with ⟨s', hs'⟩ | ⟨done, b, rest, t, e, s2, rfl, hdone, hb, hl⟩
          · exact Or.inl ⟨s', Action.bind_eq_ok.2 ⟨u, s1, hvisit, hs'⟩⟩
          · exact Or.inr ⟨a :: done, b, rest, t, e, s2, rfl,
              Action.bind_eq_ok.2 ⟨u, s1, hvisit, hdone⟩, hb,
              Action.bind_eq_error.2 (Or.inr ⟨u, s1, hvisit, hl⟩)⟩

theorem forEach_of_error {w : Walk α} {s s' : σ} {e : Failure}
    (h : visitAll visit w.items s = .error e s') : w.forEach visit s = .error e s' :=
  Action.bind_eq_error.2 (Or.inl h)

theorem forEach_of_ok {w : Walk α} {s s' : σ} (h : visitAll visit w.items s = .ok () s') :
    w.forEach visit s = match w.stop with
      | some e => .error e s'
      | none => .ok () s' := by
  unfold forEach
  rw [Action.bind_apply, h]
  cases w.stop <;> rfl

/-- Visiting each thing of a walk comes to what it should. -/
theorem visited_forEach (visit : α → Action σ Unit) (w : Walk α) (s : σ) :
    Visited visit w s ((w.forEach visit).failure? s) ((w.forEach visit).after s) := by
  rcases visitAll_cases visit w.items s with
    ⟨s', hs'⟩ | ⟨done, a, rest, s1, e, s2, hitems, hdone, ha, hl⟩
  · unfold Action.failure? Action.after
    rw [forEach_of_ok hs']
    obtain ⟨items, stop⟩ := w
    cases stop with
    | none => exact .all hs'
    | some e => exact .all hs'
  · unfold Action.failure? Action.after
    rw [forEach_of_error hl]
    exact .refused hitems hdone ha

/-! ## One walk after another -/

/-- The second walk after the first, if that has not failed. -/
def followedBy (w w' : Walk α) : Walk α :=
  match w.stop with
  | some _ => w
  | none => ⟨w.items ++ w'.items, w'.stop⟩

theorem attempt_append (f : α → Except Failure β) (l l' : List α) :
    attempt f none (l ++ l') = (attempt f none l).followedBy (attempt f none l') := by
  induction l with
  | nil => rfl
  | cons a l ih =>
      rw [List.cons_append, attempt, attempt]
      cases f a with
      | error e => rfl
      | ok b =>
          dsimp only
          rw [ih]
          cases hstop : (attempt f none l).stop with
          | some e => simp [followedBy, cons, hstop]
          | none => simp [followedBy, cons, hstop]

theorem attempt_take (f : α → Except Failure β) (l : List α) (n : Nat) :
    attempt f none (l.take n) = (attempt f none l).take n := by
  induction l generalizing n with
  | nil => cases n <;> rfl
  | cons a l ih =>
      cases n with
      | zero => rfl
      | succ n =>
          rw [List.take_succ_cons, attempt, attempt]
          cases f a with
          | error e => rfl
          | ok b =>
              dsimp only
              rw [ih]
              unfold take cons
              by_cases hn : n ≤ (attempt f none l).items.length
              · simp [hn]
              · simp [hn]

theorem visitAll_append (visit : α → Action σ Unit) (l l' : List α) :
    visitAll visit (l ++ l') = (do visitAll visit l; visitAll visit l') := by
  induction l with
  | nil => rfl
  | cons a l ih => rw [List.cons_append, visitAll, visitAll, ih, bind_assoc]

theorem forEach_followedBy (visit : α → Action σ Unit) (w w' : Walk α) :
    (w.followedBy w').forEach visit = (do w.forEach visit; w'.forEach visit) := by
  obtain ⟨items, stop⟩ := w
  cases stop with
  | some e =>
      show (do visitAll visit items; throw e) =
        (do (do visitAll visit items; throw e); w'.forEach visit)
      rw [bind_assoc]
      rfl
  | none =>
      show (do visitAll visit (items ++ w'.items); _) =
        (do (do visitAll visit items; return ()); w'.forEach visit)
      rw [visitAll_append, bind_assoc, bind_assoc]
      rfl

end Walk

namespace Cache

variable {σ : Type}

/-! ## At once -/

theorem visitAll_within (visit : Block → Action σ Unit) (bs : List Block) (c : Cache) (s : σ) :
    Walk.visitAll (fun b => Action.within (·.2) (fun t st => (st.1, t)) (visit b)) bs (c, s) =
      match Walk.visitAll visit bs s with
      | .ok _ s' => .ok () (c, s')
      | .error e s' => .error e (c, s') := by
  induction bs generalizing s with
  | nil => rfl
  | cons b bs ih =>
      rw [Walk.visitAll, Walk.visitAll, Action.bind_apply, Action.bind_apply]
      simp only [Action.within]
      cases visit b s with
      | error e s' => rfl
      | ok u s' => exact ih s'

/-- Visits work on the caller's part of the state. -/
theorem forEach_within (visit : Block → Action σ Unit) (w : Walk Block) (c : Cache) (s : σ) :
    (w.forEach fun b => Action.within (·.2) (fun t st => (st.1, t)) (visit b)) (c, s) =
      match w.forEach visit s with
      | .ok _ s' => .ok () (c, s')
      | .error e s' => .error e (c, s') := by
  unfold Walk.forEach
  rw [Action.bind_apply, Action.bind_apply, visitAll_within]
  cases Walk.visitAll visit w.items s with
  | error e s' => rfl
  | ok u s' => cases w.stop <;> rfl

/-- Visiting the blocks of a cache is visiting those of the walk. The cache is left as it was, up
to its connection. -/
theorem forEachBlock_eq {limit : Option Number} {most : Option Nat} (h : LimitsTo limit most)
    (last : Option Number) (visit : Block → Action σ Unit) (c : Cache) :
    ∃ c' : Cache, c'.stored = c.stored ∧ ∀ s, forEachBlock last limit visit (c, s) =
      match (c.blocks last limit).forEach visit s with
      | .ok _ s' => .ok () (c', s')
      | .error e s' => .error e (c', s') := by
  have hasked : ∃ asked, RowLimit.ofBlocks limit = .ok asked := by
    cases h with
    | absent => exact ⟨_, rfl⟩
    | natural hint hle => exact ⟨_, (rows_of_natural hint hle).1⟩
  obtain ⟨asked, hasked⟩ := hasked
  refine ⟨c.openCursor.closeCursor, by rw [stored_closeCursor, stored_openCursor], fun s => ?_⟩
  unfold forEachBlock traverse during
  rw [hasked]
  simp only [Action.ensuring, forEach_within]
  cases (c.blocks last limit).forEach visit s <;> rfl

/-! ## Page by page -/

/-- A visit that also keeps the height of the block, above which the next page begins. -/
def noting (visit : Block → Action σ Unit) (b : Block) : Action (Option Number × σ) Unit :=
  fun st => match visit b st.2 with
  | .ok _ s => .ok () (some b.height, s)
  | .error e s => .error e (st.1, s)

/-- Visits the blocks in consecutive pages of these sizes. -/
def visitPages (visit : Block → Action σ Unit) :
    List Nat → Action (Cache × Option Number × σ) Unit
  | [] => return ()
  | n :: sizes => do
      let st ← get
      forEachBlock st.2.1 (some (.int n)) (noting visit)
      visitPages visit sizes

/-- The last height that was seen, when these blocks come next. -/
def lastSeen (last : Option Number) (bs : List Block) : Option Number :=
  bs.foldl (fun _ b => some b.height) last

theorem visitAll_noting (visit : Block → Action σ Unit) (bs : List Block) (last : Option Number)
    (s : σ) :
    (∀ s', Walk.visitAll visit bs s = .ok () s' →
      Walk.visitAll (noting visit) bs (last, s) = .ok () (lastSeen last bs, s')) ∧
    ∀ e s', Walk.visitAll visit bs s = .error e s' →
      ∃ last', Walk.visitAll (noting visit) bs (last, s) = .error e (last', s') := by
  induction bs generalizing last s with
  | nil =>
      constructor
      · intro s' h
        cases h
        rfl
      · intro e s' h
        cases h
  | cons b bs ih =>
      rw [Walk.visitAll, Walk.visitAll, Action.bind_apply, Action.bind_apply, noting]
      dsimp only
      cases visit b s with
      | error e s1 =>
          constructor
          · intro s' h
            cases h
          · intro e' s' h
            cases h
            exact ⟨last, rfl⟩
      | ok u s1 => exact ih (some b.height) s1

theorem forEach_noting (visit : Block → Action σ Unit) (w : Walk Block) (last : Option Number)
    (s : σ) :
    (∀ s', w.forEach visit s = .ok () s' → w.stop = none ∧
      w.forEach (noting visit) (last, s) = .ok () (lastSeen last w.items, s')) ∧
    ∀ e s', w.forEach visit s = .error e s' →
      ∃ last', w.forEach (noting visit) (last, s) = .error e (last', s') := by
  obtain ⟨hok, herror⟩ := visitAll_noting visit w.items last s
  cases hitems : Walk.visitAll visit w.items s with
  | error e s1 =>
      obtain ⟨last', hlast'⟩ := herror e s1 hitems
      rw [Walk.forEach_of_error hitems, Walk.forEach_of_error hlast']
      constructor
      · intro s' h
        cases h
      · intro e' s' h
        cases h
        exact ⟨last', rfl⟩
  | ok u s1 =>
      rw [Walk.forEach_of_ok hitems, Walk.forEach_of_ok (hok s1 hitems)]
      cases w.stop with
      | none =>
          constructor
          · intro s' h
            cases h
            exact ⟨rfl, rfl⟩
          · intro e s' h
            cases h
      | some e =>
          constructor
          · intro s' h
            cases h
          · intro e' s' h
            cases h
            exact ⟨_, rfl⟩

/-- The rows behind a page whose blocks were all read are those above its last height. -/
theorem readingsAbove_lastSeen (c : Cache) (last : Option Number) (n : Nat)
    (hstop : (walkOf ((c.readingsAbove (last.getD Keyed.beforeAll)).take n)).stop = none) :
    c.readingsAbove ((lastSeen last
      (walkOf ((c.readingsAbove (last.getD Keyed.beforeAll)).take n)).items).getD
        Keyed.beforeAll) = (c.readingsAbove (last.getD Keyed.beforeAll)).drop n := by
  have hsplit := List.take_append_drop n (c.readingsAbove (last.getD Keyed.beforeAll))
  rcases List.eq_nil_or_concat ((c.readingsAbove (last.getD Keyed.beforeAll)).take n) with
    hnil | ⟨low, r, hlow⟩
  · -- an empty page leaves everything as it was
    rw [hnil, List.nil_append] at hsplit
    rw [hnil, hsplit]
    rfl
  · rw [hlow, List.concat_eq_append] at hsplit hstop ⊢
    rw [List.append_assoc, List.singleton_append] at hsplit
    have hmem : r ∈ c.readingsAbove (last.getD Keyed.beforeAll) := by
      rw [← hsplit]
      simp
    -- the page is a walk over the rows before its last one, and that one
    have hwalk : walkOf (low ++ [r]) = (walkOf low).followedBy (walkOf [r]) :=
      Walk.attempt_append _ low [r]
    rw [hwalk] at hstop ⊢
    unfold Walk.followedBy at hstop ⊢
    obtain ⟨k, result⟩ := r
    cases hbefore : (walkOf low).stop with
    | some e =>
        rw [hbefore] at hstop
        exact absurd (hbefore.symm.trans hstop) (by simp)
    | none =>
        rw [hbefore] at hstop
        cases result with
        | error e => cases hstop
        | ok b =>
            have hheight := (height_of_reading (List.mem_filter.1 hmem).1).1
            have hlast : lastSeen last ((walkOf low).items ++ [b]) = some (.int k) := by
              rw [lastSeen, List.foldl_append, ← hheight]
              rfl
            show c.readingsAbove ((lastSeen last ((walkOf low).items ++ [b])).getD _) = _
            rw [hlast, Option.getD_some]
            exact readingsAbove_after low hsplit.symm

/-- **Pages visit what one read visits**, as far as they go: they end alike, and leave the caller
with the same state. -/
theorem visitPages_eq (visit : Block → Action σ Unit) {sizes : List Nat}
    (hsizes : ∀ n ∈ sizes, n ≤ Number.maxSafe) (c : Cache) (last : Option Number) (s : σ) :
    (visitPages visit sizes).failure? (c, last, s) =
        (((c.blocks last none).take sizes.sum).forEach visit).failure? s ∧
      ((visitPages visit sizes).after (c, last, s)).2.2 =
        (((c.blocks last none).take sizes.sum).forEach visit).after s := by
  -- each page begins where the blocks seen so far end, so the beginning is left free
  induction sizes generalizing c last s with
  | nil => exact ⟨rfl, rfl⟩
  | cons n sizes ih =>
      have hlimit : LimitsTo (some (.int n)) (some n) :=
        .natural rfl (hsizes n List.mem_cons_self)
      obtain ⟨c', hc', hrun⟩ := forEachBlock_eq hlimit last (noting visit) c
      have hpage := blocks_of_limitsTo hlimit c last
      -- one read is the first page and then what is behind it
      have hwhole : (c.blocks last none).take (n :: sizes).sum =
          (c.blocks last (some (.int n))).followedBy
            ((walkOf ((c.readingsAbove (last.getD Keyed.beforeAll)).drop n)).take sizes.sum) := by
        rw [hpage, blocks_eq, List.sum_cons, walkOf, ← Walk.attempt_take, List.take_add,
          Walk.attempt_append, Walk.attempt_take _ (List.drop n _)]
        rfl
      have hvisit : visitPages visit (n :: sizes) (c, last, s) =
          (do forEachBlock last (some (.int n)) (noting visit); visitPages visit sizes)
            (c, last, s) := rfl
      unfold Action.failure? Action.after
      rw [hwhole, Walk.forEach_followedBy, hvisit, Action.bind_apply, Action.bind_apply, hrun]
      obtain ⟨hok, herror⟩ := forEach_noting visit (c.blocks last (some (.int n))) last s
      cases hfirst : (c.blocks last (some (.int n))).forEach visit s with
      | error e s1 =>
          obtain ⟨last', hlast'⟩ := herror e s1 hfirst
          rw [hlast']
          exact ⟨rfl, rfl⟩
      | ok u s1 =>
          obtain ⟨hstop, hnoted⟩ := hok s1 hfirst
          rw [hpage] at hstop
          have hnext : c'.blocks (lastSeen last (c.blocks last (some (.int n))).items) none =
              walkOf ((c.readingsAbove (last.getD Keyed.beforeAll)).drop n) := by
            rw [blocks_congr hc', blocks_eq, hpage]
            exact congrArg walkOf (readingsAbove_lastSeen c last n hstop)
          rw [hnoted]
          have hrest := ih (fun m hm => hsizes m (List.mem_cons_of_mem n hm)) c'
            (lastSeen last (c.blocks last (some (.int n))).items) s1
          rw [hnext] at hrest
          exact hrest

/-! ## Both -/

/-- **How a cache is read**: above any height, up to any limit, in the order of the heights, at
once and page by page. -/
structure ReadsInOrder (c : Cache) : Prop where
  /-- The blocks of the first rows above the height, up to a bad row and its failure. -/
  yields : ∀ last limit most, LimitsTo limit most →
    Yields (firstOf most (c.contentAbove last)) (c.blocks last limit)
  ascending : ∀ last limit, (c.blocks last limit).items.Pairwise Below
  /-- They are visited, and neither they nor the cache change by that. -/
  visits : ∀ {σ : Type} (visit : Block → Action σ Unit) (s : σ) last limit most,
    LimitsTo limit most →
    Walk.Visited visit (c.blocks last limit) s ((forEachBlock last limit visit).failure? (c, s))
      ((forEachBlock last limit visit).after (c, s)).2 ∧
    ((forEachBlock last limit visit).after (c, s)).1.stored = c.stored
  /-- Pages visit the blocks of as many rows as they have places for. -/
  pages : ∀ {σ : Type} (visit : Block → Action σ Unit) (s : σ) last sizes,
    (∀ n ∈ sizes, n ≤ Number.maxSafe) →
    Walk.Visited visit ((c.blocks last none).take sizes.sum) s
      ((visitPages visit sizes).failure? (c, last, s))
      ((visitPages visit sizes).after (c, last, s)).2.2
  /-- With places for all rows they end as one read does. -/
  allPages : ∀ {σ : Type} (visit : Block → Action σ Unit) (s : σ) last sizes,
    (∀ n ∈ sizes, n ≤ Number.maxSafe) → (c.contentAbove last).length ≤ sizes.sum →
    (visitPages visit sizes).failure? (c, last, s) =
        (forEachBlock last none visit).failure? (c, s) ∧
      ((visitPages visit sizes).after (c, last, s)).2.2 =
        ((forEachBlock last none visit).after (c, s)).2

theorem forEachBlock_outcome {limit : Option Number} {most : Option Nat} (h : LimitsTo limit most)
    (last : Option Number) (visit : Block → Action σ Unit) (c : Cache) (s : σ) :
    (forEachBlock last limit visit).failure? (c, s) =
        ((c.blocks last limit).forEach visit).failure? s ∧
      ((forEachBlock last limit visit).after (c, s)).2 =
        ((c.blocks last limit).forEach visit).after s ∧
      ((forEachBlock last limit visit).after (c, s)).1.stored = c.stored := by
  obtain ⟨c', hc', hrun⟩ := forEachBlock_eq h last visit c
  unfold Action.failure? Action.after
  rw [hrun]
  cases (c.blocks last limit).forEach visit s with
  | ok u s' => exact ⟨rfl, rfl, hc'⟩
  | error e s' => exact ⟨rfl, rfl, hc'⟩

/-- **A cache with rows at natural heights is read in order**, whatever its rows are. -/
theorem readsInOrder_of_natural (c : Cache) (hheights : ∀ row ∈ c.content, 0 ≤ row.1) :
    ReadsInOrder c where
  yields last limit most h := yields_of_limitsTo hheights h last
  ascending last limit := pairwise_blocks_of_limit c last limit
  visits visit s last limit most h := by
    obtain ⟨hfailure, hstate, hstored⟩ := forEachBlock_outcome h last visit c s
    rw [hfailure, hstate]
    exact ⟨Walk.visited_forEach visit _ s, hstored⟩
  pages visit s last sizes hsizes := by
    obtain ⟨hfailure, hstate⟩ := visitPages_eq visit hsizes c last s
    rw [hfailure, hstate]
    exact Walk.visited_forEach visit _ s
  allPages visit s last sizes hsizes hplaces := by
    obtain ⟨hfailure, hstate⟩ := visitPages_eq visit hsizes c last s
    obtain ⟨hfailure', hstate', -⟩ := forEachBlock_outcome .absent last visit c s
    -- so many rows are all of them
    have hall : (c.blocks last none).take sizes.sum = c.blocks last none := by
      have hlength : (c.readingsAbove (last.getD Keyed.beforeAll)).length ≤ sizes.sum := by
        rw [readingsAbove_eq hheights, List.length_map]
        exact hplaces
      rw [blocks_eq, walkOf, ← Walk.attempt_take, List.take_of_length_le hlength]
    rw [hfailure, hstate, hall]
    exact ⟨hfailure'.symm, hstate'.symm⟩

/-- Two blocks, a row that spells none, and another block behind it. -/
def garbled : Cache :=
  .inMemory (((Keyed.empty.insertAll ([linkedBlock 1 1 0 [], linkedBlock 2 2 1 [],
    linkedBlock 5 5 4 []].map rowOf)).insert 3 [0]))

theorem readsInOrder_of_natural_garbled :
    (∀ row ∈ garbled.content, 0 ≤ row.1) ∧ ReadsInOrder garbled ∧
      (garbled.blocks none none).items.map (·.height) = [1, 2] := by
  have hheights : ∀ row ∈ garbled.content, 0 ≤ row.1 := by decide +kernel
  exact ⟨hheights, readsInOrder_of_natural garbled hheights, by decide +kernel⟩

end Cache
end LightSync
