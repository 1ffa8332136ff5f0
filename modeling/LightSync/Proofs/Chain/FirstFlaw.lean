import LightSync.Proofs.Cache.Cutting
import LightSync.Proofs.Chain.Agreement

/-!
# The first flaw of a chain

The blocks above a tip begin with a run of consecutive heights (`IsRun`), which may be empty.
Validating them is told by the blocks of the run alone: a validation passes when nothing is wrong
with any of them (`Sound`), and otherwise fails with what is wrong with the first that is not
(`Flaw`). Both follow from one walk along the run (`follow_of_isRun`), and with them that a validation
depends on nothing behind the run (`checkLinks_of_legible`).
-/

set_option autoImplicit false

namespace LightSync

/-! ## Heights that come next -/

namespace Number

theorem int_same_ofExact {k : Int} {q : Rat} :
    (Number.int k).same (ofExact q) = true ↔ (ofExact q).toInt? = some k := by
  unfold ofExact
  split
  · simp [same, toInt?, eq_comm]
  · rename_i hden
    have hne : ((k : Int) : Rat) ≠ q := by
      rintro rfl
      exact hden (Rat.den_intCast k)
    simp [same, toRat?, toInt?, hne]

theorem int_same_infinite {k : Int} {negative : Bool} :
    (Number.int k).same (.infinite negative) = true ↔
      (Number.infinite negative).toInt? = some k :=
  ⟨nofun, nofun⟩

theorem int_same_nearest {k : Int} {q : Rat} :
    (Number.int k).same (nearest q) = true ↔ (nearest q).toInt? = some k := by
  unfold nearest
  dsimp only
  split
  · split
    · simp [same, toRat?, toInt?, eq_comm]
    · simp [same, toInt?, eq_comm]
  · split
    · exact int_same_infinite
    · exact int_same_ofExact

theorem int_same_ofInt {k n : Int} :
    (Number.int k).same (ofInt n) = true ↔ (ofInt n).toInt? = some k := by
  unfold ofInt
  split
  · rw [int_same_int, eq_comm]
    exact Option.some_inj.symm
  · exact int_same_nearest

/-- An integer is the same as what a number and one come to if the sum is that integer. -/
theorem int_same_add_one {k : Int} {a : Number} :
    (Number.int k).same (a + 1) = true ↔ (a + 1).toInt? = some k := by
  cases a with
  | int n => exact int_same_ofInt (n := n + 1)
  | negZero => exact int_same_ofInt (n := 1)
  | fraction q =>
      have hsum : Number.fraction q + 1 = nearest (q + ((1 : Int) : Rat)) := by
        show (Number.fraction q).add (.int 1) = _
        unfold Number.add
        rfl
      rw [hsum]
      exact int_same_nearest
  | infinite negative => exact @int_same_infinite k negative
  | nan => exact ⟨nofun, nofun⟩

end Number

namespace Links

/-! ## Runs -/

/-- The height at which a run above a tip begins: one above it, or that of the first block. -/
def firstHeight (tip : Option ChainTip) (bs : List Block) : Option Int :=
  match tip with
  | some t => (t.height + 1).toInt?
  | none => bs.head?.bind (·.height.toInt?)

/-- The first `n` blocks stand at consecutive heights from `first` on, and the next one does not
stand behind them. -/
structure IsRun (first : Option Int) (bs : List Block) (n : Nat) : Prop where
  length_le : n ≤ bs.length
  consecutive : ∀ i < n, ∀ b, bs[i]? = some b → ∃ k, first = some k ∧ b.height = .int (k + i)
  ends : ∀ k b, first = some k → bs[n]? = some b → b.height ≠ .int (k + n)

/-! ## Flaws -/

/-- The hash that the block at an index has to name as its parent: `parent` for the first block, and
for the others that of the block before. -/
def below? (parent : Option Bytes) (bs : List Block) : Nat → Option Bytes
  | 0 => parent
  | i + 1 => bs[i]?.bind (·.hash?.toOption)

/-- Nothing is wrong with the block at an index: it has a hash, and names its parent if there is one
to name. -/
structure Sound (parent : Option Bytes) (bs : List Block) (i : Nat) (b : Block) : Prop where
  hash : ∃ hash, b.hash? = .ok hash
  parent : ∀ hash, below? parent bs i = some hash → b.parent? = .ok hash

/-- What is wrong with the block at an index. Its link comes before its own hash. -/
inductive Flaw (parent : Option Bytes) (bs : List Block) (i : Nat) (b : Block) : Failure → Prop
  | unusableParent (hash : Bytes) (hbelow : below? parent bs i = some hash)
      (hnone : ∀ named, b.parent? ≠ .ok named) :
      Flaw parent bs i b (.corrupted (.unusableParent b.height b.parent.length))
  | parentMismatch (hash named : Bytes) (hbelow : below? parent bs i = some hash)
      (hparent : b.parent? = .ok named) (hother : named ≠ hash) :
      Flaw parent bs i b (.brokenChain (.parentMismatch b.height))
  | unusableHash (hlinks : ∀ hash, below? parent bs i = some hash → b.parent? = .ok hash)
      (hnone : ∀ hash, b.hash? ≠ .ok hash) :
      Flaw parent bs i b (.corrupted (.unusableHash b.height b.hash.length))

/-- What a validation of a run of `n` blocks comes to: the run, or what is wrong with the first
block that is not sound. -/
inductive Verdict (parent : Option Bytes) (bs : List Block) (n : Nat) :
    Except Failure LinkReport → Prop
  | passes (hsound : ∀ i < n, ∀ b, bs[i]? = some b → Sound parent bs i b) :
      Verdict parent bs n (.ok ⟨n, (bs.take n).getLast?.map (·.height)⟩)
  | fails (i : Nat) (b : Block) (f : Failure) (hi : i < n) (hb : bs[i]? = some b)
      (hbefore : ∀ j < i, ∀ c, bs[j]? = some c → Sound parent bs j c)
      (hflaw : Flaw parent bs i b f) : Verdict parent bs n (.error f)

section

variable {parent : Option Bytes} {bs bs' : List Block} {b : Block} {hash : Bytes} {i n : Nat}
  {f : Failure} {first : Option Int} {k : Int}

/-- A block is checked by its link first and then by its own hash. -/
theorem checkBlock_cases (e : Expectation) (bs : List Block) (b : Block) :
    (∃ hash, b.hash? = .ok hash ∧ checkBlock e b = .ok ⟨some (b.height + 1), some hash⟩ ∧
        Sound e.parent bs 0 b) ∨
      ∃ f, checkBlock e b = .error f ∧ Flaw e.parent bs 0 b f := by
  cases hcheck : checkParent e.parent b with
  | error f =>
      refine Or.inr ⟨f, by rw [checkBlock, hcheck], ?_⟩
      unfold checkParent at hcheck
      cases hbelow : e.parent with
      | none =>
          rw [hbelow] at hcheck
          cases hcheck
      | some hash =>
          rw [hbelow] at hcheck
          dsimp only at hcheck
          cases hparent : b.parent? with
          | error e' =>
              rw [hparent] at hcheck
              cases hcheck
              rw [Block.parent?_eq_error hparent]
              exact .unusableParent hash rfl fun named h => by rw [hparent] at h; cases h
          | ok named =>
              rw [hparent] at hcheck
              dsimp only at hcheck
              split at hcheck
              · cases hcheck
              · rename_i hother
                cases hcheck
                exact .parentMismatch hash named rfl hparent hother
  | ok u =>
      have hlinks : ∀ hash, below? e.parent bs 0 = some hash → b.parent? = .ok hash := by
        intro hash hbelow
        have hbelow : e.parent = some hash := hbelow
        unfold checkParent at hcheck
        rw [hbelow] at hcheck
        dsimp only at hcheck
        cases hparent : b.parent? with
        | error e' =>
            rw [hparent] at hcheck
            cases hcheck
        | ok named =>
            rw [hparent] at hcheck
            dsimp only at hcheck
            split at hcheck
            · rename_i hsame
              rw [hsame]
            · cases hcheck
      cases hhash : b.hash? with
      | error f =>
          refine Or.inr ⟨f, by rw [checkBlock, hcheck]; dsimp only; rw [hhash], ?_⟩
          rw [Block.hash?_eq_error hhash]
          exact .unusableHash hlinks fun hash h => by rw [hhash] at h; cases h
      | ok hash =>
          exact Or.inl ⟨hash, rfl, by rw [checkBlock, hcheck]; dsimp only; rw [hhash],
            ⟨hash, hhash⟩, hlinks⟩

/-! ## One block further -/

theorem below?_cons (hhash : b.hash? = .ok hash) (i : Nat) :
    below? parent (b :: bs) (i + 1) = below? (some hash) bs i := by
  cases i with
  | zero =>
      show b.hash?.toOption = some hash
      rw [hhash]
      rfl
  | succ i => rfl

section

variable {parent' : Option Bytes} {j : Nat}

/-- Whether a block is sound is told by the hash that it has to name. -/
theorem Sound.congr (h : Sound parent bs i b) (hsame : below? parent bs i = below? parent' bs' j) :
    Sound parent' bs' j b := ⟨h.hash, fun hash hbelow => h.parent hash (hsame.trans hbelow)⟩

theorem Flaw.congr (h : Flaw parent bs i b f) (hsame : below? parent bs i = below? parent' bs' j) :
    Flaw parent' bs' j b f := by
  cases h with
  | unusableParent hash hbelow hnone => exact .unusableParent hash (hsame ▸ hbelow) hnone
  | parentMismatch hash named hbelow hparent hother =>
      exact .parentMismatch hash named (hsame ▸ hbelow) hparent hother
  | unusableHash hlinks hnone =>
      exact .unusableHash (fun hash hbelow => hlinks hash (hsame.trans hbelow)) hnone

end

theorem IsRun.tail (h : IsRun first (b :: bs) (n + 1)) (hk : b.height = .int k) :
    IsRun (some (k + 1)) bs n := by
  -- the first block tells at which height the run begins
  have hfirst : first = some k := by
    obtain ⟨k', hfirst, hheight⟩ := h.consecutive 0 (Nat.succ_pos n) b rfl
    rw [hk, Int.natCast_zero, Int.add_zero] at hheight
    rw [hfirst, Number.int.inj hheight]
  refine ⟨Nat.le_of_succ_le_succ h.length_le, fun i hi c hc => ?_, fun k' c hk' hc => ?_⟩
  · obtain ⟨k', hk', hheight⟩ := h.consecutive (i + 1) (Nat.succ_lt_succ hi) c hc
    obtain rfl := Option.some.inj (hfirst.symm.trans hk')
    refine ⟨k + 1, rfl, ?_⟩
    rw [hheight]
    congr 1
    omega
  · obtain rfl := Option.some.inj hk'
    have hends := h.ends k c hfirst hc
    rw [Int.natCast_succ] at hends
    rwa [Int.add_assoc, Int.add_comm 1]

theorem IsRun.cons (h : IsRun (some (k + 1)) bs n) (hk : b.height = .int k) :
    IsRun (some k) (b :: bs) (n + 1) := by
  refine ⟨Nat.succ_le_succ h.length_le, fun i hi c hc => ?_, fun k' c hk' hc => ?_⟩
  · refine ⟨k, rfl, ?_⟩
    cases i with
    | zero =>
        obtain rfl := Option.some.inj hc
        rw [hk, Int.natCast_zero, Int.add_zero]
    | succ i =>
        obtain ⟨k', hk', hheight⟩ := h.consecutive i (Nat.lt_of_succ_lt_succ hi) c hc
        obtain rfl := Option.some.inj hk'
        rw [hheight]
        congr 1
        omega
  · obtain rfl := Option.some.inj hk'
    have hends := h.ends (k + 1) c rfl hc
    rwa [Int.add_assoc, Int.add_comm 1, ← Int.natCast_succ] at hends

/-- Blocks begin with a run, be it an empty one. -/
theorem exists_isRun (first : Option Int) (bs : List Block) : ∃ n, IsRun first bs n := by
  induction bs generalizing first with
  | nil => exact ⟨0, Nat.le_refl 0, fun i hi => absurd hi (Nat.not_lt_zero i), nofun⟩
  | cons b bs ih =>
      by_cases hstands : ∃ k, first = some k ∧ b.height = .int k
      · obtain ⟨k, rfl, hk⟩ := hstands
        obtain ⟨n, hn⟩ := ih (some (k + 1))
        exact ⟨n + 1, hn.cons hk⟩
      · refine ⟨0, Nat.zero_le _, fun i hi => absurd hi (Nat.not_lt_zero i), fun k c hfirst hc => ?_⟩
        obtain rfl := Option.some.inj hc
        exact fun hk => hstands ⟨k, hfirst, hk.trans (by simp)⟩

/-- A report on the blocks behind those of another. -/
def follows (report rest : LinkReport) : LinkReport :=
  ⟨report.checked + rest.checked, rest.height.or report.height⟩

theorem Verdict.cons {v : Except Failure LinkReport} (hhash : b.hash? = .ok hash)
    (hfirst : Sound parent bs' 0 b) (h : Verdict (some hash) bs n v) :
    Verdict parent (b :: bs) (n + 1) (v.map (follows ⟨1, some b.height⟩)) := by
  have hsound (m : Nat) (hsound : ∀ i < m, ∀ c, bs[i]? = some c → Sound (some hash) bs i c) :
      ∀ i < m + 1, ∀ c, (b :: bs)[i]? = some c → Sound parent (b :: bs) i c := by
    intro i hi c hc
    cases i with
    | zero =>
        obtain rfl := Option.some.inj hc
        exact hfirst.congr rfl
    | succ i =>
        exact (hsound i (Nat.lt_of_succ_lt_succ hi) c hc).congr (below?_cons hhash i).symm
  cases h with
  | passes hrest =>
      have hreport : follows ⟨1, some b.height⟩ ⟨n, (bs.take n).getLast?.map (·.height)⟩ =
          ⟨n + 1, ((b :: bs).take (n + 1)).getLast?.map (·.height)⟩ := by
        rw [List.take_succ_cons, List.getLast?_cons, follows, Nat.add_comm]
        cases (bs.take n).getLast? <;> rfl
      show Verdict parent (b :: bs) (n + 1) (.ok _)
      rw [hreport]
      exact .passes (hsound n hrest)
  | fails i c f hi hc hbefore hflaw =>
      exact .fails (i + 1) c f (Nat.succ_lt_succ hi) hc (hsound i hbefore)
        (hflaw.congr (below?_cons hhash i).symm)

/-! ## Following a run -/

/-- The blocks stand at integers that are not too great for the next one. -/
def Placed (bs : List Block) : Prop :=
  ∀ b ∈ bs, ∃ k, b.height = .int k ∧ k.natAbs + 1 < Number.exactLimit

/-- **Following blocks comes to the verdict on the run with which they begin.** -/
theorem follow_of_isRun {e : Expectation} (report : LinkReport) (hplaced : Placed bs)
    (hrun : IsRun first bs n)
    (hfits : ∀ b, bs.head? = some b → (fits e b = true ↔ ∃ k, first = some k ∧ b.height = .int k)) :
    ∃ v, Verdict e.parent bs n v ∧ follow none e report bs = v.map (follows report) := by
  induction bs generalizing e first n report with
  | nil =>
      obtain rfl := Nat.le_zero.1 hrun.length_le
      exact ⟨_, .passes fun i hi => absurd hi (Nat.not_lt_zero i), rfl⟩
  | cons b bs ih =>
      have hhead := hfits b rfl
      cases n with
      | zero =>
          -- the next block stands somewhere else
          have hgap : ¬ fits e b = true := by
            rw [hhead]
            rintro ⟨k, hfirst, hk⟩
            exact hrun.ends k b hfirst rfl (hk.trans (by simp))
          refine ⟨_, .passes fun i hi => absurd hi (Nat.not_lt_zero i), ?_⟩
          rw [follow, if_neg hgap]
          rfl
      | succ n =>
          obtain ⟨k, hfirst, hk⟩ := hrun.consecutive 0 (Nat.succ_pos n) b rfl
          rw [Int.natCast_zero, Int.add_zero] at hk
          rw [follow, if_pos (hhead.2 ⟨k, hfirst, hk⟩)]
          rcases checkBlock_cases e (b :: bs) b with ⟨hash, hhash, hcheck, hsound⟩ | ⟨f, hcheck, hflaw⟩
          · rw [hcheck]
            dsimp only
            have hnext : ∀ c, bs.head? = some c →
                (fits ⟨some (b.height + 1), some hash⟩ c = true ↔
                  ∃ k', some (k + 1) = some k' ∧ c.height = .int k') := by
              intro c hc
              have hmem := List.mem_of_mem_head? hc
              obtain ⟨i, hi, hfar⟩ := hplaced c (List.mem_cons_of_mem b hmem)
              obtain ⟨j, hj, hnear⟩ := hplaced b List.mem_cons_self
              obtain rfl := Number.int.inj (hj.symm.trans hk)
              show c.height.same (b.height + 1) = true ↔ _
              rw [hi, hj, Number.int_add_one, Number.ofInt_of_le (by omega), Number.int_same_int]
              simp [eq_comm]
            obtain ⟨v, hv, hfollow⟩ := ih ⟨report.checked + 1, some b.height⟩
              (fun c hc => hplaced c (List.mem_cons_of_mem b hc)) (hrun.tail hk) hnext
            refine ⟨_, hv.cons hhash hsound, ?_⟩
            rw [hfollow]
            cases v with
            | error f => rfl
            | ok rest =>
                show Except.ok _ = Except.ok _
                simp only [follows, Except.ok.injEq, LinkReport.mk.injEq]
                exact ⟨by omega, by cases rest.height <;> rfl⟩
          · rw [hcheck]
            exact ⟨.error f, .fails 0 b f (Nat.succ_pos n) rfl
              (fun j hj => absurd hj (Nat.not_lt_zero j)) hflaw, rfl⟩

/-! ## One verdict -/

theorem Flaw.not_sound (h : Flaw parent bs i b f) : ¬ Sound parent bs i b := by
  intro hsound
  cases h with
  | unusableParent hash hbelow hnone => exact hnone hash (hsound.parent hash hbelow)
  | parentMismatch hash named hbelow hparent hother =>
      exact hother (Except.ok.inj (hparent.symm.trans (hsound.parent hash hbelow)))
  | unusableHash hlinks hnone =>
      obtain ⟨hash, hhash⟩ := hsound.hash
      exact hnone hash hhash

theorem Flaw.unique {f' : Failure} (h : Flaw parent bs i b f) (h' : Flaw parent bs i b f') :
    f = f' := by
  cases h with
  | unusableParent hash hbelow hnone =>
      cases h' with
      | unusableParent => rfl
      | parentMismatch _ named _ hparent _ => exact absurd hparent (hnone named)
      | unusableHash hlinks _ => exact absurd (hlinks hash hbelow) (hnone hash)
  | parentMismatch hash named hbelow hparent hother =>
      cases h' with
      | unusableParent _ _ hnone => exact absurd hparent (hnone named)
      | parentMismatch => rfl
      | unusableHash hlinks _ =>
          exact absurd (Except.ok.inj (hparent.symm.trans (hlinks hash hbelow))) hother
  | unusableHash hlinks hnone =>
      cases h' with
      | unusableParent hash hbelow hnone' => exact absurd (hlinks hash hbelow) (hnone' hash)
      | parentMismatch hash named hbelow hparent hother =>
          exact absurd (Except.ok.inj (hparent.symm.trans (hlinks hash hbelow))) hother
      | unusableHash => rfl

theorem Verdict.unique {v v' : Except Failure LinkReport} (h : Verdict parent bs n v)
    (h' : Verdict parent bs n v') : v = v' := by
  cases h with
  | passes hsound =>
      cases h' with
      | passes => rfl
      | fails i b f hi hb _ hflaw => exact absurd (hsound i hi b hb) hflaw.not_sound
  | fails i b f hi hb hbefore hflaw =>
      cases h' with
      | passes hsound => exact absurd (hsound i hi b hb) hflaw.not_sound
      | fails i' b' f' hi' hb' hbefore' hflaw' =>
          rcases Nat.lt_trichotomy i i' with hlt | rfl | hlt
          · exact absurd (hbefore' i hlt b hb) hflaw.not_sound
          · obtain rfl := Option.some.inj (hb.symm.trans hb')
            rw [hflaw.unique hflaw']
          · exact absurd (hbefore i' hlt b' hb') hflaw'.not_sound

/-- A verdict is on the blocks of the run. -/
theorem Verdict.congr {v : Except Failure LinkReport} (h : Verdict parent bs n v)
    (hsame : bs.take n = bs'.take n) : Verdict parent bs' n v := by
  have hget (i : Nat) (hi : i < n) : bs[i]? = bs'[i]? := by
    rw [← List.getElem?_take_of_lt hi, hsame, List.getElem?_take_of_lt hi]
  have hbelow (i : Nat) (hi : i < n) : below? parent bs i = below? parent bs' i := by
    cases i with
    | zero => rfl
    | succ i => rw [below?, below?, hget i (by omega)]
  cases h with
  | passes hsound =>
      rw [hsame]
      exact .passes fun i hi b hb => (hsound i hi b ((hget i hi).trans hb)).congr (hbelow i hi)
  | fails i b f hi hb hbefore hflaw =>
      refine .fails i b f hi ((hget i hi).symm.trans hb) (fun j hj c hc => ?_)
        (hflaw.congr (hbelow i hi))
      have hj' : j < n := Nat.lt_trans hj hi
      exact (hbefore j hj c ((hget j hj').trans hc)).congr (hbelow j hj')

/-- A gap is no flaw. -/
theorem Verdict.ne_discontinuity {v : Except Failure LinkReport} (h : Verdict parent bs n v)
    (expected found : Number) : v ≠ .error (.brokenChain (.discontinuity expected found)) := by
  rintro rfl
  cases h with
  | fails i b f hi hb hbefore hflaw => cases hflaw

end
end Links

/-! ## Caches that can be read -/

namespace Cache

/-- Every row of the cache can be read. -/
def Legible (c : Cache) : Prop := ∀ r ∈ c.readings, r.2.isOk = true

instance (c : Cache) : Decidable c.Legible :=
  inferInstanceAs (Decidable (∀ r ∈ c.readings, r.2.isOk = true))

/-- The blocks above a tip, in the order of their heights; all of them when there is none. -/
def heldAbove (c : Cache) (tip : Option ChainTip) : List Block :=
  match tip with
  | some t => c.held.filter fun b => decide (t.height < b.height)
  | none => c.held

variable {c : Cache}

theorem walkOf_of_isOk {rs : List Reading} (h : ∀ r ∈ rs, r.2.isOk = true) :
    walkOf rs = ⟨rs.filterMap fun r => r.2.toOption, none⟩ := by
  induction rs with
  | nil => rfl
  | cons r rs ih =>
      obtain ⟨k, result⟩ := r
      cases result with
      | error e => cases h (k, .error e) List.mem_cons_self
      | ok b =>
          have hrest := ih fun r hr => h r (List.mem_cons_of_mem _ hr)
          show (walkOf rs).cons b = _
          rw [hrest]
          rfl

theorem filterMap_readingsAbove (c : Cache) (height : Number) :
    ((c.readingsAbove height).filterMap fun r => r.2.toOption) =
      c.held.filter fun b => decide (height < b.height) := by
  rw [readingsAbove, held, List.filterMap_filter, List.filter_filterMap]
  refine List.filterMap_congr fun r hr => ?_
  obtain ⟨k, result⟩ := r
  cases result with
  | error e =>
      show (if _ then none else none) = _
      exact ite_self none
  | ok b =>
      show (if _ then some b else none) = (some b).filter _
      rw [Option.filter_some, (height_of_reading hr).1]

/-- The blocks that a validation goes through. -/
theorem blocks_of_legible (h : c.Legible) (tip : Option ChainTip) :
    c.blocks (tip.map (·.height)) none = ⟨c.heldAbove tip, none⟩ := by
  have hread (height : Number) : ∀ r ∈ c.readingsAbove height, r.2.isOk = true :=
    fun r hr => h r (List.mem_filter.1 hr).1
  rw [blocks_eq, walkOf_of_isOk (hread _), filterMap_readingsAbove]
  cases tip with
  | some t => rfl
  | none =>
      -- no block stands below zero
      have hall : (c.held.filter fun b => decide (Keyed.beforeAll < b.height)) = c.held := by
        refine List.filter_eq_self.2 fun b hb => decide_eq_true ?_
        obtain ⟨k, hk⟩ := mem_held.1 hb
        have hword := (word_of_reading hk).1
        rw [(height_of_reading hk).1]
        exact Number.int_lt_int.2 (show (-1 : Int) < k by omega)
      exact congrArg (Walk.mk · none) hall

theorem heldAbove_sublist (c : Cache) (tip : Option ChainTip) :
    (c.heldAbove tip).Sublist c.held := by
  cases tip with
  | some t => exact List.filter_sublist
  | none => exact List.Sublist.refl _

theorem sorted_heldAbove (c : Cache) (tip : Option ChainTip) :
    (c.heldAbove tip).Pairwise fun b b' => b.height < b'.height := by
  refine List.Pairwise.sublist (c.heldAbove_sublist tip) (List.pairwise_filterMap.2 ?_)
  refine c.sorted_readings.imp_of_mem fun {r r'} hr hr' hlt b hb b' hb' => ?_
  have hb : (r.1, Except.ok b) ∈ c.readings := Except.toOption_eq_some.1 hb ▸ hr
  have hb' : (r'.1, Except.ok b') ∈ c.readings := Except.toOption_eq_some.1 hb' ▸ hr'
  rw [(height_of_reading hb).1, (height_of_reading hb').1]
  exact Number.int_lt_int.2 hlt

theorem placed_heldAbove (c : Cache) (tip : Option ChainTip) : Links.Placed (c.heldAbove tip) := by
  intro b hb
  obtain ⟨k, hk⟩ := mem_held.1 ((c.heldAbove_sublist tip).subset hb)
  exact ⟨k, height_of_reading hk⟩

end Cache

namespace Links

/-- What may follow a tip is a block at the first height of the run. -/
theorem fits_after {tip : Option ChainTip} {bs : List Block} (hplaced : Placed bs) {b : Block}
    (hb : bs.head? = some b) :
    fits (after tip) b = true ↔ ∃ k, firstHeight tip bs = some k ∧ b.height = .int k := by
  obtain ⟨k, hk, -⟩ := hplaced b (List.mem_of_mem_head? hb)
  cases tip with
  | some t =>
      show b.height.same (t.height + 1) = true ↔ ∃ k', (t.height + 1).toInt? = some k' ∧ _
      rw [hk, Number.int_same_add_one]
      simp
  | none =>
      have hfirst : firstHeight none bs = some k := by
        rw [firstHeight, hb]
        show b.height.toInt? = some k
        rw [hk]
        rfl
      exact iff_of_true rfl ⟨k, hfirst, hk⟩

/-- The verdict on a cache is the one on the run above the tip. -/
theorem check_of_isRun {c : Cache} {tip : Option ChainTip} {n : Nat} (h : c.Legible)
    (hrun : IsRun (firstHeight tip (c.heldAbove tip)) (c.heldAbove tip) n) :
    Verdict (tip.map (·.hash)) (c.heldAbove tip) n
      (check tip (c.blocks (tip.map (·.height)) none)) := by
  have hplaced := c.placed_heldAbove tip
  obtain ⟨v, hv, hfollow⟩ := follow_of_isRun (e := after tip) ⟨0, none⟩ hplaced hrun
    fun b hb => fits_after hplaced hb
  have hcheck : check tip (c.blocks (tip.map (·.height)) none) = v := by
    rw [Cache.blocks_of_legible h]
    show follow none (after tip) ⟨0, none⟩ (c.heldAbove tip) = v
    rw [hfollow]
    cases v with
    | error f => rfl
    | ok report =>
        show Except.ok (follows ⟨0, none⟩ report) = .ok report
        simp [follows]
  have hparent : (after tip).parent = tip.map (·.hash) := by cases tip <;> rfl
  rw [hcheck, ← hparent]
  exact hv

end Links

namespace Synchronizer

open Links

variable {τ : Type}

theorem checkLinks_eq (tip : Option ChainTip) (st : SyncState τ) :
    checkLinks tip st = Action.ofExcept (check tip (st.cache.blocks (tip.map (·.height)) none))
      { st with cache := st.cache.openCursor.closeCursor } := by
  show (Action.ofExcept (check tip (st.cache.blocks (tip.map (·.height)) none))).ensuring _ _ = _
  cases check tip (st.cache.blocks (tip.map (·.height)) none) <;> rfl

/-- **A validation finds the first flaw.** Where all rows of a cache can be read, the blocks above
the tip begin with a run, and validating them comes to the verdict on it: it passes with the length
of the run and the height of its last block, or fails with what is wrong with the first block that
is not sound. A gap is no failure, and nothing is changed. What lies behind the run does not matter:
a cache with the same run has the same verdict. -/
theorem checkLinks_of_legible (tip : Option ChainTip) (st : SyncState τ)
    (hlegible : st.cache.Legible) :
    ((st.cache.heldAbove tip).Pairwise fun b b' => b.height < b'.height) ∧
    ∃ n v, IsRun (firstHeight tip (st.cache.heldAbove tip)) (st.cache.heldAbove tip) n ∧
      Verdict (tip.map (·.hash)) (st.cache.heldAbove tip) n v ∧
      checkLinks tip st =
        Action.ofExcept v { st with cache := st.cache.openCursor.closeCursor } ∧
      (∀ expected found, v ≠ .error (.brokenChain (.discontinuity expected found))) ∧
      ∀ st' : SyncState τ, st'.cache.Legible →
        IsRun (firstHeight tip (st'.cache.heldAbove tip)) (st'.cache.heldAbove tip) n →
        (st'.cache.heldAbove tip).take n = (st.cache.heldAbove tip).take n →
        checkLinks tip st' =
          Action.ofExcept v { st' with cache := st'.cache.openCursor.closeCursor } := by
  obtain ⟨n, hrun⟩ := exists_isRun (firstHeight tip (st.cache.heldAbove tip))
    (st.cache.heldAbove tip)
  have hv := check_of_isRun hlegible hrun
  refine ⟨st.cache.sorted_heldAbove tip, n, _, hrun, hv, checkLinks_eq tip st,
    hv.ne_discontinuity, ?_⟩
  intro st' hlegible' hrun' hsame
  have hv' := (check_of_isRun hlegible' hrun').congr hsame
  rw [checkLinks_eq, hv'.unique hv]

/-! ### A run in front of a gap -/

/-- The cache holds a block that names its parent in its header, one that is linked to it, and one
behind a gap that is linked to nothing. -/
def headedState : SyncState Unit :=
  let header := List.replicate Block.parentOffset 0 ++ List.replicate Block.hashLength 1 ++
    List.replicate (Block.leastHeader - Block.parentOffset - Block.hashLength) 0
  let bs := [⟨1, 50, List.replicate Block.hashLength 2, [], 0, header, []⟩,
    linkedBlock 51 3 2 [], linkedBlock 53 5 4 []]
  SyncState.idle (Cache.inMemory ⟨bs.map rowOf, by decide +kernel⟩)
    (Wallet.unscanned Keyed.empty)

theorem checkLinks_headed :
    ∃ v, Verdict (some (List.replicate Block.hashLength 1))
        (headedState.cache.heldAbove (some ⟨49, List.replicate Block.hashLength 1⟩)) 2 v ∧
      checkLinks (some ⟨49, List.replicate Block.hashLength 1⟩) headedState =
        Action.ofExcept v
          { headedState with cache := headedState.cache.openCursor.closeCursor } := by
  have hreport : Action.value? (checkLinks (some ⟨49, List.replicate Block.hashLength 1⟩))
      headedState = some ⟨2, some 51⟩ := by
    decide +kernel
  obtain ⟨-, n, v, -, hv, hcheck, -⟩ := checkLinks_of_legible
    (some ⟨49, List.replicate Block.hashLength 1⟩) headedState (by decide +kernel)
  refine ⟨v, ?_, hcheck⟩
  rw [Action.value?, hcheck] at hreport
  cases hv with
  | passes hsound =>
      -- the report has the length of the run
      obtain ⟨rfl, -⟩ := LinkReport.mk.inj (Option.some.inj hreport)
      exact .passes hsound
  | fails => cases hreport

end Synchronizer
end LightSync
