import LightSync.Proofs.Store.Sum
import LightSync.Proofs.Wallet.Rewound
import Mathlib.Algebra.Order.BigOperators.Group.List
import Mathlib.Algebra.Order.Group.Nat

/-!
# Balances

Where the values of notes are whole numbers of zatoshis, a balance is the sum of some of them
(`balance_of_whole`, `balanceAt_of_whole`), and two balances compare as the notes do that count
towards them (`worth_mono`, `worth_or`).

Main statement: `verified_of_reachable`. The balance at an anchor grows with the anchor up to the
balance at the tip, and falls short of what a rewind to the anchor would leave by the notes whose
spends the rewind takes back.
-/

set_option autoImplicit false

namespace LightSync

/-- The value in zatoshis. -/
def WalletNote.zatoshis (n : WalletNote) : Nat := n.value.truncate.toNat

/-- Whether a note belongs to an account. -/
def WalletNote.isOf (account : Number) (n : WalletNote) : Bool := account.same (.int n.account)

/-- What the notes of an account that satisfy a condition are worth. -/
def worth (account : Number) (p : WalletNote → Bool) (notes : List WalletNote) : Nat :=
  ((notes.filter fun n => n.isOf account && p n).map (·.zatoshis)).sum

/-! ## Worth -/

section worth

variable {account : Number} {p q : WalletNote → Bool} {notes : List WalletNote}

theorem worth_cons (n : WalletNote) :
    worth account p (n :: notes) =
      (if n.isOf account && p n then n.zatoshis else 0) + worth account p notes := by
  unfold worth
  rw [List.filter_cons]
  split
  · rw [List.map_cons, List.sum_cons]
  · rw [Nat.zero_add]

theorem worth_mono (h : ∀ n ∈ notes, p n = true → q n = true) :
    worth account p notes ≤ worth account q notes := by
  induction notes with
  | nil => exact Nat.le_refl _
  | cons n notes ih =>
      have hrest := ih fun m hm => h m (List.mem_cons_of_mem n hm)
      have hn := h n List.mem_cons_self
      rw [worth_cons, worth_cons]
      by_cases hp : p n = true
      · simp [hp, hn hp]
        omega
      · simp [hp]
        omega

theorem worth_congr (h : ∀ n ∈ notes, p n = q n) :
    worth account p notes = worth account q notes :=
  Nat.le_antisymm (worth_mono fun n hn hp => h n hn ▸ hp) (worth_mono fun n hn hq => h n hn ▸ hq)

/-- Notes that satisfy one of two conditions, and never both, are worth what both kinds are. -/
theorem worth_or (h : ∀ n ∈ notes, p n = true → q n = false) :
    worth account (fun n => p n || q n) notes = worth account p notes + worth account q notes := by
  induction notes with
  | nil => rfl
  | cons n notes ih =>
      have hrest := ih fun m hm => h m (List.mem_cons_of_mem n hm)
      have hn := h n List.mem_cons_self
      rw [worth_cons, worth_cons, worth_cons, hrest]
      by_cases hp : p n = true
      · simp [hp, hn hp]
        omega
      · simp [hp]
        omega

theorem worth_eq_zero : worth account p notes = 0 ↔
    ∀ n ∈ notes, n.isOf account = true → p n = true → n.zatoshis = 0 := by
  induction notes with
  | nil => simp [worth]
  | cons n notes ih =>
      rw [worth_cons, Nat.add_eq_zero_iff, ih, List.forall_mem_cons]
      by_cases hn : (n.isOf account && p n) = true
      · simp_all
      · simp_all

theorem worth_map {f : WalletNote → WalletNote} (hf : ∀ n, (f n).account = n.account)
    (hv : ∀ n, (f n).value = n.value) :
    worth account p (notes.map f) = worth account (fun n => p (f n)) notes := by
  induction notes with
  | nil => rfl
  | cons n notes ih =>
      rw [List.map_cons, worth_cons, worth_cons, ih]
      simp [WalletNote.isOf, WalletNote.zatoshis, hf, hv]

theorem worth_filter :
    worth account p (notes.filter q) = worth account (fun n => q n && p n) notes := by
  unfold worth
  rw [List.filter_filter]
  congr 2
  exact List.filter_congr fun n _ => by
    show (n.isOf account && p n && q n) = (n.isOf account && (q n && p n))
    rw [Bool.and_assoc, Bool.and_comm (p n)]

end worth

/-! ## Balances as sums -/

namespace Wallet

/-- The values are whole numbers of zatoshis, each of them safe. -/
def Whole (w : Wallet) : Prop := ∀ n ∈ w.notes, ∃ v : Nat, n.value = .int v ∧ v ≤ Number.maxSafe

/-- What all notes are worth. -/
def total (w : Wallet) : Nat := (w.notes.map (·.zatoshis)).sum

section

variable {w : Wallet} {account : Number} {p : WalletNote → Bool}

theorem Whole.value_eq (h : w.Whole) {n : WalletNote} (hn : n ∈ w.notes) :
    n.value = .int n.zatoshis ∧ n.zatoshis ≤ Number.maxSafe := by
  obtain ⟨v, hv, hle⟩ := h n hn
  have hz : n.zatoshis = v := by rw [WalletNote.zatoshis, hv]; rfl
  rw [hz]
  exact ⟨hv, hle⟩

theorem worth_le_total : worth account p w.notes ≤ w.total := by
  unfold total
  induction w.notes with
  | nil => exact Nat.le_refl 0
  | cons n notes ih =>
      rw [worth_cons, List.map_cons, List.sum_cons]
      split <;> omega

/-- A value is not more than the total. -/
theorem whole_of_total (hnatural : ∀ n ∈ w.notes, ∃ v : Nat, n.value = .int v)
    (htotal : w.total ≤ Number.maxSafe) : w.Whole := by
  intro n hn
  obtain ⟨v, hv⟩ := hnatural n hn
  have hz : n.zatoshis = v := by rw [WalletNote.zatoshis, hv]; rfl
  have hle : n.zatoshis ≤ w.total := List.le_sum_of_mem (List.mem_map_of_mem hn)
  exact ⟨v, hv, by omega⟩

theorem sumUnspent_of_whole (h : w.Whole) :
    w.sumUnspent account p =
      if (worth account (fun n => isUnspent n && p n) w.notes : Int) < wordBound then
        .ok (Number.ofInt (worth account (fun n => isUnspent n && p n) w.notes))
      else .error .overflow := by
  have hcolumn : ((w.notes.filter fun n => account.same (.int n.account) && isUnspent n && p n).map
      (·.value)) = ((w.notes.filter fun n => n.isOf account && (isUnspent n && p n)).map
        (·.zatoshis)).map fun v : Nat => Number.int v := by
    rw [List.map_map]
    have hsame : (fun n : WalletNote => account.same (.int n.account) && isUnspent n && p n) =
        fun n => n.isOf account && (isUnspent n && p n) := by
      funext n
      rw [Bool.and_assoc]
      rfl
    rw [hsame]
    exact List.map_congr_left fun n hn => (h.value_eq (List.mem_filter.1 hn).1).1
  unfold sumUnspent
  rw [hcolumn, columnSum_of_naturals]
  · rfl
  · intro v hv
    obtain ⟨n, hn, rfl⟩ := List.mem_map.1 hv
    have hle := (h.value_eq (List.mem_filter.1 hn).1).2
    unfold Number.maxSafe Number.exactLimit at hle
    unfold wordBound
    omega

theorem balance_of_whole (h : w.Whole) (account : Number) :
    w.balance account =
      if (worth account isUnspent w.notes : Int) < wordBound then
        .ok (Number.ofInt (worth account isUnspent w.notes))
      else .error .overflow := by
  have hall : worth account (fun n => isUnspent n && true) w.notes =
      worth account isUnspent w.notes := worth_congr fun n _ => Bool.and_true _
  have hsum : w.sumUnspent account (fun _ => true) = _ := sumUnspent_of_whole h
  rwa [hall] at hsum

/-- Whether a note counts at an anchor. -/
def isVerified (anchor : Int) (n : WalletNote) : Bool := isUnspent n && decide (n.height ≤ anchor)

theorem balanceAt_of_whole (h : w.Whole) (account : Number) {anchor : Number} {i : Int}
    (hi : anchor.toInt? = some i) :
    w.balanceAt account anchor =
      if (worth account (isVerified i) w.notes : Int) < wordBound then
        .ok (Number.ofInt (worth account (isVerified i) w.notes))
      else .error .overflow := by
  have hall : worth account (fun n => isUnspent n && decide (Number.int n.height ≤ anchor))
      w.notes = worth account (isVerified i) w.notes :=
    worth_congr fun n _ => by simp [isVerified, Number.int_le_of_toInt? hi]
  have hsum : w.sumUnspent account (fun n => decide (Number.int n.height ≤ anchor)) = _ :=
    sumUnspent_of_whole h
  rwa [hall] at hsum

end

end Wallet

/-! ## Balances of a store -/

namespace WalletStore

/-- **The answer to a question for a balance**, where the notes that count are worth this much. It
is exact up to `2 ^ 53`, from there on the number nearest to it, and refused beyond 64 bits. -/
inductive Answers (operation : Operation) (worth : Nat) : Except Failure Number → Prop
  | exact (h : worth ≤ Number.exactLimit) : Answers operation worth (.ok (.int worth))
  | nearest (h : Number.exactLimit < worth) (hword : (worth : Int) < wordBound) :
      Answers operation worth (.ok (Number.nearest worth))
  | overflow (h : wordBound ≤ (worth : Int)) :
      Answers operation worth (.error (.storage operation (.store .overflow)))

section

variable {s : WalletStore}

theorem answers_of_sum {operation : Operation} {worth : Nat} (sum : Except StoreFault Number) :
    (sum = if (worth : Int) < wordBound then .ok (Number.ofInt worth) else .error .overflow) →
      Answers operation worth (match sum with
        | .ok a => .ok a
        | .error fault => .error (.storage operation (.store fault))) := by
  intro hsum
  by_cases hword : (worth : Int) < wordBound
  · rw [if_pos hword] at hsum
    subst hsum
    dsimp only
    unfold Number.ofInt
    by_cases hexact : worth ≤ Number.exactLimit
    · rw [if_pos (by omega)]
      exact .exact hexact
    · rw [if_neg (by omega)]
      exact .nearest (by omega) hword
  · rw [if_neg hword] at hsum
    subst hsum
    exact .overflow (by omega)

theorem answers_balance (h : s.content.Whole) (account : Number) :
    Answers .readBalance (worth account Wallet.isUnspent s.content.notes) (s.balance account) :=
  answers_of_sum _ (Wallet.balance_of_whole h account)

theorem answers_balanceAt (h : s.content.Whole) (account : Number) {anchor : Number} {i : Int}
    (hi : anchor.toInt? = some i) :
    Answers .readBalanceAt (worth account (Wallet.isVerified i) s.content.notes)
      (s.balanceAt account anchor) :=
  answers_of_sum _ (Wallet.balanceAt_of_whole h account hi)

section

variable {operation : Operation} {worth : Nat} {answer : Except Failure Number}

theorem Answers.eq_exact (h : Answers operation worth answer) (hle : worth ≤ Number.exactLimit) :
    answer = .ok (.int worth) := by
  cases h with
  | exact _ => rfl
  | nearest h _ => omega
  | overflow h =>
      unfold wordBound at h
      unfold Number.exactLimit at hle
      omega

theorem Answers.eq_nearest (h : Answers operation worth answer) (hlt : Number.exactLimit < worth)
    (hword : (worth : Int) < wordBound) : answer = .ok (Number.nearest worth) := by
  cases h with
  | exact h => omega
  | nearest _ _ => rfl
  | overflow h => omega

end

end

end WalletStore

/-! ## Balances and rewinds -/

namespace Wallet

/-- Whether a note up to a height was spent above it. -/
def isSpentAcross (anchor : Int) (n : WalletNote) : Bool :=
  decide (n.height ≤ anchor) && n.spent.any fun s => decide (anchor < s.height)

variable {w w' : Wallet} {account : Number} {i : Int}

theorem RewoundTo.whole (h : RewoundTo i w w') (hw : w.Whole) : w'.Whole := by
  intro n hn
  rw [h.notes] at hn
  obtain ⟨m, hm, rfl⟩ := List.mem_map.1 hn
  exact hw m (List.mem_filter.1 hm).1

/-- What is unspent after a rewind was verified at the height before, or its spend is taken back. -/
theorem RewoundTo.worth_eq (h : RewoundTo i w w') :
    worth account isUnspent w'.notes =
      worth account (fun n => isVerified i n || isSpentAcross i n) w.notes := by
  have hunspent : ∀ n ∈ w.notes, (decide (n.height ≤ i) && isUnspent (n.spentUpTo i)) =
      (isVerified i n || isSpentAcross i n) := by
    intro n _
    unfold isUnspent WalletNote.spentUpTo isVerified isSpentAcross isUnspent
    cases hs : n.spent with
    | none => simp
    | some s =>
        by_cases hlt : i < s.height
        · simp [Option.filter_some, hlt, Int.not_le.2 hlt]
        · simp [Option.filter_some, hlt, Int.not_lt.1 hlt]
  calc worth account isUnspent w'.notes
    _ = worth account (fun n => isUnspent (n.spentUpTo i))
          (w.notes.filter fun n => decide (n.height ≤ i)) := by
        rw [h.notes, worth_map (f := WalletNote.spentUpTo i) (fun _ => rfl) fun _ => rfl]
    _ = worth account (fun n => isVerified i n || isSpentAcross i n) w.notes := by
        rw [worth_filter, worth_congr hunspent]

/-- From the tip on every unspent note counts. -/
theorem Coherent.worth_of_tip (h : w.Coherent) (htip : ∀ tip, w.tip? = some tip → tip.height ≤ i) :
    worth account (isVerified i) w.notes = worth account isUnspent w.notes := by
  refine worth_congr fun n hn => ?_
  have hin := h.heights n hn
  have hle : n.height ≤ i := by
    cases ht : w.tip? with
    | none => exact absurd hin (not_contains_of_tip?_eq_none ht n.height)
    | some tip => exact Int.le_trans (le_of_tip? ht hin) (htip tip ht)
  simp [isVerified, hle]

theorem isVerified_mono {j : Int} (hij : i ≤ j) {n : WalletNote} (hn : isVerified i n = true) :
    isVerified j n = true := by
  unfold isVerified at hn ⊢
  simp only [Bool.and_eq_true, decide_eq_true_eq] at hn ⊢
  exact ⟨hn.1, Int.le_trans hn.2 hij⟩

theorem isSpentAcross_iff {n : WalletNote} : isSpentAcross i n = true ↔
    n.height ≤ i ∧ ∃ spend, n.spent = some spend ∧ i < spend.height := by
  unfold isSpentAcross
  cases n.spent with
  | none => simp
  | some spend => simp

theorem worth_isSpentAcross_eq_zero : worth account (isSpentAcross i) w.notes = 0 ↔
    ¬ ∃ n ∈ w.notes, n.isOf account = true ∧ 0 < n.zatoshis ∧
      n.height ≤ i ∧ ∃ spend, n.spent = some spend ∧ i < spend.height := by
  rw [worth_eq_zero]
  constructor
  · rintro h ⟨n, hn, howner, hpos, hacross⟩
    exact Nat.ne_of_gt hpos (h n hn howner (isSpentAcross_iff.2 hacross))
  · intro h n hn howner hacross
    by_contra hne
    exact h ⟨n, hn, howner, Nat.pos_of_ne_zero hne, isSpentAcross_iff.1 hacross⟩

/-- A note that counts is not spent. -/
theorem worth_verified_or : worth account (fun n => isVerified i n || isSpentAcross i n) w.notes =
    worth account (isVerified i) w.notes + worth account (isSpentAcross i) w.notes := by
  refine worth_or fun n _ hn => ?_
  have hs : n.spent = none := by simpa [isVerified, isUnspent] using (Bool.and_eq_true_iff.1 hn).1
  simp [isSpentAcross, hs]

end Wallet

namespace WalletStore

open Wallet (isVerified isSpentAcross isUnspent)

/-- **How the balances of an account hang together.** Heights are integers. -/
structure Verified (account : Number) (s : WalletStore) : Prop where
  /-- The balance grows with the anchor. -/
  monotone : ∀ {g h : Number} {i j : Int}, g.toInt? = some i → h.toInt? = some j → i ≤ j →
    ∃ a b : Nat, s.balanceAt account g = .ok (.int a) ∧ s.balanceAt account h = .ok (.int b) ∧ a ≤ b
  /-- From the tip on every unspent note counts. -/
  atTip : ∀ {h : Number} {j : Int}, h.toInt? = some j →
    (∀ tip, s.content.tip? = some tip → tip.height ≤ j) →
    s.balanceAt account h = s.balance account
  /-- A rewind to the anchor leaves more, by what the notes are worth whose spends it takes back. -/
  rewound : ∀ {h : Number} {j : Int}, h.toInt? = some j →
    ∃ (before after : Nat) (report : Truncation) (s' : WalletStore),
      truncate h s = .ok report s' ∧ s.balanceAt account h = .ok (.int before) ∧
      s'.balance account = .ok (.int after) ∧
      after = before + worth account (isSpentAcross j) s.content.notes ∧ before ≤ after ∧
      (before = after ↔ ¬ ∃ n ∈ s.content.notes, n.isOf account = true ∧ 0 < n.zatoshis ∧
        n.height ≤ j ∧ ∃ spend, n.spent = some spend ∧ j < spend.height)

/-- **The balances of a wallet hang together**, whatever was added, committed and truncated before;
as long as its notes are whole numbers of zatoshis that come to a safe total. -/
theorem verified_of_reachable {s : WalletStore} (hs : Reachable s)
    (hnatural : ∀ n ∈ s.content.notes, ∃ v : Nat, n.value = .int v)
    (htotal : s.content.total ≤ Number.maxSafe) (account : Number) : Verified account s := by
  have hsettled := settled_of_reachable hs
  have hwhole := Wallet.whole_of_total hnatural htotal
  -- no sum of notes is more than the total, so every answer is exact
  have hexact {p : WalletNote → Bool} :
      worth account p s.content.notes ≤ Number.exactLimit := by
    have hle : worth account p s.content.notes ≤ s.content.total := Wallet.worth_le_total
    unfold Number.maxSafe at htotal
    omega
  have hat {h : Number} {j : Int} (hj : h.toInt? = some j) :
      s.balanceAt account h = .ok (.int (worth account (isVerified j) s.content.notes)) :=
    (answers_balanceAt hwhole account hj).eq_exact hexact
  constructor
  case monotone =>
    intro g h i j hi hj hij
    exact ⟨_, _, hat hi, hat hj, worth_mono fun n _ => Wallet.isVerified_mono hij⟩
  case atTip =>
    intro h j hj htip
    rw [hat hj, hsettled.coherent.worth_of_tip htip]
    exact ((answers_balance hwhole account).eq_exact hexact).symm
  case rewound =>
    intro h j hj
    obtain ⟨s', hs', hcontent, -⟩ := truncate_of_atRest h hsettled.rest
    have hcut := hsettled.coherent.rewoundTo_cut hj
    rw [← hcontent] at hcut
    have hworth : worth account isUnspent s'.content.notes = _ := hcut.worth_eq
    have hafter := (answers_balance (hcut.whole hwhole) account).eq_exact (hworth ▸ hexact)
    rw [Wallet.worth_verified_or] at hworth
    refine ⟨_, _, _, s', hs', hat hj, hafter, hworth, by omega, ?_⟩
    -- the two balances differ by what the rewind takes back
    rw [← Wallet.worth_isSpentAcross_eq_zero]
    omega

theorem verified_of_reachable_reorganized :
    Reachable reorganized ∧
      (∀ n ∈ reorganized.content.notes, ∃ v : Nat, n.value = .int v) ∧
      reorganized.content.total ≤ Number.maxSafe ∧ Verified 0 reorganized := by
  have hvalues : reorganized.content.notes.map (·.value) = [.int 5, .int 5] := by decide +kernel
  have hnatural : ∀ n ∈ reorganized.content.notes, ∃ v : Nat, n.value = .int v := by
    intro n hn
    have hmem : n.value ∈ reorganized.content.notes.map (·.value) := List.mem_map_of_mem hn
    rw [hvalues] at hmem
    exact ⟨5, by simpa using hmem⟩
  have htotal : reorganized.content.total ≤ Number.maxSafe := by decide +kernel
  exact ⟨reachable_reorganized, hnatural, htotal,
    verified_of_reachable reachable_reorganized hnatural htotal 0⟩

end WalletStore
end LightSync
