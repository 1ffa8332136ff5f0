import LightSync.Store.Sum
import Mathlib.Algebra.BigOperators.Group.List.Basic
import Mathlib.Algebra.GroupWithZero.Nat

/-!
# Exact sums

A column of natural numbers of 64 bits is summed exactly: the sum is the number nearest to the total
as long as that has 64 bits, too, and is refused from there on (`columnSum_of_naturals`).
-/

set_option autoImplicit false

namespace LightSync

theorem keptInt?_natural {v : Nat} (h : (v : Int) < wordBound) :
    (Number.int v).keptInt? = some (v : Int) := by
  have hlow : -wordBound < (v : Int) := by
    unfold wordBound
    omega
  simp [Number.keptInt?, Number.toInt?, h, hlow]

theorem fitsWord_natural (n : Nat) : fitsWord (n : Int) = decide ((n : Int) < wordBound) := by
  have hlow : -wordBound ≤ (n : Int) := by
    unfold wordBound
    omega
  simp [fitsWord, hlow]

namespace ColumnSum

variable {column : List Nat} {a : Number} {n total : Int}

theorem add_exact (ha : a.keptInt? = some n) (hfits : fitsWord (total + n) = true) :
    (exact total).add a = exact (total + n) := by
  unfold add
  rw [ha]
  exact if_pos hfits

theorem add_exact_over (ha : a.keptInt? = some n) (hover : fitsWord (total + n) = false) :
    ∃ t e, (exact total).add a = rounded t e true := by
  unfold add
  rw [ha]
  dsimp only
  rw [if_neg (by simp [hover])]
  exact ⟨_, _, rfl⟩

theorem add_rounded (ha : a.keptInt? = some n) (total error : Number) :
    ∃ t e, (rounded total error true).add a = rounded t e true := by
  unfold add
  rw [ha]
  exact ⟨_, _, rfl⟩

/-- What was out of range stays so, whatever integers come later. -/
theorem result_rounded (hword : ∀ v ∈ column, (v : Int) < wordBound) (total error : Number) :
    ((column.map fun v : Nat => Number.int v).foldl add (.rounded total error true)).result =
      .error .overflow := by
  induction column generalizing total error with
  | nil => rfl
  | cons v column ih =>
      obtain ⟨t, e, hadd⟩ := add_rounded (keptInt?_natural (hword v List.mem_cons_self)) total error
      rw [List.map_cons, List.foldl_cons, hadd]
      exact ih (fun u hu => hword u (List.mem_cons_of_mem v hu)) t e

theorem result_exact (hword : ∀ v ∈ column, (v : Int) < wordBound) (total : Nat)
    (htotal : (total : Int) < wordBound) :
    ((column.map fun v : Nat => Number.int v).foldl add (.exact total)).result =
      if ((total + column.sum : Nat) : Int) < wordBound then
        .ok (Number.ofInt (total + column.sum : Nat))
      else .error .overflow := by
  induction column generalizing total with
  | nil => simp [htotal, result]
  | cons v column ih =>
      have hv := keptInt?_natural (hword v List.mem_cons_self)
      have hfits := fitsWord_natural (total + v)
      have hrest := fun u hu => hword u (List.mem_cons_of_mem v hu)
      have hsum : total + (v :: column).sum = (total + v) + column.sum := by
        rw [List.sum_cons, Nat.add_assoc]
      rw [List.map_cons, List.foldl_cons, hsum]
      rw [Int.natCast_add] at hfits
      by_cases hword : ((total + v : Nat) : Int) < wordBound
      · rw [add_exact hv (hfits.trans (decide_eq_true hword)), ← Int.natCast_add]
        exact ih hrest (total + v) hword
      · -- the total of all is still greater
        have hover : ¬ ((total + v + column.sum : Nat) : Int) < wordBound := by omega
        obtain ⟨t, e, hadd⟩ := add_exact_over hv (hfits.trans (decide_eq_false hword))
        rw [hadd, if_neg hover]
        exact result_rounded hrest t e

end ColumnSum

/-- **Natural numbers are summed exactly or not at all**, up to the rounding of their total. -/
theorem columnSum_of_naturals {column : List Nat} (hword : ∀ v ∈ column, (v : Int) < wordBound) :
    columnSum (column.map fun v : Nat => Number.int v) =
      if (column.sum : Int) < wordBound then .ok (Number.ofInt column.sum)
      else .error .overflow := by
  have hzero : ((0 : Nat) : Int) < wordBound := by decide
  have h := ColumnSum.result_exact hword 0 hzero
  rwa [Nat.zero_add] at h

end LightSync
