import LightSync.Proofs.Number.Integers
import Mathlib.Data.Rat.Lemmas

/-!
# The grid of the numbers

Every finite number is a multiple of the least one, `2 ^ -1074`, and a column keeps no negative
zero. Counting by ones does not leave these numbers (`onGrid_add_one`): the sum is rounded to a
multiple again, and a multiple that is not zero is not rounded to zero.
-/

set_option autoImplicit false

namespace LightSync
namespace Number

/-- A multiple of the least number. -/
def OfGrid (q : Rat) : Prop := ∃ k ≤ 1074, q.den ∣ 2 ^ k

/-- A number as a column may keep it: a fraction is a multiple of the least number, and there is
one zero. -/
inductive OnGrid : Number → Prop where
  | int (n : Int) : OnGrid (.int n)
  | fraction {q : Rat} (h : OfGrid q) : OnGrid (.fraction q)
  | infinite (negative : Bool) : OnGrid (.infinite negative)
  | nan : OnGrid .nan

theorem kept_of_onGrid {a : Number} (h : a.OnGrid) : a.kept = a := by
  cases h with
  | _ => rfl

theorem onGrid_ofInt (z : Int) : (ofInt z).OnGrid := by
  rcases ofInt_cases z with ⟨negative, h⟩ | ⟨n, h⟩
  · rw [h]
    exact .infinite negative
  · rw [h]
    exact .int n

theorem onGrid_ofExact {q : Rat} (h : OfGrid q) : (ofExact q).OnGrid := by
  unfold ofExact
  split
  · exact .int _
  · exact .fraction h

/-! ## Rounding -/

theorem le_lastPlace (q : Rat) : -1074 ≤ lastPlace q := by
  unfold lastPlace
  exact Int.le_max_left _ _

/-- The last place is the least one, or lies 52 bits below the first. -/
theorem lastPlace_le (q : Rat) :
    lastPlace q = -1074 ∨
      lastPlace q ≤ (q.num.natAbs.log2 : Int) - (q.den.log2 : Int) - 52 := by
  unfold lastPlace
  dsimp only
  split <;> omega

/-- A multiple of the least number that is not zero has a significand. -/
theorem den_le_num_of_scaled {q : Rat} (hgrid : OfGrid q) (hq : q.num ≠ 0) :
    (scaled q (lastPlace q)).2 ≤ (scaled q (lastPlace q)).1 := by
  obtain ⟨k, hk, hdvd⟩ := hgrid
  have hnum : q.num.natAbs ≠ 0 := Int.natAbs_ne_zero.2 hq
  generalize he : lastPlace q = e
  show q.den <<< e.toNat ≤ q.num.natAbs <<< (-e).toNat
  rw [Nat.shiftLeft_eq, Nat.shiftLeft_eq]
  rcases lastPlace_le q with hleast | hplace
  · rw [he] at hleast
    calc q.den * 2 ^ e.toNat
      _ = q.den := by rw [show e.toNat = 0 by omega, Nat.pow_zero, Nat.mul_one]
      _ ≤ 2 ^ k := Nat.le_of_dvd (Nat.two_pow_pos _) hdvd
      _ ≤ 2 ^ (-e).toNat := Nat.pow_le_pow_right (by decide) (by omega)
      _ ≤ q.num.natAbs * 2 ^ (-e).toNat := Nat.le_mul_of_pos_left _ (Nat.pos_of_ne_zero hnum)
  · -- the highest bits of the two are that far apart
    have hlog : q.den.log2 + 1 + e.toNat ≤ q.num.natAbs.log2 + (-e).toNat := by
      rw [he] at hplace
      omega
    calc q.den * 2 ^ e.toNat
      _ ≤ 2 ^ (q.den.log2 + 1) * 2 ^ e.toNat :=
          Nat.mul_le_mul_right _ (Nat.le_of_lt Nat.lt_log2_self)
      _ ≤ 2 ^ q.num.natAbs.log2 * 2 ^ (-e).toNat := by
          rw [← Nat.pow_add, ← Nat.pow_add]
          exact Nat.pow_le_pow_right (by decide) hlog
      _ ≤ q.num.natAbs * 2 ^ (-e).toNat := Nat.mul_le_mul_right _ (Nat.log2_self_le hnum)

/-- Rounding a multiple of the least number gives a multiple again. -/
theorem onGrid_nearest {q : Rat} (hgrid : OfGrid q) : (nearest q).OnGrid := by
  have hleast := le_lastPlace q
  have hmultiple (n : Int) : OfGrid (mkRat n (1 <<< (-lastPlace q).toNat)) := by
    refine ⟨(-lastPlace q).toNat, by omega, ?_⟩
    rw [Rat.mkRat_eq_divInt, Nat.one_shiftLeft]
    exact Int.natCast_dvd_natCast.1 (Rat.den_dvd _ _)
  generalize hn : nearest q = a
  simp only [nearest] at hn
  split at hn
  · rename_i hzero
    split at hn
    · -- a negative number is not rounded to zero
      rename_i hneg
      have hle := den_le_num_of_scaled hgrid (Int.ne_of_lt hneg)
      have hpos : 0 < (scaled q (lastPlace q)).2 := by
        show 0 < q.den <<< _
        rw [Nat.shiftLeft_eq]
        exact Nat.mul_pos q.den_pos (Nat.two_pow_pos _)
      have hone := Nat.le_trans (Nat.div_pos hle hpos) (le_roundDiv _ _)
      rw [hzero] at hone
      exact absurd hone (by decide)
    · rw [← hn]
      exact .int 0
  · split at hn
    · rw [← hn]
      exact .infinite _
    · rw [← hn]
      refine onGrid_ofExact ?_
      split
      · obtain ⟨k, hk, hdvd⟩ := hmultiple (roundDiv (scaled q (lastPlace q)).1
          (scaled q (lastPlace q)).2 <<< (lastPlace q).toNat : Nat)
        exact ⟨k, hk, by rwa [Rat.neg_den]⟩
      · exact hmultiple _

theorem ofGrid_add_one {q : Rat} (h : OfGrid q) : OfGrid (q + ((1 : Int) : Rat)) := by
  obtain ⟨k, hk, hdvd⟩ := h
  have hden : (q + ((1 : Int) : Rat)).den ∣ q.den * ((1 : Int) : Rat).den := Rat.add_den_dvd _ _
  exact ⟨k, hk, Nat.dvd_trans hden (by simpa using hdvd)⟩

/-- Counting by ones stays on the grid. -/
theorem onGrid_add_one {a : Number} (h : a.OnGrid) : (a + 1).OnGrid := by
  cases h with
  | int n => exact onGrid_ofInt _
  | @fraction q h =>
      have hsum : (Number.fraction q).add (.int 1) = nearest (q + ((1 : Int) : Rat)) := by
        simp only [add, toRat?]
      show ((Number.fraction q).add (.int 1)).OnGrid
      rw [hsum]
      exact onGrid_nearest (ofGrid_add_one h)
  | infinite negative => exact .infinite negative
  | nan => exact .nan

end Number
end LightSync
