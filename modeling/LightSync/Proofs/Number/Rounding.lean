import LightSync.Proofs.Number.Integers

/-!
# Rounding keeps the order

Heights are small, but the depths that are taken from them may be any integer that is a number, so
that a difference may have to be rounded. Rounding an integer never turns an order around
(`not_ofInt_lt_ofInt`), so that a rounded integer lies to the small ones as the exact one does
(`rounded_lt_iff`, `ofInt_le_int`, `int_lt_ofInt`), and the difference of two natural numbers is a
number (`ofInt_sub`).
-/

set_option autoImplicit false

namespace LightSync
namespace Number

/-! ## Magnitudes -/

theorem roundDiv_le (num den : Nat) : roundDiv num den ≤ num / den + 1 := by
  unfold roundDiv
  dsimp only
  split
  · exact Nat.le_succ _
  · split
    · exact Nat.le_refl _
    · split
      · exact Nat.le_succ _
      · exact Nat.le_refl _

theorem roundDiv_mono {a b : Nat} (h : a ≤ b) (den : Nat) : roundDiv a den ≤ roundDiv b den := by
  rcases Nat.lt_or_ge (a / den) (b / den) with hlt | hge
  · calc roundDiv a den
      _ ≤ a / den + 1 := roundDiv_le a den
      _ ≤ b / den := hlt
      _ ≤ roundDiv b den := le_roundDiv b den
  · -- the quotients are the same, so the remainders are in order
    have hq : a / den = b / den := Nat.le_antisymm (Nat.div_le_div_right h) hge
    have hr : a % den ≤ b % den := by
      have ha := Nat.div_add_mod a den
      have hb := Nat.div_add_mod b den
      rw [hq] at ha
      omega
    unfold roundDiv
    dsimp only
    rw [hq]
    by_cases hdown : 2 * (a % den) < den
    · rw [if_pos hdown]
      exact le_roundDiv b den
    rw [if_neg hdown, if_neg (show ¬ 2 * (b % den) < den by omega)]
    by_cases hup : den < 2 * (a % den)
    · refine Nat.le_of_eq ?_
      rw [if_pos hup, if_pos (show den < 2 * (b % den) by omega)]
    rw [if_neg hup]
    -- a half, which may be rounded either way
    by_cases hup' : den < 2 * (b % den)
    · rw [if_pos hup']
      split <;> omega
    · refine Nat.le_of_eq ?_
      rw [if_neg hup']

/-- Rounding up comes at most to the next power of two. -/
theorem roundedNat_le_nextBit {m : Nat} (h : exactLimit < m) :
    roundedNat m ≤ 1 <<< (m.log2 + 1) := by
  obtain ⟨-, hL⟩ := log2_far h
  rw [Nat.one_shiftLeft]
  have hpow : 2 ^ (m.log2 + 1) = 2 ^ 53 * 2 ^ (m.log2 - 52) := by
    rw [← Nat.pow_add]
    congr 1
    omega
  have hsig : roundDiv m (2 ^ (m.log2 - 52)) ≤ 2 ^ 53 := by
    refine Nat.le_trans (roundDiv_le _ _) ?_
    refine (Nat.div_lt_iff_lt_mul (Nat.two_pow_pos _)).2 ?_
    rw [← hpow]
    exact Nat.lt_log2_self
  rw [roundedNat, if_neg (Nat.not_le.2 h), Nat.shiftLeft_eq, Nat.shiftLeft_eq, Nat.one_mul, hpow]
  exact Nat.mul_le_mul_right _ hsig

theorem roundedNat_mono {a b : Nat} (h : a ≤ b) : roundedNat a ≤ roundedNat b := by
  rcases Nat.lt_or_ge exactLimit a with ha | ha
  · have hb : exactLimit < b := Nat.lt_of_lt_of_le ha h
    have hL : a.log2 ≤ b.log2 :=
      (Nat.le_log2 (log2_far hb).1).2 (Nat.le_trans (Nat.log2_self_le (log2_far ha).1) h)
    rcases Nat.lt_or_eq_of_le hL with hL | hL
    · -- a power of two lies between them
      calc roundedNat a
        _ ≤ 1 <<< (a.log2 + 1) := roundedNat_le_nextBit ha
        _ ≤ 1 <<< b.log2 := shiftLeft_le_shiftLeft hL
        _ ≤ roundedNat b := highestBit_le_roundedNat hb
    · rw [roundedNat, roundedNat, if_neg (Nat.not_le.2 ha), if_neg (Nat.not_le.2 hb), hL,
        Nat.shiftLeft_eq, Nat.shiftLeft_eq (roundDiv b _)]
      exact Nat.mul_le_mul_right _ (roundDiv_mono h _)
  · rw [show roundedNat a = a by rw [roundedNat, if_pos ha]]
    rcases Nat.lt_or_ge exactLimit b with hb | hb
    · exact Nat.le_trans ha (exactLimit_le_roundedNat hb)
    · rw [roundedNat, if_pos hb]
      exact h

/-! ## Integers -/

/-- The integer that rounding an integer aims at, however great. -/
def rounded (z : Int) : Int := if z < 0 then -(roundedNat z.natAbs : Int) else roundedNat z.natAbs

theorem natAbs_rounded (z : Int) : (rounded z).natAbs = roundedNat z.natAbs := by
  unfold rounded
  split <;> omega

theorem rounded_mono {a b : Int} (h : a ≤ b) : rounded a ≤ rounded b := by
  unfold rounded
  split
  · split
    · have := roundedNat_mono (show b.natAbs ≤ a.natAbs by omega)
      omega
    · omega
  · rw [if_neg (show ¬ b < 0 by omega)]
    have := roundedNat_mono (show a.natAbs ≤ b.natAbs by omega)
    omega

theorem rounded_of_le {z : Int} (h : z.natAbs ≤ exactLimit) : rounded z = z := by
  rw [rounded, roundedNat, if_pos h]
  split <;> omega

/-- The first magnitude that is no finite number. -/
def overflow : Nat := 1 <<< 1024

theorem exactLimit_lt_overflow : exactLimit < overflow := by decide

/-- A rounded integer is the integer that was aimed at, or an infinity. -/
theorem ofInt_eq (z : Int) :
    ofInt z = if (rounded z).natAbs < overflow then .int (rounded z) else .infinite (z < 0) := by
  rw [natAbs_rounded]
  rcases Nat.lt_or_ge exactLimit z.natAbs with hz | hz
  · rw [ofInt, if_neg (Nat.not_le.2 hz), nearest_eq hz]
    rcases Nat.lt_or_ge (roundedNat z.natAbs) overflow with hbig | hbig
    · rw [if_pos hbig]
      exact if_neg (Nat.not_le.2 hbig)
    · rw [if_neg (Nat.not_lt.2 hbig)]
      exact if_pos hbig
  · have hsmall : roundedNat z.natAbs < overflow := by
      rw [roundedNat, if_pos hz]
      exact Nat.lt_of_le_of_lt hz exactLimit_lt_overflow
    rw [if_pos hsmall, rounded_of_le hz, ofInt_of_le hz]

/-- An infinity lies far on the side of the integer. -/
theorem rounded_of_overflow {z : Int} (h : ¬ (rounded z).natAbs < overflow) :
    z < 0 ∧ rounded z ≤ -overflow ∨ ¬ z < 0 ∧ overflow ≤ rounded z := by
  unfold rounded at h ⊢
  split at h
  · rename_i hz
    rw [if_pos hz]
    exact Or.inl ⟨hz, by omega⟩
  · rename_i hz
    rw [if_neg hz]
    exact Or.inr ⟨hz, by omega⟩

theorem ofInt_rounded (z : Int) : ofInt z = .int (rounded z) ∨
    ofInt z = .infinite true ∧ rounded z ≤ -overflow ∨
    ofInt z = .infinite false ∧ overflow ≤ rounded z := by
  rw [ofInt_eq]
  split
  · exact Or.inl rfl
  · rename_i hbig
    rcases rounded_of_overflow hbig with ⟨hneg, hlow⟩ | ⟨hpos, hhigh⟩
    · exact Or.inr (Or.inl ⟨by rw [decide_eq_true hneg], hlow⟩)
    · exact Or.inr (Or.inr ⟨by rw [decide_eq_false hpos], hhigh⟩)

theorem ofInt_of_isInteger {z : Int} (h : (ofInt z).isInteger = true) :
    ofInt z = .int (rounded z) := by
  rcases ofInt_rounded z with hz | ⟨hz, -⟩ | ⟨hz, -⟩
  · exact hz
  · rw [hz] at h
    cases h
  · rw [hz] at h
    cases h

/-! ## Order -/

/-- Rounding does not turn an order around. -/
theorem not_ofInt_lt_ofInt {a b : Int} (h : a ≤ b) : ¬ ofInt b < ofInt a := by
  have hle := rounded_mono h
  rw [ofInt_eq, ofInt_eq]
  split
  · split
    · rw [int_lt_int]
      omega
    · rename_i hb ha
      -- `a` overflows downwards, since `b` does not overflow
      have hneg : a < 0 := by
        rcases rounded_of_overflow ha with ⟨hneg, -⟩ | ⟨-, hpos⟩
        · exact hneg
        · omega
      rw [decide_eq_true hneg]
      exact Bool.false_ne_true
  · rename_i hb
    rcases rounded_of_overflow hb with ⟨hneg, hlow⟩ | ⟨hpos, -⟩
    · have ha : ¬ (rounded a).natAbs < overflow := by omega
      rw [if_neg ha, decide_eq_true hneg, decide_eq_true (show a < 0 by omega)]
      exact Bool.false_ne_true
    · rw [decide_eq_false hpos]
      split
      · exact Bool.false_ne_true
      · exact Bool.false_ne_true

section

variable {z k : Int}

theorem rounded_le_iff (hk : k.natAbs < exactLimit) : rounded z ≤ k ↔ z ≤ k := by
  constructor
  · intro h
    refine Int.not_lt.1 fun hlt => ?_
    have hnext := rounded_mono (show k + 1 ≤ z from hlt)
    rw [rounded_of_le (show (k + 1).natAbs ≤ exactLimit by omega)] at hnext
    omega
  · intro h
    have hle := rounded_mono h
    rwa [rounded_of_le (Nat.le_of_lt hk)] at hle

theorem rounded_lt_iff (hk : k.natAbs < exactLimit) : rounded z < k ↔ z < k := by
  constructor
  · intro h
    refine Int.not_le.1 fun hle => ?_
    have hle' := rounded_mono hle
    rw [rounded_of_le (Nat.le_of_lt hk)] at hle'
    omega
  · intro h
    have hle := rounded_mono (show z ≤ k - 1 by omega)
    rw [rounded_of_le (show (k - 1).natAbs ≤ exactLimit by omega)] at hle
    omega

/-- A rounded integer is at most a small one if the exact one is. -/
theorem ofInt_le_int (hk : k.natAbs < exactLimit) : ofInt z ≤ .int k ↔ z ≤ k := by
  rw [← rounded_le_iff hk]
  have hover := exactLimit_lt_overflow
  rcases ofInt_rounded z with h | ⟨h, hlow⟩ | ⟨h, hhigh⟩
  · rw [h, int_le_int]
  · rw [h]
    exact iff_of_true rfl (by omega)
  · rw [h]
    exact iff_of_false Bool.false_ne_true (by omega)

theorem ofInt_lt_int (hk : k.natAbs < exactLimit) : ofInt z < .int k ↔ z < k := by
  rw [← rounded_lt_iff hk]
  have hover := exactLimit_lt_overflow
  rcases ofInt_rounded z with h | ⟨h, hlow⟩ | ⟨h, hhigh⟩
  · rw [h, int_lt_int]
  · rw [h]
    exact iff_of_true rfl (by omega)
  · rw [h]
    exact iff_of_false Bool.false_ne_true (by omega)

theorem int_lt_ofInt (hk : k.natAbs < exactLimit) : .int k < ofInt z ↔ k < z := by
  rw [← Int.not_le, ← rounded_le_iff hk]
  have hover := exactLimit_lt_overflow
  rcases ofInt_rounded z with h | ⟨h, hlow⟩ | ⟨h, hhigh⟩
  · rw [h, int_lt_int, Int.not_le]
  · rw [h]
    exact iff_of_false Bool.false_ne_true (by omega)
  · rw [h]
    exact iff_of_true rfl (by omega)

/-- Integers on two sides of a small one are told apart. -/
theorem ofInt_lt_ofInt {a b : Int} (hk : k.natAbs < exactLimit) (ha : a < k) (hb : k ≤ b) :
    ofInt a < ofInt b := by
  have hlow := (rounded_lt_iff hk).2 ha
  have hhigh := rounded_mono hb
  rw [rounded_of_le (Nat.le_of_lt hk)] at hhigh
  have hover := exactLimit_lt_overflow
  rcases ofInt_rounded a with h | ⟨h, -⟩ | ⟨-, hfar⟩
  · rw [h]
    rcases ofInt_rounded b with h | ⟨-, hfar⟩ | ⟨h, -⟩
    · rw [h, int_lt_int]
      omega
    · omega
    · rw [h]
      rfl
  · rw [h]
    rcases ofInt_rounded b with h | ⟨-, hfar⟩ | ⟨h, -⟩
    · rw [h]
      rfl
    · omega
    · rw [h]
      rfl
  · omega

/-- The predecessor of a rounded integer lies below a small one if the exact predecessor does. -/
theorem ofInt_sub_one_lt_int (hk : k.natAbs < exactLimit) : ofInt z - 1 < .int k ↔ z ≤ k := by
  rw [← rounded_le_iff hk]
  have hover := exactLimit_lt_overflow
  rcases ofInt_rounded z with h | ⟨h, hlow⟩ | ⟨h, hhigh⟩
  · have hsub : Number.int (rounded z) - 1 = ofInt (rounded z - 1) := rfl
    rw [h, hsub, ofInt_lt_int hk]
    omega
  · rw [h]
    exact iff_of_true rfl (by omega)
  · rw [h]
    exact iff_of_false Bool.false_ne_true (by omega)

/-- The difference of a small natural number and of one that is a number is one as well. -/
theorem ofInt_sub {n d : Int} (hn : 0 ≤ n) (hsmall : n.natAbs ≤ exactLimit) (hd : 0 ≤ d)
    (hnumber : ofInt d = .int d) : ofInt (n - d) = .int (rounded (n - d)) := by
  have hfinite : (rounded d).natAbs < overflow := by
    refine Classical.byContradiction fun h => ?_
    rw [ofInt_eq, if_neg h] at hnumber
    cases hnumber
  rw [ofInt_eq, if_pos]
  rw [natAbs_rounded] at hfinite ⊢
  rcases Int.le_total n d with h | h
  · exact Nat.lt_of_le_of_lt (roundedNat_mono (show (n - d).natAbs ≤ d.natAbs by omega)) hfinite
  · have hle : (n - d).natAbs ≤ exactLimit := by omega
    rw [roundedNat, if_pos hle]
    exact Nat.lt_of_le_of_lt hle exactLimit_lt_overflow

end

end Number
end LightSync
