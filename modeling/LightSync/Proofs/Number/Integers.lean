import LightSync.Store.Database

/-!
# Integers among the numbers

Heights, positions and counts are integers, and most of them stay in the exact range. This file
has what is used about them: an integer outside the range stays outside when it is rounded
(`nearest_far`), so that a sum that is a small integer was exact (`ofInt_eq_int`); how any number
lies to the integers (`lt_int_of_le`, `int_le_of_not_lt`); what a column keeps (`kept`); and
counting by ones (`counted`).
-/

set_option autoImplicit false

namespace LightSync
namespace Number

theorem toInt?_eq_some {a : Number} {n : Int} :
    a.toInt? = some n ↔ a = .int n ∨ a = .negZero ∧ n = 0 := by
  cases a <;> simp [toInt?, eq_comm]

theorem ne_nan_of_toInt? {a : Number} {n : Int} (h : a.toInt? = some n) : a ≠ .nan := by
  rintro rfl
  cases h

/-! ## Rounding far from zero -/

theorem le_roundDiv (num den : Nat) : num / den ≤ roundDiv num den := by
  unfold roundDiv
  dsimp only
  split
  · exact Nat.le_refl _
  · split
    · exact Nat.le_succ _
    · split
      · exact Nat.le_refl _
      · exact Nat.le_succ _

/-- Beyond the exact range the last place of an integer is that of its 53 leading bits. -/
theorem lastPlace_far {z : Int} (h : exactLimit ≤ z.natAbs) :
    lastPlace z = ((z.natAbs.log2 - 52 : Nat) : Int) := by
  have hz : z.natAbs ≠ 0 := by unfold exactLimit at h; omega
  have hL : 53 ≤ z.natAbs.log2 := (Nat.le_log2 hz).2 h
  have hguess : ((z.natAbs.log2 : Int) - ((1 : Nat).log2 : Int) - 52)
      = ((z.natAbs.log2 - 52 : Nat) : Int) := by
    have : (1 : Nat).log2 = 0 := by decide
    omega
  have hlow : ¬ z.natAbs < 1 <<< (z.natAbs.log2 - 52) <<< 52 := by
    have : 1 <<< (z.natAbs.log2 - 52) <<< 52 = 2 ^ z.natAbs.log2 := by
      rw [Nat.shiftLeft_eq, Nat.shiftLeft_eq, Nat.one_mul, ← Nat.pow_add]
      congr 1
      omega
    rw [this, Nat.not_lt]
    exact Nat.log2_self_le hz
  have hneg : (-((z.natAbs.log2 - 52 : Nat) : Int)).toNat = 0 := by omega
  simp only [lastPlace, Rat.num_intCast, Rat.den_intCast, hguess, scaled, hneg,
    Nat.shiftLeft_zero, Int.toNat_natCast, hlow, if_false]
  omega

/-- What rounding makes of a magnitude: beyond the exact range its 53 leading bits stay. -/
def roundedNat (m : Nat) : Nat :=
  if m ≤ exactLimit then m else roundDiv m (1 <<< (m.log2 - 52)) <<< (m.log2 - 52)

theorem shiftLeft_le_shiftLeft {i j : Nat} (h : i ≤ j) : 1 <<< i ≤ 1 <<< j := by
  rw [Nat.one_shiftLeft, Nat.one_shiftLeft]
  exact Nat.pow_le_pow_right (by decide) h

theorem log2_far {m : Nat} (h : exactLimit < m) : m ≠ 0 ∧ 53 ≤ m.log2 := by
  have hm : m ≠ 0 := Nat.ne_of_gt (Nat.lt_trans (by decide) h)
  exact ⟨hm, (Nat.le_log2 hm).2 (Nat.le_of_lt h)⟩

/-- The highest bit stays. -/
theorem highestBit_le_roundedNat {m : Nat} (h : exactLimit < m) :
    1 <<< m.log2 ≤ roundedNat m := by
  obtain ⟨hm, hL⟩ := log2_far h
  rw [Nat.one_shiftLeft]
  have hpow : 2 ^ m.log2 = 2 ^ 52 * 2 ^ (m.log2 - 52) := by
    rw [← Nat.pow_add]
    congr 1
    omega
  have hsig : 2 ^ 52 ≤ roundDiv m (2 ^ (m.log2 - 52)) := by
    refine Nat.le_trans ?_ (le_roundDiv _ _)
    rw [Nat.le_div_iff_mul_le (Nat.two_pow_pos _), ← hpow]
    exact Nat.log2_self_le hm
  rw [roundedNat, if_neg (Nat.not_le.2 h), Nat.shiftLeft_eq, Nat.shiftLeft_eq, Nat.one_mul, hpow]
  exact Nat.mul_le_mul_right _ hsig

theorem exactLimit_le_roundedNat {m : Nat} (h : exactLimit < m) : exactLimit ≤ roundedNat m :=
  calc exactLimit
    _ = 1 <<< 53 := by decide
    _ ≤ 1 <<< m.log2 := shiftLeft_le_shiftLeft (log2_far h).2
    _ ≤ roundedNat m := highestBit_le_roundedNat h

/-- Rounding an integer is rounding its magnitude, which may become too great. -/
theorem nearest_eq {z : Int} (h : exactLimit < z.natAbs) :
    nearest z = if 1 <<< 1024 ≤ roundedNat z.natAbs then .infinite (z < 0)
      else .int (if z < 0 then -(roundedNat z.natAbs : Int) else roundedNat z.natAbs) := by
  have hbig := exactLimit_le_roundedNat h
  rw [roundedNat, if_neg (Nat.not_le.2 h)] at hbig ⊢
  generalize hk : z.natAbs.log2 - 52 = k at hbig
  have hneg : (-(k : Int)).toNat = 0 := by omega
  generalize hs : roundDiv z.natAbs (1 <<< k) = s at hbig
  have hs0 : s ≠ 0 := by
    rintro rfl
    rw [Nat.zero_shiftLeft] at hbig
    exact absurd hbig (by decide)
  simp only [nearest, lastPlace_far (Nat.le_of_lt h), hk, scaled, Rat.num_intCast, Rat.den_intCast,
    hneg, Nat.shiftLeft_zero, Int.toNat_natCast, hs, hs0, if_false]
  split
  · rfl
  · split
    · simp [ofExact, Rat.mkRat_one]
    · simp [ofExact, Rat.mkRat_one]

/-- An integer beyond the exact range does not come back into it when it is rounded. -/
theorem nearest_far {z : Int} (h : exactLimit < z.natAbs) :
    (∃ negative, nearest z = .infinite negative) ∨
      ∃ m : Int, nearest z = .int m ∧ exactLimit ≤ m.natAbs := by
  have hbig := exactLimit_le_roundedNat h
  rw [nearest_eq h]
  split
  · exact Or.inl ⟨_, rfl⟩
  · refine Or.inr ⟨_, rfl, ?_⟩
    split <;> omega

theorem ofInt_cases (z : Int) :
    (∃ negative, ofInt z = .infinite negative) ∨ ∃ n, ofInt z = .int n := by
  unfold ofInt
  split
  · exact Or.inr ⟨z, rfl⟩
  · rcases nearest_far (z := z) (by omega) with h | ⟨m, hm, -⟩
    · exact Or.inl h
    · exact Or.inr ⟨m, hm⟩

theorem ofNat_ne_nan (n : Nat) : ofNat n ≠ .nan ∧ ofNat n ≠ .negZero := by
  rcases ofInt_cases n with ⟨s, hs⟩ | ⟨m, hm⟩
  · have h : ofNat n = .infinite s := hs
    rw [h]
    exact ⟨nofun, nofun⟩
  · have h : ofNat n = .int m := hm
    rw [h]
    exact ⟨nofun, nofun⟩

/-- A rounded integer that lies inside the exact range was not changed. -/
theorem ofInt_eq_int {z n : Int} (h : ofInt z = .int n) (hn : n.natAbs < exactLimit) : z = n := by
  unfold ofInt at h
  split at h
  · exact Number.int.inj h
  · rename_i hz
    rcases nearest_far (z := z) (by omega) with ⟨s, hs⟩ | ⟨m, hm, hfar⟩
    · rw [hs] at h
      cases h
    · rw [hm] at h
      cases h
      omega

theorem int_add_one (a : Int) : Number.int a + 1 = ofInt (a + 1) := rfl

/-- An integer less another one, be it a zero of either sign. -/
theorem int_sub_of_toInt? {b : Number} {n : Int} (hb : b.toInt? = some n) (a : Int) :
    Number.int a - b = ofInt (a - n) := by
  rcases toInt?_eq_some.1 hb with rfl | ⟨rfl, rfl⟩
  · rfl
  · show ofInt (a + 0) = ofInt (a - 0)
    rw [Int.add_zero, Int.sub_zero]

/-- A small integer that is the same as a rounded one is that integer. -/
theorem eq_of_same_ofInt {z n : Int} (h : (Number.int n).same (ofInt z) = true)
    (hn : n.natAbs < exactLimit) : z = n := by
  rcases ofInt_cases z with ⟨s, hs⟩ | ⟨m, hm⟩
  · rw [hs] at h
    cases h
  · rw [hm, int_same_int] at h
    subst h
    exact ofInt_eq_int hm hn

/-- A small integer that is one above an integer. -/
theorem eq_add_one_of_same {a n : Int} (h : (Number.int n).same (Number.int a + 1) = true)
    (hn : n.natAbs < exactLimit) : n = a + 1 :=
  (eq_of_same_ofInt h hn).symm

/-- A small integer that is one above the predecessor of an integer is that integer, however far
out the predecessor was rounded. -/
theorem eq_of_same_sub_one_add_one {a : Number} {z n : Int} (hz : a.toInt? = some z)
    (h : (Number.int n).same (a - 1 + 1) = true) (hn : n.natAbs + 1 < exactLimit) : n = z := by
  rcases toInt?_eq_some.1 hz with rfl | ⟨rfl, rfl⟩
  · have hsub : Number.int z - 1 = ofInt (z - 1) := rfl
    rw [hsub] at h
    rcases ofInt_cases (z - 1) with ⟨s, hs⟩ | ⟨m, hm⟩
    · rw [hs] at h
      cases s <;> cases h
    · rw [hm] at h
      have hnm : n = m + 1 := eq_add_one_of_same h (by omega)
      have hzm : z - 1 = m := ofInt_eq_int hm (by omega)
      omega
  · have hzero : Number.negZero - 1 + 1 = .int 0 := rfl
    rw [hzero, int_same_int] at h
    exact h

theorem same_int_of_toInt? {a : Number} {m n : Int} (hm : a.toInt? = some m) :
    a.same (.int n) = true ↔ m = n := by
  rcases toInt?_eq_some.1 hm with rfl | ⟨rfl, rfl⟩
  · exact int_same_int
  · simp [same, toRat?, eq_comm]

/-- One above a safe integer is not rounded. -/
theorem int_add_one_of_safe {n : Int} (h : n.natAbs ≤ maxSafe) :
    Number.int n + 1 = .int (n + 1) := by
  rw [int_add_one]
  exact ofInt_of_le (by unfold maxSafe exactLimit at *; omega)

/-! ## Order -/

theorem lt_int_iff {a : Number} {q : Rat} (hq : a.toRat? = some q) (n : Int) :
    a < .int n ↔ q < (n : Rat) := by
  cases a with
  | int m => cases hq; rw [int_lt_int, Rat.intCast_lt_intCast]
  | negZero => cases hq; simp [LT.lt, lt, toRat?]
  | fraction r => cases hq; simp only [LT.lt, lt, toRat?]; simp
  | infinite s => cases hq
  | nan => cases hq

theorem int_le_iff {a : Number} {q : Rat} (hq : a.toRat? = some q) (n : Int) :
    .int n ≤ a ↔ (n : Rat) ≤ q := by
  rw [Rat.le_iff_lt_or_eq]
  cases a with
  | int m => cases hq; rw [int_le_int, Rat.intCast_lt_intCast, Rat.intCast_inj]; omega
  | negZero => cases hq; simp [LE.le, lt, same, toRat?]
  | fraction r => cases hq; simp [LE.le, lt, same, toRat?]
  | infinite s => cases hq
  | nan => cases hq

/-- What lies below an integer lies below every greater one. -/
theorem lt_int_of_le {a : Number} {m n : Int} (h : a < .int m) (hmn : m ≤ n) : a < .int n := by
  cases hq : a.toRat? with
  | some q =>
      rw [lt_int_iff hq] at h ⊢
      refine Rat.not_le.1 fun hc => ?_
      exact Rat.not_lt.2 (Rat.le_trans (Rat.intCast_le_intCast.2 hmn) hc) h
  | none =>
      cases a with
      | infinite s => exact h
      | nan => cases h
      | _ => cases hq

/-- A number that lies below some integer, but not below `n`, is at least `n`. -/
theorem int_le_of_not_lt {a : Number} {m n : Int} (hm : a < .int m) (hn : ¬ a < .int n) :
    .int n ≤ a := by
  cases hq : a.toRat? with
  | some q =>
      rw [lt_int_iff hq] at hn
      exact (int_le_iff hq n).2 (Rat.not_lt.1 hn)
  | none =>
      cases a with
      | infinite s => exact absurd hm hn
      | nan => cases hm
      | _ => cases hq

/-- An integer is greater than what its own value is greater than. -/
theorem lt_iff_of_toInt? {a b : Number} {n : Int} (hb : b.toInt? = some n) :
    a < b ↔ a < .int n := by
  rcases toInt?_eq_some.1 hb with rfl | ⟨rfl, rfl⟩
  · exact Iff.rfl
  · cases hq : a.toRat? with
    | some q =>
        rw [lt_int_iff hq]
        cases a with
        | int m => cases hq; exact decide_eq_true_iff (p := (m : Rat) < 0)
        | negZero => cases hq; simp [LT.lt, lt, toRat?]
        | fraction r => cases hq; exact decide_eq_true_iff (p := q < 0)
        | infinite s => cases hq
        | nan => cases hq
    | none =>
        cases a with
        | infinite s => exact Iff.rfl
        | nan => exact Iff.rfl
        | _ => cases hq

/-- An integer is at least what its own value is at least. -/
theorem le_iff_of_toInt? {a b : Number} {n : Int} (hb : b.toInt? = some n) :
    a ≤ b ↔ a ≤ .int n := by
  have hsame : a.same b = true ↔ a.same (.int n) = true := by
    rcases toInt?_eq_some.1 hb with rfl | ⟨rfl, rfl⟩
    · exact Iff.rfl
    · cases a <;> simp [same, toRat?]
  show (a.lt b || a.same b) = true ↔ (a.lt (.int n) || a.same (.int n)) = true
  rw [Bool.or_eq_true, Bool.or_eq_true]
  exact or_congr (lt_iff_of_toInt? hb) hsame

/-- A number that is an integer lies to the integers as that one. -/
theorem lt_int_of_toInt? {a : Number} {n : Int} (ha : a.toInt? = some n) (k : Int) :
    a < .int k ↔ n < k := by
  rcases toInt?_eq_some.1 ha with rfl | ⟨rfl, rfl⟩
  · exact int_lt_int
  · rw [lt_int_iff (q := ((0 : Int) : Rat)) rfl, Rat.intCast_lt_intCast]

theorem le_int_of_toInt? {a : Number} {n : Int} (ha : a.toInt? = some n) (k : Int) :
    a ≤ .int k ↔ n ≤ k := by
  rw [Int.le_iff_lt_or_eq, ← lt_int_of_toInt? ha, ← same_int_of_toInt? ha]
  exact iff_of_eq (Bool.or_eq_true _ _)

theorem int_le_of_toInt? {a : Number} {n : Int} (ha : a.toInt? = some n) (k : Int) :
    .int k ≤ a ↔ k ≤ n :=
  (le_iff_of_toInt? ha).trans int_le_int

theorem toSafeInt?_eq_some {a : Number} {n : Int} :
    a.toSafeInt? = some n ↔ a.toInt? = some n ∧ n.natAbs ≤ maxSafe := by
  simp [toSafeInt?, Option.filter_eq_some_iff]

/-! ## Columns -/

/-- What a column of integers keeps of a number that it keeps: the two zeros are one. -/
def kept : Number → Number
  | .negZero => .int 0
  | a => a

theorem stored?_eq_some {a b : Number} : a.stored? = some b ↔ a ≠ .nan ∧ b = a.kept := by
  cases a <;> simp [stored?, kept, eq_comm]

theorem toInt?_kept (a : Number) : a.kept.toInt? = a.toInt? := by
  cases a <;> rfl

/-- An integer that a column keeps can be read off the number by cutting it. -/
theorem truncate_of_toInt? {a : Number} {n : Int} (h : a.toInt? = some n) : a.truncate = n := by
  rcases toInt?_eq_some.1 h with rfl | ⟨rfl, rfl⟩
  · rfl
  · rfl

/-- A field keeps a natural number that fits as it is. -/
theorem wrapped_of_toInt? {a : Number} {n bits : Nat} (h : a.toInt? = some (n : Int))
    (hn : n < 1 <<< bits) : a.wrapped bits = n := by
  rw [wrapped, truncate_of_toInt? h, Int.emod_eq_of_lt (Int.natCast_nonneg n) (Int.ofNat_lt.2 hn)]
  rfl

/-! ## Counting -/

/-- What counting up to `n` by ones comes to: it stays at the exact limit once it is there. -/
def counted (n : Nat) : Number := .int (min n exactLimit : Nat)

theorem counted_of_le {n : Nat} (h : n ≤ exactLimit) : counted n = .int n := by
  rw [counted, Nat.min_eq_left h]

/-- Up to the exact limit, counting does not come to the same number twice. -/
theorem counted_inj {i j : Nat} (hi : i ≤ exactLimit) (hj : j ≤ exactLimit)
    (h : counted i = counted j) : i = j := by
  rw [counted_of_le hi, counted_of_le hj] at h
  exact Int.ofNat.inj (Number.int.inj h)

theorem counted_add_one (n : Nat) : counted n + 1 = counted (n + 1) := by
  rcases Nat.lt_or_ge n exactLimit with h | h
  · rw [counted_of_le (Nat.le_of_lt h), counted_of_le h, int_add_one]
    exact ofInt_of_le (by omega)
  · rw [counted, counted, Nat.min_eq_right h, Nat.min_eq_right (Nat.le_succ_of_le h)]
    decide

theorem counted_le_counted {m n : Nat} (h : m ≤ n) : counted m ≤ counted n := by
  rw [counted, counted, int_le_int]
  omega

@[simp] theorem kept_counted (n : Nat) : (counted n).kept = counted n := rfl

end Number

/-- A number that is not missing is kept. -/
theorem storedIn_of_ne_nan {column : String} {a b : Number} (h : a ≠ .nan) (hb : b = a.kept) :
    storedIn column a = .ok b := by
  rw [storedIn, Number.stored?_eq_some.2 ⟨h, hb⟩]

end LightSync
