import LightSync.Proofs.Number.Texts

/-!
# Rounding does not step over an integer

Below the exact limit every integer is a number, so that what has a fractional part is rounded to
something between the integers around it (`nearest_between`). Adding one to a number comes to a
number between those that lie one further (`exists_toRat?_add_one`), and cutting off what is left
behind the point gives the integer below (`truncate_of_toRat?`).
-/

set_option autoImplicit false

namespace LightSync
namespace Number

/-! ## The last place -/

section

variable {x : Rat}

theorem natCast_le_iff (m : Nat) (hx : 0 ≤ x) : (m : Rat) ≤ x ↔ m * x.den ≤ x.num.natAbs := by
  have hnum : 0 ≤ x.num := Rat.num_nonneg.2 hx
  rw [Rat.le_iff, Rat.num_natCast, Rat.den_natCast, Nat.cast_one, mul_one]
  omega

theorem le_natCast_iff (m : Nat) (hx : 0 ≤ x) : x ≤ (m : Rat) ↔ x.num.natAbs ≤ m * x.den := by
  have hnum : 0 ≤ x.num := Rat.num_nonneg.2 hx
  rw [Rat.le_iff, Rat.num_natCast, Rat.den_natCast, Nat.cast_one, mul_one]
  omega

theorem num_lt_of_lt (hx : 0 ≤ x) (hhigh : x < exactLimit) :
    x.num.natAbs < exactLimit * x.den :=
  Nat.lt_of_not_le fun h => absurd ((natCast_le_iff exactLimit hx).2 h) (not_le.2 hhigh)

/-- The highest bits of the numerator and of the denominator are not far apart. -/
theorem log2_bounds (hlow : 1 ≤ x) (hhigh : x < exactLimit) :
    x.den.log2 ≤ x.num.natAbs.log2 ∧ x.num.natAbs.log2 < 54 + x.den.log2 := by
  have hx : 0 ≤ x := le_trans zero_le_one hlow
  have hden : x.den ≠ 0 := x.den_nz
  have hone : x.den ≤ x.num.natAbs := by
    have h := (natCast_le_iff 1 hx).1 (by exact_mod_cast hlow)
    rwa [Nat.one_mul] at h
  have hnum : x.num.natAbs ≠ 0 := by omega
  constructor
  · exact (Nat.le_log2 hnum).2 (Nat.le_trans (Nat.log2_self_le hden) hone)
  · refine (Nat.log2_lt hnum).2 (Nat.lt_of_lt_of_le (num_lt_of_lt hx hhigh) ?_)
    calc exactLimit * x.den
      _ ≤ 2 ^ 53 * 2 ^ (x.den.log2 + 1) :=
          Nat.mul_le_mul (by decide) (Nat.le_of_lt Nat.lt_log2_self)
      _ = 2 ^ (54 + x.den.log2) := by
          rw [← Nat.pow_add]
          exact congrArg (2 ^ ·) (by omega)

/-- The last place of a number from one up to the exact limit is that of a fraction, or one. -/
theorem lastPlace_bounds (hlow : 1 ≤ x) (hhigh : x < exactLimit) :
    -53 ≤ lastPlace x ∧ lastPlace x ≤ 0 := by
  obtain ⟨hleast, hgreatest⟩ := log2_bounds hlow hhigh
  simp only [lastPlace]
  rcases Nat.lt_or_ge x.num.natAbs.log2 (53 + x.den.log2) with hfew | hmany
  · split <;> omega
  · -- with that many bits the last place would be two, if the number was not below the limit
    have hguess : (x.num.natAbs.log2 : Int) - (x.den.log2 : Int) - 52 = 1 := by omega
    have hshift : x.num.natAbs <<< 0 < x.den <<< 1 <<< 52 := by
      have hlimit := num_lt_of_lt (le_trans zero_le_one hlow) hhigh
      rw [Nat.shiftLeft_eq, Nat.shiftLeft_eq, Nat.shiftLeft_eq]
      unfold exactLimit at hlimit
      omega
    rw [hguess]
    split
    · omega
    · rename_i hge
      exact absurd hshift hge

/-! ## Rounding -/

theorem roundDiv_mul (q : Nat) {den : Nat} (h : 0 < den) : roundDiv (q * den) den = q :=
  roundDiv_add (y := 0) h

theorem toRat?_ofExact (x : Rat) : (ofExact x).toRat? = some x := by
  unfold ofExact
  split
  · rename_i hden
    exact congrArg some (Rat.den_eq_one_iff x |>.1 hden)
  · rfl

/-- With a last place behind the point, a number is rounded to a multiple of it. -/
theorem nearest_eq_ofExact {k : Nat} (hx : 0 ≤ x) (hplace : lastPlace x = -(k : Int))
    (hfinite : roundDiv (x.num.natAbs <<< k) x.den < overflow) :
    nearest x = ofExact (mkRat (roundDiv (x.num.natAbs <<< k) x.den : Nat) (1 <<< k)) := by
  have hup : (-(k : Int)).toNat = 0 := by omega
  have hdown : (-(-(k : Int))).toNat = k := by omega
  have hnum : ¬ x.num < 0 := Int.not_lt.2 (Rat.num_nonneg.2 hx)
  simp only [nearest, hplace, scaled, hup, hdown, Nat.shiftLeft_zero, hnum, if_false]
  split
  · rename_i hzero
    rw [hzero]
    simp [ofExact]
  · exact if_neg (Nat.not_le.2 hfinite)

/-- An integer is a multiple of the last place, and what lies above it is rounded to one above it. -/
theorem le_roundDiv_of_le {m : Nat} (k : Nat) (hx : 0 ≤ x) (hm : (m : Rat) ≤ x) :
    m * 2 ^ k ≤ roundDiv (x.num.natAbs <<< k) x.den := by
  have hle := Nat.mul_le_mul_right (2 ^ k) ((natCast_le_iff m hx).1 hm)
  rw [Nat.mul_right_comm, ← Nat.shiftLeft_eq x.num.natAbs] at hle
  calc m * 2 ^ k
    _ = roundDiv (m * 2 ^ k * x.den) x.den := (roundDiv_mul _ x.den_pos).symm
    _ ≤ roundDiv (x.num.natAbs <<< k) x.den := roundDiv_mono hle _

theorem roundDiv_le_of_le {m : Nat} (k : Nat) (hx : 0 ≤ x) (hm : x ≤ (m : Rat)) :
    roundDiv (x.num.natAbs <<< k) x.den ≤ m * 2 ^ k := by
  have hle := Nat.mul_le_mul_right (2 ^ k) ((le_natCast_iff m hx).1 hm)
  rw [Nat.mul_right_comm, ← Nat.shiftLeft_eq x.num.natAbs] at hle
  calc roundDiv (x.num.natAbs <<< k) x.den
    _ ≤ roundDiv (m * 2 ^ k * x.den) x.den := roundDiv_mono hle _
    _ = m * 2 ^ k := roundDiv_mul _ x.den_pos

/-- **Rounding does not step over an integer**, below the exact limit. -/
theorem nearest_between (hlow : 1 ≤ x) (hhigh : x < exactLimit) :
    ∃ y : Rat, (nearest x).toRat? = some y ∧ (⌊x⌋₊ : Rat) ≤ y ∧ y ≤ (⌈x⌉₊ : Rat) := by
  have hx : 0 ≤ x := le_trans zero_le_one hlow
  obtain ⟨hleast, hgreatest⟩ := lastPlace_bounds hlow hhigh
  obtain ⟨k, hplace⟩ : ∃ k : Nat, lastPlace x = -(k : Int) := ⟨(-lastPlace x).toNat, by omega⟩
  have hfinite : roundDiv (x.num.natAbs <<< k) x.den < overflow :=
    calc roundDiv (x.num.natAbs <<< k) x.den
      _ ≤ exactLimit * 2 ^ k := roundDiv_le_of_le k hx (le_of_lt hhigh)
      _ ≤ exactLimit * 2 ^ 53 :=
          Nat.mul_le_mul_left _ (Nat.pow_le_pow_right (by decide) (by omega))
      _ < overflow := by decide
  have hpos : (0 : Rat) < (2 ^ k : Nat) := by exact_mod_cast Nat.two_pow_pos k
  rw [nearest_eq_ofExact hx hplace hfinite, toRat?_ofExact, Rat.mkRat_eq_div, Nat.one_shiftLeft]
  refine ⟨_, rfl, ?_, ?_⟩
  · rw [le_div_iff₀ hpos]
    exact_mod_cast le_roundDiv_of_le k hx (Nat.floor_le hx)
  · rw [div_le_iff₀ hpos]
    exact_mod_cast roundDiv_le_of_le k hx (Nat.le_ceil x)

end

/-! ## Cutting off -/

section

variable {a : Number} {x : Rat}

/-- Cutting off a number that is not negative. -/
theorem truncate_of_toRat? (ha : a.toRat? = some x) (hx : 0 ≤ x) : a.truncate = (⌊x⌋₊ : Int) := by
  rw [Int.natCast_floor_eq_floor hx]
  cases a with
  | int n =>
      cases ha
      exact (Int.floor_intCast n).symm
  | negZero =>
      cases ha
      rfl
  | fraction q =>
      cases ha
      rw [Rat.floor_def']
      exact Int.tdiv_eq_ediv_of_nonneg (Rat.num_nonneg.2 hx)
  | infinite s => cases ha
  | nan => cases ha

/-- The number behind one that is not negative lies behind it by one, up to rounding. -/
theorem exists_toRat?_add_one (ha : a.toRat? = some x) (hx : 0 ≤ x) (hhigh : x + 1 < exactLimit) :
    ∃ y : Rat, (a + 1).toRat? = some y ∧ (⌊x⌋₊ + 1 : Rat) ≤ y ∧ y ≤ (⌈x⌉₊ + 1 : Rat) := by
  have hsum := nearest_between (x := x + 1) (by linarith) hhigh
  rw [Nat.floor_add_one hx, Nat.ceil_add_one hx, Nat.cast_add_one, Nat.cast_add_one] at hsum
  have hbetween : (⌊x⌋₊ + 1 : Rat) ≤ x + 1 ∧ x + 1 ≤ (⌈x⌉₊ + 1 : Rat) :=
    ⟨by linarith [Nat.floor_le hx], by linarith [Nat.le_ceil x]⟩
  cases a with
  | int n =>
      cases ha
      have hexact : (n + 1).natAbs ≤ exactLimit := by
        have hn : (0 : Int) ≤ n := by exact_mod_cast hx
        have hlt : n + 1 < (exactLimit : Int) := by exact_mod_cast hhigh
        omega
      refine ⟨n + 1, ?_, hbetween⟩
      rw [int_add_one, ofInt_of_le hexact]
      exact congrArg some (Int.cast_add n 1)
  | negZero =>
      cases ha
      refine ⟨0 + 1, ?_, hbetween⟩
      rw [zero_add]
      rfl
  | fraction q =>
      cases ha
      have hadd : (Number.fraction x).add (.int 1) = nearest (x + 1) := by
        simp only [add, toRat?, Int.cast_one]
      rwa [← hadd] at hsum
  | infinite s => cases ha
  | nan => cases ha

end

end Number
end LightSync
