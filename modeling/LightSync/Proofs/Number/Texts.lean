import LightSync.Number.Decimal
import LightSync.Proofs.Number.Rounding
import Mathlib.Algebra.Order.Field.Power
import Mathlib.Data.Nat.Digits.Defs
import Mathlib.Data.Rat.Floor

/-!
# The texts of great integers

Integers beyond the exact limit are written with the fewest digits that read back as them. Seventeen
are enough (`candidate_seventeen`), because a unit of the seventeenth digit is smaller than the
distance to the next number. So their texts keep at least sixteen places or are no plain digits
(`text_ofInt_of_far`), and none of them is the text of a small natural number.
-/

set_option autoImplicit false

namespace LightSync
namespace Number

/-! ## Rounding close to a number -/

theorem roundDiv_add {q y den : Nat} (h : 2 * y < den) : roundDiv (q * den + y) den = q := by
  have hden : 0 < den := by omega
  have hq : (q * den + y) / den = q := by
    rw [Nat.add_comm, Nat.add_mul_div_right _ _ hden, Nat.div_eq_of_lt (by omega), Nat.zero_add]
  have hr : (q * den + y) % den = y := by
    rw [Nat.add_comm, Nat.add_mul_mod_self_right, Nat.mod_eq_of_lt (by omega)]
  unfold roundDiv
  dsimp only
  rw [hq, hr, if_pos h]

theorem roundDiv_sub {num q y den : Nat} (h : 2 * y < den) (hnum : num + y = q * den) :
    roundDiv num den = q := by
  cases y with
  | zero =>
      rw [Nat.add_zero] at hnum
      rw [hnum]
      exact roundDiv_add (y := 0) h
  | succ y =>
      have hden : 0 < den := by omega
      obtain ⟨p, rfl⟩ : ∃ p, q = p + 1 := by
        cases q with
        | zero => omega
        | succ p => exact ⟨p, rfl⟩
      rw [Nat.add_mul, Nat.one_mul] at hnum
      have hsplit : num = p * den + (den - (y + 1)) := by omega
      have hq : num / den = p := by
        rw [hsplit, Nat.add_comm, Nat.add_mul_div_right _ _ hden, Nat.div_eq_of_lt (by omega),
          Nat.zero_add]
      have hr : num % den = den - (y + 1) := by
        rw [hsplit, Nat.add_comm, Nat.add_mul_mod_self_right, Nat.mod_eq_of_lt (by omega)]
      unfold roundDiv
      dsimp only
      rw [hq, hr, if_neg (by omega), if_pos (by omega)]

section

variable {N X y : Nat}

theorem roundedNat_far (h : exactLimit < N) :
    roundedNat N = roundDiv N (2 ^ (N.log2 - 52)) * 2 ^ (N.log2 - 52) := by
  rw [roundedNat, if_neg (Nat.not_le.2 h), Nat.one_shiftLeft, Nat.shiftLeft_eq]

/-- A magnitude that is kept by rounding is a multiple of its last place, by 53 bits. -/
theorem exists_of_kept (hN : exactLimit < N) (hkept : roundedNat N = N) :
    ∃ q, N = q * 2 ^ (N.log2 - 52) ∧ 2 ^ 52 ≤ q ∧ q < 2 ^ 53 := by
  obtain ⟨hne, hL⟩ := log2_far hN
  have hpow (i : Nat) : 2 ^ (N.log2 + i) = 2 ^ (52 + i) * 2 ^ (N.log2 - 52) := by
    rw [← Nat.pow_add]
    congr 1
    omega
  have hq := roundedNat_far hN
  rw [hkept] at hq
  generalize roundDiv N _ = q at hq
  have hlow : 2 ^ (52 + 0) * 2 ^ (N.log2 - 52) ≤ q * 2 ^ (N.log2 - 52) :=
    hpow 0 ▸ hq ▸ Nat.log2_self_le hne
  have hhigh : q * 2 ^ (N.log2 - 52) < 2 ^ (52 + 1) * 2 ^ (N.log2 - 52) :=
    hpow 1 ▸ hq ▸ Nat.lt_log2_self
  exact ⟨q, hq, Nat.le_of_mul_le_mul_right hlow (Nat.two_pow_pos _),
    Nat.lt_of_mul_lt_mul_right hhigh⟩

theorem log2_eq_of_split {q u k : Nat} (hu : u = 2 ^ k) (hlow : 2 ^ 52 * u ≤ X)
    (hhigh : X < 2 ^ 53 * u) (hq : q = k + 52) : X.log2 = q := by
  have hpow (i : Nat) : 2 ^ (52 + i) * u = 2 ^ (k + 52 + i) := by
    rw [hu, ← Nat.pow_add]
    congr 1
    omega
  have hX : X ≠ 0 := by
    have := Nat.two_pow_pos k
    omega
  rw [hq]
  exact (Nat.log2_eq_iff hX).2 ⟨hpow 0 ▸ hlow, hpow 1 ▸ hhigh⟩

/-- A magnitude of 53 bits is kept, wherever its last place is. -/
theorem roundedNat_of_bits {q k : Nat} (hlow : 2 ^ 52 ≤ q) (hhigh : q < 2 ^ 53)
    (hfar : exactLimit < q * 2 ^ k) : roundedNat (q * 2 ^ k) = q * 2 ^ k := by
  generalize hu : 2 ^ k = u at hfar ⊢
  have hpos : 0 < u := hu ▸ Nat.two_pow_pos k
  have hlog : (q * u).log2 = k + 52 :=
    log2_eq_of_split hu.symm (Nat.mul_le_mul_right _ hlow) (Nat.mul_lt_mul_of_pos_right hhigh hpos) rfl
  have hround : roundDiv (q * u) u = q := roundDiv_add (y := 0) hpos
  rw [roundedNat_far hfar, hlog, Nat.add_sub_cancel, hu, hround]

/-- Rounding once more changes nothing. -/
theorem roundedNat_roundedNat (m : Nat) : roundedNat (roundedNat m) = roundedNat m := by
  rcases Nat.lt_or_ge exactLimit (roundedNat m) with hfar | hnear
  · have hm : exactLimit < m := by
      refine Nat.lt_of_not_le fun hle => ?_
      rw [roundedNat, if_pos hle] at hfar
      omega
    obtain ⟨-, hL⟩ := log2_far hm
    have hpow (i : Nat) : 2 ^ (m.log2 + i) = 2 ^ (52 + i) * 2 ^ (m.log2 - 52) := by
      rw [← Nat.pow_add]
      congr 1
      omega
    have hlow := highestBit_le_roundedNat hm
    have hhigh := roundedNat_le_nextBit hm
    rw [Nat.one_shiftLeft] at hlow hhigh
    rw [roundedNat_far hm] at hlow hhigh hfar ⊢
    generalize roundDiv m _ = q at hlow hhigh hfar ⊢
    have hlow : 2 ^ 52 ≤ q :=
      Nat.le_of_mul_le_mul_right (hpow 0 ▸ hlow) (Nat.two_pow_pos (m.log2 - 52))
    have hhigh : q ≤ 2 ^ 53 :=
      Nat.le_of_mul_le_mul_right (hpow 1 ▸ hhigh) (Nat.two_pow_pos (m.log2 - 52))
    rcases Nat.lt_or_eq_of_le hhigh with hlt | rfl
    · exact roundedNat_of_bits hlow hlt hfar
    · -- the next power of two, whose last place is one further
      have hnext : 2 ^ 53 * 2 ^ (m.log2 - 52) = 2 ^ 52 * 2 ^ (m.log2 - 52 + 1) := by
        rw [← Nat.pow_add, ← Nat.pow_add]
        exact congrArg (2 ^ ·) (by omega)
      rw [hnext] at hfar ⊢
      exact roundedNat_of_bits (by decide) (by decide) hfar
  · rw [roundedNat, if_pos hnear]

/-- Less than half a place above a number it is rounded to. -/
theorem roundedNat_above (hN : exactLimit < N) (hkept : roundedNat N = N)
    (hy : 2 * y < 2 ^ (N.log2 - 52)) : roundedNat (N + y) = N := by
  obtain ⟨q, hq, hlow, hhigh⟩ := exists_of_kept hN hkept
  obtain ⟨-, hL⟩ := log2_far hN
  generalize hu : 2 ^ (N.log2 - 52) = u at hq hy
  have hlog : (N + y).log2 = N.log2 := by
    have h1 : 2 ^ 52 * u ≤ q * u := Nat.mul_le_mul_right _ hlow
    have h2 : (q + 1) * u ≤ 2 ^ 53 * u := Nat.mul_le_mul_right _ hhigh
    rw [Nat.add_mul, Nat.one_mul] at h2
    exact log2_eq_of_split hu.symm (by omega) (by omega) (by omega)
  rw [roundedNat_far (by omega), hlog, hu]
  have hround : roundDiv (N + y) u = q := by
    rw [hq]
    exact roundDiv_add hy
  rw [hround, ← hq]

/-- Less than half a place below a number it is rounded to, where the places below are as great. -/
theorem roundedNat_below (hX : exactLimit < X) (hkept : roundedNat (X + y) = X + y)
    (hy : 2 * y < 2 ^ ((X + y).log2 - 52))
    (hedge : X + y = 2 ^ (X + y).log2 → 4 * y < 2 ^ ((X + y).log2 - 52)) :
    roundedNat X = X + y := by
  generalize hN : X + y = N at hkept hy hedge
  have hfar : exactLimit < N := by omega
  obtain ⟨q, hq, hlow, hhigh⟩ := exists_of_kept hfar hkept
  obtain ⟨-, hL⟩ := log2_far hfar
  generalize hu : 2 ^ (N.log2 - 52) = u at hq hy hedge
  have hupper : q * u < 2 ^ 53 * u :=
    Nat.mul_lt_mul_of_pos_right hhigh (hu ▸ Nat.two_pow_pos _)
  rw [roundedNat_far hX]
  rcases Nat.lt_or_ge X (2 ^ 52 * u) with hbelow | hin
  · -- `N` is a power of two, below which the places are half as great
    have hqeq : q = 2 ^ 52 := by
      refine Nat.le_antisymm (Nat.le_of_lt_succ ?_) hlow
      refine Nat.lt_of_mul_lt_mul_right (a := u) ?_
      rw [Nat.succ_mul]
      omega
    subst hqeq
    have hpower : N = 2 ^ N.log2 :=
      calc N
        _ = 2 ^ 52 * 2 ^ (N.log2 - 52) := by rw [hu]; exact hq
        _ = 2 ^ (52 + (N.log2 - 52)) := (Nat.pow_add 2 52 _).symm
        _ = 2 ^ N.log2 := congrArg (2 ^ ·) (by omega)
    have hhalf : 2 * 2 ^ (N.log2 - 53) = u := by
      rw [← hu, ← Nat.pow_succ']
      exact congrArg (2 ^ ·) (by omega)
    generalize hv : 2 ^ (N.log2 - 53) = v at hhalf
    have hedge := hedge hpower
    have hlog : X.log2 = N.log2 - 1 :=
      log2_eq_of_split hv.symm (by omega) (by omega) (by omega)
    rw [hlog, show N.log2 - 1 - 52 = N.log2 - 53 by omega, hv,
      roundDiv_sub (q := 2 ^ 53) (y := y) (by omega) (by omega)]
    omega
  · have hlog : X.log2 = N.log2 := log2_eq_of_split hu.symm hin (by omega) (by omega)
    rw [hlog, hu, roundDiv_sub hy (hN.trans hq), ← hq]

end

theorem nearest_of_roundedNat {X N : Nat} (hX : exactLimit < X) (hround : roundedNat X = N)
    (hN : N < overflow) : nearest (X : Rat) = .int N := by
  have hz : exactLimit < (X : Int).natAbs := hX
  have hcast : nearest (X : Rat) = nearest ((X : Int) : Rat) := rfl
  have hsmall : ¬ 1 <<< 1024 ≤ N := Nat.not_le.2 hN
  rw [hcast, nearest_eq hz, Int.natAbs_natCast, hround, if_neg hsmall,
    if_neg (Int.not_lt.2 (Int.natCast_nonneg X))]

/-! ## Where the decimal point stands -/

theorem tenPow_le_twoPow : ∀ L < 1024, 10 ^ (L * 30103 / 100000) ≤ 100 * 2 ^ L := by
  decide +kernel

/-- The first guess is never high. -/
theorem tenPow_guess_le {N : Nat} (hN : N ≠ 0) (hsize : N < overflow) :
    (10 : Rat) ^ (((N.log2 : Int) - (1 : Nat).log2) * 30103 / 100000 - 1 - 1) ≤ N := by
  rw [overflow, Nat.one_shiftLeft] at hsize
  have hL : N.log2 < 1024 := (Nat.log2_lt hN).2 hsize
  have hnat : 10 ^ (N.log2 * 30103 / 100000) ≤ 100 * N :=
    Nat.le_trans (tenPow_le_twoPow _ hL) (Nat.mul_le_mul_left _ (Nat.log2_self_le hN))
  have hexp : ((N.log2 : Int) - (1 : Nat).log2) * 30103 / 100000 - 1 - 1 =
      ((N.log2 * 30103 / 100000 : Nat) : Int) - 2 := by
    have : (1 : Nat).log2 = 0 := by decide
    omega
  rw [hexp, zpow_sub₀ (by norm_num), zpow_natCast]
  have hrat : ((10 : Rat) ^ (N.log2 * 30103 / 100000)) ≤ 100 * N := by exact_mod_cast hnat
  rw [div_le_iff₀ (by norm_num)]
  linarith

/-- The decimal point stands behind the first digit at least. -/
theorem tenPow_pointPlace_le {N : Nat} (hN : N ≠ 0) (hsize : N < overflow) :
    (10 : Rat) ^ (pointPlace N - 1) ≤ N := by
  have hguess := tenPow_guess_le hN hsize
  unfold pointPlace
  rw [Rat.num_natCast, Rat.den_natCast, Int.natAbs_natCast]
  generalize ((N.log2 : Int) - (1 : Nat).log2) * 30103 / 100000 - 1 = guess at hguess ⊢
  dsimp only
  rw [List.find?_map]
  cases hfind : (List.range 5).find? _ with
  | none => exact hguess
  | some i =>
      obtain ⟨-, -, hbefore⟩ := List.find?_range_eq_some.1 hfind
      cases i with
      | zero => simpa using hguess
      | succ i =>
          have hprevious : ¬ (N : Rat) < 10 ^ (guess + (i : Int)) := by
            simpa using hbefore i (Nat.lt_succ_self i)
          have hexp : guess + ((i + 1 : Nat) : Int) - 1 = guess + (i : Int) := by omega
          show (10 : Rat) ^ (guess + ((i + 1 : Nat) : Int) - 1) ≤ N
          rw [hexp]
          exact not_lt.1 hprevious

/-! ## Decimals that read back -/

theorem candidate_ne_none {a : Number} {q : Rat} {e : Int}
    (h : nearest (Decimal.toRat ⟨(q / (10 : Rat) ^ e).floor.toNat, e⟩) = a ∨
      nearest (Decimal.toRat ⟨(q / (10 : Rat) ^ e).floor.toNat + 1, e⟩) = a) :
    candidate a q e ≠ none := by
  unfold candidate
  dsimp only
  split
  · exact Option.some_ne_none _
  · exact Option.some_ne_none _
  · exact Option.some_ne_none _
  · rename_i hdown hup
    rcases h with h | h
    · rw [h, beq_self_eq_true] at hdown
      cases hdown
    · rw [h, beq_self_eq_true] at hup
      cases hup

/-- A candidate lies less than a unit below the number. -/
theorem lt_of_candidate {a : Number} {q : Rat} {e : Int} {d : Decimal}
    (h : candidate a q e = some d) : q < (d.m + 1) * (10 : Rat) ^ d.e := by
  have hpow : (0 : Rat) < 10 ^ e := zpow_pos (by norm_num) e
  have hbelow : q < (((q / (10 : Rat) ^ e).floor.toNat : Nat) + 1) * (10 : Rat) ^ e := by
    rw [← div_lt_iff₀ hpow]
    have hfloor : q / 10 ^ e < ((q / 10 ^ e).floor : Rat) + 1 := Int.lt_floor_add_one _
    have hnat : (((q / (10 : Rat) ^ e).floor : Int) : Rat) ≤ ((q / (10 : Rat) ^ e).floor.toNat : Nat) := by
      exact_mod_cast Int.self_le_toNat _
    linarith
  have hmore {m : Nat} (hm : (q / (10 : Rat) ^ e).floor.toNat ≤ m) :
      q < ((m : Rat) + 1) * (10 : Rat) ^ e := by
    refine lt_of_lt_of_le hbelow (mul_le_mul_of_nonneg_right ?_ hpow.le)
    have : (((q / (10 : Rat) ^ e).floor.toNat : Nat) : Rat) ≤ m := by exact_mod_cast hm
    linarith
  unfold candidate at h
  dsimp only at h
  split at h
  · split at h
    · cases h
      exact hmore (Nat.le_refl _)
    · cases h
      exact hmore (Nat.le_succ _)
  · cases h
    exact hmore (Nat.le_refl _)
  · cases h
    exact hmore (Nat.le_succ _)
  · cases h

section

variable {N : Nat}

/-- Of the two multiples around a great number one is rounded to it, if its last place is greater
than their distance. -/
theorem nearest_multiple (hN : exactLimit < N) (hkept : roundedNat N = N) (hsize : N < overflow)
    {D : Nat} (hten : 10 ≤ D) (hD : D * 10 ^ 16 ≤ N) :
    nearest ((N / D * D : Nat) : Rat) = .int N ∨ nearest (((N / D + 1) * D : Nat) : Rat) = .int N := by
  obtain ⟨q, hq, hlow, hhigh⟩ := exists_of_kept hN hkept
  generalize hu : 2 ^ (N.log2 - 52) = u at hq
  have hupper : q * u < 2 ^ 53 * u :=
    Nat.mul_lt_mul_of_pos_right hhigh (hu ▸ Nat.two_pow_pos _)
  have hsplit : N / D * D + N % D = N := by
    rw [Nat.mul_comm]
    exact Nat.div_add_mod N D
  have hrest : N % D < D := Nat.mod_lt _ (by omega)
  have hlimit : exactLimit = 9007199254740992 := rfl
  by_cases hhalf : 2 * (N % D) ≤ D
  · refine Or.inl (nearest_of_roundedNat (by omega) ?_ hsize)
    have hbelow := roundedNat_below (X := N / D * D) (y := N % D) (by omega)
    rw [hsplit] at hbelow
    refine hbelow hkept (by omega) fun hpower => ?_
    -- below a power of two the places are half as great, but then it is the least such number
    have hleast : q * u = 2 ^ 52 * u := by
      rw [← hq, ← hu, ← Nat.pow_add]
      obtain ⟨-, hL⟩ := log2_far hN
      exact hpower.trans (congrArg (2 ^ ·) (by omega))
    omega
  · refine Or.inr (nearest_of_roundedNat ?_ ?_ hsize)
    · rw [Nat.add_mul, Nat.one_mul]
      omega
    · have habove := roundedNat_above (y := D - N % D) hN hkept (by omega)
      have hsum : N + (D - N % D) = (N / D + 1) * D := by
        rw [Nat.add_mul, Nat.one_mul]
        omega
      rwa [hsum] at habove

/-- Seventeen digits read back as the number. -/
theorem candidate_seventeen (hN : exactLimit < N) (hkept : roundedNat N = N)
    (hsize : N < overflow) : candidate (.int N) N (pointPlace N - 1 - (16 : Nat)) ≠ none := by
  have hplace := tenPow_pointPlace_le (Nat.ne_of_gt (Nat.zero_lt_of_lt hN)) hsize
  generalize he : pointPlace N - 1 - (16 : Nat) = e
  refine candidate_ne_none ?_
  rcases Int.lt_or_le 0 e with hpos | hneg
  · obtain ⟨E, rfl⟩ : ∃ E : Nat, e = (E + 1 : Nat) := ⟨e.natAbs - 1, by omega⟩
    have hten : 10 ≤ 10 ^ (E + 1) := by
      rw [Nat.pow_succ]
      exact Nat.le_mul_of_pos_left 10 (Nat.pow_pos (by decide))
    have hD : 10 ^ (E + 1) * 10 ^ 16 ≤ N := by
      rw [← Nat.pow_add]
      have hexp : pointPlace N - 1 = ((E + 1 + 16 : Nat) : Int) := by omega
      rw [hexp, zpow_natCast] at hplace
      exact_mod_cast hplace
    have hfloor : ((N : Rat) / 10 ^ ((E + 1 : Nat) : Int)).floor.toNat = N / 10 ^ (E + 1) := by
      have hfloor : ((N : Rat) / ((10 ^ (E + 1) : Nat) : Rat)).floor = ((N / 10 ^ (E + 1) : Nat) : Int) :=
        Rat.floor_natCast_div_natCast N (10 ^ (E + 1))
      rw [zpow_natCast]
      push_cast at hfloor ⊢
      rw [hfloor]
      exact Int.toNat_natCast _
    have hvalue (m : Nat) : Decimal.toRat ⟨m, (E + 1 : Nat)⟩ = ((m * 10 ^ (E + 1) : Nat) : Rat) := by
      unfold Decimal.toRat
      rw [zpow_natCast]
      push_cast
      rfl
    rw [hfloor, hvalue, hvalue]
    exact nearest_multiple hN hkept hsize hten hD
  · -- the number is a whole number of units
    obtain ⟨m, rfl⟩ : ∃ m : Nat, e = -(m : Int) := ⟨e.natAbs, by omega⟩
    refine Or.inl ?_
    have hunits : (N : Rat) / 10 ^ (-(m : Int)) = ((N * 10 ^ m : Nat) : Rat) := by
      rw [zpow_neg, zpow_natCast, div_inv_eq_mul]
      push_cast
      rfl
    have hfloor : ((N * 10 ^ m : Nat) : Rat).floor.toNat = N * 10 ^ m := by
      have hexact : ((N * 10 ^ m : Nat) : Rat).floor = (N * 10 ^ m : Nat) :=
        Rat.floor_intCast ((N * 10 ^ m : Nat) : Int)
      rw [hexact]
      exact Int.toNat_natCast _
    have hvalue : Decimal.toRat ⟨N * 10 ^ m, -(m : Int)⟩ = N := by
      unfold Decimal.toRat
      rw [zpow_neg, zpow_natCast]
      push_cast
      field_simp
    rw [hunits, hfloor, hvalue]
    exact nearest_of_roundedNat hN hkept hsize

/-- **The shortest decimal of a great number has a place for each of its digits.** -/
theorem sixteen_le_point (hN : exactLimit < N) (hkept : roundedNat N = N) (hsize : N < overflow) :
    16 ≤ (shortest (.int N) N).e + (Nat.toDigits 10 (shortest (.int N) N).m).length := by
  have hcandidate : ∃ e, candidate (.int N) N e = some (shortest (.int N) N) := by
    unfold shortest
    dsimp only
    cases hfind : (List.range 17).findSome? fun n => candidate (.int N) N (pointPlace N - 1 - (n : Nat)) with
    | none =>
        have hnone := List.findSome?_eq_none_iff.1 hfind 16 (by decide)
        exact absurd hnone (candidate_seventeen hN hkept hsize)
    | some d =>
        obtain ⟨n, -, hn⟩ := List.exists_of_findSome?_eq_some hfind
        exact ⟨_, hn⟩
  obtain ⟨e, hd⟩ := hcandidate
  generalize shortest (.int N) N = d at hd
  have hlt := lt_of_candidate hd
  generalize hlength : (Nat.toDigits 10 d.m).length = n
  have hdigits : d.m < 10 ^ n := by
    have hpos : 0 < (Nat.toDigits 10 d.m).length := List.length_pos_iff.2 Nat.toDigits_ne_nil
    rw [← hlength]
    exact (Nat.length_toDigits_le_iff (by decide) hpos).1 (Nat.le_refl _)
  have hpow : (10 : Rat) ^ (15 : Int) < 10 ^ (d.e + n) := by
    have hlow : (10 : Rat) ^ (15 : Int) < N := by
      have : 10 ^ 15 < N := Nat.lt_trans (by decide) hN
      exact_mod_cast this
    have hm : ((d.m : Rat) + 1) ≤ 10 ^ n := by exact_mod_cast hdigits
    calc (10 : Rat) ^ (15 : Int)
      _ < N := hlow
      _ < (d.m + 1) * 10 ^ d.e := hlt
      _ ≤ 10 ^ n * 10 ^ d.e := mul_le_mul_of_nonneg_right hm (zpow_pos (by norm_num) _).le
      _ = 10 ^ (d.e + n) := by rw [zpow_add₀ (by norm_num), zpow_natCast, mul_comm]
  have hpoint : (15 : Int) < d.e + n := (zpow_lt_zpow_iff_right₀ (by norm_num)).1 hpow
  exact hpoint

end

/-! ## Texts -/

/-- At most fifteen digits, and nothing else. -/
structure PlainDigits (cs : List Char) : Prop where
  digits : ∀ c ∈ cs, c.isDigit = true
  short : cs.length < 16

theorem not_plainDigits_layout {digits : List Char} {point : Int} (h : 16 ≤ point) :
    ¬ PlainDigits (layout digits point) := by
  intro hplain
  unfold layout at hplain
  dsimp only at hplain
  split at hplain
  · rename_i hpoint
    have hshort := hplain.short
    rw [List.length_append, List.length_replicate] at hshort
    have : (digits.length : Int) ≤ point := (by simpa using hpoint : _ ∧ _).1
    omega
  · split at hplain
    · have hdot := hplain.digits '.' (by simp)
      cases hdot
    · split at hplain
      · rename_i hpoint
        have : point ≤ 0 := (by simpa using hpoint : _ ∧ _).2
        omega
      · have he := hplain.digits 'e' (by simp)
        cases he

theorem dash_notMem_toDigits (n : Nat) : '-' ∉ Nat.toDigits 10 n := by
  intro h
  have := Nat.isDigit_of_mem_toDigits (by decide) (by decide) h
  cases this

theorem dash_notMem_layout {digits : List Char} (hdigits : '-' ∉ digits) {point : Int}
    (h : 1 ≤ point) : '-' ∉ layout digits point := by
  have htoDigits := dash_notMem_toDigits
  unfold layout
  dsimp only
  split
  · simp [hdigits, List.mem_replicate]
  · split
    · have htake : '-' ∉ digits.take point.toNat := fun hmem => hdigits (List.mem_of_mem_take hmem)
      have hdrop : '-' ∉ digits.drop point.toNat := fun hmem => hdigits (List.mem_of_mem_drop hmem)
      simp [htake, hdrop]
    · split
      · simp [hdigits, List.mem_replicate]
      · have hsign : ¬ point - 1 < 0 := by omega
        rw [if_neg hsign]
        split
        · simp_all
        · simp_all

/-- **A great integer is not written with a few digits only**, and its text has no dash. -/
theorem text_ofInt_of_far {j : Int} (hj : exactLimit < j) :
    '-' ∉ (ofInt j).text.toList ∧ ¬ PlainDigits (ofInt j).text.toList := by
  obtain ⟨m, rfl⟩ := Int.eq_ofNat_of_zero_le (Int.le_trans (Int.natCast_nonneg exactLimit) (Int.le_of_lt hj))
  have hm : exactLimit < m := Int.ofNat_lt.1 hj
  have hrounded : rounded (m : Int) = (roundedNat m : Int) := by
    rw [rounded, if_neg (Int.not_lt.2 (Int.natCast_nonneg m)), Int.natAbs_natCast]
  rw [ofInt_eq, hrounded, Int.natAbs_natCast]
  split
  · rename_i hsize
    have hbig := exactLimit_le_roundedNat hm
    have hkept := roundedNat_roundedNat m
    generalize roundedNat m = N at hsize hbig hkept
    rcases Nat.eq_or_lt_of_le hbig with rfl | hfar
    · -- the text of the limit itself has sixteen digits
      refine ⟨dash_notMem_toDigits exactLimit, fun hplain => ?_⟩
      have hlength := hplain.short
      revert hlength
      decide
    · have htext : (Number.int (N : Int)).text = magnitudeText (.int N) N := by
        rw [text, if_neg (by rw [Int.natAbs_natCast]; omega),
          if_neg (Int.not_lt.2 (Int.natCast_nonneg N))]
        rfl
      have hpoint := sixteen_le_point hfar hkept hsize
      rw [htext, magnitudeText, String.toList_ofList]
      refine ⟨dash_notMem_layout (fun hmem => ?_) (by omega), not_plainDigits_layout hpoint⟩
      have hmem := (List.dropWhile_sublist _).subset (List.mem_reverse.1 hmem)
      exact dash_notMem_toDigits _ (List.mem_reverse.1 hmem)
  · rw [decide_eq_false (Int.not_lt.2 (Int.natCast_nonneg m))]
    refine ⟨by decide, fun hplain => ?_⟩
    have hletter := hplain.digits 'I' (by decide)
    cases hletter

end Number
end LightSync
