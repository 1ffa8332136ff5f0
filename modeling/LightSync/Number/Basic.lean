/-!
# Numbers

The quantities that callers hand in — heights, times, fees, values, limits — are binary64
numbers. A `Number` says which one exactly: an integer, the negative zero, a proper fraction,
an infinity or not-a-number. Nothing is kept in floating point; arithmetic is done in the
rationals and rounded once, to nearest, a half going to the even neighbour.

Integers come first: as long as they stay within `exactLimit` they subtract and compare like the
integers they are (`int_sub_int`, `int_lt_int`, `int_le_int`).
-/

set_option autoImplicit false

namespace LightSync

/-- A binary64 number by its exact value. -/
inductive Number where
  | int (n : Int)
  | negZero
  | fraction (q : Rat)
  | infinite (negative : Bool)
  | nan
  deriving DecidableEq, Repr

namespace Number

/-! ## Rounding -/

/-- The integer nearest to `num / den`, a half going to the even neighbour. -/
def roundDiv (num den : Nat) : Nat :=
  let q := num / den
  let r := num % den
  if 2 * r < den then q
  else if den < 2 * r then q + 1
  else if q % 2 = 0 then q else q + 1

/-- The magnitude of `q` in units of `2 ^ e`, as a numerator and a denominator. -/
def scaled (q : Rat) (e : Int) : Nat × Nat :=
  (q.num.natAbs <<< (-e).toNat, q.den <<< e.toNat)

/-- The exponent of the last place of the binary64 numbers around `q`: with it the
significand lies in `[2 ^ 52, 2 ^ 53)`, or `q` is so small that the exponent is the least one. -/
def lastPlace (q : Rat) : Int :=
  -- with this exponent the quotient has 52 or 53 bits before the point
  let guess : Int := (q.num.natAbs.log2 : Int) - (q.den.log2 : Int) - 52
  let (num, den) := scaled q guess
  max (-1074) (if num < den <<< 52 then guess - 1 else guess)

/-- A rational that is a binary64 number. -/
def ofExact (q : Rat) : Number :=
  if q.den = 1 then .int q.num else .fraction q

/-- The binary64 number nearest to `q`; a negative one too small to tell from zero keeps
its sign. -/
def nearest (q : Rat) : Number :=
  let e := lastPlace q
  let (num, den) := scaled q e
  let significand := roundDiv num den
  if significand = 0 then
    if q.num < 0 then .negZero else .int 0
  else if 1 <<< 1024 ≤ significand <<< e.toNat then
    .infinite (q.num < 0)
  else
    let magnitude := mkRat (significand <<< e.toNat : Nat) (1 <<< (-e).toNat)
    ofExact (if q.num < 0 then -magnitude else magnitude)

/-- Up to this integer, `2 ^ 53`, every integer is a number. -/
def exactLimit : Nat := 9007199254740992

/-- The number nearest to an integer: the integer itself up to the exact limit. -/
def ofInt (n : Int) : Number :=
  if n.natAbs ≤ exactLimit then .int n else nearest n

def ofNat (n : Nat) : Number := ofInt n

instance (n : Nat) : OfNat Number n := ⟨ofNat n⟩

/-! ## Values -/

/-- The greatest integer up to which every integer is nearest to no other number than itself. -/
def maxSafe : Nat := exactLimit - 1

/-- The value of a finite number. -/
def toRat? : Number → Option Rat
  | .int n => some n
  | .negZero => some 0
  | .fraction q => some q
  | .infinite _ => none
  | .nan => none

/-- The integer that the number is, if it is one. -/
def toInt? : Number → Option Int
  | .int n => some n
  | .negZero => some 0
  | _ => none

def isInteger (a : Number) : Bool := a.toInt?.isSome

/-- The integer that the number is, if it is one whose neighbours are numbers too. -/
def toSafeInt? (a : Number) : Option Int :=
  a.toInt?.filter fun n => n.natAbs ≤ maxSafe

/-- The finite number without its fractional part; zero for the others. -/
def truncate : Number → Int
  | .int n => n
  | .fraction q => q.num.tdiv q.den
  | _ => 0

/-- What a store of `2 ^ bits` values keeps of the number: its integer part, wrapped around. -/
def wrapped (a : Number) (bits : Nat) : Nat :=
  (a.truncate % (1 <<< bits : Nat)).toNat

/-! ## Order and arithmetic -/

/-- Strictly less; not-a-number is in no order with anything. -/
def lt : Number → Number → Bool
  | .int a, .int b => a < b
  | .nan, _ => false
  | _, .nan => false
  | .infinite a, .infinite b => a && !b
  | .infinite a, _ => a
  | _, .infinite b => !b
  | a, b => match a.toRat?, b.toRat? with
    | some p, some q => p < q
    | _, _ => false

/-- The same value: not-a-number differs from itself and the two zeros are one. -/
def same : Number → Number → Bool
  | .int a, .int b => a = b
  | .nan, _ => false
  | _, .nan => false
  | .infinite a, .infinite b => a = b
  | a, b => match a.toRat?, b.toRat? with
    | some p, some q => p = q
    | _, _ => false

instance : LT Number := ⟨fun a b => a.lt b = true⟩
instance : LE Number := ⟨fun a b => (a.lt b || a.same b) = true⟩

instance (a b : Number) : Decidable (a < b) := inferInstanceAs (Decidable (a.lt b = true))
instance (a b : Number) : Decidable (a ≤ b) :=
  inferInstanceAs (Decidable ((a.lt b || a.same b) = true))

def neg : Number → Number
  | .int n => if n = 0 then .negZero else .int (-n)
  | .negZero => .int 0
  | .fraction q => .fraction (-q)
  | .infinite negative => .infinite (!negative)
  | .nan => .nan

/-- The sum, rounded. Two negative zeros make one; any other sum of zero is positive. -/
def add : Number → Number → Number
  | .int a, .int b => ofInt (a + b)
  | .nan, _ => .nan
  | _, .nan => .nan
  | .infinite a, .infinite b => if a = b then .infinite a else .nan
  | .infinite a, _ => .infinite a
  | _, .infinite b => .infinite b
  | .negZero, b => b
  | a, .negZero => a
  | a, b => match a.toRat?, b.toRat? with
    | some p, some q => nearest (p + q)
    | _, _ => .nan

def sub : Number → Number → Number
  | .int a, .int b => ofInt (a - b)
  | a, b => a.add b.neg

instance : Neg Number := ⟨neg⟩
instance : Add Number := ⟨add⟩
instance : Sub Number := ⟨sub⟩

/-! ## Integers within the exact range -/

theorem ofInt_of_le {n : Int} (h : n.natAbs ≤ exactLimit) : ofInt n = .int n := by
  simp only [ofInt, h, if_true]

theorem int_sub_int {a b : Int} (h : (a - b).natAbs ≤ exactLimit) :
    Number.int a - Number.int b = .int (a - b) :=
  ofInt_of_le h

theorem int_lt_int {a b : Int} : Number.int a < Number.int b ↔ a < b := by
  simp only [LT.lt, lt, decide_eq_true_eq]

theorem int_same_int {a b : Int} : (Number.int a).same (.int b) = true ↔ a = b := by
  simp only [same, decide_eq_true_eq]

theorem int_le_int {a b : Int} : Number.int a ≤ Number.int b ↔ a ≤ b := by
  simp only [LE.le, lt, same, Bool.or_eq_true, decide_eq_true_eq]
  exact Int.le_iff_lt_or_eq.symm

end Number

end LightSync
