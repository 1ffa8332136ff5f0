import LightSync.Number.Basic

/-!
# Decimal text of numbers

A number is written with the fewest significant digits that read back as it; of the decimals
of that length that do, the one nearest to it is taken. The digits are written out in full
while the decimal point stands within `-5 … 21` places of the first one, otherwise with an
exponent. Reading rounds the decimal once, to the nearest number.
-/

set_option autoImplicit false

namespace LightSync
namespace Number

/-! ## Digits -/

/-- The least `k` with `q < 10 ^ k`, for a positive `q`: where the decimal point stands,
counted from the first significant digit. -/
def pointPlace (q : Rat) : Int :=
  let guess := ((q.num.natAbs.log2 : Int) - (q.den.log2 : Int)) * 30103 / 100000 - 1
  -- the guess is low by one to four places
  let nearby := (List.range 5).map fun i => guess + (i : Nat)
  (nearby.find? fun k => decide (q < (10 : Rat) ^ k)).getD guess

/-- The decimal `m` units of `10 ^ e`. -/
structure Decimal where
  m : Nat
  e : Int
  deriving DecidableEq, Repr

namespace Decimal

def toRat (d : Decimal) : Rat := (d.m : Rat) * (10 : Rat) ^ d.e

end Decimal

/-- Of the two decimals with last place `10 ^ e` around `q`, the one that reads back as `a`;
of two such the nearer, of two equally near the even one. -/
def candidate (a : Number) (q : Rat) (e : Int) : Option Decimal :=
  let below := (q / (10 : Rat) ^ e).floor.toNat
  let lower : Decimal := ⟨below, e⟩
  let upper : Decimal := ⟨below + 1, e⟩
  let down := q - lower.toRat
  let up := upper.toRat - q
  match nearest lower.toRat == a, nearest upper.toRat == a with
  | true, true => some (if down < up || (down = up && below % 2 = 0) then lower else upper)
  | true, false => some lower
  | false, true => some upper
  | false, false => none

/-- The shortest decimal that reads back as the positive number `a` of value `q`. Seventeen
digits are always enough. -/
def shortest (a : Number) (q : Rat) : Decimal :=
  let k := pointPlace q
  ((List.range 17).findSome? fun n => candidate a q (k - 1 - (n : Nat))).getD ⟨0, 0⟩

/-! ## Layout -/

/-- The point may stand this many places after the first digit … -/
def pointLast : Int := 21

/-- … and this many places before it, for a number to be written without an exponent. -/
def pointFirst : Int := -5

/-- Digits with the decimal point after place `point`. -/
def layout (digits : List Char) (point : Int) : List Char :=
  let n : Int := digits.length
  if n ≤ point && point ≤ pointLast then
    digits ++ List.replicate (point - n).toNat '0'
  else if 0 < point && point ≤ pointLast then
    digits.take point.toNat ++ '.' :: digits.drop point.toNat
  else if pointFirst ≤ point && point ≤ 0 then
    '0' :: '.' :: List.replicate (-point).toNat '0' ++ digits
  else
    let exponent := point - 1
    let mantissa := match digits with
      | d :: r@(_ :: _) => d :: '.' :: r
      | _ => digits
    mantissa ++ 'e' :: (if exponent < 0 then '-' else '+') :: (Nat.toDigits 10 exponent.natAbs)

/-- The text of a positive number `a` of value `q`. -/
def magnitudeText (a : Number) (q : Rat) : String :=
  let d := shortest a q
  let digits := Nat.toDigits 10 d.m
  let significant := (digits.reverse.dropWhile (· == '0')).reverse
  String.ofList (layout significant (d.e + digits.length))

/-- The text of a number. Integers up to the exact limit are their own shortest decimals; the sign
of zero is not written. -/
def text : Number → String
  | .nan => "NaN"
  | .infinite negative => if negative then "-Infinity" else "Infinity"
  | .negZero => "0"
  | .int n =>
      if n.natAbs ≤ exactLimit then toString n
      else if n < 0 then "-" ++ magnitudeText (.int (-n)) (-n)
      else magnitudeText (.int n) n
  | .fraction q =>
      if q < 0 then "-" ++ magnitudeText (.fraction (-q)) (-q)
      else magnitudeText (.fraction q) q

instance : ToString Number := ⟨text⟩

/-! ## Reading -/

/-- The number nearest to `mantissa * 10 ^ exponent`. Beyond four hundred places every
decimal is an infinity or zero, whatever its digits. -/
def ofDecimal (mantissa : Nat) (exponent : Int) : Number :=
  if mantissa = 0 then .int 0
  else if 400 < exponent then .infinite false
  else if exponent + (Nat.toDigits 10 mantissa).length < -400 then .int 0
  else nearest (Decimal.toRat ⟨mantissa, exponent⟩)

def signed (negative : Bool) (a : Number) : Number := if negative then -a else a

/-- A signed run of digits. -/
def readExponent (cs : List Char) : Option Int :=
  let (negative, digits) := match cs with
    | '-' :: r => (true, r)
    | '+' :: r => (false, r)
    | r => (false, r)
  if digits.isEmpty || !digits.all Char.isDigit then none
  else
    let n : Int := Nat.ofDigitChars 10 digits 0
    some (if negative then -n else n)

/-- An unsigned decimal: digits, a fractional part if any, an exponent if any. -/
def readMagnitude (cs : List Char) : Option Number :=
  let whole := cs.takeWhile Char.isDigit
  let afterWhole := cs.dropWhile Char.isDigit
  let (fractional, tail) := match afterWhole with
    | '.' :: r => (r.takeWhile Char.isDigit, r.dropWhile Char.isDigit)
    | r => ([], r)
  let digits := whole ++ fractional
  if digits.isEmpty then none
  else
    let places : Int := fractional.length
    let mantissa := Nat.ofDigitChars 10 digits 0
    match tail with
    | [] => some (ofDecimal mantissa (-places))
    | c :: r =>
        if c == 'e' || c == 'E' then
          (readExponent r).map fun e => ofDecimal mantissa (e - places)
        else none

/-- Reads the text of a number: a decimal, an infinity or not-a-number. -/
def ofText? (s : String) : Option Number :=
  let (negative, body) := match s.toList with
    | '-' :: r => (true, r)
    | r => (false, r)
  if body == "NaN".toList then some .nan
  else if body == "Infinity".toList then some (.infinite negative)
  else (readMagnitude body).map (signed negative)

end Number
end LightSync
