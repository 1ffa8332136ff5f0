import LightSync.Store.Database

/-!
# Sums of a column

A column of integers is summed exactly as long as it keeps its numbers as integers, and a sum of
more than 64 bits is refused. From the first number of another kind on the sum is kept as a
rounded number with the error of its roundings beside it, and no longer refused.
-/

set_option autoImplicit false

namespace LightSync

/-- The magnitude. -/
def Number.abs (a : Number) : Number := if a < 0 then -a else a

/-- Whether the number has a value. -/
def Number.isFinite (a : Number) : Bool := a.toRat?.isSome

/-- A sum under way. -/
inductive ColumnSum where
  | exact (total : Int)
  | rounded (total error : Number) (outOfRange : Bool)
  deriving DecidableEq, Repr

namespace ColumnSum

/-- Integers beyond this are added in two parts that are exact. -/
def splitFrom : Nat := 4503599627370496

def lowPart (n : Int) : Int := n.tmod 16384

/-- Adds a number to a rounded total, and what the rounding lost to the error. -/
def compensate (total error a : Number) : Number × Number :=
  let next := total + a
  let lost := if a.abs < total.abs then (total - next) + a else (a - next) + total
  (next, error + lost)

/-- Adds an integer to a rounded total. -/
def compensateInt (total error : Number) (n : Int) : Number × Number :=
  if splitFrom ≤ n.natAbs then
    let (total, error) := compensate total error (Number.ofInt (n - lowPart n))
    compensate total error (Number.ofInt (lowPart n))
  else compensate total error (Number.ofInt n)

/-- An exact total as a rounded one. -/
def approximate (n : Int) : Number × Number :=
  if splitFrom ≤ n.natAbs then (Number.ofInt (n - lowPart n), Number.ofInt (lowPart n))
  else (Number.ofInt n, 0)

/-- Adds one number. -/
def add (s : ColumnSum) (a : Number) : ColumnSum :=
  match s, a.keptInt? with
  | .exact total, some n =>
      if fitsWord (total + n) then .exact (total + n)
      else
        -- only a later number of another kind can lift the refusal
        let (t, e) := approximate total
        let (t, e) := compensateInt t e n
        .rounded t e true
  | .exact total, none =>
      let (t, e) := approximate total
      let (t, e) := compensate t e a
      .rounded t e false
  | .rounded total error outOfRange, some n =>
      let (t, e) := compensateInt total error n
      .rounded t e outOfRange
  | .rounded total error _, none =>
      let (t, e) := compensate total error a
      .rounded t e false

/-- The sum as it is read. -/
def result : ColumnSum → Except StoreFault Number
  | .exact total => .ok (Number.ofInt total)
  | .rounded total error outOfRange =>
      if outOfRange then .error .overflow
      else
        let sum := if error.isFinite then total + error else total
        .ok (if sum = .nan then 0 else sum)

end ColumnSum

/-- The sum of a column; that of no rows is zero. -/
def columnSum (column : List Number) : Except StoreFault Number :=
  (column.foldl ColumnSum.add (.exact 0)).result

end LightSync
