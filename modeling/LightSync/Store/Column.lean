import LightSync.Action

/-!
# Columns and limits

What a query hands back for a column, and how a column is read as the type it should have; and
the row limit of a query.
-/

set_option autoImplicit false

namespace LightSync

/-- What a row holds in a column: nothing at all when it has no such column. -/
inductive Cell where
  | missing
  | null
  | number (a : Number)
  | text (s : String)
  | blob (bs : Bytes)
  deriving DecidableEq, Repr

namespace Cell

/-- What a cell holds, for a complaint about it. -/
def kind : Cell → String
  | .missing => "nothing"
  | .null => "NULL"
  | .number _ => "number"
  | .text _ => "string"
  | .blob _ => "object"

/-- The number in column `name`. -/
def number? (name : String) : Cell → Except Failure Number
  | .number a => .ok a
  | c => .error (.mistyped name c.kind "an integer")

/-- The number in column `name`, which may be empty. -/
def nullableNumber? (name : String) : Cell → Except Failure (Option Number)
  | .null => .ok none
  | c => (c.number? name).map some

/-- The bytes in column `name`. -/
def blob? (name : String) : Cell → Except Failure Bytes
  | .blob bs => .ok bs
  | c => .error (.mistyped name c.kind "a blob")

/-- The bytes in column `name`, which may be empty. -/
def nullableBlob? (name : String) : Cell → Except Failure (Option Bytes)
  | .null => .ok none
  | c => (c.blob? name).map some

end Cell

/-- The integers that a row store keeps have 64 bits: they lie from `-2 ^ 63` up to below
`2 ^ 63`, which is this bound. -/
def wordBound : Int := 9223372036854775808

/-- Whether an integer has 64 bits. -/
def fitsWord (n : Int) : Bool := -wordBound ≤ n && n < wordBound

namespace RowLimit

/-- The limit that lets every row through. -/
def unlimited : Number := -1

/-- The row limit for a number of blocks: none is a limit that lets every row through, anything
but a non-negative integer is refused. -/
def ofBlocks : Option Number → Except Failure Number
  | none => .ok unlimited
  | some a =>
      if a.isInteger && !decide (a < 0) then .ok a else .error (.refused .blockLimit (some a))

/-- The number of rows that a limit lets through, if it is one: a limit has to be an integer of
64 bits, and a negative one lets every row through. -/
def rows (limit : Number) : Except StoreFault (Option Nat) :=
  match limit.toInt? with
  | none => .error .datatypeMismatch
  | some n =>
      if !fitsWord n then .error .datatypeMismatch
      else if n < 0 then .ok none
      else .ok (some n.toNat)

end RowLimit

end LightSync
