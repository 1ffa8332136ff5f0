import LightSync.Store.Keyed
import LightSync.Store.Column

/-!
# Tables keyed by height

Both caches keep a table with one row per height, and ask the same things of it: the rows above
a height, the row at a height, and how far the heights run without a gap.
-/

set_option autoImplicit false

namespace LightSync
namespace Keyed

variable {β : Type}

/-- A walk begins above this height when no block was seen. -/
def beforeAll : Number := -1

/-- The entries above a height, in order, as many as the limit lets through. -/
def above (t : Keyed β) (last : Option Number) (limit : Option Number) :
    Except Failure (List (Int × β)) := do
  let asked ← RowLimit.ofBlocks limit
  match RowLimit.rows asked with
  | .error fault => throw (.store fault)
  | .ok most =>
      let after := last.getD beforeAll
      let entries := t.entries.filter fun e => decide (after < Number.int e.1)
      match most with
      | some n => return entries.take n
      | none => return entries

/-- The table without the rows above a height. -/
def upTo (t : Keyed β) (height : Number) : Keyed β :=
  t.filter fun k => !decide (height < Number.int k)

/-- The row at a height, if that is an integer. -/
def at? (t : Keyed β) (height : Number) : Option β :=
  height.toInt?.bind t.find?

/-- The lowest key from a height on whose successor is missing. -/
def runEnd? (t : Keyed β) (floor : Number) : Option Int :=
  t.keys.find? fun k => decide (floor ≤ Number.int k) && !t.contains (k + 1)

/-- How far the keys run from a height without a gap, if that height is there. -/
def runFrom? (t : Keyed β) (floor : Number) : Option Int :=
  match t.at? floor with
  | some _ => t.runEnd? floor
  | none => none

/-- How far the keys run from the lowest one without a gap. -/
def runFromLowest? (t : Keyed β) : Option Int :=
  t.first?.bind fun e => t.runEnd? (.int e.1)

end Keyed
end LightSync
