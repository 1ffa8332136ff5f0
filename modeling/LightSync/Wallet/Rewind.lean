import LightSync.Wallet.Store

/-!
# Rewinding

A wallet is taken back to a height. Fewer blocks than the pruning depth can always be taken
back; a deeper rewind has to reach the safe height, below which nothing of value is lost: the
stable checkpoint, or else the lowest height with an unspent note.
-/

set_option autoImplicit false

namespace LightSync

/-- What a rewind did; the heights are those of the tip before and after. -/
structure RewindReport where
  previous : Option Number
  height : Option Number
  notesRemoved : Nat
  spendsReversed : Nat
  rewound : Bool
  deriving DecidableEq, Repr

namespace WalletStore

def tipHeight (w : Wallet) : Option Number := w.tip?.map fun t => .int t.height

/-- The height that a deep rewind has to reach. -/
def safeHeight (stable : Option Number) (w : Wallet) : Option Number :=
  match stable with
  | some height => some height
  | none => w.lowestUnspent?.map .int

/-- Whether a rewind from `tip` to `target` goes deeper than is always allowed. -/
def isDeep (target depth : Number) (tip : Int) : Bool := decide (target < Number.int tip - depth)

/-- Refuses a deep rewind that stops above the safe height. -/
def checkDepth (target depth : Number) (stable : Option Number) (tip : Int) (w : Wallet) :
    Except Failure Unit :=
  if isDeep target depth tip then
    match safeHeight stable w with
    | some safe => if safe < target then .error (.rewindRefused safe target depth) else .ok ()
    | none => .ok ()
  else .ok ()

/-- Rewinds to a height that is below the tip. -/
def rewindBelow (target depth : Number) (stable : Option Number) (tip : Int) :
    Action WalletStore RewindReport := do
  Database.query (checkDepth target depth stable tip)
  let done ← truncate target
  let height ← Database.query fun w => .ok (tipHeight w)
  return {
    previous := some (.int tip), height, notesRemoved := done.notesRemoved,
    spendsReversed := done.spendsReversed, rewound := true }

/-- Rewinds to a height. An empty wallet and one whose tip is not above the height stay as they
are. -/
def rewind (target depth : Number) (stable : Option Number) : Action WalletStore RewindReport := do
  if !target.isInteger then throw (.refused .rewindHeight (some target))
  let tip ← Database.query fun w => .ok w.tip?
  match tip with
  | none => return ⟨none, none, 0, 0, false⟩
  | some t =>
      let height := Number.int t.height
      if height ≤ target then return ⟨some height, some height, 0, 0, false⟩
      else rewindBelow target depth stable t.height

end WalletStore

end LightSync
