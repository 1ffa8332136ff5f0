import LightSync.Block.Identity
import LightSync.Cache.Walk
import LightSync.Wallet.Basic

/-!
# Links

A run of blocks extends a chain when each block is one above the one below it and names its hash
as that of the parent. `Links.check` follows the run that begins above a tip (at the lowest block
when there is none) up to the first missing height, and fails at the first link that does not
hold.
-/

set_option autoImplicit false

namespace LightSync

/-- How many blocks of a run were checked, and the height of the last of them. -/
structure LinkReport where
  checked : Nat
  height : Option Number
  deriving DecidableEq, Repr

namespace Links

/-- What the next block of a run has to be like. -/
structure Expectation where
  height : Option Number
  parent : Option Bytes
  deriving DecidableEq, Repr

/-- What may follow a tip: anything, when there is none. -/
def after (tip : Option ChainTip) : Expectation :=
  match tip with
  | some t => ⟨some (t.height + 1), some t.hash⟩
  | none => ⟨none, none⟩

/-- Whether a block stands at the expected height. -/
def fits (e : Expectation) (b : Block) : Bool :=
  match e.height with
  | some h => b.height.same h
  | none => true

/-- Whether a block names the expected parent. -/
def checkParent (parent : Option Bytes) (b : Block) : Except Failure Unit :=
  match parent with
  | none => .ok ()
  | some hash =>
      match b.parent? with
      | .error e => .error e
      | .ok named =>
          if named = hash then .ok () else .error (.brokenChain (.parentMismatch b.height))

/-- Checks one block; the result is what the next one has to be like. -/
def checkBlock (e : Expectation) (b : Block) : Except Failure Expectation :=
  match checkParent e.parent b with
  | .error f => .error f
  | .ok () =>
      match b.hash? with
      | .error f => .error f
      | .ok hash => .ok ⟨some (b.height + 1), some hash⟩

/-- Checks blocks in order; `stop` is met when none of them is missing. -/
def follow (stop : Option Failure) : Expectation → LinkReport → List Block →
    Except Failure LinkReport
  | _, report, [] =>
      match stop with
      | some f => .error f
      | none => .ok report
  | e, report, b :: rest =>
      if fits e b then
        match checkBlock e b with
        | .error f => .error f
        | .ok next => follow stop next ⟨report.checked + 1, some b.height⟩ rest
      else .ok report

/-- Checks the run of blocks above a tip. -/
def check (tip : Option ChainTip) (walk : Walk Block) : Except Failure LinkReport :=
  follow walk.stop (after tip) ⟨0, none⟩ walk.items

end Links

end LightSync
