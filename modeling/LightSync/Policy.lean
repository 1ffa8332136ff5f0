import LightSync.Action

/-!
# Sync policy

How a wallet is to be synchronized: the network, where its chain begins, how far a rewind may
go and how much one scan takes. A caller gives part of it (`PolicyRequest`); `resolve` fills in
the defaults and checks the rest.
-/

set_option autoImplicit false

namespace LightSync

/-! ## Networks -/

inductive Network where
  | mainnet
  | testnet
  deriving DecidableEq, Repr

namespace Network

def all : List Network := [.mainnet, .testnet]

def name : Network → String
  | .mainnet => "mainnet"
  | .testnet => "testnet"

/-- The height at which Sapling became active; an empty wallet is scanned from there. -/
def saplingActivation : Network → Number
  | .mainnet => 419200
  | .testnet => 280000

def description : Network → String
  | .mainnet => "Zcash mainnet"
  | .testnet => "Zcash testnet"

/-- The network of a name. -/
def ofName (name : String) : Except Failure Network :=
  match all.find? (·.name == name) with
  | some network => .ok network
  | none => .error (.unknownNetwork name (all.map Network.name))

end Network

/-! ## Policies -/

/-- A field of a request: not mentioned, deliberately left empty, or given. -/
inductive Field (α : Type) where
  | absent
  | null
  | given (a : α)
  deriving DecidableEq, Repr

namespace Field

/-- The value, if there is one. -/
def value? {α : Type} : Field α → Option α
  | .given a => some a
  | _ => none

/-- The field as requested, or the default for one that is not mentioned. -/
def orElse {α : Type} (default : α) : Field α → Field α
  | .absent => .given default
  | f => f

end Field

/-- What a caller asks for. -/
structure PolicyRequest where
  network : Field String := .absent
  activationHeight : Field Number := .absent
  pruningDepth : Field Number := .absent
  stableCheckpoint : Field Number := .absent
  reorgRewindDepth : Field Number := .absent
  scanLimit : Field Number := .absent
  debug : Field Bool := .absent
  deriving DecidableEq, Repr

/-- A checked policy. Rewinds of fewer than `pruningDepth` blocks are always allowed, deeper
ones only back to the stable checkpoint; a fork is rewound `reorgRewindDepth` blocks below the
first bad height. -/
structure Policy where
  network : Network
  activationHeight : Field Number
  pruningDepth : Number
  stableCheckpoint : Field Number
  reorgRewindDepth : Number
  scanLimit : Option Number
  debug : Field Bool
  deriving DecidableEq, Repr

def defaultPruningDepth : Number := 100
def defaultReorgRewindDepth : Number := 10

/-- An integer that is at least `least`. -/
def Number.isIntegerFrom (a least : Number) : Bool :=
  a.isInteger && !decide (a < least)

namespace PolicyRequest

/-- The name of the requested network, as it is told. -/
def networkName : Field String → String
  | .absent => "undefined"
  | .null => "null"
  | .given name => name

/-- A number that has to meet a requirement. -/
def checked (requirement : Requirement) (least : Number) (f : Field Number) :
    Except Failure Number :=
  match f.value? with
  | some a => if a.isIntegerFrom least then .ok a else .error (.refused requirement (some a))
  | none => .error (.refused requirement none)

/-- The policy that a request stands for. -/
def resolve (r : PolicyRequest) : Except Failure Policy := do
  let network ← Network.ofName (networkName (r.network.orElse Network.mainnet.name))
  let pruningDepth ← checked .pruningDepth 0 (r.pruningDepth.orElse defaultPruningDepth)
  let reorgRewindDepth ←
    checked .reorgRewindDepth 1 (r.reorgRewindDepth.orElse defaultReorgRewindDepth)
  let scanLimit ← match r.scanLimit with
    | .absent => pure none
    | f => (checked .scanLimit 0 f).map some
  return {
    network, activationHeight := r.activationHeight, pruningDepth,
    stableCheckpoint := r.stableCheckpoint, reorgRewindDepth, scanLimit,
    debug := r.debug.orElse false }

/-- The height at which an empty wallet begins: the requested one, or that of the network,
which is looked up only then. -/
def activation (r : PolicyRequest) : Except Failure Number :=
  match r.activationHeight.value? with
  | some height => .ok height
  | none => (Network.ofName (networkName r.network)).map Network.saplingActivation

end PolicyRequest

namespace Policy

/-- The height at which an empty wallet begins. -/
def activation (p : Policy) : Number :=
  match p.activationHeight.value? with
  | some height => height
  | none => p.network.saplingActivation

/-- Whether debug lines are wanted. -/
def verbose (p : Policy) : Bool := p.debug.value? == some true

end Policy

end LightSync
