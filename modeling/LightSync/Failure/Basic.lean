import LightSync.Bytes.Basic
import LightSync.Number.Basic

/-!
# Failures

Why an operation stopped. A `Failure` is a cause; its wording is in `Failure.message` and
nowhere else.
-/

set_option autoImplicit false

namespace LightSync

/-- Stored data that disagrees with what it decodes to, or that cannot be used. -/
inductive Corruption where
  | heightMismatch (payload row : Number)
  | unusableHash (height : Number) (length : Nat)
  | unusableParent (height : Number) (length : Nat)
  | unmatchedSpend (nullifier : Bytes) (height : Number)
  | other (text : String)
  deriving DecidableEq, Repr

/-- What keeps bytes from being an encoded block. -/
inductive Defect where
  | unexpectedEnd (offset : Nat) (needed : Nat)
  | countTooLarge (count remaining : Nat)
  | valueTooLarge (value : Nat)
  | trailing (count : Nat)
  | other (text : String)
  deriving DecidableEq, Repr

/-- How a chain is broken. -/
inductive Breach where
  | parentMismatch (height : Number)
  | discontinuity (expected found : Number)
  deriving DecidableEq, Repr

/-- The rule that a number had to meet. -/
inductive Requirement where
  | protoVersion
  | height
  | time
  | txIndex
  | fee
  | blockLimit
  | accountId
  | rewindHeight
  | noteValue
  | pruningDepth
  | reorgRewindDepth
  | scanLimit
  deriving DecidableEq, Repr

/-- What a row store or a file system refuses. -/
inductive StoreFault where
  | notADatabase
  | isDirectory
  | alreadyExists (path : String)
  | noSuchFile (path : String)
  | nameTooLong (call path : String)
  | device (reason : String)
  | datatypeMismatch
  | notNull (column : String)
  | unique (column : String)
  | foreignKey
  | overflow
  | injected
  | nestedTransaction
  | noCommit
  | noRollback
  | noSuchTable (table : String)
  | schemaTooNew (version supported : Int)
  | schemaUnknown
  deriving DecidableEq, Repr

/-- The storage operations, as callers are told about them. -/
inductive Operation where
  | openCache
  | initializeCache
  | insertBlock
  | insertBlocks
  | truncateCache
  | createRoot
  | openIndex
  | initializeIndex
  | readBlockFile (height : Number)
  | writeBlockFile (height : Number)
  | removeBlockFile (height : Number)
  | beginIndexBatch
  | writeIndexBatch
  | truncateIndex
  | readCachedBlocks
  | openWallet
  | initializeWallet
  | addAccount
  | readAccounts
  | readBalance
  | readBalanceAt
  | commitBlock
  | truncateWallet
  | other (text : String)
  deriving DecidableEq, Repr

/-- Why an operation stopped. -/
inductive Failure where
  | general (text : String)
  | corrupted (cause : Corruption)
  | undecodable (defect : Defect) (height : Option Number)
  | storage (operation : Operation) (cause : Failure)
  | brokenChain (breach : Breach)
  | rewindRefused (safe requested depth : Number)
  | unrecoverable (primary rollback : Failure)
  | busy (operation : String)
  | refused (requirement : Requirement) (got : Option Number)
  | outOfBounds
  | notIntegral
  | mistyped (column found expected : String)
  | store (fault : StoreFault)
  | unknownNetwork (name : String) (known : List String)
  | badPersonalization
  | badSeed (length : Nat)
  | plain (text : String)
  | thrown (text : String)
  | aborted (cause : Failure)
  deriving DecidableEq, Repr

end LightSync
