import LightSync.Failure.Basic
import LightSync.Number.Decimal

/-!
# The wording of failures

One message per cause. Numbers appear in their shortest decimal form, byte strings in
hexadecimal.
-/

set_option autoImplicit false

namespace LightSync

namespace Corruption

def text : Corruption → String
  | .heightMismatch payload row =>
      s!"Block height {payload} did not match row's height field value {row}"
  | .unusableHash height length =>
      s!"block {height} carries a {length}-byte hash and no usable header"
  | .unusableParent height length =>
      s!"block {height} carries a {length}-byte previous hash and no usable header"
  | .unmatchedSpend nullifier height =>
      s!"no unspent wallet note matches nullifier {nullifier.hex} spent at height {height}"
  | .other text => text

end Corruption

namespace Defect

/-- Lengths and counts are told as the numbers nearest to them, an oversized value exactly. -/
def text : Defect → String
  | .unexpectedEnd offset needed =>
      s!"unexpected end of data at offset {offset}, needed {Number.ofNat needed} bytes"
  | .countTooLarge count remaining =>
      s!"element count {Number.ofNat count} exceeds remaining {remaining} bytes"
  | .valueTooLarge value => s!"u64 value {value} exceeds the safe integer range"
  | .trailing count => s!"{count} trailing bytes"
  | .other text => text

end Defect

namespace Breach

/-- The lowest height that has to be discarded. -/
def lowerBound : Breach → Number
  | .parentMismatch height => height
  | .discontinuity _ found => found

def text (b : Breach) : String :=
  let bound := b.lowerBound
  match b with
  | .parentMismatch _ =>
      s!"the previous-block hash of block {bound} does not match the block below it"
  | .discontinuity expected found =>
      s!"block height discontinuity, expected {expected} but found {found}"

end Breach

namespace Requirement

def text : Requirement → String
  | .protoVersion => "protoVersion must be an unsigned 32-bit integer"
  | .height => "height must be an unsigned 32-bit integer"
  | .time => "time must be an unsigned 32-bit integer"
  | .txIndex => "tx index must be an unsigned 32-bit integer"
  | .fee => "tx fee must be a non-negative safe integer"
  | .blockLimit => "Block limit must be a non-negative integer"
  | .accountId => "Account id must be a non-negative integer"
  | .rewindHeight => "Rewind height must be an integer"
  | .noteValue => "Note value must be a non-negative safe integer"
  | .pruningDepth => "pruningDepth must be a non-negative integer"
  | .reorgRewindDepth => "reorgRewindDepth must be a positive integer"
  | .scanLimit => "scanLimit must be a non-negative integer"

end Requirement

namespace StoreFault

def text : StoreFault → String
  | .notADatabase => "file is not a database"
  | .isDirectory => "EISDIR: illegal operation on a directory, read"
  | .alreadyExists path => s!"EEXIST: file already exists, mkdir '{path}'"
  | .noSuchFile path => s!"ENOENT: no such file or directory, open '{path}'"
  | .nameTooLong call path => s!"ENAMETOOLONG: name too long, {call} '{path}'"
  | .device reason => reason
  | .datatypeMismatch => "datatype mismatch"
  | .notNull column => s!"NOT NULL constraint failed: {column}"
  | .unique column => s!"UNIQUE constraint failed: {column}"
  | .foreignKey => "FOREIGN KEY constraint failed"
  | .overflow => "integer overflow"
  | .injected => "injected failure"
  | .nestedTransaction => "cannot start a transaction within a transaction"
  | .noCommit => "cannot commit - no transaction is active"
  | .noRollback => "cannot rollback - no transaction is active"
  | .noSuchTable table => s!"no such table: {table}"
  | .schemaTooNew version supported =>
      s!"Wallet database schema version {version} is newer than supported version {supported}"
  | .schemaUnknown => "Cannot read properties of undefined (reading 'sql')"

end StoreFault

namespace Operation

def text : Operation → String
  | .openCache => "open cache database"
  | .initializeCache => "initialize cache database"
  | .insertBlock => "insert block"
  | .insertBlocks => "insert blocks"
  | .truncateCache => "truncate block cache"
  | .createRoot => "create block cache root"
  | .openIndex => "open block metadata database"
  | .initializeIndex => "initialize block metadata database"
  | .readBlockFile height => s!"read block file at height {height}"
  | .writeBlockFile height => s!"write block file at height {height}"
  | .removeBlockFile height => s!"remove block file at height {height}"
  | .beginIndexBatch => "begin block metadata batch"
  | .writeIndexBatch => "write block metadata"
  | .truncateIndex => "truncate block metadata"
  | .readCachedBlocks => "read cached blocks"
  | .openWallet => "open wallet database"
  | .initializeWallet => "initialize wallet database"
  | .addAccount => "add account"
  | .readAccounts => "read accounts"
  | .readBalance => "read balance"
  | .readBalanceAt => "read balance at anchor"
  | .commitBlock => "commit scanned block"
  | .truncateWallet => "truncate wallet"
  | .other text => text

end Operation

namespace Failure

def message : Failure → String
  | .general text => text
  | .corrupted cause =>
      let what := cause.text
      s!"Data is corrupted: {what}"
  | .undecodable defect none =>
      let what := defect.text
      s!"Failed to decode compact block: {what}"
  | .undecodable defect (some height) =>
      let what := defect.text
      s!"Failed to decode compact block at height {height}: {what}"
  | .storage operation cause =>
      let during := operation.text
      let why := cause.message
      s!"Storage operation \"{during}\" failed: {why}"
  | .brokenChain breach =>
      let bound := breach.lowerBound
      let what := breach.text
      s!"Invalid chain (lower bound: {bound}): {what}"
  | .rewindRefused safe requested depth =>
      s!"A rewind must be either of less than {depth} blocks, or at least back to block {safe} for your wallet; the requested height was {requested}."
  | .unrecoverable primary rollback =>
      let first := primary.message
      let second := rollback.message
      s!"Rollback failed with error {second} while attempting to recover from error {first}; database is likely corrupt."
  | .busy operation =>
      s!"Cannot {operation}: another sync operation is in progress for this wallet"
  | .refused requirement got =>
      let rule := requirement.text
      let value := match got with
        | some number => number.text
        | none => "null"
      s!"{rule}, got {value}"
  | .outOfBounds => "an access beyond the end of a buffer"
  | .notIntegral => "a number that is no integer has no 64-bit form"
  | .mistyped column found expected => s!"Column {column} holds {found}, expected {expected}"
  | .store fault => fault.text
  | .unknownNetwork name known =>
      let names := String.intercalate ", " known
      s!"Unknown network \"{name}\". Available: {names}"
  | .badPersonalization => "blake2sPersonal: personalization must be 8 bytes"
  | .badSeed length => s!"rseed must be {length} bytes"
  | .plain text => text
  | .thrown text => text
  | .aborted _ => "process.abort"

end Failure

end LightSync
