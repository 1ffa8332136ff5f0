import LightSync.Number.Decimal
import LightSync.Store.Medium
import LightSync.Wallet.Store

/-!
# Wallet databases of any age

A wallet database records the version of its schema. The first version made the tables and the
second their indexes; opening brings a database up to the second and refuses one from the
future. A database that claims a version without having the tables is found out when they are
needed.
-/

set_option autoImplicit false

namespace LightSync

/-- A wallet database as it is found. -/
structure WalletFile where
  version : Int
  tables : Option Wallet
  deriving DecidableEq, Repr

namespace WalletFile

/-- A fresh database. -/
def fresh : WalletFile := ⟨0, none⟩

/-- A database with the tables of the current schema. -/
def current (w : Wallet) : WalletFile := ⟨2, some w⟩

def supported : Int := 2

/-- Versions have 32 bits: they lie from `-2 ^ 31` up to below `2 ^ 31`, which is this bound. -/
def versionBound : Int := 2147483648

/-- The version that is recorded for a number: the integer that its text begins with, or zero
if that is no version. -/
def recordedVersion (a : Number) : Int :=
  let text := a.text.toList
  let magnitude : Int :=
    Nat.ofDigitChars 10 ((text.dropWhile (· == '-')).takeWhile Char.isDigit) 0
  let version := if text.head? = some '-' then -magnitude else magnitude
  if -versionBound ≤ version && version < versionBound then version else 0

/-- The database with all later versions of the schema applied. -/
def migrate (f : WalletFile) : Except StoreFault WalletFile :=
  if supported < f.version then .error (.schemaTooNew f.version supported)
  else if f.version = supported then .ok f
  else if f.version < 0 then .error .schemaUnknown
  else if f.version = 0 then .ok (current (f.tables.getD Wallet.empty))
  else match f.tables with
    | some w => .ok (current w)
    | none => .error (.noSuchTable "main.received_notes")

/-- Opens a wallet database. -/
def connect (m : Medium WalletFile) : Except Failure (Database WalletFile) :=
  m.connect .openWallet .initializeWallet fun found => (found.getD fresh).migrate

/-- The accounts, if there is a table of them. -/
def accountKeys (f : WalletFile) : Except Failure (List AccountKey) :=
  match f.tables with
  | some w => .ok w.accountKeys
  | none => .error (.storage .readAccounts (.store (.noSuchTable "accounts")))

end WalletFile

/-- Opens the store of a wallet. -/
def WalletStore.connect (m : Medium Wallet) : Except Failure WalletStore :=
  m.connect .openWallet .initializeWallet fun found =>
    match (match found with
      | some w => WalletFile.current w
      | none => WalletFile.fresh).migrate with
    | .error fault => .error fault
    | .ok f => .ok (f.tables.getD Wallet.empty)

end LightSync
