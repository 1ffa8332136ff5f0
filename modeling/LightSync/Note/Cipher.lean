import LightSync.Bytes.CompactSize
import LightSync.Cipher.Authenticated
import LightSync.Hash.Blake2s
import LightSync.Note.Basic

/-!
# Encrypted notes

A note travels encrypted to a viewing key. The plaintext is a lead byte, the value in eight
little-endian bytes and a seed; the key is derived from the viewing key and the ephemeral key of
the output, so each key is used once and the nonce is zero. The nullifier of a note is derived
from the viewing key, the commitment and the position, so that scanning again in the same order
gives it again.

`Note.reader` tries the viewing keys in order; the first one that opens the ciphertext to a
note decides.
-/

set_option autoImplicit false

namespace LightSync
namespace Note

/-! ## Derivation -/

def keyPurpose : Bytes := Bytes.ofString "CSyncKey"
def nullifierPurpose : Bytes := Bytes.ofString "CSync_nf"
def nonce : Bytes := List.replicate 12 0

def purposeLength : Nat := 8

/-- The personalized hash, for a purpose of the right length. -/
def personalHash (purpose data : Bytes) : Except Failure Bytes :=
  if purpose.length = purposeLength then .ok (Blake2s.hash purpose data)
  else .error .badPersonalization

/-- The key of the ciphertext in an output with this ephemeral key. -/
def cipherKey (viewingKey ephemeralKey : Bytes) : Bytes :=
  Blake2s.hash keyPurpose (viewingKey ++ ephemeralKey)

/-- The nullifier of the note with this commitment at a position. -/
def nullifier (viewingKey commitment : Bytes) (position : Number) : Except Failure Bytes := do
  let place ← position.toBytes
  return Blake2s.hash nullifierPurpose (viewingKey ++ commitment ++ place)

/-! ## Plaintext -/

def leadByte : UInt8 := 0x02
def seedLength : Nat := 27
def plaintextLength : Nat := 36
def ciphertextLength : Nat := 52
def ephemeralKeyLength : Nat := 32

/-- The seed of a note that was given none. -/
def zeroSeed : Bytes := List.replicate seedLength 0

def plaintext (value : Nat) (seed : Bytes) : Bytes :=
  leadByte :: Bytes.littleEndian 8 value ++ seed

/-- The value that a plaintext carries, unless it is no plaintext of a note. -/
def valueOf? (text : Bytes) : Option Nat :=
  if text.length = plaintextLength && text.head? == some leadByte then
    let value := Bytes.value ((text.drop 1).take 8)
    if value ≤ Number.maxSafe then some value else none
  else none

/-! ## Encryption and trial decryption -/

/-- The ciphertext of a note for the holder of a viewing key. -/
def encrypt (viewingKey ephemeralKey : Bytes) (value : Number) (seed : Bytes) :
    Except Failure Bytes :=
  match value.toSafeInt? with
  | none => .error (.refused .noteValue (some value))
  | some n =>
      if n < 0 then .error (.refused .noteValue (some value))
      else if seed.length ≠ seedLength then .error (.badSeed seedLength)
      else
        .ok (Authenticated.encrypt (cipherKey viewingKey ephemeralKey) nonce
          (plaintext n.toNat seed))

/-- The value of the note in an output, if the viewing key opens it. -/
def openWith (viewingKey : Bytes) (output : SaplingOutput) : Option Nat :=
  (Authenticated.decrypt (cipherKey viewingKey output.ephemeralKey) nonce
    output.ciphertext).bind valueOf?

/-- The first key that opens the output, and the value of the note. -/
def firstOpening (output : SaplingOutput) : List AccountKey → Option (AccountKey × Nat)
  | [] => none
  | key :: rest =>
      match openWith key.viewingKey output with
      | some value => some (key, value)
      | none => firstOpening output rest

/-- Recognizes the notes that are encrypted to one of the keys. The memo is not part of a
compact ciphertext. -/
def reader : NoteReader := fun output keys place =>
  if output.ciphertext.length ≠ ciphertextLength || output.ephemeralKey.length ≠ ephemeralKeyLength
  then .ok none
  else
    match firstOpening output keys with
    | none => .ok none
    | some (key, value) => do
        let nf ← nullifier key.viewingKey output.commitment place.position
        return some { account := key.account, value := .int value, memo := none, nullifier := nf }

end Note
end LightSync
