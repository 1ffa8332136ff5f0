import LightSync.Cipher.ChaCha20
import LightSync.Cipher.Poly1305

/-!
# Authenticated encryption

ChaCha20-Poly1305 without associated data. A ciphertext is the encrypted text followed by its
sixteen-byte tag; decryption returns the text only when the tag fits (`decrypt_encrypt`).
-/

set_option autoImplicit false

namespace LightSync
namespace Authenticated

def tagLength : Nat := 16

/-- The tag of an encrypted text. The first block of the stream keys it, and the lengths of the
absent associated data and of the text close the message. -/
def tagOf (key nonce body : Bytes) : Bytes :=
  let message := Bytes.padTo 16 body ++ Bytes.littleEndian 8 0 ++ Bytes.littleEndian 8 body.length
  Poly1305.tag (ChaCha20.block key nonce 0) message

def encrypt (key nonce text : Bytes) : Bytes :=
  let body := ChaCha20.crypt key nonce 1 text
  body ++ tagOf key nonce body

/-- The text that was encrypted, if this is a ciphertext under the key and nonce. -/
def decrypt (key nonce data : Bytes) : Option Bytes :=
  if data.length < tagLength then none
  else
    let n := data.length - tagLength
    let body := data.take n
    if data.drop n = tagOf key nonce body then some (ChaCha20.crypt key nonce 1 body) else none

theorem length_encrypt (key nonce text : Bytes) :
    (encrypt key nonce text).length = text.length + tagLength := by
  simp [encrypt, tagOf, ChaCha20.length_crypt, Poly1305.length_tag, tagLength]

theorem decrypt_encrypt (key nonce text : Bytes) :
    decrypt key nonce (encrypt key nonce text) = some text := by
  have hn : (encrypt key nonce text).length - tagLength
      = (ChaCha20.crypt key nonce 1 text).length := by
    rw [length_encrypt, ChaCha20.length_crypt, Nat.add_sub_cancel]
  have hlen : ¬ (encrypt key nonce text).length < tagLength := by
    rw [length_encrypt]
    omega
  simp only [decrypt, hlen, if_false, hn]
  simp [encrypt, ChaCha20.crypt_crypt]

end Authenticated
end LightSync
