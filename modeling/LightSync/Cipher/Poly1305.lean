import LightSync.Bytes.Basic

/-!
# Poly1305

A one-time authenticator: the message is a polynomial over the integers modulo
`2 ^ 130 - 5`, evaluated at one half of the key and masked with the other.
-/

set_option autoImplicit false

namespace LightSync
namespace Poly1305

def modulus : Nat := (1 <<< 130) - 5

/-- The point of evaluation: the first half of the key without the bits that are cleared. -/
def clamp (r : Nat) : Nat := r &&& 0x0ffffffc0ffffffc0ffffffc0fffffff

/-- Horner's rule; each piece of sixteen bytes carries a one after its last byte. -/
def evaluate (r : Nat) (message : Bytes) : Nat :=
  (Bytes.blocks 16 message).foldl
    (fun acc piece => (acc + Bytes.value (piece ++ [1])) * r % modulus) 0

/-- The sixteen bytes that authenticate a message under a 32-byte key used once. -/
def tag (key message : Bytes) : Bytes :=
  let r := clamp (Bytes.value (key.take 16))
  let s := Bytes.value ((key.drop 16).take 16)
  Bytes.littleEndian 16 (evaluate r message + s)

theorem length_tag (key message : Bytes) : (tag key message).length = 16 := by
  simp [tag]

end Poly1305
end LightSync
