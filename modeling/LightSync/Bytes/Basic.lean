/-!
# Byte strings

Byte strings are lists of bytes. This file holds their hexadecimal text, the little-endian
forms of natural numbers, and their division into blocks.

* `value_littleEndian`: reading back a little-endian form gives the number modulo its range;
* `littleEndian_value`: every byte string is the little-endian form of its value.
-/

set_option autoImplicit false

namespace LightSync

abbrev Bytes := List UInt8

namespace Bytes

/-! ## Hexadecimal text -/

def hexDigit (n : Nat) : Char := "0123456789abcdef".toList.getD n '0'

/-- Two lower-case digits per byte. -/
def hex (bs : Bytes) : String :=
  String.ofList (bs.flatMap fun b => [hexDigit (b.toNat / 16), hexDigit (b.toNat % 16)])

def hexValue? (c : Char) : Option Nat :=
  if c.isDigit then some (c.toNat - '0'.toNat)
  else if 'a' ≤ c && c ≤ 'f' then some (c.toNat - 'a'.toNat + 10)
  else if 'A' ≤ c && c ≤ 'F' then some (c.toNat - 'A'.toNat + 10)
  else none

/-- The byte that two hexadecimal digits spell. -/
def ofHexPair? (hi lo : Char) : Option UInt8 :=
  match hexValue? hi, hexValue? lo with
  | some h, some l => some (UInt8.ofNat (16 * h + l))
  | _, _ => none

/-- The bytes `before`, last one first, and those that pairs of hexadecimal digits spell, up to
the first pair that is none. -/
def ofHexDigits (before : Bytes) : List Char → Bytes
  | hi :: lo :: r =>
      match ofHexPair? hi lo with
      | some b => ofHexDigits (b :: before) r
      | none => before.reverse
  | _ => before.reverse

/-- The bytes that a text spells in hexadecimal digits. Reading stops in front of the first pair
that is no byte, and a digit without a partner is left out. -/
def ofHex (s : String) : Bytes := ofHexDigits [] s.toList

/-- The UTF-8 bytes of a text. -/
def ofString (s : String) : Bytes := s.toUTF8.data.toList

/-! ## Little-endian numbers -/

/-- The low `width` bytes of a number, least significant first. -/
def littleEndian : Nat → Nat → Bytes
  | 0, _ => []
  | width + 1, n => UInt8.ofNat n :: littleEndian width (n / 256)

/-- The number whose little-endian form the bytes are. -/
def value : Bytes → Nat
  | [] => 0
  | b :: r => b.toNat + 256 * value r

@[simp] theorem length_littleEndian (width n : Nat) : (littleEndian width n).length = width := by
  induction width generalizing n with
  | zero => rfl
  | succ width ih => simp [littleEndian, ih]

/-- How many numbers have a form of `width` bytes. -/
def range : Nat → Nat
  | 0 => 1
  | width + 1 => 256 * range width

theorem value_littleEndian (width n : Nat) :
    value (littleEndian width n) = n % range width := by
  induction width generalizing n with
  | zero => simp [littleEndian, value, range, Nat.mod_one]
  | succ width ih =>
      have h : (UInt8.ofNat n).toNat = n % 256 := by simp
      rw [littleEndian, value, ih, h, range, Nat.mod_mul]

theorem value_lt (bs : Bytes) : value bs < range bs.length := by
  induction bs with
  | nil => simp [value, range]
  | cons b r ih =>
      have h : b.toNat < 256 := UInt8.toNat_lt b
      rw [value, List.length_cons, range]
      omega

theorem littleEndian_value (bs : Bytes) : littleEndian bs.length (value bs) = bs := by
  induction bs with
  | nil => rfl
  | cons b r ih =>
      have hb : b.toNat < 256 := UInt8.toNat_lt b
      have hlow : UInt8.ofNat (b.toNat + 256 * value r) = b := by
        apply UInt8.toNat_inj.1
        rw [UInt8.toNat_ofNat']
        omega
      have hhigh : (b.toNat + 256 * value r) / 256 = value r := by omega
      rw [List.length_cons, value, littleEndian, hlow, hhigh, ih]

/-! ## Blocks -/

/-- Cuts off pieces of `size` bytes, at most `fuel` of them. -/
def blocksWithin (size : Nat) : Nat → Bytes → List Bytes
  | 0, _ => []
  | _ + 1, [] => []
  | fuel + 1, bs => bs.take size :: blocksWithin size fuel (bs.drop size)

/-- The blocks of `size` bytes that the string consists of, the last one possibly shorter. -/
def blocks (size : Nat) (bs : Bytes) : List Bytes := blocksWithin size bs.length bs

/-- Zeros appended up to a multiple of `size` bytes. -/
def padTo (size : Nat) (bs : Bytes) : Bytes :=
  bs ++ List.replicate ((size - bs.length % size) % size) 0

/-- Byte by byte exclusive or, as long as the shorter string. -/
def xor (a b : Bytes) : Bytes := List.zipWith (· ^^^ ·) a b

/-- The 32-bit words of a string, each least significant byte first. -/
def words (bs : Bytes) : List UInt32 := (blocks 4 bs).map fun w => UInt32.ofNat (value w)

/-- Words laid out least significant byte first. -/
def ofWords (ws : List UInt32) : Bytes := ws.flatMap fun w => littleEndian 4 w.toNat

theorem length_ofWords (ws : List UInt32) : (ofWords ws).length = 4 * ws.length := by
  induction ws with
  | nil => rfl
  | cons w r ih =>
      rw [ofWords, List.flatMap_cons, List.length_append, length_littleEndian, List.length_cons]
      rw [ofWords] at ih
      omega

end Bytes

end LightSync
