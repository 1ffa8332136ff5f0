import LightSync.Bytes.Basic

/-!
# BLAKE2s with a personalization

The unkeyed 32-byte BLAKE2s whose initial state also depends on eight bytes that name the
purpose of the hash.
-/

set_option autoImplicit false

namespace LightSync
namespace Blake2s

/-! ## Compression -/

def initial : Vector UInt32 8 :=
  #v[0x6a09e667, 0xbb67ae85, 0x3c6ef372, 0xa54ff53a, 0x510e527f, 0x9b05688c, 0x1f83d9ab, 0x5be0cd19]

/-- The order of the message words in each round. -/
def permutations : List (List Nat) := [
  [0, 1, 2, 3, 4, 5, 6, 7, 8, 9, 10, 11, 12, 13, 14, 15],
  [14, 10, 4, 8, 9, 15, 13, 6, 1, 12, 0, 2, 11, 7, 5, 3],
  [11, 8, 12, 0, 5, 2, 15, 13, 10, 14, 3, 6, 7, 1, 9, 4],
  [7, 9, 3, 1, 13, 12, 11, 14, 2, 6, 5, 10, 4, 0, 15, 8],
  [9, 0, 5, 7, 2, 4, 10, 15, 14, 1, 11, 12, 6, 8, 3, 13],
  [2, 12, 6, 10, 0, 11, 8, 3, 4, 13, 7, 5, 15, 14, 1, 9],
  [12, 5, 1, 15, 14, 13, 4, 10, 0, 7, 6, 3, 9, 2, 8, 11],
  [13, 11, 7, 14, 12, 1, 3, 9, 5, 0, 15, 4, 8, 6, 2, 10],
  [6, 15, 14, 9, 11, 3, 0, 8, 12, 2, 13, 7, 1, 4, 10, 5],
  [10, 2, 8, 4, 7, 6, 1, 5, 15, 11, 9, 14, 3, 12, 13, 0]]

def rotr (x : UInt32) (n : UInt32) : UInt32 := (x >>> n) ||| (x <<< (32 - n))

/-- Mixes two message words into a column or diagonal of the working state. -/
def mix (v : Vector UInt32 16) (a b c d : Nat) (x y : UInt32) : Vector UInt32 16 :=
  let va := v.getD a 0 + v.getD b 0 + x
  let vd := rotr (v.getD d 0 ^^^ va) 16
  let vc := v.getD c 0 + vd
  let vb := rotr (v.getD b 0 ^^^ vc) 12
  let va := va + vb + y
  let vd := rotr (vd ^^^ va) 8
  let vc := vc + vd
  let vb := rotr (vb ^^^ vc) 7
  (((v.setIfInBounds a va).setIfInBounds b vb).setIfInBounds c vc).setIfInBounds d vd

/-- One round: the four columns, then the four diagonals, each with the next two words of the
message in the order of the round. -/
def round (m : List UInt32) (v : Vector UInt32 16) (order : List Nat) : Vector UInt32 16 :=
  let word (i : Nat) : UInt32 := m.getD (order.getD i 0) 0
  let v := mix v 0 4 8 12 (word 0) (word 1)
  let v := mix v 1 5 9 13 (word 2) (word 3)
  let v := mix v 2 6 10 14 (word 4) (word 5)
  let v := mix v 3 7 11 15 (word 6) (word 7)
  let v := mix v 0 5 10 15 (word 8) (word 9)
  let v := mix v 1 6 11 12 (word 10) (word 11)
  let v := mix v 2 7 8 13 (word 12) (word 13)
  mix v 3 4 9 14 (word 14) (word 15)

/-- Absorbs a block, short of zeros at its end; `count` is the number of bytes absorbed with
it. -/
def compress (h : Vector UInt32 8) (block : Bytes) (count : Nat) (last : Bool) :
    Vector UInt32 8 :=
  let low := UInt32.ofNat count
  let high := UInt32.ofNat (count >>> 32)
  let final : UInt32 := if last then 0xffffffff else 0
  let tail := Vector.zipWith (· ^^^ ·) initial #v[0, 0, 0, 0, low, high, final, 0]
  let v := permutations.foldl (round (Bytes.words block)) (h ++ tail)
  Vector.ofFn fun i => h.getD i 0 ^^^ v.getD i 0 ^^^ v.getD (i + 8) 0

/-! ## Hashing -/

/-- Absorbs the blocks in order; `count` bytes came before them. -/
def absorb (h : Vector UInt32 8) (count : Nat) : List Bytes → Vector UInt32 8
  | [] => h
  | [b] => compress h b (count + b.length) true
  | b :: r => absorb (compress h b (count + b.length) false) (count + b.length) r

/-- The state before the first block: 32 bytes of output, no key, sequential mode, and the
personalization in the last two words. -/
def personalized (personalization : Bytes) : Vector UInt32 8 :=
  let p := Bytes.words personalization
  Vector.zipWith (· ^^^ ·) initial #v[0x01010020, 0, 0, 0, 0, 0, p.getD 0 0, p.getD 1 0]

/-- The hash of `data` for the purpose that `personalization`, eight bytes, names. An empty
string counts as one empty block. -/
def hash (personalization data : Bytes) : Bytes :=
  let pieces := match Bytes.blocks 64 data with
    | [] => [[]]
    | bs => bs
  Bytes.ofWords (absorb (personalized personalization) 0 pieces).toList

theorem length_hash (personalization data : Bytes) : (hash personalization data).length = 32 := by
  rw [hash, Bytes.length_ofWords, Vector.length_toList]

end Blake2s
end LightSync
