import LightSync.Bytes.Basic

/-!
# ChaCha20

A stream cipher. A key, a nonce and a block counter give a stream of bytes, which is combined
with the text by exclusive or; doing so twice gives the text back (`crypt_crypt`).
-/

set_option autoImplicit false

namespace LightSync
namespace ChaCha20

def rotl (x : UInt32) (n : UInt32) : UInt32 := (x <<< n) ||| (x >>> (32 - n))

def quarterRound (v : Vector UInt32 16) (a b c d : Fin 16) : Vector UInt32 16 :=
  let va := v[a] + v[b]
  let vd := rotl (v[d] ^^^ va) 16
  let vc := v[c] + vd
  let vb := rotl (v[b] ^^^ vc) 12
  let va := va + vb
  let vd := rotl (vd ^^^ va) 8
  let vc := vc + vd
  let vb := rotl (vb ^^^ vc) 7
  (((v.set a va).set b vb).set c vc).set d vd

/-- The four columns, then the four diagonals. -/
def doubleRound (v : Vector UInt32 16) : Vector UInt32 16 :=
  let v := quarterRound v 0 4 8 12
  let v := quarterRound v 1 5 9 13
  let v := quarterRound v 2 6 10 14
  let v := quarterRound v 3 7 11 15
  let v := quarterRound v 0 5 10 15
  let v := quarterRound v 1 6 11 12
  let v := quarterRound v 2 7 8 13
  quarterRound v 3 4 9 14

/-- Constants, key, counter and nonce. -/
def start (key nonce : Bytes) (counter : Nat) : Vector UInt32 16 :=
  let k := (Bytes.words key).toArray
  let n := (Bytes.words nonce).toArray
  let w := #[0x61707865, 0x3320646e, 0x79622d32, 0x6b206574] ++ k.take 8
    ++ #[UInt32.ofNat counter] ++ n.take 3
  Vector.ofFn fun i => w.getD i 0

/-- The 64 bytes of stream at a block counter. -/
def block (key nonce : Bytes) (counter : Nat) : Bytes :=
  let s := start key nonce counter
  let v := (List.range 10).foldl (fun v _ => doubleRound v) s
  Bytes.ofWords (v.zipWith (· + ·) s).toList

/-- At least `n` bytes of stream, from a block counter on. -/
def stream (key nonce : Bytes) (counter n : Nat) : Bytes :=
  (List.range ((n + 63) / 64)).flatMap fun i => block key nonce (counter + i)

/-- Encrypts, and decrypts. -/
def crypt (key nonce : Bytes) (counter : Nat) (text : Bytes) : Bytes :=
  Bytes.xor text (stream key nonce counter text.length)

theorem length_block (key nonce : Bytes) (counter : Nat) :
    (block key nonce counter).length = 64 := by
  rw [block, Bytes.length_ofWords, Vector.length_toList]

theorem length_stream (key nonce : Bytes) (counter n : Nat) :
    (stream key nonce counter n).length = (n + 63) / 64 * 64 := by
  simp [stream, length_block, List.length_flatMap, List.map_const']

theorem length_crypt (key nonce : Bytes) (counter : Nat) (text : Bytes) :
    (crypt key nonce counter text).length = text.length := by
  rw [crypt, Bytes.xor, List.length_zipWith, length_stream]
  omega

theorem xor_xor {a b : Bytes} (h : a.length ≤ b.length) : Bytes.xor (Bytes.xor a b) b = a := by
  induction a generalizing b with
  | nil => rfl
  | cons x a ih =>
      cases b with
      | nil => simp at h
      | cons y b =>
          have hxy : (x ^^^ y) ^^^ y = x := by
            rw [UInt8.xor_assoc, UInt8.xor_self, UInt8.xor_zero]
          have hr := ih (Nat.le_of_succ_le_succ h)
          simp only [Bytes.xor, List.zipWith_cons_cons] at hr ⊢
          rw [hxy, hr]

theorem crypt_crypt (key nonce : Bytes) (counter : Nat) (text : Bytes) :
    crypt key nonce counter (crypt key nonce counter text) = text := by
  have h : text.length ≤ (stream key nonce counter text.length).length := by
    rw [length_stream]
    omega
  rw [crypt, length_crypt, crypt, xor_xor h]

end ChaCha20
end LightSync
