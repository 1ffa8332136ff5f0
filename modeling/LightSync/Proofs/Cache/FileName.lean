import LightSync.Cache.BlockMeta
import LightSync.Proofs.Cache.Traversal
import LightSync.Proofs.Number.Integers

/-!
# The names of block files

A block file is named by the height of its block and by the hash. The hexadecimal text of a hash
reads back (`ofHex_hex`), and the first dash of a name ends the height, so two blocks have one
name only if they agree in both (`nameAt_inj`). The names of blocks with hashes of the usual
length are never too long (`isNameable_of_word`).
-/

set_option autoImplicit false

namespace LightSync

namespace Bytes

/-! ## Hexadecimal text -/

theorem hexValue?_hexDigit {n : Nat} (h : n < 16) : hexValue? (hexDigit n) = some n := by
  have hall : ∀ i : Fin 16, hexValue? (hexDigit i) = some i.val := by decide
  exact hall ⟨n, h⟩

theorem ofHexPair?_hexDigit (b : UInt8) :
    ofHexPair? (hexDigit (b.toNat / 16)) (hexDigit (b.toNat % 16)) = some b := by
  have hb : b.toNat < 256 := b.toNat_lt
  have hsplit : 16 * (b.toNat / 16) + b.toNat % 16 = b.toNat := by omega
  rw [ofHexPair?, hexValue?_hexDigit (by omega), hexValue?_hexDigit (by omega)]
  simp only [hsplit, UInt8.ofNat_toNat]

theorem ofHexDigits_hex (before bs : Bytes) :
    ofHexDigits before (bs.flatMap fun b => [hexDigit (b.toNat / 16), hexDigit (b.toNat % 16)])
      = before.reverse ++ bs := by
  induction bs generalizing before with
  | nil => simp [ofHexDigits]
  | cons b bs ih =>
      simp only [List.flatMap_cons, List.cons_append, List.nil_append, ofHexDigits,
        ofHexPair?_hexDigit]
      rw [ih, List.reverse_cons, List.append_assoc]
      rfl

/-- The hexadecimal text of a byte string reads back as it. -/
theorem ofHex_hex (bs : Bytes) : ofHex (hex bs) = bs := by
  rw [ofHex, hex, String.toList_ofList, ofHexDigits_hex]
  rfl

end Bytes

theorem displayHash_inj {hash hash' : Bytes} : displayHash hash = displayHash hash' ↔
    hash = hash' := by
  constructor
  · intro h
    have hback := congrArg Bytes.ofHex h
    rw [displayHash, displayHash, Bytes.ofHex_hex, Bytes.ofHex_hex] at hback
    exact List.reverse_inj.1 hback
  · rintro rfl
    rfl

namespace BlockMeta

/-! ## Names -/

/-- The name of the file of a block at a height that is an integer. -/
def nameAt (k : Int) (hash : Bytes) : String :=
  toString k ++ "-" ++ displayHash hash ++ "-compactblock"

theorem text_of_toInt? {a : Number} {k : Int} (h : a.toInt? = some k)
    (hk : k.natAbs ≤ Number.exactLimit) : a.text = toString k := by
  rcases Number.toInt?_eq_some.1 h with rfl | ⟨rfl, rfl⟩
  · rw [Number.text, if_pos hk]
  · rfl

theorem fileName_eq {m : BlockMeta} {k : Int} (h : m.height.toInt? = some k)
    (hk : k.natAbs ≤ Number.exactLimit) : m.fileName = nameAt k m.hash := by
  show toString "" ++ m.height.text ++ toString "-" ++ toString (displayHash m.hash)
    ++ toString "-compactblock" = _
  rw [text_of_toInt? h hk]
  rfl

/-- Digits in front of a dash are told from what follows. -/
theorem digits_eq_of_append {ds ds' rest rest' : List Char} (hds : ∀ c ∈ ds, c ≠ '-')
    (hds' : ∀ c ∈ ds', c ≠ '-') (h : ds ++ '-' :: rest = ds' ++ '-' :: rest') :
    ds = ds' ∧ rest = rest' := by
  have htake {ds rest : List Char} (hds : ∀ c ∈ ds, c ≠ '-') :
      (ds ++ '-' :: rest).takeWhile (· ≠ '-') = ds := by
    rw [List.takeWhile_append_of_pos (by simpa using hds)]
    simp
  have heq : ds = ds' := by
    rw [← htake hds, h, htake hds']
  subst heq
  exact ⟨rfl, (List.cons.inj (List.append_cancel_left h)).2⟩

theorem toList_toString_natCast (n : Nat) : (toString (n : Int)).toList = Nat.toDigits 10 n :=
  String.toList_ofList

theorem ne_dash_of_mem_toDigits {n : Nat} {c : Char} (h : c ∈ Nat.toDigits 10 n) : c ≠ '-' := by
  rintro rfl
  have := Nat.isDigit_of_mem_toDigits (by decide) (by decide) h
  cases this

theorem toDigits_inj {m n : Nat} : Nat.toDigits 10 m = Nat.toDigits 10 n ↔ m = n := by
  constructor
  · intro h
    have hback := congrArg (fun ds => Nat.ofDigitChars 10 ds 0) h
    simpa using hback
  · rintro rfl
    rfl

/-- Two blocks have one file name only if they agree in height and hash. -/
theorem nameAt_inj {k k' : Int} {hash hash' : Bytes} (hk : 0 ≤ k) (hk' : 0 ≤ k') :
    nameAt k hash = nameAt k' hash' ↔ k = k' ∧ hash = hash' := by
  constructor
  · intro h
    obtain ⟨n, rfl⟩ := Int.eq_ofNat_of_zero_le hk
    obtain ⟨n', rfl⟩ := Int.eq_ofNat_of_zero_le hk'
    have hlist := congrArg String.toList h
    simp only [nameAt, String.toList_append, toList_toString_natCast, List.append_assoc] at hlist
    obtain ⟨hdigits, hrest⟩ := digits_eq_of_append (fun _ => ne_dash_of_mem_toDigits)
      (fun _ => ne_dash_of_mem_toDigits) hlist
    have hshown : displayHash hash = displayHash hash' :=
      String.toList_injective (List.append_cancel_right hrest)
    exact ⟨by rw [toDigits_inj.1 hdigits], displayHash_inj.1 hshown⟩
  · rintro ⟨rfl, rfl⟩
    rfl

/-! ## Lengths -/

theorem utf8ByteSize_ofList_le (cs : List Char) {n : Nat} (h : ∀ c ∈ cs, c.utf8Size ≤ n) :
    (String.ofList cs).utf8ByteSize ≤ n * cs.length := by
  induction cs with
  | nil => simp
  | cons c cs ih =>
      have hc : c.utf8Size ≤ n := h c List.mem_cons_self
      have hcs := ih fun x hx => h x (List.mem_cons_of_mem c hx)
      have hsplit : String.ofList (c :: cs) = String.singleton c ++ String.ofList cs := by
        apply String.toList_injective
        simp
      rw [hsplit, String.utf8ByteSize_append, String.utf8ByteSize_singleton, List.length_cons,
        Nat.mul_succ]
      omega

theorem utf8Size_hexDigit {n : Nat} (h : n < 16) : (Bytes.hexDigit n).utf8Size = 1 := by
  have hall : ∀ i : Fin 16, (Bytes.hexDigit i).utf8Size = 1 := by decide
  exact hall ⟨n, h⟩

theorem utf8ByteSize_hex_le (bs : Bytes) : (Bytes.hex bs).utf8ByteSize ≤ 2 * bs.length := by
  let digits (b : UInt8) := [Bytes.hexDigit (b.toNat / 16), Bytes.hexDigit (b.toNat % 16)]
  have hlength : (bs.flatMap digits).length = 2 * bs.length := by
    induction bs with
    | nil => rfl
    | cons b bs ih =>
        rw [List.flatMap_cons, List.length_append, ih, List.length_cons]
        simp only [List.length_cons, List.length_nil]
        omega
  have hone : ∀ c ∈ bs.flatMap digits, c.utf8Size ≤ 1 := by
    intro c hc
    obtain ⟨b, -, hb⟩ := List.mem_flatMap.1 hc
    have hlt : b.toNat < 256 := b.toNat_lt
    rcases List.mem_cons.1 hb with rfl | hb
    · exact Nat.le_of_eq (utf8Size_hexDigit (by omega))
    · rw [List.mem_singleton.1 hb]
      exact Nat.le_of_eq (utf8Size_hexDigit (by omega))
  calc (Bytes.hex bs).utf8ByteSize
    _ ≤ 1 * (bs.flatMap digits).length := utf8ByteSize_ofList_le _ hone
    _ = 2 * bs.length := by rw [Nat.one_mul, hlength]

/-- A height of 32 bits has at most ten digits. -/
theorem utf8ByteSize_toString_le {n : Nat} (h : n < wordRange) :
    (toString (n : Int)).utf8ByteSize ≤ 40 := by
  have hdigits : (Nat.toDigits 10 n).length ≤ 10 :=
    (Nat.length_toDigits_le_iff (by decide) (by decide)).2 (Nat.lt_trans h (by decide))
  have hsize := utf8ByteSize_ofList_le (Nat.toDigits 10 n)
    fun c _ => Char.utf8Size_le_four c
  have hname : toString (n : Int) = String.ofList (Nat.toDigits 10 n) := rfl
  rw [hname]
  omega

/-- There can be a file for every block with a height of 32 bits and a hash of the usual
length. -/
theorem isNameable_of_word {m : BlockMeta} {k : Int} (h : m.height.toInt? = some k) (h0 : 0 ≤ k)
    (hk : k < wordRange) (hhash : m.hash.length = Block.hashLength) : m.isNameable = true := by
  obtain ⟨n, rfl⟩ := Int.eq_ofNat_of_zero_le h0
  have hword : n < wordRange := Int.ofNat_lt.1 hk
  have hheight := utf8ByteSize_toString_le hword
  have hshown := utf8ByteSize_hex_le m.hash.reverse
  have hdash : ("-" : String).utf8ByteSize = 1 := by decide
  have hend : ("-compactblock" : String).utf8ByteSize = 13 := by decide
  unfold Block.hashLength at hhash
  rw [isNameable, fileName_eq h (Nat.le_of_lt (Nat.lt_of_succ_lt (natAbs_lt_of_word hword))), nameAt,
    decide_eq_true_eq, longestName]
  rw [List.length_reverse] at hshown
  simp only [String.utf8ByteSize_append, displayHash]
  omega

end BlockMeta

end LightSync
