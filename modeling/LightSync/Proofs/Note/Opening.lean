import LightSync.Note.Cipher
import LightSync.Proofs.Number.Integers

/-!
# Which key opens an output

A key opens an output to a value when the ciphertext decrypts, under the key that is derived for the
output, to bytes with the lead byte of a note and that value (`Note.Opens`). The sender's key opens
what was encrypted (`Note.opens_of_encrypt`). Among the keys of a wallet the first one that opens an
output decides, and the others might as well not be there (`Note.reader_of_keys`); outputs that do
not have the sizes of an encrypted note are not tried.
-/

set_option autoImplicit false

namespace LightSync

/-- Decryption takes off the tag. -/
theorem Authenticated.length_of_decrypt {key nonce data text : Bytes}
    (h : decrypt key nonce data = some text) : text.length + tagLength = data.length := by
  unfold decrypt at h
  split at h
  · cases h
  · dsimp only at h
    split at h
    · cases h
      rw [ChaCha20.length_crypt, List.length_take]
      omega
    · cases h

namespace Note

/-! ## Plaintexts -/

/-- The bytes begin with the lead byte of a note, and a value in the exact range follows it. -/
structure Carries (text : Bytes) (value : Nat) : Prop where
  lead : text.head? = some leadByte
  value_eq : Bytes.value ((text.drop 1).take 8) = value
  safe : value ≤ Number.maxSafe

theorem valueOf?_eq_some {text : Bytes} (hlength : text.length = plaintextLength) {value : Nat} :
    valueOf? text = some value ↔ Carries text value := by
  unfold valueOf?
  constructor
  · intro h
    split at h
    · rename_i hshape
      obtain ⟨-, hlead⟩ := (Bool.and_eq_true _ _).mp hshape
      dsimp only at h
      split at h
      · rename_i hsafe
        cases h
        exact ⟨beq_iff_eq.1 hlead, rfl, hsafe⟩
      · cases h
    · cases h
  · rintro ⟨hlead, rfl, hsafe⟩
    rw [if_pos (by simp [hlength, hlead])]
    exact if_pos hsafe

theorem length_plaintext {value : Nat} {seed : Bytes} (hseed : seed.length = seedLength) :
    (plaintext value seed).length = plaintextLength := by
  simp [plaintext, hseed, seedLength, plaintextLength]

/-- A plaintext carries its value: eight bytes hold every exact one. -/
theorem carries_plaintext {value : Nat} (hsafe : value ≤ Number.maxSafe) (seed : Bytes) :
    Carries (plaintext value seed) value := by
  refine ⟨rfl, ?_, hsafe⟩
  have hfield : ((plaintext value seed).drop 1).take 8 = Bytes.littleEndian 8 value := by
    show (Bytes.littleEndian 8 value ++ seed).take 8 = _
    exact List.take_left' (Bytes.length_littleEndian 8 value)
  rw [hfield, Bytes.value_littleEndian]
  exact Nat.mod_eq_of_lt (Nat.lt_of_le_of_lt hsafe (by decide))

/-! ## Opening -/

/-- A key opens an output to a value. -/
def Opens (key : AccountKey) (output : SaplingOutput) (value : Nat) : Prop :=
  ∃ text, Authenticated.decrypt (cipherKey key.viewingKey output.ephemeralKey) nonce
      output.ciphertext = some text ∧ Carries text value

/-- A key opens an output to no value. -/
def Fails (output : SaplingOutput) (key : AccountKey) : Prop := ∀ value, ¬ Opens key output value

/-- The output has the sizes of an encrypted note. -/
structure Sized (output : SaplingOutput) : Prop where
  ciphertext : output.ciphertext.length = ciphertextLength
  ephemeralKey : output.ephemeralKey.length = ephemeralKeyLength

variable {output : SaplingOutput} {key : AccountKey} {value : Nat}

/-- Of an output of the right size a key gets a value exactly if it opens it to that value. -/
theorem openWith_eq_some (hsized : Sized output) :
    openWith key.viewingKey output = some value ↔ Opens key output value := by
  rw [openWith, Option.bind_eq_some_iff]
  refine exists_congr fun text => and_congr_right fun hdecrypt => valueOf?_eq_some ?_
  have hlength := Authenticated.length_of_decrypt hdecrypt
  rw [hsized.ciphertext] at hlength
  exact Nat.add_right_cancel hlength

theorem openWith_eq_none (hsized : Sized output) :
    openWith key.viewingKey output = none ↔ Fails output key := by
  rw [Option.eq_none_iff_forall_ne_some]
  exact forall_congr' fun _ => not_congr (openWith_eq_some hsized)

/-- What was encrypted to a viewing key is opened with it, to the value that was encrypted. -/
theorem opens_of_encrypt {viewingKey ephemeralKey seed : Bytes} {amount : Number}
    (hamount : amount.toInt? = some (value : Int)) (hsafe : value ≤ Number.maxSafe)
    (hseed : seed.length = seedLength) :
    ∃ ciphertext, encrypt viewingKey ephemeralKey amount seed = .ok ciphertext ∧
      ciphertext.length = ciphertextLength ∧
      ∀ account commitment,
        Opens ⟨account, viewingKey⟩ ⟨commitment, ephemeralKey, ciphertext⟩ value := by
  have hinteger : amount.toSafeInt? = some (value : Int) :=
    Number.toSafeInt?_eq_some.2 ⟨hamount, hsafe⟩
  let ciphertext :=
    Authenticated.encrypt (cipherKey viewingKey ephemeralKey) nonce (plaintext value seed)
  refine ⟨ciphertext, ?_, ?_, fun account commitment => ?_⟩
  · unfold encrypt
    rw [hinteger]
    simp [hseed, ciphertext]
  · show (Authenticated.encrypt _ _ _).length = _
    rw [Authenticated.length_encrypt, length_plaintext hseed]
    rfl
  · exact ⟨plaintext value seed, Authenticated.decrypt_encrypt _ _ _, carries_plaintext hsafe seed⟩

/-! ## The first key -/

variable {before after : List AccountKey}

/-- Keys that get nothing of an output are passed over. -/
theorem firstOpening_append (h : ∀ k ∈ before, openWith k.viewingKey output = none) :
    firstOpening output (before ++ after) = firstOpening output after := by
  induction before with
  | nil => rfl
  | cons k before ih =>
      obtain ⟨hk, hbefore⟩ := List.forall_mem_cons.1 h
      rw [List.cons_append, firstOpening, hk]
      exact ih hbefore

/-- Wherever they stand. -/
theorem firstOpening_insert {extra : List AccountKey}
    (h : ∀ k ∈ extra, openWith k.viewingKey output = none) :
    firstOpening output (before ++ (extra ++ after)) = firstOpening output (before ++ after) := by
  induction before with
  | nil => exact firstOpening_append h
  | cons k before ih => rw [List.cons_append, firstOpening, ih, List.cons_append, firstOpening]

/-! ## Reading -/

variable {place : OutputPlace}

/-- What is told of an output that a key opens. The derivation of the nullifier refuses a position
that is no integer. -/
def told (key : AccountKey) (value : Nat) (commitment : Bytes) (position : Number) :
    Except Failure (Option OpenedNote) :=
  (nullifier key.viewingKey commitment position).map fun nf =>
    some { account := key.account, value := .int value, memo := none, nullifier := nf }

theorem nullifier_of_isInteger {viewingKey commitment : Bytes} {position : Number}
    (h : position.isInteger = true) : ∃ nf, nullifier viewingKey commitment position = .ok nf := by
  obtain ⟨n, hn⟩ := Option.isSome_iff_exists.1 h
  unfold nullifier Number.toBytes
  rw [hn]
  exact ⟨_, rfl⟩

theorem reader_of_not_sized (h : ¬ Sized output) (keys : List AccountKey) :
    reader output keys place = .ok none := by
  unfold reader
  rw [if_pos]
  by_cases hciphertext : output.ciphertext.length = ciphertextLength
  · have hephemeral : output.ephemeralKey.length ≠ ephemeralKeyLength := fun he => h ⟨hciphertext, he⟩
    simp [hephemeral]
  · simp [hciphertext]

/-- An output of the right sizes is tried with the keys in order. -/
theorem reader_of_sized (h : Sized output) (keys : List AccountKey) :
    reader output keys place = match firstOpening output keys with
      | none => .ok none
      | some (key, value) => told key value output.commitment place.position := by
  unfold reader
  rw [if_neg (by simp [h.ciphertext, h.ephemeralKey])]
  cases firstOpening output keys with
  | none => rfl
  | some found =>
      show (nullifier _ _ _ >>= fun nf => _) = (nullifier _ _ _).map _
      cases nullifier found.1.viewingKey output.commitment place.position <;> rfl

theorem reader_of_fails {keys : List AccountKey} (h : ∀ k ∈ keys, Fails output k) :
    reader output keys place = .ok none := by
  by_cases hsized : Sized output
  · have hnone : firstOpening output (keys ++ []) = none :=
      firstOpening_append fun k hk => (openWith_eq_none hsized).2 (h k hk)
    rw [List.append_nil] at hnone
    rw [reader_of_sized hsized, hnone]
  · exact reader_of_not_sized hsized keys

theorem reader_of_first (hsized : Sized output) (hbefore : ∀ k ∈ before, Fails output k)
    (hopens : Opens key output value) :
    reader output (before ++ key :: after) place =
      told key value output.commitment place.position := by
  have hfirst : firstOpening output (before ++ key :: after) = some (key, value) := by
    rw [firstOpening_append fun k hk => (openWith_eq_none hsized).2 (hbefore k hk), firstOpening,
      (openWith_eq_some hsized).2 hopens]
  rw [reader_of_sized hsized, hfirst]

theorem reader_insert {extra : List AccountKey} (h : ∀ k ∈ extra, Fails output k) :
    reader output (before ++ (extra ++ after)) place = reader output (before ++ after) place := by
  by_cases hsized : Sized output
  · rw [reader_of_sized hsized, reader_of_sized hsized,
      firstOpening_insert fun k hk => (openWith_eq_none hsized).2 (h k hk)]
  · rw [reader_of_not_sized hsized, reader_of_not_sized hsized]

/-- **The first key that opens an output decides.** A note that was encrypted to a viewing key, with
any exact value, is read by its account with that value, no memo and the nullifier of its position,
if no earlier key in the list opens it. An output with the sizes of an encrypted note is what the
first key that opens it makes of it; one that no key opens, and every output of other sizes, is
nothing to the wallet. Keys that do not open an output can be added and left out anywhere. -/
theorem reader_of_keys :
    (∀ (viewingKey ephemeralKey seed : Bytes) (amount : Number) (value : Nat),
      ephemeralKey.length = ephemeralKeyLength → amount.toInt? = some (value : Int) →
      value ≤ Number.maxSafe → seed.length = seedLength →
      ∃ ciphertext, encrypt viewingKey ephemeralKey amount seed = .ok ciphertext ∧
        ∀ (account : Number) (commitment : Bytes) (place : OutputPlace)
          (before after : List AccountKey),
          (∀ k ∈ before, Fails ⟨commitment, ephemeralKey, ciphertext⟩ k) →
          reader ⟨commitment, ephemeralKey, ciphertext⟩ (before ++ ⟨account, viewingKey⟩ :: after)
            place = told ⟨account, viewingKey⟩ value commitment place.position) ∧
    (∀ (output : SaplingOutput) (place : OutputPlace) (before after : List AccountKey)
      (key : AccountKey) (value : Nat), Sized output → (∀ k ∈ before, Fails output k) →
      Opens key output value → reader output (before ++ key :: after) place =
        told key value output.commitment place.position) ∧
    (∀ (output : SaplingOutput) (place : OutputPlace) (keys : List AccountKey),
      ¬ Sized output ∨ (∀ k ∈ keys, Fails output k) → reader output keys place = .ok none) ∧
    (∀ (output : SaplingOutput) (place : OutputPlace) (before extra after : List AccountKey),
      (∀ k ∈ extra, Fails output k) →
      reader output (before ++ (extra ++ after)) place = reader output (before ++ after) place) ∧
    ∀ (viewingKey commitment : Bytes) (position : Number), position.isInteger = true →
      ∃ nf, nullifier viewingKey commitment position = .ok nf := by
  refine ⟨?_, ?_, ?_, ?_, ?_⟩
  · intro viewingKey ephemeralKey seed amount value hephemeral hamount hsafe hseed
    obtain ⟨ciphertext, hencrypt, hlength, hopens⟩ := opens_of_encrypt hamount hsafe hseed
    refine ⟨ciphertext, hencrypt, fun account commitment place before after hbefore => ?_⟩
    exact reader_of_first ⟨hlength, hephemeral⟩ hbefore (hopens account commitment)
  · intro output place before after key value hsized hbefore hopens
    exact reader_of_first hsized hbefore hopens
  · rintro output place keys (hsized | hfails)
    · exact reader_of_not_sized hsized keys
    · exact reader_of_fails hfails
  · intro output place before extra after hextra
    exact reader_insert hextra
  · intro viewingKey commitment position hposition
    exact nullifier_of_isInteger hposition

/-- The ephemeral key of an output, and one that is a byte short. -/
def fullKey : Bytes := List.replicate 32 5
def shortKey : Bytes := List.replicate 31 5

/-- The first output of its block. -/
def firstPlace : OutputPlace := ⟨50, [8], 0, 0, 0⟩

set_option maxRecDepth 10000 in
/-- The key of another account gets nothing of a note. -/
theorem openWith_other : (encrypt [1] fullKey 5 zeroSeed).toOption.bind (fun ciphertext =>
    openWith [2] ⟨[7], fullKey, ciphertext⟩) = none := by decide +kernel

/-- A note is read although the key of another account is tried first. -/
theorem reader_of_keys_other : ∃ ciphertext, encrypt [1] fullKey 5 zeroSeed = .ok ciphertext ∧
    reader ⟨[7], fullKey, ciphertext⟩ [⟨0, [2]⟩, ⟨1, [1]⟩] firstPlace =
      told ⟨1, [1]⟩ 5 [7] firstPlace.position := by
  obtain ⟨ciphertext, hencrypt, hread⟩ :=
    reader_of_keys.1 [1] fullKey zeroSeed 5 5 rfl rfl (by decide) rfl
  refine ⟨ciphertext, hencrypt, hread 1 [7] firstPlace [⟨0, [2]⟩] [] fun k hk => ?_⟩
  cases List.mem_singleton.1 hk
  have hlength : ciphertext.length = ciphertextLength := by
    obtain ⟨_, hencrypt', hlength, -⟩ :=
      @opens_of_encrypt 5 [1] fullKey zeroSeed 5 rfl (by decide) rfl
    cases hencrypt.symm.trans hencrypt'
    exact hlength
  have hother := openWith_other
  rw [hencrypt] at hother
  exact (openWith_eq_none ⟨hlength, rfl⟩).1 hother

/-- An output whose ephemeral key is a byte short is not read, although a key opens it. -/
theorem unread_of_shortKey :
    ¬ ∀ (output : SaplingOutput) (place : OutputPlace) (before after : List AccountKey)
      (key : AccountKey) (value : Nat), (∀ k ∈ before, Fails output k) → Opens key output value →
      reader output (before ++ key :: after) place =
        told key value output.commitment place.position := by
  intro hall
  obtain ⟨ciphertext, -, -, hopens⟩ :=
    @opens_of_encrypt 5 [1] shortKey zeroSeed 5 rfl (by decide) rfl
  have hread := hall ⟨[7], shortKey, ciphertext⟩ firstPlace [] [] ⟨0, [1]⟩ 5 nofun (hopens 0 [7])
  have hsized : ¬ Sized ⟨[7], shortKey, ciphertext⟩ := fun h =>
    absurd (show shortKey.length = ephemeralKeyLength from h.ephemeralKey) (by decide)
  rw [reader_of_not_sized hsized] at hread
  cases hread

end Note
end LightSync
