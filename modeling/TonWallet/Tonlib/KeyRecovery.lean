/-
The keys of `KeyStorage` that have a recovery phrase. The words of a new key, however they are written down and typed in
again, are imported as the same key: the phrase is made of the words alone, and its seed was checked when it was drawn.
-/
import TonWallet.Tonlib.KeyStorage
import TonWallet.Tonlib.Mnemonic

namespace TonWallet.Tonlib.KeyStorage

open TonWallet.Td Crypto KeyCrypto Mnemonic

/-- `TonlibError::NeedMnemonicPassword`. -/
def needMnemonicPassword : Status := ⟨400, "NEED_MNEMONIC_PASSWORD"⟩

/-- `TonlibError::InvalidMnemonic`. -/
def invalidMnemonic : Status := ⟨400, "INVALID_MNEMONIC: Invalid mnemonic words or password (invalid checksum)"⟩

section

variable [KeyCrypto]

/-! ## Operations -/

/-- `create_new_key`, with the text of `bip39_english` and the random bytes of the phrase and of `save_key`. -/
def createNewKey (bip39English : Bytes) (random : Nat → Nat → UInt8) (saveRandom : Nat → UInt8)
    (fault : Option SetFault) (localPassword mnemonicPassword : Bytes) (kv : KeyValue) : Result Key × KeyValue :=
  match createNew bip39English random { password := mnemonicPassword } with
  | .error f => (.error f, kv)
  | .ok mnemonic => saveKey saveRandom fault mnemonic.decryptedKey localPassword kv

/-- `export_key`, the words of the key. -/
def exportKey (random : Nat → UInt8) (faults : ExportFaults) (input : InputKey) (kv : KeyValue) :
    Result (List Bytes) × KeyValue :=
  let exported := exportDecryptedKey random faults input kv
  (exported.1.map DecryptedKey.mnemonicWords, exported.2)

/-- `import_key`. -/
def importKey (random : Nat → UInt8) (fault : Option SetFault) (localPassword mnemonicPassword : Bytes)
    (mnemonicWords : List Bytes) (kv : KeyValue) : Result Key × KeyValue :=
  match createOfList mnemonicWords mnemonicPassword with
  | .error f => (.error f, kv)
  | .ok mnemonic =>
    if !mnemonic.isBasicSeed then
      if mnemonicPassword = [] ∧ mnemonic.isPasswordSeed then (.error (.status needMnemonicPassword), kv)
      else (.error (.status invalidMnemonic), kv)
    else saveKey random fault mnemonic.decryptedKey localPassword kv

/-! ## What is imported -/

/-- An import of the words of a phrase, however they are typed in, saves the key of the phrase. -/
theorem importKey_eq {m : Mnemonic} (hbasic : m.isBasicSeed = true) {words : List Bytes}
    (hwords : Spells m.words (join words)) (random : Nat → UInt8) (fault : Option SetFault) (localPassword : Bytes)
    (kv : KeyValue) :
    importKey random fault localPassword m.password words kv =
      saveKey random fault m.decryptedKey localPassword kv := by
  have hcreate : createOfList words m.password = .ok m := create_eq_ok_iff.2 ⟨hwords, rfl⟩
  unfold importKey
  simp only [hcreate, hbasic, Bool.not_true, Bool.false_eq_true, if_false]

/-- A new key is saved with the key of a phrase that can be imported. -/
theorem of_createNewKey {bip39English : Bytes} {random : Nat → Nat → UInt8} {saveRandom : Nat → UInt8}
    {fault : Option SetFault} {localPassword mnemonicPassword : Bytes} {kv : KeyValue} {key : Key}
    (h : (createNewKey bip39English random saveRandom fault localPassword mnemonicPassword kv).1 = .ok key) :
    ∃ m, createNew bip39English random { password := mnemonicPassword } = .ok m ∧ m.password = mnemonicPassword ∧
      m.isBasicSeed = true ∧
      createNewKey bip39English random saveRandom fault localPassword mnemonicPassword kv =
        saveKey saveRandom fault m.decryptedKey localPassword kv := by
  unfold createNewKey at h ⊢
  cases hnew : createNew bip39English random { password := mnemonicPassword } with
  | error f =>
    rw [hnew] at h
    cases h
  | ok m =>
    obtain ⟨hpassword, hbasic⟩ := of_createNew hnew
    exact ⟨m, rfl, hpassword, hbasic, rfl⟩

theorem createNewKey_of_createNew {bip39English : Bytes} {random : Nat → Nat → UInt8} {mnemonicPassword : Bytes}
    {m : Mnemonic} (h : createNew bip39English random { password := mnemonicPassword } = .ok m) (saveRandom : Nat → UInt8)
    (fault : Option SetFault) (localPassword : Bytes) (kv : KeyValue) :
    createNewKey bip39English random saveRandom fault localPassword mnemonicPassword kv =
      saveKey saveRandom fault m.decryptedKey localPassword kv := by
  rw [createNewKey, h]

/-- What was saved once can be saved anywhere, and has the same public key. -/
theorem saveKey_again [LawfulKeyCrypto] {random : Nat → UInt8} {fault : Option SetFault} {d : DecryptedKey}
    {localPassword : Bytes} {kv : KeyValue} {key : Key} (h : (saveKey random fault d localPassword kv).1 = .ok key)
    (random' : Nat → UInt8) (localPassword' : Bytes) (kv' : KeyValue) :
    ∃ key', (saveKey random' none d localPassword' kv').1 = .ok key' ∧ key'.publicKey = key.publicKey := by
  rcases saveKey_cases random fault d localPassword kv with ⟨f, hsave⟩ | ⟨e, hencrypt, -, -, -, hkey⟩
  · rw [hsave] at h
    cases h
  · obtain ⟨rfl, -⟩ := hkey key h
    obtain ⟨⟨data, hdata⟩, hpublic⟩ := DecryptedKey.of_encrypt hencrypt
    obtain ⟨encrypted, secret, hencrypt', -⟩ := DecryptedKey.encrypt_ok hdata hpublic random' localPassword' []
    exact ⟨_, saveKey_of_encrypt hencrypt' kv', rfl⟩

/-- A key that can be opened exports its words. -/
theorem exportKey_of_openable {kv : KeyValue} {k : StoredKey} (h : Openable kv k) (random : Nat → UInt8) :
    (exportKey random {} k.input kv).1 = .ok k.decryptedKey.mnemonicWords := by
  unfold exportKey
  simp only [h random]
  rfl

/-- The deprecated decryption refuses what the key is encrypted to. -/
def RefusedAnew (d : DecryptedKey) (random : Nat → UInt8) (localPassword : Bytes) : Prop :=
  ∀ e, d.encrypt random localPassword [] = .ok e → Refused e localPassword

/-- Words are split as they were joined, the words of a phrase make it again, and so does every text that spells them.
Hence the words that a new key exports, in any case and with anything but letters around and between them, are imported
with the same password as the same key. -/
theorem phrase_recovers [LawfulKeyCrypto] :
    (∀ w, (∀ word ∈ w, IsWord word) → normalizeAndSplit (join w) = w) ∧
    (∀ s password m, create s password = .ok m → createOfList m.getWords password = .ok m) ∧
    (∀ w s t password, Spells w s → Spells w t → create s password = create t password) ∧
    ∀ bip39English random saveRandom fault localPassword mnemonicPassword kv key,
      (createNewKey bip39English random saveRandom fault localPassword mnemonicPassword kv).1 = .ok key →
      ∃ m, createNew bip39English random { password := mnemonicPassword } = .ok m ∧
        (RefusedAnew m.decryptedKey saveRandom localPassword →
          Openable (createNewKey bip39English random saveRandom fault localPassword mnemonicPassword kv).2
            ⟨⟨key, localPassword⟩, m.decryptedKey⟩) ∧
        ∀ kv₁ exportRandom, Openable kv₁ ⟨⟨key, localPassword⟩, m.decryptedKey⟩ →
          ∃ exported, (exportKey exportRandom {} ⟨key, localPassword⟩ kv₁).1 = .ok exported ∧
            ∀ words, Spells exported (join words) → ∀ importRandom newPassword kv₂,
              ∃ imported, (importKey importRandom none newPassword mnemonicPassword words kv₂).1 = .ok imported ∧
                imported.publicKey = key.publicKey ∧
                (RefusedAnew m.decryptedKey importRandom newPassword →
                  Openable (importKey importRandom none newPassword mnemonicPassword words kv₂).2
                    ⟨⟨imported, newPassword⟩, m.decryptedKey⟩) := by
  refine ⟨fun w => normalizeAndSplit_join, ?_, fun w s t password hs ht => create_congr hs ht password, ?_⟩
  · intro s password m h
    rw [← (create_eq_ok_iff.1 h).2]
    exact createOfList_getWords m
  · intro bip39English random saveRandom fault localPassword mnemonicPassword kv key hkey
    obtain ⟨m, hnew, rfl, hbasic, hsave⟩ := of_createNewKey hkey
    rw [hsave] at hkey ⊢
    refine ⟨m, hnew, fun hrefused => openable_iff.2 (stored_of_saveKey hrefused hkey), ?_⟩
    intro kv₁ exportRandom hopenable
    refine ⟨m.words, exportKey_of_openable hopenable exportRandom, ?_⟩
    intro words hwords importRandom newPassword kv₂
    rw [importKey_eq hbasic hwords]
    obtain ⟨imported, himported, hpublic⟩ := saveKey_again hkey importRandom newPassword kv₂
    exact ⟨imported, himported, hpublic, fun hrefused => openable_iff.2 (stored_of_saveKey hrefused himported)⟩

end

namespace PhraseSample

open Sample (secret passwordHash localSecret encryptionSecret oldEncryptionSecret secretHash swap swap_swap length_swap)

/-- Two words of the list. -/
def abandon : Bytes := [97, 98, 97, 110, 100, 111, 110]

def ability : Bytes := [97, 98, 105, 108, 105, 116, 121]

def words : List Bytes :=
  [abandon, ability, ability, ability, abandon, abandon, abandon, abandon, abandon, ability, abandon, abandon,
   abandon, abandon, abandon, abandon, abandon, abandon, abandon, abandon, abandon, abandon, abandon, abandon]

/-- The random bytes that the words are drawn with. -/
def drawn : Bytes :=
  [0, 8, 64, 0, 2, 0, 0, 0, 0, 0, 0, 0, 8, 0, 0, 0, 0, 0, 0, 0, 0, 0, 0, 0, 0, 0, 0, 0, 0, 0, 0, 0, 0]
def entropy : Bytes :=
  [79, 104, 187, 190, 49, 243, 242, 2, 165, 80, 216, 228, 82, 28, 239, 230, 60, 255, 8, 198, 12, 246, 28, 146, 26, 35,
   201, 27, 23, 96, 221, 225, 14, 155, 227, 211, 99, 247, 155, 61, 213, 136, 168, 201, 95, 100, 147, 235, 194, 9, 175,
   135, 230, 249, 241, 46, 133, 3, 95, 6, 113, 74, 164, 40]
def basicSeed : Bytes :=
  [0, 153, 178, 171, 79, 166, 249, 81, 198, 118, 236, 137, 87, 207, 5, 80, 105, 131, 112, 166, 224, 138, 26, 166, 48,
   219, 200, 143, 190, 249, 113, 133, 37, 143, 25, 151, 174, 163, 195, 43, 136, 106, 131, 227, 210, 229, 27, 254, 148,
   190, 99, 250, 22, 160, 157, 82, 65, 192, 104, 91, 10, 146, 89, 198]
def seed : Bytes :=
  [204, 132, 110, 124, 88, 253, 194, 66, 81, 248, 41, 151, 245, 225, 112, 181, 78, 4, 5, 153, 63, 83, 25, 147, 115,
   103, 150, 104, 107, 37, 174, 97, 211, 95, 30, 121, 110, 165, 210, 221, 223, 184, 243, 154, 255, 64, 159, 221, 138,
   243, 158, 6, 249, 25, 157, 252, 250, 254, 165, 3, 204, 139, 148, 87]
def publicKey : Bytes :=
  [82, 143, 62, 178, 90, 178, 101, 232, 51, 219, 50, 65, 153, 225, 251, 74, 200, 137, 252, 63, 166, 74, 55, 97, 53,
   102, 144, 96, 87, 93, 61, 67]
def raw : Bytes :=
  [24, 0, 0, 0, 7, 97, 98, 97, 110, 100, 111, 110, 7, 97, 98, 105, 108, 105, 116, 121, 7, 97, 98, 105, 108, 105, 116,
   121, 7, 97, 98, 105, 108, 105, 116, 121, 7, 97, 98, 97, 110, 100, 111, 110, 7, 97, 98, 97, 110, 100, 111, 110, 7,
   97, 98, 97, 110, 100, 111, 110, 7, 97, 98, 97, 110, 100, 111, 110, 7, 97, 98, 97, 110, 100, 111, 110, 7, 97, 98,
   105, 108, 105, 116, 121, 7, 97, 98, 97, 110, 100, 111, 110, 7, 97, 98, 97, 110, 100, 111, 110, 7, 97, 98, 97, 110,
   100, 111, 110, 7, 97, 98, 97, 110, 100, 111, 110, 7, 97, 98, 97, 110, 100, 111, 110, 7, 97, 98, 97, 110, 100, 111,
   110, 7, 97, 98, 97, 110, 100, 111, 110, 7, 97, 98, 97, 110, 100, 111, 110, 7, 97, 98, 97, 110, 100, 111, 110, 7,
   97, 98, 97, 110, 100, 111, 110, 7, 97, 98, 97, 110, 100, 111, 110, 7, 97, 98, 97, 110, 100, 111, 110, 7, 97, 98,
   97, 110, 100, 111, 110, 7, 97, 98, 97, 110, 100, 111, 110, 32, 204, 132, 110, 124, 88, 253, 194, 66, 81, 248, 41,
   151, 245, 225, 112, 181, 78, 4, 5, 153, 63, 83, 25, 147, 115, 103, 150, 104, 107, 37, 174, 97, 0, 0, 0]
def padded : Bytes :=
  [40, 33, 34, 35, 36, 37, 38, 39, 40, 41, 42, 43, 44, 45, 46, 47, 48, 49, 50, 51, 52, 53, 54, 55, 56, 57, 58, 59, 60,
   61, 62, 63, 64, 65, 66, 67, 68, 69, 70, 71, 24, 0, 0, 0, 7, 97, 98, 97, 110, 100, 111, 110, 7, 97, 98, 105, 108,
   105, 116, 121, 7, 97, 98, 105, 108, 105, 116, 121, 7, 97, 98, 105, 108, 105, 116, 121, 7, 97, 98, 97, 110, 100,
   111, 110, 7, 97, 98, 97, 110, 100, 111, 110, 7, 97, 98, 97, 110, 100, 111, 110, 7, 97, 98, 97, 110, 100, 111, 110,
   7, 97, 98, 97, 110, 100, 111, 110, 7, 97, 98, 105, 108, 105, 116, 121, 7, 97, 98, 97, 110, 100, 111, 110, 7, 97,
   98, 97, 110, 100, 111, 110, 7, 97, 98, 97, 110, 100, 111, 110, 7, 97, 98, 97, 110, 100, 111, 110, 7, 97, 98, 97,
   110, 100, 111, 110, 7, 97, 98, 97, 110, 100, 111, 110, 7, 97, 98, 97, 110, 100, 111, 110, 7, 97, 98, 97, 110, 100,
   111, 110, 7, 97, 98, 97, 110, 100, 111, 110, 7, 97, 98, 97, 110, 100, 111, 110, 7, 97, 98, 97, 110, 100, 111, 110,
   7, 97, 98, 97, 110, 100, 111, 110, 7, 97, 98, 97, 110, 100, 111, 110, 7, 97, 98, 97, 110, 100, 111, 110, 32, 204,
   132, 110, 124, 88, 253, 194, 66, 81, 248, 41, 151, 245, 225, 112, 181, 78, 4, 5, 153, 63, 83, 25, 147, 115, 103,
   150, 104, 107, 37, 174, 97, 0, 0, 0]
def paddedHash : Bytes :=
  [41, 239, 195, 55, 123, 157, 103, 216, 31, 135, 127, 115, 253, 210, 217, 249, 158, 180, 220, 191, 243, 201, 209,
   158, 30, 30, 245, 251, 40, 92, 0, 167]
def otherHash : Bytes :=
  [30, 27, 99, 20, 254, 121, 68, 204, 106, 102, 111, 154, 170, 230, 89, 109, 85, 9, 167, 154, 93, 219, 87, 235, 251,
   29, 180, 71, 253, 143, 125, 34]
def state : Bytes :=
  [255, 227, 150, 50, 103, 52, 238, 117, 77, 60, 33, 130, 123, 102, 71, 77, 112, 230, 231, 9, 174, 66, 21, 36, 70, 16,
   9, 220, 169, 110, 40, 189, 18, 135, 93, 230, 69, 82, 15, 222, 193, 9, 138, 44, 94, 111, 229, 241, 87, 129, 44, 21,
   75, 137, 214, 112, 106, 4, 21, 65, 104, 94, 137, 64]
def oldState : Bytes :=
  [95, 4, 93, 153, 5, 206, 171, 117, 58, 202, 244, 207, 226, 122, 54, 34, 217, 176, 76, 27, 30, 144, 231, 112, 19,
   198, 83, 124, 157, 91, 168, 152, 101, 134, 17, 88, 199, 173, 32, 9, 20, 216, 249, 79, 110, 83, 184, 94, 128, 205,
   117, 94, 135, 231, 222, 234, 95, 76, 123, 15, 231, 4, 171, 39]
def blocks : Bytes :=
  [114, 132, 18, 3, 46, 52, 242, 180, 205, 155, 75, 117, 167, 97, 156, 26, 159, 114, 100, 43, 158, 87, 169, 140, 129,
   58, 57, 145, 142, 6, 98, 149, 68, 224, 90, 252, 166, 133, 67, 163, 204, 197, 180, 195, 171, 246, 219, 12, 162, 110,
   1, 67, 172, 6, 193, 46, 24, 198, 136, 166, 182, 185, 86, 15, 247, 202, 140, 214, 96, 244, 40, 115, 253, 42, 44, 96,
   62, 91, 106, 217, 92, 117, 164, 142, 197, 150, 146, 191, 124, 195, 246, 209, 189, 170, 139, 232, 154, 206, 212,
   228, 115, 57, 100, 16, 48, 245, 90, 223, 129, 7, 217, 159, 245, 125, 170, 131, 238, 62, 64, 85, 254, 117, 93, 46,
   96, 95, 54, 212, 192, 225, 178, 186, 103, 223, 215, 18, 212, 122, 22, 207, 211, 69, 81, 70, 127, 132, 60, 178, 170,
   31, 224, 138, 8, 143, 170, 184, 177, 116, 132, 174, 108, 174, 2, 42, 83, 122, 100, 134, 249, 150, 5, 149, 146, 250,
   104, 160, 101, 108, 148, 181, 81, 48, 188, 197, 63, 99, 125, 223, 97, 5, 180, 253, 171, 119, 31, 57, 163, 251, 201,
   152, 96, 44, 210, 172, 179, 202, 74, 130, 185, 20, 7, 185, 133, 167, 133, 156, 56, 158, 241, 88, 21, 171, 205, 215,
   210, 47, 240, 199, 198, 56, 148, 45, 91, 15, 200, 207, 151, 105, 52, 168, 24, 111, 64, 215, 104, 248, 84, 189, 242,
   215, 27, 27, 7, 236, 60, 0, 191, 44, 81, 224, 17, 149, 96, 62, 162, 128, 233, 137, 9, 140, 104, 229]
def other : Bytes :=
  [236, 8, 201, 253, 171, 213, 76, 42, 145, 195, 230, 82, 164, 105, 219, 243, 232, 130, 163, 67, 65, 142, 112, 184,
   145, 22, 236, 89, 91, 0, 223, 120, 35, 207, 243, 173, 135, 51, 171, 105, 32, 160, 75, 243, 94, 86, 201, 97, 106,
   50, 177, 209, 205, 137, 11, 237, 1, 47, 26, 83, 228, 4, 183, 64, 6, 105, 53, 97, 242, 238, 189, 34, 228, 53, 91,
   85, 86, 6, 66, 255, 3, 91, 171, 186, 177, 5, 202, 140, 22, 160, 180, 248, 194, 26, 173, 42, 74, 252, 177, 162, 20,
   15, 237, 33, 85, 220, 124, 148, 238, 255, 239, 186, 212, 26, 148, 24, 164, 151, 9, 69, 52, 110, 67, 74, 159, 245,
   41, 88, 95, 167, 47, 134, 69, 99, 151, 69, 217, 85, 9, 38, 201, 132, 130, 63, 231, 8, 164, 24, 212, 154, 233, 145,
   237, 128, 119, 31, 108, 51, 50, 30, 206, 35, 235, 212, 157, 83, 129, 245, 24, 33, 130, 10, 74, 0, 104, 194, 138,
   61, 98, 234, 97, 133, 44, 94, 2, 221, 248, 146, 188, 84, 163, 4, 123, 254, 119, 9, 160, 156, 251, 240, 100, 209,
   108, 246, 230, 133, 240, 197, 140, 254, 160, 51, 118, 237, 77, 49, 195, 210, 181, 59, 250, 222, 169, 1, 247, 46,
   185, 135, 254, 156, 97, 210, 218, 158, 42, 71, 33, 234, 218, 228, 157, 180, 206, 15, 235, 12, 199, 171, 229, 223,
   191, 132, 90, 230, 82, 85, 138, 99, 202, 194, 87, 212, 252, 157, 147, 119, 152, 227, 145, 186, 156, 149]

/-- The blocks of the key, under each of the two encryption secrets. -/
def crypt (key iv data : Bytes) : Bytes :=
  if key = state.take 32 ∧ iv = (state.drop 32).take 16 then swap padded blocks data
  else if key = oldState.take 32 ∧ iv = (oldState.drop 32).take 16 then swap other blocks data
  else data

/-- The key of the phrase. -/
def phraseKey : DecryptedKey := ⟨words, seed.take 32⟩

/-- The values of the functions that the phrase and its key, stored with one secret and password, need. -/
@[reducible] def keyCrypto : KeyCrypto where
  PrivateKey := Bytes
  getPublicKey k := if k = seed.take 32 then .ok publicKey else fail "Can't import private key"
  computeSharedSecret _ _ := .ok []
  hmacSha512 key message :=
    if key = join words ∧ message = [] then entropy
    else if key = secret ∧ message = Sample.password then localSecret
    else if key = paddedHash ∧ message = encryptionSecret then state
    else if key = paddedHash ∧ message = oldEncryptionSecret then oldState
    else List.replicate 64 0
  aesCbcEncrypt := crypt
  aesCbcDecrypt := crypt
  sha256 data :=
    if data = padded then paddedHash
    else if data = Sample.password then passwordHash
    else if data = other then otherHash
    else List.replicate 32 0
  sha512 data := if data = secret then secretHash else List.replicate 64 0
  pbkdf2Sha512 secret salt _ :=
    if secret = entropy then if salt = "TON seed version".toUTF8.toList then basicSeed else seed
    else if secret = localSecret then encryptionSecret else oldEncryptionSecret
  privateKey octets := octets
  serialize key := if key = phraseKey then .ok raw else fail "too big"
  unserialize data := if data = raw then .ok phraseKey else fail "Too much data to fetch"

theorem lawful : @LawfulKeyCrypto keyCrypto := by
  refine @LawfulKeyCrypto.mk keyCrypto ?_ ?_ ?_ ?_
  · refine @LawfulCrypto.mk keyCrypto.toCrypto ?_ ?_ ?_ ?_ ?_
    · intro k p h
      simp only [Crypto.getPublicKey] at h
      split at h
      · cases h
        rfl
      · cases h
    · exact fun _ _ => ⟨[], rfl, rfl⟩
    · intro key message
      simp only [Crypto.hmacSha512]
      repeat' split
      all_goals rfl
    · intro key iv data _ _ _
      have hblocks : padded.length = blocks.length := by decide +kernel
      have hother : other.length = blocks.length := by decide +kernel
      simp only [Crypto.aesCbcEncrypt, crypt]
      split
      · exact length_swap hblocks data
      · split
        · exact length_swap hother data
        · rfl
    · intro key iv data _ _ _
      simp only [Crypto.aesCbcEncrypt, Crypto.aesCbcDecrypt, crypt]
      split
      · exact swap_swap _ _ data
      · split
        · exact swap_swap _ _ data
        · rfl
  · intro data
    simp only [KeyCrypto.sha256]
    repeat' split
    all_goals rfl
  · intro data
    simp only [KeyCrypto.sha512]
    split
    · rfl
    · simp
  · intro key data h
    simp only [KeyCrypto.serialize] at h
    split at h
    · next hkey =>
      cases h
      simp [KeyCrypto.unserialize, hkey]
    · cases h

/-- The list, of which only the first two words are drawn. -/
def bipWords : List Bytes := abandon :: ability :: List.replicate 2046 abandon

/-- The phrase that is drawn. -/
def phrase : Mnemonic := ⟨words, [], by decide +kernel⟩

/-- The words that are drawn, and that they are a phrase with its key. -/
theorem attempt_drawn :
    ((List.range 24).map fun i => bipWords.getD (wordIndex (fun i => drawn.getD i 0) i) []) = words ∧
      @attempt keyCrypto words [] = .ok (some phrase) ∧ @decryptedKey keyCrypto phrase = phraseKey := by
  decide +kernel

theorem decryptedKey_phrase : @decryptedKey keyCrypto phrase = phraseKey := attempt_drawn.2.2

theorem isWord_two : IsWord abandon ∧ IsWord ability := ⟨⟨by decide, by decide +kernel⟩, ⟨by decide, by decide +kernel⟩⟩

theorem createNew_phrase :
    @createNew keyCrypto (join bipWords) (fun _ i => drawn.getD i 0) { password := [] } = .ok phrase := by
  have hwords : ∀ word ∈ bipWords, IsWord word := by
    rintro word hword
    have hmem : word = abandon ∨ word = ability := by
      simp only [bipWords, List.mem_cons, List.mem_replicate] at hword
      tauto
    rcases hmem with rfl | rfl
    · exact isWord_two.1
    · exact isWord_two.2
  have hlength : (check (bipWords.length = 2048) "bip_words.size() == 2048" : Result Unit) = .ok () := by
    rw [check_ok_iff, bipWords, List.length_cons, List.length_cons, List.length_replicate]
  obtain ⟨hdraw, hattempt, -⟩ := attempt_drawn
  unfold createNew
  rw [normalizeAndSplit_join hwords]
  have hcount :
      ¬ (((if (24 : Int) = 0 then 24 else 24) : Int) < 8 ∨ ((if (24 : Int) = 0 then 24 else 24) : Int) > 48) := by
    decide
  simp only [hlength, bind, Except.bind]
  rw [(failIf_ok_iff (u := ())).2 hcount]
  refine @createLoop_of_attempt keyCrypto _ [] 0 phrase ?_ _ (by decide)
  rw [← hattempt, ← hdraw]
  rfl

/-- The words in capitals, with more spaces. -/
def typed : List Bytes := words.map fun word => word.map (fun c => c - 32) ++ [space, space]

theorem spells_typed : Spells words (join typed) := normalizeAndSplit_eq_iff.1 (by decide +kernel)

/-- An empty store. -/
def kv : KeyValue := { entries := [], unknownKey := .error "Unknown key" }

/-- What the key is encrypted to, and that the deprecated decryption of it has another hash. -/
theorem encrypt_phraseKey :
    (@DecryptedKey.encrypt keyCrypto phraseKey UInt8.ofNat Sample.password []).map
        (fun e => (e.encryptedData, e.publicKey, e.secret)) = .ok (paddedHash ++ blocks, publicKey, secret) ∧
      @EncryptedKey.decrypt keyCrypto ⟨paddedHash ++ blocks, publicKey, secret⟩ Sample.password true true =
        fail "Failed to decrypt: hash mismatch" := by
  decide +kernel

theorem createNewKey_phrase :
    (@createNewKey keyCrypto (join bipWords) (fun _ i => drawn.getD i 0) UInt8.ofNat none Sample.password [] kv).1 =
      .ok ⟨publicKey, secret⟩ := by
  obtain ⟨hencrypt, -⟩ := encrypt_phraseKey
  cases he : @DecryptedKey.encrypt keyCrypto phraseKey UInt8.ofNat Sample.password [] with
  | error f =>
    rw [he] at hencrypt
    cases hencrypt
  | ok e =>
    obtain ⟨encrypted, publicKey', secret'⟩ := e
    rw [he] at hencrypt
    rw [@createNewKey_of_createNew keyCrypto _ _ _ _ createNew_phrase, decryptedKey_phrase,
      @saveKey_of_encrypt keyCrypto _ _ _ _ he]
    cases hencrypt
    rfl

theorem refusedAnew_phraseKey : @RefusedAnew keyCrypto phraseKey UInt8.ofNat Sample.password := by
  rintro ⟨encrypted, publicKey', secret'⟩ he
  obtain ⟨hencrypt, hdecrypt⟩ := encrypt_phraseKey
  rw [he] at hencrypt
  cases hencrypt
  exact ⟨_, hdecrypt⟩

/-- The phrase is typed in, and its key imported. -/
theorem phrase_recovers_typed :
    normalizeAndSplit (join words) = words ∧ createOfList phrase.getWords [] = .ok phrase ∧
      create (join typed) [] = create (join words) [] ∧
      ∃ imported, (@importKey keyCrypto UInt8.ofNat none Sample.password [] typed kv).1 = .ok imported ∧
        imported.publicKey = publicKey ∧
        @Openable keyCrypto (@importKey keyCrypto UInt8.ofNat none Sample.password [] typed kv).2
          ⟨⟨imported, Sample.password⟩, phraseKey⟩ := by
  obtain ⟨hsplit, hagain, hcongr, hrecovers⟩ := @phrase_recovers keyCrypto lawful
  have hwords : Spells words (join words) := normalizeAndSplit_eq_iff.1 phrase.normalized
  refine ⟨hsplit words spells_typed.isWord, hagain (join words) [] phrase ?_, hcongr words _ _ [] spells_typed hwords,
    ?_⟩
  · exact create_eq_ok_iff.2 ⟨hwords, rfl⟩
  · obtain ⟨m, hnew, hopenable, hexport⟩ := hrecovers (join bipWords) (fun _ i => drawn.getD i 0) UInt8.ofNat none
      Sample.password [] kv ⟨publicKey, secret⟩ createNewKey_phrase
    rw [createNew_phrase] at hnew
    cases hnew
    rw [decryptedKey_phrase] at hopenable hexport
    have hstored := hopenable refusedAnew_phraseKey
    obtain ⟨exported, hexported, himport⟩ := hexport _ UInt8.ofNat hstored
    rw [@exportKey_of_openable keyCrypto _ _ hstored] at hexported
    cases hexported
    obtain ⟨imported, himported, hpublic, himportable⟩ := himport typed spells_typed UInt8.ofNat Sample.password kv
    exact ⟨imported, himported, hpublic, himportable refusedAnew_phraseKey⟩

end PhraseSample

end TonWallet.Tonlib.KeyStorage
