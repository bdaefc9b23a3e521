/-
The encryption of a stored private key: `SimpleEncryption` under a secret that is derived from the secret of the key and
the password. The deprecated derivation hides a hash of the password in the secret and is only decrypted.
-/
import TonWallet.Tonlib.SimpleEncryption

namespace TonWallet.Tonlib

open TonWallet.Td Crypto

/-! ## Keys -/

/-- `DecryptedKey`, and `RawDecryptedKey`, which is what is stored of it. -/
structure DecryptedKey where
  mnemonicWords : List Bytes
  privateKey : Bytes
  deriving DecidableEq

/-- `EncryptedKey`. -/
structure EncryptedKey where
  encryptedData : Bytes
  publicKey : Bytes
  secret : Bytes

/-- The functions for stored keys: hashes, `td::Ed25519::PrivateKey` of its bytes, `td::serialize_secure` and
`td::unserialize` of a `RawDecryptedKey`. -/
class KeyCrypto extends Crypto where
  sha256 : Bytes → Bytes
  sha512 : Bytes → Bytes
  pbkdf2Sha512 : (password salt : Bytes) → (iterations : Nat) → Bytes
  privateKey : Bytes → PrivateKey
  serialize : DecryptedKey → Result Bytes
  unserialize : Bytes → Result DecryptedKey

open KeyCrypto

/-- What is relied on: the sizes of the hashes, and that a key is read as it was written. -/
class LawfulKeyCrypto [KeyCrypto] : Prop extends LawfulCrypto where
  length_sha256 : ∀ data, (sha256 data).length = 32
  length_sha512 : ∀ data, (sha512 data).length = 64
  unserialize_serialize : ∀ {key : DecryptedKey} {data : Bytes}, serialize key = .ok data → unserialize data = .ok key

section

variable [KeyCrypto]

/-! ## Data under a secret -/

namespace SimpleEncryption

/-- `kdf`. -/
def kdf (secret password : Bytes) (iterations : Nat) : Bytes := pbkdf2Sha512 secret password iterations

/-- `encrypt_data_with_prefix`. -/
def encryptDataWithPrefix (data secret : Bytes) : Result Bytes := do
  check (data.length % 16 = 0) "data.size() % 16 == 0"
  let dataHash := sha256 data
  let cbcState ← calcAesCbcStateHash (combineSecrets dataHash secret)
  pure (dataHash ++ aesCbcEncrypt cbcState.key cbcState.iv data)

/-- `encrypt_data`. -/
def encryptData (random : Nat → UInt8) (data secret : Bytes) : Result Bytes := do
  let pre ← genRandomPrefix random data.length 32
  encryptDataWithPrefix (pre ++ data) secret

/-- `decrypt_data`. -/
def decryptData (encryptedData secret : Bytes) : Result Bytes := do
  failIf (encryptedData.length < 33) "Failed to decrypt: data is too small"
  failIf (encryptedData.length % 16 ≠ 0) "Failed to decrypt: data size is not divisible by 16"
  let dataHash := encryptedData.take 32
  let cbcState ← calcAesCbcStateHash (combineSecrets dataHash secret)
  let decryptedData := aesCbcDecrypt cbcState.key cbcState.iv (encryptedData.drop 32)
  failIf (dataHash ≠ sha256 decryptedData) "Failed to decrypt: hash mismatch"
  let prefixSize := (decryptedData.headD 0).toNat
  failIf (prefixSize > decryptedData.length ∨ prefixSize < 32) "Failed to decrypt: invalid prefix size"
  pure (decryptedData.drop prefixSize)

end SimpleEncryption

open SimpleEncryption

/-- The salt of the derivation, "TON local key". -/
def tonLocalKey : Bytes := "TON local key".toUTF8.toList

/-- `EncryptedKey::PBKDF_ITERATIONS`. -/
def pbkdfIterations : Nat := 100000

/-- `EncryptedKey::decrypt`. -/
def EncryptedKey.decrypt (key : EncryptedKey) (localPassword : Bytes) (checkPublicKey old : Bool) : Result DecryptedKey := do
  failIf (key.secret.length ≠ 32) "Failed to decrypt key: invalid secret size"
  let decryptedSecret :=
    if old then List.zipWith (· ^^^ ·) key.secret (sha256 localPassword) else combineSecrets key.secret localPassword
  let encryptionSecret := kdf decryptedSecret tonLocalKey pbkdfIterations
  let decryptedData ← SimpleEncryption.decryptData key.encryptedData encryptionSecret
  let res ← unserialize decryptedData
  let gotPublicKey ← getPublicKey (privateKey res.privateKey)
  failIf (checkPublicKey ∧ gotPublicKey ≠ key.publicKey)
    "Something wrong: public key of decrypted private key differs from requested public key"
  pure res

/-- `move_as_ok`. -/
def moveAsOk {α : Type} : Result α → Result α
  | .error (.status _) => .error (.check "is_ok()")
  | r => r

/-- `DecryptedKey::encrypt`, with what the random generator fills the secret and the prefix with. -/
def DecryptedKey.encrypt (key : DecryptedKey) (random : Nat → UInt8) (localPassword oldSecret : Bytes) :
    Result EncryptedKey := do
  let secret := if oldSecret.length = 32 then oldSecret else (List.range 32).map random
  let decryptedSecret := combineSecrets secret localPassword
  let encryptionSecret := kdf decryptedSecret tonLocalKey pbkdfIterations
  let data ← serialize key
  let encryptedData ← SimpleEncryption.encryptData (fun i => random (32 + i)) data encryptionSecret
  let publicKey ← moveAsOk (getPublicKey (KeyCrypto.privateKey key.privateKey))
  pure ⟨encryptedData, publicKey, secret⟩

/-! ## What is encrypted can be decrypted -/

variable [LawfulKeyCrypto]

open LawfulCrypto LawfulKeyCrypto

/-- Data is encrypted under every secret, which opens it. -/
theorem SimpleEncryption.encryptData_ok (random : Nat → UInt8) (data secret : Bytes) : ∃ encrypted,
    SimpleEncryption.encryptData random data secret = .ok encrypted ∧
      SimpleEncryption.decryptData encrypted secret = .ok data := by
  obtain ⟨pre, rest, hprefix, hpre, hmin, hmod⟩ :=
    SimpleEncryptionV2.genRandomPrefix_ok random data.length (by decide : 0 < 32) (by decide)
  obtain ⟨padded, hpadded⟩ : ∃ p, p = pre :: (rest ++ data) := ⟨_, rfl⟩
  have hlength : padded.length = rest.length + 1 + data.length := by
    rw [hpadded, List.length_cons, List.length_append]
    omega
  have hblocks : padded.length % 16 = 0 := by rw [hlength, hmod]
  obtain ⟨hash, hhash⟩ : ∃ x, x = combineSecrets (sha256 padded) secret := ⟨_, rfl⟩
  have hsize : hash.length = 64 := by
    rw [hhash]
    exact length_hmacSha512 _ _
  have hstate : calcAesCbcStateHash hash = .ok ⟨hash.take 32, (hash.drop 32).take 16⟩ :=
    SimpleEncryptionV2.calcAesCbcStateHash_eq_ok (by omega)
  have hkey : (hash.take 32).length = 32 := by simp [hsize]
  have hiv : ((hash.drop 32).take 16).length = 16 := by simp [hsize]
  obtain ⟨encrypted, hencrypted⟩ :
      ∃ c, c = sha256 padded ++ aesCbcEncrypt (hash.take 32) ((hash.drop 32).take 16) padded := ⟨_, rfl⟩
  have hencrypt : SimpleEncryption.encryptData random data secret = .ok encrypted := by
    rw [SimpleEncryption.encryptData, hprefix]
    simp only [bind, Except.bind, List.cons_append, ← hpadded, SimpleEncryption.encryptDataWithPrefix]
    rw [(check_ok_iff (u := ())).2 hblocks]
    simp only [← hhash, hstate]
    rw [hencrypted]
    rfl
  have htake : encrypted.take 32 = sha256 padded := by
    rw [hencrypted]
    exact List.take_left' (length_sha256 padded)
  have hdrop : encrypted.drop 32 = aesCbcEncrypt (hash.take 32) ((hash.drop 32).take 16) padded := by
    rw [hencrypted]
    exact List.drop_left' (length_sha256 padded)
  have htotal : encrypted.length = 32 + padded.length := by
    rw [hencrypted, List.length_append, length_sha256, length_aesCbcEncrypt hkey hiv hblocks]
  have hsmall : ¬ encrypted.length < 33 := by omega
  have hwhole : ¬ encrypted.length % 16 ≠ 0 := by omega
  have hprefixSize : ¬ ((padded.headD 0).toNat > padded.length ∨ (padded.headD 0).toNat < 32) := by
    rw [hlength, hpadded, List.headD_cons]
    omega
  refine ⟨encrypted, hencrypt, ?_⟩
  rw [SimpleEncryption.decryptData, (failIf_ok_iff (u := ())).2 hsmall, (failIf_ok_iff (u := ())).2 hwhole, htake, hdrop]
  simp only [bind, Except.bind, ← hhash, hstate, aesCbcDecrypt_encrypt hkey hiv hblocks]
  rw [(failIf_ok_iff (u := ())).2 (not_not.2 rfl), (failIf_ok_iff (u := ())).2 hprefixSize]
  have hrest : padded.drop (padded.headD 0).toNat = data := by
    have hcons : rest.length + 1 = (pre :: rest).length := rfl
    rw [hpadded, List.headD_cons, hpre, hcons, ← List.cons_append, List.drop_left]
  rw [← hrest]
  rfl

omit [LawfulKeyCrypto] in
/-- What a decryption that succeeds has checked. -/
theorem EncryptedKey.of_decrypt {key : EncryptedKey} {localPassword : Bytes} {old : Bool} {d : DecryptedKey}
    (h : key.decrypt localPassword true old = .ok d) :
    key.secret.length = 32 ∧ getPublicKey (privateKey d.privateKey) = .ok key.publicKey := by
  obtain ⟨_, hsecret, h⟩ := bind_ok h
  obtain ⟨data, -, h⟩ := bind_ok h
  obtain ⟨res, -, h⟩ := bind_ok h
  obtain ⟨publicKey, hpublic, h⟩ := bind_ok h
  obtain ⟨_, hsame, h⟩ := bind_ok h
  cases h
  rw [failIf_ok_iff, not_not] at hsecret
  rw [failIf_ok_iff, not_and, not_not] at hsame
  rw [hpublic, hsame rfl]
  exact ⟨hsecret, rfl⟩

/-- A key that can be written is encrypted, and the password opens it. -/
theorem DecryptedKey.encrypt_ok {key : DecryptedKey} {data publicKey : Bytes} (hdata : serialize key = .ok data)
    (hpublic : getPublicKey (KeyCrypto.privateKey key.privateKey) = .ok publicKey) (random : Nat → UInt8)
    (localPassword oldSecret : Bytes) : ∃ encrypted secret,
      key.encrypt random localPassword oldSecret = .ok ⟨encrypted, publicKey, secret⟩ ∧
        secret = (if oldSecret.length = 32 then oldSecret else (List.range 32).map random) ∧
          ∀ checkPublicKey, (EncryptedKey.mk encrypted publicKey secret).decrypt localPassword checkPublicKey false =
            .ok key := by
  obtain ⟨secret, hsecret⟩ :
      ∃ s, s = if oldSecret.length = 32 then oldSecret else (List.range 32).map random := ⟨_, rfl⟩
  have hlength : ¬ secret.length ≠ 32 := by
    rw [hsecret, not_not]
    split
    · assumption
    · simp
  obtain ⟨encrypted, hencrypt, hdecrypt⟩ := SimpleEncryption.encryptData_ok (fun i => random (32 + i)) data
    (kdf (combineSecrets secret localPassword) tonLocalKey pbkdfIterations)
  refine ⟨encrypted, secret, ?_, hsecret, ?_⟩
  · rw [DecryptedKey.encrypt, hdata]
    simp only [bind, Except.bind, ← hsecret, hencrypt, hpublic]
    rfl
  · intro checkPublicKey
    have hsame : ¬ (checkPublicKey = true ∧ publicKey ≠ publicKey) := fun h => h.2 rfl
    rw [EncryptedKey.decrypt, (failIf_ok_iff (u := ())).2 hlength]
    simp only [bind, Except.bind, Bool.false_eq_true, if_false, hdecrypt, unserialize_serialize hdata, hpublic]
    rw [(failIf_ok_iff (u := ())).2 hsame]
    rfl

omit [LawfulKeyCrypto] in
/-- What an encryption that succeeds has written and called. -/
theorem DecryptedKey.of_encrypt {key : DecryptedKey} {random : Nat → UInt8} {localPassword oldSecret : Bytes}
    {e : EncryptedKey} (h : key.encrypt random localPassword oldSecret = .ok e) :
    (∃ data, serialize key = .ok data) ∧ getPublicKey (KeyCrypto.privateKey key.privateKey) = .ok e.publicKey := by
  obtain ⟨data, hdata, h⟩ := bind_ok h
  obtain ⟨encrypted, -, h⟩ := bind_ok h
  obtain ⟨publicKey, hpublic, h⟩ := bind_ok h
  cases h
  refine ⟨⟨data, hdata⟩, ?_⟩
  unfold moveAsOk at hpublic
  split at hpublic
  · cases hpublic
  · exact hpublic

/-- What was encrypted is opened by the password, with the key's own public key. -/
theorem DecryptedKey.decrypt_of_encrypt {key : DecryptedKey} {random : Nat → UInt8} {localPassword oldSecret : Bytes}
    {e : EncryptedKey} (h : key.encrypt random localPassword oldSecret = .ok e) :
    e.decrypt localPassword true false = .ok key ∧
      e.secret = if oldSecret.length = 32 then oldSecret else (List.range 32).map random := by
  obtain ⟨⟨data, hdata⟩, hpublic⟩ := of_encrypt h
  obtain ⟨encrypted, secret, hok, hsecret, hdecrypt⟩ := encrypt_ok hdata hpublic random localPassword oldSecret
  have he : e = ⟨encrypted, e.publicKey, secret⟩ := Except.ok.inj (h.symm.trans hok)
  rw [he]
  exact ⟨hdecrypt true, hsecret⟩

end

end TonWallet.Tonlib
