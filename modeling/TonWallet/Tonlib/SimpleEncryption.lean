/-
The encryption of comments, `SimpleEncryptionV2`: a random prefix pads the data to whole blocks, the message key is taken
from a hash of the padded data, and the two public keys go in front, one hidden by the other, so that either party can
find the other's.
-/
import Mathlib.Data.List.Basic
import TonWallet.Td.Status

namespace TonWallet.Tonlib

open TonWallet.Td

abbrev Bytes := List UInt8

/-- The cryptographic functions: of `td::Ed25519`, and `hmac_sha512`, `aes_cbc_encrypt`, `aes_cbc_decrypt`. -/
class Crypto where
  PrivateKey : Type
  getPublicKey : PrivateKey → Result Bytes
  computeSharedSecret : Bytes → PrivateKey → Result Bytes
  hmacSha512 : Bytes → Bytes → Bytes
  aesCbcEncrypt : Bytes → Bytes → Bytes → Bytes
  aesCbcDecrypt : Bytes → Bytes → Bytes → Bytes

open Crypto

/-- What is relied on: both sides compute the same secret, decryption inverts encryption, and the sizes of the results. -/
class LawfulCrypto [Crypto] : Prop where
  length_getPublicKey : ∀ {k : PrivateKey} {p : Bytes}, getPublicKey k = .ok p → p.length = 32
  computeSharedSecret_comm : ∀ {k k' : PrivateKey} {p p' : Bytes}, getPublicKey k = .ok p → getPublicKey k' = .ok p' →
    ∃ secret, computeSharedSecret p' k = .ok secret ∧ computeSharedSecret p k' = .ok secret
  length_hmacSha512 : ∀ key message, (hmacSha512 key message).length = 64
  length_aesCbcEncrypt : ∀ {key iv data : Bytes}, key.length = 32 → iv.length = 16 → data.length % 16 = 0 →
    (aesCbcEncrypt key iv data).length = data.length
  aesCbcDecrypt_encrypt : ∀ {key iv data : Bytes}, key.length = 32 → iv.length = 16 → data.length % 16 = 0 →
    aesCbcDecrypt key iv (aesCbcEncrypt key iv data) = data

namespace SimpleEncryption

/-- `td::AesCbcState`. -/
structure AesCbcState where
  key : Bytes
  iv : Bytes

/-- `calc_aes_cbc_state_hash`. -/
def calcAesCbcStateHash (hash : Bytes) : Result AesCbcState := do
  check (48 ≤ hash.length) "hash.size() >= 48"
  pure ⟨hash.take 32, (hash.drop 32).take 16⟩

/-- `gen_random_prefix`, with what the random generator fills the buffer with. `& -16` clears the low four bits. -/
def genRandomPrefix (random : Nat → UInt8) (dataSize minPadding : Nat) : Result Bytes := do
  let size := (minPadding + 15 + dataSize) / 16 * 16 - dataSize
  check (size < 256) "narrow_cast"
  let buff := ((List.range size).map random).set 0 (UInt8.ofNat size)
  check ((buff.length + dataSize) % 16 = 0) "(buff.size() + data_size) % 16 == 0"
  pure buff

end SimpleEncryption

namespace SimpleEncryptionV2

open SimpleEncryption

/-- `Ed25519::PublicKey::LENGTH`. -/
def publicKeyLength : Nat := 32

/-- `secure_xor`. -/
def secureXor (a b : Bytes) : Result Bytes := do
  check (a.length = b.length) "a.size() == b.size()"
  pure (List.zipWith (· ^^^ ·) a b)

/-- `unpack_encrypted_data`. -/
def unpackEncryptedData (encryptedData : Bytes) : Result (Bytes × Bytes) := do
  failIf (encryptedData.length < 17) "Failed to decrypt: data is too small"
  failIf (encryptedData.length % 16 ≠ 0) "Failed to decrypt: data size is not divisible by 16"
  pure (encryptedData.take 16, encryptedData.drop 16)

/-! ## Padding and keys -/

/-- The prefix pads to whole blocks, is at least as long as asked for, and says its length in its first byte. -/
theorem genRandomPrefix_ok (random : Nat → UInt8) (dataSize : Nat) {minPadding : Nat} (hpos : 0 < minPadding)
    (hle : minPadding ≤ 240) : ∃ pre rest,
      genRandomPrefix random dataSize minPadding = .ok (pre :: rest) ∧ pre.toNat = rest.length + 1 ∧
        minPadding ≤ rest.length + 1 ∧ (rest.length + 1 + dataSize) % 16 = 0 := by
  have hsize : ∃ n, (minPadding + 15 + dataSize) / 16 * 16 - dataSize = n + 1 ∧ minPadding ≤ n + 1 ∧ n + 1 < 256 ∧
      (n + 1 + dataSize) % 16 = 0 := ⟨(minPadding + 15 + dataSize) / 16 * 16 - dataSize - 1, by omega⟩
  obtain ⟨n, heq, hmin, hmax, hmod⟩ := hsize
  have hbuff : ((List.range (n + 1)).map random).set 0 (UInt8.ofNat (n + 1)) =
      UInt8.ofNat (n + 1) :: (List.range n).map fun i => random (i + 1) := by
    rw [List.range_succ_eq_map, List.map_cons, List.set_cons_zero, List.map_map]
    rfl
  refine ⟨UInt8.ofNat (n + 1), (List.range n).map fun i => random (i + 1), ?_, ?_, ?_, ?_⟩
  · unfold genRandomPrefix
    simp only [heq, hbuff]
    rw [(check_ok_iff (u := ())).2 hmax]
    have hlength : ((UInt8.ofNat (n + 1) :: (List.range n).map fun i => random (i + 1)).length + dataSize) % 16 = 0 := by
      simpa using hmod
    rw [(check_ok_iff (u := ())).2 hlength]
    rfl
  · simpa using Nat.mod_eq_of_lt hmax
  · simpa using hmin
  · simpa using hmod

theorem secureXor_eq_ok {a b : Bytes} (h : a.length = b.length) : secureXor a b = .ok (List.zipWith (· ^^^ ·) a b) := by
  rw [secureXor, (check_ok_iff (u := ())).2 h]
  rfl

/-- Hiding a key twice under another gives it back. -/
theorem secureXor_secureXor {a b : Bytes} (h : a.length = b.length) :
    secureXor (List.zipWith (· ^^^ ·) a b) b = .ok a := by
  rw [secureXor_eq_ok (by simp [h])]
  congr 1
  apply List.ext_getElem
  · simp [h]
  · intro i _ _
    simp [UInt8.xor_assoc]

theorem secureXor_comm {a b : Bytes} : List.zipWith (· ^^^ ·) a b = List.zipWith (· ^^^ ·) b a :=
  List.zipWith_comm_of_comm (fun _ _ => UInt8.xor_comm _ _)

/-! ## Blocks -/

/-- The key and the vector are the first 48 bytes of the hash. -/
theorem calcAesCbcStateHash_eq_ok {hash : Bytes} (h : 48 ≤ hash.length) :
    calcAesCbcStateHash hash = .ok ⟨hash.take 32, (hash.drop 32).take 16⟩ := by
  rw [calcAesCbcStateHash, (check_ok_iff (u := ())).2 h]
  rfl

theorem length_of_unpackEncryptedData {c : Bytes} {p : Bytes × Bytes} (h : unpackEncryptedData c = .ok p) :
    ∃ n, 0 < n ∧ c.length = 16 + 16 * n := by
  obtain ⟨u, hsmall, h⟩ := bind_ok h
  obtain ⟨v, hwhole, h⟩ := bind_ok h
  rw [failIf_ok_iff] at hsmall hwhole
  exact ⟨c.length / 16 - 1, by omega, by omega⟩

end SimpleEncryptionV2

section

variable [Crypto]

/-! ## Encryption and decryption -/

namespace SimpleEncryption

/-- `combine_secrets`. -/
def combineSecrets (a b : Bytes) : Bytes := hmacSha512 a b

end SimpleEncryption

namespace SimpleEncryptionV2

open SimpleEncryption

/-- `encrypt_data_with_prefix`. -/
def encryptDataWithPrefix (data secret salt : Bytes) : Result Bytes := do
  check (data.length % 16 = 0) "data.size() % 16 == 0"
  let dataHash := combineSecrets salt data
  let msgKey := dataHash.take 16
  let cbcState ← calcAesCbcStateHash (combineSecrets secret msgKey)
  pure (msgKey ++ aesCbcEncrypt cbcState.key cbcState.iv data)

/-- `encrypt_data(data, secret, salt)`. -/
def encryptDataSecret (random : Nat → UInt8) (data secret salt : Bytes) : Result Bytes := do
  let pre ← genRandomPrefix random data.length 16
  encryptDataWithPrefix (pre ++ data) secret salt

/-- `encrypt_data(data, public_key, private_key, salt)`. -/
def encryptData (random : Nat → UInt8) (data publicKey : Bytes) (privateKey : PrivateKey) (salt : Bytes) :
    Result Bytes := do
  let sharedSecret ← computeSharedSecret publicKey privateKey
  let encrypted ← encryptDataSecret random data sharedSecret salt
  let tmpPublicKey ← getPublicKey privateKey
  let xoredKeys ← secureXor publicKey tmpPublicKey
  pure (xoredKeys ++ encrypted)

/-- `do_decrypt`. -/
def doDecrypt (cbcStateSecret msgKey encryptedData salt : Bytes) : Result Bytes := do
  let cbcState ← calcAesCbcStateHash cbcStateSecret
  let decryptedData := aesCbcDecrypt cbcState.key cbcState.iv encryptedData
  let dataHash := combineSecrets salt decryptedData
  let gotMsgKey := dataHash.take 16
  failIf (msgKey ≠ gotMsgKey) "Failed to decrypt: hash mismatch"
  let prefixSize := (decryptedData.headD 0).toNat
  failIf (prefixSize > decryptedData.length ∨ prefixSize < 16) "Failed to decrypt: invalid prefix size"
  pure (decryptedData.drop prefixSize)

/-- `Decrypted`. -/
structure Decrypted where
  proof : Bytes
  data : Bytes

/-- `decrypt_data(data, secret, salt)`. -/
def decryptDataSecret (encryptedData secret salt : Bytes) : Result Decrypted := do
  let (msgKey, data) ← unpackEncryptedData encryptedData
  let cbcStateSecret := (combineSecrets secret msgKey).take 48
  let res ← doDecrypt cbcStateSecret msgKey data salt
  pure ⟨cbcStateSecret, res⟩

/-- `decrypt_data(data, private_key, salt)`. -/
def decryptData (data : Bytes) (privateKey : PrivateKey) (salt : Bytes) : Result Decrypted := do
  failIf (data.length < publicKeyLength) "Failed to decrypte: data is too small"
  let publicKey ← getPublicKey privateKey
  let tmpPublicKey ← secureXor (data.take publicKeyLength) publicKey
  let sharedSecret ← computeSharedSecret tmpPublicKey privateKey
  decryptDataSecret (data.drop publicKeyLength) sharedSecret salt

/-- `decrypt_data_with_proof`. -/
def decryptDataWithProof (encryptedData proof salt : Bytes) : Result Bytes := do
  failIf (encryptedData.length < publicKeyLength) "Failed to decrypte: data is too small"
  failIf (proof.length ≠ 48) "Invalid proof size"
  let (msgKey, data) ← unpackEncryptedData (encryptedData.drop publicKeyLength)
  doDecrypt proof msgKey data salt

/-- An accepted text holds two keys, a message key and blocks. -/
theorem length_of_decryptData {c salt : Bytes} {k : PrivateKey} {d : Decrypted} (h : decryptData c k salt = .ok d) :
    ∃ n, 0 < n ∧ c.length = 32 + 16 + 16 * n := by
  obtain ⟨u, hsmall, h⟩ := bind_ok h
  obtain ⟨publicKey, -, h⟩ := bind_ok h
  obtain ⟨tmpPublicKey, -, h⟩ := bind_ok h
  obtain ⟨secret, -, h⟩ := bind_ok h
  obtain ⟨p, hunpack, -⟩ := bind_ok h
  obtain ⟨n, hn, hlength⟩ := length_of_unpackEncryptedData hunpack
  rw [failIf_ok_iff, publicKeyLength] at hsmall
  rw [List.length_drop, publicKeyLength] at hlength
  exact ⟨n, hn, by omega⟩

theorem length_of_decryptDataWithProof {c proof salt data : Bytes} (h : decryptDataWithProof c proof salt = .ok data) :
    ∃ n, 0 < n ∧ c.length = 32 + 16 + 16 * n := by
  obtain ⟨u, hsmall, h⟩ := bind_ok h
  obtain ⟨v, -, h⟩ := bind_ok h
  obtain ⟨p, hunpack, -⟩ := bind_ok h
  obtain ⟨n, hn, hlength⟩ := length_of_unpackEncryptedData hunpack
  rw [failIf_ok_iff, publicKeyLength] at hsmall
  rw [List.length_drop, publicKeyLength] at hlength
  exact ⟨n, hn, by omega⟩

/-- The message key is taken from the hash of the padded data under the salt, on both sides. -/
theorem msgKey_of_decryptData {c salt : Bytes} {k : PrivateKey} {d : Decrypted} (h : decryptData c k salt = .ok d) :
    ∃ padded, (c.drop 32).take 16 = (combineSecrets salt padded).take 16 := by
  obtain ⟨_, -, h⟩ := bind_ok h
  obtain ⟨_, -, h⟩ := bind_ok h
  obtain ⟨_, -, h⟩ := bind_ok h
  obtain ⟨secret, -, h⟩ := bind_ok h
  obtain ⟨p, hunpack, h⟩ := bind_ok h
  obtain ⟨res, hdecrypt, -⟩ := bind_ok h
  obtain ⟨_, -, hunpack⟩ := bind_ok hunpack
  obtain ⟨_, -, hunpack⟩ := bind_ok hunpack
  cases hunpack
  obtain ⟨state, -, hdecrypt⟩ := bind_ok hdecrypt
  obtain ⟨_, hkey, -⟩ := bind_ok hdecrypt
  rw [failIf_ok_iff, not_not] at hkey
  exact ⟨_, hkey⟩

variable [LawfulCrypto]

open LawfulCrypto

theorem msgKey_of_encryptData {random : Nat → UInt8} {data publicKey salt c : Bytes} {k : PrivateKey}
    (h : encryptData random data publicKey k salt = .ok c) :
    ∃ padded, (c.drop 32).take 16 = (combineSecrets salt padded).take 16 := by
  obtain ⟨secret, -, h⟩ := bind_ok h
  obtain ⟨encrypted, hencrypt, h⟩ := bind_ok h
  obtain ⟨tmpPublicKey, htmp, h⟩ := bind_ok h
  obtain ⟨keys, hxor, h⟩ := bind_ok h
  obtain ⟨_, hlength, hxor⟩ := bind_ok hxor
  rw [check_ok_iff] at hlength
  cases hxor
  cases h
  have hkeys : (List.zipWith (· ^^^ ·) publicKey tmpPublicKey).length = 32 := by
    rw [List.length_zipWith, hlength, length_getPublicKey htmp]
    rfl
  obtain ⟨pre, -, hencrypt⟩ := bind_ok hencrypt
  obtain ⟨_, -, hencrypt⟩ := bind_ok hencrypt
  obtain ⟨state, -, hencrypt⟩ := bind_ok hencrypt
  cases hencrypt
  refine ⟨pre ++ data, ?_⟩
  rw [List.drop_left' hkeys]
  apply List.take_left'
  rw [List.length_take, combineSecrets, length_hmacSha512]
  rfl

/-- Decryption with the first 48 bytes of the hash, of padded data that was encrypted with the hash. -/
theorem doDecrypt_encrypt {hash data salt : Bytes} {pre : UInt8} (hhash : hash.length = 64)
    (hmod : (pre :: data).length % 16 = 0) (hpre : pre.toNat ≤ data.length + 1) (hmin : 16 ≤ pre.toNat) :
    doDecrypt (hash.take 48) ((combineSecrets salt (pre :: data)).take 16)
      (aesCbcEncrypt (hash.take 32) ((hash.drop 32).take 16) (pre :: data)) salt =
        .ok ((pre :: data).drop pre.toNat) := by
  have hkey : (hash.take 48).take 32 = hash.take 32 := by simp [List.take_take]
  have hiv : ((hash.take 48).drop 32).take 16 = (hash.drop 32).take 16 := by simp [List.drop_take, List.take_take]
  have hdecrypt : aesCbcDecrypt (hash.take 32) ((hash.drop 32).take 16)
      (aesCbcEncrypt (hash.take 32) ((hash.drop 32).take 16) (pre :: data)) = pre :: data :=
    aesCbcDecrypt_encrypt (by simp [hhash]) (by simp [hhash]) hmod
  have hsize : ¬ (pre.toNat > (pre :: data).length ∨ pre.toNat < 16) := by
    rw [List.length_cons]
    omega
  rw [doDecrypt, calcAesCbcStateHash_eq_ok (by simp [hhash]), hkey, hiv]
  simp only [bind, Except.bind, hdecrypt, List.headD_cons]
  rw [(failIf_ok_iff (u := ())).2 (not_not.2 rfl), (failIf_ok_iff (u := ())).2 hsize]
  rfl

/-- What encryption under a shared secret yields: the message key and whole blocks, which the same secret opens. -/
theorem encryptDataSecret_ok (random : Nat → UInt8) (data secret salt : Bytes) : ∃ msgKey blocks,
    encryptDataSecret random data secret salt = .ok (msgKey ++ blocks) ∧ msgKey.length = 16 ∧ 16 ≤ blocks.length ∧
      blocks.length % 16 = 0 ∧ doDecrypt ((combineSecrets secret msgKey).take 48) msgKey blocks salt = .ok data := by
  obtain ⟨pre, rest, hprefix, hpre, hmin, hmod⟩ := genRandomPrefix_ok random data.length (by decide : 0 < 16) (by decide)
  have hlength : (pre :: (rest ++ data)).length = rest.length + 1 + data.length := by
    simp only [List.length_cons, List.length_append]
    omega
  have hblocks : (pre :: (rest ++ data)).length % 16 = 0 := by rw [hlength, hmod]
  obtain ⟨msgKey, hmsgKey⟩ : ∃ k, k = (combineSecrets salt (pre :: (rest ++ data))).take 16 := ⟨_, rfl⟩
  obtain ⟨hash, hhash⟩ : ∃ h, h = combineSecrets secret msgKey := ⟨_, rfl⟩
  have hsize : hash.length = 64 := by
    rw [hhash]
    exact length_hmacSha512 _ _
  have hencrypt : (aesCbcEncrypt (hash.take 32) ((hash.drop 32).take 16) (pre :: (rest ++ data))).length =
      (pre :: (rest ++ data)).length :=
    length_aesCbcEncrypt (by simp [hsize]) (by simp [hsize]) hblocks
  have hstate : calcAesCbcStateHash hash = .ok ⟨hash.take 32, (hash.drop 32).take 16⟩ :=
    calcAesCbcStateHash_eq_ok (by omega)
  refine ⟨msgKey, aesCbcEncrypt (hash.take 32) ((hash.drop 32).take 16) (pre :: (rest ++ data)), ?_, ?_, ?_, ?_, ?_⟩
  · rw [encryptDataSecret, hprefix]
    simp only [bind, Except.bind, List.cons_append, encryptDataWithPrefix]
    rw [(check_ok_iff (u := ())).2 hblocks]
    simp only [← hmsgKey, ← hhash, hstate]
    rfl
  · simp [hmsgKey, combineSecrets, length_hmacSha512]
  · rw [hencrypt]
    omega
  · rw [hencrypt, hblocks]
  · rw [← hhash, hmsgKey, doDecrypt_encrypt hsize hblocks]
    · have hdrop : rest.length + 1 = (pre :: rest).length := rfl
      rw [hpre, hdrop, ← List.cons_append, List.drop_left]
    · rw [List.length_append]
      omega
    · omega

/-- What is hidden behind the keys is opened by whoever computes the secret. -/
theorem decryptData_of_secret {k : PrivateKey} {publicKey tmpPublicKey keys msgKey blocks secret data salt : Bytes}
    (hpublic : getPublicKey k = .ok publicKey) (hkeys : keys.length = 32)
    (hxor : secureXor keys publicKey = .ok tmpPublicKey) (hsecret : computeSharedSecret tmpPublicKey k = .ok secret)
    (hmsgKey : msgKey.length = 16) (hblocks : 16 ≤ blocks.length) (hmod : blocks.length % 16 = 0)
    (hdecrypt : doDecrypt ((combineSecrets secret msgKey).take 48) msgKey blocks salt = .ok data) :
    ∃ d, decryptData (keys ++ (msgKey ++ blocks)) k salt = .ok d ∧ d.data = data ∧
      decryptDataWithProof (keys ++ (msgKey ++ blocks)) d.proof salt = .ok data := by
  have hlength : ¬ (keys ++ (msgKey ++ blocks)).length < publicKeyLength := by
    rw [List.length_append, hkeys]
    exact Nat.not_lt.2 (Nat.le_add_right _ _)
  have htake : (keys ++ (msgKey ++ blocks)).take publicKeyLength = keys := List.take_left' hkeys
  have hdrop : (keys ++ (msgKey ++ blocks)).drop publicKeyLength = msgKey ++ blocks := List.drop_left' hkeys
  have hunpack : unpackEncryptedData (msgKey ++ blocks) = .ok (msgKey, blocks) := by
    have hsmall : ¬ (msgKey ++ blocks).length < 17 := by
      rw [List.length_append]
      omega
    have hwhole : ¬ (msgKey ++ blocks).length % 16 ≠ 0 := by
      rw [List.length_append]
      omega
    rw [unpackEncryptedData, (failIf_ok_iff (u := ())).2 hsmall, (failIf_ok_iff (u := ())).2 hwhole,
      List.take_left' hmsgKey, List.drop_left' hmsgKey]
    rfl
  have hproof : ¬ ((combineSecrets secret msgKey).take 48).length ≠ 48 := by
    simp [combineSecrets, length_hmacSha512]
  refine ⟨⟨(combineSecrets secret msgKey).take 48, data⟩, ?_, rfl, ?_⟩
  · rw [decryptData, (failIf_ok_iff (u := ())).2 hlength, htake, hdrop]
    simp only [bind, Except.bind, hpublic, hxor, hsecret, decryptDataSecret, hunpack, hdecrypt]
    rfl
  · rw [decryptDataWithProof, (failIf_ok_iff (u := ())).2 hlength, (failIf_ok_iff (u := ())).2 hproof, hdrop]
    simp only [bind, Except.bind, hunpack, hdecrypt]

/-- Encryption between keys: the two public keys, one hidden by the other, and what the shared secret encrypts. -/
theorem encryptData_ok {sender : PrivateKey} {senderPublic publicKey secret : Bytes}
    (hsender : getPublicKey sender = .ok senderPublic) (hlength : publicKey.length = senderPublic.length)
    (hsecret : computeSharedSecret publicKey sender = .ok secret) (random : Nat → UInt8) (data salt : Bytes) :
    ∃ msgKey blocks, encryptData random data publicKey sender salt =
        .ok (List.zipWith (· ^^^ ·) publicKey senderPublic ++ (msgKey ++ blocks)) ∧
      msgKey.length = 16 ∧ 16 ≤ blocks.length ∧ blocks.length % 16 = 0 ∧
        doDecrypt ((combineSecrets secret msgKey).take 48) msgKey blocks salt = .ok data := by
  obtain ⟨msgKey, blocks, hencrypt, hrest⟩ := encryptDataSecret_ok random data secret salt
  refine ⟨msgKey, blocks, ?_, hrest⟩
  rw [encryptData, hsecret]
  simp only [bind, Except.bind, hencrypt, hsender, secureXor_eq_ok hlength]
  rfl

omit [LawfulCrypto] in
/-- What an encryption that succeeds has called. -/
theorem calls_of_encryptData {random : Nat → UInt8} {data publicKey salt c : Bytes} {k : PrivateKey}
    (h : encryptData random data publicKey k salt = .ok c) : ∃ secret senderPublic,
      computeSharedSecret publicKey k = .ok secret ∧ getPublicKey k = .ok senderPublic ∧
        publicKey.length = senderPublic.length := by
  obtain ⟨secret, hsecret, h⟩ := bind_ok h
  obtain ⟨_, -, h⟩ := bind_ok h
  obtain ⟨senderPublic, hsender, h⟩ := bind_ok h
  obtain ⟨_, hxor, -⟩ := bind_ok h
  obtain ⟨_, hlength, -⟩ := bind_ok hxor
  exact ⟨secret, senderPublic, hsecret, hsender, check_ok_iff.1 hlength⟩

/-- The sender opens what it encrypted to any public key. -/
theorem decryptData_sender {random : Nat → UInt8} {data publicKey salt c : Bytes} {k : PrivateKey}
    (h : encryptData random data publicKey k salt = .ok c) : ∃ d, decryptData c k salt = .ok d ∧ d.data = data ∧
      decryptDataWithProof c d.proof salt = .ok data := by
  obtain ⟨secret, senderPublic, hsecret, hsender, hlength⟩ := calls_of_encryptData h
  obtain ⟨msgKey, blocks, hok, hmsgKey, hblocks, hmod, hdecrypt⟩ := encryptData_ok hsender hlength hsecret random data salt
  rw [h] at hok
  cases hok
  have hkeys : (List.zipWith (· ^^^ ·) publicKey senderPublic).length = 32 := by
    rw [List.length_zipWith, hlength, length_getPublicKey hsender]
    rfl
  exact decryptData_of_secret hsender hkeys (secureXor_secureXor hlength) hsecret hmsgKey hblocks hmod hdecrypt

/-- The receiver opens what is encrypted to its public key. -/
theorem decryptData_receiver {random : Nat → UInt8} {data publicKey salt c : Bytes} {sender receiver : PrivateKey}
    (hreceiver : getPublicKey receiver = .ok publicKey) (h : encryptData random data publicKey sender salt = .ok c) :
    ∃ d, decryptData c receiver salt = .ok d ∧ d.data = data ∧ decryptDataWithProof c d.proof salt = .ok data := by
  obtain ⟨-, senderPublic, -, hsender, hlength⟩ := calls_of_encryptData h
  obtain ⟨secret, hsend, hreceive⟩ := computeSharedSecret_comm hsender hreceiver
  obtain ⟨msgKey, blocks, hok, hmsgKey, hblocks, hmod, hdecrypt⟩ := encryptData_ok hsender hlength hsend random data salt
  rw [h] at hok
  cases hok
  have hkeys : (List.zipWith (· ^^^ ·) publicKey senderPublic).length = 32 := by
    rw [List.length_zipWith, hlength, length_getPublicKey hsender]
    rfl
  have hopen : secureXor (List.zipWith (· ^^^ ·) publicKey senderPublic) publicKey = .ok senderPublic := by
    rw [secureXor_comm]
    exact secureXor_secureXor hlength.symm
  exact decryptData_of_secret hreceiver hkeys hopen hreceive hmsgKey hblocks hmod hdecrypt

/-- A text is opened to exactly the data that was encrypted, by the receiver and by the sender, and by the proof that
either decryption returns; and every accepted text has the length of one. -/
theorem decrypts_encrypted {sender receiver : PrivateKey} {senderPublic receiverPublic : Bytes}
    (hsender : getPublicKey sender = .ok senderPublic) (hreceiver : getPublicKey receiver = .ok receiverPublic)
    (random : Nat → UInt8) (data salt : Bytes) :
    (∃ c, encryptData random data receiverPublic sender salt = .ok c ∧
      (∃ d, decryptData c receiver salt = .ok d ∧ d.data = data ∧ decryptDataWithProof c d.proof salt = .ok data) ∧
      ∃ d, decryptData c sender salt = .ok d ∧ d.data = data ∧ decryptDataWithProof c d.proof salt = .ok data) ∧
    (∀ c k salt d, decryptData c k salt = .ok d → ∃ n, 0 < n ∧ c.length = 32 + 16 + 16 * n) ∧
    ∀ c proof salt data, decryptDataWithProof c proof salt = .ok data → ∃ n, 0 < n ∧ c.length = 32 + 16 + 16 * n := by
  refine ⟨?_, fun c k salt d h => length_of_decryptData h, fun c proof salt data h => length_of_decryptDataWithProof h⟩
  obtain ⟨secret, hsend, -⟩ := computeSharedSecret_comm hsender hreceiver
  have hlength : receiverPublic.length = senderPublic.length :=
    (length_getPublicKey hreceiver).trans (length_getPublicKey hsender).symm
  obtain ⟨msgKey, blocks, hok, -⟩ := encryptData_ok hsender hlength hsend random data salt
  exact ⟨_, hok, decryptData_receiver hreceiver hok, decryptData_sender hok⟩

end SimpleEncryptionV2

end

namespace SimpleEncryptionV2.Sample

def senderKey : Bytes :=
  [0, 1, 2, 3, 4, 5, 6, 7, 8, 9, 10, 11, 12, 13, 14, 15, 16, 17, 18, 19, 20, 21, 22, 23, 24, 25, 26, 27, 28,
   29, 30, 31]
def receiverKey : Bytes :=
  [32, 33, 34, 35, 36, 37, 38, 39, 40, 41, 42, 43, 44, 45, 46, 47, 48, 49, 50, 51, 52, 53, 54, 55, 56, 57, 58,
   59, 60, 61, 62, 63]
def senderPublic : Bytes :=
  [3, 161, 7, 191, 243, 206, 16, 190, 29, 112, 221, 24, 231, 75, 192, 153, 103, 228, 214, 48, 155, 165, 13,
   95, 29, 220, 134, 100, 18, 85, 49, 184]
def receiverPublic : Bytes :=
  [41, 172, 186, 225, 65, 188, 202, 240, 178, 46, 26, 148, 211, 77, 11, 199, 54, 30, 82, 109, 11, 254, 18,
   200, 151, 148, 188, 147, 34, 150, 109, 215]
def secret : Bytes :=
  [246, 249, 46, 251, 50, 148, 90, 255, 104, 51, 36, 161, 201, 132, 197, 0, 31, 70, 170, 234, 81, 63, 52, 83,
   19, 141, 116, 11, 58, 96, 75, 125]
def padded : Bytes :=
  [30, 0, 0, 0, 0, 0, 0, 0, 0, 0, 0, 0, 0, 0, 0, 0, 0, 0, 0, 0, 0, 0, 0, 0, 0, 0, 0, 0, 0, 0, 104, 105]
def dataHash : Bytes :=
  [109, 124, 9, 94, 118, 115, 197, 171, 67, 169, 127, 64, 131, 134, 48, 207, 244, 114, 147, 108, 49, 216, 169,
   226, 31, 84, 68, 15, 197, 176, 47, 239, 114, 244, 232, 224, 165, 121, 117, 194, 113, 234, 166, 2, 26, 193,
   224, 200, 59, 232, 165, 170, 244, 219, 22, 130, 162, 161, 164, 90, 18, 35, 91, 23]
def stateHash : Bytes :=
  [78, 84, 88, 192, 44, 113, 168, 162, 132, 15, 91, 89, 148, 31, 117, 1, 129, 133, 119, 11, 201, 149, 23, 175,
   45, 239, 80, 50, 138, 252, 73, 71, 25, 20, 173, 120, 53, 146, 155, 111, 100, 43, 163, 50, 127, 229, 175,
   187, 156, 156, 97, 19, 148, 96, 237, 219, 68, 186, 241, 252, 65, 76, 156, 181]
def blocks : Bytes :=
  [188, 247, 251, 28, 79, 205, 205, 146, 9, 243, 23, 242, 155, 112, 150, 113, 131, 137, 49, 236, 224, 86, 152,
   251, 103, 170, 81, 84, 81, 181, 7, 122]

/-- Two keys, and the values of the functions that the encryption of two bytes needs. -/
instance crypto : Crypto where
  PrivateKey := Bytes
  getPublicKey k :=
    if k = senderKey then .ok senderPublic
    else if k = receiverKey then .ok receiverPublic
    else fail "Can't import private key"
  computeSharedSecret _ _ := .ok secret
  hmacSha512 key message :=
    if key = [] ∧ message = padded then dataHash
    else if key = secret ∧ message = dataHash.take 16 then stateHash
    else List.replicate 64 0
  aesCbcEncrypt key iv data :=
    if key = stateHash.take 32 ∧ iv = (stateHash.drop 32).take 16 ∧ data = padded then blocks
    else if key = stateHash.take 32 ∧ iv = (stateHash.drop 32).take 16 ∧ data = blocks then padded
    else data
  aesCbcDecrypt key iv data :=
    if key = stateHash.take 32 ∧ iv = (stateHash.drop 32).take 16 ∧ data = blocks then padded
    else if key = stateHash.take 32 ∧ iv = (stateHash.drop 32).take 16 ∧ data = padded then blocks
    else data

instance lawful : LawfulCrypto where
  length_getPublicKey := by
    intro k p h
    simp only [Crypto.getPublicKey] at h
    split at h
    · cases h
      rfl
    · split at h
      · cases h
        rfl
      · cases h
  computeSharedSecret_comm := fun _ _ => ⟨secret, rfl, rfl⟩
  length_hmacSha512 := by
    intro key message
    simp only [Crypto.hmacSha512]
    split
    · rfl
    · split
      · rfl
      · simp
  length_aesCbcEncrypt := by
    intro key iv data _ _ _
    simp only [Crypto.aesCbcEncrypt]
    split
    · next h => rw [h.2.2]; rfl
    · split
      · next h => rw [h.2.2]; rfl
      · rfl
  aesCbcDecrypt_encrypt := by
    intro key iv data _ _ _
    have hne : padded ≠ blocks := by decide
    simp only [Crypto.aesCbcEncrypt, Crypto.aesCbcDecrypt]
    by_cases hstate : key = stateHash.take 32 ∧ iv = (stateHash.drop 32).take 16
    · by_cases hpadded : data = padded
      · simp [hstate, hpadded]
      · by_cases hblocks : data = blocks
        · simp [hstate, hblocks, hne, hne.symm]
        · simp [hpadded, hblocks]
    · have hno (a b : Bytes) : ¬ (key = stateHash.take 32 ∧ iv = (stateHash.drop 32).take 16 ∧ a = b) :=
        fun h => hstate ⟨h.1, h.2.1⟩
      simp only [hno, if_false]

/-- A comment of two bytes. -/
theorem decrypts_comment : ∃ c, encryptData (fun _ => 0) [104, 105] receiverPublic senderKey [] = .ok c ∧
    (∃ d, decryptData c receiverKey [] = .ok d ∧ d.data = [104, 105] ∧
      decryptDataWithProof c d.proof [] = .ok [104, 105]) ∧
    ∃ d, decryptData c senderKey [] = .ok d ∧ d.data = [104, 105] ∧
      decryptDataWithProof c d.proof [] = .ok [104, 105] :=
  (decrypts_encrypted (rfl : Crypto.getPublicKey senderKey = .ok senderPublic)
    (rfl : Crypto.getPublicKey receiverKey = .ok receiverPublic) (fun _ => 0) [104, 105] []).1

end SimpleEncryptionV2.Sample

end TonWallet.Tonlib
