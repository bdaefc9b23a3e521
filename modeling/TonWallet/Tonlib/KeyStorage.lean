/-
The private keys in the store, `KeyStorage`, beside the block states of `LastBlockStorage`. A key is found under a hash of its
secret, or else under its public key, the deprecated location, from where its copy is moved; and what still has the
deprecated encryption is encrypted anew when it is opened.
-/
import Mathlib.Data.List.Dedup
import TonWallet.Lib.Run
import TonWallet.Tonlib.KeyEncryption
import TonWallet.Tonlib.KeyValue

namespace TonWallet.Tonlib.KeyStorage

open Lib TonWallet.Td Crypto KeyCrypto

/-! ## Keys and their names -/

/-- `KeyStorage::Key`. -/
structure Key where
  publicKey : Bytes
  secret : Bytes
  deriving DecidableEq

/-- `KeyStorage::InputKey`. -/
structure InputKey where
  key : Key
  localPassword : Bytes
  deriving DecidableEq

/-- `to_file_name_old`. -/
def toFileNameOld (key : Key) : String := bufferToHex key.publicKey

/-- The name of the file of a block state, `get_file_name` of `LastBlockStorage`. -/
def getFileName (name : Bytes) : String := bufferToHex name ++ ".blkstate"

/-- `TonlibError::Internal`. -/
def internal : Status := ⟨500, "INTERNAL"⟩

/-- `TonlibError::KeyUnknown`. -/
def keyUnknown : Status := ⟨500, "KEY_UNKNOWN"⟩

/-- `TonlibError::KeyDecrypt`. -/
def keyDecrypt : Status := ⟨500, "KEY_DECRYPT"⟩

section

variable [KeyCrypto]

/-- `to_file_name`. -/
def toFileName (key : Key) : String := bufferToHex ((sha512 key.secret).take 32)

/-! ## Operations -/

/-- `save_key`, with the random bytes of the secret and of the encryption. -/
def saveKey (random : Nat → UInt8) (fault : Option SetFault) (decryptedKey : DecryptedKey) (localPassword : Bytes)
    (kv : KeyValue) : Result Key × KeyValue :=
  match decryptedKey.encrypt random localPassword [] with
  | .error f => (.error f, kv)
  | .ok encryptedKey =>
    let res : Key := ⟨encryptedKey.publicKey, encryptedKey.secret⟩
    let set := kv.set (toFileName res) encryptedKey.encryptedData fault
    match set.1 with
    | .error status => (.error (.status (status.withPrefix internal)), set.2)
    | .ok _ => (.ok res, set.2)

/-- What fails in the calls of the store that one export may make. -/
structure ExportFaults where
  get : Option Status := none
  getOld : Option Status := none
  set : Option SetFault := none
  erase : Option Status := none
  setNew : Option SetFault := none

/-- The copy that is found at the deprecated location, where none could be read at the other. -/
def moved (faults : ExportFaults) (key : Key) (kv : KeyValue) : Option Bytes :=
  match kv.get (toFileName key) faults.get with
  | .ok _ => none
  | .error _ => (kv.get (toFileNameOld key) faults.getOld).toOption

/-- The copy of a key, with a copy at the deprecated location moved first. -/
def findEncryptedData (faults : ExportFaults) (key : Key) (kv : KeyValue) : Result Bytes × KeyValue :=
  match kv.get (toFileName key) faults.get with
  | .ok data => (.ok data, kv)
  | .error _ =>
    match kv.get (toFileNameOld key) faults.getOld with
    | .error status => (.error (.status (status.withPrefix keyUnknown)), kv)
    | .ok data =>
      let set := kv.set (toFileName key) data faults.set
      match set.1 with
      | .error status => (.error (.status (status.withPrefix internal)), set.2)
      | .ok _ => (.ok data, (set.2.erase (toFileNameOld key) faults.erase).2)

/-- The new encryption of a key that was opened with the deprecated one. -/
def encryptAgain (random : Nat → UInt8) (encryptedKey : EncryptedKey) (decryptedKey : DecryptedKey) (localPassword : Bytes) :
    Result EncryptedKey := do
  let newEncryptedKey ← decryptedKey.encrypt random localPassword encryptedKey.secret
  check (newEncryptedKey.publicKey = encryptedKey.publicKey)
    "new_encrypted_key.public_key.as_octet_string() == encrypted_key.public_key.as_octet_string()"
  check (newEncryptedKey.secret = encryptedKey.secret) "new_encrypted_key.secret == encrypted_key.secret"
  let opened ← moveAsOk (newEncryptedKey.decrypt localPassword true false)
  check (opened.privateKey = decryptedKey.privateKey)
    "new_encrypted_key.decrypt(...).ok().private_key.as_octet_string() == decrypted_key.private_key.as_octet_string()"
  pure newEncryptedKey

/-- The key whose copy is found. -/
def InputKey.encrypted (input : InputKey) (data : Bytes) : EncryptedKey := ⟨data, input.key.publicKey, input.key.secret⟩

/-- A copy opened, by the deprecated decryption if that accepts it. -/
def openKey (random : Nat → UInt8) (fault : Option SetFault) (input : InputKey) (data : Bytes) (kv : KeyValue) :
    Result DecryptedKey × KeyValue :=
  let encryptedKey := input.encrypted data
  match encryptedKey.decrypt input.localPassword true true with
  | .ok decryptedKey =>
    match encryptAgain random encryptedKey decryptedKey input.localPassword with
    | .error f => (.error f, kv)
    | .ok newEncryptedKey =>
      (.ok decryptedKey, (kv.set (toFileName input.key) newEncryptedKey.encryptedData fault).2)
  | .error (.status _) => (tryPrefix keyDecrypt (encryptedKey.decrypt input.localPassword true false), kv)
  | .error f => (.error f, kv)

/-- `export_decrypted_key`. -/
def exportDecryptedKey (random : Nat → UInt8) (faults : ExportFaults) (input : InputKey) (kv : KeyValue) :
    Result DecryptedKey × KeyValue :=
  let found := findEncryptedData faults input.key kv
  match found.1 with
  | .error f => (.error f, found.2)
  | .ok data => openKey random faults.setNew input data found.2

/-- `change_local_password`. -/
def changeLocalPassword (random : Nat → UInt8) (faults : ExportFaults) (input : InputKey) (saveRandom : Nat → UInt8)
    (saveFault : Option SetFault) (newLocalPassword : Bytes) (kv : KeyValue) : Result Key × KeyValue :=
  let exported := exportDecryptedKey random faults input kv
  match exported.1 with
  | .error f => (.error f, exported.2)
  | .ok decryptedKey => saveKey saveRandom saveFault decryptedKey newLocalPassword exported.2

/-- `delete_key`. -/
def deleteKey (fault : Option Status) (key : Key) (kv : KeyValue) : Except Status Unit × KeyValue :=
  kv.erase (toFileName key) fault

end

/-- The loop of `delete_all_keys`: every name is erased, and the first error is kept. -/
def eraseAll (faults : String → Option Status) (keys : List String) (kv : KeyValue) : Except Status Unit × KeyValue :=
  keys.foldl (fun r key =>
    let err := r.2.erase key (faults key)
    (if r.1.isOk then err.1 else r.1, err.2)) (.ok (), kv)

/-- `delete_all_keys`. -/
def deleteAllKeys (reached : String → Bool) (faults : String → Option Status) (kv : KeyValue) :
    Except Status Unit × KeyValue :=
  eraseAll faults ((kv.foreachKey reached).filter fun key => (extension key).isEmpty) kv

/-- `LastBlockStorage::save_state`, with the bytes of the state. -/
def saveState (fault : Option SetFault) (name state : Bytes) (kv : KeyValue) : KeyValue :=
  (kv.set (getFileName name) state fault).2

/-! ## Names of files -/

theorem bufferToHex_ne_pathTmp (a : Bytes) (file : String) : bufferToHex a ≠ pathTmp file := by
  intro h
  have hdot : '.' ∈ (bufferToHex a).toList := by
    rw [h, pathTmp, String.toList_append]
    exact List.mem_append_right _ (by decide)
  exact (toList_bufferToHex a '.' hdot).1 rfl

theorem extension_bufferToHex (a : Bytes) : extension (bufferToHex a) = [] :=
  extension_eq_nil fun c hc => (toList_bufferToHex a c hc).1

/-- A file whose extension is that of block states is not written for a key. -/
theorem ne_of_extension {file : String} (h : extension file = "blkstate".toList) (a : Bytes) :
    file ≠ bufferToHex a ∧ file ≠ pathTmp (bufferToHex a) := by
  constructor
  · rintro rfl
    rw [extension_bufferToHex] at h
    cases h
  · rintro rfl
    have hplain : ∀ c ∈ "tmp".toList, c ≠ '.' ∧ isSlash c = false := plain_of_all (by decide)
    have htmp : pathTmp (bufferToHex a) = bufferToHex a ++ "." ++ "tmp" := by
      rw [pathTmp, String.append_assoc]
      rfl
    rw [htmp, extension_append hplain] at h
    split at h <;> exact absurd h (by decide)

/-- The file of a key after a call of `set` for a key. -/
theorem set_hex (kv : KeyValue) (a b value : Bytes) (fault : Option SetFault) :
    (kv.set (bufferToHex a) value fault).2.data (bufferToHex b) =
      if bufferToHex b = bufferToHex a ∧ fault = none then some value else kv.data (bufferToHex b) := by
  rw [KeyValue.set_data _ _ _ _ _ (by rw [toFile_bufferToHex]; exact bufferToHex_ne_pathTmp b _), toFile_bufferToHex]

theorem erase_hex (kv : KeyValue) (a b : Bytes) (fault : Option Status) :
    (kv.erase (bufferToHex a) fault).2.data (bufferToHex b) =
      if bufferToHex b = bufferToHex a ∧ fault = none then none else kv.data (bufferToHex b) := by
  rw [KeyValue.erase_data, toFile_bufferToHex]

/-! ## Keys that can be opened -/

/-- A key that was stored: what opens it, and what it is opened to. -/
structure StoredKey where
  input : InputKey
  decryptedKey : DecryptedKey

section

variable [KeyCrypto]

/-- A copy of the key: with the deprecated encryption, or with the current one, which the deprecated decryption refuses. -/
inductive Opens (data : Bytes) (k : StoredKey) : Prop
  | deprecated {raw : Bytes} (decrypted : (k.input.encrypted data).decrypt k.input.localPassword true true = .ok k.decryptedKey)
      (written : serialize k.decryptedKey = .ok raw) : Opens data k
  | current {status : Status}
      (refused : (k.input.encrypted data).decrypt k.input.localPassword true true = .error (.status status))
      (decrypted : (k.input.encrypted data).decrypt k.input.localPassword true false = .ok k.decryptedKey) : Opens data k

/-- The deprecated decryption refuses what was encrypted. -/
def Refused (e : EncryptedKey) (localPassword : Bytes) : Prop :=
  ∃ status, e.decrypt localPassword true true = .error (.status status)

/-- The copy of the key, at either location. -/
def stored (kv : KeyValue) (key : Key) : Option Bytes := (kv.data (toFileName key)).or (kv.data (toFileNameOld key))

/-- The store has a copy of the key where an export looks for it. -/
def Stored (kv : KeyValue) (k : StoredKey) : Prop := ∃ data, stored kv k.input.key = some data ∧ Opens data k

/-- An export, when the store does not fail, gives the key. -/
def Openable (kv : KeyValue) (k : StoredKey) : Prop :=
  ∀ random, (exportDecryptedKey random {} k.input kv).1 = .ok k.decryptedKey

/-- What an encryption anew that succeeds has checked. -/
theorem of_encryptAgain {random : Nat → UInt8} {e e' : EncryptedKey} {d : DecryptedKey} {localPassword : Bytes}
    (h : encryptAgain random e d localPassword = .ok e') : (∃ raw, serialize d = .ok raw) ∧
      d.encrypt random localPassword e.secret = .ok e' ∧ e'.publicKey = e.publicKey ∧ e'.secret = e.secret := by
  obtain ⟨new, hnew, h⟩ := bind_ok h
  obtain ⟨_, hpublic, h⟩ := bind_ok h
  obtain ⟨_, hsecret, h⟩ := bind_ok h
  obtain ⟨opened, -, h⟩ := bind_ok h
  obtain ⟨_, -, h⟩ := bind_ok h
  cases h
  rw [check_ok_iff] at hpublic hsecret
  exact ⟨(DecryptedKey.of_encrypt hnew).1, hnew, hpublic, hsecret⟩

/-- A copy that gave the key once is a copy of the key. -/
theorem opens_of_openKey {random : Nat → UInt8} {fault : Option SetFault} {input : InputKey} {data : Bytes} {kv : KeyValue}
    {d : DecryptedKey} (h : (openKey random fault input data kv).1 = .ok d) : Opens data ⟨input, d⟩ := by
  unfold openKey at h
  simp only at h
  cases hold : (input.encrypted data).decrypt input.localPassword true true with
  | ok d' =>
    rw [hold] at h
    simp only at h
    cases hagain : encryptAgain random (input.encrypted data) d' input.localPassword with
    | ok e =>
      rw [hagain] at h
      cases h
      obtain ⟨⟨raw, hraw⟩, -⟩ := of_encryptAgain hagain
      exact .deprecated hold hraw
    | error f =>
      rw [hagain] at h
      cases h
  | error f =>
    rw [hold] at h
    cases f with
    | status s => exact .current hold (tryPrefix_ok_iff.1 h)
    | _ => cases h

variable [LawfulKeyCrypto]

/-- The checks after an encryption anew never fail. -/
theorem encryptAgain_ok {e : EncryptedKey} {d : DecryptedKey} {localPassword raw : Bytes}
    (h : e.decrypt localPassword true true = .ok d) (hraw : serialize d = .ok raw) (random : Nat → UInt8) :
    ∃ e', encryptAgain random e d localPassword = .ok e' := by
  obtain ⟨hlength, hpublic⟩ := EncryptedKey.of_decrypt h
  obtain ⟨encrypted, secret, hencrypt, hsecret, hdecrypt⟩ :=
    DecryptedKey.encrypt_ok hraw hpublic random localPassword e.secret
  rw [if_pos hlength] at hsecret
  subst hsecret
  refine ⟨⟨encrypted, e.publicKey, e.secret⟩, ?_⟩
  rw [encryptAgain, hencrypt]
  simp only [bind, Except.bind, check, if_true, hdecrypt true, moveAsOk]
  rfl

/-- A copy of the key gives the key. -/
theorem openKey_of_opens {data : Bytes} {k : StoredKey} (h : Opens data k) (random : Nat → UInt8) (fault : Option SetFault)
    (kv : KeyValue) : (openKey random fault k.input data kv).1 = .ok k.decryptedKey := by
  unfold openKey
  cases h with
  | deprecated hold hraw =>
    obtain ⟨e, hagain⟩ := encryptAgain_ok hold hraw random
    simp only [hold, hagain]
  | current hrefused hnew =>
    simp only [hrefused]
    exact tryPrefix_ok_iff.2 hnew

/-! ## One export -/

omit [LawfulKeyCrypto] in
/-- How the copy is found: where it belongs; at the deprecated location, from where it is moved or not; or nowhere. -/
theorem find_cases (faults : ExportFaults) (key : Key) (kv : KeyValue) :
    (∃ data, kv.data (toFileName key) = some data ∧ moved faults key kv = none ∧
      findEncryptedData faults key kv = (.ok data, kv)) ∨
    (∃ data, kv.data (toFileNameOld key) = some data ∧ moved faults key kv = some data ∧ faults.set = none ∧
      findEncryptedData faults key kv =
        (.ok data, ((kv.set (toFileName key) data none).2.erase (toFileNameOld key) faults.erase).2)) ∨
    (∃ data f fault, findEncryptedData faults key kv =
      (.error f, (kv.set (toFileName key) data (some fault)).2)) ∨
    ∃ f, findEncryptedData faults key kv = (.error f, kv) := by
  unfold findEncryptedData moved
  cases hget : kv.get (toFileName key) faults.get with
  | ok data =>
    obtain ⟨-, hdata⟩ := KeyValue.get_eq_ok.1 hget
    rw [toFileName, toFile_bufferToHex] at hdata
    exact .inl ⟨data, hdata, rfl, rfl⟩
  | error status =>
    cases hold : kv.get (toFileNameOld key) faults.getOld with
    | error status => exact .inr (.inr (.inr ⟨_, rfl⟩))
    | ok data =>
      obtain ⟨-, hdata⟩ := KeyValue.get_eq_ok.1 hold
      rw [toFileNameOld, toFile_bufferToHex] at hdata
      rcases hset : faults.set with _ | fault
      · exact .inr (.inl ⟨data, hdata, rfl, rfl, rfl⟩)
      · right; right; left
        rcases fault with ⟨status, written⟩ | status <;> exact ⟨data, _, _, rfl⟩

/-- What an export may do to the key `k` without harm: the two kinds of names do not meet, a copy is moved to the name of
`k` exactly if it is one of `k`, and the deprecated decryption accepts a copy of `k` only for `k`, and no new one. -/
structure ExportHarmless (k : StoredKey) (random : Nat → UInt8) (faults : ExportFaults) (input : InputKey) (kv : KeyValue) :
    Prop where
  apart : toFileName input.key ≠ toFileNameOld k.input.key ∧ toFileNameOld input.key ≠ toFileName k.input.key
  moved : ∀ data, moved faults input.key kv = some data →
    (toFileName input.key = toFileName k.input.key → Opens data k) ∧
    (toFileName input.key ≠ toFileName k.input.key → toFileNameOld input.key = toFileNameOld k.input.key →
      kv.data (toFileName k.input.key) ≠ none)
  own : ∀ data d, Opens data k → toFileName input.key = toFileName k.input.key →
    (findEncryptedData faults input.key kv).1 = .ok data →
    (input.encrypted data).decrypt input.localPassword true true = .ok d → input = k.input
  refused : ∀ data e, input = k.input → (findEncryptedData faults input.key kv).1 = .ok data →
    (input.encrypted data).decrypt input.localPassword true true = .ok k.decryptedKey →
    encryptAgain random (input.encrypted data) k.decryptedKey input.localPassword = .ok e → Refused e input.localPassword

omit [LawfulKeyCrypto] in
/-- Only the two files of a key matter. -/
theorem Stored.congr {kv kv' : KeyValue} {k : StoredKey} (h : Stored kv k)
    (hnew : kv'.data (toFileName k.input.key) = kv.data (toFileName k.input.key))
    (hold : kv'.data (toFileNameOld k.input.key) = kv.data (toFileNameOld k.input.key)) : Stored kv' k := by
  obtain ⟨data, hdata, hopens⟩ := h
  refine ⟨data, ?_, hopens⟩
  rw [stored, hnew, hold]
  exact hdata

omit [LawfulKeyCrypto] in
theorem Stored.of_new {kv : KeyValue} {k : StoredKey} {data : Bytes} (h : kv.data (toFileName k.input.key) = some data)
    (hopens : Opens data k) : Stored kv k :=
  ⟨data, by rw [stored, h]; rfl, hopens⟩

/-- A key is openable exactly if there is a copy of it. -/
theorem openable_iff {kv : KeyValue} {k : StoredKey} : Openable kv k ↔ Stored kv k := by
  constructor
  · intro h
    have hexport := h fun _ => 0
    unfold exportDecryptedKey at hexport
    rcases find_cases {} k.input.key kv with ⟨data, hdata, -, hfind⟩ | ⟨data, hdata, hmoved, -, hfind⟩ |
        ⟨data, f, fault, hfind⟩ | ⟨f, hfind⟩
    · rw [hfind] at hexport
      exact .of_new hdata (opens_of_openKey hexport)
    · rw [hfind] at hexport
      have hnone : kv.data (toFileName k.input.key) = none := by
        by_contra hsome
        obtain ⟨data', hdata'⟩ := Option.ne_none_iff_exists'.1 hsome
        have hget : kv.get (toFileName k.input.key) none = .ok data' := by
          rw [KeyValue.get_eq_ok, toFileName, toFile_bufferToHex]
          exact ⟨rfl, hdata'⟩
        simp only [moved, hget] at hmoved
        cases hmoved
      refine ⟨data, ?_, opens_of_openKey hexport⟩
      rw [stored, hnone]
      exact hdata
    · rw [hfind] at hexport
      cases hexport
    · rw [hfind] at hexport
      cases hexport
  · rintro ⟨data, hdata, hopens⟩ random
    have hfind : (findEncryptedData {} k.input.key kv).1 = .ok data := by
      unfold findEncryptedData KeyValue.get
      rw [stored] at hdata
      simp only [toFileName, toFileNameOld, toFile_bufferToHex] at hdata ⊢
      cases hnew : kv.data (bufferToHex ((sha512 k.input.key.secret).take 32)) with
      | some data' =>
        rw [hnew] at hdata
        cases hdata
        rfl
      | none =>
        rw [hnew, Option.none_or] at hdata
        rw [hdata]
        rfl
    unfold exportDecryptedKey
    simp only [hfind]
    exact openKey_of_opens hopens random none _

omit [LawfulKeyCrypto] in
/-- What opening a copy does to the store: nothing, or the copy is written anew. -/
theorem openKey_state (random : Nat → UInt8) (fault : Option SetFault) (input : InputKey) (data : Bytes) (kv : KeyValue) :
    (openKey random fault input data kv).2 = kv ∨
    ∃ d e, (input.encrypted data).decrypt input.localPassword true true = .ok d ∧
      encryptAgain random (input.encrypted data) d input.localPassword = .ok e ∧
      (openKey random fault input data kv).2 = (kv.set (toFileName input.key) e.encryptedData fault).2 := by
  unfold openKey
  cases hold : (input.encrypted data).decrypt input.localPassword true true with
  | error f =>
    simp only [hold]
    cases f <;> exact .inl rfl
  | ok d =>
    simp only [hold]
    cases hagain : encryptAgain random (input.encrypted data) d input.localPassword with
    | error f => exact .inl rfl
    | ok e => exact .inr ⟨d, e, rfl, hagain, rfl⟩

/-- Opening a copy under a name leaves the key: the copy is another key's, or the key is encrypted anew. -/
theorem Stored.after_openKey {kv : KeyValue} {k : StoredKey} (h : Stored kv k) {random : Nat → UInt8} {fault : Option SetFault}
    {input : InputKey} {data : Bytes} (hapart : toFileName input.key ≠ toFileNameOld k.input.key)
    (hname : toFileName input.key = toFileName k.input.key → kv.data (toFileName k.input.key) = some data ∧ Opens data k)
    (hown : ∀ d, Opens data k → toFileName input.key = toFileName k.input.key →
      (input.encrypted data).decrypt input.localPassword true true = .ok d → input = k.input)
    (hrefused : ∀ e, input = k.input → (input.encrypted data).decrypt input.localPassword true true = .ok k.decryptedKey →
      encryptAgain random (input.encrypted data) k.decryptedKey input.localPassword = .ok e → Refused e input.localPassword) :
    Stored (openKey random fault input data kv).2 k := by
  rcases openKey_state random fault input data kv with hkv | ⟨d, e, hold, hagain, hkv⟩
  · rw [hkv]
    exact h
  · rw [hkv]
    by_cases hsame : toFileName input.key = toFileName k.input.key
    · -- the name is that of the key, so the copy is the key's own
      obtain ⟨hdata, hopens⟩ := hname hsame
      have hinput := hown d hopens hsame hold
      subst hinput
      cases hopens with
      | current hrefuse hnew =>
        rw [hrefuse] at hold
        cases hold
      | deprecated hdecrypt hraw =>
        cases hdecrypt.symm.trans hold
        obtain ⟨status, hstatus⟩ := hrefused e rfl hdecrypt hagain
        obtain ⟨-, hencrypt, hpublic, hsecret⟩ := of_encryptAgain hagain
        have he : e = k.input.encrypted e.encryptedData := by
          obtain ⟨encrypted, publicKey, secret⟩ := e
          cases hpublic
          cases hsecret
          rfl
        have hnew := (DecryptedKey.decrypt_of_encrypt hencrypt).1
        rw [he] at hnew hstatus
        rcases fault with _ | fault
        · refine .of_new ?_ (.current hstatus hnew)
          rw [toFileName, set_hex, if_pos ⟨rfl, rfl⟩]
        · refine .of_new ?_ (.deprecated hdecrypt hraw)
          rw [toFileName, set_hex, if_neg (fun h => by cases h.2)]
          exact hdata
    · refine h.congr ?_ ?_
      · rw [toFileName, toFileName, set_hex, if_neg (fun h => hsame h.1.symm)]
      · rw [toFileName, toFileNameOld, set_hex, if_neg (fun h => hapart h.1.symm)]

/-- A harmless export leaves the key, whatever fails in it. -/
theorem Stored.after_export {kv : KeyValue} {k : StoredKey} (h : Stored kv k) {random : Nat → UInt8}
    {faults : ExportFaults} {input : InputKey} (hharmless : ExportHarmless k random faults input kv) :
    Stored (exportDecryptedKey random faults input kv).2 k := by
  obtain ⟨⟨hapart, hapart'⟩, hmoved, hown, hrefused⟩ := hharmless
  unfold exportDecryptedKey
  rcases find_cases faults input.key kv with ⟨data, hdata, -, hfind⟩ | ⟨data, hdata, hmove, -, hfind⟩ |
      ⟨data, f, fault, hfind⟩ | ⟨f, hfind⟩
  · rw [hfind] at hown hrefused ⊢
    refine h.after_openKey hapart ?_ (fun d ho hn hd => hown data d ho hn rfl hd) fun e hi => hrefused data e hi rfl
    intro hsame
    obtain ⟨data', hstored, hopens⟩ := h
    rw [hsame] at hdata
    rw [stored, hdata, Option.some_or] at hstored
    cases hstored
    exact ⟨hdata, hopens⟩
  · rw [hfind] at hown hrefused ⊢
    obtain ⟨hsameName, hotherName⟩ := hmoved data hmove
    have hnew : toFileName input.key = toFileName k.input.key →
        ((kv.set (toFileName input.key) data none).2.erase (toFileNameOld input.key) faults.erase).2.data
          (toFileName k.input.key) = some data := by
      intro hsame
      rw [toFileNameOld, toFileName, toFileName, erase_hex, if_neg (fun h => hapart' h.1.symm), set_hex,
        if_pos ⟨hsame.symm, rfl⟩]
    have hother : toFileName input.key ≠ toFileName k.input.key →
        ((kv.set (toFileName input.key) data none).2.erase (toFileNameOld input.key) faults.erase).2.data
          (toFileName k.input.key) = kv.data (toFileName k.input.key) := by
      intro hne
      rw [toFileNameOld, toFileName, toFileName, erase_hex, if_neg (fun h => hapart' h.1.symm), set_hex,
        if_neg (fun h => hne h.1.symm)]
    have hkept : Stored ((kv.set (toFileName input.key) data none).2.erase (toFileNameOld input.key) faults.erase).2 k := by
      by_cases hsame : toFileName input.key = toFileName k.input.key
      · exact .of_new (hnew hsame) (hsameName hsame)
      · by_cases hold : toFileNameOld input.key = toFileNameOld k.input.key
        · obtain ⟨data', hstored, hopens⟩ := h
          obtain ⟨data'', hdata''⟩ := Option.ne_none_iff_exists'.1 (hotherName hsame hold)
          rw [stored, hdata'', Option.some_or] at hstored
          cases hstored
          exact .of_new ((hother hsame).trans hdata'') hopens
        · refine h.congr (hother hsame) ?_
          rw [toFileNameOld, toFileNameOld, erase_hex, if_neg (fun h => hold h.1.symm), toFileName, set_hex,
            if_neg (fun h => hapart h.1.symm)]
    refine hkept.after_openKey hapart (fun hsame => ⟨hnew hsame, hsameName hsame⟩)
      (fun d ho hn hd => hown data d ho hn rfl hd) fun e hi => hrefused data e hi rfl
  · rw [hfind]
    refine h.congr ?_ ?_
    · rw [toFileName, toFileName, set_hex, if_neg (fun h => by cases h.2)]
    · rw [toFileName, toFileNameOld, set_hex, if_neg (fun h => by cases h.2)]
  · rw [hfind]
    exact h

/-- What an export of the key gives, if it gives one, is the key. -/
theorem Stored.eq_of_export {kv : KeyValue} {k : StoredKey} (h : Stored kv k) {random : Nat → UInt8} {faults : ExportFaults}
    (hmoved : ∀ data, moved faults k.input.key kv = some data → Opens data k) {d : DecryptedKey}
    (hd : (exportDecryptedKey random faults k.input kv).1 = .ok d) : d = k.decryptedKey := by
  unfold exportDecryptedKey at hd
  have hopened {data : Bytes} {kv' : KeyValue} (ho : Opens data k)
      (hd : (openKey random faults.setNew k.input data kv').1 = .ok d) : d = k.decryptedKey := by
    rw [openKey_of_opens ho] at hd
    cases hd
    rfl
  rcases find_cases faults k.input.key kv with ⟨data, hdata, -, hfind⟩ | ⟨data, hdata, hmove, -, hfind⟩ |
      ⟨data, f, fault, hfind⟩ | ⟨f, hfind⟩
  · rw [hfind] at hd
    obtain ⟨data', hstored, hopens⟩ := h
    rw [stored, hdata, Option.some_or] at hstored
    cases hstored
    exact hopened hopens hd
  · rw [hfind] at hd
    exact hopened (hmoved data hmove) hd
  · rw [hfind] at hd
    cases hd
  · rw [hfind] at hd
    cases hd

/-- A key that was exported is there, whatever failed in the export. -/
theorem stored_of_export {random : Nat → UInt8} {faults : ExportFaults} {input : InputKey} {kv : KeyValue}
    {d : DecryptedKey} (hapart : toFileName input.key ≠ toFileNameOld input.key)
    (hrefused : ∀ data e, (findEncryptedData faults input.key kv).1 = .ok data →
      (input.encrypted data).decrypt input.localPassword true true = .ok d →
      encryptAgain random (input.encrypted data) d input.localPassword = .ok e → Refused e input.localPassword)
    (hd : (exportDecryptedKey random faults input kv).1 = .ok d) :
    Stored (exportDecryptedKey random faults input kv).2 ⟨input, d⟩ := by
  unfold exportDecryptedKey at hd ⊢
  rcases find_cases faults input.key kv with ⟨data, hdata, -, hfind⟩ | ⟨data, hdata, hmove, -, hfind⟩ |
      ⟨data, f, fault, hfind⟩ | ⟨f, hfind⟩
  · rw [hfind] at hd hrefused ⊢
    dsimp only at hd ⊢
    have hopens := opens_of_openKey hd
    have hstored : Stored kv ⟨input, d⟩ := .of_new hdata hopens
    exact hstored.after_openKey hapart (fun _ => ⟨hdata, hopens⟩) (fun _ _ _ _ => rfl)
      fun e _ => hrefused data e rfl
  · rw [hfind] at hd hrefused ⊢
    dsimp only at hd ⊢
    have hopens := opens_of_openKey hd
    have hnew : ((kv.set (toFileName input.key) data none).2.erase (toFileNameOld input.key) faults.erase).2.data
        (toFileName input.key) = some data := by
      rw [toFileNameOld, toFileName, erase_hex, if_neg (fun h => hapart h.1), set_hex, if_pos ⟨rfl, rfl⟩]
    have hstored : Stored ((kv.set (toFileName input.key) data none).2.erase (toFileNameOld input.key) faults.erase).2
        ⟨input, d⟩ := .of_new hnew hopens
    exact hstored.after_openKey hapart (fun _ => ⟨hnew, hopens⟩) (fun _ _ _ _ => rfl)
      fun e _ => hrefused data e rfl
  · rw [hfind] at hd
    cases hd
  · rw [hfind] at hd
    cases hd

/-! ## The other operations -/

omit [LawfulKeyCrypto] in
/-- The name of a new key is that of its random secret. -/
def nameOfRandom (random : Nat → UInt8) : String := toFileName ⟨[], (List.range 32).map random⟩

omit [LawfulKeyCrypto] in
/-- A key that is encrypted is saved, unless its file cannot be written. -/
theorem saveKey_of_encrypt {random : Nat → UInt8} {d : DecryptedKey} {localPassword : Bytes} {e : EncryptedKey}
    (h : d.encrypt random localPassword [] = .ok e) (kv : KeyValue) :
    (saveKey random none d localPassword kv).1 = .ok ⟨e.publicKey, e.secret⟩ := by
  have hset : (kv.set (toFileName ⟨e.publicKey, e.secret⟩) e.encryptedData none).1 = .ok () := KeyValue.set_eq_ok.2 rfl
  unfold saveKey
  simp only [h, hset]

/-- What saving does: nothing; or a call of `set` for the new name, with what the password opens. -/
theorem saveKey_cases (random : Nat → UInt8) (fault : Option SetFault) (d : DecryptedKey) (localPassword : Bytes)
    (kv : KeyValue) :
    (∃ f, saveKey random fault d localPassword kv = (.error f, kv)) ∨
    ∃ e, d.encrypt random localPassword [] = .ok e ∧ e.decrypt localPassword true false = .ok d ∧
      toFileName ⟨e.publicKey, e.secret⟩ = nameOfRandom random ∧
      (saveKey random fault d localPassword kv).2 = (kv.set (nameOfRandom random) e.encryptedData fault).2 ∧
      ∀ key, (saveKey random fault d localPassword kv).1 = .ok key → key = ⟨e.publicKey, e.secret⟩ ∧ fault = none := by
  unfold saveKey
  cases hencrypt : d.encrypt random localPassword [] with
  | error f => exact .inl ⟨f, rfl⟩
  | ok e =>
    obtain ⟨hdecrypt, hsecret⟩ := DecryptedKey.decrypt_of_encrypt hencrypt
    rw [if_neg (by decide)] at hsecret
    have hname : toFileName ⟨e.publicKey, e.secret⟩ = nameOfRandom random := by
      rw [nameOfRandom, toFileName, hsecret]
      rfl
    refine .inr ⟨e, rfl, hdecrypt, hname, ?_, ?_⟩
    · rw [← hname]
      simp only
      split <;> rfl
    · intro key hkey
      simp only at hkey
      split at hkey
      · cases hkey
      · next hset =>
        cases hkey
        exact ⟨rfl, KeyValue.set_eq_ok.1 hset⟩

/-- A key saved under another name leaves the key. -/
theorem Stored.after_saveKey {kv : KeyValue} {k : StoredKey} (h : Stored kv k) {random : Nat → UInt8}
    (hnew : nameOfRandom random ≠ toFileName k.input.key) (hold : nameOfRandom random ≠ toFileNameOld k.input.key)
    (fault : Option SetFault) (d : DecryptedKey) (localPassword : Bytes) :
    Stored (saveKey random fault d localPassword kv).2 k := by
  rcases saveKey_cases random fault d localPassword kv with ⟨f, hsave⟩ | ⟨e, -, -, -, hsave, -⟩
  · rw [hsave]
    exact h
  · rw [hsave]
    refine h.congr ?_ ?_
    · rw [nameOfRandom, toFileName, toFileName, set_hex, if_neg (fun h => hnew h.1.symm)]
    · rw [nameOfRandom, toFileName, toFileNameOld, set_hex, if_neg (fun h => hold h.1.symm)]

/-- A key that was saved is there. -/
theorem stored_of_saveKey {random : Nat → UInt8} {fault : Option SetFault} {d : DecryptedKey} {localPassword : Bytes}
    {kv : KeyValue} {key : Key} (hrefused : ∀ e, d.encrypt random localPassword [] = .ok e → Refused e localPassword)
    (h : (saveKey random fault d localPassword kv).1 = .ok key) :
    Stored (saveKey random fault d localPassword kv).2 ⟨⟨key, localPassword⟩, d⟩ := by
  rcases saveKey_cases random fault d localPassword kv with ⟨f, hsave⟩ | ⟨e, hencrypt, hdecrypt, hname, hsave, hkey⟩
  · rw [hsave] at h
    cases h
  · obtain ⟨rfl, hfault⟩ := hkey key h
    obtain ⟨status, hstatus⟩ := hrefused e hencrypt
    rw [hsave]
    refine .of_new ?_ (.current hstatus hdecrypt)
    simp only [hname]
    rw [nameOfRandom, toFileName, set_hex, if_pos ⟨rfl, hfault⟩]

end

/-! ## Deletion -/

theorem eraseAll_snoc (faults : String → Option Status) (keys : List String) (key : String) (kv : KeyValue) :
    eraseAll faults (keys ++ [key]) kv =
      (if (eraseAll faults keys kv).1.isOk then ((eraseAll faults keys kv).2.erase key (faults key)).1
        else (eraseAll faults keys kv).1, ((eraseAll faults keys kv).2.erase key (faults key)).2) := by
  rw [eraseAll, List.foldl_append]
  rfl

/-- The files that are left: those that no key leads to without a fault. -/
theorem eraseAll_data (faults : String → Option Status) (keys : List String) (kv : KeyValue) (file : String) :
    (eraseAll faults keys kv).2.data file =
      if ∃ key ∈ keys, toFile key = file ∧ faults key = none then none else kv.data file := by
  induction keys using List.reverseRecOn with
  | nil => simp [eraseAll]
  | append_singleton keys key ih =>
    rw [eraseAll_snoc, KeyValue.erase_data, ih]
    by_cases hlast : file = toFile key ∧ faults key = none
    · rw [if_pos hlast, if_pos ⟨key, by simp, hlast.1.symm, hlast.2⟩]
    · rw [if_neg hlast]
      by_cases hbefore : ∃ key ∈ keys, toFile key = file ∧ faults key = none
      · obtain ⟨key', hmem, hkey'⟩ := hbefore
        rw [if_pos ⟨key', hmem, hkey'⟩, if_pos ⟨key', by simp [hmem], hkey'⟩]
      · rw [if_neg hbefore, if_neg]
        rintro ⟨key', hmem, hfile, hfault⟩
        rcases List.mem_append.1 hmem with hmem | hmem
        · exact hbefore ⟨key', hmem, hfile, hfault⟩
        · cases List.mem_singleton.1 hmem
          exact hlast ⟨hfile.symm, hfault⟩

/-- No call failed where the first error is none. -/
theorem faults_of_eraseAll {faults : String → Option Status} {keys : List String} {kv : KeyValue}
    (h : (eraseAll faults keys kv).1 = .ok ()) : ∀ key ∈ keys, faults key = none := by
  induction keys using List.reverseRecOn with
  | nil => simp
  | append_singleton keys key ih =>
    rw [eraseAll_snoc] at h
    cases hbefore : (eraseAll faults keys kv).1 with
    | error status =>
      rw [hbefore] at h
      cases h
    | ok u =>
      rw [hbefore] at h
      intro key' hmem
      rcases List.mem_append.1 hmem with hmem | hmem
      · exact ih hbefore key' hmem
      · cases List.mem_singleton.1 hmem
        exact (KeyValue.erase_eq_ok.1 h).1

/-- After a deletion that reached every file and reports no error, no file without an extension is left. -/
theorem deleteAllKeys_data {reached : String → Bool} {faults : String → Option Status} {kv : KeyValue}
    (h : (deleteAllKeys reached faults kv).1 = .ok ()) (hreached : ∀ file, kv.data file ≠ none → reached file)
    {file : String} (hfile : toFile file = file) (hext : extension file = []) :
    (deleteAllKeys reached faults kv).2.data file = none := by
  rw [deleteAllKeys, eraseAll_data]
  by_cases hdata : kv.data file = none
  · rw [hdata, ite_self]
  · rw [if_pos]
    have hmem : "/" ++ file ∈ (kv.foreachKey reached).filter fun key => (extension key).isEmpty := by
      rw [List.mem_filter, KeyValue.foreachKey, List.mem_map]
      refine ⟨⟨file, ?_, rfl⟩, ?_⟩
      · rw [List.mem_filter, List.mem_dedup, List.mem_map]
        refine ⟨?_, hreached file hdata⟩
        by_contra hnone
        exact hdata (Entries.get_eq_none fun e he hk => hnone ⟨e, he, hk⟩)
      · rw [← extension_toFile, toFile_slash, hfile, hext]
        rfl
    exact ⟨"/" ++ file, hmem, by rw [toFile_slash, hfile], faults_of_eraseAll h _ hmem⟩

/-- A deletion leaves the files that have an extension. -/
theorem deleteAllKeys_of_extension (reached : String → Bool) (faults : String → Option Status) (kv : KeyValue)
    {file : String} (hext : extension file ≠ []) : (deleteAllKeys reached faults kv).2.data file = kv.data file := by
  rw [deleteAllKeys, eraseAll_data, if_neg]
  rintro ⟨key, hmem, rfl, -⟩
  rw [extension_toFile] at hext
  exact hext (List.isEmpty_iff.1 (List.mem_filter.1 hmem).2)

/-- Neither a key nor its new copy is in the file of a block state. -/
theorem saveState_data (fault : Option SetFault) (name state : Bytes) (kv : KeyValue) (a : Bytes) :
    (saveState fault name state kv).data (bufferToHex a) = kv.data (bufferToHex a) := by
  have hdot : '.' ∈ (toFile (getFileName name)).toList := by
    have hmem : '.' ∈ (getFileName name).toList := by
      rw [getFileName, String.toList_append]
      exact List.mem_append_right _ (by decide)
    rw [← List.takeWhile_append_dropWhile (p := (· == '/')) (l := (getFileName name).toList), List.mem_append] at hmem
    rw [toFile, String.toList_ofList]
    rcases hmem with hslash | hrest
    · cases List.mem_takeWhile_imp hslash
    · exact hrest
  rw [saveState, KeyValue.set_data _ _ _ _ _ (bufferToHex_ne_pathTmp a _), if_neg]
  rintro ⟨hfile, -⟩
  rw [← hfile] at hdot
  exact (toList_bufferToHex a '.' hdot).1 rfl

/-! ## Runs -/

/-- A call of `KeyStorage`, with what is random and what fails in it, or of `LastBlockStorage::save_state`. Creating and
importing a key end in `save_key`; `export_key`, `load_private_key` and their like start with `export_decrypted_key`. -/
inductive Event
  | saveKey (random : Nat → UInt8) (fault : Option SetFault) (decryptedKey : DecryptedKey) (localPassword : Bytes)
  | exportKey (random : Nat → UInt8) (faults : ExportFaults) (input : InputKey)
  | changeLocalPassword (random : Nat → UInt8) (faults : ExportFaults) (input : InputKey) (saveRandom : Nat → UInt8)
      (saveFault : Option SetFault) (newLocalPassword : Bytes)
  | deleteKey (fault : Option Status) (key : Key)
  | deleteAllKeys (reached : String → Bool) (faults : String → Option Status)
  | saveState (fault : Option SetFault) (name state : Bytes)

/-- The events that are calls of `KeyStorage`. -/
def Event.isKeyOperation : Event → Bool
  | .saveState _ _ _ => false
  | _ => true

section

variable [KeyCrypto]

/-- The store after a call. -/
def step (kv : KeyValue) : Event → KeyValue
  | .saveKey random fault decryptedKey localPassword => (saveKey random fault decryptedKey localPassword kv).2
  | .exportKey random faults input => (exportDecryptedKey random faults input kv).2
  | .changeLocalPassword random faults input saveRandom saveFault newLocalPassword =>
    (changeLocalPassword random faults input saveRandom saveFault newLocalPassword kv).2
  | .deleteKey fault key => (deleteKey fault key kv).2
  | .deleteAllKeys reached faults => (deleteAllKeys reached faults kv).2
  | .saveState fault name state => saveState fault name state kv

/-- A new name that is not one of the key. -/
def Fresh (k : StoredKey) (random : Nat → UInt8) : Prop :=
  nameOfRandom random ≠ toFileName k.input.key ∧ nameOfRandom random ≠ toFileNameOld k.input.key

/-- The calls that leave a key: those that do not delete it, and in which no two names and no two encryptions meet. -/
def Harmless (k : StoredKey) (kv : KeyValue) : Event → Prop
  | .saveKey random _ _ _ => Fresh k random
  | .exportKey random faults input => ExportHarmless k random faults input kv
  | .changeLocalPassword random faults input saveRandom _ _ => ExportHarmless k random faults input kv ∧ Fresh k saveRandom
  | .deleteKey fault key => toFileName key ≠ toFileNameOld k.input.key ∧
    (toFileName key = toFileName k.input.key → (deleteKey fault key kv).1 ≠ .ok ())
  | .deleteAllKeys reached faults => ∀ key ∈ kv.foreachKey reached,
    toFile key = toFileName k.input.key ∨ toFile key = toFileNameOld k.input.key → faults key ≠ none
  | .saveState _ _ _ => True

/-- A step that leaves a key. -/
def Step (k : StoredKey) (kv : KeyValue) (e : Event) (kv' : KeyValue) : Prop := Harmless k kv e ∧ step kv e = kv'

/-- The step lemma: a harmless call leaves the key. -/
theorem Stored.step [LawfulKeyCrypto] {k : StoredKey} {kv kv' : KeyValue} {e : Event} (h : Stored kv k)
    (hs : Step k kv e kv') : Stored kv' k := by
  obtain ⟨hharmless, rfl⟩ := hs
  cases e with
  | saveKey random fault d localPassword => exact h.after_saveKey hharmless.1 hharmless.2 fault d localPassword
  | exportKey random faults input => exact h.after_export hharmless
  | changeLocalPassword random faults input saveRandom saveFault newLocalPassword =>
    obtain ⟨hexport, hfresh⟩ := hharmless
    have hexported := h.after_export hexport
    simp only [KeyStorage.step, changeLocalPassword]
    split
    · exact hexported
    · exact hexported.after_saveKey hfresh.1 hfresh.2 _ _ _
  | deleteKey fault key =>
    obtain ⟨hapart, hother⟩ := hharmless
    refine h.congr ?_ ?_
    · rw [KeyStorage.step, KeyStorage.deleteKey, toFileName, toFileName, erase_hex]
      split
      · next hsame =>
        -- the file is the key's own, and was not erased, so it is not there
        have hnot := hother hsame.1.symm
        rw [KeyStorage.deleteKey, Ne, KeyValue.erase_eq_ok, toFileName, toFile_bufferToHex, ← hsame.1, not_and,
          not_not] at hnot
        rw [hnot hsame.2]
      · rfl
    · rw [KeyStorage.step, KeyStorage.deleteKey, toFileName, toFileNameOld, erase_hex, if_neg (fun h => hapart h.1.symm)]
  | deleteAllKeys reached faults =>
    simp only [KeyStorage.step]
    have hkept {file : String} (hfile : ∀ key ∈ kv.foreachKey reached, toFile key = file → faults key ≠ none) :
        (KeyStorage.deleteAllKeys reached faults kv).2.data file = kv.data file := by
      rw [KeyStorage.deleteAllKeys, eraseAll_data, if_neg]
      rintro ⟨key, hmem, hname, hfault⟩
      exact hfile key (List.mem_filter.1 hmem).1 hname hfault
    exact h.congr (hkept fun key hmem hfile => hharmless key hmem (.inl hfile))
      (hkept fun key hmem hfile => hharmless key hmem (.inr hfile))
  | saveState fault name state => exact h.congr (saveState_data fault name state kv _) (saveState_data fault name state kv _)

/-! ## Block states -/

section

variable {file : String} (h : extension file = "blkstate".toList)
include h

omit [KeyCrypto] in
theorem set_of_extension (kv : KeyValue) (a value : Bytes) (fault : Option SetFault) :
    (kv.set (bufferToHex a) value fault).2.data file = kv.data file := by
  obtain ⟨hname, htmp⟩ := ne_of_extension h a
  rw [KeyValue.set_data _ _ _ _ _ (by rwa [toFile_bufferToHex]), toFile_bufferToHex, if_neg (fun h => hname h.1)]

omit [KeyCrypto] in
theorem erase_of_extension (kv : KeyValue) (a : Bytes) (fault : Option Status) :
    (kv.erase (bufferToHex a) fault).2.data file = kv.data file := by
  rw [KeyValue.erase_data, toFile_bufferToHex, if_neg (fun hsame => (ne_of_extension h a).1 hsame.1)]

theorem openKey_of_extension (random : Nat → UInt8) (fault : Option SetFault) (input : InputKey) (data : Bytes)
    (kv : KeyValue) : (openKey random fault input data kv).2.data file = kv.data file := by
  rcases openKey_state random fault input data kv with hkv | ⟨d, e, -, -, hkv⟩
  · rw [hkv]
  · rw [hkv, toFileName, set_of_extension h]

theorem export_of_extension (random : Nat → UInt8) (faults : ExportFaults) (input : InputKey) (kv : KeyValue) :
    (exportDecryptedKey random faults input kv).2.data file = kv.data file := by
  unfold exportDecryptedKey
  rcases find_cases faults input.key kv with ⟨data, -, -, hfind⟩ | ⟨data, -, -, -, hfind⟩ | ⟨data, f, fault, hfind⟩ |
      ⟨f, hfind⟩
  · rw [hfind]
    exact openKey_of_extension h random faults.setNew input data kv
  · rw [hfind]
    refine (openKey_of_extension h random faults.setNew input data _).trans ?_
    rw [toFileNameOld, erase_of_extension h, toFileName, set_of_extension h]
  · rw [hfind, toFileName, set_of_extension h]
  · rw [hfind]

theorem saveKey_of_extension [LawfulKeyCrypto] (random : Nat → UInt8) (fault : Option SetFault) (d : DecryptedKey)
    (localPassword : Bytes) (kv : KeyValue) : (saveKey random fault d localPassword kv).2.data file = kv.data file := by
  rcases saveKey_cases random fault d localPassword kv with ⟨f, hsave⟩ | ⟨e, -, -, -, hsave, -⟩
  · rw [hsave]
  · rw [hsave, nameOfRandom, toFileName, set_of_extension h]

/-- No operation on keys writes or removes a file with the extension of block states. -/
theorem step_of_extension [LawfulKeyCrypto] {kv : KeyValue} {e : Event} (he : e.isKeyOperation) :
    (step kv e).data file = kv.data file := by
  cases e with
  | saveKey random fault d localPassword => exact saveKey_of_extension h random fault d localPassword kv
  | exportKey random faults input => exact export_of_extension h random faults input kv
  | changeLocalPassword random faults input saveRandom saveFault newLocalPassword =>
    have hexport := export_of_extension h random faults input kv
    simp only [step, changeLocalPassword]
    split
    · exact hexport
    · exact (saveKey_of_extension h _ _ _ _ _).trans hexport
  | deleteKey fault key => exact erase_of_extension h kv _ fault
  | deleteAllKeys reached faults =>
    refine deleteAllKeys_of_extension reached faults kv ?_
    rw [h]
    decide
  | saveState fault name state => cases he

end

/-- After a deletion that reached every file and reports no error, no export gives a key. -/
theorem export_of_deleteAllKeys {reached : String → Bool} {faults : String → Option Status} {kv : KeyValue}
    (h : (deleteAllKeys reached faults kv).1 = .ok ()) (hreached : ∀ file, kv.data file ≠ none → reached file)
    (random : Nat → UInt8) (exportFaults : ExportFaults) (input : InputKey) (d : DecryptedKey) :
    (exportDecryptedKey random exportFaults input (deleteAllKeys reached faults kv).2).1 ≠ .ok d := by
  have hnone (a : Bytes) : (deleteAllKeys reached faults kv).2.data (bufferToHex a) = none :=
    deleteAllKeys_data h hreached (toFile_bufferToHex a) (extension_bufferToHex a)
  intro hd
  unfold exportDecryptedKey at hd
  rcases find_cases exportFaults input.key (deleteAllKeys reached faults kv).2 with ⟨data, hdata, -⟩ | ⟨data, hdata, -⟩ |
      ⟨data, f, fault, hfind⟩ | ⟨f, hfind⟩
  · rw [toFileName, hnone] at hdata
    cases hdata
  · rw [toFileNameOld, hnone] at hdata
    cases hdata
  · rw [hfind] at hd
    cases hd
  · rw [hfind] at hd
    cases hd

/-! ## Every run -/

/-- A key that can be opened stays so through every harmless run, whatever fails, and every later export that gives a key
gives that one. Saved and exported keys can be opened. After a deletion of everything no key can be; and no operation on
keys touches a block state. -/
theorem stored_keys [LawfulKeyCrypto] :
    (∀ k kv es kv', Run (Step k) kv es kv' → Openable kv k → Openable kv' k ∧
      ∀ random faults d, (∀ data, moved faults k.input.key kv' = some data → Opens data k) →
        (exportDecryptedKey random faults k.input kv').1 = .ok d → d = k.decryptedKey) ∧
    (∀ random fault d localPassword kv key, (∀ e, d.encrypt random localPassword [] = .ok e → Refused e localPassword) →
      (saveKey random fault d localPassword kv).1 = .ok key →
      Openable (saveKey random fault d localPassword kv).2 ⟨⟨key, localPassword⟩, d⟩) ∧
    (∀ random faults input kv d, toFileName input.key ≠ toFileNameOld input.key →
      (∀ data e, (findEncryptedData faults input.key kv).1 = .ok data →
        (input.encrypted data).decrypt input.localPassword true true = .ok d →
        encryptAgain random (input.encrypted data) d input.localPassword = .ok e → Refused e input.localPassword) →
      (exportDecryptedKey random faults input kv).1 = .ok d →
      Openable (exportDecryptedKey random faults input kv).2 ⟨input, d⟩) ∧
    (∀ reached faults kv, (deleteAllKeys reached faults kv).1 = .ok () → (∀ file, kv.data file ≠ none → reached file) →
      ∀ random exportFaults input d,
        (exportDecryptedKey random exportFaults input (deleteAllKeys reached faults kv).2).1 ≠ .ok d) ∧
    ∀ kv es kv' file, Run (fun a e b => step a e = b) kv es kv' → (∀ e ∈ es, e.isKeyOperation) →
      extension file = "blkstate".toList → kv'.data file = kv.data file := by
  refine ⟨?_, ?_, ?_, ?_, ?_⟩
  · intro k kv es kv' hrun hopenable
    have hstored := hrun.inv (I := fun kv => Stored kv k) (openable_iff.1 hopenable) fun _ _ _ hi hs => hi.step hs
    exact ⟨openable_iff.2 hstored, fun random faults d hmoved hd => hstored.eq_of_export hmoved hd⟩
  · intro random fault d localPassword kv key hrefused hsave
    exact openable_iff.2 (stored_of_saveKey hrefused hsave)
  · intro random faults input kv d hapart hrefused hexport
    exact openable_iff.2 (stored_of_export hapart hrefused hexport)
  · intro reached faults kv hdelete hreached random exportFaults input d
    exact export_of_deleteAllKeys hdelete hreached random exportFaults input d
  · intro kv es kv' file hrun hkeys hfile
    refine (hrun.when hkeys).inv (I := fun s => s.data file = kv.data file) rfl ?_
    rintro a e b hi ⟨he, rfl⟩
    exact (step_of_extension hfile he).trans hi

end

namespace Sample

def secret : Bytes :=
  [0, 1, 2, 3, 4, 5, 6, 7, 8, 9, 10, 11, 12, 13, 14, 15, 16, 17, 18, 19, 20, 21, 22, 23, 24, 25, 26, 27, 28, 29, 30, 31]
def password : Bytes := [1, 2, 3]
def decryptedKey : DecryptedKey := ⟨[], SimpleEncryptionV2.Sample.receiverKey⟩
def raw : Bytes :=
  [0, 0, 0, 0, 32, 32, 33, 34, 35, 36, 37, 38, 39, 40, 41, 42, 43, 44, 45, 46, 47, 48, 49, 50, 51, 52, 53, 54, 55, 56,
   57, 58, 59, 60, 61, 62, 63, 0, 0, 0]
def padded : Bytes :=
  [40, 33, 34, 35, 36, 37, 38, 39, 40, 41, 42, 43, 44, 45, 46, 47, 48, 49, 50, 51, 52, 53, 54, 55, 56, 57, 58, 59, 60,
   61, 62, 63, 64, 65, 66, 67, 68, 69, 70, 71, 0, 0, 0, 0, 32, 32, 33, 34, 35, 36, 37, 38, 39, 40, 41, 42, 43, 44, 45,
   46, 47, 48, 49, 50, 51, 52, 53, 54, 55, 56, 57, 58, 59, 60, 61, 62, 63, 0, 0, 0]
def paddedHash : Bytes :=
  [236, 253, 50, 181, 143, 67, 81, 93, 216, 209, 65, 129, 98, 190, 43, 11, 27, 128, 169, 170, 219, 35, 44, 176, 57,
   238, 189, 189, 116, 208, 118, 215]
def passwordHash : Bytes :=
  [3, 144, 88, 198, 242, 192, 203, 73, 44, 83, 59, 10, 77, 20, 239, 119, 204, 15, 120, 171, 204, 206, 213, 40, 125,
   132, 161, 162, 1, 28, 251, 129]
def otherHash : Bytes :=
  [233, 39, 130, 102, 70, 71, 3, 246, 55, 32, 169, 42, 8, 249, 47, 28, 253, 133, 189, 108, 72, 121, 209, 96, 118, 173,
   236, 127, 210, 45, 159, 126]
def localSecret : Bytes :=
  [232, 212, 120, 153, 20, 181, 151, 66, 147, 20, 28, 165, 206, 192, 31, 149, 124, 109, 0, 41, 107, 229, 124, 92, 197,
   61, 215, 126, 26, 169, 108, 117, 82, 22, 6, 114, 133, 82, 171, 45, 40, 59, 9, 50, 63, 48, 119, 232, 180, 216, 130,
   181, 2, 75, 83, 111, 67, 60, 126, 21, 56, 239, 65, 74]
def encryptionSecret : Bytes :=
  [81, 185, 24, 129, 21, 97, 92, 216, 99, 173, 11, 216, 70, 68, 89, 173, 25, 188, 120, 145, 57, 168, 24, 0, 145, 112,
   83, 216, 7, 220, 117, 167, 4, 171, 17, 115, 204, 34, 123, 192, 133, 25, 131, 25, 177, 28, 123, 166, 127, 69, 23,
   112, 57, 25, 25, 222, 116, 50, 164, 4, 136, 78, 237, 159]
def oldEncryptionSecret : Bytes :=
  [250, 175, 215, 112, 60, 219, 18, 184, 223, 116, 145, 11, 149, 229, 102, 124, 232, 60, 50, 201, 116, 59, 39, 19, 50,
   95, 9, 35, 218, 39, 54, 249, 42, 192, 177, 97, 40, 87, 84, 222, 127, 146, 77, 91, 65, 169, 82, 96, 9, 54, 236, 119,
   14, 161, 197, 107, 170, 245, 143, 73, 50, 80, 57, 246]
def state : Bytes :=
  [128, 238, 248, 183, 89, 219, 7, 103, 140, 113, 221, 68, 132, 212, 143, 156, 249, 77, 178, 47, 223, 136, 102, 145,
   102, 252, 76, 140, 232, 187, 194, 251, 242, 91, 149, 95, 83, 128, 223, 154, 73, 144, 248, 103, 3, 156, 37, 59, 132,
   238, 13, 187, 136, 82, 68, 177, 170, 189, 64, 19, 117, 89, 60, 173]
def oldState : Bytes :=
  [227, 143, 151, 230, 246, 219, 144, 1, 125, 116, 14, 119, 25, 73, 217, 65, 31, 166, 157, 247, 227, 20, 49, 235, 69,
   111, 170, 185, 4, 136, 30, 8, 29, 25, 255, 248, 71, 204, 11, 31, 71, 238, 98, 36, 99, 239, 217, 28, 89, 15, 63, 74,
   252, 52, 141, 163, 50, 213, 116, 221, 207, 43, 28, 72]
def blocks : Bytes :=
  [197, 154, 38, 138, 97, 75, 28, 209, 119, 174, 39, 0, 161, 10, 150, 192, 110, 112, 223, 158, 175, 107, 111, 174, 66,
   81, 7, 34, 73, 212, 95, 78, 104, 221, 15, 187, 47, 150, 131, 226, 29, 30, 124, 196, 245, 109, 193, 198, 4, 130,
   186, 116, 242, 9, 224, 82, 143, 175, 7, 87, 162, 245, 9, 93, 119, 156, 63, 185, 150, 115, 88, 174, 94, 123, 104,
   204, 43, 182, 4, 11]
def other : Bytes :=
  [89, 9, 73, 24, 187, 222, 84, 229, 50, 56, 122, 18, 94, 245, 245, 216, 146, 156, 128, 228, 131, 42, 238, 217, 25,
   228, 8, 11, 17, 120, 211, 188, 1, 137, 231, 163, 248, 33, 162, 159, 133, 27, 76, 229, 163, 151, 47, 177, 192, 222,
   236, 3, 61, 135, 104, 233, 175, 39, 235, 19, 208, 37, 133, 174, 128, 1, 123, 20, 132, 125, 223, 72, 45, 203, 61,
   221, 216, 27, 254, 53]
def secretHash : Bytes :=
  [61, 148, 238, 164, 156, 88, 10, 239, 129, 105, 53, 118, 43, 224, 73, 85, 157, 109, 20, 64, 222, 222, 18, 230, 161,
   37, 241, 132, 31, 255, 142, 111, 169, 215, 24, 98, 163, 229, 116, 107, 87, 27, 227, 209, 135, 176, 4, 16, 70, 245,
   46, 189, 133, 12, 124, 189, 95, 222, 142, 227, 132, 115, 182, 73]
/-- Two blocks of data exchanged. -/
def swap (a b data : Bytes) : Bytes := if data = a then b else if data = b then a else data

/-- The blocks of the key, under each of the two encryption secrets. -/
def crypt (key iv data : Bytes) : Bytes :=
  if key = state.take 32 ∧ iv = (state.drop 32).take 16 then swap padded blocks data
  else if key = oldState.take 32 ∧ iv = (oldState.drop 32).take 16 then swap other blocks data
  else data

/-- The values of the functions that one key, stored with one secret and password, needs. -/
instance keyCrypto : KeyCrypto where
  PrivateKey := Bytes
  getPublicKey k :=
    if k = SimpleEncryptionV2.Sample.receiverKey then .ok SimpleEncryptionV2.Sample.receiverPublic
    else fail "Can't import private key"
  computeSharedSecret _ _ := .ok []
  hmacSha512 key message :=
    if key = secret ∧ message = password then localSecret
    else if key = paddedHash ∧ message = encryptionSecret then state
    else if key = paddedHash ∧ message = oldEncryptionSecret then oldState
    else List.replicate 64 0
  aesCbcEncrypt := crypt
  aesCbcDecrypt := crypt
  sha256 data :=
    if data = padded then paddedHash
    else if data = password then passwordHash
    else if data = other then otherHash
    else List.replicate 32 0
  sha512 data := if data = secret then secretHash else List.replicate 64 0
  pbkdf2Sha512 secret _ _ := if secret = localSecret then encryptionSecret else oldEncryptionSecret
  privateKey octets := octets
  serialize key := if key = decryptedKey then .ok raw else fail "too big"
  unserialize data := if data = raw then .ok decryptedKey else fail "Too much data to fetch"

theorem swap_swap (a b data : Bytes) : swap a b (swap a b data) = data := by
  unfold swap
  by_cases ha : data = a
  · by_cases hba : b = a <;> simp [ha, hba]
  · by_cases hb : data = b
    · simp [hb]
    · simp [ha, hb]

theorem length_swap {a b : Bytes} (h : a.length = b.length) (data : Bytes) : (swap a b data).length = data.length := by
  unfold swap
  split
  · next ha => rw [ha, h]
  · split
    · next hb => rw [hb, h]
    · rfl

instance lawful : LawfulKeyCrypto where
  length_getPublicKey := by
    intro k p h
    simp only [Crypto.getPublicKey] at h
    split at h
    · cases h
      rfl
    · cases h
  computeSharedSecret_comm := fun _ _ => ⟨[], rfl, rfl⟩
  length_hmacSha512 := by
    intro key message
    simp only [Crypto.hmacSha512]
    split
    · rfl
    · split
      · rfl
      · split
        · rfl
        · simp
  length_aesCbcEncrypt := by
    intro key iv data _ _ _
    have hblocks : padded.length = blocks.length := rfl
    have hother : other.length = blocks.length := rfl
    simp only [Crypto.aesCbcEncrypt, crypt]
    split
    · exact length_swap hblocks data
    · split
      · exact length_swap hother data
      · rfl
  aesCbcDecrypt_encrypt := by
    intro key iv data _ _ _
    simp only [Crypto.aesCbcEncrypt, Crypto.aesCbcDecrypt, crypt]
    split
    · exact swap_swap _ _ data
    · split
      · exact swap_swap _ _ data
      · rfl
  length_sha256 := by
    intro data
    simp only [KeyCrypto.sha256]
    split
    · rfl
    · split
      · rfl
      · split
        · rfl
        · simp
  length_sha512 := by
    intro data
    simp only [KeyCrypto.sha512]
    split
    · rfl
    · simp
  unserialize_serialize := by
    intro key data h
    simp only [KeyCrypto.serialize] at h
    split at h
    · next hkey =>
      cases h
      simp [KeyCrypto.unserialize, hkey]
    · cases h

/-- The key, its copy, and its names. -/
def storedKey : StoredKey := ⟨⟨⟨SimpleEncryptionV2.Sample.receiverPublic, secret⟩, password⟩, decryptedKey⟩
def copy : Bytes := paddedHash ++ blocks
def file : String := "D349EE4AC985A0FE18965367B20E9455D9D64104EDED216E1A521F48F1FFE8F6"
def oldFile : String := "92CAAB1E14CBAC0F2BE2A1493DD4B07C63E125D6B0EF218C7949CB392269D67D"

theorem opens : Opens copy storedKey := by
  have hrefused : (storedKey.input.encrypted copy).decrypt storedKey.input.localPassword true true =
      fail "Failed to decrypt: hash mismatch" := by rfl
  exact .current hrefused (by rfl)

theorem toFileName_storedKey : toFileName storedKey.input.key = file := by
  simp only [toFileName, bufferToHex, hexDigit_eq]
  decide +kernel

theorem toFileNameOld_storedKey : toFileNameOld storedKey.input.key = oldFile := by
  simp only [toFileNameOld, bufferToHex, hexDigit_eq]
  decide +kernel

/-- The key at the deprecated location, and what is called: two exports, in which first the new file cannot be written and
then the old one cannot be erased, and a deletion that fails. -/
def before : KeyValue := { entries := [(oldFile, copy)], unknownKey := .error "Unknown key" }
def events : List Event :=
  [.exportKey UInt8.ofNat { set := some (.write ⟨28, "No space left on device"⟩ (some [])) } storedKey.input,
   .exportKey UInt8.ofNat { erase := some ⟨13, "Permission denied"⟩ } storedKey.input,
   .deleteKey (some ⟨13, "Permission denied"⟩) storedKey.input.key]

/-- An export of the key itself is harmless where the old file has nothing but its copy, which is not encrypted anew. -/
theorem exportHarmless {faults : ExportFaults} {kv : KeyValue}
    (hcopy : ∀ data, (findEncryptedData faults storedKey.input.key kv).1 = .ok data → data = copy)
    (hmoved : ∀ data, moved faults storedKey.input.key kv = some data → data = copy) :
    ExportHarmless storedKey UInt8.ofNat faults storedKey.input kv where
  apart := by
    rw [toFileName_storedKey, toFileNameOld_storedKey]
    decide
  moved data h := by
    rw [hmoved data h]
    exact ⟨fun _ => opens, fun hne => absurd rfl hne⟩
  own _ _ _ _ _ _ := rfl
  refused data e _ h hold _ := by
    rw [hcopy data h] at hold
    cases hold

/-- The key is still opened: it was moved, and its old file was left. -/
theorem moves_key : ∃ kv, Run (Step storedKey) before events kv ∧ Openable kv storedKey := by
  have hopenable : Openable before storedKey := by
    rw [openable_iff]
    refine ⟨copy, ?_, opens⟩
    rw [stored, toFileName_storedKey, toFileNameOld_storedKey]
    rfl
  have hfailed : ExportHarmless storedKey UInt8.ofNat { set := some (.write ⟨28, "No space left on device"⟩ (some [])) }
      storedKey.input before :=
    exportHarmless (fun data h => by cases h) fun data h => by cases h; rfl
  obtain ⟨kv, hkv⟩ : ∃ kv, kv = step before
      (.exportKey UInt8.ofNat { set := some (.write ⟨28, "No space left on device"⟩ (some [])) } storedKey.input) := ⟨_, rfl⟩
  have hexported : ExportHarmless storedKey UInt8.ofNat { erase := some ⟨13, "Permission denied"⟩ } storedKey.input kv := by
    rw [hkv]
    exact exportHarmless (fun data h => by cases h; rfl) fun data h => by cases h; rfl
  have hdeleted (kv : KeyValue) : Harmless storedKey kv (.deleteKey (some ⟨13, "Permission denied"⟩) storedKey.input.key) := by
    refine ⟨?_, fun _ h => by cases h⟩
    rw [toFileName_storedKey, toFileNameOld_storedKey]
    decide
  have hrun : Run (Step storedKey) before events (events.foldl step before) := by
    refine .snoc (.snoc (.snoc .nil ⟨hfailed, hkv.symm⟩) ⟨hexported, rfl⟩) ⟨hdeleted _, ?_⟩
    rw [hkv]
    rfl
  exact ⟨_, hrun, (stored_keys.1 storedKey before events _ hrun hopenable).1⟩

/-! ## Deletions that fail -/

/-- The key beside another file. -/
def both : KeyValue := { entries := [(file, copy), ("00", [])], unknownKey := .error "Unknown key" }

theorem openable_both : Openable both storedKey := by
  rw [openable_iff]
  refine .of_new ?_ opens
  rw [toFileName_storedKey]
  rfl

/-- The other file cannot be deleted. -/
def faults (key : String) : Option Status := if key = "/00" then some ⟨13, "Permission denied"⟩ else none

theorem deletes_failed : (deleteAllKeys (fun _ => true) faults both).1 ≠ .ok () := by
  intro h
  have hmem : "/00" ∈ (both.foreachKey fun _ => true).filter fun key => (extension key).isEmpty := by
    refine List.mem_filter.2 ⟨List.mem_map.2 ⟨"00", ?_, by decide⟩, by decide⟩
    exact List.mem_filter.2 ⟨List.mem_dedup.2 (by simp [both]), rfl⟩
  cases faults_of_eraseAll h _ hmem

/-- The file of the key has been deleted. -/
theorem data_deleted : (deleteAllKeys (fun _ => true) faults both).2.data file = none ∧
    (deleteAllKeys (fun _ => true) faults both).2.data oldFile = none := by
  have hother : toFile "/00" = "00" := by decide
  have hslash : toFile ("/" ++ file) = file := by rw [← toFileName_storedKey, toFileName, toFile_slash, toFile_bufferToHex]
  have hplain : extension ("/" ++ file) = [] := by
    rw [← extension_toFile, hslash, ← toFileName_storedKey, toFileName, extension_bufferToHex]
  constructor
  · rw [deleteAllKeys, eraseAll_data, if_pos]
    refine ⟨"/" ++ file, List.mem_filter.2 ⟨List.mem_map.2 ⟨file, ?_, rfl⟩, by rw [hplain]; rfl⟩, hslash.symm, ?_⟩
    · exact List.mem_filter.2 ⟨List.mem_dedup.2 (by simp [both]), rfl⟩
    · rw [faults, if_neg]
      intro h
      rw [h, hother] at hslash
      exact absurd hslash (by decide)
  · have hold : both.data oldFile = none := by
      have hfile : file ≠ oldFile := by decide
      have hzero : "00" ≠ oldFile := by decide
      simp [KeyValue.data, both, hfile, hzero]
    rw [deleteAllKeys, eraseAll_data, hold]
    split <;> rfl

/-- A deletion of everything that fails for one file has deleted the others; and one whose walk ends early reports no
error. -/
theorem deletes_some : (¬ ∀ kv k reached faults, Openable kv k → (deleteAllKeys reached faults kv).1 ≠ .ok () →
      Openable (deleteAllKeys reached faults kv).2 k) ∧
    ¬ ∀ kv k reached faults, (deleteAllKeys reached faults kv).1 = .ok () →
      ¬ Openable (deleteAllKeys reached faults kv).2 k := by
  constructor
  · intro h
    obtain ⟨data, hdata, -⟩ := openable_iff.1 (h both storedKey (fun _ => true) faults openable_both deletes_failed)
    rw [stored, toFileName_storedKey, toFileNameOld_storedKey, (data_deleted).1, (data_deleted).2] at hdata
    cases hdata
  · intro h
    refine h both storedKey (fun _ => false) (fun _ => none) rfl ?_
    rw [openable_iff]
    refine .of_new ?_ opens
    rw [toFileName_storedKey]
    rfl

end Sample

end TonWallet.Tonlib.KeyStorage
