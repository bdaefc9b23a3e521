/-
The key of the wallet as it is saved: a container with a padding count and a two-byte marker, encrypted with the passcode
in the buffer that is kept for it, and then with the key of the system's store. A passcode is changed by decrypting the
container into that buffer and encrypting it there again.
-/
import TonWallet.App.TonController

namespace TonWallet.App

open Lib

/-! ## The functions of the system -/

/-- The key of the Android keystore, `encrypt` with what its padding takes at random, and the native functions. -/
class KeyStore where
  encrypt : (random : Nat) → (input : Bytes) → Option String
  decrypt : (encodedString : String) → Option Bytes
  computePBKDF2 : (password salt : Bytes) → Bytes
  aesIgeEncryption : (encrypt : Bool) → (key iv buffer : Bytes) → Bytes

open KeyStore

/-- What is relied on: decryption inverts encryption with the same key, and the sizes of the results. -/
class LawfulKeyStore [KeyStore] : Prop where
  decrypt_encrypt : ∀ {random : Nat} {input : Bytes} {encoded : String}, encrypt random input = some encoded →
    decrypt encoded = some input
  length_computePBKDF2 : ∀ password salt, (computePBKDF2 password salt).length = 64
  length_aesIgeEncryption : ∀ (enc : Bool) {key iv buffer : Bytes}, key.length = 32 → iv.length = 32 →
    buffer.length % 16 = 0 → (aesIgeEncryption enc key iv buffer).length = buffer.length
  aesIgeEncryption_inverse : ∀ {key iv buffer : Bytes}, key.length = 32 → iv.length = 32 → buffer.length % 16 = 0 →
    aesIgeEncryption false key iv (aesIgeEncryption true key iv buffer) = buffer

/-- The exceptions of the virtual machine that can get out of these functions. -/
inductive Throwable
  | nullPointer
  | negativeArraySize
  | arrayIndexOutOfBounds
  deriving DecidableEq, Repr

/-! ## The container -/

/-- `getBytes`. -/
def getBytes (passcode : String) : Bytes := passcode.toUTF8.toList

/-- `dataToEncrypt`, with the random bytes of its padding. -/
def dataToEncrypt (password secret pad : Bytes) : Bytes :=
  UInt8.ofNat pad.length :: 'o'.toUInt8 :: 'k'.toUInt8 :: (password ++ secret ++ pad)

/-- The length of the padding. -/
def paddingOf (password secret : Bytes) : Nat :=
  let padding := (1 + 2 + password.length + secret.length) % 16
  if padding ≠ 0 then 16 - padding else 0

/-- The marker is there. -/
def Marked (decrypted : Bytes) : Prop := decrypted.getD 1 0 = 'o'.toUInt8 ∧ decrypted.getD 2 0 = 'k'.toUInt8

instance (decrypted : Bytes) : Decidable (Marked decrypted) := inferInstanceAs (Decidable (_ ∧ _))

/-- The padding count, a byte with a sign. -/
def padding (decrypted : Bytes) : Int := (decrypted.getD 0 0).toInt8.toInt

/-- The password and the secret in `decryptTonData`, taken out of two new arrays. -/
def readKey (publicKey : Option String) (decrypted : Bytes) : Except Throwable InputKey :=
  let length : Int := decrypted.length - 64 - padding decrypted - 3
  if length < 0 then .error .negativeArraySize
  else if decrypted.length < 3 + 64 then .error .arrayIndexOutOfBounds
  else if decrypted.length < 3 + 64 + length.toNat then .error .arrayIndexOutOfBounds
  else .ok ⟨publicKey, (decrypted.drop (3 + 64)).take length.toNat, (decrypted.drop 3).take 64⟩

section

variable [KeyStore]

/-! ## Decryption -/

/-- The key and the vector of a passcode: the two halves of its hash. -/
def igeKey (passcode : String) (salt : Bytes) : Bytes × Bytes :=
  let hash := computePBKDF2 (getBytes passcode) salt
  (hash.take 32, hash.drop 32)

/-- In place, with the key of a passcode. -/
def ige (enc : Bool) (passcode : String) (salt buffer : Bytes) : Bytes :=
  aesIgeEncryption enc (igeKey passcode salt).1 (igeKey passcode salt).2 buffer

/-- The array `decrypted`; `none`: there is no such array, or it is too short. -/
def decryptedData (config : UserConfig) (passcode : Option String) : Except Throwable (Option Bytes) :=
  match config.tonEncryptedData.bind decrypt with
  | none => .ok none
  | some decrypted =>
    if decrypted.length ≤ 3 then .ok none
    else if config.tonPasscodeType ≠ -1 then
      match passcode, config.tonPasscodeSalt with
      | some passcode, some salt => .ok (some (ige false passcode salt decrypted))
      | _, _ => .error .nullPointer
    else .ok (some decrypted)

/-- What `decryptTonData` returns, with the array; or what it reports. -/
inductive TonData
  | inputKey (inputKey : InputKey) (decrypted : Bytes)
  | error (text : String)
  deriving DecidableEq, Repr

/-- `decryptTonData`. -/
def decryptTonData (config : UserConfig) (passcode : Option String) : Except Throwable TonData := do
  match ← decryptedData config passcode with
  | none => return .error "KEYSTORE_FAIL"
  | some decrypted =>
    if Marked decrypted then return .inputKey (← readKey config.tonPublicKey decrypted) decrypted
    else if isEmpty passcode then return .error "KEYSTORE_FAIL_DECRYPT"
    else return .error "PASSCODE_INVALID"

/-! ## The fields and the steps -/

/-- The `creating...` fields, and the configuration. -/
structure WalletKeys where
  creatingDataForLaterEncrypt : Option Bytes := none
  creatingEncryptedData : Option String := none
  creatingPublicKey : Option String := none
  creatingPasscodeType : Int := -1
  creatingPasscodeSalt : Option Bytes := none
  userConfig : UserConfig := {}
  deriving DecidableEq

namespace WalletKeys

omit [KeyStore] in
/-- `saveWalletKeys`. -/
def saveWalletKeys (finish : Bool) (k : WalletKeys) : WalletKeys :=
  let keys := k.creatingEncryptedData.map fun data : String =>
    (⟨data, k.creatingPublicKey, k.creatingPasscodeType, k.creatingPasscodeSalt⟩ : UserConfig.CreatedKeys)
  let k := { k with userConfig := k.userConfig.withKeys keys finish }
  keys.elim k fun _ =>
    { k with
      creatingEncryptedData := none, creatingPublicKey := none, creatingPasscodeType := -1, creatingPasscodeSalt := none }

/-- `onFinishWalletCreate`, after `cleanup` of a configuration. -/
def onFinishWalletCreate (config : UserConfig) (isProtected isImport : Bool) (random : Nat) (key : InputKey) (pad : Bytes) :
    WalletKeys :=
  let k : WalletKeys := { creatingPublicKey := key.publicKey, userConfig := config.clearTonConfig }
  let data := dataToEncrypt key.localPassword key.secret pad
  if isProtected then saveWalletKeys isImport { k with creatingEncryptedData := encrypt random data }
  else { k with creatingDataForLaterEncrypt := some data }

/-- `setUserPasscode`. -/
def setUserPasscode (passcode : String) (type : Nat) (salt : Bytes) (random : Nat) (k : WalletKeys) :
    Except Throwable WalletKeys :=
  match k.creatingDataForLaterEncrypt with
  | none => .error .nullPointer
  | some data =>
    let data := ige true passcode salt data
    .ok { k with
      creatingPasscodeType := type
      creatingPasscodeSalt := some salt
      creatingDataForLaterEncrypt := some data
      creatingEncryptedData := encrypt random data }

/-- `finishSettingUserPasscode`. -/
def finishSettingUserPasscode (k : WalletKeys) : WalletKeys := { k with creatingDataForLaterEncrypt := none }

/-- `prepareForPasscodeChange`. -/
def prepareForPasscodeChange (passcode : String) (k : WalletKeys) : Except Throwable WalletKeys := do
  match ← decryptTonData k.userConfig (some passcode) with
  | .inputKey _ decrypted =>
    return { k with creatingDataForLaterEncrypt := some decrypted, creatingPublicKey := k.userConfig.tonPublicKey }
  | .error _ => return k

/-- The calls; the type of a passcode is not negative. -/
inductive Event
  | setUserPasscode (passcode : String) (type : Nat) (salt : Bytes) (random : Nat)
  | finishSettingUserPasscode
  | saveWalletKeys (finish : Bool)
  | prepareForPasscodeChange (passcode : String)
  deriving DecidableEq, Repr

/-- A call; an exception ends the process. -/
def step (k : WalletKeys) : Event → Except Throwable WalletKeys
  | .setUserPasscode passcode type salt random => k.setUserPasscode passcode type salt random
  | .finishSettingUserPasscode => .ok k.finishSettingUserPasscode
  | .saveWalletKeys finish => .ok (k.saveWalletKeys finish)
  | .prepareForPasscodeChange passcode => k.prepareForPasscodeChange passcode

/-! ## The fields of the controller -/

omit [KeyStore] in
/-- The fields, of the buffer only whether it is there. -/
def toCreating (k : WalletKeys) : Creating where
  dataForLaterEncrypt := k.creatingDataForLaterEncrypt.isSome
  encryptedData := k.creatingEncryptedData
  publicKey := k.creatingPublicKey
  passcodeType := k.creatingPasscodeType
  passcodeSalt := k.creatingPasscodeSalt

/-- Setting a passcode is what the controller does, and throws where it fails. -/
theorem toCreating_setUserPasscode (k : WalletKeys) (c : TonController) (hc : c.creating = k.toCreating) (passcode : String)
    (type : Nat) (salt : Bytes) (random : Nat) :
    (k.setUserPasscode passcode type salt random).toOption.map toCreating = (c.setUserPasscode type salt
      (k.creatingDataForLaterEncrypt.bind fun data => encrypt random (ige true passcode salt data))).map (·.creating) := by
  unfold setUserPasscode TonController.setUserPasscode
  rw [hc]
  cases hdata : k.creatingDataForLaterEncrypt with
  | none =>
    rw [if_neg (by unfold toCreating; rw [hdata]; exact Bool.false_ne_true)]
    rfl
  | some data =>
    rw [if_pos (by unfold toCreating; rw [hdata]; rfl)]
    unfold toCreating
    rw [hdata]
    rfl

omit [KeyStore] in
theorem toCreating_saveWalletKeys (k : WalletKeys) (c : TonController) (hc : c.creating = k.toCreating) (finish : Bool) :
    (k.saveWalletKeys finish).toCreating = (c.saveWalletKeys finish).creating := by
  unfold saveWalletKeys TonController.saveWalletKeys
  rw [hc]
  unfold toCreating
  cases k.creatingEncryptedData <;> rfl

end WalletKeys

/-! ## The passcode of the last save -/

/-- The passcode of the data that is not saved yet, and the one of the last save; `none`: no save, `some none`: a save
without a passcode. -/
structure Passcodes where
  pending : Option String := none
  saved : Option (Option String) := none

/-- The fields, with the passcodes that belong to them. -/
structure Traced where
  keys : WalletKeys
  passcodes : Passcodes

namespace Traced

open WalletKeys

omit [KeyStore] in
/-- Data that is saved takes its passcode along. -/
def save (k : WalletKeys) (p : Passcodes) : Passcodes :=
  if k.creatingEncryptedData.isSome then ⟨none, some p.pending⟩ else p

/-- The passcodes after a call. -/
def next (k : WalletKeys) (p : Passcodes) : Event → Passcodes
  | .setUserPasscode passcode _ _ _ => { p with pending := some passcode }
  | .saveWalletKeys _ => save k p
  | .finishSettingUserPasscode | .prepareForPasscodeChange _ => p

/-- A call, with the passcodes; `none`: it throws. -/
def step (t : Traced) (e : Event) : Option Traced :=
  (t.keys.step e).toOption.map fun keys => ⟨keys, next t.keys t.passcodes e⟩

/-- A new wallet; where the system protects its key it is saved at once, without a passcode. -/
def start (config : UserConfig) (isProtected isImport : Bool) (random : Nat) (key : InputKey) (pad : Bytes) : Traced where
  keys := onFinishWalletCreate config isProtected isImport random key pad
  passcodes :=
    if isProtected ∧ (encrypt random (dataToEncrypt key.localPassword key.secret pad)).isSome then ⟨none, some none⟩ else {}

/-- With the passcode of the last save, the password and the secret are decrypted; without one, with any. -/
def Recovers (key : InputKey) (t : Traced) : Prop :=
  ∀ saved ∈ t.passcodes.saved, ∀ passcode : Option String, (∀ p ∈ saved, passcode = some p) →
    ∃ inputKey decrypted, decryptTonData t.keys.userConfig passcode = .ok (.inputKey inputKey decrypted) ∧
      inputKey.localPassword = key.localPassword ∧ inputKey.secret = key.secret

/-- With any passcode, whatever data is saved, an exception gets out only where the marker stands before a padding count
that does not fit; and a change that is prepared leaves what is saved as it is. -/
def Harmless (t : Traced) : Prop :=
  ∀ (encoded : String) (passcode : String),
    let config := { t.keys.userConfig with tonEncryptedData := some encoded }
    ((∃ r, decryptTonData config (some passcode) = .ok r) ↔ ∀ d, decryptedData config (some passcode) = .ok (some d) →
      Marked d → 0 ≤ padding d ∧ padding d + 67 ≤ d.length) ∧
    ∀ keys, prepareForPasscodeChange passcode { t.keys with userConfig := config } = .ok keys → keys.userConfig = config

end Traced

/-! ## The condition -/

/-- The container of a key, with some padding. -/
def IsContainer (key : InputKey) (data : Bytes) : Prop :=
  data = dataToEncrypt key.localPassword key.secret (data.drop (67 + key.secret.length)) ∧
    (data.drop (67 + key.secret.length)).length < 16 ∧ data.length % 16 = 0

instance (key : InputKey) (data : Bytes) : Decidable (IsContainer key data) := inferInstanceAs (Decidable (_ ∧ _ ∧ _))

/-- What decryption gives is the container of the key, or has no marker. -/
def TellsApart (key : InputKey) : Except Throwable (Option Bytes) → Prop
  | .ok (some d) => Marked d → IsContainer key d
  | _ => True

instance (key : InputKey) : (r : Except Throwable (Option Bytes)) → Decidable (TellsApart key r)
  | .ok (some d) => inferInstanceAs (Decidable (Marked d → IsContainer key d))
  | .ok none | .error _ => inferInstanceAs (Decidable True)

/-- The buffer is encrypted only while the container is in it, and is not filled with anything else. -/
def Admissible (key : InputKey) (t : Traced) : WalletKeys.Event → Prop
  | .setUserPasscode _ _ _ _ => ∀ data ∈ t.keys.creatingDataForLaterEncrypt, IsContainer key data
  | .prepareForPasscodeChange passcode => TellsApart key (decryptedData t.keys.userConfig (some passcode))
  | .finishSettingUserPasscode | .saveWalletKeys _ => True

instance (key : InputKey) (t : Traced) : (e : WalletKeys.Event) → Decidable (Admissible key t e)
  | .setUserPasscode _ _ _ _ => inferInstanceAs (Decidable (∀ data ∈ t.keys.creatingDataForLaterEncrypt, IsContainer key data))
  | .prepareForPasscodeChange passcode =>
    inferInstanceAs (Decidable (TellsApart key (decryptedData t.keys.userConfig (some passcode))))
  | .finishSettingUserPasscode | .saveWalletKeys _ => inferInstanceAs (Decidable True)

/-! ## Containers -/

section

variable {key : InputKey} {data : Bytes}

omit [KeyStore] in
theorem length_dataToEncrypt (password secret pad : Bytes) :
    (dataToEncrypt password secret pad).length = 3 + (password.length + secret.length + pad.length) := by
  unfold dataToEncrypt
  rw [List.length_cons, List.length_cons, List.length_cons, List.length_append, List.length_append]
  omega

omit [KeyStore] in
/-- What a new wallet's buffer is filled with. -/
theorem isContainer_dataToEncrypt (hpassword : key.localPassword.length = 64) {pad : Bytes}
    (hpad : pad.length = paddingOf key.localPassword key.secret) :
    IsContainer key (dataToEncrypt key.localPassword key.secret pad) := by
  have hdrop : (dataToEncrypt key.localPassword key.secret pad).drop (67 + key.secret.length) = pad := by
    have hlength : (UInt8.ofNat pad.length :: 'o'.toUInt8 :: 'k'.toUInt8 :: (key.localPassword ++ key.secret)).length =
        67 + key.secret.length := by
      simp only [List.length_cons, List.length_append, hpassword]
      omega
    exact List.drop_left' hlength
  unfold paddingOf at hpad
  dsimp only at hpad
  refine ⟨by rw [hdrop], ?_, ?_⟩
  · rw [hdrop, hpad]
    split <;> omega
  · rw [length_dataToEncrypt, hpad, hpassword]
    split <;> omega

namespace IsContainer

omit [KeyStore] in
theorem length (h : IsContainer key data) (hpassword : key.localPassword.length = 64) :
    data.length = 67 + key.secret.length + (data.drop (67 + key.secret.length)).length := by
  have hlength := congrArg List.length h.1
  rw [length_dataToEncrypt, hpassword] at hlength
  omega

omit [KeyStore] in
theorem marked (h : IsContainer key data) : Marked data := by
  rw [h.1]
  exact ⟨rfl, rfl⟩

omit [KeyStore] in
theorem padding_eq (h : IsContainer key data) : padding data = (data.drop (67 + key.secret.length)).length := by
  have hall : ∀ n : Fin 16, (UInt8.ofNat n.val).toInt8.toInt = (n.val : Int) := by decide
  have hfirst : data.getD 0 0 = UInt8.ofNat (data.drop (67 + key.secret.length)).length := by
    conv_lhs => rw [h.1]
    rfl
  unfold padding
  rw [hfirst]
  exact hall ⟨_, h.2.1⟩

omit [KeyStore] in
/-- The password and the secret are read out of it. -/
theorem readKey_eq (h : IsContainer key data) (hpassword : key.localPassword.length = 64) (publicKey : Option String) :
    readKey publicKey data = .ok ⟨publicKey, key.secret, key.localPassword⟩ := by
  have hlength := h.length hpassword
  have hsize : (data.length : Int) - 64 - padding data - 3 = key.secret.length := by
    rw [h.padding_eq]
    omega
  obtain ⟨pad, hpad⟩ : ∃ pad, pad = data.drop (67 + key.secret.length) := ⟨_, rfl⟩
  have hdata : data = dataToEncrypt key.localPassword key.secret pad := hpad ▸ h.1
  have hafter : data.drop 3 = key.localPassword ++ (key.secret ++ pad) := by
    rw [hdata, ← List.append_assoc]
    rfl
  have hpass : (data.drop 3).take 64 = key.localPassword := by
    rw [hafter]
    exact List.take_left' hpassword
  have hsecret : (data.drop (3 + 64)).take key.secret.length = key.secret := by
    rw [← List.drop_drop, hafter, List.drop_left' hpassword]
    exact List.take_left
  unfold readKey
  dsimp only
  rw [hsize, Int.toNat_natCast, if_neg (by omega), if_neg (by omega), if_neg (by omega), hsecret, hpass]

end IsContainer

/-! ## Passcodes -/

variable [LawfulKeyStore]

open LawfulKeyStore

theorem length_igeKey (passcode : String) (salt : Bytes) :
    (igeKey passcode salt).1.length = 32 ∧ (igeKey passcode salt).2.length = 32 := by
  unfold igeKey
  dsimp only
  rw [List.length_take, List.length_drop, length_computePBKDF2]
  exact ⟨rfl, rfl⟩

theorem ige_inverse (passcode : String) (salt : Bytes) (hdata : data.length % 16 = 0) :
    ige false passcode salt (ige true passcode salt data) = data :=
  aesIgeEncryption_inverse (length_igeKey passcode salt).1 (length_igeKey passcode salt).2 hdata

theorem length_ige (passcode : String) (salt : Bytes) (hdata : data.length % 16 = 0) :
    (ige true passcode salt data).length = data.length :=
  length_aesIgeEncryption true (length_igeKey passcode salt).1 (length_igeKey passcode salt).2 hdata

/-- What is encrypted with a type, a salt and a passcode is the container. -/
inductive Opens (key : InputKey) (encoded : String) (type : Int) (salt : Option Bytes) (passcode : Option String) : Prop
  | plain {data : Bytes} (container : IsContainer key data) (decrypted : decrypt encoded = some data) (type_eq : type = -1)
    (passcode_eq : passcode = none)
  | ige {data s : Bytes} {p : String} (container : IsContainer key data)
    (decrypted : decrypt encoded = some (ige true p s data)) (type_ne : type ≠ -1) (salt_eq : salt = some s)
    (passcode_eq : passcode = some p)

omit [LawfulKeyStore] in
theorem Opens.isSome_salt {encoded : String} {type : Int} {salt : Option Bytes} {passcode : Option String}
    (h : Opens key encoded type salt passcode) (htype : type ≠ -1) : salt.isSome := by
  cases h with
  | plain _ _ heq _ => exact absurd heq htype
  | ige _ _ _ hsalt _ =>
    rw [hsalt]
    rfl

omit [LawfulKeyStore] in
/-- `decryptTonData` of an array that is long enough. -/
theorem decryptTonData_of_data {config : UserConfig} {passcode : Option String}
    (h : decryptedData config passcode = .ok (some data)) : decryptTonData config passcode =
      if Marked data then (readKey config.tonPublicKey data).map fun k => .inputKey k data
      else .ok (.error (if isEmpty passcode then "KEYSTORE_FAIL_DECRYPT" else "PASSCODE_INVALID")) := by
  unfold decryptTonData
  rw [h]
  by_cases hmarked : Marked data
  · rw [if_pos hmarked]
    change (if Marked data then _ else _) = _
    rw [if_pos hmarked]
    cases readKey config.tonPublicKey data <;> rfl
  · rw [if_neg hmarked]
    change (if Marked data then _ else _) = _
    rw [if_neg hmarked]
    split <;> rfl

/-- The container is decrypted with its passcode. -/
theorem decryptTonData_of_opens {config : UserConfig} {encoded : String} {passcode given : Option String}
    (hpassword : key.localPassword.length = 64) (hencoded : config.tonEncryptedData = some encoded)
    (h : Opens key encoded config.tonPasscodeType config.tonPasscodeSalt passcode) (hgiven : ∀ p ∈ passcode, given = some p) :
    ∃ decrypted, decryptTonData config given =
      .ok (.inputKey ⟨config.tonPublicKey, key.secret, key.localPassword⟩ decrypted) := by
  have hread (data : Bytes) (hcontainer : IsContainer key data) (hdata : decryptedData config given = .ok (some data)) :
      ∃ decrypted, decryptTonData config given =
        .ok (.inputKey ⟨config.tonPublicKey, key.secret, key.localPassword⟩ decrypted) := by
    rw [decryptTonData_of_data hdata, if_pos hcontainer.marked, hcontainer.readKey_eq hpassword]
    exact ⟨data, rfl⟩
  cases h with
  | @plain data hcontainer hdecrypt htype hpasscode =>
    refine hread data hcontainer ?_
    have hlength := hcontainer.length hpassword
    unfold decryptedData
    rw [hencoded, Option.bind_some, hdecrypt]
    dsimp only
    rw [if_neg (by omega), if_neg (not_not.2 htype)]
  | @ige data s p hcontainer hdecrypt htype hsalt hpasscode =>
    refine hread data hcontainer ?_
    have hlength := hcontainer.length hpassword
    unfold decryptedData
    rw [hencoded, Option.bind_some, hdecrypt, hgiven p hpasscode, hsalt]
    dsimp only
    rw [length_ige p s hcontainer.2.2, if_neg (by omega), if_pos htype, ige_inverse p s hcontainer.2.2]

/-! ## Exceptions -/

omit [KeyStore] [LawfulKeyStore] in
/-- The arrays have room exactly if the padding count fits. -/
theorem readKey_ok_iff (publicKey : Option String) (decrypted : Bytes) :
    (∃ k, readKey publicKey decrypted = .ok k) ↔ 0 ≤ padding decrypted ∧ padding decrypted + 67 ≤ decrypted.length := by
  unfold readKey
  dsimp only
  constructor
  · rintro ⟨k, h⟩
    split at h
    · cases h
    · split at h
      · cases h
      · split at h
        · cases h
        · omega
  · rintro ⟨hlow, hhigh⟩
    rw [if_neg (by omega), if_neg (by omega), if_neg (by omega)]
    exact ⟨_, rfl⟩

omit [LawfulKeyStore] in
/-- Where there is a salt, an exception gets out only of the marked data's padding count. -/
theorem decryptTonData_ok_iff {config : UserConfig} (hsalt : config.tonPasscodeType ≠ -1 → config.tonPasscodeSalt.isSome)
    (passcode : String) : (∃ r, decryptTonData config (some passcode) = .ok r) ↔
      ∀ d, decryptedData config (some passcode) = .ok (some d) → Marked d → 0 ≤ padding d ∧ padding d + 67 ≤ d.length := by
  have hdata : ∃ o, decryptedData config (some passcode) = .ok o := by
    unfold decryptedData
    split
    · exact ⟨_, rfl⟩
    · split
      · exact ⟨_, rfl⟩
      · split
        · next htype =>
          obtain ⟨salt, hsome⟩ := Option.isSome_iff_exists.1 (hsalt htype)
          rw [hsome]
          exact ⟨_, rfl⟩
        · exact ⟨_, rfl⟩
  obtain ⟨o, ho⟩ := hdata
  cases o with
  | none =>
    unfold decryptTonData
    rw [ho]
    refine iff_of_true ⟨_, rfl⟩ ?_
    intro d hd
    cases hd
  | some data =>
    rw [decryptTonData_of_data ho, ho]
    by_cases hmarked : Marked data
    · rw [if_pos hmarked]
      constructor
      · rintro ⟨r, h⟩ d hd -
        obtain rfl : data = d := Option.some.inj (Except.ok.inj hd)
        rw [← readKey_ok_iff config.tonPublicKey]
        cases hread : readKey config.tonPublicKey data with
        | error e =>
          rw [hread] at h
          cases h
        | ok k => exact ⟨k, rfl⟩
      · intro hfits
        obtain ⟨k, hk⟩ := (readKey_ok_iff config.tonPublicKey data).2 (hfits data rfl hmarked)
        rw [hk]
        exact ⟨_, rfl⟩
    · rw [if_neg hmarked]
      refine iff_of_true ⟨_, rfl⟩ ?_
      intro d hd hm
      obtain rfl : data = d := Option.some.inj (Except.ok.inj hd)
      exact absurd hm hmarked

/-! ## Runs -/

/-- What is pending and what is saved opens with the passcodes that belong to it. -/
structure Traced.Inv (key : InputKey) (t : Traced) : Prop where
  pending : ∀ encoded ∈ t.keys.creatingEncryptedData,
    Opens key encoded t.keys.creatingPasscodeType t.keys.creatingPasscodeSalt t.passcodes.pending
  saved : ∀ passcode ∈ t.passcodes.saved, ∃ encoded, t.keys.userConfig.tonEncryptedData = some encoded ∧
    Opens key encoded t.keys.userConfig.tonPasscodeType t.keys.userConfig.tonPasscodeSalt passcode
  salt : t.keys.userConfig.tonPasscodeType ≠ -1 → t.keys.userConfig.tonPasscodeSalt.isSome

namespace Traced.Inv

variable {t t' : Traced}

open WalletKeys

omit [LawfulKeyStore] in
/-- Saving moves what is pending, with its passcode. -/
theorem saveWalletKeys (h : t.Inv key) (finish : Bool) :
    Traced.Inv key ⟨t.keys.saveWalletKeys finish, Traced.save t.keys t.passcodes⟩ := by
  obtain ⟨⟨data, encrypted, publicKey, type, salt, config⟩, passcodes⟩ := t
  obtain ⟨hpending, hsaved, hsalt⟩ := h
  cases encrypted with
  | none => exact ⟨hpending, hsaved, hsalt⟩
  | some encoded =>
    have hopens := hpending encoded rfl
    refine ⟨?_, ?_, hopens.isSome_salt⟩
    · rintro _ ⟨⟩
    · rintro passcode ⟨⟩
      exact ⟨encoded, rfl, hopens⟩

/-- Encrypting the container makes it pending. -/
theorem setUserPasscode (h : t.Inv key) {passcode : String} {type : Nat} {salt : Bytes} {random : Nat} {keys : WalletKeys}
    (hok : Admissible key t (.setUserPasscode passcode type salt random))
    (hstep : t.keys.setUserPasscode passcode type salt random = .ok keys) :
    Traced.Inv key ⟨keys, { t.passcodes with pending := some passcode }⟩ := by
  unfold WalletKeys.setUserPasscode at hstep
  cases hdata : t.keys.creatingDataForLaterEncrypt with
  | none =>
    rw [hdata] at hstep
    cases hstep
  | some data =>
    have hcontainer := hok data hdata
    rw [hdata] at hstep
    cases hstep
    refine ⟨?_, h.saved, h.salt⟩
    intro encoded hencoded
    refine .ige hcontainer (decrypt_encrypt hencoded) ?_ rfl rfl
    change (type : Int) ≠ -1
    omega

omit [LawfulKeyStore] in
/-- Preparing a change leaves all of it as it is. -/
theorem prepareForPasscodeChange {passcode : String} {k keys : WalletKeys}
    (hstep : k.prepareForPasscodeChange passcode = .ok keys) :
    keys.userConfig = k.userConfig ∧ keys.creatingEncryptedData = k.creatingEncryptedData ∧
      keys.creatingPasscodeType = k.creatingPasscodeType ∧ keys.creatingPasscodeSalt = k.creatingPasscodeSalt := by
  unfold WalletKeys.prepareForPasscodeChange at hstep
  cases hdata : decryptTonData k.userConfig (some passcode) with
  | error e =>
    rw [hdata] at hstep
    cases hstep
  | ok r =>
    rw [hdata] at hstep
    cases r with
    | inputKey inputKey decrypted =>
      cases hstep
      exact ⟨rfl, rfl, rfl, rfl⟩
    | error text =>
      cases hstep
      exact ⟨rfl, rfl, rfl, rfl⟩

/-- An admissible call keeps it. -/
theorem step {e : WalletKeys.Event} (h : t.Inv key) (hok : Admissible key t e) (hstep : t.step e = some t') : t'.Inv key := by
  unfold Traced.step at hstep
  obtain ⟨keys, hkeys, rfl⟩ := Option.map_eq_some_iff.1 hstep
  have hkeys : t.keys.step e = .ok keys := by
    cases hcall : t.keys.step e with
    | error e =>
      rw [hcall] at hkeys
      cases hkeys
    | ok keys' =>
      rw [hcall] at hkeys
      cases hkeys
      rfl
  cases e with
  | setUserPasscode passcode type salt random => exact h.setUserPasscode hok hkeys
  | finishSettingUserPasscode =>
    cases hkeys
    exact ⟨h.pending, h.saved, h.salt⟩
  | saveWalletKeys finish =>
    cases hkeys
    exact h.saveWalletKeys finish
  | prepareForPasscodeChange passcode =>
    obtain ⟨hconfig, hencrypted, htype, hsalt⟩ := prepareForPasscodeChange hkeys
    constructor
    · intro encoded hencoded
      rw [hencrypted] at hencoded
      rw [htype, hsalt]
      exact h.pending encoded hencoded
    · rw [hconfig]
      exact h.saved
    · rw [hconfig]
      exact h.salt

/-- A new wallet. -/
theorem start (config : UserConfig) (isProtected isImport : Bool) (random : Nat) {pad : Bytes}
    (hpassword : key.localPassword.length = 64) (hpad : pad.length = paddingOf key.localPassword key.secret) :
    (Traced.start config isProtected isImport random key pad).Inv key := by
  have hcontainer := isContainer_dataToEncrypt hpassword hpad
  cases isProtected with
  | false =>
    refine ⟨?_, ?_, fun htype => absurd rfl htype⟩
    · rintro _ ⟨⟩
    · rintro _ ⟨⟩
  | true =>
    let k : WalletKeys := {
      creatingPublicKey := key.publicKey, userConfig := config.clearTonConfig
      creatingEncryptedData := encrypt random (dataToEncrypt key.localPassword key.secret pad) }
    have hfilled : Traced.Inv key ⟨k, {}⟩ := by
      refine ⟨?_, ?_, fun htype => absurd rfl htype⟩
      · intro encoded hencoded
        exact .plain hcontainer (decrypt_encrypt hencoded) rfl rfl
      · rintro _ ⟨⟩
    have hsaved := hfilled.saveWalletKeys isImport
    have hpasscodes : (Traced.start config true isImport random key pad).passcodes = Traced.save k {} := by
      unfold Traced.start Traced.save
      dsimp only
      split <;> rename_i hsome
      · rw [if_pos hsome.2]
      · rw [if_neg fun h => hsome ⟨rfl, h⟩]
    have heq : Traced.start config true isImport random key pad = ⟨k.saveWalletKeys isImport, Traced.save k {}⟩ := by
      rw [← hpasscodes]
      rfl
    rw [heq]
    exact hsaved

/-- Every state of a run whose calls are admissible. -/
theorem run {s : Traced} {es : List WalletKeys.Event} (h0 : s.Inv key) (h : Run (Steps.When Traced.step (Admissible key)) s es t) :
    t.Inv key :=
  Run.inv h h0 fun _ _ _ hinv hstep => hinv.step hstep.1 hstep.2

theorem recovers (h : t.Inv key) (hpassword : key.localPassword.length = 64) : t.Recovers key := by
  intro saved hsaved passcode hgiven
  obtain ⟨encoded, hencoded, hopens⟩ := h.saved saved hsaved
  obtain ⟨decrypted, hdecrypted⟩ := decryptTonData_of_opens hpassword hencoded hopens hgiven
  exact ⟨_, decrypted, hdecrypted, rfl, rfl⟩

omit [LawfulKeyStore] in
theorem harmless (h : t.Inv key) : t.Harmless := by
  intro encoded passcode
  dsimp only
  constructor
  · refine decryptTonData_ok_iff ?_ passcode
    exact h.salt
  · intro keys hkeys
    exact (prepareForPasscodeChange hkeys).1

end Traced.Inv

/-- In every run in which only the container is encrypted, in the clear, the last passcode opens what is saved; and no
passcode does harm but by a padding count that does not fit. -/
theorem recovers_of_run (config : UserConfig) (isProtected isImport : Bool) (random : Nat) {pad : Bytes}
    (hpassword : key.localPassword.length = 64) (hpad : pad.length = paddingOf key.localPassword key.secret)
    {es : List WalletKeys.Event} {t : Traced}
    (h : Run (Steps.When Traced.step (Admissible key)) (Traced.start config isProtected isImport random key pad) es t) :
    t.Recovers key ∧ t.Harmless := by
  have hinv : t.Inv key := (Traced.Inv.start config isProtected isImport random hpassword hpad).run h
  exact ⟨hinv.recovers hpassword, hinv.harmless⟩

end

end

/-! ## A passcode that is set twice -/

namespace Sample

/-- A byte string as a text. -/
def encodeBytes (bytes : Bytes) : String := String.ofList (bytes.map fun b => Char.ofNat b.toNat)

def decodeBytes (text : String) : Bytes := text.toList.map fun c => UInt8.ofNat c.toNat

/-- A store that hides nothing, and a cipher that adds the first byte of the passcode. -/
instance keyStore : KeyStore where
  encrypt _ input := some (encodeBytes input)
  decrypt encoded := some (decodeBytes encoded)
  computePBKDF2 password _ := List.replicate 64 (password.headD 0)
  aesIgeEncryption enc key _ buffer := buffer.map fun b => if enc then b + key.headD 0 else b - key.headD 0

theorem decodeBytes_encodeBytes (bytes : Bytes) : decodeBytes (encodeBytes bytes) = bytes := by
  unfold decodeBytes encodeBytes
  rw [String.toList_ofList, List.map_map]
  refine (List.map_congr_left ?_).trans (List.map_id bytes)
  intro b _
  have hall : ∀ n : Fin 256, (Char.ofNat n.val).toNat = n.val := by decide +kernel
  change UInt8.ofNat (Char.ofNat b.toNat).toNat = b
  rw [hall ⟨b.toNat, b.toNat_lt⟩, UInt8.ofNat_toNat]

instance lawfulKeyStore : LawfulKeyStore := by
  constructor
  · rintro random input encoded ⟨⟩
    exact congrArg some (decodeBytes_encodeBytes input)
  · intro password salt
    exact List.length_replicate
  · intro enc key iv buffer _ _ _
    exact List.length_map _
  · intro key iv buffer _ _ _
    change (buffer.map fun b => b + key.headD 0).map (fun b => b - key.headD 0) = buffer
    rw [List.map_map]
    refine (List.map_congr_left ?_).trans (List.map_id buffer)
    intro b _
    exact UInt8.add_sub_cancel b _

/-- A key. -/
def key : InputKey := ⟨some "key", [1, 2, 3], List.replicate 64 7⟩

/-- Ten bytes of padding. -/
def pad : Bytes := List.replicate 10 0

/-- A passcode is set and saved, changed, and saved again. -/
def change : List WalletKeys.Event :=
  [.setUserPasscode "1234" 0 [1] 0, .saveWalletKeys true, .finishSettingUserPasscode, .prepareForPasscodeChange "1234",
    .setUserPasscode "5678" 0 [2] 0, .saveWalletKeys true]

/-- The new wallet. -/
def wallet : Traced := Traced.start {} false true 0 key pad

/-- The change is admissible, and the new passcode opens what is saved. -/
theorem recovers_change : ∃ t, Run (Steps.When Traced.step (Admissible key)) wallet change t ∧
    t.Recovers key ∧ t.Harmless := by
  have hsome : (exec (fun s e => if Admissible key s e then Traced.step s e else none) wallet change).isSome := by
    decide +kernel
  obtain ⟨t, ht⟩ := Option.isSome_iff_exists.1 hsome
  have hrun := Run.of_exec_when ht
  exact ⟨t, hrun, recovers_of_run {} false true 0 List.length_replicate rfl hrun⟩

/-- A passcode is set twice and saved. -/
def twice : List WalletKeys.Event :=
  [.setUserPasscode "1234" 0 [1] 0, .setUserPasscode "5678" 0 [2] 0, .saveWalletKeys true]

/-- The second passcode does not open what is encrypted with both. -/
theorem not_recovers_twice : ¬ ∀ [KeyStore] [LawfulKeyStore] (key : InputKey) (config : UserConfig)
    (isProtected isImport : Bool) (random : Nat) (pad : Bytes) (es : List WalletKeys.Event) (t : Traced),
    key.localPassword.length = 64 → pad.length = paddingOf key.localPassword key.secret →
      Run (Steps Traced.step) (Traced.start config isProtected isImport random key pad) es t → t.Recovers key := by
  intro hclaim
  have hsome : (exec Traced.step wallet twice).isSome := by decide +kernel
  obtain ⟨t, ht⟩ := Option.isSome_iff_exists.1 hsome
  have hsaved : (exec Traced.step wallet twice).map (·.passcodes.saved) = some (some (some "5678")) := by decide +kernel
  have herror : (exec Traced.step wallet twice).bind
      (fun t => (decryptTonData t.keys.userConfig (some "5678")).toOption) = some (.error "PASSCODE_INVALID") := by
    decide +kernel
  rw [ht] at hsaved herror
  obtain ⟨inputKey, decrypted, hdecrypted, -⟩ := hclaim key {} false true 0 pad twice t List.length_replicate rfl
    (Run.of_exec ht) (some "5678") (Option.some.inj hsaved) (some "5678") (by rintro _ ⟨⟩; rfl)
  rw [Option.bind_some, hdecrypted] at herror
  cases herror

end Sample

end TonWallet.App
