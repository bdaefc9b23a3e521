/-
`UserConfig`: the wallet's key, address and passcode and the settings of the two networks, saved in the
preferences of the application and loaded by the next process. A save writes some entries only when
another field is set and removes a fixed list of entries when there is no wallet, so what is loaded is
what was last saved unless an entry of an earlier wallet is left over.
-/
import TonWallet.App.Preferences
import TonWallet.Lib.Run

namespace TonWallet.App

open Lib Lib.Entries

/-- The settings of one network. -/
structure NetworkConfig where
  walletConfig : String := ""
  walletConfigUrl : String
  walletConfigType : Int := 0
  walletBlockchainName : String
  walletConfigFromUrl : String := ""
  deriving DecidableEq, Repr

structure UserConfig where
  tonEncryptedData : Option String := none
  tonPublicKey : Option String := none
  tonAccountAddress : Option String := none
  tonPasscodeType : Int := -1
  tonPasscodeSalt : Option Bytes := none
  tonPasscodeRetryInMs : Int := 0
  tonLastUptimeMillis : Int := 0
  tonBadPasscodeTries : Int := 0
  tonKeyName : Option String := none
  tonCreationFinished : Bool := false
  tonWalletVersion : Int := 0
  test : NetworkConfig := { walletConfigUrl := "https://ton.org/config-test.json", walletBlockchainName := "testnet2" }
  main : NetworkConfig := { walletConfigUrl := "https://ton.org/config.json", walletBlockchainName := "mainnet" }
  currentNetworkType : Int := 0
  deriving DecidableEq, Repr

namespace Preferences

/-- `getString(k, default)` with a default that is not null. -/
def getStringOr (prefs : Preferences) (k default : String) : Option String :=
  (prefs.getString k).map fun v => v.getD default

end Preferences

namespace UserConfig

/-! ## Saving -/

/-- The entries of the passcode. -/
def savePasscode (c : UserConfig) (prefs : Preferences) : Preferences := match c.tonPasscodeSalt with
  | none => prefs
  | some salt =>
    put "tonBadPasscodeTries" (.int c.tonBadPasscodeTries) <|
    put "tonLastUptimeMillis" (.long c.tonLastUptimeMillis) <|
    put "tonPasscodeRetryInMs" (.long c.tonPasscodeRetryInMs) <|
    put "tonPasscodeSalt" (.bytes salt) <|
    put "tonPasscodeType" (.int c.tonPasscodeType) prefs

/-- The entry of the address. -/
def saveAddress (c : UserConfig) (prefs : Preferences) : Preferences := match c.tonAccountAddress with
  | none => prefs
  | some address => put "tonAccountAddress" (.string address) prefs

/-- The keys a save without a wallet removes. -/
def removedKeys : List String :=
  ["tonEncryptedData", "tonPublicKey", "tonKeyName", "tonPasscodeType", "tonPasscodeSalt", "tonPasscodeRetryInMs",
    "tonBadPasscodeTries", "tonLastUptimeMillis", "tonCreationFinished"]

/-- The entries of the wallet. -/
def saveWallet (c : UserConfig) (prefs : Preferences) : Preferences := match c.tonEncryptedData with
  | some data =>
    c.savePasscode <|
    put "tonWalletVersion" (.int c.tonWalletVersion) <|
    put "tonCreationFinished" (.boolean c.tonCreationFinished) <|
    putOpt "tonKeyName" (c.tonKeyName.map .string) <|
    c.saveAddress <|
    putOpt "tonPublicKey" (c.tonPublicKey.map .string) <|
    put "tonEncryptedData" (.string data) prefs
  | none => removedKeys.foldl (fun prefs k => remove k prefs) prefs

/-- The entries of a network, whose keys end in `suffix`. -/
def saveNetwork (suffix : String) (n : NetworkConfig) (prefs : Preferences) : Preferences :=
  put ("walletConfigFromUrl" ++ suffix) (.string n.walletConfigFromUrl) <|
  put ("walletBlockchainName" ++ suffix) (.string n.walletBlockchainName) <|
  put ("walletConfigType" ++ suffix) (.int n.walletConfigType) <|
  put ("walletConfigUrl" ++ suffix) (.string n.walletConfigUrl) <|
  put ("walletConfig" ++ suffix) (.string n.walletConfig) prefs

def saveConfig (c : UserConfig) (prefs : Preferences) : Preferences :=
  put "walletCurrentNetworkType" (.int c.currentNetworkType) <|
  saveNetwork "Main" c.main <|
  saveNetwork "" c.test <|
  c.saveWallet prefs

/-! ## Loading -/

/-- The passcode's fields; an exception leaves the ones behind it as they are in a new process. -/
def loadPasscode (prefs : Preferences) (c : UserConfig) (salt : String) : UserConfig :=
  match Base64.decode salt with
  | none => c
  | some tonPasscodeSalt =>
    let c := { c with tonPasscodeSalt := some tonPasscodeSalt }
    match prefs.getInt "tonPasscodeType" (-1) with
    | none => c
    | some tonPasscodeType =>
      let c := { c with tonPasscodeType }
      match prefs.getLong "tonPasscodeRetryInMs" 0 with
      | none => c
      | some tonPasscodeRetryInMs =>
        let c := { c with tonPasscodeRetryInMs }
        match prefs.getLong "tonLastUptimeMillis" 0 with
        | none => c
        | some tonLastUptimeMillis =>
          let c := { c with tonLastUptimeMillis }
          match prefs.getInt "tonBadPasscodeTries" 0 with
          | none => c
          | some tonBadPasscodeTries => { c with tonBadPasscodeTries }

/-- The settings of a network, whose keys end in `suffix`. -/
def loadNetwork (prefs : Preferences) (suffix : String) (default : NetworkConfig) : Option NetworkConfig := do
  let walletConfig ← prefs.getStringOr ("walletConfig" ++ suffix) default.walletConfig
  let walletConfigUrl ← prefs.getStringOr ("walletConfigUrl" ++ suffix) default.walletConfigUrl
  let walletConfigType ← prefs.getInt ("walletConfigType" ++ suffix) default.walletConfigType
  let walletBlockchainName ← prefs.getStringOr ("walletBlockchainName" ++ suffix) default.walletBlockchainName
  let walletConfigFromUrl ← prefs.getStringOr ("walletConfigFromUrl" ++ suffix) default.walletConfigFromUrl
  some { walletConfig, walletConfigUrl, walletConfigType, walletBlockchainName, walletConfigFromUrl }

/-- The wallet's fields. -/
def loadWallet (prefs : Preferences) : Option UserConfig := do
  let tonEncryptedData ← prefs.getString "tonEncryptedData"
  let tonPublicKey ← prefs.getString "tonPublicKey"
  let tonAccountAddress ← prefs.getString "tonAccountAddress"
  let tonKeyName ← prefs.getStringOr "tonKeyName" "walletKey"
  let tonCreationFinished ← prefs.getBoolean "tonCreationFinished" true
  let tonWalletVersion ← prefs.getInt "tonWalletVersion" 0
  let salt ← prefs.getString "tonPasscodeSalt"
  let c : UserConfig :=
    { tonEncryptedData, tonPublicKey, tonAccountAddress, tonKeyName, tonCreationFinished, tonWalletVersion }
  some (salt.elim c (loadPasscode prefs c))

/-- `loadConfig` in a new process; no value if a getter throws an exception. -/
def loadConfig (prefs : Preferences) : Option UserConfig := do
  let c ← loadWallet prefs
  let test ← loadNetwork prefs "" c.test
  let main ← loadNetwork prefs "Main" c.main
  let currentNetworkType ← prefs.getInt "walletCurrentNetworkType" 0
  some { c with test, main, currentNetworkType }

/-! ## What is loaded after a save -/

/-- What a new process should find: the saved wallet, with the default name if its key has none, or the
defaults when no wallet was saved. -/
def restored (c : UserConfig) : UserConfig :=
  if c.tonEncryptedData = none then
    { tonKeyName := some "walletKey", tonCreationFinished := true, test := c.test, main := c.main,
      currentNetworkType := c.currentNetworkType }
  else { c with tonKeyName := some (c.tonKeyName.getD "walletKey") }

/-- The passcode's fields are those of a wallet without one. -/
def NoPasscode (c : UserConfig) : Prop :=
  c.tonPasscodeType = -1 ∧ c.tonPasscodeRetryInMs = 0 ∧ c.tonLastUptimeMillis = 0 ∧ c.tonBadPasscodeTries = 0

/-- The salt some preferences hold. -/
def leftSalt (prefs : Preferences) : Option (Option Bytes) :=
  (prefs.getString "tonPasscodeSalt").map fun salt => salt.bind Base64.decode

/-- A save leaves nothing of an earlier wallet behind: the entries it neither writes nor removes are not
there, and what it does not write of the passcode is unset. -/
def SaveOk (prefs : Preferences) (c : UserConfig) : Prop :=
  if c.tonEncryptedData = none then
    prefs.getString "tonAccountAddress" = some none ∧ prefs.getInt "tonWalletVersion" 0 = some 0
  else
    (c.tonAccountAddress = none → prefs.getString "tonAccountAddress" = some none) ∧
    (c.tonPasscodeSalt = none → leftSalt prefs = some none ∧ c.NoPasscode)

instance (prefs : Preferences) (c : UserConfig) : Decidable (SaveOk prefs c) := by
  unfold SaveOk NoPasscode
  infer_instance

section Load

variable (c : UserConfig) (prefs : Preferences)

/-- The keys of the networks' settings. -/
def networkKeys : List String :=
  ["walletConfig", "walletConfigUrl", "walletConfigType", "walletBlockchainName", "walletConfigFromUrl",
    "walletConfigMain", "walletConfigUrlMain", "walletConfigTypeMain", "walletBlockchainNameMain",
    "walletConfigFromUrlMain", "walletCurrentNetworkType"]

theorem get_saveConfig {k : String} (hk : k ∉ networkKeys) : get (c.saveConfig prefs) k = get (c.saveWallet prefs) k := by
  simp only [networkKeys, List.mem_cons, List.not_mem_nil, or_false, not_or] at hk
  have hne := fun {a : String} (h : ¬ k = a) => Ne.symm h
  simp [saveConfig, saveNetwork, hne, hk]

theorem loadNetwork_saveConfig_test (default : NetworkConfig) :
    loadNetwork (c.saveConfig prefs) "" default = some c.test := by
  simp [loadNetwork, saveConfig, saveNetwork, Preferences.getStringOr, Preferences.getString, Preferences.getInt,
    PrefValue.asString, PrefValue.asInt]

theorem loadNetwork_saveConfig_main (default : NetworkConfig) :
    loadNetwork (c.saveConfig prefs) "Main" default = some c.main := by
  simp [loadNetwork, saveConfig, saveNetwork, Preferences.getStringOr, Preferences.getString, Preferences.getInt,
    PrefValue.asString, PrefValue.asInt]

theorem loadConfig_saveConfig :
    loadConfig (c.saveConfig prefs) = (loadWallet (c.saveConfig prefs)).map fun w =>
      { w with test := c.test, main := c.main, currentNetworkType := c.currentNetworkType } := by
  have htype : (c.saveConfig prefs).getInt "walletCurrentNetworkType" 0 = some c.currentNetworkType := by
    simp [saveConfig, Preferences.getInt, PrefValue.asInt]
  unfold loadConfig
  cases hw : loadWallet (c.saveConfig prefs) with
  | none => rfl
  | some w =>
    simp [loadNetwork_saveConfig_test, loadNetwork_saveConfig_main, htype]

/-- Without a wallet, the address and the version are those of the preferences. -/
theorem loadWallet_saveConfig_none (h : c.tonEncryptedData = none) :
    loadWallet (c.saveConfig prefs) = (do
      let tonAccountAddress ← prefs.getString "tonAccountAddress"
      let tonWalletVersion ← prefs.getInt "tonWalletVersion" 0
      some { tonAccountAddress, tonWalletVersion, tonKeyName := some "walletKey", tonCreationFinished := true }) := by
  simp [loadWallet, Preferences.getStringOr, Preferences.getString, Preferences.getInt, Preferences.getBoolean,
    get_saveConfig, networkKeys, saveWallet, h, removedKeys, PrefValue.asString, PrefValue.asBoolean]

/-- The wallet that is loaded, but for its passcode. -/
def loadedWallet (tonAccountAddress : Option String) : UserConfig where
  tonEncryptedData := c.tonEncryptedData
  tonPublicKey := c.tonPublicKey
  tonAccountAddress := tonAccountAddress
  tonKeyName := some (c.tonKeyName.getD "walletKey")
  tonCreationFinished := c.tonCreationFinished
  tonWalletVersion := c.tonWalletVersion

/-- The address that is loaded: a null one leaves the entry of the preferences. -/
def loadedAddress : Option (Option String) := match c.tonAccountAddress with
  | some address => some (some address)
  | none => prefs.getString "tonAccountAddress"

/-- The passcode of a wallet with a salt. -/
def withPasscode (w : UserConfig) (salt : Bytes) : UserConfig :=
  { w with
    tonPasscodeType := c.tonPasscodeType, tonPasscodeSalt := some salt,
    tonPasscodeRetryInMs := c.tonPasscodeRetryInMs, tonLastUptimeMillis := c.tonLastUptimeMillis,
    tonBadPasscodeTries := c.tonBadPasscodeTries }

theorem loadPasscode_saveConfig {data : String} {salt : Bytes} (h : c.tonEncryptedData = some data)
    (hsalt : c.tonPasscodeSalt = some salt) (w : UserConfig) :
    loadPasscode (c.saveConfig prefs) w (Base64.encodeToString salt) = withPasscode c w salt := by
  simp [loadPasscode, withPasscode, Preferences.getInt, Preferences.getLong, get_saveConfig, networkKeys, saveWallet, h,
    hsalt, savePasscode, saveAddress, Base64.decode_encodeToString]

theorem loadPasscode_saveConfig_no_salt {data : String} (h : c.tonEncryptedData = some data)
    (hsalt : c.tonPasscodeSalt = none) (w : UserConfig) (salt : String) :
    loadPasscode (c.saveConfig prefs) w salt = loadPasscode prefs w salt := by
  cases ha : c.tonAccountAddress <;>
    simp [loadPasscode, Preferences.getInt, Preferences.getLong, get_saveConfig, networkKeys, saveWallet, h, hsalt, ha,
      savePasscode, saveAddress]

/-- A salt that is saved is loaded with its fields. -/
theorem loadWallet_saveConfig_salt {data : String} {salt : Bytes} (h : c.tonEncryptedData = some data)
    (hsalt : c.tonPasscodeSalt = some salt) :
    loadWallet (c.saveConfig prefs) = (do
      let address ← loadedAddress c prefs
      some (withPasscode c (loadedWallet c address) salt)) := by
  cases ha : c.tonAccountAddress <;>
    simp [loadWallet, loadedWallet, loadedAddress, Preferences.getStringOr, Preferences.getString, Preferences.getInt,
      Preferences.getBoolean, get_saveConfig, networkKeys, saveWallet, h, hsalt, ha, savePasscode, saveAddress,
      PrefValue.bytes, loadPasscode_saveConfig c prefs h hsalt]

/-- Without a salt, the passcode is that of the preferences. -/
theorem loadWallet_saveConfig_no_salt {data : String} (h : c.tonEncryptedData = some data)
    (hsalt : c.tonPasscodeSalt = none) :
    loadWallet (c.saveConfig prefs) = (do
      let address ← loadedAddress c prefs
      let salt ← prefs.getString "tonPasscodeSalt"
      some (salt.elim (loadedWallet c address) (loadPasscode prefs (loadedWallet c address)))) := by
  have hload := fun w => funext (loadPasscode_saveConfig_no_salt c prefs h hsalt w)
  cases ha : c.tonAccountAddress <;>
    simp [loadWallet, hload, loadedWallet, loadedAddress, Preferences.getStringOr, Preferences.getString,
      Preferences.getInt, Preferences.getBoolean, get_saveConfig, networkKeys, saveWallet, h, hsalt, ha, savePasscode,
      saveAddress]

end Load

/-- Loading a passcode gives the salt if it can be decoded. -/
theorem tonPasscodeSalt_loadPasscode (prefs : Preferences) (w : UserConfig) (salt : String) :
    (loadPasscode prefs w salt).tonPasscodeSalt = (Base64.decode salt).or w.tonPasscodeSalt := by
  unfold loadPasscode
  cases Base64.decode salt with
  | none => rfl
  | some b =>
    simp only [Option.some_or]
    repeat' split
    all_goals rfl

theorem loadConfig_saveConfig_iff_of_none (c : UserConfig) (prefs : Preferences) (h : c.tonEncryptedData = none) :
    loadConfig (c.saveConfig prefs) = some c.restored ↔ SaveOk prefs c := by
  rw [loadConfig_saveConfig, loadWallet_saveConfig_none c prefs h]
  unfold SaveOk restored
  rw [if_pos h, if_pos h]
  cases prefs.getString "tonAccountAddress" with
  | none => simp
  | some address =>
    cases prefs.getInt "tonWalletVersion" 0 with
    | none => simp
    | some version => simp

theorem loadConfig_saveConfig_iff_of_salt {c : UserConfig} (prefs : Preferences) {data : String} {salt : Bytes}
    (h : c.tonEncryptedData = some data) (hsalt : c.tonPasscodeSalt = some salt) :
    loadConfig (c.saveConfig prefs) = some c.restored ↔ SaveOk prefs c := by
  rw [loadConfig_saveConfig, loadWallet_saveConfig_salt c prefs h hsalt]
  unfold SaveOk restored loadedAddress
  rw [if_neg (by simp [h]), if_neg (by simp [h])]
  obtain ⟨_, _, address, _, _, _, _, _, _, _, _, _, _, _⟩ := c
  cases hsalt
  cases address with
  | some address => simp [withPasscode, loadedWallet]
  | none =>
    cases prefs.getString "tonAccountAddress" with
    | none => simp
    | some address => simp [withPasscode, loadedWallet]

/-- The salt that is loaded where none was saved. -/
theorem tonPasscodeSalt_elim (prefs : Preferences) {w : UserConfig} (hw : w.tonPasscodeSalt = none)
    (salt : Option String) :
    (salt.elim w (loadPasscode prefs w)).tonPasscodeSalt = salt.bind Base64.decode := by
  cases salt with
  | none => exact hw
  | some salt =>
    rw [Option.elim_some, Option.bind_some, tonPasscodeSalt_loadPasscode, hw, Option.or_none]

theorem elim_loadPasscode_of_none (prefs : Preferences) (w : UserConfig) {salt : Option String}
    (h : salt.bind Base64.decode = none) : salt.elim w (loadPasscode prefs w) = w := by
  cases salt with
  | none => rfl
  | some salt =>
    rw [Option.bind_some] at h
    rw [Option.elim_some, loadPasscode, h]

/-- A wallet without a passcode is loaded as it was if its address is. -/
theorem loadedWallet_eq_iff {c : UserConfig} {data : String} (h : c.tonEncryptedData = some data)
    (hsalt : c.tonPasscodeSalt = none) (address : Option String) :
    { loadedWallet c address with test := c.test, main := c.main, currentNetworkType := c.currentNetworkType } =
      c.restored ↔ address = c.tonAccountAddress ∧ c.NoPasscode := by
  unfold restored
  rw [if_neg (by simp [h])]
  obtain ⟨_, _, _, type, _, retry, uptime, tries, _, _, _, _, _, _⟩ := c
  cases hsalt
  simp only [loadedWallet, mk.injEq, NoPasscode, true_and, and_true, eq_comm]

theorem loadedAddress_eq_iff (c : UserConfig) (prefs : Preferences) :
    loadedAddress c prefs = some c.tonAccountAddress ↔
      (c.tonAccountAddress = none → prefs.getString "tonAccountAddress" = some none) := by
  unfold loadedAddress
  cases c.tonAccountAddress with
  | none => simp
  | some address => simp

theorem loadConfig_saveConfig_iff_of_no_salt {c : UserConfig} (prefs : Preferences) {data : String}
    (h : c.tonEncryptedData = some data) (hsalt : c.tonPasscodeSalt = none) :
    loadConfig (c.saveConfig prefs) = some c.restored ↔ SaveOk prefs c := by
  rw [loadConfig_saveConfig, loadWallet_saveConfig_no_salt c prefs h hsalt]
  unfold SaveOk leftSalt
  rw [if_neg (by simp [h])]
  rw [← loadedAddress_eq_iff]
  cases ha : loadedAddress c prefs with
  | none => simp
  | some address =>
    cases hs : prefs.getString "tonPasscodeSalt" with
    | none => simp [hsalt]
    | some salt =>
      simp only [Option.bind_eq_bind, Option.bind_some, Option.map_some, Option.some.injEq, hsalt, forall_const]
      cases hb : salt.bind Base64.decode with
      | none =>
        rw [elim_loadPasscode_of_none prefs _ hb, loadedWallet_eq_iff h hsalt]
        simp
      | some b =>
        have hloaded := tonPasscodeSalt_elim prefs (w := loadedWallet c address) rfl salt
        simp only [reduceCtorEq, false_and, and_false, iff_false]
        intro he
        have hr : c.restored.tonPasscodeSalt = none := by
          unfold restored
          rw [if_neg (by simp [h])]
          exact hsalt
        rw [← he, hloaded, hb] at hr
        cases hr

/-- A new process finds what was saved, exactly if the save leaves nothing of an earlier wallet behind. -/
theorem loadConfig_saveConfig_iff (c : UserConfig) (prefs : Preferences) :
    loadConfig (c.saveConfig prefs) = some c.restored ↔ SaveOk prefs c := by
  cases h : c.tonEncryptedData with
  | none => exact loadConfig_saveConfig_iff_of_none c prefs h
  | some data =>
    cases hsalt : c.tonPasscodeSalt with
    | none => exact loadConfig_saveConfig_iff_of_no_salt prefs h hsalt
    | some salt => exact loadConfig_saveConfig_iff_of_salt prefs h hsalt

/-! ## Changes -/

def clearTonConfig (c : UserConfig) : UserConfig :=
  { c with
    tonEncryptedData := none, tonKeyName := none, tonPublicKey := none, tonPasscodeType := -1, tonPasscodeSalt := none,
    tonCreationFinished := false, tonAccountAddress := none, tonWalletVersion := 1, tonPasscodeRetryInMs := 0,
    tonLastUptimeMillis := 0, tonBadPasscodeTries := 0 }

/-- The delay after a number of wrong passcodes. -/
def retryInMs (tries : Int) : Int :=
  if tries = 3 then 5000 else if tries = 4 then 10000 else if tries = 5 then 15000 else if tries = 6 then 20000
  else if tries = 7 then 25000 else 30000

/-- `increaseBadPasscodeTries`, when the device is up for `now`. -/
def increaseBadPasscodeTries (c : UserConfig) (now : Int) : UserConfig :=
  let tries := c.tonBadPasscodeTries + 1
  if tries ≥ 3 then
    { c with tonBadPasscodeTries := tries, tonPasscodeRetryInMs := retryInMs tries, tonLastUptimeMillis := now }
  else { c with tonBadPasscodeTries := tries }

/-- The fields `checkRetryTextView` saves. -/
def checkRetryTextView (c : UserConfig) (now : Int) : UserConfig :=
  let left := c.tonPasscodeRetryInMs - (now - c.tonLastUptimeMillis)
  if now > c.tonLastUptimeMillis then
    { c with tonPasscodeRetryInMs := if left < 0 then 0 else left, tonLastUptimeMillis := now }
  else { c with tonLastUptimeMillis := now }

/-- The data of a new key or a new passcode that `saveWalletKeys` takes over. -/
structure CreatedKeys where
  encryptedData : String
  publicKey : Option String
  passcodeType : Int
  passcodeSalt : Option Bytes

/-- The fields `saveWalletKeys` sets. -/
def withKeys (c : UserConfig) (keys : Option CreatedKeys) (finish : Bool) : UserConfig :=
  let c := keys.elim c fun k =>
    { c with
      tonEncryptedData := some k.encryptedData, tonPublicKey := k.publicKey, tonPasscodeType := k.passcodeType,
      tonPasscodeSalt := k.passcodeSalt }
  { c with tonCreationFinished := finish }

end UserConfig

/-! ## Runs -/

/-- The fields in memory and the preferences; `lastSaved` are the fields of the last save. -/
structure Settings where
  config : UserConfig := ({} : UserConfig).restored
  preferences : Preferences := []
  lastSaved : UserConfig := {}

namespace Settings

open UserConfig

inductive Event
  /-- `createWallet` names a new key. -/
  | keyNamed (name : String)
  /-- A wallet is created or imported, or its passcode is set or changed. -/
  | saveWalletKeys (keys : Option CreatedKeys) (finish : Bool)
  /-- The address of the wallet is learned. -/
  | addressLearned (address : String)
  | wrongPasscode (now later : Int)
  | checkRetryTextView (now : Int)
  | goodPasscode
  | networksChanged (test main : NetworkConfig) (currentNetworkType : Int)
  /-- `clearTonConfig` and `saveConfig`. -/
  | logout
  | clearConfig
  /-- A new process loads the preferences. -/
  | restart

/-- What an event saves, and the preferences it saves it over. -/
def saving (s : Settings) : Event → Option (Preferences × UserConfig)
  | .saveWalletKeys keys finish => some (s.preferences, s.config.withKeys keys finish)
  | .addressLearned address => some (s.preferences, { s.config with tonAccountAddress := some address })
  | .wrongPasscode now later =>
    let c := s.config.increaseBadPasscodeTries now
    if c.tonPasscodeRetryInMs > 0 then some (s.preferences, c.checkRetryTextView later) else none
  | .checkRetryTextView now => some (s.preferences, s.config.checkRetryTextView now)
  | .goodPasscode => some (s.preferences, { s.config with tonBadPasscodeTries := 0 })
  | .networksChanged test main currentNetworkType =>
    some (s.preferences, { s.config with test, main, currentNetworkType })
  | .logout => some (s.preferences, s.config.clearTonConfig)
  | .clearConfig => some ([], s.config.clearTonConfig)
  | .keyNamed _ | .restart => none

/-- An event that saves nothing. -/
def unsaved (s : Settings) : Event → Option Settings
  | .keyNamed name => some { s with config := { s.config with tonKeyName := some name } }
  | .wrongPasscode now _ => some { s with config := s.config.increaseBadPasscodeTries now }
  | .restart => (loadConfig s.preferences).map fun config => { s with config }
  | _ => none

def step (s : Settings) (e : Event) : Option Settings := match s.saving e with
  | some (preferences, c) => some ⟨c, c.saveConfig preferences, c⟩
  | none => s.unsaved e

/-- A save of the event leaves nothing of an earlier wallet behind. -/
def SavingOk (s : Settings) (e : Event) : Prop := match s.saving e with
  | some (preferences, c) => SaveOk preferences c
  | none => True

instance (s : Settings) (e : Event) : Decidable (s.SavingOk e) := by
  unfold SavingOk
  split <;> infer_instance

theorem preferences_unsaved {s s' : Settings} {e : Event} (h : s.unsaved e = some s') :
    s'.preferences = s.preferences ∧ s'.lastSaved = s.lastSaved := by
  unfold unsaved at h
  split at h
  · cases h
    exact ⟨rfl, rfl⟩
  · cases h
    exact ⟨rfl, rfl⟩
  · obtain ⟨c, -, rfl⟩ := Option.map_eq_some_iff.1 h
    exact ⟨rfl, rfl⟩
  · cases h

/-- In every run whose saves leave nothing of an earlier wallet behind, a new process finds the wallet that
was saved last, and only that. -/
theorem loadConfig_of_run {es : List Event} {s : Settings} (h : Run (Steps.When step SavingOk) {} es s) :
    loadConfig s.preferences = some s.lastSaved.restored := by
  refine h.inv (I := fun s => loadConfig s.preferences = some s.lastSaved.restored) (by decide +kernel) ?_
  rintro s e s' hs ⟨hok, hstep⟩
  unfold step at hstep
  unfold SavingOk at hok
  split at hstep
  · rename_i hsaving
    cases hstep
    rw [hsaving] at hok
    exact (loadConfig_saveConfig_iff _ _).2 hok
  · obtain ⟨hpreferences, hlast⟩ := preferences_unsaved hstep
    rw [hpreferences, hlast]
    exact hs

namespace Sample

/-- A wallet protected by the lock screen, with its address, and a restart. -/
def created : List Event :=
  [.keyNamed "walletKey1", .saveWalletKeys (some ⟨"data", some "key", -1, none⟩) true, .addressLearned "address", .restart]

/-- The state after it. -/
def afterCreated : Settings := (exec (fun s e => if s.SavingOk e then s.step e else none) {} created).getD {}

theorem loadConfig_created :
    Run (Steps.When step SavingOk) {} created afterCreated ∧
      loadConfig afterCreated.preferences = some afterCreated.lastSaved.restored := by
  have hrun : Run (Steps.When step SavingOk) {} created afterCreated :=
    Run.of_exec_when (Option.getD_of_ne_none (by decide +kernel) _).symm
  exact ⟨hrun, loadConfig_of_run hrun⟩

/-- A wallet that was deleted. -/
def deleted : List Event := created ++ [.logout]

/-- The address of the deleted wallet is loaded. -/
theorem loadConfig_deleted :
    ¬ ∀ (es : List Event) (s : Settings), Run (Steps step) {} es s → loadConfig s.preferences = some s.lastSaved.restored := by
  intro h
  have hlost := h deleted _ (Run.of_exec rfl)
  revert hlost
  decide +kernel

end Sample

end Settings

end TonWallet.App
