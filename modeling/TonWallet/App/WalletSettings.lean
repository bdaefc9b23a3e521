/-
`WalletSettingsActivity` as the screen of the server settings: the edited settings of the two networks, which
`saveConfig` writes over those of `UserConfig` before the library is asked to accept the configuration, and which it
takes back by hand when the library does not. What it takes back is read of the current network, and the
configuration that was loaded from the URL is not read of `UserConfig` at all.
-/
import TonWallet.App.TonController

namespace TonWallet.App

open Lib

namespace UserConfig

/-! ## Getters and setters -/

def NETWORK_TYPE_TEST : Int := 0

def NETWORK_TYPE_MAIN : Int := 1

/-- The entries of the arrays at an index; another index is an exception. -/
def network (c : UserConfig) (type : Int) : Option NetworkConfig :=
  if type = NETWORK_TYPE_TEST then some c.test else if type = NETWORK_TYPE_MAIN then some c.main else none

/-- A change of the entries at an index. -/
def setNetwork (c : UserConfig) (type : Int) (f : NetworkConfig → NetworkConfig) : UserConfig :=
  if type = NETWORK_TYPE_TEST then { c with test := f c.test }
  else if type = NETWORK_TYPE_MAIN then { c with main := f c.main } else c

def getWalletConfig (c : UserConfig) (type : Int) : Option String := (c.network type).map (·.walletConfig)

def setWalletConfig (type : Int) (config : String) (c : UserConfig) : UserConfig :=
  c.setNetwork type fun n => { n with walletConfig := config }

def getWalletConfigUrl (c : UserConfig) (type : Int) : Option String := (c.network type).map (·.walletConfigUrl)

def setWalletConfigUrl (type : Int) (url : String) (c : UserConfig) : UserConfig :=
  c.setNetwork type fun n => { n with walletConfigUrl := url }

def getWalletConfigType (c : UserConfig) (type : Int) : Option Int := (c.network type).map (·.walletConfigType)

def setWalletConfigType (type : Int) (value : Int) (c : UserConfig) : UserConfig :=
  c.setNetwork type fun n => { n with walletConfigType := value }

def getWalletBlockchainName (c : UserConfig) (type : Int) : Option String :=
  (c.network type).map (·.walletBlockchainName)

def setWalletBlockchainName (type : Int) (name : String) (c : UserConfig) : UserConfig :=
  c.setNetwork type fun n => { n with walletBlockchainName := name }

def getWalletConfigFromUrl (c : UserConfig) (type : Int) : Option String :=
  (c.network type).map (·.walletConfigFromUrl)

def setWalletConfigFromUrl (type : Int) (config : String) (c : UserConfig) : UserConfig :=
  c.setNetwork type fun n => { n with walletConfigFromUrl := config }

def setCurrentNetworkType (type : Int) (c : UserConfig) : UserConfig := { c with currentNetworkType := type }

/-- The settings of a network and the current network are set, and nothing else. -/
def withNetwork (c : UserConfig) (type : Int) (n : NetworkConfig) (current : Int) : UserConfig :=
  { c.setNetwork type fun _ => n with currentNetworkType := current }

theorem withNetwork_eq_self_iff {c : UserConfig} {type : Int} {stored : NetworkConfig}
    (h : c.network type = some stored) (n : NetworkConfig) :
    c.withNetwork type n c.currentNetworkType = c ↔ n = stored := by
  unfold network at h
  unfold withNetwork setNetwork
  split at h
  · rename_i htest
    cases h
    rw [if_pos htest]
    constructor
    · exact congrArg UserConfig.test
    · rintro rfl
      rfl
  · rename_i htest
    split at h
    · rename_i hmain
      cases h
      rw [if_neg htest, if_pos hmain]
      constructor
      · exact congrArg UserConfig.main
      · rintro rfl
        rfl
    · cases h

end UserConfig

/-! ## The configuration of the library -/

/-- `TonApi.Config`. -/
structure LibraryConfig where
  config : String
  blockchainName : String
  useCallbacksForNetwork : Bool
  ignoreCache : Bool
  deriving DecidableEq, Repr

/-- What the library answers, with a default wallet id or an error, and whether a text is a `JSONObject`. -/
structure ConfigLibrary where
  init : LibraryConfig → Option Int
  optionsValidateConfig : LibraryConfig → Option Int
  isJSONObject : String → Bool

/-- The fields of `TonController` about the configuration of the library; of `keyDirectoty` only whether it is there. -/
structure TonConfig where
  initied : Bool := false
  walletId : Int := 0
  keyDirectoty : Bool := false
  currentSetConfig : Option String := none
  currentSetConfigName : Option String := none
  deriving DecidableEq, Repr

namespace TonConfig

def CONFIG_TYPE_URL : Int := 0

def CONFIG_TYPE_JSON : Int := 1

def TON_WALLET_STANDALONE : Bool := true

def getConfig (userConfig : UserConfig) : Option LibraryConfig := do
  let type ← userConfig.getWalletConfigType userConfig.currentNetworkType
  let config ←
    if type = CONFIG_TYPE_URL then userConfig.getWalletConfigFromUrl userConfig.currentNetworkType
    else userConfig.getWalletConfig userConfig.currentNetworkType
  let blockchainName ← userConfig.getWalletBlockchainName userConfig.currentNetworkType
  some ⟨config, blockchainName, !TON_WALLET_STANDALONE, false⟩

def initTonLib (lib : ConfigLibrary) (userConfig : UserConfig) (t : TonConfig) : Option TonConfig :=
  if t.initied then some t
  else do
    let config ← getConfig userConfig
    let t := { t with
      keyDirectoty := true, currentSetConfig := some config.config, currentSetConfigName := some config.blockchainName }
    some (if config.config = "" then t
      else (lib.init config).elim t fun walletId => { t with walletId, initied := true })

/-- `onTonConfigUpdated`, with whether it accepts the configuration. -/
def onTonConfigUpdated (lib : ConfigLibrary) (userConfig : UserConfig) (t : TonConfig) : Option (Bool × TonConfig) :=
  if !t.initied then some (true, t)
  else do
    let config ← getConfig userConfig
    some (if t.currentSetConfig = some config.config ∧ t.currentSetConfigName = some config.blockchainName then
        (true, t)
      else match lib.optionsValidateConfig config with
        | none => (false, t)
        | some walletId => (true, { t with
          walletId, currentSetConfig := some config.config, currentSetConfigName := some config.blockchainName }))

end TonConfig

/-! ## The screen -/

/-- The screen of the server settings, with what the controllers hold. -/
structure WalletSettingsActivity where
  controller : TonController
  tonConfig : TonConfig
  hasParentActivity : Bool := true
  /-- The edited settings of the test network. -/
  test : NetworkConfig
  /-- The edited settings of the main network. -/
  main : NetworkConfig
  networkType : Int

namespace WalletSettingsActivity

open TonConfig

abbrev userConfig (a : WalletSettingsActivity) : UserConfig := a.controller.settings.config

/-- The screen as it is opened. -/
def create (controller : TonController) (tonConfig : TonConfig) : WalletSettingsActivity where
  controller := controller
  tonConfig := tonConfig
  test := controller.settings.config.test
  main := controller.settings.config.main
  networkType := controller.settings.config.currentNetworkType

/-- The edited settings at an index; another index is an exception. -/
def edited (a : WalletSettingsActivity) (type : Int) : Option NetworkConfig :=
  if type = UserConfig.NETWORK_TYPE_TEST then some a.test
  else if type = UserConfig.NETWORK_TYPE_MAIN then some a.main else none

/-- `blockchainConfigFromUrl[networkType] = result`. -/
def setConfigFromUrl (result : String) (a : WalletSettingsActivity) : WalletSettingsActivity :=
  if a.networkType = UserConfig.NETWORK_TYPE_TEST then { a with test := { a.test with walletConfigFromUrl := result } }
  else if a.networkType = UserConfig.NETWORK_TYPE_MAIN then
    { a with main := { a.main with walletConfigFromUrl := result } }
  else a

def setUserConfig (config : UserConfig) (a : WalletSettingsActivity) : WalletSettingsActivity :=
  { a with controller := { a.controller with settings := { a.controller.settings with config } } }

/-- How a call ends. -/
inductive Outcome
  /-- Nothing happens. -/
  | returned
  /-- A dialog whose button calls `saveConfig(false, true)`. -/
  | warning
  /-- An alert that the JSON text is invalid. -/
  | invalidJson
  /-- The configuration is being loaded from a URL, or could not be. -/
  | loading (url : String)
  | loadError
  /-- An alert that the configuration is not accepted. -/
  | rejected
  | finished
  /-- The wallet is deleted, to create another one. -/
  | loggedOut
  deriving DecidableEq, Repr

/-! ## Saving -/

def blockchainNameChanged (a : WalletSettingsActivity) (stored edited : NetworkConfig) : Bool :=
  decide (a.networkType ≠ a.userConfig.currentNetworkType) ||
    decide (stored.walletBlockchainName ≠ edited.walletBlockchainName)

def needApply (a : WalletSettingsActivity) (stored edited : NetworkConfig) : Bool :=
  if edited.walletConfigType ≠ stored.walletConfigType ∨ a.blockchainNameChanged stored edited then true
  else if edited.walletConfigType = CONFIG_TYPE_URL then decide (stored.walletConfigUrl ≠ edited.walletConfigUrl)
  else if edited.walletConfigType = CONFIG_TYPE_JSON then decide (stored.walletConfig ≠ edited.walletConfig)
  else false

/-- What ends a call that needs to apply the settings before it does. -/
def stops (lib : ConfigLibrary) (a : WalletSettingsActivity) (stored edited : NetworkConfig) (alert verify : Bool) :
    Option Outcome :=
  if alert then
    if a.networkType ≠ a.userConfig.currentNetworkType then some .warning
    else if stored.walletBlockchainName ≠ edited.walletBlockchainName then some .warning
    else none
  else if edited.walletConfigType = CONFIG_TYPE_JSON then
    if edited.walletConfig = "" then some .returned
    else if lib.isJSONObject edited.walletConfig then none
    else some .invalidJson
  else if verify ∧ edited.walletConfigType = CONFIG_TYPE_URL then some (.loading edited.walletConfigUrl)
  else none

/-- The settings with the edited ones written. -/
def written (a : WalletSettingsActivity) (edited : NetworkConfig) : UserConfig :=
  a.userConfig
    |>.setWalletBlockchainName a.networkType edited.walletBlockchainName
    |>.setWalletConfig a.networkType edited.walletConfig
    |>.setWalletConfigUrl a.networkType edited.walletConfigUrl
    |>.setWalletConfigType a.networkType edited.walletConfigType
    |>.setWalletConfigFromUrl a.networkType edited.walletConfigFromUrl
    |>.setCurrentNetworkType a.networkType

/-- The settings after a configuration that is not accepted. -/
def restored (a : WalletSettingsActivity) (edited : NetworkConfig) : Option UserConfig := do
  let userConfig := a.userConfig
  let oldWalletBlockchainName ← userConfig.getWalletBlockchainName userConfig.currentNetworkType
  let oldWalletConfig ← userConfig.getWalletConfig userConfig.currentNetworkType
  let oldWalletConfigUrl ← userConfig.getWalletConfigUrl userConfig.currentNetworkType
  let oldWalletConfigType ← userConfig.getWalletConfigType userConfig.currentNetworkType
  let oldWalletConfigFromUrl := edited.walletConfigFromUrl
  let oldNetworkType := userConfig.currentNetworkType
  some (a.written edited
    |>.setWalletBlockchainName a.networkType oldWalletBlockchainName
    |>.setWalletConfig a.networkType oldWalletConfig
    |>.setWalletConfigUrl a.networkType oldWalletConfigUrl
    |>.setWalletConfigType a.networkType oldWalletConfigType
    |>.setWalletConfigFromUrl a.networkType oldWalletConfigFromUrl
    |>.setCurrentNetworkType oldNetworkType)

def setTonConfig (tonConfig : TonConfig) (a : WalletSettingsActivity) : WalletSettingsActivity :=
  { a with tonConfig }

/-- `UserConfig.saveConfig`. -/
def saveUserConfig (a : WalletSettingsActivity) : WalletSettingsActivity :=
  let c := a.userConfig
  { a with controller := { a.controller with settings := ⟨c, c.saveConfig a.controller.settings.preferences, c⟩ } }

/-- `doLogout`: `cleanup` starts the library if it has been tried before. -/
def doLogout (lib : ConfigLibrary) (a : WalletSettingsActivity) : Option WalletSettingsActivity :=
  (if a.tonConfig.keyDirectoty then initTonLib lib a.userConfig a.tonConfig else some a.tonConfig).map fun tonConfig =>
    { a with controller := a.controller.logout, tonConfig }

/-- The end of a call that does not fail. -/
def close (lib : ConfigLibrary) (a : WalletSettingsActivity) (blockchainNameChanged : Bool) :
    Option (Outcome × WalletSettingsActivity) :=
  if blockchainNameChanged then (a.doLogout lib).map fun a => (.loggedOut, a) else some (.finished, a)

/-- The part of `saveConfig` that writes the settings and asks the library. -/
def apply (lib : ConfigLibrary) (a : WalletSettingsActivity) (edited : NetworkConfig) (blockchainNameChanged : Bool) :
    Option (Outcome × WalletSettingsActivity) := do
  let restored ← a.restored edited
  let (accepted, tonConfig) ← onTonConfigUpdated lib (a.written edited) a.tonConfig
  if accepted then
    ((a.setUserConfig (a.written edited)).setTonConfig tonConfig).saveUserConfig.close lib blockchainNameChanged
  else some (.rejected, (a.setUserConfig restored).setTonConfig tonConfig)

def saveConfig (lib : ConfigLibrary) (alert verify : Bool) (a : WalletSettingsActivity) :
    Option (Outcome × WalletSettingsActivity) :=
  if !a.hasParentActivity then some (.returned, a)
  else do
    let stored ← a.userConfig.network a.networkType
    let edited ← a.edited a.networkType
    if a.needApply stored edited then
      match a.stops lib stored edited alert verify with
      | some outcome => some (outcome, a)
      | none => a.apply lib edited (a.blockchainNameChanged stored edited)
    else a.close lib (a.blockchainNameChanged stored edited)

/-- The callback of `WalletConfigLoader.loadConfig`, with its result. -/
def onConfigLoaded (lib : ConfigLibrary) (result : Option String) (a : WalletSettingsActivity) :
    Option (Outcome × WalletSettingsActivity) := match result with
  | none => some (.loadError, a)
  | some result =>
    if result = "" then some (.loadError, a) else (a.setConfigFromUrl result).saveConfig lib false false


/-! ## What a call changes -/

/-- The library is asked about the edited settings, and does not accept them. -/
def Refused (lib : ConfigLibrary) (alert verify : Bool) (a : WalletSettingsActivity) : Prop :=
  a.hasParentActivity ∧ ∃ stored edited tonConfig, a.userConfig.network a.networkType = some stored ∧
    a.edited a.networkType = some edited ∧ a.needApply stored edited ∧
    a.stops lib stored edited alert verify = none ∧
    onTonConfigUpdated lib (a.written edited) a.tonConfig = some (false, tonConfig)

/-- The settings of the current network, with the configuration loaded from the edited URL, are those of the chosen
network. -/
def Kept (a : WalletSettingsActivity) : Prop :=
  ∃ stored current edited, a.userConfig.network a.networkType = some stored ∧
    a.userConfig.network a.userConfig.currentNetworkType = some current ∧ a.edited a.networkType = some edited ∧
    { current with walletConfigFromUrl := edited.walletConfigFromUrl } = stored

/-- All settings are set or none is: only those of the chosen network and the current network change when a call
succeeds, with a logout of the wallet if there is one, and none when it does not. -/
structure Atomic (a : WalletSettingsActivity) (o : Outcome) (a' : WalletSettingsActivity) : Prop where
  unchanged : o ≠ .finished → o ≠ .loggedOut → a'.controller.settings = a.controller.settings
  finished : o = .finished → ∃ n, a'.userConfig = a.userConfig.withNetwork a.networkType n a.networkType
  loggedOut : o = .loggedOut →
    ∃ n, a'.userConfig = (a.userConfig.withNetwork a.networkType n a.networkType).clearTonConfig

theorem written_eq (a : WalletSettingsActivity) (edited : NetworkConfig) :
    a.written edited = a.userConfig.withNetwork a.networkType edited a.networkType := by
  unfold written UserConfig.withNetwork
  unfold UserConfig.setWalletBlockchainName UserConfig.setWalletConfig UserConfig.setWalletConfigUrl
  unfold UserConfig.setWalletConfigType UserConfig.setWalletConfigFromUrl UserConfig.setCurrentNetworkType
  by_cases htest : a.networkType = UserConfig.NETWORK_TYPE_TEST
  · simp only [UserConfig.setNetwork, if_pos htest]
  · by_cases hmain : a.networkType = UserConfig.NETWORK_TYPE_MAIN
    · simp only [UserConfig.setNetwork, if_neg htest, if_pos hmain]
    · simp only [UserConfig.setNetwork, if_neg htest, if_neg hmain]

/-- What is taken back is read of the current network, and the edited configuration from the URL stays. -/
theorem restored_eq {a : WalletSettingsActivity} {edited : NetworkConfig} {c : UserConfig}
    (h : a.restored edited = some c) :
    ∃ current, a.userConfig.network a.userConfig.currentNetworkType = some current ∧
      c = a.userConfig.withNetwork a.networkType { current with walletConfigFromUrl := edited.walletConfigFromUrl }
        a.userConfig.currentNetworkType := by
  unfold restored at h
  simp only [UserConfig.getWalletBlockchainName, UserConfig.getWalletConfig, UserConfig.getWalletConfigUrl,
    UserConfig.getWalletConfigType] at h
  cases hcurrent : a.userConfig.network a.userConfig.currentNetworkType with
  | none =>
    rw [hcurrent] at h
    cases h
  | some current =>
    rw [hcurrent] at h
    cases h
    refine ⟨current, rfl, ?_⟩
    rw [written_eq]
    unfold UserConfig.withNetwork
    unfold UserConfig.setWalletBlockchainName UserConfig.setWalletConfig UserConfig.setWalletConfigUrl
    unfold UserConfig.setWalletConfigType UserConfig.setWalletConfigFromUrl UserConfig.setCurrentNetworkType
    by_cases htest : a.networkType = UserConfig.NETWORK_TYPE_TEST
    · simp only [UserConfig.setNetwork, if_pos htest]
    · by_cases hmain : a.networkType = UserConfig.NETWORK_TYPE_MAIN
      · simp only [UserConfig.setNetwork, if_neg htest, if_pos hmain]
      · simp only [UserConfig.setNetwork, if_neg htest, if_neg hmain]

/-- What a call does. -/
inductive Ends (lib : ConfigLibrary) (alert verify : Bool) (a : WalletSettingsActivity) :
    Outcome → WalletSettingsActivity → Prop
  | stopped {o : Outcome} (ho : o ≠ .rejected ∧ o ≠ .finished ∧ o ≠ .loggedOut)
      (hrefused : ¬ Refused lib alert verify a) : Ends lib alert verify a o a
  | rejected {restored : UserConfig} {edited : NetworkConfig} (tonConfig : TonConfig)
      (hrefused : Refused lib alert verify a) (hedited : a.edited a.networkType = some edited)
      (hrestored : a.restored edited = some restored) :
      Ends lib alert verify a .rejected ((a.setUserConfig restored).setTonConfig tonConfig)
  | finished {a' : WalletSettingsActivity} (n : NetworkConfig)
      (h : a'.userConfig = a.userConfig.withNetwork a.networkType n a.networkType)
      (hrefused : ¬ Refused lib alert verify a) : Ends lib alert verify a .finished a'
  | loggedOut {a' : WalletSettingsActivity} (n : NetworkConfig)
      (h : a'.userConfig = (a.userConfig.withNetwork a.networkType n a.networkType).clearTonConfig)
      (hrefused : ¬ Refused lib alert verify a) : Ends lib alert verify a .loggedOut a'

theorem userConfig_doLogout {lib : ConfigLibrary} {a a' : WalletSettingsActivity} (h : a.doLogout lib = some a') :
    a'.userConfig = a.userConfig.clearTonConfig := by
  obtain ⟨tonConfig, -, rfl⟩ := Option.map_eq_some_iff.1 h
  rfl

/-- Once the settings are those of the chosen network, the call ends well. -/
theorem ends_of_close {lib : ConfigLibrary} {alert verify : Bool} {a b a' : WalletSettingsActivity} {o : Outcome}
    {changed : Bool} {n : NetworkConfig} (hb : b.userConfig = a.userConfig.withNetwork a.networkType n a.networkType)
    (hrefused : ¬ Refused lib alert verify a) (h : b.close lib changed = some (o, a')) :
    Ends lib alert verify a o a' := by
  unfold close at h
  split at h
  · obtain ⟨b', hb', he⟩ := Option.map_eq_some_iff.1 h
    cases he
    exact .loggedOut n (by rw [userConfig_doLogout hb', hb]) hrefused
  · cases h
    exact .finished n hb hrefused

/-- An accepted configuration was not refused. -/
theorem not_refused {lib : ConfigLibrary} {alert verify : Bool} {a : WalletSettingsActivity}
    {stored edited : NetworkConfig} (hstored : a.userConfig.network a.networkType = some stored)
    (hedited : a.edited a.networkType = some edited)
    (h : a.needApply stored edited = true → a.stops lib stored edited alert verify = none →
      ∃ t, onTonConfigUpdated lib (a.written edited) a.tonConfig = some (true, t)) :
    ¬ Refused lib alert verify a := by
  rintro ⟨-, stored', edited', t', hstored', hedited', hneed, hstops, hrefused⟩
  rw [hstored] at hstored'
  rw [hedited] at hedited'
  cases hstored'
  cases hedited'
  obtain ⟨t, ht⟩ := h hneed hstops
  rw [ht] at hrefused
  cases hrefused

theorem ends_of_apply {lib : ConfigLibrary} {alert verify : Bool} {a a' : WalletSettingsActivity} {o : Outcome}
    {stored edited : NetworkConfig} {changed : Bool} (hactivity : a.hasParentActivity)
    (hstored : a.userConfig.network a.networkType = some stored) (hedited : a.edited a.networkType = some edited)
    (hneed : a.needApply stored edited) (hstops : a.stops lib stored edited alert verify = none)
    (h : a.apply lib edited changed = some (o, a')) : Ends lib alert verify a o a' := by
  obtain ⟨restored, hrestored, h⟩ := Option.bind_eq_some_iff.1 h
  obtain ⟨⟨accepted, tonConfig⟩, hupdated, h⟩ := Option.bind_eq_some_iff.1 h
  cases accepted with
  | true => exact ends_of_close (a.written_eq edited) (not_refused hstored hedited fun _ _ => ⟨tonConfig, hupdated⟩) h
  | false =>
    cases h
    exact .rejected tonConfig ⟨hactivity, stored, edited, tonConfig, hstored, hedited, hneed, hstops, hupdated⟩ hedited
      hrestored

theorem outcome_of_stops {lib : ConfigLibrary} {alert verify : Bool} {a : WalletSettingsActivity} {o : Outcome}
    {stored edited : NetworkConfig} (h : a.stops lib stored edited alert verify = some o) :
    o ≠ .rejected ∧ o ≠ .finished ∧ o ≠ .loggedOut := by
  unfold stops at h
  repeat' split at h
  all_goals first | (cases h; decide) | cases h
  simp

/-- A call that needs to apply nothing is on the current network. -/
theorem current_of_not_needApply {a : WalletSettingsActivity} {stored edited : NetworkConfig}
    (h : ¬ a.needApply stored edited = true) : a.networkType = a.userConfig.currentNetworkType := by
  by_contra hne
  refine h ?_
  unfold needApply blockchainNameChanged
  rw [if_pos]
  exact Or.inr (by simp [hne])

theorem ends_of_saveConfig {lib : ConfigLibrary} {alert verify : Bool} {a a' : WalletSettingsActivity} {o : Outcome}
    (h : a.saveConfig lib alert verify = some (o, a')) : Ends lib alert verify a o a' := by
  unfold saveConfig at h
  split at h
  · rename_i hactivity
    cases h
    exact .stopped (by decide) fun hr => by simp [hr.1] at hactivity
  · rename_i hactivity
    obtain ⟨stored, hstored, h⟩ := Option.bind_eq_some_iff.1 h
    obtain ⟨edited, hedited, h⟩ := Option.bind_eq_some_iff.1 h
    split at h
    · rename_i hneed
      split at h
      · rename_i outcome hstops
        cases h
        refine .stopped (outcome_of_stops hstops) (not_refused hstored hedited fun _ hnone => ?_)
        rw [hnone] at hstops
        cases hstops
      · rename_i hstops
        exact ends_of_apply (by simpa using hactivity) hstored hedited hneed hstops h
    · rename_i hneed
      have hself := (UserConfig.withNetwork_eq_self_iff hstored stored).2 rfl
      rw [← current_of_not_needApply hneed] at hself
      exact ends_of_close hself.symm (not_refused hstored hedited fun hneed' => absurd hneed' hneed) h

/-- What a call leaves of the settings is all of the edited ones or all of the old ones, exactly if a configuration
that is not accepted finds the old ones in the current network. -/
theorem atomic_iff_kept (lib : ConfigLibrary) (alert verify : Bool) (a : WalletSettingsActivity) {o : Outcome}
    {a' : WalletSettingsActivity} (h : a.saveConfig lib alert verify = some (o, a')) :
    Atomic a o a' ↔ (Refused lib alert verify a → a.Kept) := by
  cases ends_of_saveConfig h with
  | stopped ho hrefused =>
    exact iff_of_true ⟨fun _ _ => rfl, fun he => absurd he ho.2.1, fun he => absurd he ho.2.2⟩
      fun hr => absurd hr hrefused
  | @rejected restored edited tonConfig hrefused hedited hrestored =>
    obtain ⟨stored, -, -, hstored, -⟩ := hrefused.2
    obtain ⟨current, hcurrent, rfl⟩ := restored_eq hrestored
    have hself := UserConfig.withNetwork_eq_self_iff hstored
      { current with walletConfigFromUrl := edited.walletConfigFromUrl }
    constructor
    · intro hatomic _
      have hsettings := hatomic.unchanged (by decide) (by decide)
      exact ⟨stored, current, edited, hstored, hcurrent, hedited, hself.1 (congrArg Settings.config hsettings)⟩
    · intro hkept
      obtain ⟨stored', current', edited', hstored', hcurrent', hedited', he⟩ := hkept hrefused
      rw [hstored] at hstored'
      rw [hcurrent] at hcurrent'
      rw [hedited] at hedited'
      cases hstored'
      cases hcurrent'
      cases hedited'
      refine ⟨fun _ _ => ?_, by simp, by simp⟩
      rw [hself.2 he]
      rfl
  | finished n hn hrefused =>
    exact iff_of_true ⟨by simp, fun _ => ⟨n, hn⟩, by simp⟩ fun hr => absurd hr hrefused
  | loggedOut n hn hrefused =>
    exact iff_of_true ⟨by simp, by simp, fun _ => ⟨n, hn⟩⟩ fun hr => absurd hr hrefused

namespace Sample

/-- A library that has started, and accepts nothing else. -/
def lib : ConfigLibrary where
  init _ := none
  optionsValidateConfig _ := none
  isJSONObject s := decide (s = "\x7b\x7d")

def stored : NetworkConfig where
  walletConfigUrl := "https://ton.org/config-test.json"
  walletBlockchainName := "testnet2"
  walletConfigFromUrl := "config"

def opened : WalletSettingsActivity :=
  create { settings := { config := { test := stored } } }
    { initied := true, keyDirectoty := true, currentSetConfig := some "config",
      currentSetConfigName := some "testnet2" }

/-- Another configuration is typed in. -/
def typed : WalletSettingsActivity :=
  { opened with test := { stored with walletConfigType := 1, walletConfig := "\x7b\x7d" } }

theorem atomic_typed_iff :
    Atomic typed .rejected ((typed.saveConfig lib true true).getD (.rejected, typed)).2 ↔
      (Refused lib true true typed → typed.Kept) :=
  atomic_iff_kept lib true true typed rfl

/-- The network is renamed, and the configuration loaded from its URL. -/
def loaded : WalletSettingsActivity :=
  { opened with test := { stored with walletBlockchainName := "testnet3" } }.setConfigFromUrl "\x7b\x7d"

/-- The refused configuration stays as the one that was loaded from the URL. -/
theorem loaded_not_atomic :
    ¬ ∀ (lib : ConfigLibrary) (alert verify : Bool) (a : WalletSettingsActivity) (o : Outcome)
      (a' : WalletSettingsActivity), a.saveConfig lib alert verify = some (o, a') → Atomic a o a' := by
  intro h
  have hatomic :=
    h lib false false loaded .rejected ((loaded.saveConfig lib false false).getD (.rejected, loaded)).2 rfl
  have hsettings := hatomic.unchanged (by decide) (by decide)
  have hlost : "\x7b\x7d" = "config" := congrArg (fun s => s.config.test.walletConfigFromUrl) hsettings
  revert hlost
  decide

end Sample

end WalletSettingsActivity

end TonWallet.App
