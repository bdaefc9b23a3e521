/-
The address of the wallet and the key it belongs to. An address is asked for while the key is still being
created and is kept when the attempt is given up, so it is that of the stored key in every run in which a
new key finds nothing of an earlier wallet.
-/
import TonWallet.App.TonController

namespace TonWallet.App

open Lib Lib.Entries

/-! ## What the preferences hold of the key and the address -/

namespace UserConfig

variable {prefs : Preferences} {c w : UserConfig}

/-- Two settings with one wallet. -/
structure SameKeys (c d : UserConfig) : Prop where
  encryptedData : d.tonEncryptedData = c.tonEncryptedData
  publicKey : d.tonPublicKey = c.tonPublicKey
  address : d.tonAccountAddress = c.tonAccountAddress

theorem SameKeys.trans {b c d : UserConfig} (h : SameKeys b c) (h' : SameKeys c d) : SameKeys b d :=
  ⟨h'.encryptedData.trans h.encryptedData, h'.publicKey.trans h.publicKey, h'.address.trans h.address⟩

theorem SameKeys.loadPasscode (prefs : Preferences) (w : UserConfig) (salt : String) :
    SameKeys w (loadPasscode prefs w salt) := by
  unfold UserConfig.loadPasscode
  repeat' split
  all_goals exact ⟨rfl, rfl, rfl⟩

theorem SameKeys.loadSalt (prefs : Preferences) (w : UserConfig) (salt : Option String) :
    SameKeys w (salt.elim w (UserConfig.loadPasscode prefs w)) := by
  cases salt with
  | none => exact ⟨rfl, rfl, rfl⟩
  | some salt => exact SameKeys.loadPasscode prefs w salt

theorem SameKeys.increaseBadPasscodeTries (c : UserConfig) (now : Int) : SameKeys c (c.increaseBadPasscodeTries now) := by
  unfold UserConfig.increaseBadPasscodeTries
  dsimp only
  split <;> exact ⟨rfl, rfl, rfl⟩

theorem SameKeys.checkRetryTextView (c : UserConfig) (now : Int) : SameKeys c (c.checkRetryTextView now) := by
  unfold UserConfig.checkRetryTextView
  dsimp only
  split <;> exact ⟨rfl, rfl, rfl⟩

/-- What a new process finds. -/
theorem loadConfig_keys (h : loadConfig prefs = some c) :
    prefs.getString "tonEncryptedData" = some c.tonEncryptedData ∧
    prefs.getString "tonPublicKey" = some c.tonPublicKey ∧
    prefs.getString "tonAccountAddress" = some c.tonAccountAddress := by
  obtain ⟨w, hw, h⟩ := Option.bind_eq_some_iff.1 h
  obtain ⟨_, _, h⟩ := Option.bind_eq_some_iff.1 h
  obtain ⟨_, _, h⟩ := Option.bind_eq_some_iff.1 h
  obtain ⟨_, _, h⟩ := Option.bind_eq_some_iff.1 h
  cases h
  obtain ⟨data, hdata, hw⟩ := Option.bind_eq_some_iff.1 hw
  obtain ⟨key, hkey, hw⟩ := Option.bind_eq_some_iff.1 hw
  obtain ⟨address, haddress, hw⟩ := Option.bind_eq_some_iff.1 hw
  obtain ⟨name, _, hw⟩ := Option.bind_eq_some_iff.1 hw
  obtain ⟨finished, _, hw⟩ := Option.bind_eq_some_iff.1 hw
  obtain ⟨version, _, hw⟩ := Option.bind_eq_some_iff.1 hw
  obtain ⟨salt, _, hw⟩ := Option.bind_eq_some_iff.1 hw
  have hsame := SameKeys.loadSalt prefs
    { tonEncryptedData := data, tonPublicKey := key, tonAccountAddress := address, tonKeyName := name,
      tonCreationFinished := finished, tonWalletVersion := version } salt
  cases hw
  rw [hdata, hkey, haddress]
  exact ⟨congrArg some hsame.encryptedData.symm, congrArg some hsame.publicKey.symm,
    congrArg some hsame.address.symm⟩

end UserConfig

namespace Settings

open UserConfig

/-- What the preferences hold of the wallet in memory: its encrypted data and its key, and its address if it
is known. -/
structure Stored (s : Settings) : Prop where
  encryptedData : s.preferences.getString "tonEncryptedData" = some s.config.tonEncryptedData
  publicKey : s.preferences.getString "tonPublicKey" =
    some (if s.config.tonEncryptedData = none then none else s.config.tonPublicKey)
  address : s.config.tonEncryptedData ≠ none → ∀ a, s.config.tonAccountAddress = some a →
    s.preferences.getString "tonAccountAddress" = some (some a)

/-- A save stores the wallet. -/
theorem stored_saveConfig (c : UserConfig) (prefs : Preferences) (last : UserConfig) :
    Stored ⟨c, c.saveConfig prefs, last⟩ := by
  cases h : c.tonEncryptedData with
  | none =>
    constructor <;>
      simp [h, Preferences.getString, get_saveConfig, networkKeys, saveWallet, removedKeys]
  | some data =>
    constructor
    all_goals
      cases hsalt : c.tonPasscodeSalt <;> cases ha : c.tonAccountAddress <;>
        simp [h, hsalt, ha, Preferences.getString, get_saveConfig, networkKeys, saveWallet, savePasscode, saveAddress]

theorem Stored.step {s s' : Settings} {e : Event} (h : s.Stored) (hs : s.step e = some s') : s'.Stored := by
  unfold Settings.step at hs
  split at hs
  · cases hs
    exact stored_saveConfig _ _ _
  · unfold unsaved at hs
    split at hs
    · cases hs
      exact ⟨h.encryptedData, h.publicKey, h.address⟩
    · cases hs
      have hkeys := SameKeys.increaseBadPasscodeTries s.config
      refine ⟨?_, ?_, ?_⟩
      · rw [(hkeys _).encryptedData]
        exact h.encryptedData
      · rw [(hkeys _).encryptedData, (hkeys _).publicKey]
        exact h.publicKey
      · rw [(hkeys _).encryptedData, (hkeys _).address]
        exact h.address
    · obtain ⟨c, hc, rfl⟩ := Option.map_eq_some_iff.1 hs
      obtain ⟨hdata, hkey, haddress⟩ := loadConfig_keys hc
      refine ⟨hdata, ?_, fun _ a ha => by rw [haddress, ha]⟩
      have hsame : c.tonEncryptedData = s.config.tonEncryptedData := Option.some.inj (hdata.symm.trans h.encryptedData)
      have hk := Option.some.inj (hkey.symm.trans h.publicKey)
      rw [hkey, hk, hsame]
      by_cases hn : s.config.tonEncryptedData = none
      · simp [hn]
      · simp [hn]
    · cases hs

/-- The settings that do not belong to a wallet leave its key and address alone. -/
theorem sameKeys_step {s s' : Settings} {e : Event} (he : TonController.settingsOnly e = true)
    (hs : s.step e = some s') : SameKeys s.config s'.config := by
  cases e with
  | wrongPasscode now later =>
    have hincrease := SameKeys.increaseBadPasscodeTries s.config now
    simp only [Settings.step, saving] at hs
    split at hs
    · next hsaving =>
      split at hsaving
      · cases hsaving
        cases hs
        exact hincrease.trans (SameKeys.checkRetryTextView _ later)
      · cases hsaving
    · cases hs
      exact hincrease
  | checkRetryTextView now =>
    cases hs
    exact SameKeys.checkRetryTextView s.config now
  | goodPasscode | networksChanged test main currentNetworkType =>
    cases hs
    exact ⟨rfl, rfl, rfl⟩
  | _ => cases he

end Settings

/-! ## The key and the address -/

/-- A request to guess an account. -/
def Task.isGuess : Task → Bool
  | .guessAccount _ => true
  | _ => false

namespace TonController

open UserConfig

/-- When the wallet is usable, its address was found by the library for its key. -/
def AddressOfKey (c : TonController) : Prop :=
  c.settings.config.tonCreationFinished = true → ∀ k a, c.settings.config.tonPublicKey = some k →
    c.settings.config.tonAccountAddress = some a → (k, a) ∈ c.obtained

/-- Nothing is left of an earlier wallet: no key, no address, and no account that is still being guessed. -/
def Fresh (c : TonController) : Prop :=
  c.settings.config.tonPublicKey = none ∧ c.settings.config.tonAccountAddress = none ∧
    ∀ t ∈ c.inFlight, t.value.isGuess = false

/-- A new key finds nothing of an earlier wallet, and a new process finds no address of an earlier wallet for
one whose address is not known. -/
def AttemptOk (c : TonController) : Event → Prop
  | .answered i (.newKey _) => (c.inFlight[i]?.any fun t => match t.value with
      | .createKey _ => true
      | _ => false) = true → c.Fresh
  | .restart => c.settings.config.tonEncryptedData ≠ none → c.settings.config.tonAccountAddress = none →
      c.settings.preferences.getString "tonAccountAddress" = some none
  | _ => True

instance (c : TonController) (e : Event) : Decidable (AttemptOk c e) := by
  unfold AttemptOk Fresh
  split <;> infer_instance

/-- The key that is being created, or that is stored. -/
def KeyOf (c : TonController) (k : String) : Prop :=
  c.creating.publicKey = some k ∨ c.settings.config.tonPublicKey = some k

/-- There is one key, the address was found for it, and an account is being guessed for it only. -/
structure OneKey (c : TonController) : Prop where
  stored : c.settings.Stored
  agree : ∀ k k', c.KeyOf k → c.KeyOf k' → k = k'
  address : ∀ k a, c.KeyOf k → c.settings.config.tonAccountAddress = some a → (k, a) ∈ c.obtained
  guess : ∀ t ∈ c.inFlight, ∀ q k, t.value = .guessAccount (some q) → q ≠ "" → c.KeyOf k → q = k

/-- What a function does not touch when it has nothing to do with the key and the address. -/
structure SameWallet (c d : TonController) : Prop where
  keys : SameKeys c.settings.config d.settings.config
  stored : c.settings.Stored → d.settings.Stored
  creating : d.creating.publicKey = c.creating.publicKey
  obtained : d.obtained = c.obtained
  guess : ∀ t ∈ d.inFlight, t.value.isGuess = true → t ∈ c.inFlight

variable {b c d : TonController}

theorem SameWallet.refl (c : TonController) : SameWallet c c :=
  ⟨⟨rfl, rfl, rfl⟩, id, rfl, rfl, fun _ ht _ => ht⟩

theorem SameWallet.trans (h : SameWallet b c) (h' : SameWallet c d) : SameWallet b d :=
  ⟨h.keys.trans h'.keys, fun hs => h'.stored (h.stored hs), h'.creating.trans h.creating,
    h'.obtained.trans h.obtained, fun t ht hg => h.guess t (h'.guess t ht hg) hg⟩

theorem SameButData.sameWallet (h : SameButData c d) : SameWallet c d := by
  refine ⟨?_, ?_, ?_, h.obtained, ?_⟩
  · rw [h.settings]
    exact ⟨rfl, rfl, rfl⟩
  · rw [h.settings]
    exact id
  · rw [h.creating]
  · rw [h.inFlight]
    exact fun _ ht _ => ht

theorem sameWallet_request {task : Task} (h : task.isGuess = false) (c : TonController) :
    SameWallet c (c.request task) := by
  refine ⟨⟨rfl, rfl, rfl⟩, id, rfl, rfl, fun t ht hg => ?_⟩
  rcases List.mem_append.1 ht with ht | ht
  · exact ht
  · rw [List.mem_singleton.1 ht, h] at hg
    cases hg

theorem OneKey.same (h : OneKey c) (hs : SameWallet c d) : OneKey d := by
  have hkey : ∀ k, d.KeyOf k → c.KeyOf k := by
    intro k hk
    unfold KeyOf at hk
    rw [hs.creating, hs.keys.publicKey] at hk
    exact hk
  refine ⟨hs.stored h.stored, ?_, ?_, ?_⟩
  · exact fun k k' hk hk' => h.agree k k' (hkey k hk) (hkey k' hk')
  · intro k a hk ha
    rw [hs.keys.address] at ha
    rw [hs.obtained]
    exact h.address k a (hkey k hk) ha
  · intro t ht q k hq hne hk
    exact h.guess t (hs.guess t ht (by rw [hq]; rfl)) q k hq hne (hkey k hk)

/-! ## Learning the address -/

theorem keyOf_addressKey {k : String} (h : c.addressKey = some k) : c.KeyOf k := by
  unfold addressKey at h
  split at h
  · exact .inr h
  · exact .inl h

theorem found_eq_some {publicKey answer : Option String} {f : String × String}
    (h : found publicKey answer = some f) : publicKey = some f.1 ∧ f.1 ≠ "" := by
  unfold found at h
  split at h
  · cases h
  · next hne =>
    obtain ⟨k, hk, h⟩ := Option.bind_eq_some_iff.1 h
    obtain ⟨a, _, h⟩ := Option.bind_eq_some_iff.1 h
    cases h
    refine ⟨hk, ?_⟩
    rintro rfl
    exact hne (by rw [hk]; rfl)

/-- The address of the one key is learned. -/
theorem OneKey.learnAddress (h : OneKey c) (f : String × String) (hf : ∀ k, c.KeyOf k → f.1 = k) :
    OneKey (c.learnAddress f) := by
  refine ⟨Settings.stored_saveConfig _ _ _, h.agree, ?_, h.guess⟩
  intro k a hk ha
  cases ha
  rw [← hf k hk]
  exact List.mem_cons_self

theorem OneKey.found (h : OneKey c) (address : Option String) :
    OneKey ((found c.addressKey address).elim c fun f => c.learnAddress f) := by
  cases hf : TonController.found c.addressKey address with
  | none => exact h
  | some f => exact h.learnAddress f fun k hk => h.agree f.1 k (keyOf_addressKey (found_eq_some hf).1) hk

theorem OneKey.guessAccount (h : OneKey c) : OneKey (c.request (.guessAccount c.addressKey)) := by
  refine ⟨h.stored, h.agree, h.address, fun t ht q k hq hne hk => ?_⟩
  rcases List.mem_append.1 ht with ht | ht
  · exact h.guess t ht q k hq hne hk
  · rw [List.mem_singleton.1 ht] at hq
    injection hq with hq
    exact h.agree q k (keyOf_addressKey hq) hk

theorem OneKey.getAccountState (h : OneKey c) (isImport : Bool) (callback : StateCallback) (address : Option String) :
    OneKey (c.getAccountState isImport callback address) := by
  have hc : ∀ cbs, OneKey { c with stateCallbacks := cbs } :=
    fun cbs => h.same ⟨⟨rfl, rfl, rfl⟩, id, rfl, rfl, fun _ ht _ => ht⟩
  unfold TonController.getAccountState
  split
  · exact hc _
  · dsimp only
    split
    · split
      · exact (hc [callback]).guessAccount
      · exact ((hc [callback]).found address).same (sameWallet_request rfl _)
    · exact (hc [callback]).same (sameWallet_request rfl _)

/-! ## Polling and answers -/

theorem sameWallet_scheduleShortPoll (c : TonController) : SameWallet c c.scheduleShortPoll := by
  unfold scheduleShortPoll
  split <;> exact ⟨⟨rfl, rfl, rfl⟩, id, rfl, rfl, fun _ ht _ => ht⟩

theorem sameWallet_finishShortPoll (state : Option FullAccountState) (c : TonController) :
    SameWallet c (c.finishShortPoll state) := by
  have hclear : ∀ polling, SameWallet c { c with polling } :=
    fun _ => ⟨⟨rfl, rfl, rfl⟩, id, rfl, rfl, fun _ ht _ => ht⟩
  unfold finishShortPoll
  dsimp only
  split
  · exact (hclear _).trans (sameButData_checkPending _ _).sameWallet
  · exact ((hclear _).trans (sameButData_checkPending _ _).sameWallet).trans (sameWallet_scheduleShortPoll _)

theorem sameWallet_stateCallbacks (callbacks : List StateCallback) (state : Option FullAccountState)
    (c : TonController) : SameWallet c (callbacks.foldl (runStateCallback state) c) := by
  induction callbacks generalizing c with
  | nil => exact .refl c
  | cons callback callbacks ih =>
    refine SameWallet.trans ?_ (ih _)
    cases callback with
    | preload =>
      cases state with
      | none => exact ⟨⟨rfl, rfl, rfl⟩, id, rfl, rfl, fun _ ht _ => ht⟩
      | some state => exact sameWallet_request rfl c
    | shortPoll r oldState =>
      simp only [runStateCallback]
      split
      · exact sameWallet_request rfl c
      · exact sameWallet_finishShortPoll state c
    | ui => exact .refl c

theorem sameWallet_broadcast (state : Option (OfWallet FullAccountState)) (c : TonController) :
    SameWallet c (c.broadcastStateResult state) := by
  have hcache : ∀ data, SameWallet c { c with data, stateCallbacks := [] } :=
    fun _ => ⟨⟨rfl, rfl, rfl⟩, id, rfl, rfl, fun _ ht _ => ht⟩
  exact (hcache _).trans (sameWallet_stateCallbacks _ _ _)

theorem sameWallet_transactionsCallback (callback : Option TransactionsCallback) (c : TonController) :
    SameWallet c (c.runTransactionsCallback callback) := by
  rcases callback with _ | _ | ⟨r, state⟩
  · exact .refl c
  · exact ⟨⟨rfl, rfl, rfl⟩, id, rfl, rfl, fun _ ht _ => ht⟩
  · exact sameWallet_finishShortPoll state c

theorem OneKey.preloadWallet (h : OneKey c) (isImport : Bool) (address : Option String) :
    OneKey (c.preloadWallet isImport address) := by
  unfold TonController.preloadWallet
  split
  · exact h
  · refine OneKey.getAccountState ?_ _ _ _
    exact h.same ⟨⟨rfl, rfl, rfl⟩, id, rfl, rfl, fun _ ht _ => ht⟩

/-- The keys that are saved are the ones that were created. -/
theorem OneKey.saveWalletKeys (h : OneKey c) (finish : Bool) : OneKey (c.saveWalletKeys finish) := by
  cases hd : c.creating.encryptedData with
  | none =>
    simp only [TonController.saveWalletKeys, hd, Option.map_none, Option.elim_none]
    exact ⟨Settings.stored_saveConfig _ _ _, h.agree, h.address, h.guess⟩
  | some data =>
    simp only [TonController.saveWalletKeys, hd, Option.map_some, Option.elim_some]
    refine OneKey.mk (Settings.stored_saveConfig _ _ _) ?_ ?_ ?_
    · rintro k k' (⟨⟨⟩⟩ | hk) (⟨⟨⟩⟩ | hk')
      exact h.agree k k' (.inl hk) (.inl hk')
    · rintro k a (⟨⟨⟩⟩ | hk) ha
      exact h.address k a (.inl hk) ha
    · rintro t ht q k hq hne (⟨⟨⟩⟩ | hk)
      exact h.guess t ht q k hq hne (.inl hk)

/-- A new key that finds nothing of an earlier wallet is the only one. -/
theorem OneKey.newKey (h : OneKey c) (hfresh : c.Fresh) (isImport : Bool) (wallet : Nat) (k : NewKey) :
    OneKey (c.onFinishWalletCreate isImport wallet k) := by
  obtain ⟨hkey, haddress, hguess⟩ := hfresh
  have hnew : ∀ data creating, creating.publicKey = some k.publicKey → OneKey { c with data, creating } := by
    intro data creating hcreating
    refine ⟨h.stored, ?_, ?_, ?_⟩
    · unfold KeyOf
      simp only [hcreating, hkey, reduceCtorEq, or_false]
      exact fun a b ha hb => Option.some.inj (ha.symm.trans hb)
    · intro _ a _ ha
      rw [haddress] at ha
      cases ha
    · intro t ht q _ hq
      have hno := hguess t ht
      rw [hq] at hno
      cases hno
  unfold onFinishWalletCreate
  dsimp only
  have hpre := (hnew (c.setMemInputKey (some ⟨wallet, ⟨some k.publicKey, k.secret, k.password⟩⟩)).data
    { c.creating with publicKey := some k.publicKey } rfl).preloadWallet isImport k.address
  split
  · refine OneKey.saveWalletKeys (hpre.same ?_) isImport
    exact ⟨⟨rfl, rfl, rfl⟩, id, rfl, rfl, fun _ ht _ => ht⟩
  · exact hpre.same ⟨⟨rfl, rfl, rfl⟩, id, rfl, rfl, fun _ ht _ => ht⟩

/-- An answer to a request; a guess is about the one key. -/
theorem OneKey.answer (h : OneKey c) (wallet : Nat) {task : Task} {answer : Answer}
    (hguess : ∀ q k, task = .guessAccount (some q) → q ≠ "" → c.KeyOf k → q = k)
    (hfresh : ∀ key isImport, task = .createKey isImport → answer = .newKey key → c.Fresh) :
    OneKey (c.onAnswer wallet task answer) := by
  cases task with
  | guessAccount publicKey =>
    simp only [onAnswer]
    split
    · next f hf =>
      obtain ⟨rfl, hne⟩ := found_eq_some hf
      refine OneKey.same (h.learnAddress f fun k hk => hguess f.1 k rfl hne hk) ?_
      refine ⟨⟨rfl, rfl, rfl⟩, id, rfl, rfl, fun t ht hg => ?_⟩
      rcases List.mem_append.1 ht with ht | ht
      · exact ht
      · rw [List.mem_singleton.1 ht] at hg
        cases hg
    · exact h.same (sameWallet_broadcast none c)
  | getAccountState address => cases answer <;> exact h.same (sameWallet_broadcast _ c)
  | rawGetTransactions address reload callback =>
    cases answer with
    | transactions ts =>
      exact h.same ((sameButData_onTransactions reload wallet ts c).sameWallet.trans
        (sameWallet_transactionsCallback callback _))
    | _ => exact h.same (sameWallet_transactionsCallback callback c)
  | sendGrams key payment =>
    cases answer with
    | sent now queryInfo => exact h.same (sameButData_onSent _ _ _ c).sameWallet
    | _ => exact h
  | createKey isImport =>
    cases answer with
    | newKey key => exact h.newKey (hfresh key isImport rfl rfl) isImport wallet key
    | _ => exact h

/-! ## Every run -/

/-- A key that is given up leaves the stored one. -/
theorem OneKey.cleanup (h : OneKey c) : OneKey c.cleanup := by
  refine ⟨h.stored, ?_, ?_, ?_⟩
  · rintro k k' (⟨⟨⟩⟩ | hk) (⟨⟨⟩⟩ | hk')
    exact h.agree k k' (.inr hk) (.inr hk')
  · rintro k a (⟨⟨⟩⟩ | hk) ha
    exact h.address k a (.inr hk) ha
  · rintro t ht q k hq hne (⟨⟨⟩⟩ | hk)
    exact h.guess t ht q k hq hne (.inr hk)

theorem OneKey.logout (c : TonController) : OneKey c.logout := by
  refine OneKey.mk (Settings.stored_saveConfig _ _ _) ?_ ?_ ?_
  · rintro k k' (⟨⟨⟩⟩ | ⟨⟨⟩⟩)
  · rintro k a (⟨⟨⟩⟩ | ⟨⟨⟩⟩)
  · rintro t ht q k hq hne (⟨⟨⟩⟩ | ⟨⟨⟩⟩)

/-- A new process finds the stored key and its address. -/
theorem OneKey.restart (h : OneKey c) {c' : TonController} (hs : c.restart = some c')
    (hok : c.settings.config.tonEncryptedData ≠ none → c.settings.config.tonAccountAddress = none →
      c.settings.preferences.getString "tonAccountAddress" = some none) : OneKey c' := by
  obtain ⟨settings, hsettings, rfl⟩ := Option.map_eq_some_iff.1 hs
  have hstored := h.stored.step hsettings
  obtain ⟨config, hload, rfl⟩ := Option.map_eq_some_iff.1 hsettings
  obtain ⟨hdata, hkey, haddress⟩ := loadConfig_keys hload
  have hkey' := Option.some.inj (hkey.symm.trans h.stored.publicKey)
  refine OneKey.mk hstored ?_ ?_ ?_
  · rintro k k' (⟨⟨⟩⟩ | hk) (⟨⟨⟩⟩ | hk')
    exact Option.some.inj (hk.symm.trans hk')
  · rintro k a (⟨⟨⟩⟩ | hk) ha
    simp only at hk ha
    by_cases hn : c.settings.config.tonEncryptedData = none
    · rw [hkey', if_pos hn] at hk
      cases hk
    · rw [hkey', if_neg hn] at hk
      cases hmem : c.settings.config.tonAccountAddress with
      | none =>
        rw [ha, hok hn hmem] at haddress
        cases haddress
      | some b =>
        rw [ha, h.stored.address hn b hmem] at haddress
        cases haddress
        exact h.address k a (.inr hk) hmem
  · rintro t ⟨⟩

theorem OneKey.step {c' : TonController} {e : Event} (h : OneKey c) (hok : AttemptOk c e) (hs : c.step e = some c') :
    OneKey c' := by
  cases e with
  | answered i answer =>
    obtain ⟨task, hi, hs⟩ := Option.bind_eq_some_iff.1 hs
    cases hs
    have hmem := List.mem_of_getElem? hi
    have herase : OneKey { c with inFlight := c.inFlight.eraseIdx i } :=
      h.same ⟨⟨rfl, rfl, rfl⟩, id, rfl, rfl, fun _ ht _ => List.mem_of_mem_eraseIdx ht⟩
    refine herase.answer task.wallet (fun q k hq => h.guess task hmem q k hq) ?_
    rintro key isImport hcreate rfl
    obtain ⟨hk, ha, hg⟩ := hok (by rw [hi]; simp [hcreate])
    exact ⟨hk, ha, fun t ht => hg t (List.mem_of_mem_eraseIdx ht)⟩
  | shortPollDue r =>
    simp only [TonController.step] at hs
    split at hs
    · cases hs
      have hp : ∀ polling, OneKey { c with polling } :=
        fun _ => h.same ⟨⟨rfl, rfl, rfl⟩, id, rfl, rfl, fun _ ht _ => ht⟩
      unfold runShortPolling
      split
      · exact hp _
      · exact OneKey.getAccountState (hp _) _ _ _
    · cases hs
  | createWallet isImport keyName isKeyCreated =>
    cases hs
    have hnamed : ∀ settings : Settings, c.settings.step (.keyNamed keyName) = some settings →
        OneKey { c.cleanup with settings } := by
      intro settings hsettings
      have hstored := h.stored.step hsettings
      cases hsettings
      exact h.cleanup.same ⟨⟨rfl, rfl, rfl⟩, fun _ => hstored, rfl, rfl, fun _ ht _ => ht⟩
    unfold createWallet
    dsimp only
    split
    · exact (hnamed _ rfl).same (sameWallet_request rfl _)
    · exact hnamed _ rfl
  | logout =>
    cases hs
    exact OneKey.logout c
  | saveWalletKeys finish =>
    cases hs
    exact h.saveWalletKeys finish
  | setUserPasscode passcodeType salt encrypted =>
    simp only [TonController.step, setUserPasscode] at hs
    split at hs <;> cases hs
    exact h.same ⟨⟨rfl, rfl, rfl⟩, id, rfl, rfl, fun _ ht _ => ht⟩
  | prepareForPasscodeChange =>
    simp only [TonController.step, prepareForPasscodeChange] at hs
    split at hs <;> cases hs
    refine OneKey.mk h.stored ?_ ?_ ?_
    · rintro k k' (hk | hk) (hk' | hk') <;> exact h.agree k k' (.inr hk) (.inr hk')
    · rintro k a (hk | hk) ha <;> exact h.address k a (.inr hk) ha
    · rintro t ht q k hq hne (hk | hk) <;> exact h.guess t ht q k hq hne (.inr hk)
  | getAccountState isImport address =>
    cases hs
    exact h.getAccountState isImport .ui address
  | getTransactions reload | sendGrams key payment =>
    cases hs
    exact h.same (sameWallet_request rfl c)
  | checkPending state =>
    cases hs
    exact h.same (sameButData_checkPending state c).sameWallet
  | clearPendingCache =>
    cases hs
    exact h.same (sameButData_clearPendingCache c).sameWallet
  | scheduleShortPoll =>
    cases hs
    exact h.same (sameWallet_scheduleShortPoll c)
  | finishSettingUserPasscode | fillMemInputKey decrypted | cancelShortPoll =>
    cases hs
    exact h.same ⟨⟨rfl, rfl, rfl⟩, id, rfl, rfl, fun _ ht _ => ht⟩
  | settings e =>
    simp only [TonController.step] at hs
    split at hs
    · next he =>
      obtain ⟨settings, hsettings, rfl⟩ := Option.map_eq_some_iff.1 hs
      exact h.same ⟨Settings.sameKeys_step he hsettings, fun hst => hst.step hsettings, rfl, rfl, fun _ ht _ => ht⟩
    · cases hs
  | restart => exact h.restart hs hok

theorem OneKey.init : OneKey {} := by
  refine ⟨⟨by decide +kernel, by decide +kernel, by decide +kernel⟩, ?_, ?_, ?_⟩
  · rintro k k' (⟨⟨⟩⟩ | ⟨⟨⟩⟩)
  · rintro k a (⟨⟨⟩⟩ | ⟨⟨⟩⟩)
  · rintro t ⟨⟩

/-- The address of a usable wallet was found for its key: in every run in which a new key finds nothing of an
earlier wallet, and a new process no address of one. -/
theorem addressOfKey_of_run {es : List Event} {c : TonController} (h : Run (Steps.When step AttemptOk) {} es c) :
    c.AddressOfKey := by
  have hone := h.inv (I := OneKey) OneKey.init fun _ _ _ hi hr => hi.step hr.1 hr.2
  intro _ k a hk ha
  exact hone.address k a (.inr hk) ha

namespace Sample

/-- The wallet is deleted and another one made, and the application is opened again. -/
def renewed : List Event :=
  created ++ [.logout, .createWallet false "walletKey2" true,
    .answered 0 (.newKey ⟨"key2", [3], [4], some "address2", true, some "data2"⟩), .saveWalletKeys true, .restart]

/-- The state after it. -/
def afterRenewed : TonController := (exec (fun c e => if AttemptOk c e then c.step e else none) {} renewed).getD {}

theorem addressOfKey_renewed : Run (Steps.When step AttemptOk) {} renewed afterRenewed ∧ afterRenewed.AddressOfKey := by
  have hrun : Run (Steps.When step AttemptOk) {} renewed afterRenewed :=
    Run.of_exec_when (Option.getD_of_ne_none (by decide +kernel) _).symm
  exact ⟨hrun, addressOfKey_of_run hrun⟩

/-- The user leaves the creation of a wallet when its key is there, and creates another one to the end. -/
def abandoned : List Event :=
  [.createWallet false "walletKey1" true, .answered 0 (.newKey newKey), .createWallet false "walletKey2" true,
    .answered 1 (.newKey ⟨"key2", [3], [4], some "address2", true, some "data2"⟩), .saveWalletKeys true]

/-- The second wallet has the address of the first key. -/
theorem not_addressOfKey_abandoned :
    ¬ ∀ (es : List Event) (c : TonController), Run (Steps step) {} es c → c.AddressOfKey := by
  intro h
  have hrun : Run (Steps step) {} abandoned ((exec step {} abandoned).getD {}) :=
    Run.of_exec (Option.getD_of_ne_none (by decide +kernel) _).symm
  have hmem := h _ _ hrun (by decide +kernel) "key2" "address1" (by decide +kernel) (by decide +kernel)
  revert hmem
  decide +kernel

end Sample

end TonController

end TonWallet.App
