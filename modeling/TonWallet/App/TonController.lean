/-
`TonController` with what it has asked for and not been answered yet. Requests to the library, the keys
being created and the delayed polls are answered in any order, while the user creates, imports and deletes
wallets; an answer is handled as a whole, for it writes nothing before it runs on the UI thread (but for the
address `GuessAccount` finds). Texts shown to the user and their callbacks are left out.
-/
import TonWallet.App.Controller
import TonWallet.App.UserConfig

namespace TonWallet.App

open Lib

/-! ## State -/

/-- Data and the wallet it is of: the number of `cleanup` calls before it was asked for. -/
structure OfWallet (α : Type) where
  wallet : Nat
  value : α
  deriving DecidableEq, Repr

/-- `TonApi.InputKeyRegular`. -/
structure InputKey where
  publicKey : Option String
  secret : Bytes
  localPassword : Bytes
  deriving DecidableEq, Repr

/-- `Cache`, with the wallet all of its data is of. -/
structure WalletCache where
  accountState : Option (OfWallet FullAccountState) := none
  transactions : List (OfWallet RawTransaction) := []
  pending : List (OfWallet PendingTransaction) := []
  deriving DecidableEq, Repr

/-- What the controller holds of the wallet, and what it has saved of it in `tonCache`. -/
structure WalletData where
  cache : WalletCache := {}
  saved : Option WalletCache := none
  memInputKey : Option (OfWallet InputKey) := none
  deriving DecidableEq, Repr

/-- The `creating...` fields; of `creatingDataForLaterEncrypt` only whether it is there. -/
structure Creating where
  dataForLaterEncrypt : Bool := false
  encryptedData : Option String := none
  publicKey : Option String := none
  passcodeType : Int := 0
  passcodeSalt : Option Bytes := none
  deriving DecidableEq, Repr

/-- The fields of the short polling, and the delayed runnables of the UI thread; every runnable has a number
of its own. -/
structure ShortPolling where
  shortPollingInProgress : Bool := false
  shortPollRunnable : Option Nat := none
  delayed : List Nat := []
  runnables : Nat := 0
  deriving DecidableEq, Repr

/-- `AccountStateCallback`: the preload, a short poll with the state it compares with, or the user interface.
Every poll is known by the runnable it began with. -/
inductive StateCallback
  | preload
  | shortPoll (r : Nat) (oldState : Option FullAccountState)
  | ui
  deriving DecidableEq, Repr

/-- What `getTransactions` runs when it is answered. -/
inductive TransactionsCallback
  | preload
  | shortPoll (r : Nat) (state : Option FullAccountState)
  deriving DecidableEq, Repr

/-- A payment `sendGrams` was asked to make. -/
structure Payment where
  fromWallet : String
  toWallet : String
  amount : Int
  message : Bytes
  deriving DecidableEq, Repr

/-- What has been asked for: requests to the library, and `createWallet` on its own queue. -/
inductive Task
  | guessAccount (publicKey : Option String)
  | getAccountState (address : Option String)
  | rawGetTransactions (address : Option String) (reload : Bool) (callback : Option TransactionsCallback)
  /-- `createQuery` and then `querySend`. -/
  | sendGrams (inputKey : InputKey) (payment : Payment)
  /-- The new key, made from words or imported. -/
  | createKey (isImport : Bool)
  deriving DecidableEq, Repr

structure TonController where
  settings : Settings := {}
  data : WalletData := {}
  creating : Creating := {}
  isPrealodingWallet : Bool := false
  walletLoaded : Bool := false
  stateCallbacks : List StateCallback := []
  polling : ShortPolling := {}
  inFlight : List (OfWallet Task) := []
  /-- The number of `cleanup` calls. -/
  wallet : Nat := 0
  /-- The addresses the library has found, each with the public key it was asked about. -/
  obtained : List (String × String) := []

/-- `TextUtils.isEmpty`. -/
def isEmpty (s : Option String) : Bool := s.getD "" == ""

/-- The cache a new process loads. -/
def WalletCache.restored (k : WalletCache) (tonAccountAddress : Option String) : WalletCache where
  accountState := k.accountState.map fun a => ⟨a.wallet, a.value.restored tonAccountAddress⟩
  transactions := (k.transactions.take 10).map fun t => ⟨t.wallet, t.value.restored⟩
  pending := k.pending.map fun p => ⟨p.wallet, p.value.restored⟩

namespace TonController

/-! ## The data of the wallet -/

/-- `saveCache`: nothing is written while no account state is known. -/
def saveCache (c : TonController) : TonController := match c.data.cache.accountState with
  | none => c
  | some _ => { c with data := { c.data with saved := some c.data.cache } }

def saveIf (changed : Bool) (c : TonController) : TonController := if changed then c.saveCache else c

def setPending (pending : List (OfWallet PendingTransaction)) (c : TonController) : TonController :=
  { c with data := { c.data with cache := { c.data.cache with pending } } }

def setMemInputKey (key : Option (OfWallet InputKey)) (c : TonController) : TonController :=
  { c with data := { c.data with memInputKey := key } }

/-- `checkPendingTransactionsForFailure`. -/
def checkPendingTransactionsForFailure (state : Option FullAccountState) (c : TonController) : TonController :=
  match state with
  | none => c
  | some state =>
    let removed := removeAll (fun p => expired state p.value) c.data.cache.pending
    (c.setPending removed.1).saveIf removed.2

def clearPendingCache (c : TonController) : TonController := (c.setPending []).saveCache

/-! ## Short polling -/

def scheduleShortPoll (c : TonController) : TonController := match c.polling.shortPollRunnable with
  | some _ => c
  | none =>
    let r := c.polling.runnables
    { c with polling :=
      { c.polling with shortPollRunnable := some r, delayed := c.polling.delayed ++ [r], runnables := r + 1 } }

/-- `cancelShortPoll`: the runnable is taken out of the UI thread's queue. -/
def cancelShortPoll (c : TonController) : TonController :=
  { c with polling :=
    { c.polling with
      delayed := match c.polling.shortPollRunnable with
        | some r => c.polling.delayed.filter fun d => decide (d ≠ r)
        | none => c.polling.delayed
      shortPollRunnable := none
      shortPollingInProgress := false } }

/-- The end of a short poll. -/
def finishShortPoll (state : Option FullAccountState) (c : TonController) : TonController :=
  let c := { c with polling := { c.polling with shortPollRunnable := none, shortPollingInProgress := false } }
  let c := c.checkPendingTransactionsForFailure state
  if c.data.cache.pending = [] then c else c.scheduleShortPoll

/-! ## Asking the library -/

/-- A request is of the wallet it is made for. -/
def request (task : Task) (c : TonController) : TonController :=
  { c with inFlight := c.inFlight ++ [⟨c.wallet, task⟩] }

/-- The public key whose address is asked for. -/
def addressKey (c : TonController) : Option String :=
  if isEmpty c.creating.publicKey then c.settings.config.tonPublicKey else c.creating.publicKey

/-- The library found an address for a key; an empty key is an error for it. -/
def found (publicKey answer : Option String) : Option (String × String) :=
  if isEmpty publicKey then none else do some (← publicKey, ← answer)

/-- The address is stored and saved. -/
def learnAddress (found : String × String) (c : TonController) : TonController :=
  { c with
    settings := (c.settings.step (.addressLearned found.2)).getD c.settings
    obtained := found :: c.obtained }

def getAccountStateInternal (c : TonController) : TonController :=
  c.request (.getAccountState c.settings.config.tonAccountAddress)

/-- `getAccountState`; `address` is the library's answer to `GetAccountAddress`. -/
def getAccountState (isImport : Bool) (callback : StateCallback) (address : Option String) (c : TonController) :
    TonController :=
  if c.stateCallbacks ≠ [] then { c with stateCallbacks := c.stateCallbacks ++ [callback] }
  else
    let c := { c with stateCallbacks := [callback] }
    if isEmpty c.settings.config.tonAccountAddress then
      if isImport then c.request (.guessAccount c.addressKey)
      else ((found c.addressKey address).elim c fun f => c.learnAddress f).getAccountStateInternal
    else c.getAccountStateInternal

def getTransactions (reload : Bool) (callback : Option TransactionsCallback) (c : TonController) : TonController :=
  c.request (.rawGetTransactions c.settings.config.tonAccountAddress reload callback)

def preloadWallet (isImport : Bool) (address : Option String) (c : TonController) : TonController :=
  if c.isPrealodingWallet then c
  else { c with isPrealodingWallet := true }.getAccountState isImport .preload address

def runShortPolling (r : Nat) (c : TonController) : TonController :=
  if c.polling.shortPollingInProgress ∨ c.data.cache.pending = [] then c
  else { c with polling := { c.polling with shortPollingInProgress := true } }.getAccountState true
    (.shortPoll r (c.data.cache.accountState.map OfWallet.value)) none

/-! ## Answers -/

/-- The last transaction has changed since the poll started. -/
def needUpdateTransactions (oldState state : Option FullAccountState) : Bool := match oldState, state with
  | _, none => false
  | none, some _ => true
  | some oldState, some state => decide (oldState.lastTransactionId.lt ≠ state.lastTransactionId.lt)

def runStateCallback (state : Option FullAccountState) (c : TonController) : StateCallback → TonController
  | .preload => match state with
    | none => { c with isPrealodingWallet := false }
    | some _ => c.getTransactions true (some .preload)
  | .shortPoll r oldState =>
    if needUpdateTransactions oldState state then c.getTransactions true (some (.shortPoll r state))
    else c.finishShortPoll state
  | .ui => c

/-- `broadcastStateResult` of a state for a wallet, or of null. -/
def broadcastStateResult (state : Option (OfWallet FullAccountState)) (c : TonController) : TonController :=
  let accountState := state.orElse fun _ => c.data.cache.accountState
  let c := { c with data := { c.data with cache := { c.data.cache with accountState } } }
  c.stateCallbacks.foldl (runStateCallback (state.map OfWallet.value)) { c with stateCallbacks := [] }

def runTransactionsCallback (c : TonController) : Option TransactionsCallback → TonController
  | none => c
  | some .preload => { c with isPrealodingWallet := false }
  | some (.shortPoll _ state) => c.finishShortPoll state

/-- The transactions of a wallet have come. -/
def onTransactions (reload : Bool) (wallet : Nat) (transactions : List RawTransaction) (c : TonController) :
    TonController :=
  let removed := removeAll (fun p => confirmed transactions p.value) c.data.cache.pending
  let c := { c with walletLoaded := true }.setPending removed.1
  if reload then
    { c with data :=
      { c.data with cache := { c.data.cache with transactions := transactions.map fun t => ⟨wallet, t⟩ } } }.saveCache
  else c.saveIf removed.2

/-- The query of a payment has been sent. -/
def onSent (wallet : Nat) (inputKey : InputKey) (s : Sent) (c : TonController) : TonController :=
  let c := c.setMemInputKey (some ⟨wallet, inputKey⟩)
  (c.setPending (⟨wallet, s.sendingTransaction⟩ :: c.data.cache.pending)).saveCache

def saveWalletKeys (finish : Bool) (c : TonController) : TonController :=
  let keys := c.creating.encryptedData.map fun data : String =>
    (⟨data, c.creating.publicKey, c.creating.passcodeType, c.creating.passcodeSalt⟩ : UserConfig.CreatedKeys)
  { c with
    settings := (c.settings.step (.saveWalletKeys keys finish)).getD c.settings
    creating := keys.elim c.creating fun _ =>
      { c.creating with encryptedData := none, publicKey := none, passcodeType := -1, passcodeSalt := none } }

/-- What has become of a new key: the key and its password, the library's answer to `GetAccountAddress`, and
the encrypted data when the system's key is protected. -/
structure NewKey where
  publicKey : String
  secret : Bytes
  password : Bytes
  address : Option String
  isProtected : Bool
  encrypted : Option String
  deriving DecidableEq, Repr

/-- `onFinishWalletCreate`. -/
def onFinishWalletCreate (isImport : Bool) (wallet : Nat) (k : NewKey) (c : TonController) : TonController :=
  let c := c.setMemInputKey (some ⟨wallet, ⟨some k.publicKey, k.secret, k.password⟩⟩)
  let c := { c with creating := { c.creating with publicKey := some k.publicKey } }
  let c := c.preloadWallet isImport k.address
  if k.isProtected then { c with creating := { c.creating with encryptedData := k.encrypted } }.saveWalletKeys isImport
  else { c with creating := { c.creating with dataForLaterEncrypt := true } }

inductive Answer
  | error
  | address (address : String)
  | state (state : FullAccountState)
  | transactions (transactions : List RawTransaction)
  | sent (now : Int) (queryInfo : QueryInfo)
  | newKey (key : NewKey)

/-- A request of a wallet is answered; any other answer than the one asked for is an error. -/
def onAnswer (c : TonController) (wallet : Nat) : Task → Answer → TonController
  | .guessAccount publicKey, answer =>
    let address := match answer with
      | .address address => some address
      | _ => none
    match found publicKey address with
    | some f =>
      let c := c.learnAddress f
      { c with inFlight := c.inFlight ++ [⟨wallet, .getAccountState c.settings.config.tonAccountAddress⟩] }
    | none => c.broadcastStateResult none
  | .getAccountState _, .state state => c.broadcastStateResult (some ⟨wallet, state⟩)
  | .getAccountState _, _ => c.broadcastStateResult none
  | .rawGetTransactions _ reload callback, .transactions transactions =>
    (c.onTransactions reload wallet transactions).runTransactionsCallback callback
  | .rawGetTransactions _ _ callback, _ => c.runTransactionsCallback callback
  | .sendGrams inputKey p, .sent now queryInfo =>
    c.onSent wallet inputKey ⟨now, p.fromWallet, p.toWallet, p.amount, p.message, queryInfo⟩
  | .sendGrams _ _, _ => c
  | .createKey isImport, .newKey key => c.onFinishWalletCreate isImport wallet key
  | .createKey _, _ => c

/-! ## Wallets -/

def cleanup (c : TonController) : TonController :=
  { c.cancelShortPoll with
    data := {}
    isPrealodingWallet := false
    creating := { passcodeType := -1 }
    walletLoaded := false
    wallet := c.wallet + 1 }

/-- `createWallet`, up to the request for the key; it ends early when the system has no key for it. -/
def createWallet (isImport : Bool) (keyName : String) (isKeyCreated : Bool) (c : TonController) : TonController :=
  let c := c.cleanup
  let c := { c with settings := (c.settings.step (.keyNamed keyName)).getD c.settings }
  if isKeyCreated then c.request (.createKey isImport) else c

/-- The wallet is deleted by the user or because the system has lost its key. -/
def logout (c : TonController) : TonController :=
  let c := c.cleanup
  { c with settings := (c.settings.step .logout).getD c.settings }

/-- `setUserPasscode`; it fails without data to encrypt. -/
def setUserPasscode (passcodeType : Int) (salt : Bytes) (encrypted : Option String) (c : TonController) :
    Option TonController :=
  if c.creating.dataForLaterEncrypt then
    some { c with creating :=
      { c.creating with passcodeType, passcodeSalt := some salt, encryptedData := encrypted } }
  else none

/-- `prepareForPasscodeChange` with the right passcode. -/
def prepareForPasscodeChange (c : TonController) : Option TonController :=
  if c.settings.config.tonEncryptedData.isSome then
    some { c with creating :=
      { c.creating with dataForLaterEncrypt := true, publicKey := c.settings.config.tonPublicKey } }
  else none

/-- A new process: only what is saved is left. -/
def restart (c : TonController) : Option TonController :=
  (c.settings.step .restart).map fun settings =>
    { settings
      data :=
        { cache := c.data.saved.elim {} fun k => WalletCache.restored k settings.config.tonAccountAddress
          saved := c.data.saved }
      polling := { runnables := c.polling.runnables }
      wallet := c.wallet
      obtained := c.obtained }

/-! ## Events -/

inductive Event
  | answered (i : Nat) (answer : Answer)
  /-- A delayed runnable of the short polling runs. -/
  | shortPollDue (r : Nat)
  | createWallet (isImport : Bool) (keyName : String) (isKeyCreated : Bool)
  | logout
  | saveWalletKeys (finish : Bool)
  | setUserPasscode (passcodeType : Int) (salt : Bytes) (encrypted : Option String)
  | finishSettingUserPasscode
  | prepareForPasscodeChange
  /-- The user interface asks for the state or for transactions. -/
  | getAccountState (isImport : Bool) (address : Option String)
  | getTransactions (reload : Bool)
  | checkPending (state : Option FullAccountState)
  | clearPendingCache
  /-- `fillMemInputKey`: the secret and the password, if they can be decrypted. -/
  | fillMemInputKey (decrypted : Option (Bytes × Bytes))
  | sendGrams (inputKey : InputKey) (payment : Payment)
  | scheduleShortPoll
  | cancelShortPoll
  | settings (e : Settings.Event)
  | restart

/-- The events of the settings that do not belong to a wallet's keys or its address. -/
def settingsOnly : Settings.Event → Bool
  | .wrongPasscode _ _ | .checkRetryTextView _ | .goodPasscode | .networksChanged _ _ _ => true
  | _ => false

def step (c : TonController) : Event → Option TonController
  | .answered i answer => do
    let task ← c.inFlight[i]?
    some ({ c with inFlight := c.inFlight.eraseIdx i }.onAnswer task.wallet task.value answer)
  | .shortPollDue r =>
    if r ∈ c.polling.delayed then
      some ({ c with polling := { c.polling with delayed := c.polling.delayed.erase r } }.runShortPolling r)
    else none
  | .createWallet isImport keyName isKeyCreated => some (c.createWallet isImport keyName isKeyCreated)
  | .logout => some c.logout
  | .saveWalletKeys finish => some (c.saveWalletKeys finish)
  | .setUserPasscode passcodeType salt encrypted => c.setUserPasscode passcodeType salt encrypted
  | .finishSettingUserPasscode => some { c with creating := { c.creating with dataForLaterEncrypt := false } }
  | .prepareForPasscodeChange => c.prepareForPasscodeChange
  | .getAccountState isImport address => some (c.getAccountState isImport .ui address)
  | .getTransactions reload => some (c.getTransactions reload none)
  | .checkPending state => some (c.checkPendingTransactionsForFailure state)
  | .clearPendingCache => some c.clearPendingCache
  | .fillMemInputKey decrypted => some (c.setMemInputKey (decrypted.map fun d =>
      ⟨c.wallet, ⟨c.settings.config.tonPublicKey, d.1, d.2⟩⟩))
  | .sendGrams inputKey payment => some (c.request (.sendGrams inputKey payment))
  | .scheduleShortPoll => some c.scheduleShortPoll
  | .cancelShortPoll => some c.cancelShortPoll
  | .settings e => if settingsOnly e then (c.settings.step e).map fun settings => { c with settings } else none
  | .restart => c.restart

/-! ## What changes only the data -/

/-- The data of the wallet may differ, and whether it is loaded or being preloaded; nothing else does. -/
structure SameButData (c d : TonController) : Prop where
  settings : d.settings = c.settings
  creating : d.creating = c.creating
  stateCallbacks : d.stateCallbacks = c.stateCallbacks
  polling : d.polling = c.polling
  inFlight : d.inFlight = c.inFlight
  wallet : d.wallet = c.wallet
  obtained : d.obtained = c.obtained

namespace SameButData

variable {b c d : TonController}

theorem refl (c : TonController) : SameButData c c := ⟨rfl, rfl, rfl, rfl, rfl, rfl, rfl⟩

theorem trans (h : SameButData b c) (h' : SameButData c d) : SameButData b d :=
  ⟨h'.settings.trans h.settings, h'.creating.trans h.creating, h'.stateCallbacks.trans h.stateCallbacks,
    h'.polling.trans h.polling, h'.inFlight.trans h.inFlight, h'.wallet.trans h.wallet, h'.obtained.trans h.obtained⟩

theorem setPending (pending : List (OfWallet PendingTransaction)) (c : TonController) :
    SameButData c (c.setPending pending) := ⟨rfl, rfl, rfl, rfl, rfl, rfl, rfl⟩

theorem saveCache (h : SameButData c d) : SameButData c d.saveCache := by
  refine h.trans ?_
  unfold TonController.saveCache
  split <;> exact ⟨rfl, rfl, rfl, rfl, rfl, rfl, rfl⟩

theorem saveIf (h : SameButData c d) (changed : Bool) : SameButData c (d.saveIf changed) := by
  unfold TonController.saveIf
  split
  · exact h.saveCache
  · exact h

end SameButData

theorem sameButData_checkPending (state : Option FullAccountState) (c : TonController) :
    SameButData c (c.checkPendingTransactionsForFailure state) := by
  unfold checkPendingTransactionsForFailure
  split
  · exact .refl c
  · exact (SameButData.setPending _ c).saveIf _

theorem sameButData_clearPendingCache (c : TonController) : SameButData c c.clearPendingCache :=
  (SameButData.setPending [] c).saveCache

theorem sameButData_onTransactions (reload : Bool) (wallet : Nat) (transactions : List RawTransaction)
    (c : TonController) : SameButData c (c.onTransactions reload wallet transactions) := by
  unfold onTransactions
  dsimp only
  split
  · exact SameButData.saveCache ⟨rfl, rfl, rfl, rfl, rfl, rfl, rfl⟩
  · refine SameButData.saveIf ?_ _
    exact ⟨rfl, rfl, rfl, rfl, rfl, rfl, rfl⟩

theorem sameButData_onSent (wallet : Nat) (key : InputKey) (s : Sent) (c : TonController) :
    SameButData c (c.onSent wallet key s) := by
  unfold onSent
  dsimp only
  exact SameButData.saveCache ⟨rfl, rfl, rfl, rfl, rfl, rfl, rfl⟩

namespace Sample

/-- A key the library has made; the wallet's address is found at once. -/
def newKey : NewKey := ⟨"key1", [1], [2], some "address1", true, some "data1"⟩

def account : FullAccountState := ⟨some "address1", 100, ⟨7, [1]⟩, ⟨-1, 0, 5, [1], [2]⟩, 20, .uninited [], 0⟩

/-- A wallet protected by the lock screen, with its account state and no transactions. -/
def created : List Event :=
  [.createWallet false "walletKey1" true, .answered 0 (.newKey newKey), .saveWalletKeys true,
    .answered 0 (.state account), .answered 0 (.transactions [])]

def payment : Payment := ⟨"address1", "address2", 5, []⟩

/-- A payment is sent from it. -/
def sent : List Event :=
  created ++ [.sendGrams ⟨some "key1", [1], [2]⟩ payment, .answered 0 (.sent 25 ⟨600, [9]⟩)]

end Sample

end TonController

end TonWallet.App
