/-
`GenericCreateSendGrams`: the actor that makes a query out of a `createQuery` request. It asks for the private key, for
the state of the source and for those of the destinations; each answer enters its loop, which goes on when all of them
are there, and then makes the message that the source's type calls for.
-/
import TonWallet.Block.PublicKey
import TonWallet.SmcEnvelope.ManualDns
import TonWallet.SmcEnvelope.WalletInterface
import TonWallet.Tonlib.GuessRevisions
import TonWallet.Tonlib.QueryRegistry
import TonWallet.Tonlib.SimpleEncryption

namespace TonWallet.Tonlib.SendGrams

open Lib TonWallet.Td TonWallet.Vm TonWallet.Block TonWallet.SmcEnvelope

/-! ## Statuses -/

def emptyField (field : String) : Status := ⟨400, "EMPTY_FIELD: Field " ++ field ++ " must not be empty"⟩
def invalidField (field reason : String) : Status :=
  ⟨400, "INVALID_FIELD: Field " ++ field ++ " has invalid value " ++ reason⟩
def invalidPublicKey : Status := ⟨400, "INVALID_PUBLIC_KEY"⟩
def messageTooLong : Status := ⟨400, "MESSAGE_TOO_LONG"⟩
def dangerousTransaction (reason : String) : Status := ⟨400, "DANGEROUS_TRANSACTION: " ++ reason⟩
def messageEncryption (reason : String) : Status := ⟨400, "MESSAGE_ENCRYPTION: " ++ reason⟩
def accountNotInited : Status := ⟨400, "ACCOUNT_NOT_INITED"⟩
def accountTypeUnknown : Status := ⟨400, "ACCOUNT_TYPE_UNKNOWN"⟩
def accountActionUnsupported (action : String) : Status := ⟨400, "ACCOUNT_ACTION_UNSUPPORTED: " ++ action⟩
def internalError : Status := ⟨500, "INTERNAL"⟩
def notEnoughFunds : Status := ⟨500, "NOT_ENOUGH_FUNDS"⟩
def transferToFrozen : Status := ⟨500, "TRANSFER_TO_FROZEN"⟩

/-- Return a status of the wallet library. -/
def failWith {α : Type} (s : Status) : Result α := .error (.status s)

/-- `if (c) return` a status. -/
def refuseIf (c : Prop) [Decidable c] (s : Status) : Result Unit := if c then failWith s else .ok ()

@[simp] theorem refuseIf_ok_iff {c : Prop} [Decidable c] {s : Status} {u : Unit} : refuseIf c s = .ok u ↔ ¬ c := by
  unfold refuseIf failWith
  split <;> simp_all

/-- An optional value, or a status. -/
def orStatus {α : Type} (s : Status) : Option α → Result α
  | some a => .ok a
  | none => failWith s

@[simp] theorem orStatus_ok_iff {α : Type} {s : Status} {o : Option α} {a : α} : orStatus s o = .ok a ↔ o = some a := by
  cases o <;> simp [orStatus, failWith]

/-! ## Accounts -/

/-- `SmartContract::State`. -/
structure SmcState where
  code : Option Cell
  data : Option Cell

/-- `AccountState`, what is read of it here. -/
structure AccountState where
  address : StdAddress
  code : Option Cell := none
  data : Option Cell := none
  state : Option Cell := none
  frozenHash : Bytes := []
  balance : Int64
  genUtime : UInt32 := 0
  walletType : WalletType
  hasNewState : Bool := false

namespace AccountState

def isFrozen (a : AccountState) : Bool := a.frozenHash ≠ []
def getSmcState (a : AccountState) : SmcState := ⟨a.code, a.data⟩
def getNewState (a : AccountState) : Option Cell := if a.hasNewState then a.state else none
def makeNonBounceable (a : AccountState) : AccountState := { a with address := { a.address with bounceable := false } }

/-- `is_wallet`. -/
def isWallet (a : AccountState) : Bool := match a.walletType with
  | .empty | .unknown | .manualDns | .paymentChannel => false
  | _ => true

end AccountState

/-- `get_max_gifts_size` of the wallet of each type. -/
def maxGiftsSize : WalletType → Nat
  | .giver | .simpleWallet => 1
  | .wallet | .walletV3 | .restrictedWallet => 4
  | .highloadWalletV1 | .highloadWalletV2 => 254
  | _ => 0

/-- `Wallet::max_message_size`. -/
def maxMessageSize : Nat := CellString.maxBytes

/-! ## Requests -/

/-- `msg_Data`. -/
inductive MsgData
  | raw (body initState : Bytes)
  | text (text : Bytes)
  | decryptedText (text : Bytes)
  | encryptedText (text : Bytes)

/-- `msg_message`. -/
structure MsgMessage where
  destination : Option (List Char)
  publicKey : List Char
  amount : Int64
  data : MsgData

/-- `pchan_promise`. -/
structure PchanPromise where
  signature : Bytes
  promiseA : Int64
  promiseB : Int64
  channelId : Int64

/-- `pchan_Action`. -/
inductive PchanAction
  | timeout
  | init (incA incB minA minB : Int64)
  | close (extraA extraB : Int64) (promise : Option PchanPromise)

/-- `rwallet_limit`. -/
structure RwalletLimit where
  seconds : Int32
  value : Int64

/-- `rwallet_config`. -/
structure RwalletConfig where
  startAt : Int64
  limits : List (Option RwalletLimit)

/-- `RestrictedWallet::Config`. -/
structure RestrictedConfig where
  startAt : UInt32
  limits : List (Int32 × UInt64)

/-- What the actor calls: the code of contracts, run or looked up, bags of cells, the making of messages, and what is
under the types of the request that it only hands on. -/
class Contracts extends Crypto, Digest where
  InitialAccountState : Type
  DnsRequest : Type
  PchanInfo : Type
  zeroKey : PrivateKey
  stdBocDeserialize : Bytes → Bool → Result (Option Cell)
  guessTypeByInitState : InitialAccountState → AccountState → AccountState
  guessTypeByPublicKey : Bytes → AccountState → AccountState
  guessTypeDefault : Bytes → AccountState → AccountState
  toDnsAction : DnsRequest → Result DnsAction
  /-- What the method `balance` of a restricted wallet answers. -/
  runBalance : SmcState → UInt64 → UInt32 → Result Int64
  walletPublicKey : WalletType → SmcState → Result Bytes
  accountPublicKey : SmcState → Result Bytes
  makeAGiftMessage : WalletType → SmcState → PrivateKey → UInt32 → List Gift → Result Cell
  createExtMessage : StdAddress → Option Cell → Cell → Result Cell
  createInitQuery : SmcState → PrivateKey → UInt32 → Result Cell
  createUpdateQuery : SmcState → PrivateKey → List DnsAction → UInt32 → Result Cell
  pchanGetInfo : SmcState → Result PchanInfo
  pchanIsAlice : PchanInfo → PrivateKey → Bool
  pchanIsBob : PchanInfo → PrivateKey → Bool
  pchanMessage : PchanInfo → (isAlice isBob : Bool) → PrivateKey → PchanAction → Result Cell
  getInitMessage : SmcState → PrivateKey → UInt32 → RestrictedConfig → Result Cell

open Crypto Contracts

section

variable [Contracts]

/-- `Action` of the request; `none`: the field is null. -/
inductive RequestAction
  | noop
  | msg (messages : List (Option MsgMessage)) (allowSendToUninited : Bool)
  | pchan (action : Option PchanAction)
  | rwallet (config : Option (Option RwalletConfig))
  | dns (actions : List (Option DnsRequest))

/-- `InputKey`. -/
inductive InputKey
  | regular (publicKey : Option (List Char))
  | fake

def InputKey.isFake : InputKey → Bool
  | .fake => true
  | .regular _ => false

/-- `createQuery`. -/
structure CreateQuery where
  privateKey : Option InputKey
  address : Option (List Char)
  timeout : Int32
  action : Option RequestAction
  initialAccountState : Option InitialAccountState

/-- `GenericCreateSendGrams::Action`. -/
structure Action where
  destination : StdAddress
  amount : Int64
  isEncrypted : Bool := false
  shouldEncrypt : Bool := false
  message : Bytes := []
  body : Option Cell := none
  initState : Option Cell := none
  publicKey : Option Bytes := none

/-! ## Reading the request -/

variable (memory : Fin 36 → UInt8)

/-- `get_public_key`. -/
def getPublicKeyOf (text : List Char) : Result PublicKey := tryPrefix invalidPublicKey (PublicKey.parse memory text)

/-- The public key of the receiver in `to_action`, if one is given. -/
def receiverKeyOf (text : List Char) : Result (Option Bytes) :=
  if text = [] then return none else do return some (← getPublicKeyOf memory text).key

/-- The message's data in `to_action`. -/
def Action.withData (a : Action) (hasPrivateKey : Bool) : MsgData → Action × Result Unit
  | .raw body initState => match stdBocDeserialize body false with
    | .error f => (a, .error f)
    | .ok body => match stdBocDeserialize initState true with
      | .error f => (a, .error f)
      | .ok initState => ({ a with body, initState }, .ok ())
  | .text text => ({ a with message := text }, .ok ())
  | .decryptedText text =>
    if hasPrivateKey then ({ a with message := text, shouldEncrypt := true, isEncrypted := true }, .ok ())
    else ({ a with message := text }, failWith (emptyField "input_key"))
  | .encryptedText text => ({ a with message := text, isEncrypted := true }, .ok ())

/-- `to_action`. -/
def toAction (hasPrivateKey : Bool) (message : MsgMessage) : Result Action := do
  let text ← orStatus (emptyField "message.destination") message.destination
  let destination ← getAccountAddress memory text
  refuseIf (message.amount < 0) (invalidField "amount" "can't be negative")
  let publicKey ← receiverKeyOf memory message.publicKey
  let (action, status) := Action.withData { destination, amount := message.amount, publicKey } hasPrivateKey message.data
  refuseIf (action.message.length > maxMessageSize) messageTooLong
  status
  return action

/-- What `parse_action` stores. -/
structure ParsedAction where
  allowSendToUninited : Bool := false
  actions : List Action := []
  dnsActions : List DnsAction := []
  pchanAction : Bool := false
  rwalletAction : Bool := false

/-- `parse_action`. -/
def parseAction (hasPrivateKey : Bool) : RequestAction → Result ParsedAction
  | .noop => return {}
  | .msg messages allowSendToUninited => do
    let actions ← messages.mapM fun m => do toAction memory hasPrivateKey (← orStatus (emptyField "message") m)
    return { allowSendToUninited, actions }
  | .pchan _ => return { pchanAction := true }
  | .rwallet _ => return { rwalletAction := true }
  | .dns actions => do
    let dnsActions ← actions.mapM fun a => do toDnsAction (← orStatus (emptyField "action") a)
    return { dnsActions }

/-- `from_tonlib`: the public key of the key that is asked for. -/
def fromTonlib : InputKey → Result Bytes
  | .regular none => failWith (emptyField "key")
  | .regular (some text) => do return (← getPublicKeyOf memory text).key
  | .fake => return List.replicate 32 0

/-! ## The actor -/

/-- The queries that the actor sends. -/
inductive Asked
  | privateKey
  | sourceState
  | destinationState (i : Nat)
  deriving DecidableEq, Repr

/-- The answers that the queries will get, and the random numbers of the encryption of each comment. -/
structure World where
  privateKey : Except Status PrivateKey
  source : Except Status AccountState
  destination : Nat → Except Status AccountState
  random : Nat → Nat → UInt8

/-- The fields of the actor, the queries under way, what the promise was set to, whether the actor has stopped, and
whether an exception or a failed check has ended the process. -/
structure GenericCreateSendGrams where
  query : CreateQuery
  random : Nat → Nat → UInt8
  source : Option AccountState := none
  destinations : List (Option AccountState) := []
  destinationsLeft : Nat := 0
  hasPrivateKey : Bool := false
  isFakeKey : Bool := false
  privateKey : Option PrivateKey := none
  publicKey : Option Bytes := none
  allowSendToUninited : Bool := false
  actions : List Action := []
  dnsActions : List DnsAction := []
  rwalletAction : Bool := false
  inFlight : List Asked := []
  answers : List (Except Status (RawQuery AccountState)) := []
  stopped : Bool := false
  aborted : Bool := false

namespace GenericCreateSendGrams

/-! ## The messages of contracts that are no wallets -/

/-- `valid_until`, until when a query can be sent. -/
def validUntil (g : GenericCreateSendGrams) (source : AccountState) : UInt32 :=
  source.genUtime + if g.query.timeout = 0 then 60 else g.query.timeout.toUInt32

/-- The query for a message body. -/
def rawQuery (source : AccountState) (destinations : List AccountState) (validUntil : UInt32) (messageBody : Cell) :
    Result (RawQuery AccountState) := do
  let newState := source.getNewState
  let message ← createExtMessage source.address newState messageBody
  return { source, destinations, validUntil := validUntil.toNat, message, newState, messageBody }

/-- `do_dns_loop`. -/
def doDnsLoop (g : GenericCreateSendGrams) (source : AccountState) : Result (RawQuery AccountState) := do
  let key ← orStatus (emptyField "private_key") g.privateKey
  let validUntil := g.validUntil source
  let body ← if g.dnsActions = [] then createInitQuery source.getSmcState key validUntil
    else createUpdateQuery source.getSmcState key g.dnsActions validUntil
  rawQuery source g.destinations.reduceOption validUntil body

/-- `do_pchan_loop` of a payment channel's action. -/
def doPchanAction (g : GenericCreateSendGrams) (source : AccountState) (key : PrivateKey) (action : Option PchanAction) :
    Result (RawQuery AccountState) := do
  let action ← orStatus (emptyField "action") action
  let info ← pchanGetInfo source.getSmcState
  let isAlice := pchanIsAlice info key
  let isBob := !isAlice && pchanIsBob info key
  refuseIf (!isAlice && !isBob) (invalidField "private_key" "invalid for this smartcontract")
  let body ← pchanMessage info isAlice isBob key action
  rawQuery source [] (g.validUntil source) body

/-- `do_pchan_loop`; a request that does nothing is not answered. -/
def doPchanLoop (g : GenericCreateSendGrams) (source : AccountState) : Result (Option (RawQuery AccountState)) := do
  let key ← orStatus (emptyField "private_key") g.privateKey
  match g.query.action with
  | some .noop => return none
  | some (.pchan action) => return some (← g.doPchanAction source key action)
  | _ => failWith ⟨0, ""⟩

/-- The configuration in `do_rwallet_action`. -/
def restrictedConfig (config : RwalletConfig) : Result RestrictedConfig := do
  refuseIf (config.startAt < 0 ∨ config.startAt ≥ 4294967296) (invalidField "start_at" "not a uint32")
  let limits ← config.limits.mapM fun limit => do
    let limit ← orStatus (emptyField "limits") limit
    refuseIf (limit.value < 0) (invalidField "value" "not a uint64")
    return (limit.seconds, limit.value.toUInt64)
  return ⟨config.startAt.toUInt64.toUInt32, limits⟩

/-- `do_rwallet_action`. -/
def doRwalletAction (g : GenericCreateSendGrams) (source : AccountState) : Result (RawQuery AccountState) := do
  let key ← orStatus (emptyField "private_key") g.privateKey
  match g.query.action with
  | some (.rwallet init) =>
    let config ← orStatus (emptyField "action") init
    let config ← orStatus (emptyField "config") config
    let config ← restrictedConfig config
    let validUntil := g.validUntil source
    let body ← tryPrefix (TonlibError.internal "Invalid rwalet init query")
      (getInitMessage source.getSmcState key validUntil config)
    rawQuery source g.destinations.reduceOption validUntil body
  | _ => failWith ⟨0, "UNREACHABLE"⟩

/-! ## The messages of wallets -/

/-- The salt of a comment: the address of the source as a text. -/
def salt (source : StdAddress) : List Char := { source with bounceable := true, testnet := false }.rserialize true

/-- The bytes of a text. -/
def textBytes (text : List Char) : Bytes := text.map fun c => UInt8.ofNat c.toNat

/-- A call that may fail without harm. -/
def attempt {α : Type} : Result α → Result (Option α)
  | .ok a => .ok (some a)
  | .error (.status _) => .ok none
  | .error f => .error f

omit [Contracts] in
theorem attempt_of_ok {α : Type} {r : Result α} {a : α} (h : r = .ok a) : attempt r = .ok (some a) := by
  rw [h]
  rfl

/-- The public key that a comment is encrypted to. -/
def receiverKey (action : Action) (destination : AccountState) : Result Bytes := do
  if let some key := action.publicKey then return key
  if destination.isWallet then
    if let some key ← attempt (walletPublicKey destination.walletType destination.getSmcState) then return key
  if let some key ← attempt (accountPublicKey destination.getSmcState) then return key
  failWith (messageEncryption "Get public key (in destination)")

/-- The gift of an action in `do_loop`. -/
def makeGift (g : GenericCreateSendGrams) (source : AccountState) (i : Nat) (action : Action)
    (destination : AccountState) : Result Gift := do
  let gift : Gift := { destination := destination.address, gramms := action.amount }
  match action.body with
  | some body => return { gift with body := some body, initState := action.initState }
  | none =>
    if action.shouldEncrypt then
      let key ← orStatus (emptyField "private_key") g.privateKey
      let publicKey ← receiverKey action destination
      let message ← tryPrefix internalError
        (SimpleEncryptionV2.encryptData (g.random i) action.message publicKey key (textBytes (salt source.address)))
      return { gift with message, isEncrypted := true }
    else return { gift with message := action.message, isEncrypted := action.isEncrypted }

/-- The gifts of the actions, in order. -/
def makeGifts (g : GenericCreateSendGrams) (source : AccountState) : Nat → List (Action × AccountState) → Result (List Gift)
  | _, [] => return []
  | i, (action, destination) :: rest => do
    let gift ← g.makeGift source i action destination
    return gift :: (← g.makeGifts source (i + 1) rest)

/-- The sum of the amounts, in 64 bits. -/
def totalAmount (g : GenericCreateSendGrams) : Int64 := g.actions.foldl (fun amount action => amount + action.amount) 0

/-- `RestrictedWallet::get_balance`. -/
def unlockedBalance (source : AccountState) : Result UInt64 := do
  return (← runBalance source.getSmcState source.balance.toUInt64 source.genUtime).toUInt64

/-- The checks of the amount in `do_loop`. -/
def checkAmount (g : GenericCreateSendGrams) (source : AccountState) : Result Unit := do
  let amount := g.totalAmount
  refuseIf (amount > source.balance) notEnoughFunds
  refuseIf (amount = source.balance) notEnoughFunds
  if source.walletType = .restrictedWallet then
    if let some unlocked ← attempt (unlockedBalance source) then
      refuseIf (amount > unlocked.toInt64) notEnoughFunds

/-- The key that signs, and until when the message is valid. -/
def signingKey (g : GenericCreateSendGrams) (source : AccountState) : Option PrivateKey × UInt32 :=
  if source.walletType = .giver then (some zeroKey, 0) else (g.privateKey, g.validUntil source)

/-- The rest of `do_loop`, of a wallet. -/
def doWalletLoop (g : GenericCreateSendGrams) (source : AccountState) : Result (RawQuery AccountState) := do
  refuseIf (source.walletType = .empty) accountNotInited
  refuseIf (source.walletType = .unknown) accountTypeUnknown
  refuseIf (!source.isWallet) (accountActionUnsupported "wallet action")
  g.checkAmount source
  let gifts ← g.makeGifts source 0 (g.actions.zip g.destinations.reduceOption)
  let key ← orStatus (emptyField "private_key") (g.signingKey source).1
  refuseIf (maxGiftsSize source.walletType < gifts.length) messageTooLong
  let validUntil := (g.signingKey source).2
  let body ← makeAGiftMessage source.walletType source.getSmcState key validUntil gifts
  rawQuery source g.destinations.reduceOption validUntil body

/-! ## The loop -/

/-- `do_loop`, once everything has arrived. -/
def build (g : GenericCreateSendGrams) (source : AccountState) : Result (Option (RawQuery AccountState)) :=
  if source.walletType = .manualDns then some <$> g.doDnsLoop source
  else if source.walletType = .paymentChannel then g.doPchanLoop source
  else if g.rwalletAction && source.walletType = .restrictedWallet then some <$> g.doRwalletAction source
  else some <$> g.doWalletLoop source

/-- `do_loop`; `none`: the promise is not set. -/
def doLoop (g : GenericCreateSendGrams) : Result (Option (RawQuery AccountState)) :=
  match g.source with
  | none => return none
  | some source =>
    if g.destinationsLeft ≠ 0 then return none
    else if g.hasPrivateKey && g.privateKey.isNone then return none
    else g.build source

/-- What a handler returned is checked: the promise is set to a query or to an error, and the actor stops. -/
def check (g : GenericCreateSendGrams) : Result (Option (RawQuery AccountState)) → GenericCreateSendGrams
  | .ok none => g
  | .ok (some q) => { g with answers := g.answers ++ [.ok q], stopped := true }
  | .error (.status s) => { g with answers := g.answers ++ [.error s], stopped := true }
  | .error _ => { g with stopped := true, aborted := true }

/-! ## Starting up -/

/-- The checks of `do_start_up` before any query is sent. -/
def checkFields (query : CreateQuery) : Result (StdAddress × RequestAction) := do
  refuseIf (query.timeout < 0 ∨ query.timeout > 300) (invalidField "timeout" "must be between 0 and 300")
  let address ← orStatus (emptyField "address") query.address
  let action ← orStatus (emptyField "action") query.action
  return (← getAccountAddress memory address, action)

/-- `do_start_up` up to the loop. -/
def doStartUp (query : CreateQuery) (random : Nat → Nat → UInt8) : Result GenericCreateSendGrams := do
  let (_, action) ← checkFields memory query
  let publicKey ← query.privateKey.mapM (fromTonlib memory)
  let parsed ← parseAction memory query.privateKey.isSome action
  return {
    query, random, publicKey
    hasPrivateKey := query.privateKey.isSome
    isFakeKey := query.privateKey.any InputKey.isFake
    allowSendToUninited := parsed.allowSendToUninited
    actions := parsed.actions
    dnsActions := parsed.dnsActions
    rwalletAction := parsed.rwalletAction
    destinations := List.replicate parsed.actions.length none
    destinationsLeft := parsed.actions.length
    inFlight := (if query.privateKey.isSome then [.privateKey] else []) ++ .sourceState ::
      (List.range parsed.actions.length).map .destinationState }

/-- `start_up`; the answer to a query that was sent before a field is refused meets a stopped actor. -/
def startUp (query : CreateQuery) (random : Nat → Nat → UInt8) : GenericCreateSendGrams :=
  match doStartUp memory query random with
  | .error f => check { query, random } (.error f)
  | .ok g => g.check g.doLoop

/-! ## Answers -/

/-- The type of a source that has no code, guessed in `do_on_source_state`. -/
def guessType (g : GenericCreateSendGrams) (source : AccountState) : AccountState :=
  let source := match g.query.initialAccountState with
    | some init => if source.walletType = .empty then guessTypeByInitState init source else source
    | none => source
  match g.publicKey with
  | some key =>
    let source := if source.walletType = .empty then guessTypeByPublicKey key source else source
    if source.walletType = .empty ∧ g.isFakeKey then guessTypeDefault key source else source
  | none => source

/-- The checks of `do_on_destination_state`. -/
def checkDestination (g : GenericCreateSendGrams) (destination : AccountState) : Except Status AccountState :=
  if destination.isFrozen then .error transferToFrozen
  else if destination.walletType = .empty ∧ destination.address.bounceable then
    if g.allowSendToUninited then .ok destination.makeNonBounceable
    else .error (dangerousTransaction "Transfer to uninited wallet")
  else .ok destination

/-- `do_on_private_key`, `do_on_source_state` and `do_on_destination_state`: what is stored before the loop goes on. -/
def store (world : World) (g : GenericCreateSendGrams) : Asked → Result GenericCreateSendGrams
  | .privateKey => do
    let key ← ofStatus world.privateKey
    return { g with privateKey := some key }
  | .sourceState => do
    let source ← ofStatus world.source
    return { g with source := some (g.guessType source) }
  | .destinationState i => do
    let state ← ofStatus (world.destination i)
    Td.check (0 < g.destinationsLeft) "destinations_left_ > 0"
    let destination ← ofStatus (g.checkDestination state)
    return { g with
      destinationsLeft := g.destinationsLeft - 1
      destinations := g.destinations.set i (some destination) }

/-- `on_private_key`, `on_source_state` and `on_destination_state`. -/
def receive (world : World) (g : GenericCreateSendGrams) (asked : Asked) : GenericCreateSendGrams :=
  match g.store world asked with
  | .error f => g.check (.error f)
  | .ok g => g.check g.doLoop

/-- The answer to one of the queries under way arrives; a stopped actor does not look at it. -/
def step (world : World) (g : GenericCreateSendGrams) (asked : Asked) : Option GenericCreateSendGrams :=
  if asked ∈ g.inFlight then
    let g := { g with inFlight := g.inFlight.erase asked }
    some (if g.stopped then g else g.receive world asked)
  else none

end GenericCreateSendGrams

end

end TonWallet.Tonlib.SendGrams
