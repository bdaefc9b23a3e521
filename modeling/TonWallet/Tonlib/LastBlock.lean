/-
`tonlib::LastBlock`: the actor that keeps the last known masterchain block. Three sub-protocols (the
masterchain info, the check of the initial block, the synchronization forward) share one state, one
list of waiting promises and one network client. The actor is translated handler by handler; around
it stand the queries in flight, the calls it has made to the outside, and the events that drive it.
-/
import TonWallet.Block.ProofChain

namespace TonWallet.Tonlib

open Lib TonWallet.Td TonWallet.Ton TonWallet.Block

/-! ## Data -/

inductive QueryState
  | empty
  | active
  | done
  deriving DecidableEq, Repr

structure LastBlockState where
  zeroStateId : ZeroStateIdExt
  lastKeyBlockId : BlockIdExt
  lastBlockId : BlockIdExt
  utime : Int
  initBlockId : BlockIdExt
  vertSeqno : Int
  deriving DecidableEq, Repr

/-- The parts of the network configuration the actor reads. -/
structure Config where
  zeroStateId : BlockIdExt
  initBlockId : BlockIdExt
  deriving DecidableEq, Repr

inductive SyncType
  | invalid
  | inProgress
  | done
  deriving DecidableEq, Repr

structure LastBlockSyncState where
  type : SyncType := .invalid
  fromSeqno : Int32 := 0
  toSeqno : Int32 := 0
  currentSeqno : Int32 := 0
  deriving DecidableEq, Repr

/-- `liteServer.masterchainInfo`: the parts that are read. -/
structure MasterchainInfo where
  last : BlockIdExt
  init : ZeroStateIdExt

/-! ## Queries -/

inductive QueryKind
  | mcInfo
  | checkInit
  | lastBlock
  deriving DecidableEq, Repr

/-- A query sent to the lite server. -/
inductive Query
  | getMasterchainInfo
  /-- `getBlockProof` without a target. -/
  | getBlockProof (known : BlockIdExt)
  /-- `getBlockProof` with a target, sent by the check of the initial block. -/
  | getBlockProofTo (known target : BlockIdExt)
  deriving DecidableEq, Repr

def Query.kind : Query → QueryKind
  | .getMasterchainInfo => .mcInfo
  | .getBlockProof _ => .lastBlock
  | .getBlockProofTo _ _ => .checkInit

/-- A call the actor makes: its callback, or the answer to a promise. -/
inductive Output
  | stateChanged (state : LastBlockState)
  | syncStateChanged (state : LastBlockSyncState)
  | answered (promise : Nat) (result : Except Status LastBlockState)

/-- The state an output gives away. -/
def Output.state? : Output → Option LastBlockState
  | .stateChanged s => some s
  | .answered _ (.ok s) => some s
  | _ => none

/-- One check of the initial block: its ends and the validated links received since it started. -/
structure InitCheck where
  start : BlockIdExt
  target : BlockIdExt
  path : List BlockProofLink

/-- What the cancellation token says while an event is handled: before each link of a chain, and when
an error is passed on. -/
structure Token where
  links : Nat → Bool := fun _ => false
  cancelled : Bool := false

/-! ## The actor -/

/-- The fields of `LastBlock`, the promises by number, and what surrounds the actor. -/
structure LastBlock where
  state : LastBlockState
  fatalError : Option Status := none
  getMcInfoState : QueryState := .empty
  checkInitBlockState : QueryState := .empty
  getLastBlockState : QueryState := .empty
  minSeqno : UInt32 := 0
  currentSeqno : UInt32 := 0
  maxSeqno : UInt32 := 0
  syncState : LastBlockSyncState := {}
  promises : List Nat := []
  closed : Bool := false
  /-- Queries sent and not answered yet. -/
  inFlight : List Query := []
  /-- How many promises there were so far. -/
  issued : Nat := 0
  /-- The calls made so far, each with the value `check_init_block_state_` had. -/
  out : List (Output × QueryState) := []
  /-- The check of the initial block started last. -/
  initCheck : Option InitCheck := none
  /-- The check that made `check_init_block_state_` done by `on_init_block_proof`. -/
  initChecked : Option InitCheck := none

namespace LastBlock

/-- The constructor, for the state `TonlibClient` has cached. -/
def create (config : Config) (cached : LastBlockState) : LastBlock :=
  let minSeqno : UInt32 := if cached.lastKeyBlockId.isValid then cached.lastKeyBlockId.seqno else 0
  let minSeqno := if config.initBlockId.isValid ∧ config.initBlockId ≠ cached.initBlockId
    then min minSeqno config.initBlockId.seqno else minSeqno
  { state := { cached with lastBlockId := cached.lastKeyBlockId }, minSeqno, currentSeqno := minSeqno }

def emit (o : Output) (lb : LastBlock) : LastBlock := { lb with out := lb.out ++ [(o, lb.checkInitBlockState)] }

/-- `client_.send_query`. -/
def send (q : Query) (lb : LastBlock) : LastBlock := { lb with inFlight := lb.inFlight ++ [q] }

/-- Answer every waiting promise and clear the list. -/
def answerAll (r : Except Status LastBlockState) (lb : LastBlock) : LastBlock :=
  { lb with promises := [], out := lb.out ++ lb.promises.map fun p => (.answered p r, lb.checkInitBlockState) }

def onSyncOk (lb : LastBlock) : LastBlock := lb.answerAll (.ok lb.state)

def onSyncError (token : Token) (status : Status) (lb : LastBlock) : LastBlock :=
  lb.answerAll (.error (if token.cancelled then TonlibError.cancelled else status))

def onFatalError (token : Token) (status : Status) (lb : LastBlock) : LastBlock :=
  onSyncError token status { lb with fatalError := some status }

def hasFatalError (lb : LastBlock) : Bool := lb.fatalError.isSome

/-! ### Updates of the state -/

def updateZeroState (token : Token) (zeroStateId : ZeroStateIdExt) (source : String) (lb : LastBlock) : LastBlock :=
  if lb.hasFatalError then lb
  else if !zeroStateId.isValid then lb
  else if !lb.state.zeroStateId.isValid then { lb with state := { lb.state with zeroStateId } }
  else if lb.state.zeroStateId = zeroStateId then lb
  else lb.onFatalError token (TonlibError.validateZeroState ("Masterchain zerostate mismatch: expected: " ++
    lb.state.zeroStateId.toStr ++ ", found " ++ zeroStateId.toStr ++ " from " ++ source))

/-- Whether a block id replaces a known one: anything does while there is none, else only a higher one. -/
def replaces (new old : BlockIdExt) : Bool := new.isValid && (!old.isValid || decide (old.seqno < new.seqno))

/-- `update_mc_last_block`, with whether it changed the state. -/
def updateMcLastBlock (mcBlockId : BlockIdExt) (lb : LastBlock) : LastBlock × Bool :=
  if !lb.hasFatalError && replaces mcBlockId lb.state.lastBlockId
  then ({ lb with state := { lb.state with lastBlockId := mcBlockId } }, true) else (lb, false)

/-- `update_mc_last_key_block`, with whether it changed the state. -/
def updateMcLastKeyBlock (mcKeyBlockId : BlockIdExt) (lb : LastBlock) : LastBlock × Bool :=
  if !lb.hasFatalError && replaces mcKeyBlockId lb.state.lastKeyBlockId
  then ({ lb with state := { lb.state with lastKeyBlockId := mcKeyBlockId } }, true) else (lb, false)

/-- `update_init_block`, with whether it changed the state. -/
def updateInitBlock (initBlockId : BlockIdExt) (lb : LastBlock) : LastBlock × Bool :=
  if !lb.hasFatalError && initBlockId.isValid && decide (lb.state.initBlockId ≠ initBlockId)
  then ({ lb with state := { lb.state with initBlockId } }, true) else (lb, false)

def updateUtime (utime : Int) (lb : LastBlock) : LastBlock :=
  if lb.state.utime < utime then { lb with state := { lb.state with utime } } else lb

def saveState (lb : LastBlock) : LastBlock :=
  if lb.checkInitBlockState ≠ .done then lb else lb.emit (.stateChanged lb.state)

/-- `if (is_changed) save_state()`. -/
def saveIf (isChanged : Bool) (lb : LastBlock) : LastBlock := if isChanged then lb.saveState else lb

def updateSeqnos (seqno : UInt32) (lb : LastBlock) : LastBlock :=
  let currentSeqno := max lb.currentSeqno seqno
  { lb with currentSeqno, maxSeqno := max lb.maxSeqno currentSeqno }

def updateKeyBlock (chain : BlockProofChain) (lb : LastBlock) : LastBlock × Bool :=
  if chain.hasKeyBlock then lb.updateMcLastKeyBlock chain.keyBlkid else (lb, false)

def updateChainUtime (chain : BlockProofChain) (lb : LastBlock) : LastBlock :=
  if chain.hasUtime then lb.updateUtime chain.lastUtime else lb

/-- `update_state`: the last block, the key block and the time of a validated chain. -/
def updateState (chain : BlockProofChain) (lb : LastBlock) : LastBlock :=
  let last := lb.updateMcLastBlock chain.toBlk
  let key := (last.1.updateSeqnos chain.toBlk.seqno).updateKeyBlock chain
  (key.1.updateChainUtime chain).saveIf (last.2 || key.2)

/-! ### Sending -/

def doGetLastBlock (lb : LastBlock) : LastBlock := lb.send (.getBlockProof lb.state.lastKeyBlockId)

def doCheckInitBlock (known target : BlockIdExt) (lb : LastBlock) : LastBlock := lb.send (.getBlockProofTo known target)

/-- The start of the masterchain info query in `sync_loop`. -/
def startMcInfo (lb : LastBlock) : LastBlock :=
  if lb.getMcInfoState = .empty then { lb with getMcInfoState := .active }.send .getMasterchainInfo else lb

/-- The start of a check between two blocks, from the older one. -/
def startInitCheck (start target : BlockIdExt) (lb : LastBlock) : LastBlock :=
  { lb with checkInitBlockState := .active, initCheck := some ⟨start, target, []⟩ }.doCheckInitBlock start target

/-- The start of the check of the initial block in `sync_loop`. -/
def startCheckInit (config : Config) (lb : LastBlock) : LastBlock :=
  if lb.checkInitBlockState = .empty then
    if !config.initBlockId.isValid then { lb with checkInitBlockState := .done }
    else if config.initBlockId = lb.state.initBlockId then { lb with checkInitBlockState := .done }
    else if config.initBlockId.seqno ≤ lb.state.lastKeyBlockId.seqno then
      lb.startInitCheck config.initBlockId lb.state.lastKeyBlockId
    else lb.startInitCheck lb.state.lastKeyBlockId config.initBlockId
  else lb

/-- The start of the synchronization forward in `sync_loop`. -/
def startGetLastBlock (lb : LastBlock) : LastBlock :=
  if lb.getLastBlockState = .empty ∧ lb.checkInitBlockState = .done then
    { lb with getLastBlockState := .active }.doGetLastBlock
  else lb

/-! ### The loop -/

def getSyncState (lb : LastBlock) : LastBlockSyncState :=
  if lb.promises.isEmpty then { type := .done }
  else ⟨.inProgress, lb.minSeqno.toInt32, lb.maxSeqno.toInt32, lb.currentSeqno.toInt32⟩

def updateSyncState (lb : LastBlock) : LastBlock :=
  if lb.getSyncState = lb.syncState then lb
  else { lb with syncState := lb.getSyncState }.emit (.syncStateChanged lb.getSyncState)

/-- The end of `sync_loop`: when everything is done, everyone is answered. -/
def finishSync (lb : LastBlock) : LastBlock :=
  if lb.getMcInfoState = .done ∧ lb.getLastBlockState = .done ∧ lb.checkInitBlockState = .done
  then lb.onSyncOk else lb

/-- The zero state id of the configuration. -/
def configZeroState (config : Config) : ZeroStateIdExt :=
  ⟨config.zeroStateId.id.workchain, config.zeroStateId.rootHash, config.zeroStateId.fileHash⟩

/-- The zero state ids `sync_loop` compares: the cached one and the configured one. -/
def updateZeroStates (config : Config) (token : Token) (lb : LastBlock) : LastBlock :=
  (lb.updateZeroState token lb.state.zeroStateId "cache").updateZeroState token (configZeroState config) "config"

/-- The three starts of `sync_loop`, one after the other. -/
def startAll (config : Config) (lb : LastBlock) : LastBlock := (lb.startMcInfo.startCheckInit config).startGetLastBlock

/-- `sync_loop`; a fatal error found in it does not keep it from sending. -/
def syncLoop (config : Config) (token : Token) (lb : LastBlock) : LastBlock :=
  if lb.promises.isEmpty then lb.updateSyncState
  else (((lb.updateZeroStates config token).startAll config).finishSync).updateSyncState

/-! ### Handlers -/

/-- A new promise gets the next number. -/
def issue (lb : LastBlock) : LastBlock := { lb with issued := lb.issued + 1 }

/-- The first of new waiting promises starts the synchronization forward anew. -/
def resetGetLastBlock (lb : LastBlock) : LastBlock :=
  if lb.promises.isEmpty ∧ lb.getLastBlockState = .done then { lb with getLastBlockState := .empty } else lb

def pushPromise (promise : Nat) (lb : LastBlock) : LastBlock := { lb with promises := lb.promises ++ [promise] }

def getLastBlock (config : Config) (token : Token) (lb : LastBlock) : LastBlock :=
  match lb.fatalError with
  | some status => lb.issue.emit (.answered lb.issued (.error status))
  | none => (lb.issue.resetGetLastBlock.pushPromise lb.issued).syncLoop config token

section

variable [McConfig]

/-- Both functions `process_block_proof`: deserialize and validate a chain that starts at the block asked for. -/
def processBlockProof (token : Token) (known : BlockIdExt) (r : Except Status PartialBlockProof) :
    Result BlockProofChain := do
  let blockProof ← ofStatus r
  tryPrefix TonlibError.validateBlockProof (tryVm (do
    let chain ← deserializeProofChain blockProof
    failIf (chain.fromBlk ≠ known)
      ("block proof chain starts from block " ++ chain.fromBlk.toStr ++ ", not from requested block " ++ known.toStr)
    chain.validate token.links))

/-- `none`: a failed `CHECK` has ended the process. -/
def onBlockProof (config : Config) (token : Token) (known : BlockIdExt) (r : Except Status PartialBlockProof)
    (lb : LastBlock) : Option LastBlock :=
  match processBlockProof token known r with
  | .error (.status s) =>
    some ({ lb with getLastBlockState := .empty }.onSyncError token
      (s.withSuffix "(during last block synchronization)"))
  | .error _ => none
  | .ok chain =>
    let lb := lb.updateState chain
    let lb := if chain.complete then { lb with getLastBlockState := .done } else lb.doGetLastBlock
    some (lb.syncLoop config token)

/-- The end of a check by a chain that says it is complete. -/
def finishInitCheck (config : Config) (lb : LastBlock) : LastBlock :=
  let init := { lb with checkInitBlockState := .done, initChecked := lb.initCheck }.updateInitBlock config.initBlockId
  init.1.saveIf init.2

/-- The links of a validated chain join those the check has received so far. -/
def recordLinks (chain : BlockProofChain) (lb : LastBlock) : LastBlock :=
  { lb with initCheck := lb.initCheck.map fun c => { c with path := c.path ++ chain.links } }

/-- `none`: a failed `CHECK` has ended the process. -/
def onInitBlockProof (config : Config) (token : Token) (known target : BlockIdExt)
    (r : Except Status PartialBlockProof) (lb : LastBlock) : Option LastBlock :=
  match processBlockProof token known r with
  | .error (.status s) =>
    some (({ lb with checkInitBlockState := .empty }.onSyncError token
      (s.withSuffix "(during check init block)")).syncLoop config token)
  | .error _ => none
  | .ok chain =>
    let lb := (lb.recordLinks chain).updateState chain
    let lb := if chain.complete then lb.finishInitCheck config else lb.doCheckInitBlock chain.toBlk target
    some (lb.syncLoop config token)

end

def onMasterchainInfo (config : Config) (token : Token) (r : Except Status MasterchainInfo) (lb : LastBlock) :
    LastBlock :=
  match r with
  | .ok info =>
    let lb := lb.updateZeroState token info.init "masterchain info"
    syncLoop config token { lb with getMcInfoState := .done, maxSeqno := max lb.maxSeqno info.last.seqno }
  | .error status => ({ lb with getMcInfoState := .empty }.onSyncError token status).syncLoop config token

def tearDown (token : Token) (lb : LastBlock) : LastBlock :=
  { lb.onSyncError token TonlibError.cancelled with closed := true }

/-! ## Steps -/

/-- What can happen to the actor: a call, the answer to a query in flight, or its end. -/
inductive Event
  | getLastBlock
  | masterchainInfo (r : Except Status MasterchainInfo)
  | blockProof (known : BlockIdExt) (r : Except Status PartialBlockProof)
  | initBlockProof (known target : BlockIdExt) (r : Except Status PartialBlockProof)
  | tearDown

/-- The query an event answers. -/
def Event.query : Event → Option Query
  | .masterchainInfo _ => some .getMasterchainInfo
  | .blockProof known _ => some (.getBlockProof known)
  | .initBlockProof known target _ => some (.getBlockProofTo known target)
  | _ => none

/-- The handler of an event, once the query it answers is no longer in flight. -/
def handle [McConfig] (config : Config) (lb : LastBlock) (e : Event) (token : Token) : Option LastBlock :=
  match e with
  | .getLastBlock => some (lb.getLastBlock config token)
  | .masterchainInfo r => some (lb.onMasterchainInfo config token r)
  | .blockProof known r => lb.onBlockProof config token known r
  | .initBlockProof known target r => lb.onInitBlockProof config token known target r
  | .tearDown => some (lb.tearDown token)

/-- An answered query is no longer in flight. -/
def receive (q : Query) (lb : LastBlock) : LastBlock := { lb with inFlight := lb.inFlight.erase q }

/-- One event. Only queries in flight are answered, each once, and a closed actor gets no events. -/
def step [McConfig] (config : Config) (lb : LastBlock) (e : Event × Token) : Option LastBlock :=
  if lb.closed then none
  else match e.1.query with
    | none => lb.handle config e.1 e.2
    | some q => if q ∈ lb.inFlight then (lb.receive q).handle config e.1 e.2 else none

end LastBlock

end TonWallet.Tonlib
