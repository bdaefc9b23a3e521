/-
`TonController.saveCache` and `loadCache`: the account state, the first ten transactions and the pending
transactions, written field by field under string keys and read back by hand. Everything comes back, but
for what is not written and the deadlines of the pending transactions, which are written and not read.
-/
import TonWallet.App.Preferences

namespace TonWallet.App

open Lib Lib.Entries

/-- What the controller caches. -/
structure Cache where
  accountState : Option FullAccountState := none
  transactions : List RawTransaction := []
  pending : List PendingTransaction := []
  deriving DecidableEq, Repr

/-! ## Saving -/

/-- The entries of `msgData`: its type, and those of the three byte arrays it has. -/
def saveMsgData : MsgData → Preferences
  | .raw body initState =>
    [("msgDataType", .int 0), ("msgData.body", .bytes body), ("msgData.initState", .bytes initState)]
  | .text text => [("msgDataType", .int 1), ("msgData.text", .bytes text)]
  | .decryptedText text => [("msgDataType", .int 2), ("msgData.text", .bytes text)]
  | .encryptedText text => [("msgDataType", .int 3), ("msgData.text", .bytes text)]

/-- The entries of a message, incoming or outgoing; `putString` of null puts nothing. -/
def saveMessage (m : RawMessage) : Preferences :=
  opt "source" (m.source.map .string) ++ opt "destination" (m.destination.map .string) ++
    [("value", .long m.value), ("fwdFee", .long m.fwdFee), ("ihrFee", .long m.ihrFee),
      ("createdLt", .long m.createdLt), ("bodyHash", .bytes m.bodyHash)] ++ saveMsgData m.msgData

def saveInMsg : Option RawMessage → Preferences
  | none => []
  | some m => under "inMsg." (saveMessage m)

def saveOutMsgs : Option (List RawMessage) → Preferences
  | none => []
  | some ms => ("outMsgCount", .int ms.length) :: indexed "outMsg" (ms.map saveMessage)

def saveTransaction (t : RawTransaction) : Preferences :=
  saveInMsg t.inMsg ++ saveOutMsgs t.outMsgs ++
    [("utime", .long t.utime), ("data", .bytes t.data), ("lt", .long t.transactionId.lt),
      ("hash", .bytes t.transactionId.hash), ("fee", .long t.fee), ("storageFee", .long t.storageFee),
      ("otherFee", .long t.otherFee)]

def savePending (p : PendingTransaction) : Preferences :=
  opt "inMsg.source" (p.source.map .string) ++ opt "inMsg.destination" (p.destination.map .string) ++
    [("inMsg.value", .long p.value), ("inMsg.bodyHash", .bytes p.bodyHash), ("utime", .long p.utime),
      ("validUntil", .long p.otherFee)] ++ saveMsgData p.msgData

/-- The local variables `saveCache` fills in for the kind of the account state. -/
structure AccountFields where
  accountStateType : Int
  seqno : Int := 0
  walletId : Int := 0
  unlockedBalance : Int := 0
  frozenHash : Option Bytes := none
  data : Option Bytes := none
  code : Option Bytes := none

def AccountState.fields : AccountState → AccountFields
  | .raw code data frozenHash =>
    { accountStateType := 0, code := some code, data := some data, frozenHash := some frozenHash }
  | .testWallet seqno => { accountStateType := 1, seqno }
  | .wallet seqno => { accountStateType := 2, seqno }
  | .walletV3 walletId seqno => { accountStateType := 3, walletId, seqno }
  | .walletHighloadV1 walletId seqno => { accountStateType := 4, walletId, seqno }
  | .walletHighloadV2 walletId => { accountStateType := 5, walletId }
  | .testGiver seqno => { accountStateType := 6, seqno }
  | .dns walletId => { accountStateType := 7, walletId }
  | .uninited frozenHash => { accountStateType := 8, frozenHash := some frozenHash }
  | .rwallet walletId seqno unlockedBalance _ => { accountStateType := 9, walletId, seqno, unlockedBalance }
  | .pchan _ _ _ => { accountStateType := 10 }

def saveFields (f : AccountFields) : Preferences :=
  [("accountStateType", .int f.accountStateType), ("accountstate.seqno", .int f.seqno),
    ("accountstate.walletId", .long f.walletId), ("accountstate.unlockedBalance", .long f.unlockedBalance)] ++
    opt "accountstate.frozenHash" (f.frozenHash.map .bytes) ++ opt "accountstate.data" (f.data.map .bytes) ++
    opt "accountstate.code" (f.code.map .bytes)

def saveAccount (a : FullAccountState) : Preferences :=
  [("state.balance", .long a.balance), ("transaction.lt", .long a.lastTransactionId.lt),
    ("transaction.hash", .bytes a.lastTransactionId.hash), ("syncUtime", .long a.syncUtime),
    ("revision", .int a.revision), ("tonblock.workchain", .int a.blockId.workchain),
    ("tonblock.shard", .long a.blockId.shard), ("tonblock.seqno", .int a.blockId.seqno),
    ("tonblock.rootHash", .bytes a.blockId.rootHash), ("tonblock.fileHash", .bytes a.blockId.fileHash)] ++
    saveFields a.accountState.fields

/-- The entries put after `clear()`. -/
def saveEntries (account : FullAccountState) (transactions : List RawTransaction)
    (pending : List PendingTransaction) : Preferences :=
  saveAccount account ++ [("transactionsCount", .int (min 10 transactions.length : Nat))] ++
    indexed "transaction" ((transactions.take 10).map saveTransaction) ++ [("pendingCount", .int pending.length)] ++
    indexed "pending" (pending.map savePending) ++ [("hasCache", .boolean true)]

/-- `saveCache`: nothing is written while no account state is known. -/
def saveCache (prefs : Preferences) (c : Cache) : Preferences := match c.accountState with
  | none => prefs
  | some account => saveEntries account c.transactions c.pending

/-! ## Loading -/

section

variable (prefs : Preferences)

/-- The data of a message, by its type. -/
def loadMsgDataOf (key : String) (msgDataType : Int) : Option MsgData :=
  if msgDataType = 0 then do
    return .raw (← prefs.getBytes (key ++ "msgData.body")) (← prefs.getBytes (key ++ "msgData.initState"))
  else if msgDataType = 1 then do return .text (← prefs.getBytes (key ++ "msgData.text"))
  else if msgDataType = 2 then do return .decryptedText (← prefs.getBytes (key ++ "msgData.text"))
  else do return .encryptedText (← prefs.getBytes (key ++ "msgData.text"))

def loadMsgData (key : String) : Option MsgData := do
  loadMsgDataOf prefs key (← prefs.getInt (key ++ "msgDataType") 0)

def loadMessage (key : String) : Option RawMessage := do
  let msgData ← loadMsgData prefs key
  return {
    source := ← prefs.getString (key ++ "source")
    destination := ← prefs.getString (key ++ "destination")
    value := ← prefs.getLong (key ++ "value") 0
    fwdFee := ← prefs.getLong (key ++ "fwdFee") 0
    ihrFee := ← prefs.getLong (key ++ "ihrFee") 0
    createdLt := ← prefs.getLong (key ++ "createdLt") 0
    bodyHash := ← prefs.getBytes (key ++ "bodyHash")
    msgData }

/-- A message that has a source. -/
def loadInMsg (key : String) : Option (Option RawMessage) :=
  if prefs.contains (key ++ "source") then do return some (← loadMessage prefs key) else some none

/-- `new RawMessage[count]` throws when `count` is negative. -/
def loadMessages (key : String) (count : Int) : Option (List RawMessage) :=
  if count < 0 then none else (List.range count.toNat).mapM fun b => loadMessage prefs (numbered key b)

def loadOutMsgs (key : String) : Option (Option (List RawMessage)) :=
  if prefs.contains (key ++ "outMsgCount") then do
    return some (← loadMessages prefs (key ++ "outMsg") (← prefs.getInt (key ++ "outMsgCount") 0))
  else some none

def loadTransaction (key : String) : Option RawTransaction := do
  let inMsg ← loadInMsg prefs (key ++ "inMsg.")
  let outMsgs ← loadOutMsgs prefs key
  return {
    utime := ← prefs.getLong (key ++ "utime") 0
    data := ← prefs.getBytes (key ++ "data")
    transactionId := ⟨← prefs.getLong (key ++ "lt") 0, ← prefs.getBytes (key ++ "hash")⟩
    fee := ← prefs.getLong (key ++ "fee") 0
    storageFee := ← prefs.getLong (key ++ "storageFee") 0
    otherFee := ← prefs.getLong (key ++ "otherFee") 0
    inMsg
    outMsgs }

/-- A pending transaction. Its `validUntil` is not read. -/
def loadPending (key : String) : Option PendingTransaction := do
  let msgData ← loadMsgData prefs key
  return {
    source := ← prefs.getString (key ++ "inMsg.source")
    destination := ← prefs.getString (key ++ "inMsg.destination")
    value := ← prefs.getLong (key ++ "inMsg.value") 0
    bodyHash := ← prefs.getBytes (key ++ "inMsg.bodyHash")
    utime := ← prefs.getLong (key ++ "utime") 0
    otherFee := 0
    msgData }

/-- The account state, by its type. -/
def loadAccountStateOf (accountStateType : Int) : Option AccountState :=
  let frozenHash := prefs.getBytes "accountstate.frozenHash"
  let seqno := prefs.getInt "accountstate.seqno" 0
  let walletId := prefs.getLong "accountstate.walletId" 0
  if accountStateType = 0 then do
    return .raw (← prefs.getBytes "accountstate.code") (← prefs.getBytes "accountstate.data") (← frozenHash)
  else if accountStateType = 1 then do return .testWallet (← seqno)
  else if accountStateType = 2 then do return .wallet (← seqno)
  else if accountStateType = 3 then do return .walletV3 (← walletId) (← seqno)
  else if accountStateType = 4 then do return .walletHighloadV1 (← walletId) (← seqno)
  else if accountStateType = 5 then do return .walletHighloadV2 (← walletId)
  else if accountStateType = 6 then do return .testGiver (← seqno)
  else if accountStateType = 7 then do return .dns (← walletId)
  else if accountStateType = 8 then do return .uninited (← frozenHash)
  else if accountStateType = 9 then do
    return .rwallet (← walletId) (← seqno) (← prefs.getLong "accountstate.unlockedBalance" 0) none
  else some (.pchan none none none)

/-- The account state, with the address of the user's configuration. -/
def loadAccount (tonAccountAddress : Option String) : Option FullAccountState := do
  let accountState ← loadAccountStateOf prefs (← prefs.getInt "accountStateType" 0)
  return {
    address := tonAccountAddress
    balance := ← prefs.getLong "state.balance" 0
    lastTransactionId := ⟨← prefs.getLong "transaction.lt" 0, ← prefs.getBytes "transaction.hash"⟩
    blockId := ⟨← prefs.getInt "tonblock.workchain" 0, ← prefs.getLong "tonblock.shard" 0,
      ← prefs.getInt "tonblock.seqno" 0, ← prefs.getBytes "tonblock.rootHash", ← prefs.getBytes "tonblock.fileHash"⟩
    syncUtime := ← prefs.getLong "syncUtime" 0
    accountState
    revision := ← prefs.getInt "revision" 0 }

def loadTransactions : Option (List RawTransaction) := do
  let count ← prefs.getInt "transactionsCount" 0
  (List.range count.toNat).mapM fun a => loadTransaction prefs (numbered "transaction" a)

/-- The loop over the pending transactions, with whether it came to its end: those read before an exception
stay in the list. -/
def loadPendings : Nat → Nat → List PendingTransaction × Bool
  | 0, _ => ([], true)
  | n + 1, a => match loadPending prefs (numbered "pending" a) with
    | none => ([], false)
    | some p => (p :: (loadPendings n (a + 1)).1, (loadPendings n (a + 1)).2)

/-- The account state and the transactions, read first. -/
def loadKnown (tonAccountAddress : Option String) : Option (FullAccountState × List RawTransaction) := do
  return (← loadAccount prefs tonAccountAddress, ← loadTransactions prefs)

/-- `loadCache` of a new controller; an exception clears the account state and the transactions. -/
def loadCache (tonAccountAddress : Option String) : Cache :=
  if prefs.getBoolean "hasCache" false = some true then
    match loadKnown prefs tonAccountAddress, prefs.getInt "pendingCount" 0 with
    | some (account, transactions), some count =>
      let (pending, done) := loadPendings prefs count.toNat 0
      if done then ⟨some account, transactions, pending⟩ else { pending }
    | _, _ => {}
  else {}

end

end TonWallet.App
