/-
The objects of `TonApi` the controller keeps: account states of all kinds, messages and transactions.
Numbers are unbounded here, for nothing is computed with them. A Java reference that the code tests for
null or sets to null is an option; the byte arrays that come from the library are never null.
-/
import Mathlib.Init

namespace TonWallet.App

abbrev Bytes := List UInt8

/-! ## Account states -/

structure RwalletLimit where
  seconds : Int
  value : Int
  deriving DecidableEq, Repr

structure RwalletConfig where
  startAt : Int
  limits : List RwalletLimit
  deriving DecidableEq, Repr

structure PchanConfig where
  alicePublicKey : String
  aliceAddress : Option String
  bobPublicKey : String
  bobAddress : Option String
  initTimeout : Int
  closeTimeout : Int
  channelId : Int
  deriving DecidableEq, Repr

/-- The part `PchanStateInit` and `PchanStateClose` share. -/
structure PchanPromise where
  signedA : Bool
  signedB : Bool
  minA : Int
  minB : Int
  expireAt : Int
  a : Int
  b : Int
  deriving DecidableEq, Repr

inductive PchanState
  | init (p : PchanPromise)
  | close (p : PchanPromise)
  | payout (a b : Int)
  deriving DecidableEq, Repr

inductive AccountState
  | raw (code data frozenHash : Bytes)
  | testWallet (seqno : Int)
  | wallet (seqno : Int)
  | walletV3 (walletId seqno : Int)
  | walletHighloadV1 (walletId seqno : Int)
  | walletHighloadV2 (walletId : Int)
  | testGiver (seqno : Int)
  | dns (walletId : Int)
  | uninited (frozenHash : Bytes)
  | rwallet (walletId seqno unlockedBalance : Int) (config : Option RwalletConfig)
  | pchan (config : Option PchanConfig) (state : Option PchanState) (description : Option String)
  deriving DecidableEq, Repr

structure InternalTransactionId where
  lt : Int
  hash : Bytes
  deriving DecidableEq, Repr

structure TonBlockIdExt where
  workchain : Int
  shard : Int
  seqno : Int
  rootHash : Bytes
  fileHash : Bytes
  deriving DecidableEq, Repr

structure FullAccountState where
  address : Option String
  balance : Int
  lastTransactionId : InternalTransactionId
  blockId : TonBlockIdExt
  syncUtime : Int
  accountState : AccountState
  revision : Int
  deriving DecidableEq, Repr

/-! ## Transactions -/

inductive MsgData
  | raw (body initState : Bytes)
  | text (text : Bytes)
  | decryptedText (text : Bytes)
  | encryptedText (text : Bytes)
  deriving DecidableEq, Repr

structure RawMessage where
  source : Option String
  destination : Option String
  value : Int
  fwdFee : Int
  ihrFee : Int
  createdLt : Int
  bodyHash : Bytes
  msgData : MsgData
  deriving DecidableEq, Repr

structure RawTransaction where
  utime : Int
  data : Bytes
  transactionId : InternalTransactionId
  fee : Int
  storageFee : Int
  otherFee : Int
  inMsg : Option RawMessage
  outMsgs : Option (List RawMessage)
  deriving DecidableEq, Repr

/-- A transaction on its way, as `sendGrams` and `loadCache` build one: no data, no id, no outgoing
messages and no fees, but for `otherFee`, which holds the time until which the message is valid. -/
structure PendingTransaction where
  utime : Int
  source : Option String
  destination : Option String
  value : Int
  bodyHash : Bytes
  msgData : MsgData
  otherFee : Int
  deriving DecidableEq, Repr

/-- `TonApi.QueryInfo`: the parts `sendGrams` reads. -/
structure QueryInfo where
  validUntil : Int
  bodyHash : Bytes
  deriving DecidableEq, Repr

end TonWallet.App
