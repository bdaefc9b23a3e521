/-
What the masterchain knows of the last block of a shard (`block::McShardHash`), as it is unpacked from a `ShardDescr`
and packed into one.
-/
import TonWallet.Block.Header
import TonWallet.Block.Message
import TonWallet.Block.ShardId

namespace TonWallet.Block

open Lib TonWallet.Td TonWallet.Ton TonWallet.Vm TonWallet.Vm.Fetch

/-! ## Currency collections -/

namespace CurrencyCollection

/-- `Grams::as_integer_skip`. -/
def gramsAsIntegerSkip : Fetch Nat := do
  let len ← fetchUint 4
  if len ≠ 0 then
    let first ← prefetchUint 8
    guard (first ≠ 0)
  fetchUint (8 * len)

variable [Digest]

/-- `unpack_special`, exact; a bit that is missing counts as zero. -/
def unpack (csr : CellSlice) : Option CurrencyCollection := unpackExact (do
  let balance ← gramsAsIntegerSkip
  let bit ← fetchUint 1 <|> pure 0
  let extra ← fetchIf (bit == 1) fetchRef
  return (⟨some (some (balance : Int)), extra.map (·.cell)⟩ : CurrencyCollection)) csr

omit [Digest] in
/-- `VarUInteger::store_integer_value` of `Grams`. -/
def storeGramsValue (value : BigInt256) (cb : CellBuilder) : Option CellBuilder :=
  let k := value.bitSize
  if k ≤ 15 * 8 then (cb.storeLongBool ((k + 7) / 8) 4).bind (·.storeInt256Bool value ((k + 7) / 8 * 8)) else none

omit [Digest] in
/-- `store_maybe_ref` and `HashmapE::store_ref`. -/
def storeMaybeRef (arg : Option Cell) (cb : CellBuilder) : Option CellBuilder := match arg with
  | none => cb.storeLongBool 0 1
  | some c => (cb.storeLongBool 1 1).bind (·.storeRefBool (some c))

omit [Digest] in
def storeOrZero (c : CurrencyCollection) (cb : CellBuilder) : Option CellBuilder := match c.grams with
  | some grams => (storeGramsValue grams cb).bind (storeMaybeRef c.extra)
  | none => cb.storeLongBool 0 5

end CurrencyCollection

/-! ## Splits and merges to come -/

inductive FsmState
  | fsmNone
  | fsmSplit
  | fsmMerge
  deriving DecidableEq, Repr

namespace FutureSplitMerge

/-- `get_tag`; the bits that are missing count as zero. -/
def getTag (cs : CellSlice) : Nat :=
  let n := bitsToNat ((cs.bits ++ [false, false]).take 2)
  (List.range (n + 1)).countP (Nat.testBit 13) - 1

def skip : Fetch Unit := fun cs => if getTag cs = 0 then advance 1 cs else advance 66 cs

/-- `unpack_fsm_split` and `unpack_fsm_merge`. -/
def unpackFsm (tag : Nat) : Fetch (UInt32 × UInt32) := do
  fetchTag 2 tag
  let utime ← fetchUint 32
  let interval ← fetchUint 32
  return (UInt32.ofNat utime, UInt32.ofNat interval)

end FutureSplitMerge

/-! ## Shard descriptions -/

/-- The fields of `ShardDescr` before those of the fees. -/
structure ShardDescr where
  seqNo : Nat
  regMcSeqno : Nat
  startLt : Nat
  endLt : Nat
  rootHash : Bits256
  fileHash : Bits256
  beforeSplit : Bool
  beforeMerge : Bool
  wantSplit : Bool
  wantMerge : Bool
  nextCatchainSeqno : Nat
  nextValidatorShard : Nat
  minRefMcSeqno : Nat
  genUtime : Nat
  splitMergeAt : CellSlice

namespace ShardDescr

/-- `get_tag`. -/
def getTag (cs : CellSlice) : Option Nat := (bselect 4 0xc00 cs).map (·.1)

def unpackFields (tag : Nat) : Fetch ShardDescr := do
  fetchTag 4 tag
  let seqNo ← fetchUint 32
  let regMcSeqno ← fetchUint 32
  let startLt ← fetchUint 64
  let endLt ← fetchUint 64
  let rootHash ← fetchHash
  let fileHash ← fetchHash
  let beforeSplit ← fetchBool
  let beforeMerge ← fetchBool
  let wantSplit ← fetchBool
  let wantMerge ← fetchBool
  let _nxCcUpdated ← fetchBool
  fetchTag 3 0
  let nextCatchainSeqno ← fetchUint 32
  let nextValidatorShard ← fetchUint 64
  let minRefMcSeqno ← fetchUint 32
  let genUtime ← fetchUint 32
  let splitMergeAt ← fetchTo FutureSplitMerge.skip
  return {
    seqNo, regMcSeqno, startLt, endLt, rootHash, fileHash, beforeSplit, beforeMerge, wantSplit, wantMerge,
    nextCatchainSeqno, nextValidatorShard, minRefMcSeqno, genUtime, splitMergeAt }

/-- `ShardDescr_aux::unpack`: the fees that were collected and the funds that were created. -/
def unpackAux : Fetch (CellSlice × CellSlice) := do
  let feesCollected ← fetchTo skipCurrencyCollection
  let fundsCreated ← fetchTo skipCurrencyCollection
  return (feesCollected, fundsCreated)

variable [Digest]

/-- `tlb::unpack_exact` of `Record_shard_descr`. -/
def unpackOld (cs : CellSlice) : Option (ShardDescr × CellSlice × CellSlice) := unpackExact (do
  let descr ← unpackFields 11
  let aux ← unpackAux
  return (descr, aux)) cs

/-- `tlb::unpack_exact` of `Record_shard_descr_new`, which has the fees in a cell of their own. -/
def unpackNew (cs : CellSlice) : Result (Option (ShardDescr × CellSlice × CellSlice)) :=
  match (do
    let descr ← unpackFields 10
    let r1 ← fetchRef
    return (descr, r1) : Fetch (ShardDescr × CellRef)) cs with
  | none => .ok none
  | some ((descr, r1), cs) => do
    let some aux ← unpackCell unpackAux r1 | return none
    return if cs.emptyExt then some (descr, aux) else none

end ShardDescr

structure McShardHash where
  blk : BlockIdExt
  startLt : UInt64
  endLt : UInt64
  genUtime : UInt32
  fsmUtime : UInt32 := 0
  fsmInterval : UInt32 := 0
  minRefMcSeqno : UInt32
  regMcSeqno : UInt32
  fsm : FsmState := .fsmNone
  beforeSplit : Bool
  beforeMerge : Bool
  wantSplit : Bool
  wantMerge : Bool
  nextCatchainSeqno : UInt32
  nextValidatorShard : UInt64
  feesCollected : CurrencyCollection
  fundsCreated : CurrencyCollection

namespace McShardHash

/-- The constructor, as `unpack` calls it. -/
def create (descr : ShardDescr) (id : ShardIdFull) (feesCollected fundsCreated : CurrencyCollection) : McShardHash where
  blk := ⟨⟨id.workchain, id.shard, UInt32.ofNat descr.seqNo⟩, descr.rootHash, descr.fileHash⟩
  startLt := UInt64.ofNat descr.startLt
  endLt := UInt64.ofNat descr.endLt
  genUtime := UInt32.ofNat descr.genUtime
  minRefMcSeqno := UInt32.ofNat descr.minRefMcSeqno
  regMcSeqno := UInt32.ofNat descr.regMcSeqno
  beforeSplit := descr.beforeSplit
  beforeMerge := descr.beforeMerge
  wantSplit := descr.wantSplit
  wantMerge := descr.wantMerge
  nextCatchainSeqno := UInt32.ofNat descr.nextCatchainSeqno
  nextValidatorShard := if descr.nextValidatorShard ≠ 0 then UInt64.ofNat descr.nextValidatorShard else id.shard
  feesCollected := feesCollected
  fundsCreated := fundsCreated

/-- The state of the split or merge to come. -/
def withFsm (sh : McShardHash) (cs : CellSlice) : Option McShardHash :=
  match FutureSplitMerge.getTag cs with
  | 0 => some sh
  | 1 => (FutureSplitMerge.unpackFsm 2 cs).map fun r =>
    { sh with fsmUtime := r.1.1, fsmInterval := r.1.2, fsm := .fsmSplit }
  | _ => (FutureSplitMerge.unpackFsm 3 cs).map fun r =>
    { sh with fsmUtime := r.1.1, fsmInterval := r.1.2, fsm := .fsmMerge }

variable [Digest]

def unpack (cs : CellSlice) (id : ShardIdFull) : Result (Option McShardHash) := do
  let some tag := ShardDescr.getTag cs | return none
  let some (descr, fees, funds) ← (if tag = 1 then .ok (ShardDescr.unpackOld cs) else ShardDescr.unpackNew cs)
    | return none
  let some feesCollected := CurrencyCollection.unpack fees | return none
  let some fundsCreated := CurrencyCollection.unpack funds | return none
  return (create descr id feesCollected fundsCreated).withFsm descr.splitMergeAt

omit [Digest] in
/-- What `pack` stores of the split or merge to come. -/
def packFsm (sh : McShardHash) (cb : CellBuilder) : Option CellBuilder :=
  let packTagged (tag : Nat) : Option CellBuilder := do
    let cb ← cb.storeLongBool tag 2
    let cb ← storeUlongRchkBool sh.fsmUtime.toNat 32 cb
    storeUlongRchkBool sh.fsmInterval.toNat 32 cb
  match sh.fsm with
  | .fsmNone => cb.storeLongBool 0 1
  | .fsmSplit => packTagged 2
  | .fsmMerge => packTagged 3

omit [Digest] in
/-- What `pack` stores before the cell of the fees. -/
def packFields (sh : McShardHash) (cb : CellBuilder) : Option CellBuilder := do
  guard sh.blk.isValid
  let cb ← cb.storeLongBool 10 4
  let cb ← cb.storeLongBool sh.blk.id.seqno.toNat 32
  let cb ← cb.storeLongBool sh.regMcSeqno.toNat 32
  let cb ← cb.storeLongBool sh.startLt.toNat 64
  let cb ← cb.storeLongBool sh.endLt.toNat 64
  let cb ← cb.storeLongBool sh.blk.rootHash.toNat 256
  let cb ← cb.storeLongBool sh.blk.fileHash.toNat 256
  let cb ← cb.storeLongBool sh.beforeSplit.toNat 1
  let cb ← cb.storeLongBool sh.beforeMerge.toNat 1
  let cb ← cb.storeLongBool sh.wantSplit.toNat 1
  let cb ← cb.storeLongBool sh.wantMerge.toNat 1
  let cb ← cb.storeLongBool 0 1
  let cb ← cb.storeLongBool 0 3
  let cb ← cb.storeLongBool sh.nextCatchainSeqno.toNat 32
  let cb ← cb.storeLongBool sh.nextValidatorShard.toNat 64
  let cb ← cb.storeLongBool sh.minRefMcSeqno.toNat 32
  let cb ← cb.storeLongBool sh.genUtime.toNat 32
  sh.packFsm cb

/-- `pack`; making the cell of the fees may throw. -/
def pack (sh : McShardHash) (cb : CellBuilder) : Result (Option CellBuilder) :=
  match sh.packFields cb, (sh.feesCollected.storeOrZero {}).bind sh.fundsCreated.storeOrZero with
  | some cb, some cb2 => do return cb.storeRefBool (some (← cb2.finalize))
  | _, _ => .ok none

end McShardHash

end TonWallet.Block
