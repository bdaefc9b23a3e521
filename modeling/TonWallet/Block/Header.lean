/-
Block headers (`block-auto`, `block-parse`, `block/block.cpp`): the records unpacked from the root of
a block and from its info cell, and the checks that a (virtualized) block root is the header of a
given block id. What a passed check says about the root and the declared state is proven at the end
of each check: the root hashes to the id, and the state hash is read from the header.
-/
import TonWallet.Vm.CellSlice

namespace TonWallet.Block

open Lib TonWallet.Td TonWallet.Ton TonWallet.Vm TonWallet.Vm.Fetch

variable [Digest]

/-! ## Records -/

/-- `block::gen::ExtBlkRef::Record`. -/
structure ExtBlkRef where
  endLt : Nat
  seqNo : Nat
  rootHash : Bits256
  fileHash : Bits256

def ExtBlkRef.unpack : Fetch ExtBlkRef := do
  let endLt ← fetchUint 64
  let seqNo ← fetchUint 32
  let rootHash ← fetchHash
  let fileHash ← fetchHash
  return { endLt, seqNo, rootHash, fileHash }

/-- `block::gen::Block::Record`. -/
structure BlockRecord where
  globalId : Int
  info : CellRef
  valueFlow : CellRef
  stateUpdate : CellRef
  extra : CellRef

def BlockRecord.unpack : Fetch BlockRecord := do
  fetchTag 32 0x11ef55aa
  let globalId ← fetchInt 32
  let info ← fetchRef
  let valueFlow ← fetchRef
  let stateUpdate ← fetchRef
  let extra ← fetchRef
  return { globalId, info, valueFlow, stateUpdate, extra }

/-- `block::gen::BlockInfo::Record`. -/
structure BlockInfo where
  version : Nat
  notMaster : Bool
  afterMerge : Bool
  beforeSplit : Bool
  afterSplit : Bool
  wantSplit : Bool
  wantMerge : Bool
  keyBlock : Bool
  vertSeqnoIncr : Bool
  flags : Nat
  seqNo : Nat
  vertSeqNo : Nat
  shard : CellSlice
  genUtime : Nat
  startLt : Nat
  endLt : Nat
  genValidatorListHashShort : Nat
  genCatchainSeqno : Nat
  minRefMcSeqno : Nat
  prevKeyBlockSeqno : Nat
  genSoftware : Option CellSlice
  masterRef : Option CellRef
  prevRef : CellRef
  prevVertRef : Option CellRef

/-- A field that is there only when a flag says so. -/
def fetchIf {α : Type} (c : Bool) (f : Fetch α) : Fetch (Option α) :=
  if c then some <$> f else pure none

def BlockInfo.unpack : Fetch BlockInfo := do
  fetchTag 32 0x9bc7a987
  let version ← fetchUint 32
  let notMaster ← fetchBool
  let afterMerge ← fetchBool
  let beforeSplit ← fetchBool
  let afterSplit ← fetchBool
  let wantSplit ← fetchBool
  let wantMerge ← fetchBool
  let keyBlock ← fetchBool
  let vertSeqnoIncr ← fetchBool
  let flags ← fetchUintInt 8
  guard (flags ≤ 1)
  let seqNo ← fetchUintInt 32
  let vertSeqNo ← fetchUintInt 32
  guard (vertSeqnoIncr.toNat ≤ vertSeqNo)
  guard (1 ≤ seqNo)
  let shard ← fetchSubslice 104
  let genUtime ← fetchUint 32
  let startLt ← fetchUint 64
  let endLt ← fetchUint 64
  let genValidatorListHashShort ← fetchUint 32
  let genCatchainSeqno ← fetchUint 32
  let minRefMcSeqno ← fetchUint 32
  let prevKeyBlockSeqno ← fetchUint 32
  let genSoftware ← fetchIf (flags == 1) (fetchSubslice 104)
  let masterRef ← fetchIf notMaster fetchRef
  let prevRef ← fetchRef
  let prevVertRef ← fetchIf vertSeqnoIncr fetchRef
  return {
    version, notMaster, afterMerge, beforeSplit, afterSplit, wantSplit, wantMerge, keyBlock, vertSeqnoIncr, flags,
    seqNo, vertSeqNo, shard, genUtime, startLt, endLt, genValidatorListHashShort, genCatchainSeqno, minRefMcSeqno,
    prevKeyBlockSeqno, genSoftware, masterRef, prevRef, prevVertRef }

/-- `block::tlb::ShardIdent::unpack`. -/
def ShardIdent.unpack : Fetch ShardIdFull := do
  fetchTag 2 0
  let bits ← fetchUintLeq 60
  let pow2 := 2 ^ (63 - bits)
  let workchain := Int32.ofInt (← fetchInt 32)
  let shard ← fetchUint 64
  guard (workchain ≠ workchainInvalid)
  guard (shard % (2 * pow2) = 0)
  return ⟨workchain, UInt64.ofNat (shard + pow2)⟩

/-! ## Shard arithmetic (`ton/ton-shard.h`) -/

def lowerBit64 (x : UInt64) : UInt64 := x &&& (~~~x + 1)

def shardParent (shard : UInt64) : Result UInt64 :=
  let x := lowerBit64 shard
  if x = 0 then .error (.check "x") else .ok ((shard - x) ||| (x <<< 1))

def shardChild (shard : UInt64) (left : Bool) : Result UInt64 :=
  let x := lowerBit64 shard >>> 1
  if x = 0 then .error (.check "x") else .ok (if left then shard - x else shard + x)

/-! ## The parts of a header -/

/-- Unpack a block root, its info and its shard, as both header checks begin. -/
def unpackHeader (root : CellRef) : Result (Option (BlockRecord × BlockInfo × ShardIdFull)) := do
  let some blk ← unpackCell BlockRecord.unpack root | return none
  let some info ← unpackCell BlockInfo.unpack blk.info | return none
  if info.version ≠ 0 then return none
  let some (shard, _) := ShardIdent.unpack info.shard | return none
  return some (blk, info, shard)

/-- The new state hash a header declares: the second reference of its Merkle update. -/
def stateUpdateHash (blk : BlockRecord) : Result Bits256 := do
  let cs ← loadNoVmSpec blk.stateUpdate
  failIf (!(cs.isSpecial && cs.prefetchEq 8 4 && cs.sizeExt == 0x20228))
    "invalid Merkle update in block header"
  match cs.prefetchRef 1 with
  | some r => return r.getHash 0
  | none => .error (.check "deferencing null Ref")

/-- The state hash, when the caller gave a place to store it. -/
def storedStateHash (store : Bool) (blk : BlockRecord) : Result (Option Bits256) :=
  if store then some <$> stateUpdateHash blk else pure none

theorem storedStateHash_ok {blk : BlockRecord} {r : Option Bits256} (h : storedStateHash true blk = .ok r) :
    ∃ stateHash, r = some stateHash ∧ stateUpdateHash blk = .ok stateHash := by
  unfold storedStateHash at h
  rw [if_pos rfl] at h
  rcases hs : stateUpdateHash blk with e | sh
  · rw [hs] at h; cases h
  · rw [hs] at h; cases h; exact ⟨sh, rfl, rfl⟩

/-- A block root whose header declares `stateHash` as the hash of the state after the block. -/
def DeclaresState (root : CellRef) (stateHash : Bits256) : Prop :=
  ∃ blk, unpackCell BlockRecord.unpack root = .ok (some blk) ∧ stateUpdateHash blk = .ok stateHash

/-! ## `check_block_header` -/

/-- `block::check_block_header`; the state hash is returned when it was asked for. -/
def checkBlockHeader (root : CellRef) (id : BlockIdExt) (storeShardHash : Bool) : Result (Option Bits256) := do
  let (blk, info, shard) ← orFail (unpackHeader root) "cannot unpack block header"
  let hdrId : BlockId := ⟨shard.workchain, shard.shard, UInt32.ofNat info.seqNo⟩
  failIf (id.id ≠ hdrId)
    ("block header contains block id " ++ hdrId.toStr ++ ", expected " ++ id.id.toStr)
  failIf (id.rootHash ≠ root.reprHash)
    ("block header has incorrect root hash " ++ hashHex root.reprHash ++ " instead of expected " ++
      hashHex id.rootHash)
  failIf (info.notMaster ≠ !shard.isMasterchain)
    "block has invalid not_master flag in its (Merkelized) header"
  storedStateHash storeShardHash blk

theorem unpackHeader_ok {root : CellRef} {blk : BlockRecord} {info : BlockInfo} {shard : ShardIdFull}
    (h : unpackHeader root = .ok (some (blk, info, shard))) :
    unpackCell BlockRecord.unpack root = .ok (some blk) ∧ unpackCell BlockInfo.unpack blk.info = .ok (some info) := by
  obtain ⟨b, hb, h⟩ := bind_ok h
  split at h
  · obtain ⟨i, hi, h⟩ := bind_ok h
    split at h
    · split at h
      · cases h
      · split at h <;> cases h
        exact ⟨hb, hi⟩
    · cases h
  · cases h

/-- A passed header check: the root hashes to the id, and an asked for state hash is the declared one. -/
theorem checkBlockHeader_ok {root : CellRef} {id : BlockIdExt} {store : Bool} {r : Option Bits256}
    (h : checkBlockHeader root id store = .ok r) :
    root.reprHash = id.rootHash ∧ (store = true → ∃ stateHash, r = some stateHash ∧ DeclaresState root stateHash) := by
  obtain ⟨⟨blk, info, shard⟩, hu, h⟩ := bind_ok h
  obtain ⟨hblk, -⟩ := unpackHeader_ok (orFail_ok_iff.1 hu)
  obtain ⟨-, -, h⟩ := bind_ok h
  obtain ⟨_, hroot, h⟩ := bind_ok h
  obtain ⟨-, -, h⟩ := bind_ok h
  refine ⟨(not_not.1 (failIf_ok_iff.1 hroot)).symm, fun hs => ?_⟩
  obtain ⟨stateHash, hr, hsh⟩ := storedStateHash_ok (hs ▸ h)
  exact ⟨stateHash, hr, blk, hblk, hsh⟩

/-! ## `unpack_block_prev_blk` -/

/-- What `unpack_block_prev_blk_ext` stores: the previous blocks, the masterchain block referred to,
and whether the block is the first after a split. -/
structure PrevBlk where
  prev : List BlockIdExt
  mcBlkid : BlockIdExt
  afterSplit : Bool

/-- `block::unpack_block_prev_blk_ext` without a `fetch_blkid`. -/
def unpackBlockPrevBlkExt (root : CellRef) (id : BlockIdExt) : Result PrevBlk := do
  let (_, info, shard) ← orFail (unpackHeader root) "cannot unpack block header"
  let mcref ← match info.masterRef with
    | none => pure none
    | some r => some <$> orFail (unpackCell ExtBlkRef.unpack r) "cannot unpack block header"
  let hdrId : BlockId := ⟨shard.workchain, shard.shard, UInt32.ofNat info.seqNo⟩
  failIf (id.id ≠ hdrId)
    ("block header contains block id " ++ hdrId.toStr ++ ", expected " ++ id.id.toStr)
  failIf (id.rootHash ≠ root.reprHash)
    ("block header has incorrect root hash " ++ hashHex root.reprHash ++ " instead of expected " ++
      hashHex id.rootHash)
  failIf (info.notMaster ≠ !shard.isMasterchain)
    "block has invalid not_master flag in its (Merkelized) header"
  let blockOf (shardId : UInt64) (r : ExtBlkRef) : BlockIdExt :=
    ⟨⟨shard.workchain, shardId, UInt32.ofNat r.seqNo⟩, r.rootHash, r.fileHash⟩
  let (prev, prevSeqno) ← if info.afterMerge then do
      let cs ← loadCellSlice info.prevRef
      check (cs.sizeExt = 0x20000) "cs.size_ext() == 0x20000"
      let unpackRef (i : Nat) : Result (Option ExtBlkRef) := match cs.prefetchRef i with
        | some r => unpackCell ExtBlkRef.unpack r
        | none => .error (.check "deferencing null Ref")
      let prev1 ← orFail (unpackRef 0) "cannot unpack two previous block references from block header"
      let prev2 ← orFail (unpackRef 1) "cannot unpack two previous block references from block header"
      failIf info.afterSplit "shardchains cannot be simultaneously split and merged at the same block"
      let left ← shardChild shard.shard true
      let right ← shardChild shard.shard false
      failIf (prev1.seqNo = 0 ∨ prev2.seqNo = 0)
        "shardchains cannot be merged immediately after initial state"
      pure ([blockOf left prev1, blockOf right prev2], max prev1.seqNo prev2.seqNo)
    else do
      let prev1 ← orFail (unpackCell ExtBlkRef.unpack info.prevRef)
        "cannot unpack previous block reference from block header"
      let prevShard ← if info.afterSplit then shardParent shard.shard else pure shard.shard
      failIf (info.afterSplit ∧ prev1.seqNo = 0)
        "shardchains cannot be split immediately after initial state"
      pure ([blockOf prevShard prev1], prev1.seqNo)
  failIf (id.id.seqno ≠ UInt32.ofNat prevSeqno + 1)
    "new block has invalid seqno (not equal to one plus maximum of seqnos of its ancestors)"
  let mcBlkid := if shard.isMasterchain then prev.headD BlockIdExt.none else match mcref with
    | some r => ⟨⟨masterchainId, shardIdAll, UInt32.ofNat r.seqNo⟩, r.rootHash, r.fileHash⟩
    | none => BlockIdExt.none
  failIf (shard.isMasterchain ∧ info.vertSeqnoIncr ∧ !info.keyBlock)
    "non-key masterchain block cannot have vert_seqno_incr set"
  return ⟨prev, mcBlkid, info.afterSplit⟩

/-- `block::unpack_block_prev_blk_try`: the exceptions of the virtual machine become statuses. -/
def unpackBlockPrevBlkTry (root : CellRef) (id : BlockIdExt) : Result PrevBlk :=
  catchVm "error while processing Merkle proof: " "error while processing Merkle proof: " (unpackBlockPrevBlkExt root id)

/-! ## `check_block_header_proof` -/

/-- What `check_block_header_proof` stores. -/
structure HeaderProof where
  stateHash : Option Bits256
  genUtime : Nat
  endLt : Nat

/-- `block::check_block_header_proof`, storing the state hash (`storeStateHash`) without comparing it. -/
def checkBlockHeaderProof (root : CellRef) (blkid : BlockIdExt) (storeStateHash : Bool) : Result HeaderProof := do
  let vhash := root.reprHash
  failIf (vhash ≠ blkid.rootHash)
    (" block header for block " ++ blkid.toStr ++ " has incorrect root hash " ++ hashHex vhash ++
      " instead of " ++ hashHex blkid.rootHash)
  let _ ← unpackBlockPrevBlkTry root blkid
  let blk ← orFail (unpackCell BlockRecord.unpack root) ("cannot unpack header for block " ++ blkid.toStr)
  let info ← orFail (unpackCell BlockInfo.unpack blk.info) ("cannot unpack header for block " ++ blkid.toStr)
  let stateHash ← storedStateHash storeStateHash blk
  return ⟨stateHash, info.genUtime, info.endLt⟩

/-- A passed header proof check: the root hashes to the id, and a stored state hash is the declared one. -/
theorem checkBlockHeaderProof_ok {root : CellRef} {blkid : BlockIdExt} {store : Bool} {r : HeaderProof}
    (h : checkBlockHeaderProof root blkid store = .ok r) :
    root.reprHash = blkid.rootHash ∧
      (store = true → ∃ stateHash, r.stateHash = some stateHash ∧ DeclaresState root stateHash) := by
  obtain ⟨_, hroot, h⟩ := bind_ok h
  obtain ⟨-, -, h⟩ := bind_ok h
  obtain ⟨blk, hblk, h⟩ := bind_ok h
  obtain ⟨info, -, h⟩ := bind_ok h
  obtain ⟨sh, hsh, h⟩ := bind_ok h
  refine ⟨not_not.1 (failIf_ok_iff.1 hroot), fun hs => ?_⟩
  obtain ⟨stateHash, hr, hst⟩ := storedStateHash_ok (hs ▸ hsh)
  cases h
  exact ⟨stateHash, hr, blk, orFail_ok_iff.1 hblk, hst⟩

end TonWallet.Block
