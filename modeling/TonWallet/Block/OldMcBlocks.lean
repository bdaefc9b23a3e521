/-
The dictionary of the previous masterchain blocks (`OldMcBlocksInfo`, `block-parse`, `block.cpp`): under its number each block
is kept with its end time, its hashes and whether it is a key block, and at every fork stands whether there is a key block
below, and the largest end time there.
-/
import TonWallet.Block.ValidatorSet
import TonWallet.Vm.AugmentedMap
import TonWallet.Vm.Dict.TraverseExtra

namespace TonWallet.Block

open Lib TonWallet.Td TonWallet.Ton TonWallet.Vm TonWallet.Vm.Dict

/-! ## Extras -/

/-- `KeyMaxLt`. -/
structure KeyMaxLt where
  key : Bool
  maxEndLt : UInt64
deriving DecidableEq

namespace KeyMaxLt

/-- The extra as it is stored. -/
def slice (x : KeyMaxLt) : Slice := ⟨x.key :: natToBits 64 x.maxEndLt.toNat, []⟩

/-- `fetch_bool_to` and `fetch_ulong_bool` at the beginning of a slice. -/
def ofSlice (s : Slice) : Option KeyMaxLt := match s.bits with
  | key :: bits => if 64 ≤ bits.length then some ⟨key, .ofNat (bitsToNat (bits.take 64))⟩ else none
  | [] => none

/-- What `KeyMaxLt::add_values` stores for two extras. -/
def add (x y : KeyMaxLt) : KeyMaxLt := ⟨x.key || y.key, if x.maxEndLt < y.maxEndLt then y.maxEndLt else x.maxEndLt⟩

@[simp] theorem length_slice_bits (x : KeyMaxLt) : x.slice.bits.length = 65 := by
  simp [slice]

@[simp] theorem ofSlice_append (x : KeyMaxLt) (s : Slice) : ofSlice (x.slice.append s) = some x := by
  have hbits : (x.slice.append s).bits = x.key :: (natToBits 64 x.maxEndLt.toNat ++ s.bits) := rfl
  have hlt : x.maxEndLt.toNat < 2 ^ 64 := x.maxEndLt.toNat_lt
  simp only [ofSlice, hbits]
  rw [if_pos (by rw [List.length_append, length_natToBits]; omega), List.take_left' (length_natToBits _ _), bitsToNat_natToBits,
    Nat.mod_eq_of_lt hlt, UInt64.ofNat_toNat]

@[simp] theorem ofSlice_slice (x : KeyMaxLt) : ofSlice x.slice = some x := by
  rw [← Slice.append_empty x.slice, ofSlice_append]

theorem maxEndLt_le_add_left (x y : KeyMaxLt) : x.maxEndLt ≤ (x.add y).maxEndLt := by
  unfold add
  split
  · next h => exact UInt64.le_of_lt h
  · exact UInt64.le_refl _

theorem maxEndLt_le_add_right (x y : KeyMaxLt) : y.maxEndLt ≤ (x.add y).maxEndLt := by
  unfold add
  split
  · exact UInt64.le_refl _
  · next h => exact UInt64.not_lt.1 h

end KeyMaxLt

/-- `aug_OldMcBlocksInfo`: the extra of a value is its first 65 bits. -/
def augOldMcBlocksInfo : AugmentationData where
  skipExtra s := if 65 ≤ s.bits.length then some ⟨s.bits.drop 65, s.refs⟩ else none
  evalLeaf v := if 65 ≤ v.bits.length then some ⟨v.bits.take 65, []⟩ else none
  evalFork a b := do
    let x ← KeyMaxLt.ofSlice a
    let y ← KeyMaxLt.ofSlice b
    return (x.add y).slice
  evalEmpty := some ⟨List.replicate 65 false, []⟩
  skip_evalLeaf {v e} he rest := by
    split at he
    · next hlen =>
      cases he
      simp [Slice.append, hlen]
    · cases he
  skip_evalFork {a b e} he rest := by
    obtain ⟨x, -, he⟩ := Option.bind_eq_some_iff.1 he
    obtain ⟨y, -, he⟩ := Option.bind_eq_some_iff.1 he
    cases he
    have hlen : 65 ≤ ((x.add y).slice.append rest).bits.length := by simp [Slice.append]
    rw [if_pos hlen]
    simp [Slice.append, KeyMaxLt.slice]

/-! ## Blocks -/

/-- `KeyExtBlkRef` without the number of the block, which is the key. -/
structure OldMcBlock where
  key : Bool
  endLt : UInt64
  rootHash : Bits256
  fileHash : Bits256
deriving DecidableEq

namespace OldMcBlock

def extra (b : OldMcBlock) : KeyMaxLt := ⟨b.key, b.endLt⟩

/-- The value of a block: the flag of a key block, and what `ExtBlkRef::store` stores. -/
def value (b : OldMcBlock) (seqno : UInt32) : Slice :=
  ⟨b.key :: (natToBits 64 b.endLt.toNat ++ natToBits 32 seqno.toNat ++ natToBits 256 b.rootHash.toNat ++
    natToBits 256 b.fileHash.toNat), []⟩

/-- What is stored at the leaf of a block. -/
def leaf (b : OldMcBlock) (seqno : UInt32) : Slice := b.extra.slice.append (b.value seqno)

def id (b : OldMcBlock) (seqno : UInt32) : BlockIdExt := ⟨⟨masterchainId, shardIdAll, seqno⟩, b.rootHash, b.fileHash⟩

end OldMcBlock

/-- The number that is a key. -/
def keySeqno (key : List Bool) : UInt32 := .ofNat (bitsToNat key)

theorem natToBits_keySeqno {k : List Bool} (hk : k.length = 32) : natToBits 32 (keySeqno k).toNat = k := by
  have hlt := bitsToNat_lt k
  rw [hk] at hlt
  have hnat : (keySeqno k).toNat = bitsToNat k := Nat.mod_eq_of_lt hlt
  rw [hnat, ← hk, natToBits_bitsToNat]

theorem keySeqno_natToBits (seqno : UInt32) : keySeqno (natToBits 32 seqno.toNat) = seqno := by
  rw [keySeqno, bitsToNat_natToBits, Nat.mod_eq_of_lt seqno.toNat_lt, UInt32.ofNat_toNat]

/-- `unpack_old_mc_block_id`. -/
def unpackOldMcBlockId (oldBlkInfo : Slice) (seqno : UInt32) : Option (BlockIdExt × UInt64) := do
  let data ← unpackExact (do
    Fetch.advance 1
    ExtBlkRef.unpack) (valueSlice oldBlkInfo)
  let blkid : BlockIdExt := ⟨⟨masterchainId, shardIdAll, .ofNat data.seqNo⟩, data.rootHash, data.fileHash⟩
  guard (blkid.seqno = seqno)
  return (blkid, .ofNat data.endLt)

/-- What `ExtBlkRef::store` stores is what is unpacked. -/
theorem fetches_extBlkRef (b : OldMcBlock) (seqno : UInt32) :
    Fetches (do
      Fetch.advance 1
      ExtBlkRef.unpack) (b.value seqno) (· = ⟨b.endLt.toNat, seqno.toNat, b.rootHash, b.fileHash⟩) := by
  have hparts : b.value seqno = (⟨[b.key], []⟩ : Slice).append ((⟨natToBits 64 b.endLt.toNat, []⟩ : Slice).append
      ((⟨natToBits 32 seqno.toNat, []⟩ : Slice).append ((⟨natToBits 256 b.rootHash.toNat, []⟩ : Slice).append
        ⟨natToBits 256 b.fileHash.toNat, []⟩))) := by
    simp [OldMcBlock.value, Slice.append]
  rw [hparts]
  refine (Fetches.advance rfl).bind fun _ _ => ?_
  refine (Fetches.fetchUint_natToBits b.endLt.toNat_lt).bind fun endLt hendLt => ?_
  refine (Fetches.fetchUint_natToBits seqno.toNat_lt).bind fun seqNo hseqNo => ?_
  refine (Fetches.fetchHash b.rootHash).bind fun rootHash hroot => ?_
  refine (Fetches.fetchHash b.fileHash).map fun fileHash hfile => ?_
  rw [hendLt, hseqNo, hroot, hfile]

/-- A block is unpacked from its value. -/
theorem unpackOldMcBlockId_value (b : OldMcBlock) (seqno : UInt32) :
    unpackOldMcBlockId (b.value seqno) seqno = some (b.id seqno, b.endLt) := by
  obtain ⟨data, hdata, rfl⟩ := @Fetches.unpackExact _ _ _ _ (valueSlice (b.value seqno)) (fetches_extBlkRef b seqno) ⟨rfl, rfl⟩
  unfold unpackOldMcBlockId
  rw [hdata]
  simp [OldMcBlock.id, BlockIdExt.seqno, guard]

/-! ## The dictionary -/

/-- The extra of a tree: there is a key block, and the largest end time. -/
def extraOf : PrefixTree Slice → Option KeyMaxLt
  | .leaf _ p => KeyMaxLt.ofSlice p
  | .fork _ a b => do
    let x ← extraOf a
    let y ← extraOf b
    return x.add y

/-- What stands in a dictionary of blocks: their extras and values, and at every fork what its branches have together. -/
def oldMcBlocksRules : NodeRules where
  leaf k p := ∃ b : OldMcBlock, p = b.leaf (keySeqno k)
  fork _ a b p := ∃ x y, extraOf a = some x ∧ extraOf b = some y ∧ (⟨p.bits, p.refs.drop 2⟩ : Slice) = (x.add y).slice

/-- The extra of a tree says what all of its leaves have. -/
theorem extraOf_entries {t : PrefixTree Slice} {x : KeyMaxLt} (h : extraOf t = some x) (q : List Bool) :
    ∀ e ∈ t.entries q, ∃ y, KeyMaxLt.ofSlice e.2 = some y ∧ (y.key = true → x.key = true) ∧ y.maxEndLt ≤ x.maxEndLt := by
  induction t generalizing q x with
  | leaf l p =>
    intro e he
    obtain rfl := List.mem_singleton.1 he
    exact ⟨x, h, fun hkey => hkey, UInt64.le_refl _⟩
  | fork l a b iha ihb =>
    obtain ⟨xa, ha, h⟩ := Option.bind_eq_some_iff.1 h
    obtain ⟨xb, hb, h⟩ := Option.bind_eq_some_iff.1 h
    cases h
    intro e he
    rcases List.mem_append.1 he with he | he
    · obtain ⟨y, hy, hkey, hlt⟩ := iha ha _ e he
      exact ⟨y, hy, fun hk => by simp [KeyMaxLt.add, hkey hk], UInt64.le_trans hlt (xa.maxEndLt_le_add_left xb)⟩
    · obtain ⟨y, hy, hkey, hlt⟩ := ihb hb _ e he
      exact ⟨y, hy, fun hk => by simp [KeyMaxLt.add, hkey hk], UInt64.le_trans hlt (xa.maxEndLt_le_add_right xb)⟩

/-! ## Dictionaries that are built -/

variable [Digest]

end TonWallet.Block
