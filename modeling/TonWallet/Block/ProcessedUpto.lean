/-
How far the messages that enter a shard have been processed (`block::MsgProcessedUptoCollection`): records of a shard, a
block of the masterchain and the last message, each of which speaks of all that it contains.
-/
import TonWallet.Block.McShardHash
import TonWallet.Block.ShardOrder
import TonWallet.Lib.SortByKey
import TonWallet.Lib.Survivors
import TonWallet.Vm.Dict.CheckForEach

namespace TonWallet.Block

open Lib TonWallet.Td TonWallet.Ton TonWallet.Vm TonWallet.Vm.CellBuilder DictionaryBase Dict

/-! ## Messages -/

structure AccountIdPrefixFull where
  workchain : Int32
  accountIdPrefix : UInt64
  deriving DecidableEq, Repr

/-- `EnqueuedMsgDescr`, as far as it is asked whether the message has been processed. -/
structure EnqueuedMsgDescr where
  curPrefix : AccountIdPrefixFull
  nextPrefix : AccountIdPrefixFull
  lt : UInt64
  enqueuedLt : UInt64
  hash : Bits256
  deriving DecidableEq, Repr

def EnqueuedMsgDescr.sameWorkchain (msg : EnqueuedMsgDescr) : Bool := msg.curPrefix.workchain == msg.nextPrefix.workchain

/-- `shard_contains` of an account's prefix in its workchain. -/
def shardContainsPrefix (parent : ShardIdFull) (child : AccountIdPrefixFull) : Bool :=
  parent.workchain == child.workchain && shardContains parent.shard child.accountIdPrefix

/-- `shard_is_ancestor` of shards of a workchain. -/
def shardIsAncestorFull (parent child : ShardIdFull) : Bool :=
  parent.workchain == child.workchain && shardIsAncestor parent.shard child.shard

/-- `shard_is_sibling` of shards of a workchain. -/
def shardIsSiblingFull (x y : ShardIdFull) : Bool := x.workchain == y.workchain && shardIsSibling x.shard y.shard

/-! ## Records -/

/-- `compute_shard_end_lt`, which the records get from the masterchain blocks that they name. -/
abbrev ComputeShardEndLt := UInt32 → AccountIdPrefixFull → UInt64

/-- Later blocks of the masterchain have seen more of a shard. -/
def EndLtMono (computeShardEndLt : ComputeShardEndLt) : Prop :=
  ∀ (pfx : AccountIdPrefixFull) (a b : UInt32), a ≤ b → computeShardEndLt a pfx ≤ computeShardEndLt b pfx

structure MsgProcessedUpto where
  shard : UInt64
  mcSeqno : UInt32
  lastInmsgLt : UInt64
  lastInmsgHash : Bits256
  deriving DecidableEq, Repr

namespace MsgProcessedUpto

/-- `operator<`. -/
def less (z other : MsgProcessedUpto) : Bool :=
  z.shard < other.shard || (z.shard == other.shard && z.mcSeqno < other.mcSeqno)

def contains (z other : MsgProcessedUpto) : Bool :=
  shardIsAncestor z.shard other.shard && z.mcSeqno ≥ other.mcSeqno &&
    (z.lastInmsgLt > other.lastInmsgLt ||
      (z.lastInmsgLt == other.lastInmsgLt && !(z.lastInmsgHash < other.lastInmsgHash)))

def alreadyProcessed (computeShardEndLt : ComputeShardEndLt) (z : MsgProcessedUpto) (msg : EnqueuedMsgDescr) : Bool :=
  if msg.lt > z.lastInmsgLt then false
  else if !shardContains z.shard msg.nextPrefix.accountIdPrefix then false
  else if msg.lt == z.lastInmsgLt && z.lastInmsgHash < msg.hash then false
  else if msg.sameWorkchain && shardContains z.shard msg.curPrefix.accountIdPrefix then true
  else msg.enqueuedLt < computeShardEndLt z.mcSeqno msg.curPrefix

/-- What is left of a record in a shard. -/
def restrict (shard : UInt64) (z : MsgProcessedUpto) : Option MsgProcessedUpto :=
  if shardIntersects z.shard shard then some { z with shard := shardIntersection z.shard shard } else none

/-- The key of a record. -/
def dictKey (z : MsgProcessedUpto) : List Bool := natToBits 64 z.shard.toNat ++ natToBits 32 z.mcSeqno.toNat

end MsgProcessedUpto

/-! ## Collections -/

structure MsgProcessedUptoCollection where
  owner : ShardIdFull
  valid : Bool := false
  list : List MsgProcessedUpto := []
  deriving DecidableEq, Repr

namespace MsgProcessedUptoCollection

/-- `already_processed`. -/
def alreadyProcessed (computeShardEndLt : ComputeShardEndLt) (c : MsgProcessedUptoCollection) (msg : EnqueuedMsgDescr) : Bool :=
  shardContainsPrefix c.owner msg.nextPrefix && c.list.any (·.alreadyProcessed computeShardEndLt msg)

/-- What unpacking does with an entry of the dictionary: a record, or the end. -/
def unpackRecord (owner : ShardIdFull) : ForeachFunc (List MsgProcessedUpto) := fun key value list =>
  if value.bits.length ≠ 64 + 256 ∨ value.refs ≠ [] then (false, list)
  else
    let z : MsgProcessedUpto :=
      { shard := UInt64.ofNat (bitsToNat (key.take 64))
        mcSeqno := UInt32.ofNat (bitsToNat ((key.drop 64).take 32))
        lastInmsgLt := UInt64.ofNat (bitsToNat (value.bits.take 64))
        lastInmsgHash := BitVec.ofNat 256 (bitsToNat ((value.bits.drop 64).take 256)) }
    (z.shard ≠ 0 && shardContains owner.shard z.shard, list ++ [z])

/-- A dictionary of a root that says whether it is empty; one that is not valid is thrown out. -/
def loadDictionary (root : Option Slice) (n : Nat) (hn : n ≤ maxKeyBits) : Result DictionaryBase := match root with
  | some ⟨[false], []⟩ => .ok ⟨n, none, hn⟩
  | some ⟨[true], [cell]⟩ => .ok ⟨n, some cell, hn⟩
  | _ => .error (.vmError "invalid dictionary")

def unpack (owner : ShardIdFull) (cs : Option Slice) : Result (Option MsgProcessedUptoCollection) := do
  let dict ← loadDictionary cs 96 (by decide)
  let (valid, list) ← dict.checkForEach (unpackRecord owner) []
  return if valid then some ⟨owner, true, list⟩ else none

variable (sort : List MsgProcessedUpto → List MsgProcessedUpto)

def compactify (c : MsgProcessedUptoCollection) : MsgProcessedUptoCollection :=
  { c with list := survivors MsgProcessedUpto.contains (sort c.list) }

/-- `split`: none if the new owner is not in the shard. -/
def split (newOwner : ShardIdFull) (c : MsgProcessedUptoCollection) : Option MsgProcessedUptoCollection :=
  if !shardIsAncestorFull c.owner newOwner then none
  else if c.owner = newOwner then some c
  else some (compactify sort { c with owner := newOwner, list := c.list.filterMap (·.restrict newOwner.shard) })

/-- `combine_with`: none if the other's owner is neither the same nor the sibling. -/
def combineWith (other c : MsgProcessedUptoCollection) : Result (Option MsgProcessedUptoCollection) :=
  if !(other.owner == c.owner || shardIsSiblingFull other.owner c.owner) then .ok none
  else do
    let owner ← if c.owner ≠ other.owner then do pure { c.owner with shard := ← shardParent c.owner.shard } else pure c.owner
    return some (compactify sort { c with owner, list := c.list ++ other.list })

variable [Digest]

/-- The loop of `pack`. -/
def packRecords : List MsgProcessedUpto → Method Bool
  | [] => return true
  | z :: zs => do
    match (({} : CellBuilder).storeLongBool z.lastInmsgLt.toNat 64).bind
      (appendSliceBool ⟨natToBits 256 z.lastInmsgHash.toNat, []⟩) with
    | none => return false
    | some cb2 => if ← Dictionary.set z.dictKey ⟨cb2.bits, cb2.refs⟩ .add then packRecords zs else return false

/-- `pack`, of the collection made compact; none if it fails. -/
def pack (c : MsgProcessedUptoCollection) (cb : CellBuilder) : Result (Option CellBuilder) :=
  match run (packRecords (compactify sort c).list) ⟨96, none, by decide⟩ with
  | (.ok true, dict) => .ok (CurrencyCollection.storeMaybeRef dict.rootCell cb)
  | (.ok false, _) => .ok none
  | (.error e, _) => .error e

end MsgProcessedUptoCollection

/-! ## What records contain -/

namespace MsgProcessedUpto

variable {x y z w : MsgProcessedUpto}

theorem contains_iff : z.contains w = true ↔ shardIsAncestor z.shard w.shard = true ∧ w.mcSeqno ≤ z.mcSeqno ∧
    (w.lastInmsgLt < z.lastInmsgLt ∨ w.lastInmsgLt = z.lastInmsgLt ∧ w.lastInmsgHash ≤ z.lastInmsgHash) := by
  simp only [contains, Bool.and_eq_true, Bool.or_eq_true, Bool.not_eq_true', decide_eq_true_eq, decide_eq_false_iff_not,
    beq_iff_eq, and_assoc, ge_iff_le, gt_iff_lt, BitVec.not_lt, eq_comm (a := z.lastInmsgLt)]

theorem contains_refl (z : MsgProcessedUpto) : z.contains z = true :=
  contains_iff.2 ⟨shardIsAncestor_refl _, UInt32.le_refl _, .inr ⟨rfl, BitVec.le_refl _⟩⟩

theorem contains_trans (hxy : x.contains y = true) (hyz : y.contains z = true) : x.contains z = true := by
  rw [contains_iff] at hxy hyz ⊢
  obtain ⟨hxy, hseqno, hlast⟩ := hxy
  obtain ⟨hyz, hseqno', hlast'⟩ := hyz
  refine ⟨shardIsAncestor_trans hxy hyz, UInt32.le_trans hseqno' hseqno, ?_⟩
  rcases hlast with hlt | ⟨heq, hhash⟩
  · rcases hlast' with hlt' | ⟨heq', -⟩
    · exact .inl (UInt64.lt_trans hlt' hlt)
    · exact .inl (heq' ▸ hlt)
  · rcases hlast' with hlt' | ⟨heq', hhash'⟩
    · exact .inl (heq ▸ hlt')
    · exact .inr ⟨heq'.trans heq, BitVec.le_trans hhash' hhash⟩

/-- Of two records of one shard and one block, one contains the other. -/
theorem contains_or (hshard : x.shard = y.shard) (hseqno : x.mcSeqno = y.mcSeqno) :
    x.contains y = true ∨ y.contains x = true := by
  simp only [contains_iff, hshard, hseqno, shardIsAncestor_refl, UInt32.le_refl, true_and]
  rcases Nat.lt_trichotomy x.lastInmsgLt.toNat y.lastInmsgLt.toNat with hlt | heq | hlt
  · exact .inr (.inl (UInt64.lt_iff_toNat_lt.2 hlt))
  · have heq := UInt64.toNat_inj.1 heq
    rcases Nat.le_total x.lastInmsgHash.toNat y.lastInmsgHash.toNat with hle | hle
    · exact .inr (.inr ⟨heq, hle⟩)
    · exact .inl (.inr ⟨heq.symm, hle⟩)
  · exact .inl (.inl (UInt64.lt_iff_toNat_lt.2 hlt))

/-- The key of a record is a number of 96 bits. -/
theorem bitsToNat_dictKey (z : MsgProcessedUpto) : bitsToNat z.dictKey = 2 ^ 32 * z.shard.toNat + z.mcSeqno.toNat := by
  rw [dictKey, bitsToNat_append, length_natToBits, bitsToNat_natToBits, bitsToNat_natToBits,
    Nat.mod_eq_of_lt z.shard.toNat_lt, Nat.mod_eq_of_lt z.mcSeqno.toNat_lt]

@[simp] theorem length_dictKey (z : MsgProcessedUpto) : z.dictKey.length = 96 := by
  rw [dictKey, List.length_append, length_natToBits, length_natToBits]

/-- Records are sorted by their keys. -/
theorem less_iff : x.less y = true ↔ bitsToNat x.dictKey < bitsToNat y.dictKey := by
  have hx := x.mcSeqno.toNat_lt
  have hy := y.mcSeqno.toNat_lt
  rw [bitsToNat_dictKey, bitsToNat_dictKey]
  simp only [less, Bool.or_eq_true, Bool.and_eq_true, decide_eq_true_eq, beq_iff_eq, UInt64.lt_iff_toNat_lt,
    UInt32.lt_iff_toNat_lt, ← UInt64.toNat_inj]
  omega

theorem dictKey_inj (h : bitsToNat x.dictKey = bitsToNat y.dictKey) : x.shard = y.shard ∧ x.mcSeqno = y.mcSeqno := by
  have hx := x.mcSeqno.toNat_lt
  have hy := y.mcSeqno.toNat_lt
  rw [bitsToNat_dictKey, bitsToNat_dictKey] at h
  rw [← UInt64.toNat_inj, ← UInt32.toNat_inj]
  omega

/-- The last message of a record is the message or came after it, and the message enters the record's shard. -/
structure Reaches (z : MsgProcessedUpto) (msg : EnqueuedMsgDescr) : Prop where
  last : msg.lt < z.lastInmsgLt ∨ msg.lt = z.lastInmsgLt ∧ msg.hash ≤ z.lastInmsgHash
  enters : shardContains z.shard msg.nextPrefix.accountIdPrefix = true

/-- A message has been processed when the record reaches it, and either it comes from the record's shard or the record's
masterchain block has seen it. -/
theorem alreadyProcessed_iff {computeShardEndLt : ComputeShardEndLt} {msg : EnqueuedMsgDescr} :
    z.alreadyProcessed computeShardEndLt msg = true ↔ z.Reaches msg ∧
      ((msg.sameWorkchain = true ∧ shardContains z.shard msg.curPrefix.accountIdPrefix = true) ∨
        msg.enqueuedLt < computeShardEndLt z.mcSeqno msg.curPrefix) := by
  have hlast : (msg.lt < z.lastInmsgLt ∨ msg.lt = z.lastInmsgLt ∧ msg.hash ≤ z.lastInmsgHash) ↔
      ¬msg.lt > z.lastInmsgLt ∧ ¬(msg.lt = z.lastInmsgLt ∧ z.lastInmsgHash < msg.hash) := by
    rw [gt_iff_lt, UInt64.lt_iff_toNat_lt, UInt64.lt_iff_toNat_lt, ← UInt64.toNat_inj, BitVec.le_def, BitVec.lt_def]
    omega
  unfold alreadyProcessed
  constructor
  · intro h
    split at h
    · cases h
    · next hlt =>
      split at h
      · cases h
      · next henters =>
        split at h
        · cases h
        · next hhash =>
          refine ⟨⟨hlast.2 ⟨hlt, ?_⟩, by simpa using henters⟩, ?_⟩
          · simpa using hhash
          · split at h
            · next hsame => exact .inl (by simpa using hsame)
            · exact .inr (by simpa using h)
  · rintro ⟨⟨hreach, henters⟩, hseen⟩
    obtain ⟨hlt, hhash⟩ := hlast.1 hreach
    rw [if_neg hlt, if_neg (by rw [henters]; exact Bool.false_ne_true), if_neg (by simpa using hhash)]
    split
    · rfl
    · next hsame =>
      rcases hseen with hseen | hseen
      · exact absurd (by simpa using hseen) hsame
      · simpa using hseen

/-- What a record says of a message, a record that contains it says as well. -/
theorem alreadyProcessed_of_contains {computeShardEndLt : ComputeShardEndLt} (hend : EndLtMono computeShardEndLt)
    (h : z.contains w = true) (hw : w.shard ≠ 0) {msg : EnqueuedMsgDescr}
    (hmsg : w.alreadyProcessed computeShardEndLt msg = true) : z.alreadyProcessed computeShardEndLt msg = true := by
  rw [alreadyProcessed_iff] at hmsg ⊢
  obtain ⟨hshard, hseqno, hlast⟩ := contains_iff.1 h
  obtain ⟨⟨hreach, henters⟩, hseen⟩ := hmsg
  refine ⟨⟨?_, shardContains_of_ancestor hshard hw henters⟩, ?_⟩
  · rcases hreach with hlt | ⟨heq, hhash⟩
    · rcases hlast with hlt' | ⟨heq', -⟩
      · exact .inl (UInt64.lt_trans hlt hlt')
      · exact .inl (heq' ▸ hlt)
    · rcases hlast with hlt' | ⟨heq', hhash'⟩
      · exact .inl (heq ▸ hlt')
      · exact .inr ⟨heq.trans heq', BitVec.le_trans hhash hhash'⟩
  · rcases hseen with ⟨hsame, hcur⟩ | hlt
    · exact .inl ⟨hsame, shardContains_of_ancestor hshard hw hcur⟩
    · exact .inr (UInt64.lt_of_lt_of_le hlt (hend _ _ _ hseqno))

/-! ## Records in a part of their shard -/

/-- What is left of a record contains what it contained of the shard. -/
theorem contains_restrict (shard : UInt64) (z p : MsgProcessedUpto) :
    (∃ w ∈ z.restrict shard, w.contains p = true) ↔ z.contains p = true ∧ shardIsAncestor shard p.shard = true := by
  unfold restrict
  split
  · next hmeet =>
    simp only [Option.mem_some_iff, exists_eq_left', contains_iff, shardIsAncestor_intersection hmeet]
    tauto
  · next hapart =>
    simp only [Option.mem_def, reduceCtorEq, false_and, exists_false, false_iff]
    rintro ⟨hp, hshard⟩
    exact hapart ((shardIntersects_iff _ _).2 (shardIsAncestor_or (contains_iff.1 hp).1 hshard))

/-- What is left of a record says the same of a message that enters the shard, unless it comes from a part of the
record's shard that is gone. -/
theorem alreadyProcessed_restrict {computeShardEndLt : ComputeShardEndLt} {shard : UInt64} (hshard : shard ≠ 0)
    (hz : z.shard ≠ 0) {msg : EnqueuedMsgDescr} (henters : shardContains shard msg.nextPrefix.accountIdPrefix = true) :
    (∃ w ∈ z.restrict shard, w.alreadyProcessed computeShardEndLt msg = true) ↔ z.Reaches msg ∧
      ((msg.sameWorkchain = true ∧ shardContains z.shard msg.curPrefix.accountIdPrefix = true ∧
          shardContains shard msg.curPrefix.accountIdPrefix = true) ∨
        msg.enqueuedLt < computeShardEndLt z.mcSeqno msg.curPrefix) := by
  unfold restrict
  split
  · next hmeet =>
    have hcontains := shardContains_intersection hz hshard hmeet
    have hreaches : Reaches { z with shard := shardIntersection z.shard shard } msg ↔ z.Reaches msg := by
      constructor
      · rintro ⟨hlast, hin⟩
        exact ⟨hlast, ((hcontains _).1 hin).1⟩
      · rintro ⟨hlast, hin⟩
        exact ⟨hlast, (hcontains _).2 ⟨hin, henters⟩⟩
    simp only [Option.mem_some_iff, exists_eq_left', alreadyProcessed_iff, hreaches, hcontains]
  · next hapart =>
    simp only [Option.mem_def, reduceCtorEq, false_and, exists_false, false_iff]
    rintro ⟨hreaches, -⟩
    exact hapart (shardIntersects_of_contains hz hshard hreaches.enters henters)

end MsgProcessedUpto

namespace MsgProcessedUptoCollection

variable {sort : List MsgProcessedUpto → List MsgProcessedUpto} {c other r : MsgProcessedUptoCollection}
  {newOwner : ShardIdFull} {computeShardEndLt : ComputeShardEndLt} {msg : EnqueuedMsgDescr}

/-- A record is contained in one of the collection. -/
def Covers (c : MsgProcessedUptoCollection) (p : MsgProcessedUpto) : Prop := ∃ z ∈ c.list, z.contains p = true

/-- What unpacking checks of the records. -/
def Checked (c : MsgProcessedUptoCollection) : Prop := ∀ z ∈ c.list, z.shard ≠ 0 ∧ shardContains c.owner.shard z.shard = true

/-- The records are about parts of the owner's shard. -/
def Within (c : MsgProcessedUptoCollection) : Prop :=
  ∀ z ∈ c.list, z.shard ≠ 0 ∧ shardIsAncestor c.owner.shard z.shard = true

theorem Within.checked (h : c.Within) : c.Checked := fun z hz => ⟨(h z hz).1, shardContains_of_isAncestor (h z hz).2⟩

/-! ## Compact collections -/

theorem trans_contains (x y z : MsgProcessedUpto) (hxy : x.contains y = true) (hyz : y.contains z = true) :
    x.contains z = true := MsgProcessedUpto.contains_trans hxy hyz

section

variable (hsort : SortsFor MsgProcessedUpto.less sort)

include hsort

theorem mem_of_mem_compactify {z : MsgProcessedUpto} (hz : z ∈ (compactify sort c).list) : z ∈ c.list :=
  (hsort.perm c.list).mem_iff.1 (survivors_sublist.mem hz)

theorem exists_mem_compactify {z : MsgProcessedUpto} (hz : z ∈ c.list) :
    ∃ w ∈ (compactify sort c).list, w.contains z = true :=
  exists_survivor MsgProcessedUpto.contains_refl trans_contains ((hsort.perm c.list).mem_iff.2 hz)

theorem covers_compactify (p : MsgProcessedUpto) : (compactify sort c).Covers p ↔ c.Covers p := by
  constructor
  · rintro ⟨z, hz, hp⟩
    exact ⟨z, mem_of_mem_compactify hsort hz, hp⟩
  · rintro ⟨z, hz, hp⟩
    obtain ⟨w, hw, hwz⟩ := exists_mem_compactify hsort hz
    exact ⟨w, hw, MsgProcessedUpto.contains_trans hwz hp⟩

omit hsort in
theorem apart_compactify (sort : List MsgProcessedUpto → List MsgProcessedUpto) (c : MsgProcessedUptoCollection) :
    Apart MsgProcessedUpto.contains (compactify sort c).list := apart_survivors trans_contains

/-- The keys of a compact collection grow. -/
theorem keys_compactify (c : MsgProcessedUptoCollection) :
    (compactify sort c).list.Pairwise fun x y => bitsToNat x.dictKey < bitsToNat y.dictKey := by
  have hsorted : (compactify sort c).list.Pairwise fun x y => ¬y.less x := (hsort.sorted c.list).sublist survivors_sublist
  refine (hsorted.and (apart_compactify sort c)).imp ?_
  rintro x y ⟨hxy, hx, hy⟩
  rw [MsgProcessedUpto.less_iff, Nat.not_lt] at hxy
  refine lt_of_le_of_ne hxy ?_
  intro heq
  obtain ⟨hshard, hseqno⟩ := MsgProcessedUpto.dictKey_inj heq
  rcases MsgProcessedUpto.contains_or hshard hseqno with h | h
  · exact hx h
  · exact hy h

theorem compactify_compactify (c : MsgProcessedUptoCollection) : compactify sort (compactify sort c) = compactify sort c := by
  have hkeys := keys_compactify hsort c
  have hsame : sort (compactify sort c).list = (compactify sort c).list := by
    refine (hsort.perm _).eq_of_pairwise ?_ (hsort.sorted _) (hkeys.imp ?_)
    · intro x y hx hy hxy hyx
      rw [MsgProcessedUpto.less_iff, Nat.not_lt] at hxy hyx
      have hnodup : ((compactify sort c).list.map fun z => bitsToNat z.dictKey).Nodup :=
        List.pairwise_map.2 (hkeys.imp Nat.ne_of_lt)
      exact List.inj_on_of_nodup_map hnodup ((hsort.perm _).mem_iff.1 hx) hy (Nat.le_antisymm hxy hyx)
    · intro x y hxy
      rw [MsgProcessedUpto.less_iff]
      omega
  have hsurvivors : survivors MsgProcessedUpto.contains (compactify sort c).list = (compactify sort c).list :=
    survivors_of_apart trans_contains (apart_compactify sort c)
  show { compactify sort c with list := survivors MsgProcessedUpto.contains (sort (compactify sort c).list) } = _
  rw [hsame, hsurvivors]

theorem alreadyProcessed_compactify (hend : EndLtMono computeShardEndLt) (hc : ∀ z ∈ c.list, z.shard ≠ 0) :
    (compactify sort c).alreadyProcessed computeShardEndLt msg = c.alreadyProcessed computeShardEndLt msg := by
  unfold alreadyProcessed
  congr 1
  rw [Bool.eq_iff_iff, List.any_eq_true, List.any_eq_true]
  constructor
  · rintro ⟨z, hz, hmsg⟩
    exact ⟨z, mem_of_mem_compactify hsort hz, hmsg⟩
  · rintro ⟨z, hz, hmsg⟩
    obtain ⟨w, hw, hwz⟩ := exists_mem_compactify hsort hz
    exact ⟨w, hw, MsgProcessedUpto.alreadyProcessed_of_contains hend hwz (hc z hz) hmsg⟩

theorem Checked.compactify (h : c.Checked) : (compactify sort c).Checked := fun z hz => h z (mem_of_mem_compactify hsort hz)

theorem Within.compactify (h : c.Within) : (compactify sort c).Within := fun z hz => h z (mem_of_mem_compactify hsort hz)

/-! ## Splits -/

/-- The records that `split` makes compact. -/
def restrict (newOwner : ShardIdFull) (c : MsgProcessedUptoCollection) : MsgProcessedUptoCollection :=
  { c with owner := newOwner, list := c.list.filterMap (·.restrict newOwner.shard) }

omit hsort in
theorem exists_mem_restrict {P : MsgProcessedUpto → Prop} :
    (∃ w ∈ (c.restrict newOwner).list, P w) ↔ ∃ z ∈ c.list, ∃ w ∈ z.restrict newOwner.shard, P w := by
  simp only [restrict, List.mem_filterMap, Option.mem_def]
  constructor
  · rintro ⟨w, ⟨z, hz, hw⟩, hP⟩
    exact ⟨z, hz, w, hw, hP⟩
  · rintro ⟨z, hz, w, hw, hP⟩
    exact ⟨w, ⟨z, hz, hw⟩, hP⟩

omit hsort in
theorem split_cases (hsplit : c.split sort newOwner = some r) : shardIsAncestorFull c.owner newOwner = true ∧
    ((c.owner = newOwner ∧ r = c) ∨ r = (c.restrict newOwner).compactify sort) := by
  unfold split at hsplit
  split at hsplit
  · cases hsplit
  · next hanc =>
    rw [Bool.not_eq_true, Bool.not_eq_false'] at hanc
    refine ⟨hanc, ?_⟩
    split at hsplit
    · next hown =>
      cases hsplit
      exact .inl ⟨hown, rfl⟩
    · cases hsplit
      exact .inr rfl

/-- A split collection covers what is in the new owner's shard. -/
theorem covers_split (h : c.Within) (hsplit : c.split sort newOwner = some r) (p : MsgProcessedUpto) :
    r.Covers p ↔ c.Covers p ∧ shardIsAncestor newOwner.shard p.shard = true := by
  obtain ⟨-, ⟨rfl, rfl⟩ | rfl⟩ := split_cases hsplit
  · rw [iff_self_and]
    rintro ⟨z, hz, hp⟩
    exact shardIsAncestor_trans (h z hz).2 (MsgProcessedUpto.contains_iff.1 hp).1
  · rw [covers_compactify hsort]
    unfold Covers
    rw [exists_mem_restrict]
    simp only [MsgProcessedUpto.contains_restrict, ← and_assoc, exists_and_right]

omit hsort in
theorem owner_split (hsplit : c.split sort newOwner = some r) : r.owner = newOwner := by
  obtain ⟨-, ⟨hown, rfl⟩ | rfl⟩ := split_cases hsplit
  · exact hown
  · rfl

omit hsort in
theorem Within.restrict (h : c.Within) (hnew : newOwner.shard ≠ 0) : (c.restrict newOwner).Within := by
  intro w hw
  obtain ⟨z, hz, hzw⟩ := List.mem_filterMap.1 hw
  unfold MsgProcessedUpto.restrict at hzw
  split at hzw
  · next hmeet =>
    cases hzw
    have hin := ((shardIsAncestor_intersection hmeet _).1 (shardIsAncestor_refl _)).2
    refine ⟨?_, hin⟩
    show shardIntersection z.shard newOwner.shard ≠ 0
    rcases shardIntersection_eq hmeet with ⟨heq, -⟩ | ⟨heq, -⟩
    · rw [heq]
      exact hnew
    · rw [heq]
      exact (h z hz).1
  · cases hzw

theorem Within.split (h : c.Within) (hnew : newOwner.shard ≠ 0) (hsplit : c.split sort newOwner = some r) : r.Within := by
  obtain ⟨-, ⟨rfl, rfl⟩ | rfl⟩ := split_cases hsplit
  · exact h
  · exact (h.restrict hnew).compactify hsort

/-- What a split collection says of a message. -/
theorem alreadyProcessed_split (hend : EndLtMono computeShardEndLt) (h : c.Within) (hnew : newOwner.shard ≠ 0)
    (hsplit : c.split sort newOwner = some r) : r.alreadyProcessed computeShardEndLt msg = true ↔
      shardContainsPrefix newOwner msg.nextPrefix = true ∧ ∃ z ∈ c.list, z.Reaches msg ∧
        ((msg.sameWorkchain = true ∧ shardContains z.shard msg.curPrefix.accountIdPrefix = true ∧
            shardContains newOwner.shard msg.curPrefix.accountIdPrefix = true) ∨
          msg.enqueuedLt < computeShardEndLt z.mcSeqno msg.curPrefix) := by
  obtain ⟨-, ⟨rfl, rfl⟩ | rfl⟩ := split_cases hsplit
  · unfold alreadyProcessed
    rw [Bool.and_eq_true, List.any_eq_true]
    refine and_congr_right fun _ => exists_congr fun z => and_congr_right fun hz => ?_
    rw [MsgProcessedUpto.alreadyProcessed_iff]
    refine and_congr_right fun _ => or_congr_left (and_congr_right fun _ => ?_)
    rw [iff_self_and]
    exact shardContains_of_ancestor (h z hz).2 (h z hz).1
  · rw [alreadyProcessed_compactify hsort hend fun w hw => (h.restrict hnew w hw).1]
    unfold alreadyProcessed
    rw [Bool.and_eq_true, List.any_eq_true, exists_mem_restrict]
    refine and_congr_right fun henters => exists_congr fun z => and_congr_right fun hz => ?_
    have hin : shardContains newOwner.shard msg.nextPrefix.accountIdPrefix = true := by
      have henters : shardContainsPrefix newOwner msg.nextPrefix = true := henters
      rw [shardContainsPrefix, Bool.and_eq_true] at henters
      exact henters.2
    exact MsgProcessedUpto.alreadyProcessed_restrict hnew (h z hz).1 hin

/-! ## Siblings -/

/-- The records of both collections, before they are made compact. -/
def joined (other : MsgProcessedUptoCollection) (shard : UInt64) (c : MsgProcessedUptoCollection) :
    MsgProcessedUptoCollection := { c with owner := { c.owner with shard }, list := c.list ++ other.list }

omit hsort in
theorem combineWith_sibling (hsib : shardIsSiblingFull other.owner c.owner = true) :
    other.owner.workchain = c.owner.workchain ∧ ∃ (p : List Bool) (b : Bool), p.length ≤ 62 ∧
      other.owner.shard = shardOf (p ++ [b]) ∧ c.owner.shard = shardOf (p ++ [!b]) ∧
      combineWith sort other c = .ok (some ((joined other (shardOf p) c).compactify sort)) := by
  have hboth := hsib
  rw [shardIsSiblingFull, Bool.and_eq_true, beq_iff_eq] at hboth
  obtain ⟨hwc, hshard⟩ := hboth
  obtain ⟨p, b, hp, hother, hc⟩ := exists_of_shardIsSibling hshard
  refine ⟨hwc, p, b, hp, hother, hc, ?_⟩
  have hne : c.owner ≠ other.owner := by
    intro heq
    rw [heq] at hc
    rw [hc, shardOf_inj (by simp; omega) (by simp; omega), List.append_cancel_left_eq] at hother
    cases b <;> cases hother
  have hparent : shardParent c.owner.shard = .ok (shardOf p) := by
    rw [hc]
    exact shardParent_shardOf _ hp
  unfold combineWith
  rw [hsib, Bool.or_true, Bool.not_true, if_neg Bool.false_ne_true, if_pos hne, hparent]
  rfl

omit hsort in
theorem covers_joined (other c : MsgProcessedUptoCollection) (shard : UInt64) (p : MsgProcessedUpto) :
    (joined other shard c).Covers p ↔ c.Covers p ∨ other.Covers p := by
  simp only [joined, Covers, List.mem_append, or_and_right, exists_or]

omit hsort in
/-- Records speak of messages that enter the owner's shard. -/
theorem Within.enters (h : c.Within) (hmsg : c.list.any (·.alreadyProcessed computeShardEndLt msg) = true) :
    shardContains c.owner.shard msg.nextPrefix.accountIdPrefix = true := by
  obtain ⟨z, hz, hmsg⟩ := List.any_eq_true.1 hmsg
  exact shardContains_of_ancestor (h z hz).2 (h z hz).1 (MsgProcessedUpto.alreadyProcessed_iff.1 hmsg).1.enters

/-- The records of both halves of a shard say of a message what one or the other said. -/
theorem alreadyProcessed_joined (hend : EndLtMono computeShardEndLt) (h : c.Within) (hother : other.Within)
    (hwc : other.owner.workchain = c.owner.workchain) {shard : UInt64}
    (hc : shardIsAncestor shard c.owner.shard = true) (hc0 : c.owner.shard ≠ 0)
    (ho : shardIsAncestor shard other.owner.shard = true) (ho0 : other.owner.shard ≠ 0) :
    ((joined other shard c).compactify sort).alreadyProcessed computeShardEndLt msg =
      (c.alreadyProcessed computeShardEndLt msg || other.alreadyProcessed computeShardEndLt msg) := by
  have hnonzero : ∀ z ∈ (joined other shard c).list, z.shard ≠ 0 := by
    intro z hz
    rcases List.mem_append.1 hz with hz | hz
    · exact (h z hz).1
    · exact (hother z hz).1
  rw [alreadyProcessed_compactify hsort hend hnonzero, Bool.eq_iff_iff]
  simp only [alreadyProcessed, joined, shardContainsPrefix, List.any_append, Bool.and_eq_true, Bool.or_eq_true, hwc]
  constructor
  · rintro ⟨⟨hw, -⟩, hmsg | hmsg⟩
    · exact .inl ⟨⟨hw, h.enters hmsg⟩, hmsg⟩
    · exact .inr ⟨⟨hw, hother.enters hmsg⟩, hmsg⟩
  · rintro (⟨⟨hw, hin⟩, hmsg⟩ | ⟨⟨hw, hin⟩, hmsg⟩)
    · exact ⟨⟨hw, shardContains_of_ancestor hc hc0 hin⟩, .inl hmsg⟩
    · exact ⟨⟨hw, shardContains_of_ancestor ho ho0 hin⟩, .inr hmsg⟩

omit hsort in
/-- Nothing is in both halves of a shard. -/
theorem not_shardContains_sibling {p : List Bool} {b : Bool} (hp : p.length ≤ 62) {child : UInt64}
    (h : shardContains (shardOf (p ++ [b])) child = true) : shardContains (shardOf (p ++ [!b])) child = false := by
  have hlen (b : Bool) : (p ++ [b]).length ≤ 63 := by
    rw [List.length_append, List.length_singleton]
    omega
  rw [shardContains_iff (hlen _), List.prefix_iff_eq_take] at h
  rw [← Bool.not_eq_true, shardContains_iff (hlen _), List.prefix_iff_eq_take]
  intro h'
  rw [List.length_append, List.length_singleton] at h h'
  have heq := List.append_cancel_left (h.trans h'.symm)
  cases b <;> cases heq

end

/-! ## Packing -/

section

variable [Digest] {d : DictionaryBase} {m : KeyMap Slice}

/-- The value of a record. -/
def dictValue (z : MsgProcessedUpto) : Slice :=
  ⟨natToBits 64 z.lastInmsgLt.toNat ++ natToBits 256 z.lastInmsgHash.toNat, []⟩

theorem valueFits_dictValue (z : MsgProcessedUpto) : ValueFits 96 z.dictKey (dictValue z) := by
  refine valueFits_of_bits ?_
  have hlabel := @length_labelBits z.dictKey 96 (by rw [MsgProcessedUpto.length_dictKey])
  have hlen : lenBits 96 = 7 := by decide
  rw [hlen, MsgProcessedUpto.length_dictKey] at hlabel
  rw [List.length_append, length_natToBits, length_natToBits]
  unfold maxBits
  have hmin := Nat.min_le_left (2 * 96 + 2)
    (if z.dictKey = List.replicate 96 (z.dictKey.headD false) then min (7 + 96 + 2) (7 + 3) else 7 + 96 + 2)
  omega

/-- Records with keys of their own are all added. -/
theorem run_packRecords {zs : List MsgProcessedUpto} (hd : d.Stands .plain m) (hbits : d.keyBits = 96)
    (hfit : Dictionary.MapFits 96 m) (hfresh : ∀ z ∈ zs, m z.dictKey = none) (hkeys : zs.Pairwise fun x y => x.dictKey ≠ y.dictKey) :
    ∃ d' m', run (packRecords zs) d = (.ok true, d') ∧ d'.keyBits = 96 ∧ d'.Stands .plain m' ∧
      ∀ k v, m' k = some v ↔ m k = some v ∨ (k, v) ∈ zs.map fun z => (z.dictKey, dictValue z) := by
  induction zs generalizing d m with
  | nil => exact ⟨d, m, rfl, hbits, hd, fun k v => by simp⟩
  | cons z zs ih =>
    have hkey : z.dictKey.length = d.keyBits := by rw [MsgProcessedUpto.length_dictKey, hbits]
    have hnone : m z.dictKey = none := hfresh z (by simp)
    have hbuilder : (({} : CellBuilder).storeLongBool z.lastInmsgLt.toNat 64).bind
        (appendSliceBool ⟨natToBits 256 z.lastInmsgHash.toNat, []⟩) = some ⟨(dictValue z).bits, (dictValue z).refs⟩ := by
      rw [CellBuilder.storeLongBool_ok _ _ _ (by decide), Option.bind_some, appendSliceBool_ok _ _ ?_]
      · rfl
      · rw [List.nil_append, length_natToBits, length_natToBits]
        decide
    obtain ⟨res, hres⟩ := Dictionary.dictSetWith_fits hd (hbits ▸ hfit) hkey (hbits ▸ valueFits_dictValue z) .add
    obtain ⟨-, hsome, hstands⟩ := hd.insert (Dictionary.setOps_implements _) hkey hres
    have hsome : res.dict.isSome = true := by
      rw [hsome, hnone]
      rfl
    rw [if_pos hsome] at hstands
    have hget : ∀ k v, (m.set z.dictKey (dictValue z) .add) k = some v ↔ m k = some v ∨ (k = z.dictKey ∧ v = dictValue z) := by
      intro k v
      rw [KeyMap.set, hnone, if_pos (by rfl), Function.update_apply]
      split
      · next hk =>
        subst hk
        rw [hnone, Option.some.injEq]
        simp [eq_comm]
      · next hk => simp [hk]
    have hfresh' : ∀ w ∈ zs, (m.set z.dictKey (dictValue z) .add) w.dictKey = none := by
      intro w hw
      rw [KeyMap.set, hnone, if_pos (by rfl), Function.update_apply,
        if_neg (List.rel_of_pairwise_cons hkeys hw).symm]
      exact hfresh w (by simp [hw])
    obtain ⟨d', m', hrun, hbits', hd', hm'⟩ := ih hstands hbits (hfit.set (valueFits_dictValue z) .add) hfresh' hkeys.of_cons
    refine ⟨d', m', ?_, hbits', hd', ?_⟩
    · rw [packRecords, hbuilder]
      have hset : run (Dictionary.set z.dictKey (dictValue z) .add) d = (.ok true, d.setRootCell res.dict) := by
        rw [Dictionary.set, Dictionary.run_setGen, if_neg (not_not.2 hkey), hres]
        simp only [hsome, if_true]
      show run (do if ← Dictionary.set z.dictKey (dictValue z) .add then packRecords zs else return false) d = _
      rw [run_bind, hset]
      exact hrun
    · intro k v
      rw [hm', hget, List.map_cons, List.mem_cons, Prod.mk.injEq, or_assoc]

omit [Digest] in
/-- A record that unpacking accepts is read back. -/
theorem unpackRecord_eq {owner : ShardIdFull} {z : MsgProcessedUpto}
    (h : z.shard ≠ 0 ∧ shardContains owner.shard z.shard = true) (list : List MsgProcessedUpto) :
    unpackRecord owner z.dictKey (dictValue z) list = (true, list ++ [z]) := by
  have htake {n k : Nat} (v : Nat) (rest : List Bool) (hn : n = k) : (natToBits n v ++ rest).take k = natToBits n v :=
    List.take_left' (by rw [length_natToBits, hn])
  have hdrop {n k : Nat} (v : Nat) (rest : List Bool) (hn : n = k) : (natToBits n v ++ rest).drop k = rest :=
    List.drop_left' (by rw [length_natToBits, hn])
  have hall {n k : Nat} (v : Nat) (hn : n = k) : (natToBits n v).take k = natToBits n v :=
    List.take_of_length_le (by rw [length_natToBits, hn])
  have hz : (⟨UInt64.ofNat (bitsToNat (z.dictKey.take 64)), UInt32.ofNat (bitsToNat ((z.dictKey.drop 64).take 32)),
      UInt64.ofNat (bitsToNat ((dictValue z).bits.take 64)),
      BitVec.ofNat 256 (bitsToNat (((dictValue z).bits.drop 64).take 256))⟩ : MsgProcessedUpto) = z := by
    rw [MsgProcessedUpto.dictKey, dictValue, htake _ _ rfl, hdrop _ _ rfl, hall _ rfl, htake _ _ rfl, hdrop _ _ rfl,
      hall _ rfl, bitsToNat_natToBits, bitsToNat_natToBits, bitsToNat_natToBits, bitsToNat_natToBits,
      Nat.mod_eq_of_lt z.shard.toNat_lt, Nat.mod_eq_of_lt z.mcSeqno.toNat_lt, Nat.mod_eq_of_lt z.lastInmsgLt.toNat_lt,
      Nat.mod_eq_of_lt z.lastInmsgHash.isLt, UInt64.ofNat_toNat, UInt32.ofNat_toNat, UInt64.ofNat_toNat,
      BitVec.ofNat_toNat, BitVec.setWidth_eq]
  have hsize : ¬((dictValue z).bits.length ≠ 64 + 256 ∨ (dictValue z).refs ≠ []) := by
    rw [dictValue, List.length_append, length_natToBits, length_natToBits]
    simp
  unfold unpackRecord
  rw [if_neg hsize]
  have hshard := congrArg MsgProcessedUpto.shard hz
  dsimp only at hshard ⊢
  rw [hshard] at hz
  simp only [hshard, hz, h.2, ne_eq, h.1, not_false_eq_true, decide_true, Bool.and_self]

omit [Digest] in
theorem checkEntries_unpackRecord {owner : ShardIdFull} {zs : List MsgProcessedUpto}
    (h : ∀ z ∈ zs, z.shard ≠ 0 ∧ shardContains owner.shard z.shard = true) (list : List MsgProcessedUpto) :
    checkEntries (unpackRecord owner) (zs.map fun z => (z.dictKey, dictValue z)) list = (true, list ++ zs) := by
  induction zs generalizing list with
  | nil => rw [List.append_nil]; rfl
  | cons z zs ih =>
    rw [List.map_cons, checkEntries, unpackRecord_eq (h z (by simp))]
    refine (ih (fun w hw => h w (by simp [hw])) _).trans ?_
    rw [List.append_assoc, List.singleton_append]

omit [Digest] in
/-- A root that a builder has room for is loaded again. -/
theorem storeMaybeRef_load {d : DictionaryBase} {cb : CellBuilder} (hbits : d.keyBits = 96)
    (hroom : cb.canExtendBy 1 1 = true) : ∃ s : Slice,
      CurrencyCollection.storeMaybeRef d.rootCell cb = some ⟨cb.bits ++ s.bits, cb.refs ++ s.refs⟩ ∧
      loadDictionary (some s) 96 (by decide) = .ok d := by
  obtain ⟨n, root, hn⟩ := d
  subst hbits
  simp only [canExtendBy, Bool.and_eq_true, decide_eq_true_eq] at hroom
  have hmax : (1 : Nat) ≤ maxBits := by decide
  cases root with
  | none =>
    refine ⟨⟨[false], []⟩, ?_, rfl⟩
    rw [CurrencyCollection.storeMaybeRef, CellBuilder.storeLongBool_ok _ _ _ (by omega), List.append_nil]
    rfl
  | some cell =>
    refine ⟨⟨[true], [cell]⟩, ?_, rfl⟩
    have hrefs : cb.refs.length < maxRefs := by
      have hpos : (1 : Nat) ≤ maxRefs := by decide
      omega
    rw [CurrencyCollection.storeMaybeRef, CellBuilder.storeLongBool_ok _ _ _ (by omega), Option.bind_some, storeRefBool]
    simp only [Option.bind_eq_bind, Option.bind_some, if_pos hrefs]
    rfl

/-- What is packed is unpacked as the collection made compact. -/
theorem unpack_pack (hsort : SortsFor MsgProcessedUpto.less sort) (h : c.Checked) {cb : CellBuilder}
    (hroom : cb.canExtendBy 1 1 = true) : ∃ s : Slice, pack sort c cb = .ok (some ⟨cb.bits ++ s.bits, cb.refs ++ s.refs⟩) ∧
      unpack c.owner (some s) = .ok (some { compactify sort c with valid := true }) := by
  have hkeys := keys_compactify hsort c
  have hdistinct : (compactify sort c).list.Pairwise fun x y => x.dictKey ≠ y.dictKey := by
    refine hkeys.imp ?_
    intro x y hlt heq
    rw [heq] at hlt
    exact Nat.lt_irrefl _ hlt
  have hempty : Stands .plain ⟨96, none, by decide⟩ KeyMap.empty := stands_empty (by decide)
  obtain ⟨d, m, hrun, hbits, hd, hm⟩ := run_packRecords hempty rfl nofun (fun _ _ => rfl) hdistinct
  have hentries : EntriesOf m ((compactify sort c).list.map fun z => (z.dictKey, dictValue z)) := by
    constructor
    · rw [List.pairwise_map]
      exact hkeys.imp fun hlt => before_of_bitsToNat_lt (by simp) hlt
    · intro k v
      rw [hm]
      simp [KeyMap.empty]
  obtain ⟨s, hstore, hload⟩ := storeMaybeRef_load hbits hroom
  refine ⟨s, ?_, ?_⟩
  · rw [pack, hrun]
    exact congrArg Except.ok hstore
  · have haccepted : ∀ z ∈ (compactify sort c).list, z.shard ≠ 0 ∧ shardContains c.owner.shard z.shard = true :=
      h.compactify hsort
    rw [unpack, hload]
    show (d.checkForEach (unpackRecord c.owner) [] >>= _) = _
    rw [hd.checkForEach hentries, checkEntries_unpackRecord haccepted]
    rfl

end

end MsgProcessedUptoCollection

/-! ## Collections as a whole -/

namespace MsgProcessedUptoCollection

/-- `r` is the collection of a shard that is put together of its halves `c` and `other`. -/
structure Combined (computeShardEndLt : ComputeShardEndLt) (c other r : MsgProcessedUptoCollection) : Prop where
  owner : r.owner.workchain = c.owner.workchain ∧ shardParent c.owner.shard = .ok r.owner.shard
  covers : ∀ p, r.Covers p ↔ c.Covers p ∨ other.Covers p
  same : c.Within → other.Within → ∀ msg, shardContainsPrefix c.owner msg.nextPrefix = true →
    r.alreadyProcessed computeShardEndLt msg = c.alreadyProcessed computeShardEndLt msg
  other : c.Within → other.Within → ∀ msg, shardContainsPrefix other.owner msg.nextPrefix = true →
    r.alreadyProcessed computeShardEndLt msg = other.alreadyProcessed computeShardEndLt msg

/-- `r` is what is left of `c` in the shard of the new owner. A message that comes from another part of the workchain is
no longer one from the same shard: it has to have been seen by a masterchain block. -/
structure SplitOff (computeShardEndLt : ComputeShardEndLt) (newOwner : ShardIdFull) (c r : MsgProcessedUptoCollection) :
    Prop where
  owner : r.owner = newOwner
  covers : ∀ p, r.Covers p ↔ c.Covers p ∧ shardIsAncestor newOwner.shard p.shard = true
  same : ∀ msg, shardContainsPrefix newOwner msg.nextPrefix = true →
    (msg.sameWorkchain = true → shardContains newOwner.shard msg.curPrefix.accountIdPrefix = true) →
    r.alreadyProcessed computeShardEndLt msg = c.alreadyProcessed computeShardEndLt msg
  processed : ∀ msg, shardContainsPrefix newOwner msg.nextPrefix = true →
    (r.alreadyProcessed computeShardEndLt msg = true ↔ ∃ z ∈ c.list, z.Reaches msg ∧
      ((msg.sameWorkchain = true ∧ shardContains z.shard msg.curPrefix.accountIdPrefix = true ∧
          shardContains newOwner.shard msg.curPrefix.accountIdPrefix = true) ∨
        msg.enqueuedLt < computeShardEndLt z.mcSeqno msg.curPrefix))

variable [Digest]

/-- What is kept when a collection is made compact, packed, combined with its sibling's or split. -/
structure Exact (sort : List MsgProcessedUpto → List MsgProcessedUpto) (computeShardEndLt : ComputeShardEndLt)
    (c : MsgProcessedUptoCollection) : Prop where
  covers : ∀ p, (c.compactify sort).Covers p ↔ c.Covers p
  apart : Apart MsgProcessedUpto.contains (c.compactify sort).list
  idempotent : (c.compactify sort).compactify sort = c.compactify sort
  processed : c.Checked → ∀ msg,
    (c.compactify sort).alreadyProcessed computeShardEndLt msg = c.alreadyProcessed computeShardEndLt msg
  packs : c.Checked → ∀ cb : CellBuilder, cb.canExtendBy 1 1 = true → ∃ s : Slice,
    pack sort c cb = .ok (some ⟨cb.bits ++ s.bits, cb.refs ++ s.refs⟩) ∧
      unpack c.owner (some s) = .ok (some { c.compactify sort with valid := true })
  combines : ∀ other, shardIsSiblingFull other.owner c.owner = true →
    ∃ r, combineWith sort other c = .ok (some r) ∧ Combined computeShardEndLt c other r
  splits : c.Within → ∀ newOwner, newOwner.shard ≠ 0 → shardIsAncestorFull c.owner newOwner = true →
    ∃ r, c.split sort newOwner = some r ∧ SplitOff computeShardEndLt newOwner c r

variable {sort : List MsgProcessedUpto → List MsgProcessedUpto} {c other r : MsgProcessedUptoCollection}
  {newOwner : ShardIdFull} {computeShardEndLt : ComputeShardEndLt}

omit [Digest] in
theorem exists_split (h : shardIsAncestorFull c.owner newOwner = true) : ∃ r, c.split sort newOwner = some r := by
  unfold split
  rw [h, Bool.not_true, if_neg Bool.false_ne_true]
  split
  · exact ⟨_, rfl⟩
  · exact ⟨_, rfl⟩

omit [Digest] in
theorem splitOff_split (hsort : SortsFor MsgProcessedUpto.less sort) (hend : EndLtMono computeShardEndLt) (h : c.Within)
    (hnew : newOwner.shard ≠ 0) (hsplit : c.split sort newOwner = some r) : SplitOff computeShardEndLt newOwner c r := by
  have hanc := (split_cases hsplit).1
  rw [shardIsAncestorFull, Bool.and_eq_true, beq_iff_eq] at hanc
  refine ⟨owner_split hsplit, covers_split hsort h hsplit, ?_, ?_⟩
  · intro msg henters hcur
    have howner : shardContainsPrefix c.owner msg.nextPrefix = true := by
      rw [shardContainsPrefix, Bool.and_eq_true] at henters ⊢
      exact ⟨hanc.1 ▸ henters.1, shardContains_of_ancestor hanc.2 hnew henters.2⟩
    rw [Bool.eq_iff_iff, alreadyProcessed_split hsort hend h hnew hsplit, alreadyProcessed, Bool.and_eq_true,
      List.any_eq_true, and_iff_right henters, and_iff_right howner]
    refine exists_congr fun z => and_congr_right fun _ => ?_
    rw [MsgProcessedUpto.alreadyProcessed_iff]
    refine and_congr_right fun _ => or_congr_left (and_congr_right fun hsame => ?_)
    exact and_iff_left (hcur hsame)
  · intro msg henters
    rw [alreadyProcessed_split hsort hend h hnew hsplit, and_iff_right henters]

omit [Digest] in
theorem combined_joined (hsort : SortsFor MsgProcessedUpto.less sort) (hend : EndLtMono computeShardEndLt)
    {p : List Bool} {b : Bool} (hp : p.length ≤ 62) (hwc : other.owner.workchain = c.owner.workchain)
    (hother : other.owner.shard = shardOf (p ++ [b])) (hc : c.owner.shard = shardOf (p ++ [!b])) :
    Combined computeShardEndLt c other ((joined other (shardOf p) c).compactify sort) := by
  have hlen (b : Bool) : (p ++ [b]).length ≤ 63 := by
    rw [List.length_append, List.length_singleton]
    omega
  have hanc (b : Bool) : shardIsAncestor (shardOf p) (shardOf (p ++ [b])) = true :=
    (shardIsAncestor_iff (by omega) (hlen b)).2 (List.prefix_append _ _)
  have hmsg (h : c.Within) (h' : other.Within) (msg : EnqueuedMsgDescr) :
      ((joined other (shardOf p) c).compactify sort).alreadyProcessed computeShardEndLt msg =
        (c.alreadyProcessed computeShardEndLt msg || other.alreadyProcessed computeShardEndLt msg) :=
    alreadyProcessed_joined hsort hend h h' hwc (hc ▸ hanc (!b)) (hc ▸ shardOf_ne_zero (hlen _)) (hother ▸ hanc b)
      (hother ▸ shardOf_ne_zero (hlen _))
  -- a message that enters one half does not enter the other
  have hnot {x y : MsgProcessedUptoCollection} {b : Bool} (hx : x.owner.shard = shardOf (p ++ [b]))
      (hy : y.owner.shard = shardOf (p ++ [!b])) (msg : EnqueuedMsgDescr)
      (henters : shardContainsPrefix x.owner msg.nextPrefix = true) : y.alreadyProcessed computeShardEndLt msg = false := by
    rw [shardContainsPrefix, Bool.and_eq_true, hx] at henters
    rw [alreadyProcessed, shardContainsPrefix, hy, not_shardContains_sibling hp henters.2, Bool.and_false, Bool.false_and]
  refine ⟨⟨rfl, ?_⟩, ?_, ?_, ?_⟩
  · rw [hc]
    exact shardParent_shardOf (!b) hp
  · intro q
    rw [covers_compactify hsort, covers_joined]
  · intro h h' msg henters
    have hnone := hnot (y := other) hc (by rw [hother, Bool.not_not]) msg henters
    rw [hmsg h h', hnone, Bool.or_false]
  · intro h h' msg henters
    rw [hmsg h h', hnot hother hc msg henters, Bool.false_or]

/-- Collections are made compact, packed, combined and split without a record that is lost or made up. -/
theorem collection_exact (hsort : SortsFor MsgProcessedUpto.less sort) (hend : EndLtMono computeShardEndLt)
    (c : MsgProcessedUptoCollection) : Exact sort computeShardEndLt c where
  covers := covers_compactify hsort
  apart := apart_compactify sort c
  idempotent := compactify_compactify hsort c
  processed h _ := alreadyProcessed_compactify hsort hend fun z hz => (h z hz).1
  packs h _ hroom := unpack_pack hsort h hroom
  combines other hsib := by
    obtain ⟨hwc, p, b, hp, hother, hc, hcombine⟩ := combineWith_sibling hsib
    exact ⟨_, hcombine, combined_joined hsort hend hp hwc hother hc⟩
  splits h newOwner hnew hanc := by
    obtain ⟨r, hr⟩ := exists_split hanc
    exact ⟨r, hr, splitOff_split hsort hend h hnew hr⟩

end MsgProcessedUptoCollection

/-! ## A collection of the whole workchain -/

namespace Sample

/-- `std::sort`, of records of equal keys in their order. -/
def stdSort : List MsgProcessedUpto → List MsgProcessedUpto :=
  insertionSortBy fun z => OrderDual.toDual (bitsToNat z.dictKey)

theorem stdSort_sortsFor : SortsFor MsgProcessedUpto.less stdSort :=
  insertionSortBy_sortsBy.sortsFor fun _ _ => by rw [MsgProcessedUpto.less_iff]; rfl

def whole : MsgProcessedUptoCollection := ⟨⟨0, 0x8000000000000000⟩, true, [⟨0x8000000000000000, 1, 10, 0⟩]⟩

def rightHalf : ShardIdFull := ⟨0, 0xc000000000000000⟩

/-- A message that goes from the left half of the workchain to the right one. -/
def crossing : EnqueuedMsgDescr := ⟨⟨0, 0x1000000000000000⟩, ⟨0, 0xf000000000000000⟩, 5, 5, 0⟩

def noneSeen : ComputeShardEndLt := fun _ _ => 0

theorem whole_within : whole.Within := by
  intro z hz
  rw [List.mem_singleton.1 hz]
  decide

end Sample

open Sample

/-- After a split a message of the other half that has been processed counts as one that has not. -/
theorem split_changes : whole.Within ∧ EndLtMono noneSeen ∧ SortsFor MsgProcessedUpto.less stdSort ∧
    shardIsAncestorFull whole.owner rightHalf = true ∧ shardContainsPrefix rightHalf crossing.nextPrefix = true ∧
    whole.alreadyProcessed noneSeen crossing = true ∧
    (whole.split stdSort rightHalf).map (·.alreadyProcessed noneSeen crossing) = some false := by
  exact ⟨whole_within, fun _ _ _ _ => UInt64.le_refl _, stdSort_sortsFor, by decide, by decide, by decide, by decide⟩

theorem collection_exact_whole : whole.Within ∧
    @MsgProcessedUptoCollection.Exact Dictionary.Sample.digest stdSort noneSeen whole :=
  ⟨whole_within, @MsgProcessedUptoCollection.collection_exact Dictionary.Sample.digest stdSort noneSeen
    stdSort_sortsFor (fun _ _ _ _ => UInt64.le_refl _) whole⟩

end TonWallet.Block
