/-
Shard identifiers (`block::ShardId`): a prefix of up to 63 bits and a tag bit behind it in one word, next to the length
of the prefix. Which of the ways to make one normalize the word, and when it is read back as it was written.
-/
import TonWallet.Block.ExtraCurrency
import TonWallet.Lib.LowBit
import TonWallet.Vm.Fetches

namespace TonWallet.Block

open Lib TonWallet.Td TonWallet.Ton TonWallet.Vm

/-- `count_trailing_zeroes64`. -/
def countTrailingZeroes64 (x : UInt64) : Nat := x.toBitVec.ctz.toNat

/-- `store_ulong_rchk_bool`. -/
def storeUlongRchkBool (value bits : Nat) (cb : CellBuilder) : Option CellBuilder :=
  if value < 2 ^ bits then cb.storeLongBool value bits else none

structure ShardId where
  workchainId : Int32
  shardPfxLen : Nat
  shardPfx : UInt64
  deriving DecidableEq, Repr

namespace ShardId

def isValid (x : ShardId) : Bool := x.workchainId != workchainInvalid

def init (x : ShardId) : ShardId :=
  if x.shardPfx = 0 then { x with shardPfx := shardIdAll, shardPfxLen := 0 }
  else { x with shardPfxLen := 63 - countTrailingZeroes64 x.shardPfx }

/-- `ShardId(wc_id, sh_pfx)`, whose length is set by `init`. -/
def ofPfx (wcId : Int32) (shPfx : UInt64) : ShardId := init ⟨wcId, 0, shPfx⟩

def ofShardIdFull (tonShardId : ShardIdFull) : ShardId := ofPfx tonShardId.workchain tonShardId.shard
def ofBlockId (tonBlockId : BlockId) : ShardId := ofPfx tonBlockId.workchain tonBlockId.shard
def ofBlockIdExt (tonBlockId : BlockIdExt) : ShardId := ofPfx tonBlockId.id.workchain tonBlockId.id.shard

/-- `ShardId(wc_id, sh_pfx, sh_pfx_len)`. -/
def ofPfxLen (wcId : Int32) (shPfx : UInt64) (shPfxLen : Int32) : ShardId :=
  if shPfxLen.toInt < 0 then ⟨wcId, 0, shardIdAll⟩
  else if 63 < shPfxLen.toInt then ⟨wcId, 63, shPfx ||| 1⟩
  else
    let pow : UInt64 := 1 <<< UInt64.ofNat (63 - shPfxLen.toInt.toNat)
    ⟨wcId, shPfxLen.toInt.toNat, (shPfx ||| pow) &&& (pow - 1)⟩

def serialize (x : ShardId) (cb : CellBuilder) : Option CellBuilder :=
  if x.workchainId = workchainInvalid ∨ cb.remainingBits < 104 then none
  else do
    let cb ← cb.storeLongBool 0 2
    let cb ← storeUlongRchkBool x.shardPfxLen 6 cb
    let cb ← cb.storeLongBool x.workchainId.toBitVec.toNat 32
    cb.storeLongBool (x.shardPfx &&& (x.shardPfx - 1)).toNat 64

/-- `deserialize`; where it returns false the identifier is made invalid. -/
def deserialize : Fetch ShardId := do
  Fetch.fetchTag 2 0
  let shardPfxLen ← Fetch.fetchUintInt 6
  let workchainId ← Fetch.fetchInt 32
  guard (Int32.ofInt workchainId ≠ workchainInvalid)
  let shardPfx ← Fetch.fetchUint 64
  let pow2 : UInt64 := 1 <<< UInt64.ofNat (63 - shardPfxLen)
  guard (UInt64.ofNat shardPfx &&& (pow2 - 1) = 0)
  return ⟨Int32.ofInt workchainId, shardPfxLen, UInt64.ofNat shardPfx ||| pow2⟩

/-! ## Ways to make one -/

/-- What a shard identifier is made of. -/
inductive Making
  | pfx (wcId : Int32) (shPfx : UInt64)
  | shardIdFull (tonShardId : ShardIdFull)
  | blockId (tonBlockId : BlockId)
  | blockIdExt (tonBlockId : BlockIdExt)
  | pfxLen (wcId : Int32) (shPfx : UInt64) (shPfxLen : Int32)
  | slice (cs : CellSlice)

namespace Making

/-- The identifier, if one is made. -/
def make : Making → Option ShardId
  | pfx wcId shPfx => some (ofPfx wcId shPfx)
  | shardIdFull s => some (ofShardIdFull s)
  | blockId b => some (ofBlockId b)
  | blockIdExt b => some (ofBlockIdExt b)
  | pfxLen wcId shPfx shPfxLen => some (ofPfxLen wcId shPfx shPfxLen)
  | slice cs => (deserialize cs).map (·.1)

/-- The prefix that is given; a slice has it behind 40 other bits. -/
def given : Making → UInt64
  | pfx _ shPfx => shPfx
  | shardIdFull s => s.shard
  | blockId b => b.shard
  | blockIdExt b => b.id.shard
  | pfxLen _ shPfx _ => shPfx
  | slice cs => UInt64.ofNat (bitsToNat ((cs.bits.drop 40).take 64))

/-- The same way, from words that need not be the same. -/
def SameWay : Making → Making → Prop
  | pfx wcId _, pfx wcId' _ => wcId' = wcId
  | shardIdFull s, shardIdFull s' => s'.workchain = s.workchain
  | blockId b, blockId b' => b'.workchain = b.workchain
  | blockIdExt b, blockIdExt b' => b'.id.workchain = b.id.workchain
  | pfxLen wcId _ shPfxLen, pfxLen wcId' _ shPfxLen' => wcId' = wcId ∧ shPfxLen' = shPfxLen
  | slice cs, slice cs' => cs'.bits.take 40 = cs.bits.take 40
  | _, _ => False

/-- A prefix together with a length that a prefix can have. -/
def HasLength : Making → Prop
  | pfxLen _ _ shPfxLen => 0 ≤ shPfxLen.toInt ∧ shPfxLen.toInt ≤ 63
  | _ => False

end Making

/-- The tag bit stands right behind the prefix, and the prefix is that of the given word. -/
structure Tagged (x : ShardId) (given : UInt64) : Prop where
  length : x.shardPfxLen ≤ 63
  lowest : LowBit x.shardPfx.toNat (63 - x.shardPfxLen)
  agrees : ∀ i, 63 - x.shardPfxLen < i → x.shardPfx.toNat.testBit i = given.toNat.testBit i

/-- What a shard identifier made so is expected to be: tagged, and the same for all words with the same prefix. -/
structure Normalized (m : Making) (x : ShardId) : Prop where
  tagged : x.Tagged m.given
  unaffected : ∀ m' y, m.SameWay m' → m'.make = some y → y.shardPfxLen = x.shardPfxLen →
    (∀ i, 63 - x.shardPfxLen < i → m'.given.toNat.testBit i = m.given.toNat.testBit i) → y = x

/-- What is written of `x` wherever there is room is read back as `x`, whatever follows it. -/
def RoundTrips (x : ShardId) : Prop := ∃ bits : List Bool,
  (∀ cb : CellBuilder, cb.bits.length + 104 ≤ maxBits → x.serialize cb = some ⟨cb.bits ++ bits, cb.refs⟩) ∧
    Fetches deserialize ⟨bits, []⟩ (· = x)

/-! ## Words -/

theorem toNat_pow {k : Nat} (h : k ≤ 63) : ((1 : UInt64) <<< UInt64.ofNat k).toNat = 2 ^ k := by
  have hshift : (UInt64.ofNat k).toNat % 64 = k := by
    rw [UInt64.toNat_ofNat', Nat.mod_eq_of_lt (by omega), Nat.mod_eq_of_lt (by omega)]
  have hlt : 2 ^ k < 2 ^ 64 := Nat.pow_lt_pow_right (by decide) (by omega)
  rw [UInt64.toNat_shiftLeft, hshift, UInt64.toNat_one, Nat.shiftLeft_eq, one_mul, Nat.mod_eq_of_lt hlt]

theorem toNat_pow_sub_one {k : Nat} (h : k ≤ 63) : ((1 : UInt64) <<< UInt64.ofNat k - 1).toNat = 2 ^ k - 1 := by
  have hle : (1 : UInt64) ≤ 1 <<< UInt64.ofNat k := by
    rw [UInt64.le_iff_toNat_le, toNat_pow h]
    exact Nat.one_le_two_pow
  rw [UInt64.toNat_sub_of_le _ _ hle, toNat_pow h, UInt64.toNat_one]

theorem testBit_of_le (x : UInt64) {i : Nat} (h : 64 ≤ i) : x.toNat.testBit i = false :=
  Nat.testBit_lt_two_pow (x.toNat_lt.trans_le (Nat.pow_le_pow_right (by decide) h))

theorem eq_of_lowBit {x y : UInt64} {t : Nat} (hx : LowBit x.toNat t) (hy : LowBit y.toNat t)
    (h : ∀ i, t < i → x.toNat.testBit i = y.toNat.testBit i) : x = y :=
  UInt64.toNat_inj.1 (hx.ext hy h)

/-- A word with its lowest bit cleared. -/
theorem testBit_and_pred {x : UInt64} {t : Nat} (h : LowBit x.toNat t) (i : Nat) :
    (x &&& (x - 1)).toNat.testBit i = (decide (t < i) && x.toNat.testBit i) := by
  have hne : x.toNat ≠ 0 := by
    intro hzero
    have hset := h.set
    rw [hzero, Nat.zero_testBit] at hset
    cases hset
  have hle : (1 : UInt64) ≤ x := by
    rw [UInt64.le_iff_toNat_le, UInt64.toNat_one]
    omega
  rw [UInt64.toNat_and, UInt64.toNat_sub_of_le _ _ hle, UInt64.toNat_one, h.testBit_and_sub_one]

/-! ## Normalization -/

/-- A tag bit is put behind a prefix whose lower bits are clear, but for the tag bit itself. -/
theorem lowBit_or {x : UInt64} {t : Nat} (ht : t ≤ 63) (h : ∀ i < t, x.toNat.testBit i = false) :
    LowBit (x ||| 1 <<< UInt64.ofNat t).toNat t ∧
      ∀ i, t < i → (x ||| 1 <<< UInt64.ofNat t).toNat.testBit i = x.toNat.testBit i := by
  have hbit (i : Nat) : (x ||| 1 <<< UInt64.ofNat t).toNat.testBit i = (x.toNat.testBit i || decide (t = i)) := by
    rw [UInt64.toNat_or, toNat_pow ht, Nat.testBit_or, Nat.testBit_two_pow]
  refine ⟨⟨?_, ?_⟩, ?_⟩
  · rw [hbit, decide_eq_true rfl, Bool.or_true]
  · intro i hi
    rw [hbit, h i hi, decide_eq_false (by omega), Bool.or_false]
  · intro i hi
    rw [hbit, decide_eq_false (by omega), Bool.or_false]

theorem lowBit_countTrailingZeroes64 {x : UInt64} (h : x ≠ 0) :
    countTrailingZeroes64 x ≤ 63 ∧ LowBit x.toNat (countTrailingZeroes64 x) := by
  have hne : x.toBitVec ≠ 0#64 := fun hzero => h (UInt64.toBitVec_inj.1 hzero)
  have hlt : x.toBitVec.ctz.toNat < 64 := BitVec.ctz_lt_iff_ne_zero.2 hne
  refine ⟨Nat.le_of_lt_succ hlt, ?_, ?_⟩
  · exact BitVec.getLsbD_true_ctz_of_ne_zero hne
  · intro i hi
    exact BitVec.getLsbD_false_of_lt_ctz hi

theorem tagged_ofPfx (wcId : Int32) (shPfx : UInt64) : (ofPfx wcId shPfx).Tagged shPfx := by
  unfold ofPfx init
  split
  · next h =>
    -- no tag bit at all stands for the whole workchain
    obtain rfl : shPfx = 0 := h
    refine ⟨Nat.zero_le _, (lowBit_or (le_refl 63) (x := 0) (by simp)).1, ?_⟩
    intro i hi
    rw [testBit_of_le _ (Nat.succ_le_of_lt hi), testBit_of_le _ (Nat.succ_le_of_lt hi)]
  · next h =>
    obtain ⟨hle, hlow⟩ := lowBit_countTrailingZeroes64 (x := shPfx) h
    have hsub : 63 - (63 - countTrailingZeroes64 shPfx) = countTrailingZeroes64 shPfx := by omega
    refine ⟨Nat.sub_le _ _, ?_, fun _ _ => rfl⟩
    show LowBit shPfx.toNat (63 - (63 - countTrailingZeroes64 shPfx))
    rwa [hsub]

/-- A length that no prefix has is replaced by the nearest one that a prefix has. -/
theorem tagged_ofPfxLen {wcId : Int32} {shPfx : UInt64} {shPfxLen : Int32}
    (h : ¬(0 ≤ shPfxLen.toInt ∧ shPfxLen.toInt ≤ 63)) : (ofPfxLen wcId shPfx shPfxLen).Tagged shPfx := by
  unfold ofPfxLen
  by_cases hneg : shPfxLen.toInt < 0
  · rw [if_pos hneg]
    refine ⟨Nat.zero_le _, (lowBit_or (le_refl 63) (x := 0) (by simp)).1, ?_⟩
    intro i hi
    rw [testBit_of_le _ (Nat.succ_le_of_lt hi), testBit_of_le _ (Nat.succ_le_of_lt hi)]
  · rw [if_neg hneg, if_pos (by omega)]
    obtain ⟨hlow, hagree⟩ := lowBit_or (x := shPfx) (Nat.zero_le 63) (by omega)
    exact ⟨le_refl 63, hlow, hagree⟩

/-- From a prefix and a length that it can have, the prefix is cut off and what is below it is kept. -/
theorem testBit_ofPfxLen {wcId : Int32} {shPfx : UInt64} {shPfxLen : Int32}
    (h : 0 ≤ shPfxLen.toInt ∧ shPfxLen.toInt ≤ 63) (i : Nat) :
    (ofPfxLen wcId shPfx shPfxLen).shardPfx.toNat.testBit i =
      (decide (i < 63 - shPfxLen.toInt.toNat) && shPfx.toNat.testBit i) := by
  have hle : 63 - shPfxLen.toInt.toNat ≤ 63 := Nat.sub_le _ _
  rw [ofPfxLen, if_neg (by omega), if_neg (by omega)]
  show ((shPfx ||| 1 <<< UInt64.ofNat (63 - shPfxLen.toInt.toNat)) &&&
    (1 <<< UInt64.ofNat (63 - shPfxLen.toInt.toNat) - 1)).toNat.testBit i = _
  rw [UInt64.toNat_and, UInt64.toNat_or, toNat_pow hle, toNat_pow_sub_one hle, Nat.testBit_and, Nat.testBit_or,
    Nat.testBit_two_pow, Nat.testBit_two_pow_sub_one]
  by_cases hi : i < 63 - shPfxLen.toInt.toNat
  · rw [decide_eq_true hi, decide_eq_false (by omega), Bool.or_false, Bool.and_true, Bool.true_and]
  · rw [decide_eq_false hi, Bool.and_false, Bool.false_and]

theorem shardPfxLen_ofPfxLen {wcId : Int32} {shPfx : UInt64} {shPfxLen : Int32}
    (h : 0 ≤ shPfxLen.toInt ∧ shPfxLen.toInt ≤ 63) :
    (ofPfxLen wcId shPfx shPfxLen).shardPfxLen = shPfxLen.toInt.toNat := by
  rw [ofPfxLen, if_neg (by omega), if_neg (by omega)]

/-- What is read is the prefix of the slice, with a tag bit behind it and nothing below. -/
theorem deserialize_eq_some {cs cs' : CellSlice} {x : ShardId} (h : deserialize cs = some (x, cs')) :
    x.shardPfxLen ≤ 63 ∧ x.workchainId ≠ workchainInvalid ∧
      x.workchainId = Int32.ofInt (BitVec.ofNat 32 (bitsToNat ((cs.bits.take 40).drop 8))).toInt ∧
      x.shardPfx = (Making.slice cs).given ||| 1 <<< UInt64.ofNat (63 - x.shardPfxLen) ∧
        ∀ i < 63 - x.shardPfxLen, (Making.slice cs).given.toNat.testBit i = false := by
  obtain ⟨⟨⟩, cs1, htag, h⟩ := Fetch.bind_eq_some.1 h
  obtain ⟨tag, cs0, hfetch, hguard⟩ := Fetch.bind_eq_some.1 htag
  obtain ⟨-, -, rfl⟩ := Fetch.fetchUint_eq_some.1 hfetch
  obtain ⟨-, rfl⟩ : tag = 0 ∧ cs1 = _ := by
    rw [← bind_pure (guard _)] at hguard
    obtain ⟨htag, hpure⟩ := Fetch.guard_bind_eq_some.1 hguard
    exact ⟨htag, (Prod.mk.inj (Option.some.inj hpure)).2.symm⟩
  obtain ⟨len, cs2, hlen, h⟩ := Fetch.bind_eq_some.1 h
  obtain ⟨n, cs3, hfetch, hguard⟩ := Fetch.bind_eq_some.1 hlen
  obtain ⟨hsize, hn, rfl⟩ := Fetch.fetchUint_eq_some.1 hfetch
  obtain ⟨rfl, rfl⟩ : n = len ∧ _ = cs2 := by
    obtain ⟨-, hpure⟩ := Fetch.guard_bind_eq_some.1 hguard
    exact Prod.mk.inj (Option.some.inj hpure)
  obtain ⟨wc, cs4, hwc, h⟩ := Fetch.bind_eq_some.1 h
  obtain ⟨v, cs5, hfetch, hpure⟩ := Fetch.bind_eq_some.1 hwc
  obtain ⟨-, hv, rfl⟩ := Fetch.fetchUint_eq_some.1 hfetch
  obtain ⟨hvalue, rfl⟩ : _ = wc ∧ _ = cs4 := Prod.mk.inj (Option.some.inj hpure)
  obtain ⟨hvalid, h⟩ := Fetch.guard_bind_eq_some.1 h
  obtain ⟨w, cs6, hfetch, h⟩ := Fetch.bind_eq_some.1 h
  obtain ⟨-, hw, rfl⟩ := Fetch.fetchUint_eq_some.1 hfetch
  obtain ⟨hclear, h⟩ := Fetch.guard_bind_eq_some.1 h
  obtain ⟨rfl, -⟩ := Prod.mk.inj (Option.some.inj h)
  have hlen : n ≤ 63 := by
    have hlt := bitsToNat_lt ((cs.bits.drop 2).take 6)
    rw [List.length_take, Nat.min_eq_left hsize] at hlt
    rw [hn]
    exact Nat.le_of_lt_succ hlt
  have hgiven : UInt64.ofNat w = (Making.slice cs).given := by
    rw [hw]
    simp only [Making.given, List.drop_drop]
  rw [← UInt64.toNat_inj, UInt64.toNat_and, toNat_pow_sub_one (Nat.sub_le _ _), UInt64.toNat_zero,
    and_two_pow_sub_one_eq_zero_iff] at hclear
  refine ⟨hlen, hvalid, ?_, ?_, ?_⟩
  · rw [← hvalue, hv, List.drop_drop, List.drop_take]
  · rw [← hgiven]
  · rw [← hgiven]
    exact hclear

theorem tagged_of_deserialize {cs cs' : CellSlice} {x : ShardId} (h : deserialize cs = some (x, cs')) :
    x.Tagged (Making.slice cs).given := by
  obtain ⟨hlen, -, -, hpfx, hclear⟩ := deserialize_eq_some h
  obtain ⟨hlow, hagree⟩ := lowBit_or (Nat.sub_le 63 x.shardPfxLen) hclear
  rw [← hpfx] at hlow hagree
  exact ⟨hlen, hlow, hagree⟩

namespace Making

variable {m m' : Making} {x y : ShardId}

theorem tagged_make (h : m.make = some x) (hm : ¬m.HasLength) : x.Tagged m.given := by
  cases m with
  | pfx | shardIdFull | blockId | blockIdExt =>
    obtain rfl := Option.some.inj h
    exact tagged_ofPfx _ _
  | pfxLen =>
    obtain rfl := Option.some.inj h
    exact tagged_ofPfxLen hm
  | slice cs =>
    obtain ⟨⟨z, cs'⟩, hread, rfl⟩ := Option.map_eq_some_iff.1 h
    exact tagged_of_deserialize hread

theorem workchainId_make (h : m.make = some x) (h' : m'.make = some y) (hm : m.SameWay m') :
    y.workchainId = x.workchainId := by
  have hpfx (wcId : Int32) (shPfx : UInt64) : (ofPfx wcId shPfx).workchainId = wcId := by
    unfold ofPfx init
    split <;> rfl
  have hpfxLen (wcId : Int32) (shPfx : UInt64) (shPfxLen : Int32) :
      (ofPfxLen wcId shPfx shPfxLen).workchainId = wcId := by
    unfold ofPfxLen
    split
    · rfl
    · split <;> rfl
  cases m <;> cases m' <;> first | exact hm.elim | skip
  case slice.slice cs cs' =>
    obtain ⟨⟨z, rest⟩, hread, rfl⟩ := Option.map_eq_some_iff.1 h
    obtain ⟨⟨z', rest'⟩, hread', rfl⟩ := Option.map_eq_some_iff.1 h'
    obtain ⟨-, -, hwc, -⟩ := deserialize_eq_some hread
    obtain ⟨-, -, hwc', -⟩ := deserialize_eq_some hread'
    have hbits : cs'.bits.take 40 = cs.bits.take 40 := hm
    rw [hwc, hwc', hbits]
  case pfxLen.pfxLen =>
    obtain ⟨rfl, rfl⟩ := hm
    obtain rfl := Option.some.inj h
    obtain rfl := Option.some.inj h'
    rw [hpfxLen, hpfxLen]
  all_goals
    obtain rfl := Option.some.inj h
    obtain rfl := Option.some.inj h'
    exact (hpfx _ _).trans (Eq.trans hm (hpfx _ _).symm)

theorem SameWay.hasLength (hm : m.SameWay m') (h : m'.HasLength) : m.HasLength := by
  cases m <;> cases m' <;> first | exact hm.elim | exact h.elim | skip
  obtain ⟨-, rfl⟩ := hm
  exact h

theorem normalized_make (h : m.make = some x) (hm : ¬m.HasLength) : Normalized m x := by
  have htagged := tagged_make h hm
  refine ⟨htagged, ?_⟩
  intro m' y hway hmake hlen hagree
  have htagged' := tagged_make hmake fun h => hm (hway.hasLength h)
  have hlow := htagged'.lowest
  rw [hlen] at hlow
  have hpfx : y.shardPfx = x.shardPfx := by
    refine eq_of_lowBit hlow htagged.lowest fun i hi => ?_
    rw [htagged'.agrees i (by omega), htagged.agrees i hi, hagree i hi]
  have hwc := workchainId_make h hmake hway
  cases x
  cases y
  simp only at hlen hpfx hwc
  rw [hlen, hpfx, hwc]

end Making

/-! ## Reading back -/

/-- What is written of an identifier. -/
def serialized (x : ShardId) : List Bool :=
  natToBits 2 0 ++ natToBits 6 x.shardPfxLen ++ natToBits 32 x.workchainId.toBitVec.toNat ++
    natToBits 64 (x.shardPfx &&& (x.shardPfx - 1)).toNat

theorem serialize_eq {x : ShardId} (hwc : x.workchainId ≠ workchainInvalid) (hlen : x.shardPfxLen ≤ 63)
    {cb : CellBuilder} (hcb : cb.bits.length + 104 ≤ maxBits) :
    x.serialize cb = some ⟨cb.bits ++ x.serialized, cb.refs⟩ := by
  have hroom : ¬(x.workchainId = workchainInvalid ∨ cb.remainingBits < 104) := by
    rw [not_or]
    refine ⟨hwc, ?_⟩
    show ¬maxBits - cb.bits.length < 104
    omega
  rw [serialize, if_neg hroom, CellBuilder.storeLongBool_ok _ _ _ (by omega)]
  simp only [Option.bind_eq_bind, Option.bind_some]
  rw [storeUlongRchkBool, if_pos (Nat.lt_of_le_of_lt hlen (by decide)),
    CellBuilder.storeLongBool_ok _ _ _ (by simp only [List.length_append, length_natToBits]; omega)]
  simp only [Option.bind_some]
  rw [CellBuilder.storeLongBool_ok _ _ _ (by simp only [List.length_append, length_natToBits]; omega)]
  simp only [Option.bind_some]
  rw [CellBuilder.storeLongBool_ok _ _ _ (by simp only [List.length_append, length_natToBits]; omega), serialized]
  simp only [List.append_assoc]

/-- The tag bit is taken off and put on again. -/
theorem and_pred_or_pow {x : ShardId} {given : UInt64} (h : x.Tagged given) :
    (∀ i < 63 - x.shardPfxLen, (x.shardPfx &&& (x.shardPfx - 1)).toNat.testBit i = false) ∧
      x.shardPfx &&& (x.shardPfx - 1) ||| (1 : UInt64) <<< UInt64.ofNat (63 - x.shardPfxLen) = x.shardPfx := by
  have hclear : ∀ i < 63 - x.shardPfxLen, (x.shardPfx &&& (x.shardPfx - 1)).toNat.testBit i = false := by
    intro i hi
    rw [testBit_and_pred h.lowest, decide_eq_false (by omega), Bool.false_and]
  obtain ⟨hlow, hagree⟩ := lowBit_or (Nat.sub_le 63 x.shardPfxLen) hclear
  refine ⟨hclear, eq_of_lowBit hlow h.lowest fun i hi => ?_⟩
  rw [hagree i hi, testBit_and_pred h.lowest, decide_eq_true hi, Bool.true_and]

theorem roundTrips_of_tagged {x : ShardId} {given : UInt64} (h : x.Tagged given)
    (hwc : x.workchainId ≠ workchainInvalid) : x.RoundTrips := by
  refine ⟨x.serialized, fun cb hcb => serialize_eq hwc h.length hcb, ?_⟩
  obtain ⟨hclear, hpfx⟩ := and_pred_or_pow h
  have hlen : x.shardPfxLen < 2 ^ 6 := Nat.lt_of_le_of_lt h.length (by decide)
  have hslice : (⟨x.serialized, []⟩ : Slice) = (⟨natToBits 2 0, []⟩ : Slice).append
      ((⟨natToBits 6 x.shardPfxLen, []⟩ : Slice).append ((⟨natToBits 32 x.workchainId.toBitVec.toNat, []⟩ : Slice).append
        ⟨natToBits 64 (x.shardPfx &&& (x.shardPfx - 1)).toNat, []⟩)) := by
    simp only [serialized, Slice.append, List.append_assoc, List.append_nil]
  rw [hslice]
  refine (Fetches.fetchTag (length_natToBits 2 0) rfl).bind fun _ _ => ?_
  refine (Fetches.fetchUintInt hlen (hlen.trans (by decide))).bind fun n hn => ?_
  subst hn
  refine (Fetches.fetchInt x.workchainId.toBitVec).bind fun wc hwcBits => ?_
  have hwcEq : Int32.ofInt wc = x.workchainId := by
    rw [hwcBits]
    exact Int32.ofInt_toInt x.workchainId
  refine Fetches.guard_bind (by rwa [hwcEq]) ?_
  rw [← Slice.append_empty ⟨natToBits 64 _, []⟩]
  refine (Fetches.fetchUint_natToBits (UInt64.toNat_lt _)).bind fun w hw => ?_
  have hwEq : UInt64.ofNat w = x.shardPfx &&& (x.shardPfx - 1) := by
    rw [hw, UInt64.ofNat_toNat]
  refine Fetches.guard_bind ?_ (Fetches.pure ?_)
  · rw [hwEq, ← UInt64.toNat_inj, UInt64.toNat_and, toNat_pow_sub_one (Nat.sub_le _ _), UInt64.toNat_zero,
      and_two_pow_sub_one_eq_zero_iff]
    exact hclear
  · rw [hwEq, hwcEq, hpfx]

/-- What is read back has a tag bit where its length says. -/
theorem testBit_of_roundTrips {x : ShardId} (hwc : x.workchainId ≠ workchainInvalid) (h : x.RoundTrips) :
    x.shardPfx.toNat.testBit (63 - x.shardPfxLen) = true := by
  obtain ⟨bits, -, hread⟩ := h
  obtain ⟨y, hy, rfl⟩ := hread ⟨.none, .mk false [] [], bits, []⟩ Slice.empty ⟨(List.append_nil _).symm, rfl⟩
  exact (tagged_of_deserialize hy).lowest.set

/-- For every way to make a shard identifier of a valid workchain: it is normalized, and read back as it was written,
just when it is not made from a prefix together with a length that the prefix can have. -/
theorem normalized_iff (m : Making) (hvalid : ∀ x, m.make = some x → x.workchainId ≠ workchainInvalid) :
    ((∀ x, m.make = some x → Normalized m x) ↔ ¬m.HasLength) ∧
      ((∀ x, m.make = some x → x.RoundTrips) ↔ ¬m.HasLength) := by
  -- cut off from its low end, the word has no tag bit
  have hcut (wcId : Int32) (shPfx : UInt64) (shPfxLen : Int32) (h : 0 ≤ shPfxLen.toInt ∧ shPfxLen.toInt ≤ 63) :
      (ofPfxLen wcId shPfx shPfxLen).shardPfx.toNat.testBit (63 - (ofPfxLen wcId shPfx shPfxLen).shardPfxLen) =
        false := by
    rw [testBit_ofPfxLen h, shardPfxLen_ofPfxLen h, decide_eq_false (lt_irrefl _), Bool.false_and]
  refine ⟨⟨?_, ?_⟩, ⟨?_, ?_⟩⟩
  · intro h hm
    cases m with
    | pfxLen wcId shPfx shPfxLen =>
      have hset := (h _ rfl).tagged.lowest.set
      rw [hcut wcId shPfx shPfxLen hm] at hset
      cases hset
    | _ => exact hm
  · exact fun hm x hx => Making.normalized_make hx hm
  · intro h hm
    cases m with
    | pfxLen wcId shPfx shPfxLen =>
      have hset := testBit_of_roundTrips (hvalid _ rfl) (h _ rfl)
      rw [hcut wcId shPfx shPfxLen hm] at hset
      cases hset
    | _ => exact hm
  · exact fun hm x hx => roundTrips_of_tagged (Making.tagged_make hx hm) (hvalid x hx)

/-- An identifier of the basechain, from a tagged prefix of two bits. -/
theorem normalized_basechain :
    ((∀ x, (Making.pfx 0 0x6000000000000000).make = some x → Normalized (.pfx 0 0x6000000000000000) x) ↔
      ¬(Making.pfx 0 0x6000000000000000).HasLength) ∧
      ((∀ x, (Making.pfx 0 0x6000000000000000).make = some x → x.RoundTrips) ↔
        ¬(Making.pfx 0 0x6000000000000000).HasLength) :=
  normalized_iff (.pfx 0 0x6000000000000000) fun x hx => by
    obtain rfl := Option.some.inj hx
    decide

/-- From the prefix `1` and the length one, the prefix is lost and the word is zero; it is not read back. -/
theorem pfxLen_not_normalized : (Making.pfxLen 0 0x8000000000000000 1).make = some ⟨0, 1, 0⟩ ∧
    ¬Normalized (.pfxLen 0 0x8000000000000000 1) ⟨0, 1, 0⟩ ∧ ¬RoundTrips ⟨0, 1, 0⟩ := by
  refine ⟨by decide, ?_, ?_⟩
  · intro h
    exact absurd h.tagged.lowest.set (by decide)
  · intro h
    exact absurd (testBit_of_roundTrips (by decide) h) (by decide)

end ShardId

end TonWallet.Block
