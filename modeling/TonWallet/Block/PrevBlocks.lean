/-
Searching the previous masterchain blocks (`ConfigInfo`, `block/mc-config`): the last key block up to a number, the next one
from a number on, and the first block that ends at a logical time or later. Each search goes through the dictionary of
previous blocks by the extras of its forks, and knows the current block besides.
-/
import TonWallet.Block.OldMcBlocks

namespace TonWallet.Block

open Lib TonWallet.Td TonWallet.Ton TonWallet.Vm TonWallet.Vm.Dict

/-- `ConfigInfo`, as far as it is searched. -/
structure ConfigInfo where
  blockId : BlockIdExt
  isKeyState : Bool
  lt : UInt64
  prevBlocksDict : DictionaryBase

namespace ConfigInfo

/-! ## The functions that steer -/

/-- All that ends before the time is left out. -/
def steerByLt (reqLt : UInt64) : TraverseFunc := fun _ extra _ => match KeyMaxLt.ofSlice extra with
  | none => -1
  | some x => if x.maxEndLt < reqLt then 0 else 6

/-- What is common to the searches for key blocks: at a leaf the number is compared, at a fork of `d` more bits its first
ones, as `x`, with those of the number that is looked for, up to the next bit, as `y`. -/
def steerKey (reqSeqno : UInt32) (atLeaf : UInt32 → Int) (atFork : UInt32 → UInt32 → Int) : TraverseFunc :=
  fun keyPrefix extra _ =>
    if extra.bits.head? ≠ some true then 0
    else
      let x := keySeqno keyPrefix
      let d : UInt32 := 32 - .ofNat keyPrefix.length
      if d = 0 then atLeaf x else atFork x (reqSeqno >>> (d - 1))

def steerPrevKey (reqSeqno : UInt32) : TraverseFunc :=
  steerKey reqSeqno (fun x => if x ≤ reqSeqno then 1 else 0)
    fun x y => if y < 2 * x then 0 else if y = 2 * x then 1 else 5

def steerNextKey (reqSeqno : UInt32) : TraverseFunc :=
  steerKey reqSeqno (fun x => if x ≥ reqSeqno then 1 else 0)
    fun x y => if y > 2 * x + 1 then 0 else if y = 2 * x + 1 then 2 else 6

/-! ## The searches -/

/-- The block that a traversal has found is unpacked. -/
def foundBlock : Traversed → Result (Option (BlockIdExt × UInt64))
  | .nothing => .ok none
  | .combineError _ => .error (.check "CombineErrorValue")
  | .found key value _ => match unpackOldMcBlockId value (keySeqno key) with
    | some found => .ok (some found)
    | none => .error (.check "unpack_old_mc_block_id(..)")

/-- The block that a traversal of the dictionary finds. -/
def findPrevBlock (info : ConfigInfo) (traverseNode : TraverseFunc) : Result (Option (BlockIdExt × UInt64)) := do
  foundBlock (← AugmentedDictionary.traverseExtra augOldMcBlocksInfo traverseNode 32 info.prevBlocksDict)

/-- What a search leaves behind: whether it has found a block, and its arguments `blkid` and `*end_lt`. -/
structure SearchResult where
  found : Bool
  blkid : BlockIdExt
  endLt : UInt64

/-- `get_mc_block_by_lt`. -/
def getMcBlockByLt (info : ConfigInfo) (reqLt : UInt64) (blkid : BlockIdExt) (endLt : UInt64) : Result SearchResult := do
  if reqLt > info.lt then return ⟨false, blkid, endLt⟩
  else
    match ← info.findPrevBlock (steerByLt reqLt) with
    | some (blkid, endLt) => return ⟨true, blkid, endLt⟩
    | none =>
      if info.blockId.isValid then return ⟨true, info.blockId, info.lt⟩ else return ⟨false, blkid, endLt⟩

/-- `get_prev_key_block`. -/
def getPrevKeyBlock (info : ConfigInfo) (reqSeqno : UInt32) (blkid : BlockIdExt) (endLt : UInt64) :
    Result SearchResult := do
  if info.blockId.isValid && info.isKeyState && decide (info.blockId.seqno ≤ reqSeqno) then
    return ⟨true, info.blockId, info.lt⟩
  else
    match ← info.findPrevBlock (steerPrevKey reqSeqno) with
    | some (blkid, endLt) =>
      if blkid.seqno ≤ reqSeqno then return ⟨true, blkid, endLt⟩
      else .error (.check "blkid.seqno() <= req_seqno")
    | none => return ⟨false, blkid.invalidate, endLt⟩

/-- `get_next_key_block`. -/
def getNextKeyBlock (info : ConfigInfo) (reqSeqno : UInt32) (blkid : BlockIdExt) (endLt : UInt64) :
    Result SearchResult := do
  match ← info.findPrevBlock (steerNextKey reqSeqno) with
  | some (blkid, endLt) =>
    if blkid.seqno ≥ reqSeqno then return ⟨true, blkid, endLt⟩
    else .error (.check "blkid.seqno() >= req_seqno")
  | none =>
    if info.blockId.isValid && info.isKeyState && decide (info.blockId.seqno ≥ reqSeqno) then
      return ⟨true, info.blockId, info.lt⟩
    else return ⟨false, blkid.invalidate, endLt⟩

/-! ## Nothing is left out -/

/-- A leaf is accepted by the number and the extra of its block. -/
def accepts (good : UInt32 → KeyMaxLt → Bool) (e : List Bool × Slice) : Bool :=
  ((KeyMaxLt.ofSlice e.2).map (good (keySeqno e.1))).getD false

theorem accepts_eq_true {good : UInt32 → KeyMaxLt → Bool} {e : List Bool × Slice} :
    accepts good e = true ↔ ∃ x, KeyMaxLt.ofSlice e.2 = some x ∧ good (keySeqno e.1) x = true := by
  unfold accepts
  cases KeyMaxLt.ofSlice e.2 <;> simp

/-- The keys of a branch, as numbers: they begin with the bits in front of it. -/
theorem entry_range {k : List Bool} {m : Nat} {b : Bool} {t : PrefixTree Slice} (ht : t.Keyed m)
    {e : List Bool × Slice} (he : e ∈ t.entries (k ++ [b])) :
    2 ^ m * (2 * bitsToNat k + b.toNat) ≤ bitsToNat e.1 ∧
      bitsToNat e.1 < 2 ^ m * (2 * bitsToNat k + b.toNat + 1) := by
  obtain ⟨key, p⟩ := e
  obtain ⟨r, rfl, hget⟩ := PrefixTree.mem_entries.1 he
  have hr : r.length = m := by
    by_contra hne
    rw [ht.get_eq_none hne] at hget
    cases hget
  have hlt := bitsToNat_lt r
  rw [List.append_assoc, List.singleton_append, bitsToNat_append_cons, hr]
  rw [hr] at hlt
  constructor
  · omega
  · rw [Nat.mul_add _ _ 1]
    omega

/-- Behind the extra of a leaf is its value. -/
theorem skipExtra_leaf (b : OldMcBlock) (seqno : UInt32) :
    augOldMcBlocksInfo.skipExtra (b.leaf seqno) = some (b.value seqno) := by
  have hlen : 65 ≤ (b.leaf seqno).bits.length := by simp [OldMcBlock.leaf, Slice.append]
  rw [augOldMcBlocksInfo]
  simp only [if_pos hlen]
  simp [OldMcBlock.leaf, Slice.append, KeyMaxLt.slice]

theorem extractExtra_leaf (b : OldMcBlock) (seqno : UInt32) :
    augOldMcBlocksInfo.extractExtra (b.leaf seqno) = some b.extra.slice :=
  AugmentationData.extractExtra_append (skipExtra_leaf b seqno)

@[simp] theorem accepts_leaf (good : UInt32 → KeyMaxLt → Bool) (k : List Bool) (b : OldMcBlock) (seqno : UInt32) :
    accepts good (k, b.leaf seqno) = good (keySeqno k) b.extra := by
  simp [accepts, OldMcBlock.leaf]

/-- What is not good for any block of a tree is accepted nowhere. -/
theorem accepts_false {good : UInt32 → KeyMaxLt → Bool} {t : PrefixTree Slice} {x : KeyMaxLt} (hx : extraOf t = some x)
    {q : List Bool} (h : ∀ e ∈ t.entries q, ∀ y : KeyMaxLt, (y.key = true → x.key = true) → y.maxEndLt ≤ x.maxEndLt →
      good (keySeqno e.1) y = false) : ∀ e ∈ t.entries q, accepts good e = false := by
  intro e he
  obtain ⟨y, hy, hkey, hlt⟩ := extraOf_entries hx q e he
  rw [accepts, hy]
  exact h e he y hkey hlt

/-- Blocks that end at a time or later. -/
def endsAt (reqLt : UInt64) (_ : UInt32) (x : KeyMaxLt) : Bool := decide (reqLt ≤ x.maxEndLt)

theorem directs_steerByLt (reqLt : UInt64) :
    Directs augOldMcBlocksInfo oldMcBlocksRules 32 false (accepts (endsAt reqLt)) (steerByLt reqLt) := by
  constructor
  · intro k p hk hp
    obtain ⟨b, rfl⟩ := hp
    refine ⟨_, _, skipExtra_leaf b _, extractExtra_leaf b _, ?_, ?_⟩
    · intro haccept
      have hle : ¬b.extra.maxEndLt < reqLt := by simpa [endsAt] using haccept
      simp only [steerByLt, KeyMaxLt.ofSlice_slice, if_neg hle]
      decide
    · intro hreject
      have hlt : b.extra.maxEndLt < reqLt := by simpa [endsAt] using hreject
      simp only [steerByLt, KeyMaxLt.ofSlice_slice, if_pos hlt]
  · rintro k m a b p hk ha hb ⟨x, y, hx, hy, hp⟩
    rw [hp]
    simp only [steerByLt, KeyMaxLt.ofSlice_slice]
    split
    · next hlt =>
      refine .skip (accepts_false hx fun e _ z _ hz => ?_) (accepts_false hy fun e _ z _ hz => ?_)
      · have hle := UInt64.le_trans hz (x.maxEndLt_le_add_left y)
        exact decide_eq_false (UInt64.not_le.2 (UInt64.lt_of_le_of_lt hle hlt))
      · have hle := UInt64.le_trans hz (x.maxEndLt_le_add_right y)
        exact decide_eq_false (UInt64.not_le.2 (UInt64.lt_of_le_of_lt hle hlt))
    · exact .both

/-- Key blocks whose number is asked for. -/
def keyWith (asked : UInt32 → Bool) (seqno : UInt32) (x : KeyMaxLt) : Bool := x.key && asked seqno

/-- The numbers below the two branches of a fork behind the bits of `x`. -/
structure Below (x : UInt32) (m : Nat) (as bs : List (List Bool × Slice)) : Prop where
  fits : 2 ^ m * (2 * x.toNat + 2) ≤ 2 ^ 32
  left : ∀ e ∈ as, 2 ^ m * (2 * x.toNat) ≤ (keySeqno e.1).toNat ∧ (keySeqno e.1).toNat < 2 ^ m * (2 * x.toNat + 1)
  right : ∀ e ∈ bs, 2 ^ m * (2 * x.toNat + 1) ≤ (keySeqno e.1).toNat ∧
    (keySeqno e.1).toNat < 2 ^ m * (2 * x.toNat + 2)

theorem below_fork {k : List Bool} {m : Nat} {a b : PrefixTree Slice} (hk : k.length + m + 1 = 32) (ha : a.Keyed m)
    (hb : b.Keyed m) : Below (keySeqno k) m (a.entries (k ++ [false])) (b.entries (k ++ [true])) := by
  have hlt := bitsToNat_lt k
  have hpow : 2 ^ m * (2 ^ k.length * 2) = 2 ^ 32 := by
    rw [← pow_succ, ← pow_add]
    congr 1
    omega
  have hfits : 2 ^ m * (2 * bitsToNat k + 2) ≤ 2 ^ 32 := by
    rw [← hpow]
    exact Nat.mul_le_mul_left _ (by omega)
  have hmod : ∀ n, n < 2 ^ 32 → (UInt32.ofNat n).toNat = n := fun n hn => Nat.mod_eq_of_lt hn
  have hx : (keySeqno k).toNat = bitsToNat k := by
    refine hmod _ (lt_of_lt_of_le hlt (Nat.pow_le_pow_right (by omega) (by omega)))
  have hstep : 2 ^ m * (2 * bitsToNat k + 1) ≤ 2 ^ m * (2 * bitsToNat k + 2) := Nat.mul_le_mul_left _ (by omega)
  constructor
  · rwa [hx]
  · intro e he
    have hrange := entry_range ha he
    rw [Bool.toNat_false, Nat.add_zero] at hrange
    rw [hx, keySeqno, hmod _ (by omega)]
    exact hrange
  · intro e he
    have hrange : 2 ^ m * (2 * bitsToNat k + 1) ≤ bitsToNat e.1 ∧ bitsToNat e.1 < 2 ^ m * (2 * bitsToNat k + 2) :=
      entry_range hb he
    rw [hx, keySeqno, hmod _ (by omega)]
    exact hrange

/-- The bits that are left at a fork, without the next one. -/
theorem bits_left {l m : Nat} (h : l + m + 1 = 32) :
    (32 : UInt32) - .ofNat l ≠ 0 ∧ (32 : UInt32) - .ofNat l - 1 = .ofNat m := by
  have hall : ∀ m < 32, (32 : UInt32) - .ofNat (31 - m) ≠ 0 ∧ (32 : UInt32) - .ofNat (31 - m) - 1 = .ofNat m := by
    decide
  obtain rfl : l = 31 - m := by omega
  exact hall m (by omega)

theorem toNat_shift (x : UInt32) {m : Nat} (hm : m < 32) : (x >>> UInt32.ofNat m).toNat = x.toNat / 2 ^ m := by
  have hmod : (UInt32.ofNat m).toNat % 32 = m := by
    rw [UInt32.toNat_ofNat']
    omega
  rw [UInt32.toNat_shiftRight, hmod, Nat.shiftRight_eq_div_pow]

theorem directs_steerKey {reqSeqno : UInt32} {asked : UInt32 → Bool} {back : Bool} {atLeaf : UInt32 → Int}
    {atFork : UInt32 → UInt32 → Int}
    (hleaf : ∀ x, (asked x = true → 0 < atLeaf x) ∧ (asked x = false → atLeaf x = 0))
    (hfork : ∀ (x y : UInt32) (m : Nat) (as bs : List (List Bool × Slice)), Below x m as bs →
      y.toNat = reqSeqno.toNat / 2 ^ m → Steers back (fun e => asked (keySeqno e.1)) as bs (atFork x y)) :
    Directs augOldMcBlocksInfo oldMcBlocksRules 32 back (accepts (keyWith asked)) (steerKey reqSeqno atLeaf atFork) := by
  constructor
  · intro k p hk hp
    obtain ⟨b, rfl⟩ := hp
    refine ⟨_, _, skipExtra_leaf b _, extractExtra_leaf b _, ?_⟩
    have hd : (32 : UInt32) - .ofNat k.length = 0 := by
      rw [hk]
      rfl
    rw [accepts_leaf, keyWith]
    cases hkey : b.extra.key with
    | false =>
      have hhead : b.extra.slice.bits.head? ≠ some true := by simp [KeyMaxLt.slice, hkey]
      simp [steerKey, hhead]
    | true =>
      have hhead : b.extra.slice.bits.head? = some true := by simp [KeyMaxLt.slice, hkey]
      simp only [steerKey, hhead, hd, ne_eq, not_true_eq_false, if_false, if_true, Bool.true_and]
      exact hleaf _
  · rintro k m a b p hk ha hb ⟨x, y, hx, hy, hp⟩
    rw [hp]
    cases hkey : (x.add y).key with
    | false =>
      have hhead : (x.add y).slice.bits.head? ≠ some true := by simp [KeyMaxLt.slice, hkey]
      have hxkey : x.key = false ∧ y.key = false := by simpa [KeyMaxLt.add] using hkey
      simp only [steerKey, hhead, ne_eq, not_false_eq_true, if_true]
      refine .skip (accepts_false hx fun e _ z hz _ => ?_) (accepts_false hy fun e _ z hz _ => ?_)
      · cases hzkey : z.key with
        | false => simp [keyWith, hzkey]
        | true => rw [hz hzkey] at hxkey; exact absurd hxkey.1 (by decide)
      · cases hzkey : z.key with
        | false => simp [keyWith, hzkey]
        | true => rw [hz hzkey] at hxkey; exact absurd hxkey.2 (by decide)
    | true =>
      have hhead : (x.add y).slice.bits.head? = some true := by simp [KeyMaxLt.slice, hkey]
      obtain ⟨hd, hm⟩ := bits_left hk
      simp only [steerKey, hhead, hd, hm, ne_eq, not_true_eq_false, if_false]
      refine (hfork _ _ m _ _ (below_fork hk ha hb) (toNat_shift reqSeqno (by omega))).imp fun e he => ?_
      obtain ⟨z, -, hz⟩ := accepts_eq_true.1 he
      exact (Bool.and_eq_true_iff.1 hz).2

theorem directs_steerPrevKey (reqSeqno : UInt32) : Directs augOldMcBlocksInfo oldMcBlocksRules 32 true
    (accepts (keyWith fun seqno => decide (seqno ≤ reqSeqno))) (steerPrevKey reqSeqno) := by
  refine directs_steerKey (fun x => ?_) fun x y m as bs hbelow hy => ?_
  · by_cases hx : x ≤ reqSeqno <;> simp [hx]
  · have hpow : 0 < 2 ^ m := Nat.two_pow_pos m
    have hfits : 2 * x.toNat + 2 ≤ 2 ^ 32 := le_trans (Nat.le_mul_of_pos_left _ hpow) hbelow.fits
    have hdouble : (2 * x).toNat = 2 * x.toNat := by
      rw [UInt32.toNat_mul]
      exact Nat.mod_eq_of_lt (by simp; omega)
    have hreject : ∀ e : List Bool × Slice, reqSeqno.toNat < (keySeqno e.1).toNat →
        decide (keySeqno e.1 ≤ reqSeqno) = false := fun e he =>
      decide_eq_false fun hle => absurd (UInt32.le_iff_toNat_le.1 hle) (Nat.not_le.2 he)
    simp only [UInt32.lt_iff_toNat_lt, ← UInt32.toNat_inj, hdouble, hy]
    split
    · next hskip =>
      -- the number that is looked for is in front of both branches
      have hlt : reqSeqno.toNat < 2 ^ m * (2 * x.toNat) := by
        rw [Nat.mul_comm]
        exact (Nat.div_lt_iff_lt_mul hpow).1 hskip
      have hstep : 2 ^ m * (2 * x.toNat) ≤ 2 ^ m * (2 * x.toNat + 1) := Nat.mul_le_mul_left _ (by omega)
      exact .skip (fun e he => hreject e (lt_of_lt_of_le hlt (hbelow.left e he).1))
        fun e he => hreject e (lt_of_lt_of_le hlt (le_trans hstep (hbelow.right e he).1))
    · split
      · next hleft =>
        have hlt : reqSeqno.toNat < 2 ^ m * (2 * x.toNat + 1) := by
          rw [Nat.mul_comm]
          exact (Nat.div_lt_iff_lt_mul hpow).1 (by omega)
        exact .left fun e he => hreject e (lt_of_lt_of_le hlt (hbelow.right e he).1)
      · exact .both

theorem directs_steerNextKey (reqSeqno : UInt32) : Directs augOldMcBlocksInfo oldMcBlocksRules 32 false
    (accepts (keyWith fun seqno => decide (seqno ≥ reqSeqno))) (steerNextKey reqSeqno) := by
  refine directs_steerKey (fun x => ?_) fun x y m as bs hbelow hy => ?_
  · by_cases hx : x ≥ reqSeqno <;> simp [hx]
  · have hpow : 0 < 2 ^ m := Nat.two_pow_pos m
    have hfits : 2 * x.toNat + 2 ≤ 2 ^ 32 := le_trans (Nat.le_mul_of_pos_left _ hpow) hbelow.fits
    have hdouble : (2 * x + 1).toNat = 2 * x.toNat + 1 := by
      have hmul : (2 * x).toNat = 2 * x.toNat := by
        rw [UInt32.toNat_mul]
        exact Nat.mod_eq_of_lt (by simp; omega)
      rw [UInt32.toNat_add, hmul]
      exact Nat.mod_eq_of_lt (by simp; omega)
    have hreject : ∀ e : List Bool × Slice, (keySeqno e.1).toNat < reqSeqno.toNat →
        decide (keySeqno e.1 ≥ reqSeqno) = false := fun e he =>
      decide_eq_false fun hle => absurd (UInt32.le_iff_toNat_le.1 hle) (Nat.not_le.2 he)
    simp only [gt_iff_lt, UInt32.lt_iff_toNat_lt, ← UInt32.toNat_inj, hdouble, hy]
    split
    · next hskip =>
      -- the number that is looked for is behind both branches
      have hle : 2 ^ m * (2 * x.toNat + 2) ≤ reqSeqno.toNat := by
        rw [Nat.mul_comm]
        exact (Nat.le_div_iff_mul_le hpow).1 hskip
      have hstep : 2 ^ m * (2 * x.toNat + 1) ≤ 2 ^ m * (2 * x.toNat + 2) := Nat.mul_le_mul_left _ (by omega)
      exact .skip (fun e he => hreject e (lt_of_lt_of_le (hbelow.left e he).2 (le_trans hstep hle)))
        fun e he => hreject e (lt_of_lt_of_le (hbelow.right e he).2 hle)
    · split
      · next hright =>
        have hle : 2 ^ m * (2 * x.toNat + 1) ≤ reqSeqno.toNat := by
          rw [Nat.mul_comm]
          exact (Nat.le_div_iff_mul_le hpow).1 (le_of_eq hright.symm)
        exact .right fun e he => hreject e (lt_of_lt_of_le (hbelow.left e he).2 hle)
      · exact .both

/-! ## The blocks that are known -/

/-- The dictionary of a state holds blocks, and these are before the block of the state. -/
structure PrevBlocks (info : ConfigInfo) (blocks : UInt32 → Option OldMcBlock) : Prop where
  keyBits : info.prevBlocksDict.keyBits = 32
  shaped : ∃ m, info.prevBlocksDict.Shaped .chkSize oldMcBlocksRules m ∧
    ∀ seqno : UInt32, m (natToBits 32 seqno.toNat) = (blocks seqno).map (·.leaf seqno)
  earlier : ∀ seqno b, blocks seqno = some b →
    (info.blockId.isValid = true → seqno < info.blockId.seqno) ∧ b.endLt ≤ info.lt

/-- The leaves of the dictionary are the blocks. -/
theorem mem_entries_iff {t : PrefixTree Slice} {blocks : UInt32 → Option OldMcBlock} (ht : t.Keyed 32)
    (hget : ∀ seqno : UInt32, t.get (natToBits 32 seqno.toNat) = (blocks seqno).map (·.leaf seqno)) (k : List Bool)
    (p : Slice) : (k, p) ∈ t.entries [] ↔
      ∃ seqno b, k = natToBits 32 seqno.toNat ∧ p = b.leaf seqno ∧ blocks seqno = some b := by
  rw [PrefixTree.mem_entries]
  constructor
  · rintro ⟨r, hk, hr⟩
    obtain rfl : k = r := hk
    have hlen : k.length = 32 := by
      by_contra hne
      rw [ht.get_eq_none hne] at hr
      cases hr
    rw [← natToBits_keySeqno hlen, hget] at hr
    obtain ⟨b, hb, rfl⟩ := Option.map_eq_some_iff.1 hr
    exact ⟨keySeqno k, b, (natToBits_keySeqno hlen).symm, rfl, hb⟩
  · rintro ⟨seqno, b, rfl, rfl, hb⟩
    exact ⟨natToBits 32 seqno.toNat, rfl, (hget seqno).trans (by rw [hb]; rfl)⟩

/-- One number is in front of another in the order of a search. -/
def InFront (back : Bool) (s s' : UInt32) : Prop := if back then s' ≤ s else s ≤ s'

theorem pairwise_visited {t : PrefixTree Slice} (ht : t.Keyed 32) (back : Bool) :
    (visited back (t.entries [])).Pairwise fun e e' => InFront back (keySeqno e.1) (keySeqno e'.1) := by
  have hlen : ∀ e ∈ t.entries [], e.1.length = 32 := by
    rintro ⟨k, p⟩ he
    obtain ⟨r, rfl, hr⟩ := PrefixTree.mem_entries.1 he
    by_contra hne
    rw [ht.get_eq_none hne] at hr
    cases hr
  have hord : (t.entries []).Pairwise fun e e' => keySeqno e.1 ≤ keySeqno e'.1 := by
    refine (PrefixTree.sorted_entries [] t).imp_of_mem fun {e e'} he he' hbefore => ?_
    have hlt := hbefore.bitsToNat_lt ((hlen e he).trans (hlen e' he').symm)
    have hbound := bitsToNat_lt e'.1
    rw [hlen e' he'] at hbound
    rw [UInt32.le_iff_toNat_le]
    simp only [keySeqno, UInt32.toNat_ofNat']
    rw [Nat.mod_eq_of_lt (by omega), Nat.mod_eq_of_lt hbound]
    exact hlt.le
  cases back with
  | false => exact hord
  | true => exact List.pairwise_reverse.2 hord

section

variable {info : ConfigInfo} {blocks : UInt32 → Option OldMcBlock} {good : UInt32 → KeyMaxLt → Bool} {back : Bool}
  {visit : TraverseFunc}

/-- A search of the dictionary finds the first of the blocks that are good. -/
theorem findPrevBlock_eq (h : info.PrevBlocks blocks)
    (hd : Directs augOldMcBlocksInfo oldMcBlocksRules 32 back (accepts good) visit) :
    (∃ seqno b, info.findPrevBlock visit = .ok (some (b.id seqno, b.endLt)) ∧ blocks seqno = some b ∧
      good seqno b.extra = true ∧
      ∀ seqno' b', blocks seqno' = some b' → good seqno' b'.extra = true → InFront back seqno seqno') ∨
    (info.findPrevBlock visit = .ok none ∧ ∀ seqno b, blocks seqno = some b → good seqno b.extra = false) := by
  obtain ⟨m, hshaped, hm⟩ := h.shaped
  have hkeyBits := h.keyBits
  rcases hshaped.cases with ⟨hroot, rfl⟩ | ⟨t, c, hroot, ht, rfl⟩
  · refine .inr ⟨?_, fun seqno b hb => ?_⟩
    · unfold findPrevBlock AugmentedDictionary.traverseExtra
      rw [if_pos (.inr hroot)]
      rfl
    · have hnone := hm seqno
      rw [hb] at hnone
      cases hnone
  · rw [hkeyBits] at ht
    obtain ⟨r, hr, hfound⟩ := dictTraverseExtra_eq hd ht rfl
    have hmem := mem_entries_iff ht.keyed hm
    have hvisited : ∀ e, e ∈ visited back (t.entries []) ↔ e ∈ t.entries [] := by
      intro e
      cases back <;> simp [visited]
    have hdef : info.findPrevBlock visit = foundBlock r := by
      have htraverse : AugmentedDictionary.traverseExtra augOldMcBlocksInfo visit 32 info.prevBlocksDict = .ok r := by
        rw [AugmentedDictionary.traverseExtra, if_neg, hroot, hr]
        rw [hkeyBits, hroot]
        simp
      unfold findPrevBlock
      rw [htraverse]
      rfl
    cases hfind : (visited back (t.entries [])).find? (accepts good) with
    | none =>
      rw [hfind] at hfound
      cases hfound
      refine .inr ⟨hdef, fun seqno b hb => ?_⟩
      have hnot := List.find?_eq_none.1 hfind _ ((hvisited _).2 ((hmem _ _).2 ⟨seqno, b, rfl, rfl, hb⟩))
      rw [accepts_leaf, keySeqno_natToBits] at hnot
      exact Bool.eq_false_iff.2 hnot
    | some e =>
      obtain ⟨k, p⟩ := e
      obtain ⟨seqno, b, rfl, rfl, hb⟩ := (hmem _ _).1 ((hvisited _).1 (List.mem_of_find?_eq_some hfind))
      have hgood := List.find?_some hfind
      rw [accepts_leaf, keySeqno_natToBits] at hgood
      rw [hfind] at hfound
      cases hfound with
      | found hvalue hextra =>
        rw [skipExtra_leaf] at hvalue
        cases hvalue
        refine .inl ⟨seqno, b, ?_, hb, hgood, fun seqno' b' hb' hgood' => ?_⟩
        · rw [hdef, foundBlock, keySeqno_natToBits, unpackOldMcBlockId_value]
        · have hfirst := eq_or_of_find? (pairwise_visited ht.keyed back) hfind
            (natToBits 32 seqno'.toNat, b'.leaf seqno') ((hvisited _).2 ((hmem _ _).2 ⟨seqno', b', rfl, rfl, hb'⟩))
            (by rw [accepts_leaf, keySeqno_natToBits]; exact hgood')
          rw [Prod.mk.injEq, keySeqno_natToBits, keySeqno_natToBits] at hfirst
          rcases hfirst with ⟨hkey, -⟩ | hfront
          · have hsame := congrArg keySeqno hkey
            rw [keySeqno_natToBits, keySeqno_natToBits] at hsame
            rw [hsame]
            cases back <;> exact UInt32.le_refl _
          · exact hfront

/-! ## What the searches find -/

/-- A block with what is known of it. -/
structure KnownBlock where
  id : BlockIdExt
  key : Bool
  endLt : UInt64

/-- The blocks of the dictionary and the block of the state are known. -/
inductive Known (info : ConfigInfo) (blocks : UInt32 → Option OldMcBlock) : KnownBlock → Prop
  | prev {seqno : UInt32} {b : OldMcBlock} (h : blocks seqno = some b) : Known info blocks ⟨b.id seqno, b.key, b.endLt⟩
  | current (h : info.blockId.isValid = true) : Known info blocks ⟨info.blockId, info.isKeyState, info.lt⟩

/-- A search finds the best of the known blocks that are asked for, or says that there is none. -/
inductive Finds (known asked : KnownBlock → Prop) (better : UInt32 → UInt32 → Prop) : SearchResult → Prop
  | found {b : KnownBlock} (hknown : known b) (hasked : asked b)
      (hbest : ∀ b', known b' → asked b' → better b.id.seqno b'.id.seqno) : Finds known asked better ⟨true, b.id, b.endLt⟩
  | missing {blkid : BlockIdExt} {endLt : UInt64} (hnone : ∀ b, known b → ¬asked b) :
      Finds known asked better ⟨false, blkid, endLt⟩

theorem keyWith_eq_true {asked : UInt32 → Bool} {seqno : UInt32} {x : KeyMaxLt} :
    keyWith asked seqno x = true ↔ x.key = true ∧ asked seqno = true := Bool.and_eq_true_iff

/-- The last key block up to a number. -/
theorem getPrevKeyBlock_finds (h : info.PrevBlocks blocks) (reqSeqno : UInt32) (blkid : BlockIdExt) (endLt : UInt64) :
    ∃ r, info.getPrevKeyBlock reqSeqno blkid endLt = .ok r ∧
      Finds (info.Known blocks) (fun b => b.key = true ∧ b.id.seqno ≤ reqSeqno) (· ≥ ·) r := by
  unfold getPrevKeyBlock
  split
  · next hcurrent =>
    simp only [Bool.and_eq_true, decide_eq_true_eq] at hcurrent
    obtain ⟨⟨hvalid, hkey⟩, hle⟩ := hcurrent
    refine ⟨_, rfl, @Finds.found _ _ _ ⟨info.blockId, info.isKeyState, info.lt⟩ (.current hvalid) ⟨hkey, hle⟩ ?_⟩
    rintro _ (⟨hb'⟩ | _) -
    · exact UInt32.le_of_lt ((h.earlier _ _ hb').1 hvalid)
    · exact UInt32.le_refl _
  · next hcurrent =>
    -- the block of the state is not asked for
    have hnot : info.blockId.isValid = true → ¬(info.isKeyState = true ∧ info.blockId.seqno ≤ reqSeqno) := by
      rintro hvalid ⟨hkey, hle⟩
      simp [hvalid, hkey, hle] at hcurrent
    rcases findPrevBlock_eq h (directs_steerPrevKey reqSeqno) with ⟨seqno, b, hfind, hb, hgood, hbest⟩ | ⟨hfind, hnone⟩
    · obtain ⟨hkey, hle⟩ := keyWith_eq_true.1 hgood
      have hle : seqno ≤ reqSeqno := of_decide_eq_true hle
      refine ⟨⟨true, b.id seqno, b.endLt⟩, ?_, ?_⟩
      · rw [hfind]
        exact if_pos hle
      · refine @Finds.found _ _ _ ⟨b.id seqno, b.key, b.endLt⟩ (.prev hb) ⟨hkey, hle⟩ ?_
        rintro _ (@⟨seqno', b', hb'⟩ | hvalid) ⟨hkey', hle'⟩
        · exact hbest seqno' b' hb' (keyWith_eq_true.2 ⟨hkey', decide_eq_true hle'⟩)
        · exact absurd ⟨hkey', hle'⟩ (hnot hvalid)
    · refine ⟨⟨false, blkid.invalidate, endLt⟩, ?_, .missing ?_⟩
      · rw [hfind]
        rfl
      · rintro _ (@⟨seqno', b', hb'⟩ | hvalid) ⟨hkey', hle'⟩
        · have hbad := hnone seqno' b' hb'
          rw [keyWith_eq_true.2 ⟨hkey', decide_eq_true hle'⟩] at hbad
          cases hbad
        · exact hnot hvalid ⟨hkey', hle'⟩

/-- The first key block from a number on. -/
theorem getNextKeyBlock_finds (h : info.PrevBlocks blocks) (reqSeqno : UInt32) (blkid : BlockIdExt) (endLt : UInt64) :
    ∃ r, info.getNextKeyBlock reqSeqno blkid endLt = .ok r ∧
      Finds (info.Known blocks) (fun b => b.key = true ∧ b.id.seqno ≥ reqSeqno) (· ≤ ·) r := by
  unfold getNextKeyBlock
  rcases findPrevBlock_eq h (directs_steerNextKey reqSeqno) with ⟨seqno, b, hfind, hb, hgood, hbest⟩ | ⟨hfind, hnone⟩
  · obtain ⟨hkey, hle⟩ := keyWith_eq_true.1 hgood
    have hle : seqno ≥ reqSeqno := of_decide_eq_true hle
    refine ⟨⟨true, b.id seqno, b.endLt⟩, ?_, ?_⟩
    · rw [hfind]
      exact if_pos hle
    · refine @Finds.found _ _ _ ⟨b.id seqno, b.key, b.endLt⟩ (.prev hb) ⟨hkey, hle⟩ ?_
      rintro _ (@⟨seqno', b', hb'⟩ | hvalid) ⟨hkey', hle'⟩
      · exact hbest seqno' b' hb' (keyWith_eq_true.2 ⟨hkey', decide_eq_true hle'⟩)
      · exact UInt32.le_of_lt ((h.earlier _ _ hb).1 hvalid)
  · rw [hfind]
    have hnot : ∀ seqno' b', blocks seqno' = some b' → ¬(b'.key = true ∧ seqno' ≥ reqSeqno) := by
      rintro seqno' b' hb' ⟨hkey', hle'⟩
      have hbad := hnone seqno' b' hb'
      rw [keyWith_eq_true.2 ⟨hkey', decide_eq_true hle'⟩] at hbad
      cases hbad
    simp only [bind, Except.bind]
    split
    · next hcurrent =>
      simp only [Bool.and_eq_true, decide_eq_true_eq] at hcurrent
      obtain ⟨⟨hvalid, hkey⟩, hle⟩ := hcurrent
      refine ⟨_, rfl, @Finds.found _ _ _ ⟨info.blockId, info.isKeyState, info.lt⟩ (.current hvalid) ⟨hkey, hle⟩ ?_⟩
      rintro _ (@⟨seqno', b', hb'⟩ | _) hasked
      · exact absurd hasked (hnot seqno' b' hb')
      · exact UInt32.le_refl _
    · next hcurrent =>
      refine ⟨_, rfl, .missing ?_⟩
      rintro _ (@⟨seqno', b', hb'⟩ | hvalid) ⟨hkey', hle'⟩
      · exact hnot seqno' b' hb' ⟨hkey', hle'⟩
      · have hcond : info.isKeyState = true ∧ info.blockId.seqno ≥ reqSeqno := ⟨hkey', hle'⟩
        simp [hvalid, hcond.1, hcond.2] at hcurrent

/-- The first block that ends at a time or later. -/
theorem getMcBlockByLt_finds (h : info.PrevBlocks blocks) (reqLt : UInt64) (blkid : BlockIdExt) (endLt : UInt64) :
    ∃ r, info.getMcBlockByLt reqLt blkid endLt = .ok r ∧
      Finds (info.Known blocks) (fun b => b.endLt ≥ reqLt) (· ≤ ·) r := by
  unfold getMcBlockByLt
  split
  · next hlate =>
    refine ⟨_, rfl, .missing ?_⟩
    rintro _ (@⟨seqno', b', hb'⟩ | hvalid) hasked
    · exact absurd hlate (UInt64.not_lt.2 (UInt64.le_trans hasked (h.earlier _ _ hb').2))
    · exact absurd hlate (UInt64.not_lt.2 hasked)
  · next hlate =>
    rcases findPrevBlock_eq h (directs_steerByLt reqLt) with ⟨seqno, b, hfind, hb, hgood, hbest⟩ | ⟨hfind, hnone⟩
    · refine ⟨⟨true, b.id seqno, b.endLt⟩, ?_, ?_⟩
      · rw [hfind]
        rfl
      · refine @Finds.found _ _ _ ⟨b.id seqno, b.key, b.endLt⟩ (.prev hb) (of_decide_eq_true hgood) ?_
        rintro _ (@⟨seqno', b', hb'⟩ | hvalid) hasked
        · exact hbest seqno' b' hb' (decide_eq_true hasked)
        · exact UInt32.le_of_lt ((h.earlier _ _ hb).1 hvalid)
    · rw [hfind]
      have hnot : ∀ seqno' b', blocks seqno' = some b' → ¬b'.endLt ≥ reqLt := fun seqno' b' hb' =>
        of_decide_eq_false (hnone seqno' b' hb')
      simp only [bind, Except.bind]
      split
      · next hvalid =>
        refine ⟨_, rfl, @Finds.found _ _ _ ⟨info.blockId, info.isKeyState, info.lt⟩ (.current hvalid)
          (UInt64.not_lt.1 hlate) ?_⟩
        rintro _ (@⟨seqno', b', hb'⟩ | _) hasked
        · exact absurd hasked (hnot seqno' b' hb')
        · exact UInt32.le_refl _
      · next hvalid =>
        refine ⟨_, rfl, .missing ?_⟩
        rintro _ (@⟨seqno', b', hb'⟩ | hvalid') hasked
        · exact hnot seqno' b' hb' hasked
        · exact hvalid hvalid'

/-- Each search finds what it is for, and fails only when there is no such block. -/
theorem prevBlocks_found (h : info.PrevBlocks blocks) (blkid : BlockIdExt) (endLt : UInt64) :
    (∀ reqSeqno, ∃ r, info.getPrevKeyBlock reqSeqno blkid endLt = .ok r ∧
      Finds (info.Known blocks) (fun b => b.key = true ∧ b.id.seqno ≤ reqSeqno) (· ≥ ·) r) ∧
    (∀ reqSeqno, ∃ r, info.getNextKeyBlock reqSeqno blkid endLt = .ok r ∧
      Finds (info.Known blocks) (fun b => b.key = true ∧ b.id.seqno ≥ reqSeqno) (· ≤ ·) r) ∧
    ∀ reqLt, ∃ r, info.getMcBlockByLt reqLt blkid endLt = .ok r ∧
      Finds (info.Known blocks) (fun b => b.endLt ≥ reqLt) (· ≤ ·) r := by
  refine ⟨fun reqSeqno => ?_, fun reqSeqno => ?_, fun reqLt => ?_⟩
  · exact getPrevKeyBlock_finds h reqSeqno blkid endLt
  · exact getNextKeyBlock_finds h reqSeqno blkid endLt
  · exact getMcBlockByLt_finds h reqLt blkid endLt

end

namespace Sample

/-- Two blocks, the second of which is a key block. -/
def block0 : OldMcBlock := ⟨false, 10, 1, 2⟩
def block1 : OldMcBlock := ⟨true, 20, 3, 4⟩

def blocks (seqno : UInt32) : Option OldMcBlock :=
  if seqno = 0 then some block0 else if seqno = 1 then some block1 else none

def leafCell (b : OldMcBlock) (seqno : UInt32) : Cell := .mk false ([false, false] ++ (b.leaf seqno).bits) []

/-- The label of 31 zeros, the extra of both blocks, and the blocks. -/
def rootCell : Cell :=
  .mk false ([true, true, false, false, true, true, true, true, true] ++ (block0.extra.add block1.extra).slice.bits)
    [leafCell block0 0, leafCell block1 1]

theorem keyBits_le : 32 ≤ maxKeyBits := by decide

def info : ConfigInfo := ⟨⟨⟨masterchainId, shardIdAll, 2⟩, 5, 6⟩, false, 30, ⟨32, some rootCell, keyBits_le⟩⟩

def tree : PrefixTree Slice := .fork (List.replicate 31 false) (.leaf [] (block0.leaf 0)) (.leaf [] (block1.leaf 1))

theorem ofCell_leafCell (b : OldMcBlock) (seqno : UInt32) :
    LabelParser.ofCell (some (leafCell b seqno)) 0 .chkSize = .ok ⟨b.leaf seqno, none, 0⟩ := rfl

theorem shape : Shape .chkSize oldMcBlocksRules [] 32 tree rootCell := by
  have hroot : LabelParser.ofCell (some rootCell) 32 .chkSize =
      .ok ⟨⟨(block0.extra.add block1.extra).slice.bits, [leafCell block0 0, leafCell block1 1]⟩, some false, 31⟩ := rfl
  refine .fork (m := 0) (e := (block0.extra.add block1.extra).slice) hroot (.same false rfl) rfl
    ⟨block0.extra, block1.extra, KeyMaxLt.ofSlice_append _ _, KeyMaxLt.ofSlice_append _ _, rfl⟩ ?_ ?_
  · exact .leaf (ofCell_leafCell block0 0) .any rfl ⟨block0, rfl⟩
  · exact .leaf (ofCell_leafCell block1 1) .any rfl ⟨block1, rfl⟩

theorem prevBlocks : info.PrevBlocks blocks := by
  refine ⟨rfl, ⟨tree.get, ⟨some tree, ⟨rootCell, rfl, shape⟩, fun _ => rfl⟩, ?_⟩, ?_⟩
  · intro seqno
    by_cases h0 : seqno = 0
    · subst h0
      rfl
    by_cases h1 : seqno = 1
    · subst h1
      rfl
    have hblocks : blocks seqno = none := by
      rw [blocks, if_neg h0, if_neg h1]
    rw [hblocks, Option.map_none]
    cases hget : tree.get (natToBits 32 seqno.toNat) with
    | none => rfl
    | some v =>
      -- the keys of the tree are zero and one
      have hmem : (natToBits 32 seqno.toNat, v) ∈ tree.entries [] := PrefixTree.mem_entries.2 ⟨_, rfl, hget⟩
      rcases List.mem_pair.1 hmem with he | he
      · have hkey := congrArg (fun e => keySeqno e.1) he
        rw [keySeqno_natToBits] at hkey
        exact absurd hkey h0
      · have hkey := congrArg (fun e => keySeqno e.1) he
        rw [keySeqno_natToBits] at hkey
        exact absurd hkey h1
  · intro seqno b hb
    unfold blocks at hb
    split at hb
    · next h0 => cases hb; subst h0; exact ⟨fun _ => by decide, by decide⟩
    · split at hb
      · next h1 => cases hb; subst h1; exact ⟨fun _ => by decide, by decide⟩
      · cases hb

/-- The searches in a state with two previous blocks. -/
theorem prevBlocks_found_two :
    (∀ reqSeqno, ∃ r, info.getPrevKeyBlock reqSeqno .none 0 = .ok r ∧
      Finds (info.Known blocks) (fun b => b.key = true ∧ b.id.seqno ≤ reqSeqno) (· ≥ ·) r) ∧
    (∀ reqSeqno, ∃ r, info.getNextKeyBlock reqSeqno .none 0 = .ok r ∧
      Finds (info.Known blocks) (fun b => b.key = true ∧ b.id.seqno ≥ reqSeqno) (· ≤ ·) r) ∧
    ∀ reqLt, ∃ r, info.getMcBlockByLt reqLt .none 0 = .ok r ∧
      Finds (info.Known blocks) (fun b => b.endLt ≥ reqLt) (· ≤ ·) r :=
  prevBlocks_found prevBlocks .none 0

end Sample

end ConfigInfo

end TonWallet.Block
