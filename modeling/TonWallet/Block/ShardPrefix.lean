/-
Shards as prefixes (`ton/ton-shard.h`): a prefix `a` of `l` bits is the word `(2 * a + 1) << (63 - l)`. What the
operations on words do to the prefixes.
-/
import TonWallet.Block.ShardId
import TonWallet.Block.Header

namespace TonWallet.Block

open Lib TonWallet.Td TonWallet.Ton ShardId

/-- `shard_pfx_len`. -/
def shardPfxLen (shard : UInt64) : Nat := if shard ≠ 0 then 63 - countTrailingZeroes64 shard else 0

/-- `bits_negate64`. -/
def bitsNegate64 (x : UInt64) : UInt64 := ~~~x + 1

def shardIsAncestor (parent child : UInt64) : Bool :=
  let x := lowerBit64 parent
  let y := lowerBit64 child
  x ≥ y && ((parent ^^^ child) &&& (bitsNegate64 x <<< 1)) == 0

def shardContains (parent child : UInt64) : Bool :=
  let x := lowerBit64 parent
  ((parent ^^^ child) &&& (bitsNegate64 x <<< 1)) == 0

/-- The word of a prefix. -/
def shardOf (p : List Bool) : UInt64 := UInt64.ofNat ((2 * bitsToNat p + 1) * 2 ^ (63 - p.length))

/-- The prefix of a word. -/
def prefixOf (shard : UInt64) : List Bool := (natToBits 64 shard.toNat).take (shardPfxLen shard)

/-! ## Words of prefixes -/

section

variable {p q : List Bool}

theorem shardOf_lt (h : p.length ≤ 63) : (2 * bitsToNat p + 1) * 2 ^ (63 - p.length) < 2 ^ 64 := by
  have hlt := bitsToNat_lt p
  have hodd : 2 * bitsToNat p + 1 < 2 ^ (p.length + 1) := by
    rw [pow_succ]
    omega
  calc (2 * bitsToNat p + 1) * 2 ^ (63 - p.length)
    _ < 2 ^ (p.length + 1) * 2 ^ (63 - p.length) := Nat.mul_lt_mul_of_pos_right hodd (Nat.two_pow_pos _)
    _ = 2 ^ 64 := by rw [← pow_add]; congr 1; omega

theorem toNat_shardOf (h : p.length ≤ 63) : (shardOf p).toNat = (2 * bitsToNat p + 1) * 2 ^ (63 - p.length) := by
  rw [shardOf, UInt64.toNat_ofNat', Nat.mod_eq_of_lt (shardOf_lt h)]

theorem lowBit_shardOf (h : p.length ≤ 63) : LowBit (shardOf p).toNat (63 - p.length) := by
  refine LowBit.of_eq (a := bitsToNat p) ?_
  rw [toNat_shardOf h, pow_succ]
  ring

theorem shardOf_div (h : p.length ≤ 63) : (shardOf p).toNat / 2 ^ (64 - p.length) = bitsToNat p := by
  have hpow : 2 ^ (64 - p.length) = 2 * 2 ^ (63 - p.length) := by
    rw [← pow_succ']
    congr 1
    omega
  rw [toNat_shardOf h, hpow, Nat.mul_comm 2 (2 ^ _), ← Nat.div_div_eq_div_mul, Nat.mul_div_cancel _ (Nat.two_pow_pos _)]
  omega

/-- A prefix of the bits of a word. -/
theorem prefix_natToBits_iff {n : Nat} (hn : n < 2 ^ 64) (h : p.length ≤ 64) :
    p <+: natToBits 64 n ↔ n / 2 ^ (64 - p.length) = bitsToNat p := by
  have hsplit : natToBits 64 n = natToBits p.length (n / 2 ^ (64 - p.length)) ++ natToBits (64 - p.length) n := by
    rw [← natToBits_add]
    congr 1
    omega
  have hlt : n / 2 ^ (64 - p.length) < 2 ^ p.length := by
    rw [Nat.div_lt_iff_lt_mul (Nat.two_pow_pos _), ← pow_add]
    rwa [Nat.add_sub_cancel' h]
  rw [hsplit]
  constructor
  · intro hpre
    have heq := (List.append_inj hpre.choose_spec (length_natToBits _ _).symm).1
    rw [congrArg bitsToNat heq, bitsToNat_natToBits, Nat.mod_eq_of_lt hlt]
  · intro heq
    rw [heq, natToBits_bitsToNat]
    exact List.prefix_append _ _

theorem prefix_shardOf (h : p.length ≤ 63) : p <+: natToBits 64 (shardOf p).toNat :=
  (prefix_natToBits_iff (UInt64.toNat_lt _) (by omega)).2 (shardOf_div h)

theorem prefix_natToBits_shardOf_iff (hp : p.length ≤ 63) (hq : q.length ≤ p.length) :
    q <+: natToBits 64 (shardOf p).toNat ↔ q <+: p :=
  ⟨fun h => List.prefix_of_prefix_length_le h (prefix_shardOf hp) hq, fun h => h.trans (prefix_shardOf hp)⟩

/-- Every word but zero is that of a prefix. -/
theorem exists_shardOf {shard : UInt64} (h : shard ≠ 0) : ∃ p : List Bool, p.length ≤ 63 ∧ shard = shardOf p := by
  obtain ⟨hle, hlow⟩ := lowBit_countTrailingZeroes64 h
  generalize countTrailingZeroes64 shard = t at hle hlow
  have hlt : shard.toNat / 2 ^ (t + 1) < 2 ^ (63 - t) := by
    rw [Nat.div_lt_iff_lt_mul (Nat.two_pow_pos _), ← pow_add, show 63 - t + (t + 1) = 64 by omega]
    exact shard.toNat_lt
  refine ⟨natToBits (63 - t) (shard.toNat / 2 ^ (t + 1)), by rw [length_natToBits]; omega, ?_⟩
  have hlen : (natToBits (63 - t) (shard.toNat / 2 ^ (t + 1))).length ≤ 63 := by
    rw [length_natToBits]
    omega
  rw [← UInt64.toNat_inj, toNat_shardOf hlen, length_natToBits, bitsToNat_natToBits, Nat.mod_eq_of_lt hlt,
    show 63 - (63 - t) = t by omega]
  conv_lhs => rw [hlow.eq_add]
  rw [pow_succ]
  ring

theorem shardOf_ne_zero (h : p.length ≤ 63) : shardOf p ≠ 0 := by
  intro hzero
  have hset := (lowBit_shardOf h).set
  rw [hzero, UInt64.toNat_zero, Nat.zero_testBit] at hset
  cases hset

theorem shardPfxLen_shardOf (h : p.length ≤ 63) : shardPfxLen (shardOf p) = p.length := by
  obtain ⟨hle, hlow⟩ := lowBit_countTrailingZeroes64 (shardOf_ne_zero h)
  have hctz := hlow.unique (lowBit_shardOf h)
  rw [shardPfxLen, if_pos (shardOf_ne_zero h), hctz]
  omega

theorem shardOf_inj (hp : p.length ≤ 63) (hq : q.length ≤ 63) : shardOf p = shardOf q ↔ p = q := by
  refine ⟨fun h => ?_, fun h => h ▸ rfl⟩
  have hlen : p.length = q.length := by rw [← shardPfxLen_shardOf hp, h, shardPfxLen_shardOf hq]
  have hpre : p <+: q := (prefix_natToBits_shardOf_iff hq hlen.le).1 (h ▸ prefix_shardOf hp)
  exact hpre.eq_of_length hlen

/-! ## Consuming a prefix -/

/-- A prefix is taken off bit by bit. -/
theorem shardOf_cons (b : Bool) (h : p.length ≤ 62) :
    (shardOf (b :: p) >>> 63).toNat = b.toNat ∧ shardOf (b :: p) <<< 1 = shardOf p := by
  have hcons : bitsToNat (b :: p) = 2 ^ p.length * b.toNat + bitsToNat p := by
    have happend := bitsToNat_append [b] p
    rwa [List.singleton_append, show bitsToNat [b] = b.toNat by cases b <;> rfl] at happend
  have hvalue : (shardOf (b :: p)).toNat = b.toNat * 2 ^ 63 + (2 * bitsToNat p + 1) * 2 ^ (62 - p.length) := by
    have hpow : 2 ^ 63 = 2 ^ (p.length + 1) * 2 ^ (62 - p.length) := by
      rw [← pow_add]
      congr 1
      omega
    rw [toNat_shardOf (by rw [List.length_cons]; omega), hcons, List.length_cons, hpow, pow_succ,
      show 63 - (p.length + 1) = 62 - p.length by omega]
    ring
  have htail : (shardOf p).toNat = 2 * ((2 * bitsToNat p + 1) * 2 ^ (62 - p.length)) := by
    rw [toNat_shardOf (by omega), show 63 - p.length = 62 - p.length + 1 by omega, pow_succ]
    ring
  have hlt := shardOf_lt (p := p) (by omega)
  rw [← toNat_shardOf (by omega), htail] at hlt
  have hb := Bool.toNat_le b
  constructor
  · rw [UInt64.toNat_shiftRight, hvalue]
    show _ >>> 63 = _
    rw [Nat.shiftRight_eq_div_pow]
    omega
  · rw [← UInt64.toNat_inj, UInt64.toNat_shiftLeft, hvalue, htail]
    show _ <<< 1 % _ = _
    rw [Nat.shiftLeft_eq]
    omega

theorem or_two_pow_sub_one (n k : Nat) : n ||| (2 ^ k - 1) = 2 ^ k * (n / 2 ^ k) + (2 ^ k - 1) := by
  have hpos := Nat.two_pow_pos k
  apply Nat.eq_of_testBit_eq
  intro i
  rw [Nat.testBit_or, Nat.testBit_two_pow_mul_add _ (by omega), Nat.testBit_two_pow_sub_one, Nat.testBit_div_two_pow]
  by_cases hi : i < k
  · rw [decide_eq_true hi, Bool.or_true, if_pos hi]
  · rw [decide_eq_false hi, Bool.or_false, if_neg hi]
    congr 1
    omega

/-- With `m` for the bits that are not consumed, the word of the part that is. -/
theorem or_sub_eq_shardOf (hp : p.length ≤ 63) (hq : q <+: p) {m : UInt64} (hm : m.toNat = 2 ^ (64 - q.length) - 1) :
    (shardOf p ||| m) - (m >>> 1) = shardOf q := by
  have hle := hq.length_le
  have hpow : 2 ^ (64 - q.length) = 2 * 2 ^ (63 - q.length) := by
    rw [← pow_succ']
    congr 1
    omega
  have hpos := Nat.two_pow_pos (63 - q.length)
  have hdiv : (shardOf p).toNat / 2 ^ (64 - q.length) = bitsToNat q :=
    (prefix_natToBits_iff (UInt64.toNat_lt _) (by omega)).1 ((prefix_natToBits_shardOf_iff hp hle).2 hq)
  have hor : (shardOf p ||| m).toNat = 2 ^ (64 - q.length) * bitsToNat q + (2 ^ (64 - q.length) - 1) := by
    rw [UInt64.toNat_or, hm, or_two_pow_sub_one, hdiv]
  have hhalf : (m >>> 1).toNat = 2 ^ (63 - q.length) - 1 := by
    rw [UInt64.toNat_shiftRight, hm]
    show _ >>> 1 = _
    rw [Nat.shiftRight_eq_div_pow]
    omega
  have hsub : m >>> 1 ≤ shardOf p ||| m := by
    rw [UInt64.le_iff_toNat_le, hor, hhalf]
    omega
  rw [← UInt64.toNat_inj, UInt64.toNat_sub_of_le _ _ hsub, hor, hhalf, toNat_shardOf (by omega), hpow, Nat.add_mul,
    one_mul, Nat.mul_right_comm]
  omega

/-! ## Families -/

theorem toNat_negate {x : UInt64} (h : x ≠ 0) : (~~~x + 1).toNat = 2 ^ 64 - x.toNat := by
  have hne : x.toNat ≠ 0 := fun hzero => h (UInt64.toNat_inj.1 hzero)
  have hlt := x.toNat_lt
  rw [UInt64.toNat_add, UInt64.toNat_not, UInt64.toNat_one]
  show (2 ^ 64 - 1 - x.toNat + 1) % 2 ^ 64 = _
  omega

theorem toNat_lowerBit64 (h : p.length ≤ 63) : (lowerBit64 (shardOf p)).toNat = 2 ^ (63 - p.length) := by
  rw [lowerBit64, UInt64.toNat_and, toNat_negate (shardOf_ne_zero h), (lowBit_shardOf h).and_neg (UInt64.toNat_lt _)]

theorem toNat_shardOf_snoc (b : Bool) (h : p.length ≤ 62) :
    (shardOf (p ++ [b])).toNat + (if b then 0 else 2 ^ (62 - p.length)) =
      (shardOf p).toNat + (if b then 2 ^ (62 - p.length) else 0) := by
  have hlen : 63 - (p ++ [b]).length = 62 - p.length := by
    rw [List.length_append, List.length_singleton]
    omega
  have hpow : 2 ^ (63 - p.length) = 2 * 2 ^ (62 - p.length) := by
    rw [← pow_succ']
    congr 1
    omega
  rw [toNat_shardOf (by rw [List.length_append, List.length_singleton]; omega), toNat_shardOf (by omega), hlen,
    bitsToNat_snoc, hpow]
  cases b
  · rw [if_neg Bool.false_ne_true, if_neg Bool.false_ne_true, Bool.toNat_false]
    ring
  · rw [if_pos rfl, if_pos rfl, Bool.toNat_true]
    ring

theorem shardChild_shardOf (h : p.length ≤ 62) (left : Bool) :
    shardChild (shardOf p) left = .ok (shardOf (p ++ [!left])) := by
  have hhalf : (lowerBit64 (shardOf p) >>> 1).toNat = 2 ^ (62 - p.length) := by
    rw [UInt64.toNat_shiftRight, toNat_lowerBit64 (by omega)]
    show _ >>> 1 = _
    rw [Nat.shiftRight_eq_div_pow, show 63 - p.length = 62 - p.length + 1 by omega, pow_succ, pow_one,
      Nat.mul_div_cancel _ (by decide)]
  have hpos := Nat.two_pow_pos (62 - p.length)
  have hne : lowerBit64 (shardOf p) >>> 1 ≠ 0 := by
    intro hzero
    rw [hzero, UInt64.toNat_zero] at hhalf
    omega
  have hlt := (shardOf (p ++ [!left])).toNat_lt
  have hsnoc := toNat_shardOf_snoc (!left) h
  rw [shardChild, if_neg hne]
  congr 1
  cases left
  · rw [if_neg Bool.false_ne_true, ← UInt64.toNat_inj, UInt64.toNat_add, hhalf]
    simp only [Bool.not_false, if_true, Nat.add_zero] at hsnoc hlt ⊢
    rw [← hsnoc, Nat.mod_eq_of_lt hlt]
  · simp only [Bool.not_true, Bool.false_eq_true, if_false, Nat.add_zero] at hsnoc ⊢
    have hle : lowerBit64 (shardOf p) >>> 1 ≤ shardOf p := by
      rw [UInt64.le_iff_toNat_le, hhalf]
      omega
    rw [if_pos trivial, ← UInt64.toNat_inj, UInt64.toNat_sub_of_le _ _ hle, hhalf]
    omega

/-- The bits above the lowest one of a word, as a mask. -/
theorem testBit_mask (h : p.length ≤ 63) (i : Nat) :
    (bitsNegate64 (lowerBit64 (shardOf p)) <<< 1).toNat.testBit i =
      (decide (63 - p.length < i) && decide (i < 64)) := by
  have hlow : LowBit (lowerBit64 (shardOf p)).toNat (63 - p.length) := by
    refine LowBit.of_eq (a := 0) ?_
    rw [toNat_lowerBit64 h, Nat.mul_zero, Nat.zero_add]
  have hne : lowerBit64 (shardOf p) ≠ 0 := by
    intro hzero
    have hset := hlow.set
    rw [hzero, UInt64.toNat_zero, Nat.zero_testBit] at hset
    cases hset
  rw [bitsNegate64, UInt64.toNat_shiftLeft, toNat_negate hne]
  show ((2 ^ 64 - _) <<< 1 % 2 ^ 64).testBit i = _
  rw [Nat.testBit_mod_two_pow, Nat.testBit_shiftLeft, hlow.testBit_neg (UInt64.toNat_lt _), toNat_lowerBit64 h,
    Nat.testBit_two_pow]
  rcases lt_trichotomy i (64 - p.length) with hi | hi | hi
  · rw [decide_eq_false (by omega : ¬63 - p.length < i)]
    by_cases h1 : 1 ≤ i
    · rw [if_pos (by omega), decide_eq_false (by omega : ¬i - 1 = 63 - p.length)]
      simp
    · rw [decide_eq_false h1]
      simp
  · rw [if_pos (by omega), decide_eq_true (by omega : i - 1 = 63 - p.length),
      decide_eq_true (by omega : 63 - p.length < i), decide_eq_true (by omega : i ≥ 1)]
    simp
  · rw [if_neg (by omega), decide_eq_false (by omega : ¬63 - p.length = i - 1),
      decide_eq_true (by omega : 63 - p.length < i), decide_eq_true (by omega : i ≥ 1)]
    by_cases h64 : i < 64
    · rw [decide_eq_true h64, decide_eq_true (by omega : i - 1 < 64)]
      rfl
    · rw [decide_eq_false h64]
      simp

theorem shardContains_iff (h : p.length ≤ 63) (child : UInt64) :
    shardContains (shardOf p) child = true ↔ p <+: natToBits 64 child.toNat := by
  have hagree : shardContains (shardOf p) child = true ↔
      ∀ i, 63 - p.length < i → (shardOf p).toNat.testBit i = child.toNat.testBit i := by
    rw [shardContains, beq_iff_eq, ← UInt64.toNat_inj, UInt64.toNat_and, UInt64.toNat_xor, UInt64.toNat_zero]
    constructor
    · intro hzero i hi
      by_cases h64 : i < 64
      · have hbit := congrArg (Nat.testBit · i) hzero
        simp only [Nat.testBit_and, Nat.testBit_xor, testBit_mask h, decide_eq_true hi, decide_eq_true h64,
          Bool.and_true, Nat.zero_testBit] at hbit
        simpa using hbit
      · rw [testBit_of_le _ (by omega), testBit_of_le _ (by omega)]
    · intro hagree
      apply Nat.eq_of_testBit_eq
      intro i
      rw [Nat.testBit_and, Nat.testBit_xor, testBit_mask h, Nat.zero_testBit]
      by_cases hi : 63 - p.length < i
      · rw [hagree i hi, Bool.xor_self, Bool.false_and]
      · rw [decide_eq_false hi, Bool.false_and, Bool.and_false]
  rw [hagree, prefix_natToBits_iff (UInt64.toNat_lt _) (by omega), ← shardOf_div h]
  constructor
  · intro hbits
    apply Nat.eq_of_testBit_eq
    intro i
    rw [Nat.testBit_div_two_pow, Nat.testBit_div_two_pow, hbits _ (by omega)]
  · intro heq i hi
    have hbit := congrArg (Nat.testBit · (i - (64 - p.length))) heq
    simp only [Nat.testBit_div_two_pow] at hbit
    rw [Nat.sub_add_cancel (by omega)] at hbit
    exact hbit.symm

theorem shardIsAncestor_iff (hq : q.length ≤ 63) (hp : p.length ≤ 63) :
    shardIsAncestor (shardOf q) (shardOf p) = true ↔ q <+: p := by
  have hcontains : shardIsAncestor (shardOf q) (shardOf p) = true ↔
      q.length ≤ p.length ∧ shardContains (shardOf q) (shardOf p) = true := by
    rw [shardIsAncestor, Bool.and_eq_true, decide_eq_true_eq, ge_iff_le, UInt64.le_iff_toNat_le, toNat_lowerBit64 hp,
      toNat_lowerBit64 hq, Nat.pow_le_pow_iff_right (by decide)]
    refine and_congr ?_ Iff.rfl
    omega
  rw [hcontains, shardContains_iff hq]
  constructor
  · rintro ⟨hle, hpre⟩
    exact (prefix_natToBits_shardOf_iff hp hle).1 hpre
  · intro hpre
    exact ⟨hpre.length_le, (prefix_natToBits_shardOf_iff hp hpre.length_le).2 hpre⟩

/-- The lowest bit of a word is that of a prefix that cannot be longer. -/
theorem and_one_shardOf (h : p.length ≤ 62) : shardOf p &&& 1 = 0 := by
  rw [← UInt64.toNat_inj, UInt64.toNat_and, UInt64.toNat_one, UInt64.toNat_zero]
  have hbit := (lowBit_shardOf (p := p) (by omega)).below 0 (by omega)
  rw [Nat.testBit_zero] at hbit
  rw [Nat.and_one_is_mod]
  simpa using hbit

end

end TonWallet.Block
