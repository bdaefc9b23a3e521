/-
What is added and subtracted: collections of amounts. Addition is that of the amounts. Subtraction should fail when
there is too little of a currency; it does not when none of it is there and the dictionaries hide that.
-/
import Mathlib.Tactic.NormNum
import Mathlib.Tactic.Positivity
import TonWallet.Block.ExtraCurrency

namespace TonWallet.Block

open Lib TonWallet.Td TonWallet.Vm Vm.Dict Vm.DictionaryBase Vm.CellBuilder

/-! ## Amounts in cells -/

/-- An amount in a cell: the number of its bytes, and the bytes. -/
def amountSlice (x : Nat) : Slice := ⟨natToBits 5 ((bitLength x + 7) / 8) ++ natToBits ((bitLength x + 7) / 8 * 8) x, []⟩

/-- No amount takes more than 31 bytes. -/
def maxAmount : Nat := 2 ^ 248

section Amounts

variable {x y : Nat} {relaxed : Bool}

theorem bitLength_le_of_lt (hx : x < maxAmount) : bitLength x ≤ 248 := bitLength_le_iff.2 hx

theorem ln_32 (pos : Bool) : VarUIntegerPos.ln ⟨32, pos⟩ = 5 := by
  show bitLength 31 = 5
  decide

/-- An amount in a cell is read back. -/
theorem asIntegerSkip_amountSlice (h0 : 0 < x) (hx : x < maxAmount) (pos : Bool) :
    VarUIntegerPos.asIntegerSkip ⟨32, pos⟩ (amountSlice x) = some (some (x : Int)) := by
  obtain ⟨l, hl⟩ : ∃ l, (bitLength x + 7) / 8 = l := ⟨_, rfl⟩
  have hsize := bitLength_le_of_lt hx
  have hpos : 0 < bitLength x := bitLength_pos h0
  have hfetch : (amountSlice x).fetchUlongInt 5 = ((l : Int), ⟨natToBits (l * 8) x, []⟩) := by
    unfold Slice.fetchUlongInt amountSlice
    have htake : (natToBits 5 l ++ natToBits (l * 8) x).take 5 = natToBits 5 l :=
      List.take_left' (length_natToBits 5 l)
    have hdrop : (natToBits 5 l ++ natToBits (l * 8) x).drop 5 = natToBits (l * 8) x :=
      List.drop_left' (length_natToBits 5 l)
    dsimp only
    rw [hl, if_pos (by simp), htake, hdrop, bitsToNat_natToBits, Nat.mod_eq_of_lt (by omega)]
  have hfirst : (Slice.mk (natToBits (l * 8) x) []).prefetchUlong 8 ≠ 0 := by
    -- the first byte has the highest bit
    obtain ⟨m, hm⟩ : ∃ m, l * 8 = 8 + m := ⟨l * 8 - 8, by omega⟩
    have hhigh : 2 ^ m ≤ x := by
      by_contra hlt
      have := bitLength_le_iff.2 (not_le.1 hlt)
      omega
    have hbyte : x / 2 ^ m < 2 ^ 8 := by
      rw [Nat.div_lt_iff_lt_mul (by positivity), ← pow_add, ← hm]
      exact bitLength_le_iff.1 (by omega)
    unfold Slice.prefetchUlong
    dsimp only
    rw [hm, natToBits_add, if_pos (by simp), List.take_left' (length_natToBits 8 _), bitsToNat_natToBits,
      Nat.mod_eq_of_lt hbyte]
    exact Nat.ne_of_gt (Nat.div_pos hhigh (by positivity))
  have hall : (Slice.mk (natToBits (l * 8) x) []).fetchInt256 (l * 8) = some (some (x : Int)) := by
    have hlt : x < 2 ^ (l * 8) := bitLength_le_iff.1 (by omega)
    unfold Slice.fetchInt256
    dsimp only
    rw [if_pos (by simp), List.take_of_length_le (by simp), bitsToNat_natToBits, Nat.mod_eq_of_lt hlt, BigInt256.ofInt,
      if_pos]
    have : (x : Int) < 2 ^ 248 := by exact_mod_cast hx
    constructor
    · have : (0 : Int) ≤ 2 ^ 256 := by positivity
      omega
    · omega
  unfold VarUIntegerPos.asIntegerSkip
  rw [ln_32, hfetch]
  dsimp only
  rw [if_pos ⟨by omega, by omega, hfirst⟩, Int.toNat_natCast, hall]

/-- What is stored is the amount, when it takes no more bytes than it may. -/
theorem storeIntegerValue_amount {pos : Bool} (h0 : pos = true → 0 < x) (cb : CellBuilder) :
    VarUIntegerPos.storeIntegerValue ⟨32, pos⟩ (some (x : Int)) cb =
      if x < maxAmount then cb.appendSliceBool (amountSlice x) else none := by
  have hbits : BigInt256.bitSize (some (x : Int)) = bitLength x := by
    rw [BigInt256.bitSize, if_neg (by omega), Int.toNat_natCast]
  have hsgn : (pos.toNat : Int) ≤ BigInt256.sgn (some (x : Int)) := by
    rw [BigInt256.sgn]
    cases pos with
    | false => exact Int.sign_nonneg_iff.2 (Int.natCast_nonneg x)
    | true =>
      have := h0 rfl
      rw [Int.sign_eq_one_of_pos (by omega)]
      exact le_refl _
  unfold VarUIntegerPos.storeIntegerValue
  rw [hbits, ln_32]
  by_cases hx : x < maxAmount
  · have hsize := bitLength_le_of_lt hx
    have hlt : (x : Int) < 2 ^ ((bitLength x + 7) / 8 * 8) := by
      have : x < 2 ^ ((bitLength x + 7) / 8 * 8) := bitLength_le_iff.1 (by omega)
      exact_mod_cast this
    rw [if_pos ⟨hsize, hsgn⟩, if_pos hx]
    have hstore (cb : CellBuilder) : storeInt256Bool (some (x : Int)) ((bitLength x + 7) / 8 * 8) cb =
        cb.appendSliceBool ⟨natToBits ((bitLength x + 7) / 8 * 8) x, []⟩ := by
      show (if (x : Int) < 0 ∨ _ then _ else _) = _
      rw [if_neg (by omega), Int.toNat_natCast]
    show (cb.appendSliceBool ⟨natToBits 5 _, []⟩).bind _ = _
    simp only [hstore, appendSliceBool, canExtendBy, amountSlice, List.length_append, length_natToBits, List.length_nil,
      Nat.zero_le, decide_true, Bool.and_true, decide_eq_true_eq]
    by_cases h5 : 5 ≤ maxBits - cb.bits.length
    · rw [if_pos h5, Option.bind_some]
      dsimp only
      rw [List.length_append, length_natToBits]
      by_cases hroom : (bitLength x + 7) / 8 * 8 ≤ maxBits - (cb.bits.length + 5)
      · rw [if_pos hroom, if_pos (by omega)]
        simp
      · rw [if_neg hroom, if_neg (by omega)]
    · rw [if_neg h5, if_neg (by omega), Option.bind_none]
  · rw [if_neg hx, if_neg]
    rintro ⟨hsize, -⟩
    exact hx (bitLength_le_iff.1 hsize)

/-- A negative number is not stored. -/
theorem storeIntegerValue_neg {x : Int} (hx : x < 0) (pos : Bool) (cb : CellBuilder) :
    VarUIntegerPos.storeIntegerValue ⟨32, pos⟩ (some x) cb = none := by
  unfold VarUIntegerPos.storeIntegerValue
  rw [BigInt256.bitSize, if_pos hx, if_neg]
  rintro ⟨hsize, -⟩
  exact absurd (show 0x7fffffff ≤ 248 from hsize) (by decide)

/-- What is stored of a number. -/
def stored (pos : Bool) (x : BigInt256) : Option Slice := do
  let x ← x
  if (pos.toNat : Int) ≤ x ∧ x < maxAmount then some (amountSlice x.toNat) else none

theorem storeIntegerValue_eq (pos : Bool) (x : BigInt256) (cb : CellBuilder) :
    VarUIntegerPos.storeIntegerValue ⟨32, pos⟩ x cb = (stored pos x).bind cb.appendSliceBool := by
  cases x with
  | none =>
    unfold VarUIntegerPos.storeIntegerValue
    rw [if_neg]
    · rfl
    · rintro ⟨hsize, -⟩
      exact absurd (show 0x7fffffff ≤ 248 from hsize) (by decide)
  | some x =>
    show _ = Option.bind (if _ then _ else _) _
    by_cases hneg : x < 0
    · rw [storeIntegerValue_neg hneg, if_neg (by omega), Option.bind_none]
    · obtain ⟨n, rfl⟩ := Int.eq_ofNat_of_zero_le (not_lt.1 hneg)
      by_cases hpos : pos = true → 0 < n
      · rw [storeIntegerValue_amount hpos]
        have hle : ((pos.toNat : Nat) : Int) ≤ n := by
          cases pos with
          | false => exact Int.natCast_nonneg n
          | true =>
            have := hpos rfl
            show (1 : Int) ≤ n
            omega
        by_cases hx : n < maxAmount
        · rw [if_pos hx, if_pos ⟨hle, by exact_mod_cast hx⟩]
          rfl
        · rw [if_neg hx, if_neg fun h => hx (by exact_mod_cast h.2), Option.bind_none]
      · push Not at hpos
        obtain ⟨rfl, hn⟩ := hpos
        obtain rfl : n = 0 := by omega
        rw [if_neg (by decide), Option.bind_none]
        rfl

end Amounts

/-! ## The combiners -/

/-- The sum of two values, which is kept. -/
def sumOf (v1 v2 : Slice) : Option (Bool × Slice) := do
  let x ← tVarUIntegerPos32.asIntegerSkip v1
  let y ← tVarUIntegerPos32.asIntegerSkip v2
  return (true, ← stored true (x.add y))

/-- The difference of two values, and whether it is kept. -/
def differenceOf (v1 v2 : Slice) : Option (Bool × Slice) := do
  let x ← tVarUIntegerPosRelaxed32.asIntegerSkip v1
  let y ← tVarUIntegerPosRelaxed32.asIntegerSkip v2
  return (decide ((x.sub y).sgn ≠ 0), ← stored false (x.sub y))

/-- What `g` makes of two values is stored, and then kept or not. -/
def storeCombine (g : Slice → Slice → Option (Bool × Slice)) : CombineFunc := fun cb v1 v2 _ => match g v1 v2 with
  | none => .error .combineError
  | some (keep, v) => match cb.appendSliceBool v with
    | none => .error .combineError
    | some cb => .ok (if keep then some cb else none)

/-- What `g` makes of two values, if it is kept. -/
def keptValue (g : Slice → Slice → Option (Bool × Slice)) : Combiner := fun _ v1 v2 => match g v1 v2 with
  | none => .error .combineError
  | some (keep, v) => .ok (if keep then some v else none)

theorem addCombine_eq : HashmapE.addCombine tVarUIntegerPos32 = storeCombine sumOf := by
  funext cb v1 v2 key
  unfold HashmapE.addCombine storeCombine VarUIntegerPos.addValues sumOf
  cases tVarUIntegerPos32.asIntegerSkip v1 with
  | none => rfl
  | some x =>
    cases tVarUIntegerPos32.asIntegerSkip v2 with
    | none => rfl
    | some y =>
      have hstore : tVarUIntegerPos32.storeIntegerValue (x.add y) cb = (stored true (x.add y)).bind cb.appendSliceBool :=
        storeIntegerValue_eq true _ cb
      simp only [hstore, Option.bind_eq_bind, Option.bind_some]
      cases stored true (x.add y) with
      | none => rfl
      | some v => cases hcb : cb.appendSliceBool v <;> simp [hcb]

theorem subCombine_eq : HashmapE.subCombine tVarUIntegerPosRelaxed32 = storeCombine differenceOf := by
  funext cb v1 v2 key
  unfold HashmapE.subCombine storeCombine VarUIntegerPos.subValues differenceOf
  cases tVarUIntegerPosRelaxed32.asIntegerSkip v1 with
  | none => rfl
  | some x =>
    cases tVarUIntegerPosRelaxed32.asIntegerSkip v2 with
    | none => rfl
    | some y =>
      have hstore : tVarUIntegerPosRelaxed32.storeIntegerValue (x.sub y) cb = (stored false (x.sub y)).bind cb.appendSliceBool :=
        storeIntegerValue_eq false _ cb
      simp only [hstore, Option.bind_eq_bind, Option.bind_some]
      cases stored false (x.sub y) with
      | none => rfl
      | some v => cases hcb : cb.appendSliceBool v <;> simp [hcb]

/-- A value that is not kept has to fit nevertheless. -/
theorem storeCombine_implements {g : Slice → Slice → Option (Bool × Slice)} {n : Nat}
    (hdrop : ∀ {v1 v2 v l}, g v1 v2 = some (false, v) → l.length ≤ n → ∃ cb, (leafBuilder l).appendSliceBool v = some cb) :
    (storeCombine g).Implements n (keptValue g) where
  error {key v1 v2 e l} _ h := by
    unfold keptValue at h
    unfold storeCombine
    cases hg : g v1 v2 with
    | none =>
      rw [hg] at h
      cases h
      rfl
    | some r =>
      rw [hg] at h
      cases h
  drop {key v1 v2 l} hl h := by
    unfold keptValue at h
    unfold storeCombine
    cases hg : g v1 v2 with
    | none =>
      rw [hg] at h
      cases h
    | some r =>
      obtain ⟨keep, v⟩ := r
      rw [hg] at h
      cases keep with
      | true => cases h
      | false =>
        obtain ⟨cb, hcb⟩ := hdrop hg hl
        simp [hcb]
  value {key v1 v2 v l cb} _ h hcb := by
    unfold keptValue at h
    unfold storeCombine
    cases hg : g v1 v2 with
    | none =>
      rw [hg] at h
      cases h
    | some r =>
      obtain ⟨keep, v⟩ := r
      rw [hg] at h
      cases keep with
      | false => cases h
      | true =>
        cases h
        simp [hcb]
  overflow {key v1 v2 v l} _ h hcb := by
    unfold keptValue at h
    unfold storeCombine
    cases hg : g v1 v2 with
    | none =>
      rw [hg] at h
      cases h
    | some r =>
      obtain ⟨keep, v⟩ := r
      rw [hg] at h
      cases keep with
      | false => cases h
      | true =>
        cases h
        exact ⟨.combineError, by simp [hcb]⟩

theorem sumOf_implements (n : Nat) : (HashmapE.addCombine tVarUIntegerPos32).Implements n (keptValue sumOf) := by
  rw [addCombine_eq]
  apply storeCombine_implements
  intro v1 v2 v l h _
  unfold sumOf at h
  obtain ⟨x, -, h⟩ := Option.bind_eq_some_iff.1 h
  obtain ⟨y, -, h⟩ := Option.bind_eq_some_iff.1 h
  obtain ⟨w, -, h⟩ := Option.bind_eq_some_iff.1 h
  cases h

/-- The difference zero takes five bits. -/
theorem differenceOf_implements : (HashmapE.subCombine tVarUIntegerPosRelaxed32).Implements 32 (keptValue differenceOf) := by
  rw [subCombine_eq]
  apply storeCombine_implements
  intro v1 v2 v l h hl
  unfold differenceOf at h
  obtain ⟨x, -, h⟩ := Option.bind_eq_some_iff.1 h
  obtain ⟨y, -, h⟩ := Option.bind_eq_some_iff.1 h
  obtain ⟨w, hw, h⟩ := Option.bind_eq_some_iff.1 h
  generalize x.sub y = z at hw h
  have hz : z.sgn = 0 ∧ w = v := by
    have h := Option.some.inj h
    rw [Prod.mk.injEq, decide_eq_false_iff_not, not_not] at h
    exact h
  obtain ⟨hsgn, rfl⟩ := hz
  cases z with
  | none => cases hw
  | some z =>
    obtain rfl : z = 0 := Int.sign_eq_zero_iff_zero.1 hsgn
    obtain rfl : amountSlice 0 = w := Option.some.inj hw
    have hlen : (labelBits l l.length).length ≤ 2 * l.length + 2 := by
      rw [length_labelBits (le_refl _)]
      exact Nat.min_le_left ..
    refine ⟨_, if_pos ?_⟩
    have hbits : (amountSlice 0).bits.length = 5 := rfl
    simp only [canExtendBy, leafBuilder, hbits, Bool.and_eq_true, decide_eq_true_eq]
    exact ⟨by unfold maxBits; omega, rfl⟩

/-- The sum of two amounts. -/
def addAmounts (x y : Nat) : Option Nat := if x + y < maxAmount then some (x + y) else none

/-- The difference of two amounts. -/
def subAmounts (x y : Nat) : Option Nat := if y ≤ x then some (x - y) else none

/-- What is stored of the result for a currency; zero is not kept. -/
def keptAmount : Option Nat → CombineResult (Option Slice)
  | none => .error .combineError
  | some z => .ok (if z = 0 then none else some (amountSlice z))

section Values

variable {x y : Nat} (key : List Bool)

/-- Small numbers are exact. -/
theorem ofInt_small {z : Int} (h : -2 ^ 250 ≤ z) (h' : z < 2 ^ 250) : BigInt256.ofInt z = some z := by
  rw [BigInt256.ofInt, if_pos]
  exact ⟨le_trans (by norm_num) h, lt_of_lt_of_le h' (by norm_num)⟩

theorem keptValue_sumOf (hx0 : 0 < x) (hx : x < maxAmount) (hy0 : 0 < y) (hy : y < maxAmount) :
    keptValue sumOf key (amountSlice x) (amountSlice y) = keptAmount (addAmounts x y) := by
  have hsum : BigInt256.add (some (x : Int)) (some (y : Int)) = some ((x + y : Nat) : Int) := by
    unfold maxAmount at hx hy
    rw [BigInt256.add_some, ofInt_small (by omega) (by omega), Nat.cast_add]
  have hread : sumOf (amountSlice x) (amountSlice y) =
      (stored true (some ((x + y : Nat) : Int))).bind fun v => some (true, v) := by
    unfold sumOf tVarUIntegerPos32
    rw [asIntegerSkip_amountSlice hx0 hx, asIntegerSkip_amountSlice hy0 hy, Option.bind_eq_bind, Option.bind_some,
      Option.bind_eq_bind, Option.bind_some, hsum]
    rfl
  have hstored : stored true (some ((x + y : Nat) : Int)) =
      if x + y < maxAmount then some (amountSlice (x + y)) else none := by
    show (if _ then _ else _) = _
    by_cases hlt : x + y < maxAmount
    · rw [if_pos hlt, if_pos ⟨by show (1 : Int) ≤ _; omega, by exact_mod_cast hlt⟩, Int.toNat_natCast]
    · rw [if_neg hlt, if_neg fun h => hlt (by exact_mod_cast h.2)]
  unfold keptValue addAmounts
  rw [hread, hstored]
  by_cases hlt : x + y < maxAmount
  · rw [if_pos hlt, if_pos hlt, Option.bind_some, keptAmount, if_neg (by omega)]
    rfl
  · rw [if_neg hlt, if_neg hlt]
    rfl

theorem keptValue_differenceOf (hx0 : 0 < x) (hx : x < maxAmount) (hy0 : 0 < y) (hy : y < maxAmount) :
    keptValue differenceOf key (amountSlice x) (amountSlice y) = keptAmount (subAmounts x y) := by
  have hdiff : BigInt256.sub (some (x : Int)) (some (y : Int)) = some ((x : Int) - y) := by
    unfold maxAmount at hx hy
    rw [BigInt256.sub_some, ofInt_small (by omega) (by omega)]
  have hread : differenceOf (amountSlice x) (amountSlice y) =
      (stored false (some ((x : Int) - y))).bind fun v => some (decide (((x : Int) - y).sign ≠ 0), v) := by
    unfold differenceOf tVarUIntegerPosRelaxed32
    rw [asIntegerSkip_amountSlice hx0 hx, asIntegerSkip_amountSlice hy0 hy]
    simp only [Option.bind_eq_bind, Option.bind_some, Option.pure_def, hdiff]
    rfl
  have hstored : stored false (some ((x : Int) - y)) = if y ≤ x then some (amountSlice (x - y)) else none := by
    show (if _ then _ else _) = _
    by_cases hle : y ≤ x
    · have hlt : (x : Int) - y < maxAmount := by
        have : (x : Int) < maxAmount := by exact_mod_cast hx
        omega
      rw [if_pos hle, if_pos ⟨by show (0 : Int) ≤ _; omega, hlt⟩, show ((x : Int) - y).toNat = x - y by omega]
    · rw [if_neg hle, if_neg]
      rintro ⟨h, -⟩
      have h : (0 : Int) ≤ (x : Int) - y := h
      omega
  unfold keptValue subAmounts
  rw [hread, hstored]
  by_cases hle : y ≤ x
  · rw [if_pos hle, if_pos hle, Option.bind_some, keptAmount]
    dsimp only
    by_cases heq : x - y = 0
    · rw [if_pos heq, if_neg]
      rw [show (x : Int) - y = 0 by omega]
      decide
    · rw [if_neg heq, if_pos]
      rw [decide_eq_true_eq, Ne, Int.sign_eq_zero_iff_zero]
      omega
  · rw [if_neg hle, if_neg hle]
    rfl

end Values

/-! ## Collections -/

/-- Amounts of currencies; zero: there is none. -/
abbrev Amounts := List Bool → Nat

/-- The dictionary of some amounts. -/
def amountValues (m : Amounts) : KeyMap Slice := fun k => if m k = 0 then none else some (amountSlice (m k))

variable [Digest]

/-- The root of the extra currencies is parsed as some amounts. -/
structure HoldsAmounts (canon : Prop) (extra : Option Cell) (m : Amounts) : Prop where
  lt : ∀ k, m k < maxAmount
  parsed : (DictionaryBase.mk 32 extra (by decide)).Parsed canon (amountValues m)

omit [Digest] in
theorem isSome_amountValues {m : Amounts} {k : List Bool} : (amountValues m k).isSome ↔ 0 < m k := by
  unfold amountValues
  split <;> simp <;> omega

omit [Digest] in
theorem eq_zero_of_amountValues {m : Amounts} {k : List Bool} (h : amountValues m k = none) : m k = 0 := by
  unfold amountValues at h
  split at h
  · assumption
  · cases h

/-- An amount fits behind any key. -/
theorem valueFits_amountSlice {k : List Bool} {x : Nat} (hk : k.length = 32) (hx : x < maxAmount) :
    ValueFits 32 k (amountSlice x) := by
  apply valueFits_of_bits
  have hlen : (labelBits k 32).length ≤ 2 * k.length + 2 := by
    rw [length_labelBits (by omega)]
    exact Nat.min_le_left ..
  have hsize := bitLength_le_of_lt hx
  simp only [List.length_append, length_natToBits]
  unfold maxBits
  omega

/-- The amount that a merge gives a currency; `none`: it fails. -/
def mergedAmount (both : Nat → Nat → Option Nat) (x y : Nat) : Option Nat :=
  if y = 0 then some x else if x = 0 then some y else both x y

omit [Digest] in
theorem mergedAmount_add {x y : Nat} (hx : x < maxAmount) (hy : y < maxAmount) : mergedAmount addAmounts x y = addAmounts x y := by
  unfold mergedAmount addAmounts
  by_cases hy0 : y = 0
  · rw [if_pos hy0, if_pos (by omega), hy0, Nat.add_zero]
  · rw [if_neg hy0]
    by_cases hx0 : x = 0
    · rw [if_pos hx0, if_pos (by omega), hx0, Nat.zero_add]
    · rw [if_neg hx0]

omit [Digest] in
/-- A currency that there is some of is subtracted. -/
theorem mergedAmount_sub {x y : Nat} (hx : 0 < x) : mergedAmount subAmounts x y = subAmounts x y := by
  unfold mergedAmount subAmounts
  by_cases hy0 : y = 0
  · rw [if_pos hy0, if_pos (by omega), hy0, Nat.sub_zero]
  · rw [if_neg hy0, if_neg (by omega)]

omit [Digest] in
theorem mergedAmount_sub_of_le {x y : Nat} (h : y ≤ x) : mergedAmount subAmounts x y = some (x - y) := by
  by_cases hy0 : y = 0
  · rw [mergedAmount, if_pos hy0, hy0, Nat.sub_zero]
  · rw [mergedAmount_sub (by omega), subAmounts, if_pos h]

section Merge

variable {canon : Prop} {extra1 extra2 : Option Cell} {m1 m2 : Amounts}

theorem HoldsAmounts.eq_zero (h : HoldsAmounts canon extra1 m1) (hnone : extra1.isNone) (k : List Bool) : m1 k = 0 := by
  rcases h.parsed.cases with ⟨-, hzero⟩ | ⟨t, c, hroot, -⟩
  · exact eq_zero_of_amountValues (hzero k)
  · have hroot : extra1 = some c := hroot
    rw [hroot] at hnone
    cases hnone

theorem HoldsAmounts.exists_pos (h : HoldsAmounts canon extra1 m1) (hsome : ¬ extra1.isNone) : ∃ k, 0 < m1 k := by
  rcases h.parsed.cases with ⟨hroot, -⟩ | ⟨t, c, -, ht, hm⟩
  · have hroot : extra1 = none := hroot
    rw [hroot] at hsome
    exact absurd rfl hsome
  · obtain ⟨k, hk⟩ := isSome_of_parses ht
    rw [← hm] at hk
    exact ⟨k, isSome_amountValues.1 hk⟩

/-- A merge of amounts gives amounts, or fails for one of the currencies. -/
theorem combineRoots_cases {combine : CombineFunc} {f : Combiner} {both : Nat → Nat → Option Nat} {t : HashmapE}
    (ht : t.n = 32) (hcombine : combine.Implements 32 f)
    (hf : ∀ key x y, 0 < x → x < maxAmount → 0 < y → y < maxAmount → f key (amountSlice x) (amountSlice y) =
      keptAmount (both x y))
    (hboth : ∀ x y z, x < maxAmount → y < maxAmount → both x y = some z → z < maxAmount)
    (h1 : HoldsAmounts canon extra1 m1) (h2 : HoldsAmounts canon extra2 m2) :
    (∃ root m, t.combineRoots combine 0 extra1 extra2 = .ok (some root) ∧ HoldsAmounts canon root m ∧
        ∀ k, mergedAmount both (m1 k) (m2 k) = some (m k)) ∨
      t.combineRoots combine 0 extra1 extra2 = .ok none ∧ ∃ k, mergedAmount both (m1 k) (m2 k) = none := by
  obtain ⟨n, vt, hn⟩ := t
  obtain rfl : n = 32 := ht
  -- what the merge of the values is, as amounts
  have hM (k : List Bool) : merged f [] (amountValues m1) (amountValues m2) k =
      keptAmount (mergedAmount both (m1 k) (m2 k)) := by
    by_cases hk2 : m2 k = 0
    · rw [merged_left (by rw [amountValues, if_pos hk2]), mergedAmount, if_pos hk2]
      rfl
    · by_cases hk1 : m1 k = 0
      · rw [merged_right (by rw [amountValues, if_pos hk1]), mergedAmount, if_neg hk2, if_pos hk1]
        rfl
      · rw [merged_both (show amountValues m1 k = some (amountSlice (m1 k)) by rw [amountValues, if_neg hk1])
          (show amountValues m2 k = some (amountSlice (m2 k)) by rw [amountValues, if_neg hk2]), mergedAmount, if_neg hk2, if_neg hk1]
        exact hf _ _ _ (Nat.pos_of_ne_zero hk1) (h1.lt k) (Nat.pos_of_ne_zero hk2) (h2.lt k)
  have hlt (k : List Bool) {z : Nat} (hz : mergedAmount both (m1 k) (m2 k) = some z) : z < maxAmount := by
    unfold mergedAmount at hz
    split at hz
    · exact Option.some.inj hz ▸ h1.lt k
    · split at hz
      · exact Option.some.inj hz ▸ h2.lt k
      · exact hboth _ _ _ (h1.lt k) (h2.lt k) hz
  have hbits : (DictionaryBase.mk 32 extra2 hn).keyBits = (DictionaryBase.mk 32 extra1 hn).keyBits := rfl
  have hmerges := merges_combineWith Dictionary.forkOps_plain hcombine hbits h1.parsed h2.parsed
  unfold HashmapE.combineRoots
  dsimp only
  generalize run (combineWith Dictionary.forkOps ⟨32, extra2, hn⟩ combine 0) ⟨32, extra1, hn⟩ = res at hmerges
  obtain ⟨r, d⟩ := res
  dsimp only at hmerges ⊢
  cases hmerges with
  | merged hbits hm hMok =>
    have hamount (k : List Bool) : ∃ z, mergedAmount both (m1 k) (m2 k) = some z := by
      have hk := hMok k
      rw [hM] at hk
      cases hz : mergedAmount both (m1 k) (m2 k) with
      | none =>
        rw [hz] at hk
        cases hk
      | some z => exact ⟨z, rfl⟩
    choose m hm' using hamount
    refine .inl ⟨_, m, rfl, ⟨fun k => hlt k (hm' k), ?_⟩, hm'⟩
    obtain ⟨t, hroot, hget⟩ := hm
    rw [hbits] at hroot
    refine ⟨t, hroot, fun k => ?_⟩
    have hk := hMok k
    rw [hM, hm'] at hk
    rw [hget]
    exact (Except.ok.inj hk).symm
  | @failed k hk =>
    rw [hM] at hk
    refine .inr ⟨rfl, k, ?_⟩
    cases hz : mergedAmount both (m1 k) (m2 k) with
    | none => rfl
    | some z =>
      rw [hz] at hk
      cases hk
  | @thrown k e hk =>
    rw [hM] at hk
    cases hz : mergedAmount both (m1 k) (m2 k) <;>
    · rw [hz] at hk
      cases hk
  | @overflow _ k v _ hk hfit =>
    exfalso
    apply hfit
    rw [hM] at hk
    cases hz : mergedAmount both (m1 k) (m2 k) with
    | none =>
      rw [hz] at hk
      cases hk
    | some z =>
      rw [hz] at hk
      have hv := Except.ok.inj hk
      split at hv
      · cases hv
      · next hz0 =>
        cases hv
        refine valueFits_amountSlice ?_ (hlt k hz)
        by_contra hlen
        have hk1 := h1.parsed.eq_none hlen
        have hk2 := h2.parsed.eq_none hlen
        rw [mergedAmount, eq_zero_of_amountValues hk1, eq_zero_of_amountValues hk2, if_pos rfl] at hz
        exact hz0 (Option.some.inj hz).symm

/-- A mode finds out what is caught. -/
theorem combineRoots_mode (t : HashmapE) (ht : t.n = 32) (combine : CombineFunc) (mode : Nat)
    (h1 : HoldsAmounts canon extra1 m1) (h2 : HoldsAmounts canon extra2 m2) (hpos1 : ∃ k, 0 < m1 k) (hpos2 : ∃ k, 0 < m2 k) :
    Caught mode (amountValues m1) (amountValues m2) ∧ t.combineRoots combine mode extra1 extra2 = .ok none ∨
      ¬ Caught mode (amountValues m1) (amountValues m2) ∧
        t.combineRoots combine mode extra1 extra2 = t.combineRoots combine 0 extra1 extra2 := by
  obtain ⟨n, vt, hn⟩ := t
  obtain rfl : n = 32 := ht
  simp only [← isSome_amountValues] at hpos1 hpos2
  have hbits : (DictionaryBase.mk 32 extra2 hn).keyBits = (DictionaryBase.mk 32 extra1 hn).keyBits := rfl
  have hmode := run_combineWith_mode Dictionary.forkOps_plain mode hbits combine h1.parsed h2.parsed hpos1 hpos2
  unfold HashmapE.combineRoots
  dsimp only
  rcases hmode with ⟨hcaught, hrun⟩ | ⟨hnot, hrun⟩
  · exact .inl ⟨hcaught, by rw [hrun]⟩
  · exact .inr ⟨hnot, by rw [hrun]⟩

/-- The sums of the amounts, unless one is too large. -/
theorem addExtraCurrency_cases (h1 : HoldsAmounts canon extra1 m1) (h2 : HoldsAmounts canon extra2 m2) :
    (∃ root, addExtraCurrency extra1 extra2 = .ok (some root) ∧ HoldsAmounts canon root fun k => m1 k + m2 k) ∨
      addExtraCurrency extra1 extra2 = .ok none ∧ ∃ k, maxAmount ≤ m1 k + m2 k := by
  unfold addExtraCurrency
  by_cases hnone2 : extra2.isNone
  · rw [if_pos hnone2]
    refine .inl ⟨_, rfl, ?_⟩
    have hzero : (fun k => m1 k + m2 k) = m1 := funext fun k => by rw [h2.eq_zero hnone2, Nat.add_zero]
    rwa [hzero]
  · rw [if_neg hnone2]
    by_cases hnone1 : extra1.isNone
    · rw [if_pos hnone1]
      refine .inl ⟨_, rfl, ?_⟩
      have hzero : (fun k => m1 k + m2 k) = m2 := funext fun k => by rw [h1.eq_zero hnone1, Nat.zero_add]
      rwa [hzero]
    · rw [if_neg hnone1]
      have hlt (x y z : Nat) (_ : x < maxAmount) (_ : y < maxAmount) (hz : addAmounts x y = some z) : z < maxAmount := by
        unfold addAmounts at hz
        split at hz
        · next hlt => exact Option.some.inj hz ▸ hlt
        · cases hz
      rcases combineRoots_cases (t := ExtraCurrencyCollection.dictType) rfl (sumOf_implements 32)
        (fun key _ _ hx0 hx hy0 hy => keptValue_sumOf key hx0 hx hy0 hy) hlt h1 h2 with ⟨root, m, hres, hm, hsum⟩ | ⟨hres, k, hk⟩
      · refine .inl ⟨root, hres, ?_⟩
        have hm' : m = fun k => m1 k + m2 k := by
          funext k
          have hk := hsum k
          rw [mergedAmount_add (h1.lt k) (h2.lt k), addAmounts] at hk
          split at hk
          · exact (Option.some.inj hk).symm
          · cases hk
        rwa [hm'] at hm
      · refine .inr ⟨hres, k, ?_⟩
        rw [mergedAmount_add (h1.lt k) (h2.lt k), addAmounts] at hk
        split at hk
        · cases hk
        · omega

/-- The currencies of the second collection that the first one has none of are found out. -/
def ShortageFound (m1 m2 : Amounts) : Prop := Caught 1 (amountValues m1) (amountValues m2)

/-- The differences of the amounts, a currency that the first collection has none of being taken over; unless that is
found out, or there is too little of another currency. -/
theorem subExtraCurrency_cases (h1 : HoldsAmounts canon extra1 m1) (h2 : HoldsAmounts canon extra2 m2) :
    (∃ root m, subExtraCurrency extra1 extra2 = .ok (some root) ∧ HoldsAmounts canon root m ∧ ¬ ShortageFound m1 m2 ∧
        ∀ k, mergedAmount subAmounts (m1 k) (m2 k) = some (m k)) ∨
      subExtraCurrency extra1 extra2 = .ok none ∧ (ShortageFound m1 m2 ∨ ∃ k, mergedAmount subAmounts (m1 k) (m2 k) = none) := by
  unfold subExtraCurrency
  by_cases hnone2 : extra2.isNone
  · rw [if_pos hnone2]
    refine .inl ⟨_, m1, rfl, h1, ?_, fun k => by rw [h2.eq_zero hnone2, mergedAmount, if_pos rfl]⟩
    rintro ⟨⟨-, k, hk, -⟩ | ⟨hbit, -⟩, -⟩
    · rw [isSome_amountValues, h2.eq_zero hnone2] at hk
      exact absurd hk (Nat.lt_irrefl 0)
    · cases hbit
  · rw [if_neg hnone2]
    obtain ⟨k2, hk2⟩ := h2.exists_pos hnone2
    by_cases hnone1 : extra1.isNone
    · rw [if_pos hnone1]
      have hzero (k : List Bool) : amountValues m1 k = none := by rw [amountValues, if_pos (h1.eq_zero hnone1 k)]
      exact .inr ⟨rfl, .inl ⟨.inl ⟨rfl, k2, isSome_amountValues.2 hk2, hzero k2⟩, not_hidden_empty hzero⟩⟩
    · rw [if_neg hnone1]
      have hlt (x y z : Nat) (hx : x < maxAmount) (_ : y < maxAmount) (hz : subAmounts x y = some z) : z < maxAmount := by
        unfold subAmounts at hz
        split at hz
        · have := Option.some.inj hz
          omega
        · cases hz
      have hcases := combineRoots_cases (t := ExtraCurrencyCollection.dictType2) rfl differenceOf_implements
        (fun key _ _ hx0 hx hy0 hy => keptValue_differenceOf key hx0 hx hy0 hy) hlt h1 h2
      unfold ExtraCurrencyCollection.subValuesRef HashmapE.subValuesRef
      rcases combineRoots_mode ExtraCurrencyCollection.dictType2 rfl
        (HashmapE.subCombine ExtraCurrencyCollection.dictType2.valueType) 1 h1 h2 (h1.exists_pos hnone1) ⟨k2, hk2⟩ with
        ⟨hcaught, hres⟩ | ⟨hnot, hres⟩
      · rw [hres]
        exact .inr ⟨rfl, .inl hcaught⟩
      · rw [hres]
        rcases hcases with ⟨root, m, hres, hm, hdiff⟩ | ⟨hres, k, hk⟩
        · refine .inl ⟨root, m, ?_, hm, hnot, hdiff⟩
          show ((ExtraCurrencyCollection.dictType2.combineRoots (HashmapE.subCombine tVarUIntegerPosRelaxed32) 0 extra1
            extra2 >>= _) >>= _ : Result _) = _
          rw [hres]
          cases root <;> rfl
        · refine .inr ⟨?_, .inr ⟨k, hk⟩⟩
          show ((ExtraCurrencyCollection.dictType2.combineRoots (HashmapE.subCombine tVarUIntegerPosRelaxed32) 0 extra1
            extra2 >>= _) >>= _ : Result _) = _
          rw [hres]
          rfl

/-! ## Subtraction -/

/-- A collection is taken off another one: that fails when there is too little of a currency, and otherwise adding it
again gives the first collection, with the same root cell if labels are written in the shortest way. -/
def SubtractsExtra (canon : Prop) (extra1 extra2 : Option Cell) (m1 m2 : Amounts) : Prop :=
  ∃ r, subExtraCurrency extra1 extra2 = .ok r ∧ (r.isSome ↔ ∀ k, m2 k ≤ m1 k) ∧
    ∀ root, r = some root → ∃ sum, addExtraCurrency root extra2 = .ok (some sum) ∧ HoldsAmounts canon sum m1 ∧
      (canon → sum = extra1)

/-- There is none of a currency, both dictionaries branch where all keys of the second one start with, and there is
enough of the currencies that both have. -/
def HiddenShortage (m1 m2 : Amounts) : Prop :=
  (∃ k, 0 < m2 k ∧ m1 k = 0) ∧ Hidden True False (amountValues m1) (amountValues m2) ∧ ∀ k, 0 < m1 k → m2 k ≤ m1 k

omit [Digest] in
theorem lacks_amountValues : Lacks (amountValues m1) (amountValues m2) ↔ ∃ k, 0 < m2 k ∧ m1 k = 0 := by
  constructor
  · rintro ⟨k, hk, hnone⟩
    exact ⟨k, isSome_amountValues.1 hk, eq_zero_of_amountValues hnone⟩
  · rintro ⟨k, hk, hzero⟩
    exact ⟨k, isSome_amountValues.2 hk, by rw [amountValues, if_pos hzero]⟩

omit [Digest] in
theorem shortageFound_iff : ShortageFound m1 m2 ↔
    (∃ k, 0 < m2 k ∧ m1 k = 0) ∧ ¬ Hidden True False (amountValues m1) (amountValues m2) := by
  have h0 : Nat.testBit 1 0 = true := by decide
  have h1 : Nat.testBit 1 1 = false := by decide
  unfold ShortageFound Caught
  rw [h0, h1, ← lacks_amountValues]
  simp only [Missing, Bool.false_eq_true, false_and, or_false, true_and]

/-- Roots that hold the same amounts are one. -/
theorem HoldsAmounts.root_eq {root : Option Cell} (hcanon : canon) (h : HoldsAmounts canon root m1)
    (h1 : HoldsAmounts canon extra1 m1) : root = extra1 := by
  obtain rfl : canon = True := eq_true hcanon
  exact (stands_iff_parsed.2 h1.parsed).rootCell_eq (stands_iff_parsed.2 h.parsed) rfl

/-- What is left is more by what was taken off. -/
theorem add_after_sub {root : Option Cell} {m : Amounts} (h1 : HoldsAmounts canon extra1 m1)
    (h2 : HoldsAmounts canon extra2 m2) (h : HoldsAmounts canon root m) (hle : ∀ k, m2 k ≤ m1 k)
    (hm : ∀ k, mergedAmount subAmounts (m1 k) (m2 k) = some (m k)) :
    ∃ sum, addExtraCurrency root extra2 = .ok (some sum) ∧ HoldsAmounts canon sum m1 ∧ (canon → sum = extra1) := by
  have hsum : (fun k => m k + m2 k) = m1 := by
    funext k
    have hk := hm k
    have hle := hle k
    rw [mergedAmount_sub_of_le hle] at hk
    have := Option.some.inj hk
    omega
  rcases addExtraCurrency_cases h h2 with ⟨sum, hres, hm1⟩ | ⟨-, k, hk⟩
  · rw [hsum] at hm1
    exact ⟨sum, hres, hm1, fun hcanon => hm1.root_eq hcanon h1⟩
  · exfalso
    have hk' := congrFun hsum k
    have hlt := h1.lt k
    omega

/-- Subtraction of extra currencies does what it should unless a shortage is hidden. -/
theorem subtractsExtra_iff (h1 : HoldsAmounts canon extra1 m1) (h2 : HoldsAmounts canon extra2 m2) :
    SubtractsExtra canon extra1 extra2 m1 m2 ↔ ¬ HiddenShortage m1 m2 := by
  have hcases := subExtraCurrency_cases h1 h2
  rw [shortageFound_iff] at hcases
  constructor
  · rintro ⟨r, hres, hiff, -⟩ ⟨⟨k, hk, hzero⟩, hhidden, hcommon⟩
    rcases hcases with ⟨root, m, hres', -⟩ | ⟨-, ⟨-, hnot⟩ | ⟨k', hk'⟩⟩
    · rw [hres] at hres'
      obtain rfl := Except.ok.inj hres'
      have := hiff.1 rfl k
      omega
    · exact hnot hhidden
    · by_cases hpos : 0 < m1 k'
      · rw [mergedAmount_sub_of_le (hcommon k' hpos)] at hk'
        cases hk'
      · unfold mergedAmount at hk'
        rw [if_pos (show m1 k' = 0 by omega)] at hk'
        split at hk' <;> cases hk'
  · intro hnot
    rcases hcases with ⟨root, m, hres, hm, hfound, hdiff⟩ | ⟨hres, hfails⟩
    · have hle (k : List Bool) : m2 k ≤ m1 k := by
        by_contra hlt
        have hcommon (k : List Bool) (hpos : 0 < m1 k) : m2 k ≤ m1 k := by
          have hk := hdiff k
          rw [mergedAmount_sub hpos, subAmounts] at hk
          split at hk
          · assumption
          · cases hk
        have hzero : m1 k = 0 := by
          by_contra hne
          exact hlt (hcommon k (by omega))
        have hlacks : ∃ k, 0 < m2 k ∧ m1 k = 0 := ⟨k, by omega, hzero⟩
        exact hnot ⟨hlacks, not_not.1 fun hhidden => hfound ⟨hlacks, hhidden⟩, hcommon⟩
      refine ⟨_, hres, iff_of_true rfl hle, ?_⟩
      rintro _ ⟨⟩
      exact add_after_sub h1 h2 hm hle hdiff
    · refine ⟨_, hres, iff_of_false (by simp) ?_, nofun⟩
      intro hle
      rcases hfails with ⟨⟨k, hk, hzero⟩, -⟩ | ⟨k, hk⟩
      · have := hle k
        omega
      · rw [mergedAmount_sub_of_le (hle k)] at hk
        cases hk

end Merge

namespace CurrencyCollection

/-- A collection of so many grams, which are not negative, and some extra currencies. -/
structure Holds (canon : Prop) (c : CurrencyCollection) (grams : Nat) (m : Amounts) : Prop where
  grams_eq : c.grams = some (some (grams : Int))
  grams_lt : grams < 2 ^ 256
  extra : HoldsAmounts canon c.extra m

/-- A collection is taken off another one: what is left is valid when there is enough of everything, and adding what was
taken off gives the first collection again. -/
def Subtracts (canon : Prop) (a b : CurrencyCollection) (ga gb : Nat) (m1 m2 : Amounts) : Prop :=
  ∃ c, sub a b = .ok c ∧ (c.isValid ↔ gb ≤ ga ∧ ∀ k, m2 k ≤ m1 k) ∧
    (c.isValid → ∃ s, add c b = .ok s ∧ s.Holds canon ga m1 ∧ (canon → s = a))

variable {canon : Prop} {a b : CurrencyCollection} {ga gb : Nat} {m1 m2 : Amounts}

/-- Subtraction of collections does what it should unless there are enough grams and a shortage is hidden. -/
theorem subtracts_iff (ha : a.Holds canon ga m1) (hb : b.Holds canon gb m2) :
    Subtracts canon a b ga gb m1 m2 ↔ ¬ (gb ≤ ga ∧ HiddenShortage m1 m2) := by
  obtain ⟨agrams, aextra⟩ := a
  obtain ⟨bgrams, bextra⟩ := b
  obtain rfl : agrams = some (some (ga : Int)) := ha.grams_eq
  obtain rfl : bgrams = some (some (gb : Int)) := hb.grams_eq
  have hga := ha.grams_lt
  have hgb := hb.grams_lt
  have hdiff : BigInt256.sub (some (ga : Int)) (some (gb : Int)) = some ((ga : Int) - gb) := by
    rw [BigInt256.sub_some, BigInt256.ofInt, if_pos]
    omega
  have hsub : sub ⟨some (some (ga : Int)), aextra⟩ ⟨some (some (gb : Int)), bextra⟩ =
      if gb ≤ ga then do return ofExtra (some ((ga : Int) - gb)) (← subExtraCurrency aextra bextra)
      else .ok invalid := by
    unfold sub
    dsimp only
    rw [hdiff]
    by_cases hle : gb ≤ ga
    · exact (if_pos ⟨rfl, Int.sign_nonneg_iff.2 (by omega)⟩).trans (if_pos hle).symm
    · rw [if_neg hle, if_neg]
      rintro ⟨-, hsgn⟩
      have := Int.sign_nonneg_iff.1 hsgn
      omega
  unfold Subtracts
  rw [hsub]
  by_cases hle : gb ≤ ga
  · rw [if_pos hle]
    simp only [hle, true_and]
    rw [← subtractsExtra_iff ha.extra hb.extra]
    unfold SubtractsExtra
    obtain ⟨r, hr⟩ : ∃ r, subExtraCurrency aextra bextra = .ok r := by
      rcases subExtraCurrency_cases ha.extra hb.extra with ⟨root, -, hres, -⟩ | ⟨hres, -⟩ <;> exact ⟨_, hres⟩
    rw [hr]
    cases r with
    | none =>
      constructor
      · rintro ⟨c, hc, hiff, -⟩
        obtain rfl := Except.ok.inj hc
        exact ⟨none, rfl, hiff, nofun⟩
      · rintro ⟨r, hr, hiff, -⟩
        obtain rfl := Except.ok.inj hr
        exact ⟨invalid, rfl, hiff, nofun⟩
    | some root =>
      have hadd (sum : Option Cell) (hsum : addExtraCurrency root bextra = .ok (some sum)) :
          add ⟨some (some ((ga : Int) - gb)), root⟩ ⟨some (some (gb : Int)), bextra⟩ =
            .ok ⟨some (some (ga : Int)), sum⟩ := by
        have hback : BigInt256.add (some ((ga : Int) - gb)) (some (gb : Int)) = some (ga : Int) := by
          rw [BigInt256.add_some, Int.sub_add_cancel, BigInt256.ofInt, if_pos]
          omega
        unfold add
        dsimp only
        rw [hback, hsum]
        rfl
      constructor
      · rintro ⟨c, hc, hiff, hrest⟩
        obtain rfl := Except.ok.inj hc
        refine ⟨some root, rfl, hiff, ?_⟩
        -- with enough of everything no shortage is hidden
        have hnot : ¬ HiddenShortage m1 m2 := by
          rintro ⟨⟨k, hk, hzero⟩, -⟩
          have := hiff.1 rfl k
          omega
        obtain ⟨r, hr', -, hadds⟩ := (subtractsExtra_iff ha.extra hb.extra).2 hnot
        rw [hr] at hr'
        obtain rfl := Except.ok.inj hr'
        exact hadds
      · rintro ⟨r, hr, hiff, hrest⟩
        obtain rfl := Except.ok.inj hr
        refine ⟨_, rfl, hiff, fun _ => ?_⟩
        obtain ⟨sum, hsum, hm, hcanon⟩ := hrest root rfl
        exact ⟨_, hadd sum hsum, ⟨rfl, hga, hm⟩, fun h => by rw [hcanon h]⟩
  · rw [if_neg hle]
    refine iff_of_true ⟨_, rfl, iff_of_false (by decide) fun h => hle h.1, fun h => by cases h⟩ fun h => hle h.1

end CurrencyCollection

/-! ## Merging and subtracting -/

/-- Without a mode two dictionaries are merged pointwise; a mode is kept to exactly where it detects what is missing; and
subtraction is exact unless a shortage is hidden. -/
theorem mergesAndSubtracts {canon : Prop} {d1 d2 : DictionaryBase} {m1 m2 : KeyMap Slice} (hbits : d2.keyBits = d1.keyBits)
    (h1 : d1.Parsed canon m1) (h2 : d2.Parsed canon m2) {a b : CurrencyCollection} {ga gb : Nat} {n1 n2 : Amounts}
    (ha : a.Holds canon ga n1) (hb : b.Holds canon gb n2) :
    (∀ (combine : CombineFunc) (f : Combiner), combine.Implements d1.keyBits f →
      Merges canon d1 (merged f [] m1 m2) (run (combineWith Dictionary.forkOps d2 combine 0) d1).1
        (run (combineWith Dictionary.forkOps d2 combine 0) d1).2) ∧
    (∀ mode, KeepsMode Dictionary.forkOps mode d1 d2 m1 m2 ↔ Detects mode m1 m2) ∧
    (SubtractsExtra canon a.extra b.extra n1 n2 ↔ ¬ HiddenShortage n1 n2) ∧
    (CurrencyCollection.Subtracts canon a b ga gb n1 n2 ↔ ¬ (gb ≤ ga ∧ HiddenShortage n1 n2)) := by
  refine ⟨?_, ?_, ?_, ?_⟩
  · exact fun combine f hcombine => merges_combineWith Dictionary.forkOps_plain hcombine hbits h1 h2
  · exact fun mode => keepsMode_iff Dictionary.forkOps_plain mode hbits h1 h2
  · exact subtractsExtra_iff ha.extra hb.extra
  · exact CurrencyCollection.subtracts_iff ha hb

namespace CurrencyCollection.Sample

abbrev digest : Digest where
  sha256 bytes := BitVec.ofNat 256 (bytes.foldl (fun h b => (h * 257 + b.toNat + 1) % 2 ^ 256) 0)

/-- Currencies of two numbers: 0 or 1, and `2 ^ 31`. -/
def low (last : Bool) : List Bool := List.replicate 30 false ++ [last]
def high : List Bool := List.replicate 31 false

/-- Five of each of the two currencies. -/
def fives (last : Bool) : Amounts := fun k => if k = false :: low last ∨ k = true :: high then 5 else 0

def tree (last : Bool) : PrefixTree Slice := .fork [] (.leaf (low last) (amountSlice 5)) (.leaf high (amountSlice 5))

def root (last : Bool) : Option Cell := @store digest .plain 32 (tree last)

omit [Digest] in
theorem get_tree (last : Bool) (k : List Bool) : (tree last).get k = amountValues (fives last) k := by
  cases k with
  | nil => rfl
  | cons c k =>
    rw [tree, show c :: k = [] ++ c :: k from rfl, PrefixTree.get_fork_side, List.nil_append, amountValues, fives]
    cases c with
    | false =>
      rw [if_neg (by decide), PrefixTree.get]
      by_cases hk : k = low last
      · subst hk
        simp
      · simp [hk]
    | true =>
      rw [if_pos rfl, PrefixTree.get]
      by_cases hk : k = high
      · subst hk
        simp
      · simp [hk]

omit [Digest] in
theorem holds_root (canon : Prop) (last : Bool) : @HoldsAmounts digest canon (root last) (fives last) := by
  have hlt : ∀ k, fives last k < maxAmount := by
    intro k
    unfold fives maxAmount
    split <;> norm_num
  have hkeyed : (tree last).Keyed 32 := ⟨31, rfl, by simp [PrefixTree.Keyed, low], by simp [PrefixTree.Keyed, high]⟩
  obtain ⟨c, hc, -⟩ := @store_of_fits digest 32 32 (tree last) [] (by decide) hkeyed rfl <| by
    intro k v hk
    have hlen : k.length = 32 := by
      by_contra hne
      rw [hkeyed.get_eq_none hne] at hk
      cases hk
    rw [get_tree, amountValues] at hk
    split at hk
    · cases hk
    · cases hk
      exact @valueFits_amountSlice digest _ _ hlen (hlt k)
  exact @HoldsAmounts.mk digest _ _ _ hlt
    ⟨some (tree last), ⟨c, hc, @parses_of_store digest _ _ _ _ hkeyed hc⟩, get_tree last⟩

def collection (last : Bool) : CurrencyCollection := ⟨some (some 7), root last⟩

omit [Digest] in
theorem holds_collection (canon : Prop) (last : Bool) :
    @CurrencyCollection.Holds digest canon (collection last) 7 (fives last) :=
  @CurrencyCollection.Holds.mk digest _ _ _ _ rfl (by norm_num) (holds_root canon last)

omit [Digest] in
/-- All of a collection is taken off it. -/
theorem subtracts_all : @CurrencyCollection.Subtracts digest True (collection false) (collection false) 7 7 (fives false) (fives false) := by
  have hparsed := @HoldsAmounts.parsed digest _ _ _ (holds_root True false)
  have hholds := holds_collection True false
  refine (@mergesAndSubtracts digest True ⟨32, root false, by decide⟩ ⟨32, root false, by decide⟩ _ _ rfl hparsed hparsed
    _ _ _ _ _ _ hholds hholds).2.2.2.2 ?_
  rintro ⟨-, ⟨k, hpos, hzero⟩, -⟩
  omega

omit [Digest] in
/-- Five of a currency are taken off none. -/
theorem not_subtracts : ¬ ∀ (_ : Digest) (canon : Prop) (extra1 extra2 : Option Cell) (m1 m2 : Amounts),
    HoldsAmounts canon extra1 m1 → HoldsAmounts canon extra2 m2 → SubtractsExtra canon extra1 extra2 m1 m2 := by
  intro hclaim
  obtain ⟨r, hres, hiff, -⟩ := hclaim digest True _ _ _ _ (holds_root True false) (holds_root True true)
  have hsome : (@subExtraCurrency digest (root false) (root true)).toOption.map Option.isSome = some true := by decide +kernel
  rw [hres] at hsome
  have hle := hiff.1 (Option.some.inj hsome) (false :: low true)
  exact absurd hle (by decide)

end CurrencyCollection.Sample

end TonWallet.Block
