/-
The gas that a balance buys and what an amount of gas costs, on wide integers: where their digits do not wrap, buying is
the best that pricing allows.
-/
import TonWallet.Td.BigInt

namespace TonWallet.Tonlib

open Lib.BalancedDigits Td.BigInt

/-- The prices of gas, each a word without a sign; `gasPrice` is in parts of 65536. -/
structure GasLimitsPrices where
  flatGasLimit : Nat
  flatGasPrice : Nat
  gasPrice : Nat
  gasLimit : Nat
  gasCredit : Nat
  deriving DecidableEq

structure GasLimits where
  gasMax : Int
  gasLimit : Int
  gasCredit : Int
  deriving DecidableEq

namespace Query

/-- What the whole gas limit costs. -/
def computeThreshold (cfg : GasLimitsPrices) : List Int :=
  if cfg.gasLimit > cfg.flatGasLimit then
    sum (shiftRight (mulWord [word cfg.gasPrice] (word (cfg.gasLimit - cfg.flatGasLimit : Nat))) 16 1)
      [word cfg.flatGasPrice]
  else [word cfg.flatGasPrice]

/-- Nothing is bought for a balance that is missing or negative. -/
def gasBoughtFor (nanograms : Option (List Int)) (maxGasThreshold : List Int) (cfg : GasLimitsPrices) : Nat :=
  match nanograms with
  | none => 0
  | some nanograms =>
    if sgn nanograms < 0 then 0
    else if Td.BigInt.cmp nanograms maxGasThreshold ≥ 0 then cfg.gasLimit
    else if cmpWord nanograms (word cfg.flatGasPrice) < 0 then 0
    else
      let res := div (shiftLeft (subWord nanograms (word cfg.flatGasPrice)) 16) (word cfg.gasPrice)
      ((toLong res + cfg.flatGasLimit) % 18446744073709551616).toNat

def computeGasPrice (gasUsed : Nat) (cfg : GasLimitsPrices) : List Int :=
  if gasUsed ≤ cfg.flatGasLimit then [word cfg.flatGasPrice]
  else
    sumWord (shiftRight (mulWord [word cfg.gasPrice] (word (gasUsed - cfg.flatGasLimit : Nat))) 16 1)
      (word cfg.flatGasPrice)

/-- Neither special accounts nor transactions other than ordinary ones are met here, and all messages are external. -/
def computeGasLimits (balance : Option (List Int)) (cfg : GasLimitsPrices) : GasLimits :=
  let gasMax := word (gasBoughtFor balance (computeThreshold cfg) cfg)
  { gasMax
    gasLimit := word (gasBoughtFor (some [0]) (computeThreshold cfg) cfg)
    gasCredit := min (word cfg.gasCredit) gasMax }

end Query

namespace GasLimitsPrices

variable (cfg : GasLimitsPrices)

/-! ## Prices without bounds -/

/-- The price of gas, rounded up. -/
def exactPrice (gas : Nat) : Nat := (cfg.gasPrice * (gas - cfg.flatGasLimit) + 65535) / 65536 + cfg.flatGasPrice

/-- The gas that a balance buys, rounded down. -/
def exactBought (balance : Nat) : Nat :=
  if cfg.exactPrice cfg.gasLimit ≤ balance then cfg.gasLimit
  else if balance < cfg.flatGasPrice then 0
  else (balance - cfg.flatGasPrice) * 65536 / cfg.gasPrice + cfg.flatGasLimit

theorem exactPrice_of_flat {gas : Nat} (h : gas ≤ cfg.flatGasLimit) : cfg.exactPrice gas = cfg.flatGasPrice := by
  rw [exactPrice, Nat.sub_eq_zero_of_le h, Nat.mul_zero]
  omega

theorem exactPrice_mono {gas gas' : Nat} (h : gas ≤ gas') : cfg.exactPrice gas ≤ cfg.exactPrice gas' := by
  have := Nat.mul_le_mul_left cfg.gasPrice (Nat.sub_le_sub_right h cfg.flatGasLimit)
  unfold exactPrice
  omega

/-- A balance between the flat price and the price of the whole limit is divided by a price that is not zero. -/
theorem gasPrice_pos {balance : Nat} (hflat : cfg.flatGasPrice ≤ balance)
    (hlimit : balance < cfg.exactPrice cfg.gasLimit) : 0 < cfg.gasPrice := by
  rcases Nat.eq_zero_or_pos cfg.gasPrice with h0 | hpos
  · rw [exactPrice, h0, Nat.zero_mul] at hlimit
    omega
  · exact hpos

/-- What is bought for the part of a balance above the flat price is all that this part can pay. -/
theorem exactPrice_le_iff {balance gas : Nat} (hflat : cfg.flatGasPrice ≤ balance) (hprice : 0 < cfg.gasPrice) :
    cfg.exactPrice gas ≤ balance ↔
      gas ≤ (balance - cfg.flatGasPrice) * 65536 / cfg.gasPrice + cfg.flatGasLimit := by
  have hdiv : gas - cfg.flatGasLimit ≤ (balance - cfg.flatGasPrice) * 65536 / cfg.gasPrice ↔
      cfg.gasPrice * (gas - cfg.flatGasLimit) ≤ (balance - cfg.flatGasPrice) * 65536 := by
    rw [Nat.le_div_iff_mul_le hprice, Nat.mul_comm]
  calc cfg.exactPrice gas ≤ balance
      ↔ cfg.gasPrice * (gas - cfg.flatGasLimit) ≤ (balance - cfg.flatGasPrice) * 65536 := by
        unfold exactPrice
        generalize cfg.gasPrice * (gas - cfg.flatGasLimit) = product
        omega
    _ ↔ gas - cfg.flatGasLimit ≤ (balance - cfg.flatGasPrice) * 65536 / cfg.gasPrice := hdiv.symm
    _ ↔ gas ≤ (balance - cfg.flatGasPrice) * 65536 / cfg.gasPrice + cfg.flatGasLimit := Nat.sub_le_iff_le_add

/-- Buying is the best that pricing allows: an amount within the limit is bought exactly where it is affordable. -/
theorem le_exactBought_iff {balance gas : Nat} (hpos : 0 < gas) (hlimit : gas ≤ cfg.gasLimit) :
    gas ≤ cfg.exactBought balance ↔ cfg.exactPrice gas ≤ balance := by
  have hmono := cfg.exactPrice_mono hlimit
  have hleast : cfg.flatGasPrice ≤ cfg.exactPrice gas := Nat.le_add_left _ _
  unfold exactBought
  split_ifs with hall hflat
  · exact iff_of_true hlimit (hmono.trans hall)
  · exact iff_of_false (by omega) (by omega)
  · exact (cfg.exactPrice_le_iff (by omega) (@gasPrice_pos cfg balance (by omega) (by omega))).symm

theorem exactBought_le (balance : Nat) : cfg.exactBought balance ≤ cfg.gasLimit := by
  unfold exactBought
  split_ifs with hall hflat
  · exact le_refl _
  · exact Nat.zero_le _
  · -- more than the limit would cost at least as much as the limit
    by_contra hcontra
    have hprice := @gasPrice_pos cfg balance (by omega) (by omega)
    exact hall ((cfg.exactPrice_le_iff (by omega) hprice).2 (by omega))

theorem exactPrice_exactBought_le {balance : Nat} (hpos : 0 < cfg.exactBought balance) :
    cfg.exactPrice (cfg.exactBought balance) ≤ balance :=
  (cfg.le_exactBought_iff hpos (cfg.exactBought_le balance)).1 (le_refl _)

theorem exactBought_mono {balance balance' : Nat} (h : balance ≤ balance') :
    cfg.exactBought balance ≤ cfg.exactBought balance' := by
  rcases Nat.eq_zero_or_pos (cfg.exactBought balance) with h0 | hpos
  · rw [h0]
    exact Nat.zero_le _
  · exact (cfg.le_exactBought_iff hpos (cfg.exactBought_le balance)).2 ((cfg.exactPrice_exactBought_le hpos).trans h)

/-! ## When the digits are right -/

/-- The amounts are below half of what a word without a sign holds. -/
structure FitsWords : Prop where
  flatGasLimit : cfg.flatGasLimit < 2 ^ 63
  flatGasPrice : cfg.flatGasPrice < 2 ^ 63
  gasPrice : cfg.gasPrice < 2 ^ 63
  gasLimit : cfg.gasLimit < 2 ^ 63
  gasCredit : cfg.gasCredit < 2 ^ 63

/-- The flat price, which is kept as one digit, is compared rightly: nothing is sold at all, or it is in range, or what
is sold below it comes out as nothing. -/
def FlatCompares : Prop :=
  cfg.gasLimit = 0 ∨ cfg.flatGasPrice ≤ 2 ^ 51 ∨
    (cfg.flatGasLimit < cfg.gasLimit ∧ 0 < cfg.flatGasLimit ∧ cfg.gasPrice * (cfg.flatGasLimit - 1) < 2 ^ 16 ∧
      (cfg.flatGasPrice - 2 ^ 51) * 2 ^ 16 ≤ cfg.gasPrice * cfg.flatGasLimit)

/-- No product of the price and an amount within the limit wraps, and the flat price is compared rightly. -/
structure Priceable : Prop where
  tiny : cfg.gasPrice * min (cfg.gasLimit - cfg.flatGasLimit) 2048 + 2 ^ 51 < 2 ^ 63
  short : cfg.gasPrice * (cfg.gasLimit - cfg.flatGasLimit) + 2 ^ 51 < 2 ^ 115 - 2 ^ 103
  flat : cfg.FlatCompares

variable {cfg}

/-- Where anything is sold by price, the flat price is far from what a word holds. -/
theorem FlatCompares.flatGasPrice_le (hflat : cfg.FlatCompares) (hcfg : cfg.FitsWords)
    (hlimit : cfg.flatGasLimit < cfg.gasLimit) : cfg.flatGasPrice ≤ 2 ^ 62 := by
  rcases hflat with h0 | hrange | ⟨-, hflat, hproduct, hbelow⟩
  · omega
  · omega
  · have hprice := hcfg.gasPrice
    obtain ⟨m, hm⟩ : ∃ m, cfg.flatGasLimit = m + 1 := ⟨cfg.flatGasLimit - 1, by omega⟩
    rw [hm, Nat.add_sub_cancel] at hproduct
    rw [hm, Nat.mul_succ] at hbelow
    omega

theorem Priceable.product_lt (hpriceable : cfg.Priceable) {gas : Nat} (hgas : gas ≤ cfg.gasLimit - cfg.flatGasLimit) :
    (cfg.gasPrice * gas : Int) + half < productBound gas := by
  have htiny := hpriceable.tiny
  have hshort := hpriceable.short
  rw [← Nat.cast_mul]
  unfold productBound half base maxDenorm
  split_ifs with hsmall
  · have := Nat.mul_le_mul_left cfg.gasPrice (show gas ≤ min (cfg.gasLimit - cfg.flatGasLimit) 2048 by omega)
    omega
  · have := Nat.mul_le_mul_left cfg.gasPrice hgas
    omega

end GasLimitsPrices

/-- A balance as the account has it: a normal number. -/
structure Balance where
  digits : List Int
  normal : Normal half digits
  length_le : digits.length ≤ maxSize

/-- The number of coins in a balance. -/
def Balance.coins (balance : Balance) : Int := value base balance.digits

namespace Query

variable {cfg : GasLimitsPrices}

/-! ## The code on digits -/

/-- The threshold is the price of the whole limit. -/
theorem computeThreshold_eq (cfg : GasLimitsPrices) : computeThreshold cfg = computeGasPrice cfg.gasLimit cfg := by
  unfold computeThreshold computeGasPrice
  by_cases h : cfg.gasLimit ≤ cfg.flatGasLimit
  · rw [if_neg (not_lt.2 h), if_pos h]
  · rw [if_pos (not_le.1 h), if_neg h, sum_singleton]
    have hproduct := normal_mulWord (word cfg.gasPrice) (word (cfg.gasLimit - cfg.flatGasLimit : Nat))
    exact (normal_shiftRight hproduct.1 (by decide) (lt_of_le_of_lt hproduct.2 (by decide))).1.ne_nil

theorem word_natCast {n : Nat} (h : n < 2 ^ 63) : word n = n := word_of_fits (by omega) (by omega)

/-- Above the flat limit a price is normal, and it is what its product is worth. -/
theorem computeGasPrice_of_lt (hcfg : cfg.FitsWords) {gas : Nat} (hgas : cfg.flatGasLimit < gas) (hword : gas < 2 ^ 63)
    (hflat : cfg.flatGasPrice ≤ 2 ^ 62) :
    Normal half (computeGasPrice gas cfg) ∧
      value base (computeGasPrice gas cfg) =
        (value base (mulWord [(cfg.gasPrice : Int)] ((gas - cfg.flatGasLimit : Nat) : Int)) - 1) / 65536 + 1 +
          cfg.flatGasPrice := by
  rw [computeGasPrice, if_neg (not_le.2 hgas), word_natCast hcfg.gasPrice, word_natCast hcfg.flatGasPrice,
    @word_natCast (gas - cfg.flatGasLimit) (by omega)]
  obtain ⟨hproduct, hlength⟩ := normal_mulWord cfg.gasPrice ((gas - cfg.flatGasLimit : Nat) : Int)
  obtain ⟨hshift, hshiftLength, hshiftValue⟩ :=
    @normal_shiftRight 16 _ hproduct (by decide) (lt_of_le_of_lt hlength (by decide))
  have hroom := hshiftLength.trans (Nat.succ_le_succ hlength)
  obtain ⟨hsum, hsumValue⟩ :=
    @normal_sumWord _ hshift (lt_of_le_of_lt hroom (by decide)) cfg.flatGasPrice (by omega)
  refine ⟨hsum, ?_⟩
  rw [hsumValue, hshiftValue]
  norm_num

/-- A price whose product does not wrap is exact. -/
theorem value_computeGasPrice (hcfg : cfg.FitsWords) {gas : Nat} (hword : gas < 2 ^ 63)
    (hflat : cfg.flatGasLimit < gas → cfg.flatGasPrice ≤ 2 ^ 62 ∧
      (cfg.gasPrice * (gas - cfg.flatGasLimit : Nat) : Int) + half < productBound (gas - cfg.flatGasLimit : Nat)) :
    value base (computeGasPrice gas cfg) = cfg.exactPrice gas := by
  by_cases hgas : gas ≤ cfg.flatGasLimit
  · rw [computeGasPrice, if_pos hgas, cfg.exactPrice_of_flat hgas, word_natCast hcfg.flatGasPrice]
    simp
  · obtain ⟨hsmall, hfits⟩ := hflat (not_le.1 hgas)
    rw [(computeGasPrice_of_lt hcfg (not_le.1 hgas) hword hsmall).2,
      value_mulWord_of_fits (Int.natCast_nonneg _) (Int.natCast_nonneg _) hfits, GasLimitsPrices.exactPrice]
    push_cast
    omega

/-- A price whose product wraps is below the exact one. -/
theorem value_computeGasPrice_lt (hcfg : cfg.FitsWords) {gas : Nat} (hgas : cfg.flatGasLimit < gas)
    (hword : gas < 2 ^ 63) (hflat : cfg.flatGasPrice ≤ 2 ^ 62)
    (hbound : productBound (gas - cfg.flatGasLimit : Nat) ≤
      (cfg.gasPrice * (gas - cfg.flatGasLimit : Nat) : Int) + half) :
    value base (computeGasPrice gas cfg) < cfg.exactPrice gas := by
  have hlow := value_mulWord_lt (Int.natCast_nonneg _) (Int.natCast_nonneg _) hbound
  rw [(computeGasPrice_of_lt hcfg hgas hword hflat).2, GasLimitsPrices.exactPrice]
  push_cast
  omega

/-! ## Balances in the code -/

/-- A balance below the flat price is found to be below it as long as it has one digit. -/
theorem cmpWord_lt_iff {b : List Int} (hb : Normal half b) (h0 : 0 ≤ value base b) (y : Int) :
    cmpWord b y < 0 ↔ b.length = 1 ∧ value base b < y := by
  by_cases hone : b.length = 1
  · obtain ⟨d, rfl⟩ := List.length_eq_one_iff.1 hone
    rw [value_cons, value_nil, mul_zero, add_zero, cmpWord]
    split_ifs with hlt hgt
    · exact iff_of_true (by decide) ⟨rfl, hlt⟩
    · exact iff_of_false (by decide) (by omega)
    · exact iff_of_false (by decide) (by omega)
  · rw [cmpWord_of_length hb hone h0]
    exact iff_of_false (by decide) (by rintro ⟨h, -⟩; exact hone h)

/-- What the part of a balance above the flat price is divided to, also where it is negative. -/
theorem toLong_quotient (hcfg : cfg.FitsWords) (hprice : 0 < cfg.gasPrice) {b : List Int} (hb : Normal half b)
    (hvalue : 0 ≤ value base b ∧ value base b < 2 ^ 102)
    (hword : -2 ^ 63 ≤ (value base b - cfg.flatGasPrice) * 65536 / cfg.gasPrice ∧
      (value base b - cfg.flatGasPrice) * 65536 / cfg.gasPrice < 2 ^ 63) :
    toLong (div (shiftLeft (subWord b (word cfg.flatGasPrice)) 16) (word cfg.gasPrice)) =
      (value base b - cfg.flatGasPrice) * 65536 / cfg.gasPrice := by
  have hflat := hcfg.flatGasPrice
  have hpriceWord := hcfg.gasPrice
  have hlength := length_le_two hb (by omega)
  have hneg : word (-(cfg.flatGasPrice : Int)) = -cfg.flatGasPrice := word_of_fits (by omega) (by omega)
  have hsub : subWord b (word cfg.flatGasPrice) = sumWord b (-cfg.flatGasPrice) := by
    rw [subWord, word_natCast hflat, hneg]
    rfl
  obtain ⟨hsum, hsumValue⟩ := @normal_sumWord b hb (lt_of_le_of_lt hlength (by decide)) (-cfg.flatGasPrice) (by omega)
  have hsumLength := length_le_two hsum (by omega)
  obtain ⟨hshift, hshiftLength, hshiftValue⟩ :=
    @normal_shiftLeft 16 _ hsum (by decide) (lt_of_le_of_lt (Nat.succ_le_succ hsumLength) (by decide))
  have hroom : (shiftLeft (sumWord b (-cfg.flatGasPrice)) 16).length < maxSize :=
    lt_of_le_of_lt (hshiftLength.trans (Nat.add_le_add_right hsumLength 2)) (by decide)
  obtain ⟨hdiv, hdivValue⟩ := @normal_div cfg.gasPrice (by omega) _ (by omega) hshift hroom
  have hquotient : value base (div (shiftLeft (sumWord b (-cfg.flatGasPrice)) 16) cfg.gasPrice) =
      (value base b - cfg.flatGasPrice) * 65536 / cfg.gasPrice := by
    rw [hdivValue, hshiftValue, hsumValue, ← sub_eq_add_neg, mul_comm]
    norm_num
  rw [hsub, word_natCast hpriceWord, toLong_eq hdiv (by rw [hquotient]; omega), hquotient]

/-- A balance is divided where it is neither negative nor found to be outside the prices. -/
def Divides (nanograms : List Int) (cfg : GasLimitsPrices) : Prop :=
  ¬sgn nanograms < 0 ∧ Td.BigInt.cmp nanograms (computeThreshold cfg) < 0 ∧
    ¬cmpWord nanograms (word cfg.flatGasPrice) < 0

/-- The gas that `computeGasLimits` allows for a balance. -/
def bought (balance : Option Balance) (cfg : GasLimitsPrices) : Int :=
  (computeGasLimits (balance.map Balance.digits) cfg).gasMax

theorem bought_some (balance : Balance) :
    bought (some balance) cfg = word (gasBoughtFor (some balance.digits) (computeThreshold cfg) cfg) := rfl

theorem bought_none : bought none cfg = 0 := by
  have hnone : bought none cfg = word (gasBoughtFor none (computeThreshold cfg) cfg) := rfl
  rw [hnone, gasBoughtFor]
  rfl

/-- The number of coins that an amount of gas costs. -/
def price (gas : Nat) (cfg : GasLimitsPrices) : Int := value base (computeGasPrice gas cfg)

/-- Gas is sold fairly: nothing is divided by zero, what is bought is what comes out without bounds on numbers, it grows
with the balance up to the limit, it is affordable, and no amount within the limit that is affordable is more. -/
structure Fair (cfg : GasLimitsPrices) : Prop where
  divides : ∀ balance : Balance, Divides balance.digits cfg → cfg.gasPrice ≠ 0
  exact : ∀ balance : Balance,
    bought (some balance) cfg = if balance.coins < 0 then 0 else (cfg.exactBought balance.coins.toNat : Int)
  mono : ∀ balance balance' : Balance, balance.coins ≤ balance'.coins →
    bought (some balance) cfg ≤ bought (some balance') cfg
  le_limit : ∀ balance : Option Balance, bought balance cfg ≤ cfg.gasLimit
  affordable : ∀ balance : Balance, 0 < bought (some balance) cfg →
    price (bought (some balance) cfg).toNat cfg ≤ balance.coins
  most : ∀ (balance : Balance) (gas : Nat), gas ≤ cfg.gasLimit → price gas cfg ≤ balance.coins →
    gas ≤ bought (some balance) cfg

theorem gasBoughtFor_of_neg {b : List Int} (hb : Normal half b) (hneg : value base b < 0) (threshold : List Int) :
    gasBoughtFor (some b) threshold cfg = 0 := if_pos ((sgn_neg_iff hb).2 hneg)

/-- The quotient for a balance that pays the flat price. -/
theorem quotient_natCast {v : Int} {n : Nat} (hn : v = n) (hflat : cfg.flatGasPrice ≤ n) :
    (v - cfg.flatGasPrice) * 65536 / cfg.gasPrice = ((n - cfg.flatGasPrice) * 65536 / cfg.gasPrice : Nat) := by
  rw [hn]
  push_cast
  rw [Nat.cast_sub hflat]

/-- Where the flat price is out of range, the quotient for what is missing to it undoes the flat limit. -/
theorem quotient_eq_neg {v : Int} (hprice : 0 < cfg.gasPrice) (hrange : 2 ^ 51 ≤ v) (hbelow : v < cfg.flatGasPrice)
    (hflat : 0 < cfg.flatGasLimit ∧ cfg.gasPrice * (cfg.flatGasLimit - 1) < 2 ^ 16 ∧
      (cfg.flatGasPrice - 2 ^ 51) * 2 ^ 16 ≤ cfg.gasPrice * cfg.flatGasLimit) :
    (v - cfg.flatGasPrice) * 65536 / cfg.gasPrice = -cfg.flatGasLimit := by
  obtain ⟨hpos, hproduct, hcover⟩ := hflat
  obtain ⟨m, hm⟩ : ∃ m, cfg.flatGasLimit = m + 1 := ⟨cfg.flatGasLimit - 1, by omega⟩
  rw [hm, Nat.add_sub_cancel] at hproduct
  rw [hm, Nat.mul_succ] at hcover
  have hlow : -((m : Int) + 1) * cfg.gasPrice ≤ (v - cfg.flatGasPrice) * 65536 := by
    have hcast : -((m : Int) + 1) * cfg.gasPrice = -((cfg.gasPrice * m : Nat) : Int) - cfg.gasPrice := by
      push_cast
      ring
    rw [hcast]
    omega
  have hhigh : (v - cfg.flatGasPrice) * 65536 < -(m : Int) * cfg.gasPrice := by
    have hcast : -(m : Int) * cfg.gasPrice = -((cfg.gasPrice * m : Nat) : Int) := by
      push_cast
      ring
    rw [hcast]
    omega
  have hge := (Int.le_ediv_iff_mul_le (by omega : (0 : Int) < cfg.gasPrice)).2 hlow
  have hlt := (Int.ediv_lt_iff_lt_mul (by omega : (0 : Int) < cfg.gasPrice)).2 hhigh
  rw [hm]
  push_cast
  omega

section

variable (hcfg : cfg.FitsWords)

include hcfg

/-- Within the limit all prices are exact. -/
theorem price_eq (hpriceable : cfg.Priceable) {gas : Nat} (hgas : gas ≤ cfg.gasLimit) :
    price gas cfg = cfg.exactPrice gas := by
  have hlimit := hcfg.gasLimit
  refine value_computeGasPrice hcfg (by omega) fun hlt => ⟨hpriceable.flat.flatGasPrice_le hcfg (by omega), ?_⟩
  exact hpriceable.product_lt (Nat.sub_le_sub_right hgas _)

theorem gasBoughtFor_of_nonneg {b : List Int} (hb : Normal half b) (h0 : 0 ≤ value base b) (threshold : List Int) :
    gasBoughtFor (some b) threshold cfg =
      if Td.BigInt.cmp b threshold ≥ 0 then cfg.gasLimit
      else if cmpWord b cfg.flatGasPrice < 0 then 0
      else ((toLong (div (shiftLeft (subWord b (word cfg.flatGasPrice)) 16) (word cfg.gasPrice)) +
        cfg.flatGasLimit) % 18446744073709551616).toNat := by
  have hsgn : ¬sgn b < 0 := by
    rw [sgn_neg_iff hb]
    omega
  have hflat : cmpWord b (word cfg.flatGasPrice) = cmpWord b cfg.flatGasPrice := by rw [word_natCast hcfg.flatGasPrice]
  simp only [gasBoughtFor, hsgn, if_false, hflat]

/-- Up to the flat limit gas is sold at the flat price alone. -/
theorem gasBoughtFor_of_flat {b : List Int} (hb : Normal half b) (h0 : 0 ≤ value base b)
    (hflat : cfg.gasLimit ≤ cfg.flatGasLimit) :
    gasBoughtFor (some b) (computeThreshold cfg) cfg =
      if b.length = 1 ∧ value base b < cfg.flatGasPrice then 0 else cfg.gasLimit := by
  rw [gasBoughtFor_of_nonneg hcfg hb h0, computeThreshold, if_neg (not_lt.2 hflat), cmp_singleton hb.ne_nil,
    word_natCast hcfg.flatGasPrice]
  have hiff := cmpWord_lt_iff hb h0 cfg.flatGasPrice
  by_cases hbelow : cmpWord b cfg.flatGasPrice < 0
  · rw [if_neg (by omega), if_pos hbelow, if_pos (hiff.1 hbelow)]
  · rw [if_pos (by omega), if_neg fun h => hbelow (hiff.2 h)]

/-- Where there is more than the flat limit, a balance below the threshold that is not found to be below the flat price
is divided. -/
theorem gasBoughtFor_of_lt {b : List Int} (hb : Normal half b) (h0 : 0 ≤ value base b)
    (hbelow : Td.BigInt.cmp b (computeThreshold cfg) < 0) (hprice : 0 < cfg.gasPrice)
    (hvalue : value base b < 2 ^ 102)
    (hword : -2 ^ 63 ≤ (value base b - cfg.flatGasPrice) * 65536 / cfg.gasPrice ∧
      (value base b - cfg.flatGasPrice) * 65536 / cfg.gasPrice < 2 ^ 63) :
    gasBoughtFor (some b) (computeThreshold cfg) cfg =
      if b.length = 1 ∧ value base b < cfg.flatGasPrice then 0
      else (((value base b - cfg.flatGasPrice) * 65536 / cfg.gasPrice + cfg.flatGasLimit) %
        18446744073709551616).toNat := by
  have hiff := cmpWord_lt_iff hb h0 cfg.flatGasPrice
  rw [gasBoughtFor_of_nonneg hcfg hb h0, if_neg (by omega), toLong_quotient hcfg hprice hb ⟨h0, hvalue⟩ hword]
  by_cases hflat : cmpWord b cfg.flatGasPrice < 0
  · rw [if_pos hflat, if_pos (hiff.1 hflat)]
  · rw [if_neg hflat, if_neg fun h => hflat (hiff.2 h)]

/-- A price that is exact decides whether the whole limit is bought. -/
theorem cmp_threshold (hpriceable : cfg.Priceable) (hlimit : cfg.flatGasLimit < cfg.gasLimit) {b : List Int}
    (hb : Normal half b) :
    Td.BigInt.cmp b (computeThreshold cfg) ≥ 0 ↔ (cfg.exactPrice cfg.gasLimit : Int) ≤ value base b := by
  have hnormal := (computeGasPrice_of_lt hcfg hlimit hcfg.gasLimit (hpriceable.flat.flatGasPrice_le hcfg hlimit)).1
  rw [computeThreshold_eq, cmp_nonneg_iff hb hnormal]
  exact iff_of_eq (congrArg (· ≤ value base b) (price_eq hcfg hpriceable (le_refl cfg.gasLimit)))

theorem gasBoughtFor_eq_of_flat (hpriceable : cfg.Priceable) (hflat : cfg.gasLimit ≤ cfg.flatGasLimit) {b : List Int}
    (hb : Normal half b) {n : Nat} (hn : value base b = n) :
    gasBoughtFor (some b) (computeThreshold cfg) cfg = cfg.exactBought n := by
  have hprice := cfg.exactPrice_of_flat hflat
  rw [gasBoughtFor_of_flat hcfg hb (by omega) hflat, GasLimitsPrices.exactBought, hprice, hn]
  rcases hpriceable.flat with h0 | hrange | ⟨hlimit, -⟩
  · rw [h0]
    split_ifs <;> first | rfl | omega
  · by_cases hbelow : n < cfg.flatGasPrice
    · have hone := length_eq_one hb (by unfold half; omega)
      rw [if_pos ⟨hone, by omega⟩, if_neg (by omega), if_pos hbelow]
    · rw [if_neg (by omega), if_pos (by omega)]
  · omega

theorem gasBoughtFor_eq_of_lt (hpriceable : cfg.Priceable) (hlimit : cfg.flatGasLimit < cfg.gasLimit) {b : List Int}
    (hb : Normal half b) {n : Nat} (hn : value base b = n) :
    gasBoughtFor (some b) (computeThreshold cfg) cfg = cfg.exactBought n ∧ (Divides b cfg → 0 < cfg.gasPrice) := by
  have hthreshold := cmp_threshold hcfg hpriceable hlimit hb
  have hbelowIff := cmpWord_lt_iff hb (by omega) (cfg.flatGasPrice : Int)
  have hword := hcfg.gasLimit
  rw [hn] at hthreshold hbelowIff
  unfold Divides
  rw [word_natCast hcfg.flatGasPrice]
  by_cases hall : cfg.exactPrice cfg.gasLimit ≤ n
  · have hcmp := hthreshold.2 (by omega)
    refine ⟨?_, by rintro ⟨-, h, -⟩; omega⟩
    rw [gasBoughtFor_of_nonneg hcfg hb (by omega), if_pos hcmp, GasLimitsPrices.exactBought, if_pos hall]
  · have hcmp : ¬Td.BigInt.cmp b (computeThreshold cfg) ≥ 0 := by
      rw [hthreshold]
      omega
    by_cases hbelow : cmpWord b cfg.flatGasPrice < 0
    · refine ⟨?_, by rintro ⟨-, -, h⟩; exact absurd hbelow h⟩
      have hlt := (hbelowIff.1 hbelow).2
      rw [gasBoughtFor_of_nonneg hcfg hb (by omega), if_neg hcmp, if_pos hbelow, GasLimitsPrices.exactBought,
        if_neg hall, if_pos (by omega)]
    · have hlarge : n < 2 ^ 102 := by
        have := hpriceable.short
        have := hcfg.flatGasPrice
        unfold GasLimitsPrices.exactPrice at hall
        omega
      by_cases hpays : cfg.flatGasPrice ≤ n
      · have hprice := @GasLimitsPrices.gasPrice_pos cfg n hpays (by omega)
        have hquotient := @quotient_natCast cfg _ n hn hpays
        have hbought : cfg.exactBought n = (n - cfg.flatGasPrice) * 65536 / cfg.gasPrice + cfg.flatGasLimit := by
          rw [GasLimitsPrices.exactBought, if_neg hall, if_neg (by omega)]
        have hle := cfg.exactBought_le n
        refine ⟨?_, fun _ => hprice⟩
        rw [gasBoughtFor_of_lt hcfg hb (by omega) (by omega) hprice (by omega) (by rw [hquotient]; omega), hn, if_neg
          (by omega), ← hn, hquotient]
        rw [hbought] at hle ⊢
        generalize (n - cfg.flatGasPrice) * 65536 / cfg.gasPrice = sold at hle ⊢
        omega
      · -- a flat price out of range, and a balance between its digit and the price
        have hrange : 2 ^ 51 ≤ n := by
          by_contra hsmall
          exact hbelow (hbelowIff.2 ⟨length_eq_one hb (by unfold half; omega), by omega⟩)
        have hflat : 0 < cfg.flatGasLimit ∧ cfg.gasPrice * (cfg.flatGasLimit - 1) < 2 ^ 16 ∧
            (cfg.flatGasPrice - 2 ^ 51) * 2 ^ 16 ≤ cfg.gasPrice * cfg.flatGasLimit := by
          rcases hpriceable.flat with h0 | hle | ⟨-, hflat⟩
          · omega
          · omega
          · exact hflat
        have hprice : 0 < cfg.gasPrice := by
          rcases Nat.eq_zero_or_pos cfg.gasPrice with h0 | hpos
          · have := hflat.2.2
            rw [h0, Nat.zero_mul] at this
            omega
          · exact hpos
        have hquotient := @quotient_eq_neg cfg (value base b) hprice (by omega) (by omega) hflat
        refine ⟨?_, fun _ => hprice⟩
        rw [gasBoughtFor_of_lt hcfg hb (by omega) (by omega) hprice (by omega) (by rw [hquotient]; omega), hquotient,
          hn, if_neg fun h => hbelow (hbelowIff.2 h), GasLimitsPrices.exactBought, if_neg hall, if_pos (by omega)]
        omega

/-- Where the digits are right, the gas that is bought is exact, and nothing is divided by zero. -/
theorem gasBoughtFor_eq (hpriceable : cfg.Priceable) {b : List Int} (hb : Normal half b) {n : Nat}
    (hn : value base b = n) :
    gasBoughtFor (some b) (computeThreshold cfg) cfg = cfg.exactBought n ∧ (Divides b cfg → 0 < cfg.gasPrice) := by
  by_cases hflat : cfg.gasLimit ≤ cfg.flatGasLimit
  · refine ⟨gasBoughtFor_eq_of_flat hcfg hpriceable hflat hb hn, ?_⟩
    rintro ⟨-, hcmp, hword⟩
    rw [computeThreshold, if_neg (not_lt.2 hflat), cmp_singleton hb.ne_nil] at hcmp
    exact absurd hcmp hword
  · exact gasBoughtFor_eq_of_lt hcfg hpriceable (by omega) hb hn

theorem bought_eq (hpriceable : cfg.Priceable) (balance : Balance) :
    bought (some balance) cfg = if balance.coins < 0 then 0 else (cfg.exactBought balance.coins.toNat : Int) := by
  rw [bought_some]
  split_ifs with hneg
  · rw [gasBoughtFor_of_neg balance.normal hneg]
    rfl
  · have hle := cfg.exactBought_le balance.coins.toNat
    have hlimit := hcfg.gasLimit
    have hcoins : balance.coins = balance.coins.toNat := (Int.toNat_of_nonneg (by omega)).symm
    rw [(gasBoughtFor_eq hcfg hpriceable balance.normal hcoins).1, word_natCast (by omega)]

theorem fair_of_priceable (hpriceable : cfg.Priceable) : Fair cfg := by
  have hbought := bought_eq hcfg hpriceable
  have hlimit : ∀ balance : Balance, bought (some balance) cfg ≤ cfg.gasLimit := by
    rintro balance
    rw [hbought]
    split_ifs
    · omega
    · exact_mod_cast cfg.exactBought_le _
  constructor
  · rintro balance hdivides
    have hcoins : ¬value base balance.digits < 0 := by
      rw [← sgn_neg_iff balance.normal]
      exact hdivides.1
    have hnat : value base balance.digits = (value base balance.digits).toNat := (Int.toNat_of_nonneg (by omega)).symm
    exact ((gasBoughtFor_eq hcfg hpriceable balance.normal hnat).2 hdivides).ne'
  · exact hbought
  · rintro balance balance' hle
    rw [hbought, hbought]
    split_ifs with hneg hneg'
    · exact le_refl _
    · exact Int.natCast_nonneg _
    · omega
    · exact_mod_cast cfg.exactBought_mono (Int.toNat_le_toNat hle)
  · rintro (_ | balance)
    · rw [bought_none]
      exact Int.natCast_nonneg _
    · exact hlimit balance
  · rintro balance hpos
    have hle := hlimit balance
    rw [hbought] at hpos hle ⊢
    split_ifs at hpos hle ⊢ with hneg
    · exact absurd hpos (lt_irrefl 0)
    · rw [Int.toNat_natCast, price_eq hcfg hpriceable (by omega)]
      have := @GasLimitsPrices.exactPrice_exactBought_le cfg balance.coins.toNat (by omega)
      omega
  · rintro balance gas hgas hprice
    rw [hbought]
    rw [price_eq hcfg hpriceable hgas] at hprice
    rw [if_neg (by omega)]
    rcases Nat.eq_zero_or_pos gas with rfl | hpos
    · exact Int.natCast_nonneg _
    · exact_mod_cast (cfg.le_exactBought_iff hpos hgas).2 (by omega)

end

/-! ## When gas is sold fairly -/

/-- Every moderate number of coins is some balance. -/
theorem exists_balance {n : Nat} (h : n < 2 ^ 112) : ∃ balance : Balance, balance.coins = n := by
  obtain ⟨digits, hnormal, hlength, hvalue⟩ := @exists_normal n (Int.natCast_nonneg n) (by omega)
  exact ⟨⟨digits, hnormal, hlength.trans (by decide)⟩, hvalue⟩

/-- A fair sale to a balance below the flat price is none. -/
theorem gasBoughtFor_of_fair (hfair : Fair cfg) (balance : Balance) {n : Nat} (hn : balance.coins = n)
    (hbelow : n < cfg.flatGasPrice) :
    word (gasBoughtFor (some balance.digits) (computeThreshold cfg) cfg) = 0 := by
  have hexact := hfair.exact balance
  have hleast : cfg.flatGasPrice ≤ cfg.exactPrice cfg.gasLimit := Nat.le_add_left _ _
  rw [bought_some, hn, if_neg (by omega), Int.toNat_natCast, GasLimitsPrices.exactBought, if_neg (by omega),
    if_pos hbelow] at hexact
  exact hexact

section

variable (hcfg : cfg.FitsWords)

include hcfg

/-- With more than the flat limit, a balance between the digit and the flat price is divided, and the quotient undoes
the flat limit. -/
theorem quotient_of_fair (hfair : Fair cfg) (hlimit : cfg.flatGasLimit < cfg.gasLimit) {n : Nat} (hrange : 2 ^ 51 ≤ n)
    (hbelow : n < cfg.flatGasPrice) :
    0 < cfg.gasPrice ∧
      (-2 ^ 62 ≤ ((n : Int) - cfg.flatGasPrice) * 65536 / cfg.gasPrice →
        ((n : Int) - cfg.flatGasPrice) * 65536 / cfg.gasPrice = -cfg.flatGasLimit) := by
  have hflatWord := hcfg.flatGasPrice
  have hflatLimit := hcfg.flatGasLimit
  have hword := hcfg.gasLimit
  obtain ⟨balance, hcoins⟩ := @exists_balance n (by omega)
  have hzero := gasBoughtFor_of_fair hfair balance hcoins hbelow
  have hlong := length_ne_one balance.normal (by rw [← Balance.coins, hcoins]; unfold half; omega)
  have hcmp : Td.BigInt.cmp balance.digits (computeThreshold cfg) < 0 := by
    by_contra hge
    rw [gasBoughtFor_of_nonneg hcfg balance.normal (by rw [← Balance.coins, hcoins]; omega), if_pos (by omega),
      word_natCast hword] at hzero
    omega
  have hcmpWord : ¬cmpWord balance.digits (word cfg.flatGasPrice) < 0 := by
    rw [cmpWord_of_length balance.normal hlong (by rw [← Balance.coins, hcoins]; omega)]
    decide
  have hsgn : ¬sgn balance.digits < 0 := by
    rw [sgn_neg_iff balance.normal, ← Balance.coins, hcoins]
    omega
  have hprice : 0 < cfg.gasPrice := Nat.pos_of_ne_zero (hfair.divides balance ⟨hsgn, hcmp, hcmpWord⟩)
  refine ⟨hprice, fun hlow => ?_⟩
  have hvalue : value base balance.digits = n := hcoins
  have hneg : ((n : Int) - cfg.flatGasPrice) * 65536 / cfg.gasPrice < 0 :=
    Int.ediv_neg_of_neg_of_pos (by omega) (by omega)
  rw [gasBoughtFor_of_lt hcfg balance.normal (by omega) hcmp hprice (by omega) (by rw [hvalue]; omega), hvalue,
    if_neg fun h => hlong h.1] at hzero
  unfold word at hzero
  omega

/-- One coin less than the flat price fixes the flat limit. -/
theorem flatGasLimit_of_fair (hfair : Fair cfg) (hlimit : cfg.flatGasLimit < cfg.gasLimit)
    (hrange : 2 ^ 51 < cfg.flatGasPrice) :
    ∃ m, cfg.flatGasLimit = m + 1 ∧ cfg.gasPrice * m < 2 ^ 16 ∧ 2 ^ 16 ≤ cfg.gasPrice * m + cfg.gasPrice := by
  obtain ⟨hprice, hone⟩ := @quotient_of_fair cfg hcfg hfair hlimit (cfg.flatGasPrice - 1) (by omega) (by omega)
  have hminus : ((cfg.flatGasPrice - 1 : Nat) : Int) - cfg.flatGasPrice = -1 := by omega
  rw [hminus] at hone
  have hlow : -65536 ≤ (-1 : Int) * 65536 / cfg.gasPrice := by
    refine (Int.le_ediv_iff_mul_le (by omega)).2 ?_
    omega
  have hquotient := hone (by omega)
  have habove := Int.lt_ediv_add_one_mul_self ((-1 : Int) * 65536) (by omega : (0 : Int) < cfg.gasPrice)
  have hbelow := Int.ediv_mul_le ((-1 : Int) * 65536) (by omega : (cfg.gasPrice : Int) ≠ 0)
  rw [hquotient] at habove hbelow
  have hpos : cfg.flatGasLimit ≠ 0 := by
    rintro h0
    rw [h0] at hbelow
    omega
  obtain ⟨m, hm⟩ : ∃ m, cfg.flatGasLimit = m + 1 := ⟨cfg.flatGasLimit - 1, by omega⟩
  refine ⟨m, hm, ?_, ?_⟩
  · have hcast : (-(cfg.flatGasLimit : Int) + 1) * cfg.gasPrice = -((cfg.gasPrice * m : Nat) : Int) := by
      rw [hm]
      push_cast
      ring
    rw [hcast] at habove
    omega
  · have hcast : -(cfg.flatGasLimit : Int) * cfg.gasPrice = -((cfg.gasPrice * m + cfg.gasPrice : Nat) : Int) := by
      rw [hm]
      push_cast
      ring
    rw [hcast] at hbelow
    omega

/-- What is missing to a flat price out of range is made up for by the flat limit. -/
theorem flatGasPrice_of_fair (hfair : Fair cfg) (hlimit : cfg.flatGasLimit < cfg.gasLimit)
    (hrange : 2 ^ 51 < cfg.flatGasPrice) :
    (cfg.flatGasPrice - 2 ^ 51) * 2 ^ 16 ≤ cfg.gasPrice * cfg.flatGasLimit := by
  have hprice63 := hcfg.gasPrice
  obtain ⟨m, hm, hproduct, hcover⟩ := flatGasLimit_of_fair hcfg hfair hlimit hrange
  by_contra hcontra
  rw [hm, Nat.mul_succ] at hcontra
  -- the first balance that the flat limit does not make up for
  obtain ⟨d, hd⟩ : ∃ d, d = (cfg.gasPrice * m + cfg.gasPrice) / 65536 + 1 := ⟨_, rfl⟩
  obtain ⟨hprice, hagain⟩ := @quotient_of_fair cfg hcfg hfair hlimit (cfg.flatGasPrice - d) (by omega) (by omega)
  have hdiff : ((cfg.flatGasPrice - d : Nat) : Int) - cfg.flatGasPrice = -d := by omega
  rw [hdiff] at hagain
  have hsmall : m < 2 ^ 16 := by
    have := Nat.mul_le_mul_right m hprice
    omega
  have hlow : -(2 * ((m : Int) + 1)) ≤ -(d : Int) * 65536 / cfg.gasPrice := by
    refine (Int.le_ediv_iff_mul_le (by omega)).2 ?_
    have hcast : -(2 * ((m : Int) + 1)) * cfg.gasPrice = -(2 * ((cfg.gasPrice * m + cfg.gasPrice : Nat) : Int)) := by
      push_cast
      ring
    rw [hcast]
    omega
  have hquotient := hagain (by omega)
  have hbelow := Int.ediv_mul_le (-(d : Int) * 65536) (by omega : (cfg.gasPrice : Int) ≠ 0)
  have hcast : -(cfg.flatGasLimit : Int) * cfg.gasPrice = -((cfg.gasPrice * m + cfg.gasPrice : Nat) : Int) := by
    rw [hm]
    push_cast
    ring
  rw [hquotient, hcast] at hbelow
  omega

theorem flatCompares_of_fair (hfair : Fair cfg) : cfg.FlatCompares := by
  by_cases hrange : cfg.flatGasPrice ≤ 2 ^ 51
  · exact Or.inr (Or.inl hrange)
  · rw [not_le] at hrange
    by_cases hflat : cfg.gasLimit ≤ cfg.flatGasLimit
    · left
      -- the least number of two digits is found to pay the flat price, which is one digit
      obtain ⟨balance, hcoins⟩ := @exists_balance (2 ^ 51) (by norm_num)
      have hzero := gasBoughtFor_of_fair hfair balance hcoins hrange
      have hlong := length_ne_one balance.normal (by rw [← Balance.coins, hcoins]; unfold half; omega)
      rw [gasBoughtFor_of_flat hcfg balance.normal (by rw [← Balance.coins, hcoins]; omega) hflat,
        if_neg (by rintro ⟨h, -⟩; exact hlong h), word_natCast hcfg.gasLimit] at hzero
      exact_mod_cast hzero
    · rw [not_le] at hflat
      obtain ⟨m, hm, hproduct, -⟩ := flatGasLimit_of_fair hcfg hfair hflat hrange
      refine Or.inr (Or.inr ⟨hflat, by omega, ?_, flatGasPrice_of_fair hcfg hfair hflat hrange⟩)
      rw [hm, Nat.add_sub_cancel]
      exact hproduct

theorem product_lt_of_fair (hfair : Fair cfg) {gas : Nat} (hpos : 0 < gas)
    (hgas : gas ≤ cfg.gasLimit - cfg.flatGasLimit) :
    (cfg.gasPrice * gas : Int) + half < productBound gas := by
  have hlimit : cfg.flatGasLimit < cfg.gasLimit := by omega
  have hlimitWord := hcfg.gasLimit
  have hpriceWord := hcfg.gasPrice
  have hflat := (flatCompares_of_fair hcfg hfair).flatGasPrice_le hcfg hlimit
  by_contra hbound
  obtain ⟨amount, hamount⟩ : ∃ amount, amount = cfg.flatGasLimit + gas := ⟨_, rfl⟩
  have hgasEq : amount - cfg.flatGasLimit = gas := by omega
  have hlow : price amount cfg < cfg.exactPrice amount :=
    value_computeGasPrice_lt hcfg (by omega) (by omega) hflat (by rw [hgasEq]; omega)
  have hlarge : cfg.exactPrice amount < 2 ^ 112 := by
    have hmul : cfg.gasPrice * gas ≤ 2 ^ 63 * 2 ^ 63 := Nat.mul_le_mul (by omega) (by omega)
    rw [GasLimitsPrices.exactPrice, hgasEq]
    omega
  -- a balance that pays the price that comes out, but not the exact one
  obtain ⟨balance, hcoins⟩ := @exists_balance (price amount cfg).toNat (by omega)
  have hbought := hfair.most balance amount (by omega) (by omega)
  rw [hfair.exact, if_neg (by omega), Nat.cast_le, cfg.le_exactBought_iff (by omega) (by omega), hcoins,
    Int.toNat_natCast] at hbought
  have hexact : 0 < cfg.exactPrice amount := by
    have hproduct : 9223372036854775808 ≤ productBound gas := by
      unfold productBound half base
      split_ifs <;> norm_num
    rw [← Nat.cast_mul] at hbound
    rw [GasLimitsPrices.exactPrice, hgasEq]
    unfold half at hbound
    omega
  omega

theorem priceable_of_fair (hfair : Fair cfg) : cfg.Priceable := by
  have hproduct := @product_lt_of_fair cfg hcfg hfair
  have hlimit := hcfg.gasLimit
  obtain ⟨above, habove⟩ : ∃ above, above = cfg.gasLimit - cfg.flatGasLimit := ⟨_, rfl⟩
  rcases Nat.eq_zero_or_pos above with h0 | hpos
  · refine ⟨?_, ?_, flatCompares_of_fair hcfg hfair⟩
    · rw [← habove, h0, Nat.zero_min, Nat.mul_zero]
      norm_num
    · rw [← habove, h0, Nat.mul_zero]
      norm_num
  · have htiny := @hproduct (min above 2048) (by omega) (by omega)
    have hshort := @hproduct above hpos (by omega)
    rw [← Nat.cast_mul] at htiny hshort
    unfold productBound maxDenorm half base at htiny hshort
    rw [if_pos (by omega)] at htiny
    refine ⟨by rw [← habove]; omega, ?_, flatCompares_of_fair hcfg hfair⟩
    rw [← habove]
    split_ifs at hshort <;> omega

end

namespace Sample

/-- The prices of a masterchain. -/
def masterchain : GasLimitsPrices :=
  { flatGasLimit := 100, flatGasPrice := 1000000, gasPrice := 655360000, gasLimit := 1000000, gasCredit := 10000 }

/-- A flat price of two digits, which is kept as one. -/
def flatOnly : GasLimitsPrices :=
  { flatGasLimit := 1, flatGasPrice := 2 ^ 52, gasPrice := 1, gasLimit := 1, gasCredit := 0 }

/-- Half of the flat price, in two digits. -/
def halfPrice : Balance where
  digits := [-half, 1]
  normal := ⟨by decide, by decide, by decide⟩
  length_le := by decide

end Sample

end Query

end TonWallet.Tonlib
