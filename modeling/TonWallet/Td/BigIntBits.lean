/-
How many bits a wide integer takes and what they are (`signed_fits_bits`, `unsigned_fits_bits`, `bit_size`, `get_bit`). The
digits lie around zero, so a number may be smaller than its top digits look.
-/
import Mathlib.Data.Int.Bitwise
import Mathlib.Data.List.GetD
import Mathlib.Data.Nat.Size
import TonWallet.Lib.LeadingDigits
import TonWallet.Td.BigInt

namespace TonWallet.Td.BigInt

open Lib.BalancedDigits

/-! ## Bits -/

/-- `unsigned_fits_bits_any`. -/
def unsignedFitsBits (ds : List Int) (nbits : Int) : Bool :=
  if ds = [] then false
  else if sgn ds < 0 then false
  else if sgn ds = 0 then true
  else if nbits ≥ ds.length * wordShift then true
  else if nbits < 0 then false
  else
    let k := nbits.toNat / wordShift
    let rem := nbits.toNat % wordShift
    if ds.length ≥ k + 2 then
      if ¬(ds.length = k + 2 ∧ rem = wordShift - 1) then false
      else if ds.getD (k + 1) 0 ≠ 1 then false
      else if ds.getD k 0 > -half then false
      else if ds.getD k 0 < -half then true
      else topNonzero (ds.take k) < 0
    else if ds.length ≤ k then true
    else if ds.getD k 0 > 2 ^ rem then false
    else if ds.getD k 0 < 2 ^ rem then true
    else topNonzero (ds.take k) < 0

/-- `signed_fits_bits_any`. -/
def signedFitsBits (ds : List Int) (nbits : Int) : Bool :=
  if ds = [] then false
  else if nbits > ds.length * wordShift then true
  else
    let s := sgn ds
    if s = 0 then true
    else if nbits ≤ 0 then false
    else
      let k := (nbits.toNat - 1) / wordShift
      let rem := (nbits.toNat - 1) % wordShift
      let val := if s > 0 then ds.getD k 0 else -ds.getD k 0
      let below := topNonzero (ds.take k)
      if ds.length ≤ k then true
      else if ds.length ≥ k + 2 then
        if ¬(ds.length = k + 2 ∧ rem = wordShift - 1) then false
        else if ds.getD (k + 1) 0 ≠ s then false
        else if val > -half then false
        else if val < -half then true
        else if below < 0 then s > 0 else s < 0
      else if val > 2 ^ rem then false
      else if val < 2 ^ rem then true
      else if below < 0 then s > 0 else s < 0

/-- `64 - count_leading_zeroes64(x)`. -/
def bitLength (x : Int) : Nat := Nat.size (x % 18446744073709551616).toNat

/-- A leading part that is small takes one more digit. -/
def takeDigit (small : Bool) (q : Int) (below : List Int) : Int × List Int :=
  match small, below with
  | true, d :: ds => (word (word (q * base) + d), ds)
  | _, _ => (q, below)

/-- The loops at the end of `bit_size_any`: which side of zero a number is on. -/
def bitSizeRest (above under : Int) : Int → List Int → Int
  | q, [] => if q ≥ 0 then above else under
  | q, d :: ds =>
    if q ≥ maxDenorm / 2 then above
    else if q ≤ -(maxDenorm / 2) then under
    else bitSizeRest above under (word (word (q * base) + d)) ds

/-- `bit_size_any`. -/
def bitSize (ds : List Int) (sgnd : Bool) : Int :=
  match ds.reverse with
  | [] => 2147483647
  | top :: below =>
    if sgn ds = 0 then 0
    else if sgn ds ≥ 0 then
      let (q, below) := takeDigit (top < maxDenorm / 2) top below
      if below = [] then bitLength q + sgnd.toNat
      else
        let len := bitLength (word (q - maxDenorm / 4))
        let s : Int := len + below.length * wordShift + sgnd.toNat
        bitSizeRest (s + 1) s (word (q - word (2 ^ len))) below
    else if sgnd then
      let (q, below) := takeDigit (top > -(maxDenorm / 2)) top below
      if below = [] then bitLength (-q - 1) + 1
      else
        let len := bitLength (word (-q - maxDenorm / 4))
        let s : Int := len + below.length * wordShift + 1
        bitSizeRest s (s + 1) (word (q + word (2 ^ len))) below
    else 2147483647

/-- `get_bit_any`. -/
def getBit (ds : List Int) (bit : Nat) : Bool :=
  if ds = [] then false
  else if bit ≥ ds.length * wordShift then sgn ds < 0
  else if bit < wordShift then ds.getD 0 0 / 2 ^ bit % 2 = 1
  else
    let i := bit / wordShift
    let x := if topNonzero (ds.take i) < 0 then ds.getD i 0 - 1 else ds.getD i 0
    x / 2 ^ (bit % wordShift) % 2 = 1

/-! ## Digits up to one half -/

/-- Digits that may also be `half`, as negation leaves them. -/
structure Balanced (ds : List Int) : Prop where
  bounds : ∀ d ∈ ds, |d| ≤ half
  ne_nil : ds ≠ []
  top : ds.length ≠ 1 → ds.getLast? ≠ some 0

theorem balanced_of_normal {xs : List Int} (hx : Normal half xs) : Balanced xs where
  bounds d hd := abs_le.2 ⟨(hx.inRange d hd).1, (hx.inRange d hd).2.le⟩
  ne_nil := hx.ne_nil
  top := hx.top

section

variable {xs : List Int}

theorem abs_le_base (h : ∀ d ∈ xs, |d| ≤ half) : ∀ d ∈ xs, |d| ≤ base - 1 :=
  fun d hd => (h d hd).trans (by decide)

theorem abs_value_lt_pow (h : ∀ d ∈ xs, |d| ≤ half) : |value base xs| < base ^ xs.length :=
  abs_value_lt (by decide) (abs_le_base h)

theorem base_pow (k : Nat) : base ^ k = 2 ^ (wordShift * k) := by
  rw [pow_mul]
  rfl

namespace Balanced

variable (hx : Balanced xs)

include hx

theorem neg : Balanced (xs.map Neg.neg) where
  bounds d hd := by
    obtain ⟨e, he, rfl⟩ := List.mem_map.1 hd
    rw [abs_neg]
    exact hx.bounds e he
  ne_nil h := hx.ne_nil (List.map_eq_nil_iff.1 h)
  top hone hzero := by
    rw [List.length_map] at hone
    rw [List.getLast?_map, Option.map_eq_some_iff] at hzero
    obtain ⟨d, hd, hneg⟩ := hzero
    rw [neg_eq_zero] at hneg
    rw [hneg] at hd
    exact hx.top hone hd

/-- The top digit tells the sign. -/
theorem sign_topWord : (topWord xs).sign = (value base xs).sign := by
  obtain ⟨top, htop⟩ : ∃ top, xs.getLast? = some top := ⟨_, List.getLast?_eq_some_getLast hx.ne_nil⟩
  obtain ⟨low, rfl⟩ := List.getLast?_eq_some_iff.1 htop
  rw [topWord_of_getLast? htop, value_append, value_cons, value_nil, mul_zero, add_zero]
  by_cases hlow : low = []
  · rw [hlow, value_nil, List.length_nil, pow_zero, one_mul, zero_add]
  · have hne : top ≠ 0 := by
      rintro rfl
      refine hx.top ?_ htop
      have := List.length_pos_of_ne_nil hlow
      rw [List.length_append, List.length_singleton]
      omega
    have hless := abs_lt.1 (abs_value_lt_pow fun d hd => hx.bounds d (List.mem_append_left _ hd))
    rcases lt_or_gt_of_ne hne with h | h
    · rw [Int.sign_eq_neg_one_of_neg h, Int.sign_eq_neg_one_of_neg (by nlinarith)]
    · rw [Int.sign_eq_one_of_pos h, Int.sign_eq_one_of_pos (by nlinarith)]

theorem sgn_eq_sign : sgn xs = (value base xs).sign := by
  rw [sgn, if_neg hx.ne_nil, hx.sign_topWord]

/-- The digits from some place on. -/
theorem drop {k : Nat} (hk : k < xs.length) : Balanced (xs.drop k) where
  bounds d hd := hx.bounds d (List.mem_of_mem_drop hd)
  ne_nil h := by
    rw [List.drop_eq_nil_iff] at h
    omega
  top hone := by
    rw [List.getLast?_drop, if_neg (by omega)]
    refine hx.top ?_
    rw [List.length_drop] at hone
    omega

theorem value_ne_zero (hone : xs.length ≠ 1) : value base xs ≠ 0 := by
  intro hzero
  obtain ⟨top, htop⟩ : ∃ top, xs.getLast? = some top := ⟨_, List.getLast?_eq_some_getLast hx.ne_nil⟩
  have hsign := hx.sign_topWord
  rw [hzero, Int.sign_zero, Int.sign_eq_zero_iff_zero, topWord_of_getLast? htop] at hsign
  rw [hsign] at htop
  exact hx.top hone htop

end Balanced

/-! ## The digits at a place, below it and above it -/

theorem value_take_drop (xs : List Int) {k : Nat} (hk : k ≤ xs.length) :
    value base xs = value base (xs.take k) + base ^ k * value base (xs.drop k) := by
  have hsplit := value_append base (xs.take k) (xs.drop k)
  rw [List.take_append_drop, List.length_take, Nat.min_eq_left hk] at hsplit
  exact hsplit

theorem drop_eq_getD {k : Nat} (hk : k < xs.length) : xs.drop k = xs.getD k 0 :: xs.drop (k + 1) := by
  rw [List.drop_eq_getElem_cons hk, List.getD_eq_getElem _ _ hk]

/-- What is below a place is less than one at the place. -/
theorem abs_value_take (h : ∀ d ∈ xs, |d| ≤ half) {k : Nat} (hk : k ≤ xs.length) :
    |value base (xs.take k)| < base ^ k := by
  have hless := @abs_value_lt_pow (xs.take k) fun d hd => h d (List.mem_of_mem_take hd)
  rw [List.length_take, Nat.min_eq_left hk] at hless
  exact hless

theorem sign_topNonzero_take (h : ∀ d ∈ xs, |d| ≤ half) (k : Nat) :
    (topNonzero (xs.take k)).sign = (value base (xs.take k)).sign :=
  sign_topNonzero (by decide) (abs_le_base fun d hd => h d (List.mem_of_mem_take hd))

theorem topNonzero_take_neg_iff (h : ∀ d ∈ xs, |d| ≤ half) (k : Nat) :
    topNonzero (xs.take k) < 0 ↔ value base (xs.take k) < 0 := by
  rw [← Int.sign_eq_neg_one_iff_neg, ← Int.sign_eq_neg_one_iff_neg, sign_topNonzero_take h]

end

/-- What is below a place only counts where the digits from the place on are equal. -/
theorem add_mul_lt_iff {low b hi p : Int} (h : |low| < b) : low + b * hi < b * p ↔ hi < p ∨ hi = p ∧ low < 0 := by
  obtain ⟨h0, h1⟩ := abs_lt.1 h
  rcases lt_trichotomy hi p with hlt | rfl | hgt
  · exact ⟨fun _ => .inl hlt, fun _ => by nlinarith⟩
  · constructor
    · intro hless
      exact .inr ⟨rfl, by linarith⟩
    · rintro (hless | ⟨-, hless⟩)
      · exact absurd hless (lt_irrefl _)
      · linarith
  · constructor
    · intro hless
      nlinarith
    · rintro (hless | ⟨rfl, -⟩)
      · exact absurd hless hgt.asymm
      · exact absurd hgt (lt_irrefl _)

theorem add_mul_le_iff {low b hi p : Int} (h : |low| < b) : low + b * hi ≤ b * p ↔ hi < p ∨ hi = p ∧ low ≤ 0 := by
  have hflip := @add_mul_lt_iff (-low) b (-hi) (-p) (by rwa [abs_neg])
  rw [← not_lt, show (b * p < low + b * hi ↔ -low + b * -hi < b * -p) by constructor <;> intro h <;> linarith, hflip]
  omega

section

variable {xs : List Int} (hx : Balanced xs) (hpos : 0 < value base xs)

include hx hpos

/-- With two digits or more from a place on, a number is small at the place only in one way. -/
theorem hi_cases {k rem : Nat} (hk : k + 2 ≤ xs.length) (hrem : rem < wordShift) :
    2 ^ rem ≤ value base (xs.drop k) ∧
      (value base (xs.drop k) = 2 ^ rem ↔
        xs.length = k + 2 ∧ rem = wordShift - 1 ∧ xs.getD (k + 1) 0 = 1 ∧ xs.getD k 0 = -half) := by
  have hmem : xs.getD k 0 ∈ xs := by
    rw [List.getD_eq_getElem _ _ (by omega)]
    exact List.getElem_mem _
  obtain ⟨hd0, hd1⟩ := abs_le.1 (hx.bounds _ hmem)
  have hsplit : value base (xs.drop k) = xs.getD k 0 + base * value base (xs.drop (k + 1)) := by
    rw [drop_eq_getD (by omega), value_cons]
  have hrest := hx.drop (k := k + 1) (by omega)
  -- what is above has the sign of the number
  have habove : 0 < value base (xs.drop (k + 1)) := by
    have hsame : topWord (xs.drop (k + 1)) = topWord xs := by
      rw [topWord, topWord, List.getLastD_eq_getLast?, List.getLastD_eq_getLast?, List.getLast?_drop, if_neg (by omega)]
    rw [← Int.sign_eq_one_iff_pos, ← hrest.sign_topWord, hsame, hx.sign_topWord, Int.sign_eq_one_iff_pos]
    exact hpos
  have hpow : (2 : Int) ^ rem ≤ half := by
    have := pow_le_pow_right₀ (show (1 : Int) ≤ 2 by decide) (show rem ≤ wordShift - 1 by omega)
    exact this
  obtain ⟨v, hv⟩ : ∃ v, v = value base (xs.drop (k + 1)) := ⟨_, rfl⟩
  obtain ⟨d, hd⟩ : ∃ d, d = xs.getD k 0 := ⟨_, rfl⟩
  obtain ⟨p, hp⟩ : ∃ p : Int, p = 2 ^ rem := ⟨_, rfl⟩
  rw [hsplit, ← hv, ← hd, ← hp]
  rw [← hv] at habove
  rw [← hd] at hd0 hd1
  rw [← hp] at hpow
  refine ⟨?_, ?_⟩
  · unfold half base at *
    omega
  · by_cases hlen : xs.length = k + 2
    · have htop : v = xs.getD (k + 1) 0 := by
        rw [hv, drop_eq_getD (by omega), List.drop_eq_nil_of_le (by omega), value_cons, value_nil, mul_zero, add_zero]
      have hrem' : p = half ↔ rem = wordShift - 1 := by
        constructor
        · intro hhalf
          rw [hp, show half = 2 ^ (wordShift - 1) from rfl] at hhalf
          exact Nat.pow_right_injective (le_refl 2) (by exact_mod_cast hhalf)
        · rintro rfl
          exact hp
      rw [← htop, ← hrem', and_iff_right hlen]
      unfold half base at *
      omega
    · -- a second digit above makes it larger still
      have hlarge : 1 < v := by
        have hnext := hx.drop (k := k + 2) (by omega)
        have hmem' : xs.getD (k + 1) 0 ∈ xs := by
          rw [List.getD_eq_getElem _ _ (by omega)]
          exact List.getElem_mem _
        obtain ⟨he0, he1⟩ := abs_le.1 (hx.bounds _ hmem')
        have hnextPos : 0 < value base (xs.drop (k + 2)) := by
          have hsame : topWord (xs.drop (k + 2)) = topWord xs := by
            rw [topWord, topWord, List.getLastD_eq_getLast?, List.getLastD_eq_getLast?, List.getLast?_drop, if_neg (by omega)]
          rw [← Int.sign_eq_one_iff_pos, ← hnext.sign_topWord, hsame, hx.sign_topWord, Int.sign_eq_one_iff_pos]
          exact hpos
        have hsplit' : v = xs.getD (k + 1) 0 + base * value base (xs.drop (k + 2)) := by
          rw [hv, drop_eq_getD (by omega), value_cons]
        unfold half base at *
        omega
      constructor
      · intro heq
        exfalso
        unfold half base at *
        omega
      · rintro ⟨hcontra, -⟩
        exact absurd hcontra hlen

end

/-! ## Fitting bits -/

/-- The numbers of so many bits with a sign. -/
def FitsSigned (v : Int) (n : Nat) : Prop := -(2 ^ n) ≤ 2 * v ∧ 2 * v < 2 ^ n

theorem two_pow_split (n : Nat) : (2 : Int) ^ n = base ^ (n / wordShift) * 2 ^ (n % wordShift) := by
  rw [base_pow, ← pow_add, Nat.div_add_mod]

theorem fitsSigned_succ (v : Int) (n : Nat) : FitsSigned v (n + 1) ↔ -(2 ^ n) ≤ v ∧ v < 2 ^ n := by
  unfold FitsSigned
  rw [pow_succ]
  omega

theorem fitsSigned_zero (v : Int) : FitsSigned v 0 ↔ v = 0 := by
  unfold FitsSigned
  rw [pow_zero]
  omega

section

variable {xs : List Int} (hx : Balanced xs)

include hx

theorem getD_bounds (k : Nat) : -half ≤ xs.getD k 0 ∧ xs.getD k 0 ≤ half := by
  by_cases hk : k < xs.length
  · rw [List.getD_eq_getElem _ _ hk]
    exact abs_le.1 (hx.bounds _ (List.getElem_mem hk))
  · rw [List.getD_eq_default _ _ (by omega)]
    unfold half
    omega

omit hx in
/-- The digit at the top place is what there is from the place on. -/
theorem value_drop_top {k : Nat} (hk : xs.length = k + 1) : value base (xs.drop k) = xs.getD k 0 := by
  rw [drop_eq_getD (by omega), List.drop_eq_nil_of_le (by omega), value_cons, value_nil, mul_zero, add_zero]

theorem lt_pow_of_length {n : Nat} (h : xs.length * wordShift ≤ n) : |value base xs| < 2 ^ n := by
  refine (abs_value_lt_pow hx.bounds).trans_le ?_
  rw [base_pow, Nat.mul_comm]
  exact pow_le_pow_right₀ (by decide) h

/-- How a positive number is compared with a power of two by its digits. -/
theorem lt_pow_iff_digits (hpos : 0 < value base xs) {k rem : Nat} (hk : k < xs.length) (hrem : rem < wordShift) :
    value base xs < base ^ k * 2 ^ rem ↔
      if xs.length ≥ k + 2 then
        (xs.length = k + 2 ∧ rem = wordShift - 1 ∧ xs.getD (k + 1) 0 = 1 ∧ xs.getD k 0 = -half) ∧
          value base (xs.take k) < 0
      else xs.getD k 0 < 2 ^ rem ∨ xs.getD k 0 = 2 ^ rem ∧ value base (xs.take k) < 0 := by
  rw [value_take_drop xs hk.le, add_mul_lt_iff (abs_value_take hx.bounds hk.le)]
  split_ifs with hlong
  · obtain ⟨hle, heq⟩ := hi_cases hx hpos hlong hrem
    rw [heq, or_iff_right (not_lt.2 hle)]
  · rw [value_drop_top (by omega)]

theorem le_pow_iff_digits (hpos : 0 < value base xs) {k rem : Nat} (hk : k < xs.length) (hrem : rem < wordShift) :
    value base xs ≤ base ^ k * 2 ^ rem ↔
      if xs.length ≥ k + 2 then
        (xs.length = k + 2 ∧ rem = wordShift - 1 ∧ xs.getD (k + 1) 0 = 1 ∧ xs.getD k 0 = -half) ∧
          value base (xs.take k) ≤ 0
      else xs.getD k 0 < 2 ^ rem ∨ xs.getD k 0 = 2 ^ rem ∧ value base (xs.take k) ≤ 0 := by
  rw [value_take_drop xs hk.le, add_mul_le_iff (abs_value_take hx.bounds hk.le)]
  split_ifs with hlong
  · obtain ⟨hle, heq⟩ := hi_cases hx hpos hlong hrem
    rw [heq, or_iff_right (not_lt.2 hle)]
  · rw [value_drop_top (by omega)]

/-- `unsigned_fits_bits` tells the numbers that take so many bits. -/
theorem unsignedFitsBits_iff (n : Nat) : unsignedFitsBits xs n = true ↔ 0 ≤ value base xs ∧ value base xs < 2 ^ n := by
  unfold unsignedFitsBits
  rw [if_neg hx.ne_nil, hx.sgn_eq_sign]
  rcases lt_trichotomy (value base xs) 0 with hneg | hzero | hpos
  · rw [if_pos (by rw [Int.sign_eq_neg_one_of_neg hneg]; decide)]
    simp only [Bool.false_eq_true, false_iff]
    omega
  · rw [hzero]
    have := pow_pos (show (0 : Int) < 2 by decide) n
    simp [this]
  · rw [Int.sign_eq_one_of_pos hpos, if_neg (by decide), if_neg (by decide), and_iff_right hpos.le]
    by_cases hlong : xs.length * wordShift ≤ n
    · rw [if_pos (by exact_mod_cast hlong)]
      simp only [true_iff]
      exact (le_abs_self _).trans_lt (lt_pow_of_length hx hlong)
    · have hk : n / wordShift < xs.length := Nat.div_lt_of_lt_mul (by rw [Nat.mul_comm]; omega)
      have hrem : n % wordShift < wordShift := Nat.mod_lt _ (by decide)
      rw [if_neg (by omega), if_neg (by omega), Int.toNat_natCast, two_pow_split n,
        lt_pow_iff_digits hx hpos hk hrem]
      dsimp only
      generalize n / wordShift = k at hk ⊢
      generalize n % wordShift = rem at hrem ⊢
      obtain ⟨hd0, -⟩ := getD_bounds hx k
      have hbelow := topNonzero_take_neg_iff hx.bounds k
      by_cases hlen : xs.length ≥ k + 2
      · rw [if_pos hlen, if_pos hlen]
        simp only [Bool.if_false_left, Bool.and_eq_true, Bool.not_eq_true', decide_eq_false_iff_not, Bool.if_true_left,
          Bool.or_eq_true, decide_eq_true_iff, hbelow]
        omega
      · rw [if_neg hlen, if_neg hlen, if_neg (by omega)]
        simp only [Bool.if_false_left, Bool.and_eq_true, Bool.not_eq_true', decide_eq_false_iff_not, Bool.if_true_left,
          Bool.or_eq_true, decide_eq_true_iff, hbelow]
        omega

omit hx in
theorem getD_map_neg (xs : List Int) (k : Nat) : (xs.map Neg.neg).getD k 0 = -xs.getD k 0 := by
  rw [List.getD_eq_getElem?_getD, List.getD_eq_getElem?_getD, List.getElem?_map]
  cases xs[k]? <;> rfl

/-- `signed_fits_bits` tells the numbers that take so many bits with their sign. -/
theorem signedFitsBits_iff (n : Nat) : signedFitsBits xs n = true ↔ FitsSigned (value base xs) n := by
  unfold signedFitsBits
  rw [if_neg hx.ne_nil, hx.sgn_eq_sign]
  by_cases hlong : xs.length * wordShift < n
  · have hless := lt_pow_of_length hx (n := n - 1) (by omega)
    obtain ⟨m, rfl⟩ : ∃ m, n = m + 1 := ⟨n - 1, by omega⟩
    rw [if_pos (by exact_mod_cast hlong), fitsSigned_succ]
    simp only [true_iff]
    obtain ⟨h0, h1⟩ := abs_lt.1 hless
    exact ⟨h0.le, h1⟩
  rw [if_neg (by exact_mod_cast hlong)]
  rcases eq_or_ne (value base xs) 0 with hzero | hzero
  · have hpos := pow_pos (show (0 : Int) < 2 by decide) n
    rw [hzero]
    simp only [Int.sign_zero, if_true, true_iff, FitsSigned]
    omega
  have hsign : (value base xs).sign ≠ 0 := by rwa [ne_eq, Int.sign_eq_zero_iff_zero]
  obtain _ | m := n
  · rw [fitsSigned_zero]
    simp [hsign, hzero]
  rw [fitsSigned_succ, if_neg hsign, if_neg (by omega), Int.toNat_natCast, Nat.add_sub_cancel]
  dsimp only
  by_cases htop : xs.length ≤ m / wordShift
  · rw [if_pos htop]
    simp only [true_iff]
    have hless := lt_pow_of_length hx (n := m)
      ((Nat.mul_le_mul_right wordShift htop).trans (Nat.div_mul_le_self m wordShift))
    obtain ⟨h0, h1⟩ := abs_lt.1 hless
    exact ⟨h0.le, h1⟩
  have hrem : m % wordShift < wordShift := Nat.mod_lt _ (by decide)
  have hpow := pow_pos (show (0 : Int) < 2 by decide) m
  have hbelow := topNonzero_take_neg_iff hx.bounds (m / wordShift)
  rw [if_neg htop]
  rcases lt_or_gt_of_ne hzero with hneg | hpos
  · -- the number without its sign is compared
    have hx' := hx.neg
    have hvalue : value base (xs.map Neg.neg) = -value base xs := value_map_neg xs
    have hpos' : 0 < value base (xs.map Neg.neg) := by omega
    have hdigits := le_pow_iff_digits hx' hpos' (k := m / wordShift) (by rw [List.length_map]; omega) hrem
    rw [← two_pow_split m, hvalue, List.length_map, getD_map_neg, getD_map_neg, ← List.map_take, value_map_neg] at hdigits
    have hgoal : -(2 ^ m) ≤ value base xs ∧ value base xs < 2 ^ m ↔ -value base xs ≤ 2 ^ m := by omega
    rw [hgoal, hdigits]
    generalize m / wordShift = k at htop hbelow ⊢
    generalize m % wordShift = rem at hrem ⊢
    obtain ⟨hd0, hd1⟩ := getD_bounds hx k
    rw [Int.sign_eq_neg_one_of_neg hneg, if_neg (show ¬(-1 : Int) > 0 by decide)]
    have hflag : (if value base (List.take k xs) < 0 then decide ((-1 : Int) > 0) else decide ((-1 : Int) < 0)) = true ↔
        0 ≤ value base (List.take k xs) := by
      split_ifs <;> simp <;> omega
    by_cases hlen : xs.length ≥ k + 2
    · rw [if_pos hlen, if_pos hlen]
      simp only [Bool.if_false_left, Bool.and_eq_true, Bool.not_eq_true', decide_eq_false_iff_not, Bool.if_true_left,
        Bool.or_eq_true, decide_eq_true_iff, hbelow, hflag]
      omega
    · rw [if_neg hlen, if_neg hlen]
      simp only [Bool.if_false_left, Bool.and_eq_true, Bool.not_eq_true', decide_eq_false_iff_not, Bool.if_true_left,
        Bool.or_eq_true, decide_eq_true_iff, hbelow, hflag]
      omega
  · have hdigits := lt_pow_iff_digits hx hpos (k := m / wordShift) (by omega) hrem
    rw [← two_pow_split m] at hdigits
    have hgoal : -(2 ^ m) ≤ value base xs ∧ value base xs < 2 ^ m ↔ value base xs < 2 ^ m := by omega
    rw [hgoal, hdigits]
    generalize m / wordShift = k at htop hbelow ⊢
    generalize m % wordShift = rem at hrem ⊢
    obtain ⟨hd0, hd1⟩ := getD_bounds hx k
    rw [Int.sign_eq_one_of_pos hpos, if_pos (show (1 : Int) > 0 by decide)]
    have hflag : (if value base (List.take k xs) < 0 then decide ((1 : Int) > 0) else decide ((1 : Int) < 0)) = true ↔
        value base (List.take k xs) < 0 := by
      split_ifs <;> simp <;> omega
    by_cases hlen : xs.length ≥ k + 2
    · rw [if_pos hlen, if_pos hlen]
      simp only [Bool.if_false_left, Bool.and_eq_true, Bool.not_eq_true', decide_eq_false_iff_not, Bool.if_true_left,
        Bool.or_eq_true, decide_eq_true_iff, hbelow, hflag]
      omega
    · rw [if_neg hlen, if_neg hlen]
      simp only [Bool.if_false_left, Bool.and_eq_true, Bool.not_eq_true', decide_eq_false_iff_not, Bool.if_true_left,
        Bool.or_eq_true, decide_eq_true_iff, hbelow, hflag]
      omega

end

/-! ## Single bits -/

theorem testBit_eq (v : Int) (i : Nat) : v.testBit i = decide (v / 2 ^ i % 2 = 1) := by
  cases v with
  | ofNat m =>
    show m.testBit i = _
    rw [Nat.testBit_eq_decide_div_mod_eq, decide_eq_decide]
    show _ ↔ (m : Int) / 2 ^ i % 2 = 1
    exact_mod_cast Iff.rfl
  | negSucc m =>
    have hquot : Int.negSucc m / 2 ^ i = -((m / 2 ^ i : Nat) : Int) - 1 := by
      rw [Int.negSucc_ediv m (pow_pos (by decide) i)]
      show -((m : Int) / 2 ^ i + 1) = _
      push_cast
      ring
    show (!m.testBit i) = _
    rw [Nat.testBit_eq_decide_div_mod_eq, hquot, ← decide_not, decide_eq_decide]
    omega

/-- Digits above a place do not change the bits of its digit. -/
theorem testBit_add_base_mul {d v : Int} {bit : Nat} (hbit : bit < wordShift) :
    (d + base * v) / 2 ^ bit % 2 = d / 2 ^ bit % 2 := by
  have hbase : base = 2 ^ bit * (2 * 2 ^ (wordShift - 1 - bit)) := by
    have hsplit : (2 : Int) ^ bit * (2 * 2 ^ (wordShift - 1 - bit)) = 2 ^ (bit + (wordShift - 1 - bit) + 1) := by
      rw [pow_succ, pow_add]
      ring
    rw [hsplit, show bit + (wordShift - 1 - bit) + 1 = wordShift by omega]
    rfl
  rw [hbase, mul_assoc, Int.add_mul_ediv_left _ _ (by positivity), mul_assoc, Int.add_mul_emod_self_left]

section

variable {xs : List Int} (hx : Balanced xs)

include hx

/-- `get_bit` reads the bits of the number with its sign. -/
theorem getBit_eq (bit : Nat) : getBit xs bit = (value base xs).testBit bit := by
  rw [testBit_eq]
  unfold getBit
  rw [if_neg hx.ne_nil]
  by_cases hlong : xs.length * wordShift ≤ bit
  · have hless := lt_pow_of_length hx hlong
    obtain ⟨h0, h1⟩ := abs_lt.1 hless
    rw [if_pos hlong, hx.sgn_eq_sign, decide_eq_decide]
    by_cases hneg : value base xs < 0
    · have hquot : value base xs / 2 ^ bit = -1 := by
        rw [Int.ediv_eq_iff_of_pos (by positivity)]
        omega
      rw [hquot, Int.sign_eq_neg_one_of_neg hneg]
      decide
    · have hquot : value base xs / 2 ^ bit = 0 := Int.ediv_eq_zero_of_lt (by omega) h1
      rw [hquot, ← not_iff_not, not_lt, Int.sign_nonneg_iff]
      omega
  · rw [if_neg hlong]
    by_cases hlow : bit < wordShift
    · have hpos := List.length_pos_of_ne_nil hx.ne_nil
      have hsplit : value base xs = xs.getD 0 0 + base * value base (xs.drop 1) := by
        have hdrop := drop_eq_getD hpos
        rw [List.drop_zero] at hdrop
        exact congrArg (value base) hdrop
      rw [if_pos hlow, hsplit, testBit_add_base_mul hlow]
    · rw [if_neg hlow]
      have hk : bit / wordShift < xs.length := Nat.div_lt_of_lt_mul (by rw [Nat.mul_comm]; omega)
      have hrem : bit % wordShift < wordShift := Nat.mod_lt _ (by decide)
      have hpow := two_pow_split bit
      have hbelow := topNonzero_take_neg_iff hx.bounds (bit / wordShift)
      have hless := abs_value_take hx.bounds hk.le
      have hsplit := value_take_drop xs hk.le
      rw [drop_eq_getD hk, value_cons] at hsplit
      generalize bit / wordShift = k at hk hpow hbelow hless hsplit ⊢
      generalize bit % wordShift = rem at hrem hpow ⊢
      obtain ⟨h0, h1⟩ := abs_lt.1 hless
      have hbpos : (0 : Int) < base ^ k := pow_pos (by decide) k
      -- what is below takes one off where it is negative
      have hquot : value base xs / base ^ k =
          (if topNonzero (xs.take k) < 0 then xs.getD k 0 - 1 else xs.getD k 0) + base * value base (xs.drop (k + 1)) := by
        rw [hsplit, Int.add_mul_ediv_left _ _ hbpos.ne']
        split_ifs with hneg
        · rw [hbelow] at hneg
          have hone : value base (xs.take k) / base ^ k = -1 := by
            rw [Int.ediv_eq_iff_of_pos hbpos]
            omega
          rw [hone]
          ring
        · rw [hbelow] at hneg
          rw [Int.ediv_eq_zero_of_lt (by omega) h1, zero_add]
      rw [hpow, ← Int.ediv_ediv_of_nonneg hbpos.le, hquot, testBit_add_base_mul hrem]

end

/-! ## Sizes -/

theorem bitLength_le_iff {v : Int} (h0 : 0 ≤ v) (h1 : v < 18446744073709551616) (n : Nat) : bitLength v ≤ n ↔ v < 2 ^ n := by
  obtain ⟨m, rfl⟩ := Int.eq_ofNat_of_zero_le h0
  rw [bitLength, Int.emod_eq_of_lt h0 h1, Int.toNat_natCast, Nat.size_le]
  exact_mod_cast Iff.rfl

theorem lt_two_pow_iff {v : Int} {len : Nat} (h0 : 2 ^ len ≤ v) (h1 : v < 2 ^ (len + 1)) (n : Nat) :
    v < 2 ^ n ↔ len + 1 ≤ n := by
  constructor
  · intro hless
    by_contra hcontra
    have := pow_le_pow_right₀ (show (1 : Int) ≤ 2 by decide) (show n ≤ len by omega)
    omega
  · intro hle
    exact h1.trans_le (pow_le_pow_right₀ (by decide) hle)

/-- The last loop finds the side of zero. -/
theorem bitSizeRest_eq (above under q : Int) {ds : List Int} (h : ∀ d ∈ ds, |d| ≤ half) :
    bitSizeRest above under q ds = if 0 ≤ valueFrom base q ds then above else under := by
  induction ds generalizing q with
  | nil => rfl
  | cons d ds ih =>
    have hsign : q ≠ 0 → half ≤ (base - 1) * |q| → (valueFrom base q (d :: ds)).sign = q.sign :=
      fun hne hm => sign_valueFrom (by decide) h hne hm
    rw [bitSizeRest]
    by_cases hhigh : q ≥ maxDenorm / 2
    · have hq : 1024 ≤ q := hhigh
      have hpos := hsign (by omega) (by rw [abs_of_pos (by omega)]; unfold half base; omega)
      rw [Int.sign_eq_one_of_pos (show 0 < q by omega), Int.sign_eq_one_iff_pos] at hpos
      rw [if_pos hhigh, if_pos hpos.le]
    · by_cases hlow : q ≤ -(maxDenorm / 2)
      · have hq : q ≤ -1024 := hlow
        have hneg := hsign (by omega) (by rw [abs_of_neg (by omega)]; unfold half base; omega)
        rw [Int.sign_eq_neg_one_of_neg (show q < 0 by omega), Int.sign_eq_neg_one_iff_neg] at hneg
        rw [if_neg hhigh, if_pos hlow, if_neg (not_le.2 hneg)]
      · have hq0 : -1024 < q := not_le.1 hlow
        have hq1 : q < 1024 := not_le.1 hhigh
        obtain ⟨hd0, hd1⟩ := abs_le.1 (h d List.mem_cons_self)
        unfold half at hd0 hd1
        have hword : word (word (q * base) + d) = q * base + d := by
          rw [@word_of_fits (q * base) (by unfold base; omega) (by unfold base; omega)]
          exact word_of_fits (by unfold base; omega) (by unfold base; omega)
        rw [if_neg hhigh, if_neg hlow, hword, ih _ fun e he => h e (List.mem_cons_of_mem d he), valueFrom_cons]

/-- What `bit_size` begins with: a leading part of the number that is large, or all of it. -/
structure Leads (v q : Int) (below : List Int) : Prop where
  value : valueFrom base q below = v
  bounds : ∀ d ∈ below, |d| ≤ half
  small : |q| < 4611686018427387904
  large : below = [] ∨ 1024 ≤ |q|

theorem leads_takeDigit {top : Int} {below : List Int} (h : ∀ d ∈ top :: below, |d| ≤ half) (hne : top ≠ 0) {small : Bool}
    (hsmall : small = true ↔ |top| < 1024) :
    Leads (valueFrom base 0 (top :: below)) (takeDigit small top below).1 (takeDigit small top below).2 ∧
      (takeDigit small top below).1.sign = top.sign := by
  have htop := h top List.mem_cons_self
  have hbelow : ∀ d ∈ below, |d| ≤ half := fun d hd => h d (List.mem_cons_of_mem top hd)
  unfold half at htop
  rw [valueFrom_cons, zero_mul, zero_add]
  by_cases hs : small = true
  · have hlt := abs_lt.1 (hsmall.1 hs)
    subst hs
    cases below with
    | nil => exact ⟨⟨rfl, hbelow, show |top| < _ by omega, .inl rfl⟩, rfl⟩
    | cons d ds =>
      have hd := abs_le.1 (hbelow d List.mem_cons_self)
      unfold half at hd
      have hword : word (word (top * base) + d) = top * base + d := by
        rw [@word_of_fits (top * base) (by unfold base; omega) (by unfold base; omega)]
        exact word_of_fits (by unfold base; omega) (by unfold base; omega)
      have hfirst : takeDigit true top (d :: ds) = (top * base + d, ds) := by rw [takeDigit, hword]
      rw [hfirst]
      refine ⟨⟨rfl, fun e he => hbelow e (List.mem_cons_of_mem d he), ?_, .inr ?_⟩, ?_⟩
      · rw [abs_lt]
        unfold base
        omega
      · rw [le_abs']
        unfold base
        omega
      · rcases lt_or_gt_of_ne hne with hneg | hpos
        · rw [Int.sign_eq_neg_one_of_neg hneg, Int.sign_eq_neg_one_of_neg (by unfold base; omega)]
        · rw [Int.sign_eq_one_of_pos hpos, Int.sign_eq_one_of_pos (by unfold base; omega)]
  · have hpair : takeDigit small top below = (top, below) := by
      rw [Bool.not_eq_true] at hs
      subst hs
      cases below <;> rfl
    rw [hpair]
    exact ⟨⟨rfl, hbelow, show |top| < _ by omega, .inr (not_lt.1 fun hlt => hs (hsmall.2 hlt))⟩, rfl⟩

/-- What the length of a leading part without a margin says of it. -/
theorem exists_len {q : Int} (hsmall : q < 4611686018427387904) (hlarge : 1024 ≤ q) :
    ∃ len : Nat, bitLength (word (q - maxDenorm / 4)) = len + 10 ∧ 2 ^ (len + 9) ≤ q - 512 ∧ q - 512 < 2 * 2 ^ (len + 9) ∧
      word (2 ^ (len + 10)) = 2 * 2 ^ (len + 9) ∧ 2 ^ (len + 9) ≤ (2305843009213693952 : Int) ∧ (512 : Int) ≤ 2 ^ (len + 9) := by
  have hword : word (q - maxDenorm / 4) = q - 512 := word_of_fits (by unfold maxDenorm; omega) (by unfold maxDenorm; omega)
  have hlen := @bitLength_le_iff (q - 512) (by omega) (by omega)
  have hnine : ¬ bitLength (q - 512) ≤ 9 := (hlen 9).not.2 (by omega)
  have htop : bitLength (q - 512) ≤ 62 := (hlen 62).2 (by omega)
  refine ⟨bitLength (q - 512) - 10, ?_, ?_, ?_, ?_, ?_, ?_⟩
  · rw [hword]
    omega
  · refine not_lt.1 fun hlt => absurd ((hlen _).2 hlt) ?_
    omega
  · rw [← pow_succ']
    refine (hlen _).1 ?_
    omega
  · rw [← pow_succ', show bitLength (q - 512) - 10 + 10 = bitLength (q - 512) - 10 + 9 + 1 by omega]
    have hpow := pow_le_pow_right₀ (show (1 : Int) ≤ 2 by decide) (show bitLength (q - 512) - 10 + 9 + 1 ≤ 62 by omega)
    exact word_of_fits ((by decide : (-9223372036854775808 : Int) ≤ 0).trans (by positivity)) (hpow.trans_lt (by decide))
  · exact (pow_le_pow_right₀ (show (1 : Int) ≤ 2 by decide)
      (show bitLength (q - 512) - 10 + 9 ≤ 61 by omega)).trans (by decide)
  · exact (by decide : (512 : Int) ≤ 2 ^ 9).trans (pow_le_pow_right₀ (by decide) (Nat.le_add_left 9 _))

section

variable {v q : Int} {below : List Int} (h : Leads v q below)

include h

theorem Leads.bounds_value : (q - 1) * base ^ below.length < v ∧ v < (q + 1) * base ^ below.length := by
  have hlow := @abs_value_lt_pow below.reverse fun d hd => h.bounds d (List.mem_reverse.1 hd)
  rw [List.length_reverse] at hlow
  obtain ⟨h0, h1⟩ := abs_lt.1 hlow
  have hvalue := h.value
  rw [valueFrom_eq] at hvalue
  rw [← hvalue]
  constructor <;> linarith

theorem Leads.add_value (p : Int) : valueFrom base (q + p) below = v + p * base ^ below.length := by
  rw [← h.value, valueFrom_eq, valueFrom_eq]
  ring

/-- The size of a positive number from its leading part. -/
theorem Leads.size_pos (hq : 0 < q) :
    ∃ s : Nat, (∀ n, v < 2 ^ n ↔ s ≤ n) ∧ ∀ c : Int,
      (if below = [] then (bitLength q : Int) + c
      else
        bitSizeRest ((bitLength (word (q - maxDenorm / 4)) : Int) + below.length * wordShift + c + 1)
          ((bitLength (word (q - maxDenorm / 4)) : Int) + below.length * wordShift + c)
          (word (q - word (2 ^ bitLength (word (q - maxDenorm / 4))))) below) = s + c := by
  have hsmall := h.small
  rw [abs_of_pos hq] at hsmall
  by_cases hnone : below = []
  · refine ⟨bitLength q, fun n => ?_, fun c => if_pos hnone⟩
    have hvalue := h.value
    rw [hnone, valueFrom_nil] at hvalue
    rw [← hvalue]
    exact (bitLength_le_iff hq.le (by omega) n).symm
  · have hlarge : 1024 ≤ q := by
      have := h.large.resolve_left hnone
      rwa [abs_of_pos hq] at this
    obtain ⟨len, hlen, hdown, hup, hword, hbig, hleast⟩ := exists_len hsmall hlarge
    obtain ⟨hv0, hv1⟩ := h.bounds_value
    have hpow : (2 : Int) ^ (len + 9 + below.length * wordShift) = 2 ^ (len + 9) * base ^ below.length := by
      rw [pow_add, base_pow, Nat.mul_comm]
    have hb : (0 : Int) < base ^ below.length := pow_pos (by decide) _
    have hrest := h.add_value (-(2 * 2 ^ (len + 9)))
    rw [neg_mul, mul_assoc, ← hpow] at hrest
    have hshift : word (q - 2 * 2 ^ (len + 9)) = q + -(2 * 2 ^ (len + 9)) := word_of_fits (by omega) (by omega)
    simp only [if_neg hnone, bitSizeRest_eq _ _ _ h.bounds, hlen, hword, hshift, hrest]
    by_cases hreach : 2 * 2 ^ (len + 9 + below.length * wordShift) ≤ v
    · refine ⟨len + 9 + below.length * wordShift + 1 + 1, ?_, fun c => ?_⟩
      · refine lt_two_pow_iff (by rw [pow_succ']; exact hreach) ?_
        rw [pow_succ', pow_succ', hpow]
        nlinarith
      · rw [if_pos (by omega)]
        push_cast
        ring
    · refine ⟨len + 9 + below.length * wordShift + 1, ?_, fun c => ?_⟩
      · refine lt_two_pow_iff ?_ ?_
        · rw [hpow]
          nlinarith
        · rw [pow_succ']
          omega
      · rw [if_neg (by omega)]
        push_cast
        ring

/-- The size of a negative number from its leading part. -/
theorem Leads.size_neg (hq : q < 0) :
    ∃ s : Nat, (∀ n, -v ≤ 2 ^ n ↔ s ≤ n) ∧
      (if below = [] then (bitLength (-q - 1) : Int) + 1
      else
        bitSizeRest ((bitLength (word (-q - maxDenorm / 4)) : Int) + below.length * wordShift + 1)
          ((bitLength (word (-q - maxDenorm / 4)) : Int) + below.length * wordShift + 1 + 1)
          (word (q + word (2 ^ bitLength (word (-q - maxDenorm / 4))))) below) = s + 1 := by
  have hsmall := h.small
  rw [abs_of_neg hq] at hsmall
  have hshape : ∀ n : Nat, -v ≤ 2 ^ n ↔ -v - 1 < 2 ^ n := fun n => by omega
  simp only [hshape]
  by_cases hnone : below = []
  · refine ⟨bitLength (-q - 1), fun n => ?_, if_pos hnone⟩
    have hvalue := h.value
    rw [hnone, valueFrom_nil] at hvalue
    rw [← hvalue]
    exact (bitLength_le_iff (by omega) (by omega) n).symm
  · have hlarge : 1024 ≤ -q := by
      have := h.large.resolve_left hnone
      rwa [abs_of_neg hq] at this
    obtain ⟨len, hlen, hdown, hup, hword, hbig, hleast⟩ := exists_len hsmall hlarge
    obtain ⟨hv0, hv1⟩ := h.bounds_value
    have hpow : (2 : Int) ^ (len + 9 + below.length * wordShift) = 2 ^ (len + 9) * base ^ below.length := by
      rw [pow_add, base_pow, Nat.mul_comm]
    have hb : (0 : Int) < base ^ below.length := pow_pos (by decide) _
    have hrest := h.add_value (2 * 2 ^ (len + 9))
    rw [mul_assoc, ← hpow] at hrest
    have hshift : word (q + 2 * 2 ^ (len + 9)) = q + 2 * 2 ^ (len + 9) := word_of_fits (by omega) (by omega)
    simp only [if_neg hnone, bitSizeRest_eq _ _ _ h.bounds, hlen, hword, hshift, hrest]
    by_cases hreach : 0 ≤ v + 2 * 2 ^ (len + 9 + below.length * wordShift)
    · refine ⟨len + 9 + below.length * wordShift + 1, ?_, ?_⟩
      · refine lt_two_pow_iff ?_ ?_
        · rw [hpow]
          nlinarith
        · rw [pow_succ']
          omega
      · rw [if_pos hreach]
        push_cast
        ring
    · refine ⟨len + 9 + below.length * wordShift + 1 + 1, ?_, ?_⟩
      · refine lt_two_pow_iff (by rw [pow_succ']; omega) ?_
        rw [pow_succ', pow_succ', hpow]
        nlinarith
      · rw [if_neg hreach]
        push_cast
        ring

end

section

variable {xs : List Int} (hx : Balanced xs)

include hx

/-- The digits from the top. -/
theorem Balanced.exists_reverse : ∃ top below, xs.reverse = top :: below ∧ top = topWord xs ∧
    (∀ d ∈ top :: below, |d| ≤ half) ∧ valueFrom base 0 (top :: below) = value base xs := by
  obtain ⟨top, htop⟩ : ∃ top, xs.getLast? = some top := ⟨_, List.getLast?_eq_some_getLast hx.ne_nil⟩
  obtain ⟨low, rfl⟩ := List.getLast?_eq_some_iff.1 htop
  have hreverse : (low ++ [top]).reverse = top :: low.reverse := by rw [List.reverse_append]; rfl
  refine ⟨top, low.reverse, hreverse, (topWord_of_getLast? htop).symm, fun d hd => ?_, ?_⟩
  · rw [← hreverse, List.mem_reverse] at hd
    exact hx.bounds d hd
  · rw [value_eq_valueFrom, hreverse]

/-- The size of a positive number, with a bit for the sign or without. -/
theorem bitSize_pos (hpos : 0 < value base xs) :
    ∃ s : Nat, (∀ n, value base xs < 2 ^ n ↔ s ≤ n) ∧ ∀ sgnd, bitSize xs sgnd = s + sgnd.toNat := by
  obtain ⟨top, below, hreverse, htop, hbounds, hvalue⟩ := hx.exists_reverse
  have hsign := hx.sign_topWord
  rw [← htop, Int.sign_eq_one_of_pos hpos, Int.sign_eq_one_iff_pos] at hsign
  obtain ⟨hleads, hsame⟩ := @leads_takeDigit top below hbounds hsign.ne' (decide (top < maxDenorm / 2)) (by
    rw [decide_eq_true_iff, abs_of_pos hsign]
    rfl)
  rw [hvalue] at hleads
  rw [Int.sign_eq_one_of_pos hsign, Int.sign_eq_one_iff_pos] at hsame
  obtain ⟨s, hs, hsize⟩ := hleads.size_pos hsame
  refine ⟨s, hs, fun sgnd => ?_⟩
  unfold bitSize
  rw [hreverse, hx.sgn_eq_sign, Int.sign_eq_one_of_pos hpos]
  exact hsize sgnd.toNat

/-- The size of a negative number. -/
theorem bitSize_neg (hneg : value base xs < 0) :
    (∃ s : Nat, (∀ n, -value base xs ≤ 2 ^ n ↔ s ≤ n) ∧ bitSize xs true = s + 1) ∧ bitSize xs false = 2147483647 := by
  obtain ⟨top, below, hreverse, htop, hbounds, hvalue⟩ := hx.exists_reverse
  have hsign := hx.sign_topWord
  rw [← htop, Int.sign_eq_neg_one_of_neg hneg, Int.sign_eq_neg_one_iff_neg] at hsign
  obtain ⟨hleads, hsame⟩ := @leads_takeDigit top below hbounds hsign.ne (decide (top > -(maxDenorm / 2))) (by
    rw [decide_eq_true_iff, abs_of_neg hsign, gt_iff_lt, neg_lt]
    rfl)
  rw [hvalue] at hleads
  rw [Int.sign_eq_neg_one_of_neg hsign, Int.sign_eq_neg_one_iff_neg] at hsame
  obtain ⟨s, hs, hsize⟩ := hleads.size_neg hsame
  unfold bitSize
  rw [hreverse, hx.sgn_eq_sign, Int.sign_eq_neg_one_of_neg hneg]
  exact ⟨⟨s, hs, hsize⟩, rfl⟩

theorem bitSize_zero (hzero : value base xs = 0) (sgnd : Bool) : bitSize xs sgnd = 0 := by
  obtain ⟨top, below, hreverse, -⟩ := hx.exists_reverse
  unfold bitSize
  rw [hreverse, hx.sgn_eq_sign, hzero]
  rfl

/-- `bit_size` is the least size that a number with its sign fits. -/
theorem bitSize_signed (n : Nat) : FitsSigned (value base xs) n ↔ bitSize xs true ≤ n := by
  rcases lt_trichotomy (value base xs) 0 with hneg | hzero | hpos
  · obtain ⟨⟨s, hs, hsize⟩, -⟩ := bitSize_neg hx hneg
    rw [hsize]
    cases n with
    | zero =>
      rw [fitsSigned_zero]
      omega
    | succ n =>
      have hpow := pow_pos (show (0 : Int) < 2 by decide) n
      rw [fitsSigned_succ, ← show (s ≤ n ↔ (s : Int) + 1 ≤ (n + 1 : Nat)) by omega, ← hs]
      omega
  · have hpow := pow_pos (show (0 : Int) < 2 by decide) n
    rw [bitSize_zero hx hzero, hzero]
    unfold FitsSigned
    omega
  · obtain ⟨s, hs, hsize⟩ := bitSize_pos hx hpos
    rw [hsize, Bool.toNat_true]
    cases n with
    | zero =>
      rw [fitsSigned_zero]
      omega
    | succ n =>
      have hpow := pow_pos (show (0 : Int) < 2 by decide) n
      rw [fitsSigned_succ, ← show (s ≤ n ↔ (s : Int) + (1 : Nat) ≤ (n + 1 : Nat)) by omega, ← hs]
      omega

/-- Without a sign it is that of the numbers that are not negative. -/
theorem bitSize_unsigned (hnonneg : 0 ≤ value base xs) (n : Nat) : value base xs < 2 ^ n ↔ bitSize xs false ≤ n := by
  rcases hnonneg.eq_or_lt with hzero | hpos
  · have hpow := pow_pos (show (0 : Int) < 2 by decide) n
    rw [bitSize_zero hx hzero.symm, ← hzero]
    omega
  · obtain ⟨s, hs, hsize⟩ := bitSize_pos hx hpos
    rw [hsize, hs, Bool.toNat_false]
    omega

end

end TonWallet.Td.BigInt
