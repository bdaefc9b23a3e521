/-
Powers of two and remainders by them on wide integers (`set_pow2`, `add_pow2`, `sub_pow2`, `mod_pow2`). A remainder keeps the
low digits; a number below zero gets a power of two on top, for which one length has too little room left by mistake, and the
power that is added or subtracted is shifted as an `int`.
-/
import Mathlib.Data.Int.ModEq
import Mathlib.Data.List.DropRight
import TonWallet.Td.BigIntBits

namespace TonWallet.Td.BigInt

open Lib.BalancedDigits

/-! ## Powers of two -/

/-- An `int`, of 32 bits. -/
def int32 (x : Int) : Int := (x + 2147483648) % 4294967296 - 2147483648

/-- How an `int` is shifted to the left: by its width or more it may become any other. -/
structure IntShift where
  shl : Int → Nat → Int
  bounds : ∀ x n, -2147483648 ≤ shl x n ∧ shl x n < 2147483648
  exact : ∀ x n, n < 32 → shl x n = int32 (x * 2 ^ n)

/-- `set_pow2_any`; no digits where the number is not valid. -/
def setPow2 (exponent : Int) : List Int :=
  if exponent < 0 ∨ exponent ≥ maxSize * wordShift then []
  else
    let k := exponent.toNat / wordShift
    let rem := exponent.toNat % wordShift
    if rem = wordShift - 1 ∧ k + 1 < maxSize then List.replicate k 0 ++ [-half, 1]
    else List.replicate k 0 ++ [word (2 ^ rem)]

/-- `add_pow2_any`. -/
def addPow2 (shift : IntShift) (ds : List Int) (exponent factor : Int) : List Int :=
  if exponent < 0 ∨ exponent ≥ maxSize * wordShift then []
  else if ds = [] then []
  else
    let k := exponent.toNat / wordShift
    let rem := exponent.toNat % wordShift
    let ds := ds ++ List.replicate (k + 1 - ds.length) 0
    ds.set k (word (ds.getD k 0 + shift.shl factor rem))

/-! ## Remainders -/

/-- Zeros on top, until what is left of the exponent is below a digit. -/
def growTo (ds : List Int) (q : Nat) : List Int × Nat :=
  if wordShift ≤ q then growTo (ds ++ [0]) (q - wordShift) else (ds, q)
termination_by q
decreasing_by
  unfold wordShift at *
  omega

/-- Digits go from the top, until the exponent is not below the top digit. -/
def cutTo (ds : List Int) (q : Int) : List Int × Int :=
  if q < 0 then cutTo ds.dropLast (q + wordShift) else (ds, q)
termination_by (-q).toNat
decreasing_by
  unfold wordShift
  omega

/-- The bits of the top digit below `q`, and what becomes of the digits with them. -/
def maskTop (ds : List Int) (q : Nat) (exponent : Int) : List Int :=
  let v := topWord ds % 2 ^ q
  if v = 0 then
    let low := ds.dropLast.rdropWhile (· = 0)
    if low = [] then [0]
    else if topWord low > 0 then low
    else if exponent ≥ maxSize * wordShift then []
    else
      let ds := if q ≥ wordShift then ds.dropLast ++ [0, 2 ^ (q - wordShift)] else ds
      if q = wordShift - 1 ∧ ds.length < maxSize - 1 then ds.dropLast ++ [-half, 1]
      else ds.dropLast ++ [word (2 ^ q)]
  else if v ≥ half then
    if ds.length = maxSize - 1 then []
    else
      -- `v | -Half`
      ds.dropLast ++ [v % half - half, 2 ^ (q - wordShift)]
  else ds.dropLast ++ [v]

/-- `mod_pow2_any` without a mode. -/
def modPow2 (ds : List Int) (exponent : Int) : List Int :=
  if ds = [] then []
  else if exponent ≤ 0 then [0]
  else
    let q := exponent - (ds.length - 1) * wordShift
    if q ≥ 64 then
      if sgn ds ≥ 0 then ds
      else if exponent ≥ maxSize * wordShift then []
      else
        let (ds, q) := growTo ds q.toNat
        if q = wordShift - 1 ∧ ds.length < maxSize then ds.dropLast ++ [-half, 1] else ds.dropLast ++ [2 ^ q]
    else
      let (ds, q) := cutTo ds q
      maskTop ds q.toNat exponent

/-- `negate_any`. -/
def negate (ds : List Int) : List Int := ds.map fun d => word (-d)

/-- `mod_pow2_any`. -/
def modPow2Round (shift : IntShift) (ds : List Int) (exponent roundMode : Int) : List Int :=
  if roundMode < 0 then modPow2 ds exponent
  else if ds = [] then []
  else if exponent ≤ 0 then [0]
  else if roundMode > 0 then negate (modPow2 (negate ds) exponent)
  else if signedFitsBits ds exponent then ds
  else
    let rest := modPow2 ds exponent
    if rest = [] then []
    else if unsignedFitsBits rest (exponent - 1) then rest
    else addPow2 shift rest exponent (-1)

/-! ## Numbers that become normal -/

/-- A number that is valid, and normal without loss once it is normalized. -/
structure Denotes (ds : List Int) (v : Int) : Prop where
  denoted : value base ds = v
  normal : Normal half (normalize ds)
  lossless : value base (normalize ds) = v

theorem normalize_of_no_carry {ds : List Int} (hds : ds ≠ []) (hcarry : (carryOver 0 ds).2 = 0) :
    normalize ds = dropTopZeros (carryOver 0 ds).1 := by
  have hsplit := carryOver_eq ds
  rw [hsplit] at hcarry
  rw [normalize, if_neg hds, hsplit]
  simp only at hcarry ⊢
  rw [hcarry]
  cases maxSize - ds.length <;> rfl

/-- Digits with a margin become normal where the number is far from the largest there is room for. -/
theorem denotes_of_bounds {ds : List Int} (hds : ds ≠ []) (hlength : ds.length ≤ maxSize)
    (hbounds : ∀ d ∈ ds, -4611686018427387904 ≤ d ∧ d ≤ 4611686018427387904) (hvalue : |value base ds| < 4 * 2 ^ 256) :
    Denotes ds (value base ds) := by
  rcases hlength.lt_or_eq with hlt | hfull
  · exact ⟨rfl, normal_normalize hds hlt, value_normalize_of_bounds hds hlt hbounds⟩
  · have hcarried := value_carryOver (@carryFits_of_bounds 0 _ (by omega) hbounds)
    have hrange : ∀ d ∈ (carryOver 0 ds).1, |d| ≤ half := fun d hd =>
      abs_le.2 ⟨(inRange_carryOver hd).1, (inRange_carryOver hd).2.le⟩
    have hlow := mul_abs_value_le (by decide : (1 : Int) < base) hrange
    rw [length_carryOver, hfull] at hlow
    rw [hfull, zero_add] at hcarried
    -- nothing is left to carry
    have hcarry : (carryOver 0 ds).2 = 0 := by
      obtain ⟨c, hc⟩ : ∃ c, c = (carryOver 0 ds).2 := ⟨_, rfl⟩
      obtain ⟨l, hl⟩ : ∃ l, l = value base (carryOver 0 ds).1 := ⟨_, rfl⟩
      obtain ⟨v, hv⟩ : ∃ v, v = value base ds := ⟨_, rfl⟩
      rw [← hc, ← hl, ← hv] at hcarried
      rw [← hl] at hlow
      rw [← hv] at hvalue
      rw [← hc]
      obtain ⟨hv0, hv1⟩ := abs_lt.1 hvalue
      have hl0 := neg_abs_le l
      have hl1 := le_abs_self l
      norm_num [base, half, maxSize] at hlow hcarried hv0 hv1
      by_contra hne
      rcases lt_or_gt_of_ne hne with hneg | hpos
      · linarith [show c ≤ -1 by omega]
      · linarith [show 1 ≤ c by omega]
    have hnormal : normalize ds = dropTopZeros (carryOver 0 ds).1 := normalize_of_no_carry hds hcarry
    have hne : (carryOver 0 ds).1 ≠ [] := by
      rw [ne_eq, ← List.length_eq_zero_iff, length_carryOver, List.length_eq_zero_iff]
      exact hds
    refine ⟨rfl, ?_, ?_⟩
    · rw [hnormal]
      exact ⟨fun d hd => inRange_carryOver (mem_of_mem_dropTopZeros hd), dropTopZeros_ne_nil hne, getLast?_dropTopZeros⟩
    · rw [hnormal, value_dropTopZeros]
      rw [hcarry, mul_zero, add_zero] at hcarried
      exact hcarried

theorem Denotes.ne_nil {ds : List Int} {v : Int} (h : Denotes ds v) : ds ≠ [] := by
  rintro rfl
  exact h.normal.ne_nil rfl

/-- Digits up to one half and the room there is. -/
structure Small (ds : List Int) : Prop extends Balanced ds where
  room : ds.length ≤ maxSize

theorem Small.denotes {ds : List Int} (h : Small ds) (hvalue : |value base ds| < 4 * 2 ^ 256) : Denotes ds (value base ds) := by
  refine denotes_of_bounds h.ne_nil h.room (fun d hd => ?_) hvalue
  have hd := abs_le.1 (h.bounds d hd)
  unfold half at hd
  omega

/-! ## The digits around the exponent -/

theorem growTo_eq (ds : List Int) (q : Nat) : growTo ds q = (ds ++ List.replicate (q / wordShift) 0, q % wordShift) := by
  fun_induction growTo ds q with
  | case1 ds q hle ih =>
    rw [ih, List.append_assoc, ← Nat.mod_eq_sub_mod hle, ← List.replicate_one, List.replicate_append_replicate]
    have hdiv : q / wordShift = (q - wordShift) / wordShift + 1 := by
      unfold wordShift at *
      omega
    rw [hdiv, Nat.add_comm]
  | case2 ds q hlt =>
    have hdiv : q / wordShift = 0 := Nat.div_eq_of_lt (by omega)
    rw [hdiv, Nat.mod_eq_of_lt (by omega)]
    simp

/-- What is cut off lies above the exponent. -/
theorem cutTo_spec {ds : List Int} {q : Int} {e : Nat} (hds : ds ≠ []) (he : (e : Int) = q + (ds.length - 1) * wordShift) :
    ∃ kept rest rem, cutTo ds q = (kept, ((rem : Nat) : Int)) ∧ ds = kept ++ rest ∧ kept ≠ [] ∧
      e = rem + wordShift * (kept.length - 1) ∧ (rest ≠ [] → rem < wordShift) ∧ (0 ≤ q → rest = []) := by
  fun_induction cutTo ds q with
  | case1 ds q hneg ih =>
    have hlong : 2 ≤ ds.length := by
      by_contra hcontra
      have hone : ds.length = 1 := by
        have := List.length_pos_of_ne_nil hds
        omega
      rw [hone] at he
      omega
    have hdrop : ds.dropLast ≠ [] := by
      rw [← List.length_pos_iff, List.length_dropLast]
      omega
    obtain ⟨kept, rest, rem, hcut, hsplit, hne, hrem, hless, hall⟩ := ih hdrop (by
      rw [List.length_dropLast]
      push_cast [show 1 ≤ ds.length by omega]
      linarith)
    refine ⟨kept, rest ++ [ds.getLast hds], rem, hcut, ?_, hne, hrem, fun _ => ?_, fun h => absurd h (by omega)⟩
    · rw [← List.append_assoc, ← hsplit, List.dropLast_concat_getLast]
    · by_cases hnone : rest = []
      · -- the last cut leaves less than a digit
        have hkept : kept.length = ds.length - 1 := by
          rw [hnone, List.append_nil] at hsplit
          rw [← hsplit, List.length_dropLast]
        have hcast : (e : Int) = rem + wordShift * ((ds.length : Int) - 1 - 1) := by
          rw [hrem, hkept]
          push_cast [show 1 ≤ ds.length by omega, show 1 ≤ ds.length - 1 by omega]
          ring
        have hsum : (rem : Int) = q + wordShift := by linarith
        omega
      · exact hless hnone
  | case2 ds q hnonneg =>
    obtain ⟨rem, hrem⟩ := Int.eq_ofNat_of_zero_le (not_lt.1 hnonneg)
    refine ⟨ds, [], rem, by rw [hrem], (List.append_nil ds).symm, hds, ?_, fun h => absurd rfl h, fun _ => rfl⟩
    have hpos := List.length_pos_of_ne_nil hds
    have hcast : (e : Int) = rem + wordShift * ((ds.length : Int) - 1) := by rw [he, hrem]; ring
    zify [hpos]
    exact hcast

/-- A remainder is what is in its range and differs by a multiple. -/
theorem emod_eq_of {v r m : Int} (h0 : 0 ≤ r) (h1 : r < m) (t : Int) (hv : v = r + m * t) : v % m = r := by
  rw [hv, Int.add_mul_emod_self_left, Int.emod_eq_of_lt h0 h1]

theorem two_pow_place {e rem n : Nat} (he : e = rem + wordShift * n) : (2 : Int) ^ e = 2 ^ rem * base ^ n := by
  rw [he, pow_add, base_pow]

theorem rdropWhile_spec (low : List Int) :
    value base (low.rdropWhile (· = 0)) = value base low ∧
      (low.rdropWhile (· = 0) ≠ [] → (low.rdropWhile (· = 0)).getLast? ≠ some 0) := by
  constructor
  · induction low using List.reverseRecOn with
    | nil => rfl
    | append_singleton low d ih =>
      by_cases hd : d = 0
      · rw [List.rdropWhile_concat_pos _ _ _ (by simpa using hd), ih, value_append, hd]
        simp
      · rw [List.rdropWhile_concat_neg _ _ _ (by simpa using hd)]
  · intro hne hlast
    have hnot := List.rdropWhile_last_not (fun d : Int => decide (d = 0)) low hne
    rw [List.getLast?_eq_some_getLast hne, Option.some.injEq] at hlast
    exact hnot (decide_eq_true hlast)

theorem value_concat (low : List Int) (d : Int) : value base (low ++ [d]) = value base low + base ^ low.length * d := by
  rw [value_append, value_cons, value_nil, mul_zero, add_zero]

theorem value_concat_pair (low : List Int) (c d : Int) :
    value base (low ++ [c, d]) = value base low + base ^ low.length * (c + base * d) := by
  rw [value_append, value_cons, value_cons, value_nil, mul_zero, add_zero]

theorem small_concat {low : List Int} {d : Int} (hlow : ∀ x ∈ low, |x| ≤ half) (hd : |d| ≤ half) (hne : low ≠ [] → d ≠ 0)
    (hroom : low.length + 1 ≤ maxSize) : Small (low ++ [d]) where
  bounds x hx := by
    rcases List.mem_append.1 hx with hx | hx
    · exact hlow x hx
    · rw [List.mem_singleton.1 hx]
      exact hd
  ne_nil := List.append_ne_nil_of_right_ne_nil low (List.cons_ne_nil d [])
  top hone hlast := by
    rw [List.getLast?_concat, Option.some.injEq] at hlast
    refine hne ?_ hlast
    rintro rfl
    exact hone rfl
  room := by rwa [List.length_append]

theorem small_concat_pair {low : List Int} {c d : Int} (hlow : ∀ x ∈ low, |x| ≤ half) (hc : |c| ≤ half) (hd : |d| ≤ half)
    (hne : d ≠ 0) (hroom : low.length + 2 ≤ maxSize) : Small (low ++ [c, d]) := by
  have hsmall := @small_concat (low ++ [c]) d (fun x hx => by
    rcases List.mem_append.1 hx with hx | hx
    · exact hlow x hx
    · rw [List.mem_singleton.1 hx]
      exact hc) hd (fun _ => hne) (by rw [List.length_append]; exact hroom)
  rwa [List.append_assoc] at hsmall

theorem pow_le_half {n : Nat} (h : n < wordShift) : (2 : Int) ^ n ≤ half :=
  (pow_le_pow_right₀ (by decide) (show n ≤ 51 from Nat.le_of_lt_succ h)).trans (by decide)

section

variable {low : List Int} {top : Int} {q e : Nat} (hlow : ∀ d ∈ low, |d| ≤ half) (hq : q < 64)
  (he : e = q + wordShift * low.length) (hmax : e ≤ 256)

theorem topWord_concat (low : List Int) (top : Int) : topWord (low ++ [top]) = top :=
  topWord_of_getLast? List.getLast?_concat

include hlow he in
/-- The number around the exponent: what is below the top digit, and the power of two in the place of the digit. -/
theorem value_split : (2 : Int) ^ e = 2 ^ q * base ^ low.length ∧ -base ^ low.length < value base low ∧
    value base low < base ^ low.length ∧ value base (low ++ [top]) = value base low + base ^ low.length * top ∧
    value base (low ++ [top]) = value base low + base ^ low.length * (top % 2 ^ q) + 2 ^ e * (top / 2 ^ q) := by
  have hless := abs_lt.1 (abs_value_lt_pow hlow)
  have hpow := two_pow_place he
  have hvalue := value_concat low top
  refine ⟨hpow, hless.1, hless.2, hvalue, ?_⟩
  rw [hvalue, hpow]
  linear_combination (-base ^ low.length) * Int.emod_add_mul_ediv top (2 ^ q)

include hlow hmax he in
/-- A top digit without bits below the exponent goes, and a number that is negative without it gets the power of two. -/
theorem maskTop_zero (hzero : top = 0 → low = [] ∨ q < wordShift) (htop : |top| ≤ half) (hv : top % 2 ^ q = 0) :
    Small (maskTop (low ++ [top]) q e) ∧ value base (maskTop (low ++ [top]) q e) = value base (low ++ [top]) % 2 ^ e := by
  obtain ⟨hpow, hlow0, hlow1, -, hcongr⟩ := @value_split low top q e hlow he
  have hroom : low.length + 1 ≤ maxSize := by
    unfold wordShift maxSize at *
    omega
  have hpos : (0 : Int) < base ^ low.length := pow_pos (by decide) _
  have hqpos : (0 : Int) < 2 ^ q := pow_pos (by decide) _
  have htopBounds := abs_le.1 htop
  obtain ⟨hkeptValue, hkeptTop⟩ := rdropWhile_spec low
  have hexp : ¬((e : Int) ≥ maxSize * wordShift) := by
    unfold maxSize wordShift
    omega
  have hPe : base ^ low.length ≤ 2 ^ e := by
    rw [hpow]
    exact le_mul_of_one_le_left hpos.le hqpos
  unfold maskTop
  rw [topWord_concat, List.dropLast_concat, if_neg hexp, hv, if_pos rfl, hcongr, hv, mul_zero, add_zero]
  by_cases hnone : low.rdropWhile (· = 0) = []
  · rw [hnone, value_nil] at hkeptValue
    rw [if_pos hnone, ← hkeptValue, zero_add, Int.mul_emod_right]
    exact ⟨⟨⟨by decide, by decide, by decide⟩, by decide⟩, rfl⟩
  · rw [if_neg hnone]
    have hsub : low.rdropWhile (· = 0) <+: low := List.rdropWhile_prefix _ low
    have hkept : Balanced (low.rdropWhile (· = 0)) := ⟨fun d hd => hlow d (hsub.mem hd), hnone, fun _ => hkeptTop hnone⟩
    have hsign := hkept.sign_topWord
    rw [hkeptValue] at hsign
    by_cases hhigh : topWord (low.rdropWhile (· = 0)) > 0
    · rw [if_pos hhigh]
      rw [Int.sign_eq_one_of_pos hhigh, eq_comm, Int.sign_eq_one_iff_pos] at hsign
      refine ⟨⟨hkept, hsub.length_le.trans (by omega)⟩, ?_⟩
      rw [hkeptValue]
      exact (emod_eq_of (by omega) (by omega) _ rfl).symm
    · rw [if_neg hhigh]
      have hneg : value base low < 0 := by
        have hne : topWord (low.rdropWhile (· = 0)) ≠ 0 := by
          intro hcontra
          refine hkeptTop hnone ?_
          rw [List.getLast?_eq_some_getLast hnone, Option.some.injEq]
          rwa [topWord, List.getLastD_eq_getLast?, List.getLast?_eq_some_getLast hnone] at hcontra
        rw [Int.sign_eq_neg_one_of_neg (by omega), eq_comm, Int.sign_eq_neg_one_iff_neg] at hsign
        exact hsign
      -- a digit without bits below a larger exponent is zero
      have hshort : q < wordShift := by
        by_contra hlarge
        have hbase : base ≤ 2 ^ q := pow_le_pow_right₀ (show (1 : Int) ≤ 2 by decide) (not_lt.1 hlarge)
        have htopZero : top = 0 := Int.eq_zero_of_abs_lt_dvd (Int.dvd_of_emod_eq_zero hv)
          (htop.trans_lt ((show half < base by decide).trans_le hbase))
        rcases hzero htopZero with hempty | hlt
        · rw [hempty] at hnone
          exact hnone rfl
        · exact hlarge hlt
      have hresult : (value base low + 2 ^ e * (top / 2 ^ q)) % 2 ^ e = value base low + 2 ^ e :=
        emod_eq_of (by omega) (by omega) (top / 2 ^ q - 1) (by ring)
      have hhalf := pow_le_half hshort
      rw [if_neg (not_le.2 hshort)]
      dsimp only
      rw [List.dropLast_concat, hresult]
      by_cases hlast : q = wordShift - 1 ∧ (low ++ [top]).length < maxSize - 1
      · rw [if_pos hlast]
        refine ⟨small_concat_pair hlow (by decide) (by decide) (by decide) ?_, ?_⟩
        · have := hlast.2
          rw [List.length_append, List.length_singleton] at this
          omega
        · rw [value_concat_pair, hpow, hlast.1]
          unfold half base wordShift
          ring
      · rw [if_neg hlast]
        have hword : word (2 ^ q) = 2 ^ q := by
          unfold half at hhalf
          exact word_of_fits (by omega) (by omega)
        rw [hword]
        refine ⟨small_concat hlow ?_ (fun _ => hqpos.ne') hroom, ?_⟩
        · rw [abs_of_pos hqpos]
          exact hhalf
        · rw [value_concat, hpow]
          ring

include hlow hmax he in
/-- A top digit with some bits below the exponent keeps them. -/
theorem maskTop_low (h0 : top % 2 ^ q ≠ 0) (h1 : top % 2 ^ q < half) :
    Small (maskTop (low ++ [top]) q e) ∧ value base (maskTop (low ++ [top]) q e) = value base (low ++ [top]) % 2 ^ e := by
  obtain ⟨hpow, hlow0, hlow1, -, hcongr⟩ := @value_split low top q e hlow he
  have hroom : low.length + 1 ≤ maxSize := by
    unfold wordShift maxSize at *
    omega
  have hpos : (0 : Int) < base ^ low.length := pow_pos (by decide) _
  have hqpos : (0 : Int) < 2 ^ q := pow_pos (by decide) _
  have hmod0 := Int.emod_nonneg top hqpos.ne'
  have hmod1 := Int.emod_lt_of_pos top hqpos
  unfold maskTop
  rw [topWord_concat, List.dropLast_concat, if_neg h0, if_neg (not_le.2 h1), hcongr]
  generalize top % 2 ^ q = v at *
  refine ⟨small_concat hlow (abs_le.2 (by omega)) (fun _ => h0) hroom, ?_⟩
  rw [value_concat]
  have hlo := mul_le_mul_of_nonneg_left (show 1 ≤ v by omega) hpos.le
  have hhi := mul_le_mul_of_nonneg_left (show v ≤ 2 ^ q - 1 by omega) hpos.le
  refine (emod_eq_of ?_ ?_ _ rfl).symm
  · linarith
  · rw [hpow]
    linarith

include hq in
/-- What a large exponent makes of the top digit: a negative one is far above one half. -/
theorem high_cases (h : half ≤ top % 2 ^ q) (htop : |top| ≤ half) :
    wordShift ≤ q ∧ (top < 0 ∨ top = half) ∧ (2 : Int) ^ q = base * 2 ^ (q - wordShift) ∧
      (1 : Int) ≤ 2 ^ (q - wordShift) ∧ (2 : Int) ^ (q - wordShift) ≤ half ∧
      top % 2 ^ q % half - half = if top = half then -half else top := by
  have hqpos : (0 : Int) < 2 ^ q := pow_pos (by decide) _
  have hmod1 := Int.emod_lt_of_pos top hqpos
  have htopBounds := abs_le.1 htop
  have hlong : wordShift ≤ q := by
    by_contra hshort
    have := pow_le_half (not_le.1 hshort)
    omega
  have hbase : base ≤ 2 ^ q := pow_le_pow_right₀ (show (1 : Int) ≤ 2 by decide) hlong
  have hqbase : (2 : Int) ^ q = base * 2 ^ (q - wordShift) := by
    rw [show base = 2 ^ wordShift from rfl, ← pow_add, Nat.add_sub_cancel' hlong]
  have hcases : top < 0 ∨ top = half := by
    by_contra hcontra
    have hless : top < 2 ^ q := htopBounds.2.trans_lt ((show half < base by decide).trans_le hbase)
    rw [Int.emod_eq_of_lt (by omega) hless] at h
    omega
  refine ⟨hlong, hcases, hqbase, Int.add_one_le_iff.2 (pow_pos (by decide) _),
    pow_le_half (by unfold wordShift at *; omega), ?_⟩
  have hmod : top % 2 ^ q % half = top % half := by
    rw [hqbase, show base = half * 2 from rfl, mul_assoc]
    exact Int.emod_emod_of_dvd top (dvd_mul_right half _)
  rw [hmod]
  rcases hcases with hneg | hhalf
  · rw [if_neg (by unfold half; omega), ← Int.add_emod_right, Int.emod_eq_of_lt (by omega) (by omega)]
    ring
  · rw [if_pos hhalf, hhalf]
    rfl

include hlow hq hmax he in
/-- A negative top digit far below the exponent stays, with the power of two above it. -/
theorem maskTop_high (h : half ≤ top % 2 ^ q) (htop : |top| ≤ half)
    (hnot : ¬(low.length = 3 ∨ top = half ∧ wordShift < q)) :
    Small (maskTop (low ++ [top]) q e) ∧ value base (maskTop (low ++ [top]) q e) = value base (low ++ [top]) % 2 ^ e := by
  obtain ⟨hpow, hlow0, hlow1, hvalue, -⟩ := @value_split low top q e hlow he
  obtain ⟨hlong, hcases, hqbase, hrest, hsmall, hdigit⟩ := high_cases hq h htop
  have hpos : (0 : Int) < base ^ low.length := pow_pos (by decide) _
  have htopBounds := abs_le.1 htop
  have hpair : ∀ d, |d| ≤ half → Small (low ++ [d, 2 ^ (q - wordShift)]) := fun d hd =>
    small_concat_pair hlow hd (by rw [abs_of_pos (by omega)]; exact hsmall) (by omega) (by
      unfold maxSize wordShift at *
      omega)
  unfold maskTop
  rw [topWord_concat, List.dropLast_concat, if_neg (by unfold half at h; omega), if_pos h, hdigit,
    if_neg (by rw [List.length_append, List.length_singleton]; unfold maxSize; omega)]
  refine ⟨hpair _ (by split_ifs; exacts [by decide, htop]), ?_⟩
  rw [value_concat_pair, hvalue]
  split_ifs with hhalf
  · -- one half is carried into the digit above
    have hq' : q = wordShift := by omega
    have hP : base ^ low.length * 1 ≤ base ^ low.length * half := mul_le_mul_of_nonneg_left (by decide) hpos.le
    rw [hpow, hq', Nat.sub_self, pow_zero, hhalf, show (2 : Int) ^ wordShift = 2 * half from rfl, base_eq]
    rw [base_eq] at hP hlow0 hlow1 hpos
    refine (emod_eq_of ?_ ?_ 0 ?_).symm
    · linarith
    · linarith
    · ring
  · have hneg : top < 0 := hcases.resolve_right hhalf
    have hlo := mul_le_mul_of_nonneg_left (show 1 ≤ top + base * 2 ^ (q - wordShift) by unfold half base at *; omega) hpos.le
    have hhi := mul_le_mul_of_nonneg_left (show top + base * 2 ^ (q - wordShift) ≤ 2 ^ q - 1 by omega) hpos.le
    refine (emod_eq_of ?_ ?_ (-1) ?_).symm
    · linarith
    · rw [hpow]
      linarith
    · rw [hpow, hqbase]
      ring

include hlow hq hmax he in
/-- The digits up to the exponent are those of the remainder. -/
theorem maskTop_spec (hzero : top = 0 → low = [] ∨ q < wordShift) (htop : |top| ≤ half)
    (hnot : ¬(wordShift ≤ q ∧ (top < 0 ∨ top = half) ∧ (low.length = 3 ∨ top = half ∧ wordShift < q))) :
    Small (maskTop (low ++ [top]) q e) ∧ value base (maskTop (low ++ [top]) q e) = value base (low ++ [top]) % 2 ^ e := by
  by_cases h0 : top % 2 ^ q = 0
  · exact maskTop_zero hlow he hmax hzero htop h0
  · by_cases h1 : half ≤ top % 2 ^ q
    · obtain ⟨hlong, hcases, -⟩ := high_cases hq h1 htop
      exact maskTop_high hlow hq he hmax h1 htop fun hmiss => hnot ⟨hlong, hcases, hmiss⟩
    · exact maskTop_low hlow he hmax h0 (not_le.1 h1)

end

/-! ## Remainders that are not negative -/

/-- Where the remainder comes out wrong: the exponent is at most eleven bits above the digits, the number is negative (or
begins with one half), and either it has four digits or it begins with one half, which is then taken for a negative digit. -/
def Misses (ds : List Int) (e : Nat) : Prop :=
  (wordShift : Int) ≤ e - (ds.length - 1) * wordShift ∧ (e : Int) - (ds.length - 1) * wordShift < 64 ∧
    (topWord ds < 0 ∨ topWord ds = half) ∧
      (ds.length = 4 ∨ topWord ds = half ∧ (wordShift : Int) < e - (ds.length - 1) * wordShift)

theorem exists_concat {ds : List Int} (h : ds ≠ []) : ∃ low, ds = low ++ [topWord ds] := by
  obtain ⟨top, htop⟩ : ∃ top, ds.getLast? = some top := ⟨_, List.getLast?_eq_some_getLast h⟩
  obtain ⟨low, rfl⟩ := List.getLast?_eq_some_iff.1 htop
  exact ⟨low, by rw [topWord_concat]⟩

section

variable {ds : List Int} {e : Nat} (h : Small ds) (hmax : e ≤ 256)

include h hmax

/-- A negative number far below the exponent gets the power of two above zeros. -/
theorem modPow2_far (hneg : value base ds < 0) (hq : (64 : Int) ≤ e - (ds.length - 1) * wordShift) :
    Small (modPow2 ds e) ∧ value base (modPow2 ds e) = value base ds % 2 ^ e := by
  have hpos := List.length_pos_of_ne_nil h.ne_nil
  have hroom := h.room
  obtain ⟨q, hqe⟩ : ∃ q : Nat, (e : Int) - (ds.length - 1) * wordShift = q :=
    ⟨((e : Int) - (ds.length - 1) * wordShift).toNat, by omega⟩
  have hsgn : ¬sgn ds ≥ 0 := by
    rw [h.sgn_eq_sign, Int.sign_eq_neg_one_of_neg hneg]
    decide
  obtain ⟨n, hn⟩ : ∃ n, q / wordShift = n + 1 := ⟨q / wordShift - 1, by unfold wordShift at *; omega⟩
  have hrem : q % wordShift < wordShift := Nat.mod_lt _ (by decide)
  have hplace : e = q % wordShift + wordShift * (ds.length + n) := by
    unfold wordShift at *
    omega
  have hdrop : (ds ++ List.replicate (n + 1) 0).dropLast = ds ++ List.replicate n 0 := by
    rw [List.replicate_succ', ← List.append_assoc, List.dropLast_concat]
  have hlow : ∀ d ∈ ds ++ List.replicate n 0, |d| ≤ half := by
    intro d hd
    rcases List.mem_append.1 hd with hd | hd
    · exact h.bounds d hd
    · rw [List.eq_of_mem_replicate hd]
      decide
  have hlen : (ds ++ List.replicate n (0 : Int)).length = ds.length + n := by
    rw [List.length_append, List.length_replicate]
  have hpow := two_pow_place hplace
  have hless := abs_lt.1 (lt_pow_of_length h.toBalanced (n := e) (by unfold wordShift at *; omega))
  have hresult : value base ds % 2 ^ e = value base ds + 2 ^ e := emod_eq_of (by omega) (by omega) (-1) (by ring)
  have hhalf := pow_le_half hrem
  have hqpos : (0 : Int) < 2 ^ (q % wordShift) := pow_pos (by decide) _
  have hepos : 0 < e := by
    unfold wordShift at hq
    omega
  unfold modPow2
  rw [if_neg h.ne_nil, if_neg (by omega)]
  dsimp only
  rw [if_pos hq, if_neg hsgn, if_neg (by unfold maxSize wordShift; omega), hqe, Int.toNat_natCast, growTo_eq, hn, hresult]
  dsimp only
  rw [hdrop]
  by_cases hlast : q % wordShift = wordShift - 1 ∧ (ds ++ List.replicate (n + 1) (0 : Int)).length < maxSize
  · rw [if_pos hlast]
    refine ⟨small_concat_pair hlow (by decide) (by decide) (by decide) ?_, ?_⟩
    · have := hlast.2
      rw [List.length_append, List.length_replicate] at this
      rw [hlen]
      omega
    · rw [value_concat_pair, value_append_zeros, hlen, hpow, hlast.1]
      unfold half base wordShift
      ring
  · rw [if_neg hlast]
    refine ⟨small_concat hlow ?_ (fun _ => hqpos.ne') ?_, ?_⟩
    · rw [abs_of_pos hqpos]
      exact hhalf
    · rw [hlen]
      unfold maxSize wordShift at *
      omega
    · rw [value_concat, value_append_zeros, hlen, hpow]
      ring

/-- Elsewhere the remainder is right. -/
theorem modPow2_spec (hnot : ¬Misses ds e) :
    Small (modPow2 ds e) ∧ value base (modPow2 ds e) = value base ds % 2 ^ e := by
  obtain rfl | hpos := Nat.eq_zero_or_pos e
  · unfold modPow2
    rw [if_neg h.ne_nil, if_pos (by omega), pow_zero, Int.emod_one]
    exact ⟨⟨⟨by decide, by decide, by decide⟩, by decide⟩, rfl⟩
  by_cases hfar : (64 : Int) ≤ e - (ds.length - 1) * wordShift
  · by_cases hneg : value base ds < 0
    · exact modPow2_far h hmax hneg hfar
    · have hsgn : sgn ds ≥ 0 := by
        rw [h.sgn_eq_sign, ge_iff_le, Int.sign_nonneg_iff]
        omega
      have hless := abs_lt.1 (lt_pow_of_length h.toBalanced (n := e) (by
        unfold wordShift at *
        omega))
      have hkept : modPow2 ds e = ds := by
        unfold modPow2
        rw [if_neg h.ne_nil, if_neg (by omega)]
        dsimp only
        rw [if_pos hfar, if_pos hsgn]
      rw [hkept, Int.emod_eq_of_lt (by omega) hless.2]
      exact ⟨h, rfl⟩
  · obtain ⟨kept, rest, rem, hcut, hsplit, hne, hrem, hless, hall⟩ :=
      @cutTo_spec ds (e - (ds.length - 1) * wordShift) e h.ne_nil (by ring)
    have hmask : modPow2 ds e = maskTop kept rem e := by
      unfold modPow2
      rw [if_neg h.ne_nil, if_neg (by omega)]
      dsimp only
      rw [if_neg hfar, hcut]
      rfl
    obtain ⟨low, hlow⟩ := exists_concat hne
    generalize htop : topWord kept = top at hlow
    subst hlow
    have hlength : (low ++ [top]).length - 1 = low.length := by rw [List.length_append]; rfl
    rw [hlength] at hrem
    have hbounds : ∀ d ∈ low ++ [top], |d| ≤ half := fun d hd => h.bounds d (by
      rw [hsplit]
      exact List.mem_append_left rest hd)
    -- with nothing cut off the digits are those of the number
    have hsame : rest = [] → topWord ds = top ∧ ds.length = low.length + 1 ∧
        (e : Int) - (ds.length - 1) * wordShift = rem := by
      rintro rfl
      rw [List.append_nil] at hsplit
      rw [hsplit]
      refine ⟨htop, List.length_append, ?_⟩
      rw [List.length_append, List.length_singleton, hrem]
      push_cast
      ring
    have hspec := @maskTop_spec low top rem e (fun d hd => hbounds d (List.mem_append_left _ hd)) (by
        by_cases hrest : rest = []
        · have := (hsame hrest).2.2
          omega
        · have := hless hrest
          unfold wordShift at this
          omega) hrem hmax (by
        intro hzero
        by_cases hrest : rest = []
        · left
          by_contra hlow
          refine h.top ?_ ?_
          · rw [(hsame hrest).2.1]
            have := List.length_pos_of_ne_nil hlow
            omega
          · rw [hsplit, hrest, List.append_nil, List.getLast?_concat, hzero]
        · exact .inr (hless hrest)) (hbounds top (List.mem_append_right _ (List.mem_singleton_self top))) (by
        rintro ⟨hlong, hcases, hmiss⟩
        have hrest : rest = [] := by
          by_contra hrest
          exact absurd (hless hrest) (by omega)
        obtain ⟨htopSame, hlengthSame, hq⟩ := hsame hrest
        refine hnot ⟨?_, ?_, ?_, ?_⟩
        · rw [hq]
          exact_mod_cast hlong
        · omega
        · rw [htopSame]
          exact hcases
        · rw [htopSame, hlengthSame, ← hlengthSame, hq]
          rcases hmiss with hthree | ⟨hhalf, hlt⟩
          · exact .inl (by omega)
          · exact .inr ⟨hhalf, by exact_mod_cast hlt⟩)
    rw [hmask]
    refine ⟨hspec.1, ?_⟩
    rw [hspec.2]
    -- what was cut off is a multiple
    have hdvd : (2 : Int) ^ e ∣ base ^ (low ++ [top]).length * value base rest := by
      by_cases hrest : rest = []
      · rw [hrest, value_nil, mul_zero]
        exact dvd_zero _
      · refine dvd_mul_of_dvd_left ?_ _
        rw [base_pow]
        refine pow_dvd_pow 2 ?_
        have := hless hrest
        rw [List.length_append, List.length_singleton, hrem]
        unfold wordShift at *
        omega
    have hvalue : value base ds = value base (low ++ [top]) + base ^ (low ++ [top]).length * value base rest := by
      rw [hsplit, value_append]
    obtain ⟨t, ht⟩ := hdvd
    rw [hvalue, ht, Int.add_mul_emod_self_left]

/-- Where it misses, the remainder is not valid or that of another number. -/
theorem modPow2_of_misses (hmiss : Misses ds e) :
    modPow2 ds e = [] ∨ Small (modPow2 ds e) ∧ value base (modPow2 ds e) % 2 ^ e ≠ value base ds % 2 ^ e := by
  obtain ⟨hlong, hless, hcases, hwrong⟩ := hmiss
  obtain ⟨kept, rest, rem, hcut, hsplit, hne, hrem, -, hall⟩ :=
    @cutTo_spec ds (e - (ds.length - 1) * wordShift) e h.ne_nil (by ring)
  obtain rfl := hall ((by decide : (0 : Int) ≤ wordShift).trans hlong)
  rw [List.append_nil] at hsplit
  subst hsplit
  have hpos := List.length_pos_of_ne_nil hne
  have hmask : modPow2 ds e = maskTop ds rem e := by
    unfold modPow2
    rw [if_neg hne, if_neg (by unfold wordShift at *; omega)]
    dsimp only
    rw [if_neg (not_le.2 hless), hcut]
    rfl
  have hq : (e : Int) - (ds.length - 1) * wordShift = rem := by
    rw [hrem]
    push_cast [show 1 ≤ ds.length by omega]
    ring
  rw [hq] at hlong hless hwrong
  rw [hmask]
  obtain ⟨low, hlow⟩ := exists_concat hne
  generalize htop : topWord ds = top at hlow hcases hwrong
  subst hlow
  have hlowBounds : ∀ d ∈ low, |d| ≤ half := fun d hd => h.bounds d (List.mem_append_left _ hd)
  have htopBounds := h.bounds top (List.mem_append_right _ (List.mem_singleton_self top))
  have hlength : (low ++ [top]).length = low.length + 1 := List.length_append
  rw [hlength] at hrem hwrong
  have hlong' : wordShift ≤ rem := by exact_mod_cast hlong
  have hbase : base ≤ 2 ^ rem := pow_le_pow_right₀ (show (1 : Int) ≤ 2 by decide) hlong'
  have hqpos : (0 : Int) < 2 ^ rem := pow_pos (by decide) _
  have hhigh : half ≤ top % 2 ^ rem := by
    have hb := abs_le.1 htopBounds
    rcases hcases with hneg | hhalf
    · have hadd : top % 2 ^ rem = top + 2 ^ rem := emod_eq_of (by unfold half base at *; omega) (by omega) (-1) (by ring)
      rw [hadd]
      unfold half base at *
      omega
    · rw [hhalf, Int.emod_eq_of_lt (by decide) ((show half < base by decide).trans_le hbase)]
  obtain ⟨-, -, hqbase, hrest, -, hdigit⟩ := high_cases (by omega) hhigh htopBounds
  unfold maskTop
  rw [topWord_concat, List.dropLast_concat, if_neg (by unfold half at hhigh; omega), if_pos hhigh, hdigit, hlength]
  by_cases hfour : low.length + 1 = maxSize - 1
  · rw [if_pos hfour]
    exact .inl rfl
  · right
    obtain ⟨hhalf, hlarge⟩ := hwrong.resolve_left hfour
    obtain ⟨hpow, hlow0, hlow1, hvalue, -⟩ := @value_split low top rem e hlowBounds (by
      rw [hrem]
      rfl)
    have hP : (0 : Int) < base ^ low.length := pow_pos (by decide) _
    have hmore : 4 * half ≤ 2 ^ rem := by
      have hle := pow_le_pow_right₀ (show (1 : Int) ≤ 2 by decide) (show wordShift + 1 ≤ rem by omega)
      exact hle
    have hsmall := small_concat_pair hlowBounds (show |(-half)| ≤ half by decide)
      (show |(2 : Int) ^ (rem - wordShift)| ≤ half by
        rw [abs_of_pos (by omega)]
        exact pow_le_half (by unfold wordShift at *; omega)) (by omega) (by
        unfold maxSize wordShift at *
        omega)
    rw [if_neg hfour, if_pos hhalf]
    refine ⟨hsmall, ?_⟩
    rw [value_concat_pair, hvalue, hhalf, ← hqbase]
    generalize base ^ low.length = P at hP hpow hlow0 hlow1 ⊢
    generalize value base low = L at hlow0 hlow1 ⊢
    have hmul := mul_le_mul_of_nonneg_left hmore hP.le
    have hlowHalf := mul_le_mul_of_nonneg_left (show (1 : Int) ≤ half by decide) hP.le
    have hexact : (L + P * half) % 2 ^ e = L + P * half := by
      refine Int.emod_eq_of_lt (by linarith) ?_
      rw [hpow]
      linarith
    have hother : (L + P * (-half + 2 ^ rem)) % 2 ^ e = L + P * (-half + 2 ^ rem) := by
      refine Int.emod_eq_of_lt (by linarith) ?_
      rw [hpow]
      linarith
    rw [hexact, hother]
    intro hcontra
    linarith

end

/-! ## Numbers that a power of two is added to -/

theorem setPow2_denotes {e : Nat} (hmax : e ≤ 256) : Denotes (setPow2 e) (2 ^ e) := by
  have hrem : e % wordShift < wordShift := Nat.mod_lt _ (by decide)
  have hplace : e = e % wordShift + wordShift * (List.replicate (e / wordShift) (0 : Int)).length := by
    rw [List.length_replicate]
    exact (Nat.mod_add_div e wordShift).symm
  have hpow := two_pow_place hplace
  have hlow : ∀ d ∈ List.replicate (e / wordShift) (0 : Int), |d| ≤ half := by
    intro d hd
    rw [List.eq_of_mem_replicate hd]
    decide
  have hhalf := pow_le_half hrem
  have hqpos : (0 : Int) < 2 ^ (e % wordShift) := pow_pos (by decide) _
  have hword : word (2 ^ (e % wordShift)) = 2 ^ (e % wordShift) := by
    unfold half at hhalf
    exact word_of_fits (by omega) (by omega)
  have hlarge : |(2 : Int) ^ e| < 4 * 2 ^ 256 := by
    rw [abs_of_pos (pow_pos (by decide) _)]
    have := pow_le_pow_right₀ (show (1 : Int) ≤ 2 by decide) hmax
    linarith [pow_pos (show (0 : Int) < 2 by decide) 256]
  have hset : Small (setPow2 e) ∧ value base (setPow2 e) = 2 ^ e := by
    unfold setPow2
    rw [if_neg (by unfold maxSize wordShift; omega), Int.toNat_natCast]
    dsimp only
    by_cases hlast : e % wordShift = wordShift - 1 ∧ e / wordShift + 1 < maxSize
    · rw [if_pos hlast]
      refine ⟨small_concat_pair hlow (by decide) (by decide) (by decide) ?_, ?_⟩
      · rw [List.length_replicate]
        exact hlast.2
      · rw [value_concat_pair, value_replicate_zero, hpow, hlast.1]
        unfold half base wordShift
        ring
    · rw [if_neg hlast, hword]
      refine ⟨small_concat hlow ?_ (fun _ => hqpos.ne') ?_, ?_⟩
      · rw [abs_of_pos hqpos]
        exact hhalf
      · rw [List.length_replicate]
        unfold maxSize wordShift
        omega
      · rw [value_concat, value_replicate_zero, hpow]
        ring
  have hdenotes := hset.1.denotes (by rw [hset.2]; exact hlarge)
  rwa [hset.2] at hdenotes

section

variable (shift : IntShift) {ds : List Int} {e : Nat} (h : Small ds) (hmax : e ≤ 256)

include h hmax

/-- The shifted factor is added at the place of the power. -/
theorem addPow2_spec (factor : Int) :
    addPow2 shift ds e factor ≠ [] ∧ (addPow2 shift ds e factor).length ≤ maxSize ∧
      (∀ d ∈ addPow2 shift ds e factor, -4611686018427387904 ≤ d ∧ d ≤ 4611686018427387904) ∧
      value base (addPow2 shift ds e factor) =
        value base ds + base ^ (e / wordShift) * shift.shl factor (e % wordShift) := by
  obtain ⟨hs0, hs1⟩ := shift.bounds factor (e % wordShift)
  have hroom := h.room
  obtain ⟨padded, hpadded⟩ : ∃ padded, padded = ds ++ List.replicate (e / wordShift + 1 - ds.length) 0 := ⟨_, rfl⟩
  have hlong : e / wordShift < padded.length := by
    rw [hpadded, List.length_append, List.length_replicate]
    omega
  have hbounds : ∀ d ∈ padded, |d| ≤ half := by
    intro d hd
    rw [hpadded] at hd
    rcases List.mem_append.1 hd with hd | hd
    · exact h.bounds d hd
    · rw [List.eq_of_mem_replicate hd]
      decide
  have hvalue : value base padded = value base ds := by rw [hpadded, value_append_zeros]
  have hlength : padded.length ≤ maxSize := by
    rw [hpadded, List.length_append, List.length_replicate]
    unfold maxSize wordShift at *
    omega
  have hmem : padded.getD (e / wordShift) 0 ∈ padded := by
    rw [List.getD_eq_getElem _ _ hlong]
    exact List.getElem_mem hlong
  have hd := abs_le.1 (hbounds _ hmem)
  unfold half at hd
  have hword : word (padded.getD (e / wordShift) 0 + shift.shl factor (e % wordShift)) =
      padded.getD (e / wordShift) 0 + shift.shl factor (e % wordShift) := word_of_fits (by omega) (by omega)
  have hadd : addPow2 shift ds e factor =
      padded.set (e / wordShift) (padded.getD (e / wordShift) 0 + shift.shl factor (e % wordShift)) := by
    unfold addPow2
    rw [if_neg (by unfold maxSize wordShift; omega), if_neg h.ne_nil, Int.toNat_natCast]
    dsimp only
    rw [← hpadded, hword]
  rw [hadd]
  refine ⟨?_, ?_, ?_, ?_⟩
  · rw [← List.length_pos_iff, List.length_set]
    exact Nat.zero_lt_of_lt hlong
  · rw [List.length_set]
    exact hlength
  · intro d hset
    rcases List.mem_or_eq_of_mem_set hset with hset | hset
    · have := abs_le.1 (hbounds d hset)
      unfold half at this
      omega
    · rw [hset]
      omega
  · rw [List.set_eq_take_append_cons_drop, if_pos hlong, value_append, value_cons, List.length_take, Nat.min_eq_left hlong.le,
      ← hvalue, value_take_drop padded hlong.le, drop_eq_getD hlong, value_cons]
    ring

/-- So the power is added exactly if the factor is shifted without loss. -/
theorem addPow2_denotes_iff {factor : Int} (hvalue : |value base ds| ≤ 2 ^ 256) (hfactor : |factor| = 1) :
    Denotes (addPow2 shift ds e factor) (value base ds + factor * 2 ^ e) ↔
      shift.shl factor (e % wordShift) = factor * 2 ^ (e % wordShift) := by
  obtain ⟨hne, hlength, hbounds, hsum⟩ := addPow2_spec shift h hmax factor
  have hpow := two_pow_split e
  have hb : (0 : Int) < base ^ (e / wordShift) := pow_pos (by decide) _
  constructor
  · intro hdenotes
    have heq := hdenotes.denoted
    rw [hsum, hpow] at heq
    refine mul_left_cancel₀ hb.ne' ?_
    linarith
  · intro hexact
    have hresult : value base (addPow2 shift ds e factor) = value base ds + factor * 2 ^ e := by
      rw [hsum, hexact, hpow]
      ring
    have hle := pow_le_pow_right₀ (show (1 : Int) ≤ 2 by decide) hmax
    have hdenotes := denotes_of_bounds hne hlength hbounds (by
      rw [hresult]
      refine (abs_add_le _ _).trans_lt ?_
      rw [abs_mul, hfactor, one_mul, abs_of_pos (pow_pos (show (0 : Int) < 2 by decide) e)]
      linarith [pow_pos (show (0 : Int) < 2 by decide) 256])
    rwa [hresult] at hdenotes

end

/-- One is shifted without loss up to the thirtieth place, and minus one up to the next. -/
theorem shl_one_iff (shift : IntShift) (n : Nat) : shift.shl 1 n = 1 * 2 ^ n ↔ n ≤ 30 := by
  constructor
  · intro hexact
    obtain ⟨-, h1⟩ := shift.bounds 1 n
    by_contra hlarge
    have := pow_le_pow_right₀ (show (1 : Int) ≤ 2 by decide) (show 31 ≤ n by omega)
    norm_num at this
    omega
  · intro hle
    rw [shift.exact 1 n (by omega)]
    have := pow_le_pow_right₀ (show (1 : Int) ≤ 2 by decide) hle
    have hpos := pow_pos (show (0 : Int) < 2 by decide) n
    norm_num at this
    unfold int32
    omega

theorem shl_neg_one_iff (shift : IntShift) (n : Nat) : shift.shl (-1) n = -1 * 2 ^ n ↔ n ≤ 31 := by
  constructor
  · intro hexact
    obtain ⟨h0, -⟩ := shift.bounds (-1) n
    by_contra hlarge
    have := pow_le_pow_right₀ (show (1 : Int) ≤ 2 by decide) (show 32 ≤ n by omega)
    norm_num at this
    omega
  · intro hle
    rw [shift.exact (-1) n (by omega)]
    have := pow_le_pow_right₀ (show (1 : Int) ≤ 2 by decide) hle
    have hpos := pow_pos (show (0 : Int) < 2 by decide) n
    norm_num at this
    unfold int32
    omega

/-! ## Remainders in every mode -/

/-- A valid number, the only one congruent to `v` in a range. -/
def ReducesTo (ds : List Int) (v : Int) (e : Nat) (range : Int → Prop) : Prop :=
  ∃ r, Denotes ds r ∧ r ≡ v [ZMOD 2 ^ e] ∧ range r ∧ ∀ s, s ≡ v [ZMOD 2 ^ e] → range s → s = r

theorem eq_of_modEq {r s v m : Int} (hs : s ≡ v [ZMOD m]) (hr : r ≡ v [ZMOD m]) (h0 : -m < s - r) (h1 : s - r < m) : s = r :=
  sub_eq_zero.1 (Int.eq_zero_of_abs_lt_dvd (hr.trans hs.symm).dvd (abs_lt.2 ⟨h0, h1⟩))

section

variable {ds : List Int} {e : Nat}

theorem negate_eq (h : ∀ d ∈ ds, |d| ≤ half) : negate ds = ds.map Neg.neg := by
  refine List.map_congr_left fun d hd => ?_
  have hd := abs_le.1 (h d hd)
  unfold half at hd
  exact word_of_fits (by omega) (by omega)

theorem Small.neg (h : Small ds) : Small (negate ds) ∧ value base (negate ds) = -value base ds := by
  rw [negate_eq h.bounds]
  exact ⟨⟨h.toBalanced.neg, by rw [List.length_map]; exact h.room⟩, value_map_neg ds⟩

theorem two_pow_le (hmax : e ≤ 256) : (2 : Int) ^ e ≤ 2 ^ 256 := pow_le_pow_right₀ (by decide) hmax

/-- Rounded down. -/
theorem modPow2_reduces_iff (h : Small ds) (hmax : e ≤ 256) :
    ReducesTo (modPow2 ds e) (value base ds) e (fun r => 0 ≤ r ∧ r < 2 ^ e) ↔ ¬Misses ds e := by
  have hpos : (0 : Int) < 2 ^ e := pow_pos (by decide) e
  constructor
  · rintro ⟨r, hr, hcongr, ⟨h0, h1⟩, -⟩ hmiss
    rcases modPow2_of_misses h hmax hmiss with hnone | ⟨-, hne⟩
    · exact hr.ne_nil hnone
    · rw [hr.denoted] at hne
      exact hne hcongr
  · intro hnot
    obtain ⟨hsmall, hvalue⟩ := modPow2_spec h hmax hnot
    have h0 := Int.emod_nonneg (value base ds) hpos.ne'
    have h1 := Int.emod_lt_of_pos (value base ds) hpos
    have hdenotes := hsmall.denotes (by
      rw [hvalue, abs_of_nonneg h0]
      linarith [two_pow_le hmax])
    rw [hvalue] at hdenotes
    exact ⟨_, hdenotes, Int.mod_modEq _ _, ⟨h0, h1⟩, fun s hs hrange =>
      eq_of_modEq hs (Int.mod_modEq _ _) (by omega) (by omega)⟩

/-- Rounded up: the remainder of the number with the other sign. -/
theorem modPow2_up_reduces_iff (shift : IntShift) (h : Small ds) (hmax : e ≤ 256) :
    ReducesTo (modPow2Round shift ds e 1) (value base ds) e (fun r => -(2 ^ e) < r ∧ r ≤ 0) ↔ ¬Misses (negate ds) e := by
  have hpos : (0 : Int) < 2 ^ e := pow_pos (by decide) e
  obtain ⟨hneg, hnegValue⟩ := h.neg
  obtain rfl | hepos := Nat.eq_zero_or_pos e
  · have hzero : modPow2Round shift ds (0 : Nat) 1 = [0] := by
      unfold modPow2Round
      rw [if_neg (by decide), if_neg h.ne_nil, if_pos (by decide)]
    rw [hzero]
    refine iff_of_true ⟨0, ?_, Int.modEq_one, ⟨by decide, le_refl 0⟩, fun s hs hrange => by omega⟩ ?_
    · have hsmall : Small [0] := ⟨⟨by decide, by decide, by decide⟩, by decide⟩
      exact hsmall.denotes (by decide)
    · rintro ⟨hlong, -⟩
      have := List.length_pos_of_ne_nil hneg.ne_nil
      unfold wordShift at hlong
      omega
  have hround : modPow2Round shift ds e 1 = negate (modPow2 (negate ds) e) := by
    unfold modPow2Round
    rw [if_neg (by decide), if_neg h.ne_nil, if_neg (by omega), if_pos (by decide)]
  rw [hround]
  constructor
  · rintro ⟨r, hr, hcongr, ⟨h0, h1⟩, -⟩ hmiss
    rcases modPow2_of_misses hneg hmax hmiss with hnone | ⟨hsmall, hne⟩
    · rw [hnone] at hr
      exact hr.ne_nil rfl
    · obtain ⟨-, hback⟩ := hsmall.neg
      rw [hr.denoted] at hback
      have hrest : value base (modPow2 (negate ds) e) = -r := by omega
      rw [hrest, hnegValue] at hne
      exact hne hcongr.neg
  · intro hnot
    obtain ⟨hsmall, hvalue⟩ := modPow2_spec hneg hmax hnot
    obtain ⟨hback, hbackValue⟩ := hsmall.neg
    rw [hvalue, hnegValue] at hbackValue
    have h0 := Int.emod_nonneg (-value base ds) hpos.ne'
    have h1 := Int.emod_lt_of_pos (-value base ds) hpos
    have hdenotes := hback.denotes (by
      rw [hbackValue, abs_neg, abs_of_nonneg h0]
      linarith [two_pow_le hmax])
    rw [hbackValue] at hdenotes
    have hmod := (Int.mod_modEq (-value base ds) (2 ^ e)).neg
    rw [neg_neg] at hmod
    exact ⟨_, hdenotes, hmod, ⟨by omega, by omega⟩, fun s hs hrange => eq_of_modEq hs hmod (by omega) (by omega)⟩

/-- Rounded to the nearest: a number in the range stays, and from a large remainder the power of two is taken. -/
theorem modPow2_nearest_reduces_iff (shift : IntShift) (h : Small ds) (hmax : e ≤ 256) (hvalue : |value base ds| ≤ 2 ^ 256) :
    ReducesTo (modPow2Round shift ds e 0) (value base ds) e (FitsSigned · e) ↔
      FitsSigned (value base ds) e ∨
        ¬Misses ds e ∧ (2 ^ e ≤ 2 * (value base ds % 2 ^ e) → e % wordShift ≤ 31) := by
  have hpos : (0 : Int) < 2 ^ e := pow_pos (by decide) e
  obtain rfl | hepos := Nat.eq_zero_or_pos e
  · have hzero : modPow2Round shift ds (0 : Nat) 0 = [0] := by
      unfold modPow2Round
      rw [if_neg (by decide), if_neg h.ne_nil, if_pos (by decide)]
    rw [hzero]
    refine iff_of_true ⟨0, ?_, Int.modEq_one, ⟨by decide, by decide⟩, fun s hs hrange => ?_⟩ (.inr ⟨?_, fun _ => by decide⟩)
    · have hsmall : Small [0] := ⟨⟨by decide, by decide, by decide⟩, by decide⟩
      exact hsmall.denotes (by decide)
    · exact (fitsSigned_zero s).1 hrange
    · rintro ⟨hlong, -⟩
      have := List.length_pos_of_ne_nil h.ne_nil
      unfold wordShift at hlong
      omega
  have hround : modPow2Round shift ds e 0 = if signedFitsBits ds e then ds else
      if modPow2 ds e = [] then []
      else if unsignedFitsBits (modPow2 ds e) ((e - 1 : Nat) : Int) then modPow2 ds e
      else addPow2 shift (modPow2 ds e) e (-1) := by
    unfold modPow2Round
    rw [if_neg (by decide), if_neg h.ne_nil, if_neg (by omega), if_neg (by decide), Nat.cast_sub hepos]
    rfl
  rw [hround]
  by_cases hfits : FitsSigned (value base ds) e
  · rw [if_pos ((signedFitsBits_iff h.toBalanced e).2 hfits)]
    obtain ⟨h0, h1⟩ := hfits
    refine iff_of_true ⟨_, h.denotes ?_, rfl, ⟨h0, h1⟩, fun s hs hrange => ?_⟩ (.inl ⟨h0, h1⟩)
    swap
    · obtain ⟨hs0, hs1⟩ := hrange
      exact eq_of_modEq hs rfl (by omega) (by omega)
    refine hvalue.trans_lt ?_
    linarith [pow_pos (show (0 : Int) < 2 by decide) 256]
  rw [if_neg fun hsigned => hfits ((signedFitsBits_iff h.toBalanced e).1 hsigned), or_iff_right hfits]
  have htwice : (2 : Int) ^ e = 2 * 2 ^ (e - 1) := by
    rw [← pow_succ', Nat.sub_add_cancel hepos]
  by_cases hmiss : Misses ds e
  · rw [iff_false_right fun hright => hright.1 hmiss]
    rintro ⟨r, hr, hcongr, -, -⟩
    rcases modPow2_of_misses h hmax hmiss with hnone | ⟨hsmall, hne⟩
    · rw [if_pos hnone] at hr
      exact hr.ne_nil rfl
    rw [if_neg hsmall.ne_nil] at hr
    split_ifs at hr
    · rw [hr.denoted] at hne
      exact hne hcongr
    · -- the shift is small there
      have hrem : e % wordShift ≤ 31 := by
        obtain ⟨hlong, hless, -⟩ := hmiss
        unfold wordShift at *
        omega
      obtain ⟨-, -, -, hsum⟩ := addPow2_spec shift hsmall hmax (-1)
      rw [hr.denoted, (shl_neg_one_iff shift _).2 hrem, mul_left_comm, ← two_pow_split] at hsum
      have hback : r % 2 ^ e = value base (modPow2 ds e) % 2 ^ e := by
        rw [hsum, neg_one_mul, ← sub_eq_add_neg, Int.sub_emod_right]
      exact hne (hback.symm.trans hcongr)
  obtain ⟨hsmall, hrest⟩ := modPow2_spec h hmax hmiss
  have h0 := Int.emod_nonneg (value base ds) hpos.ne'
  have h1 := Int.emod_lt_of_pos (value base ds) hpos
  have hle := two_pow_le hmax
  rw [if_neg hsmall.ne_nil]
  by_cases hlow : 2 * (value base ds % 2 ^ e) < 2 ^ e
  · rw [if_pos ((unsignedFitsBits_iff hsmall.toBalanced (e - 1)).2 (by rw [hrest]; omega))]
    have hdenotes := hsmall.denotes (by
      rw [hrest, abs_of_nonneg h0]
      linarith)
    rw [hrest] at hdenotes
    refine iff_of_true ⟨_, hdenotes, Int.mod_modEq _ _, ⟨by omega, hlow⟩, fun s hs hrange => ?_⟩
      ⟨hmiss, fun hlarge => absurd hlow (not_lt.2 hlarge)⟩
    obtain ⟨hs0, hs1⟩ := hrange
    exact eq_of_modEq hs (Int.mod_modEq _ _) (by omega) (by omega)
  · rw [if_neg fun hunsigned => hlow (by
      have := ((unsignedFitsBits_iff hsmall.toBalanced (e - 1)).1 hunsigned).2
      rw [hrest] at this
      omega)]
    have hbound : |value base (modPow2 ds e)| ≤ 2 ^ 256 := by
      rw [hrest, abs_of_nonneg h0]
      exact (h1.trans_le hle).le
    have hadd := addPow2_denotes_iff shift hsmall hmax hbound (show |(-1 : Int)| = 1 by decide)
    rw [hrest, shl_neg_one_iff] at hadd
    have hless : value base ds % 2 ^ e + -1 * 2 ^ e ≡ value base ds [ZMOD 2 ^ e] := by
      rw [neg_one_mul, ← sub_eq_add_neg]
      exact (Int.sub_emod_right _ _).trans (Int.emod_emod _ _)
    constructor
    · rintro ⟨r, hr, hcongr, hrange, -⟩
      refine ⟨hmiss, fun _ => hadd.1 ?_⟩
      obtain ⟨hr0, hr1⟩ := hrange
      rw [← eq_of_modEq hcongr hless (by omega) (by omega)]
      exact hr
    · rintro ⟨-, hright⟩
      refine ⟨_, hadd.2 (hright (not_lt.1 hlow)), hless, ⟨by omega, by omega⟩, fun s hs hrange => ?_⟩
      obtain ⟨hs0, hs1⟩ := hrange
      exact eq_of_modEq hs hless (by omega) (by omega)

end

/-! ## All of them -/

/-- What the routines give for `x` and the exponent `e`. -/
structure PowersRight (shift : IntShift) (x : List Int) (e : Nat) : Prop where
  floor : ReducesTo (modPow2 x e) (value base x) e (fun r => 0 ≤ r ∧ r < 2 ^ e)
  up : ReducesTo (modPow2Round shift x e 1) (value base x) e (fun r => -(2 ^ e) < r ∧ r ≤ 0)
  nearest : ReducesTo (modPow2Round shift x e 0) (value base x) e (FitsSigned · e)
  add : Denotes (addPow2 shift x e 1) (value base x + 2 ^ e)
  sub : Denotes (addPow2 shift x e (-1)) (value base x - 2 ^ e)
  set : Denotes (setPow2 e) (2 ^ e)

/-- Where nothing goes wrong: the power fits an `int` within its digit, four digits are not reduced by a power just above
them, and neither is a number whose top digit is the least one. -/
structure Regular (x : List Int) (e : Nat) : Prop where
  shift : e % wordShift ≤ 30
  four : x.length = 4 → e < 208 ∨ 220 ≤ e
  least : topWord x = -half → e ≤ wordShift * x.length ∨ 64 + wordShift * (x.length - 1) ≤ e

theorem topWord_negate {x : List Int} (h : Small x) : topWord (negate x) = -topWord x := by
  obtain ⟨low, hlow⟩ := exists_concat h.ne_nil
  rw [negate_eq h.bounds, hlow, List.map_append, List.map_singleton, topWord_concat, topWord_concat]

/-- A number misses with one of the two signs where a digit is missing, or where one half is taken for a negative digit. -/
theorem misses_iff {x : List Int} {e : Nat} (hx : Normal half x) (h : Small x) :
    ¬Misses x e ∧ ¬Misses (negate x) e ↔
      (x.length = 4 → e < 208 ∨ 220 ≤ e) ∧
        (topWord x = -half → e ≤ wordShift * x.length ∨ 64 + wordShift * (x.length - 1) ≤ e) := by
  have hpos := List.length_pos_of_ne_nil h.ne_nil
  have hlength : (negate x).length = x.length := List.length_map ..
  obtain ⟨top, htop⟩ := hx.exists_top
  have hword := topWord_of_getLast? htop
  have hless : topWord x < half := by
    rw [hword]
    exact (hx.inRange top (List.mem_of_getLast? htop)).2
  have hfour : x.length = 4 → topWord x ≠ 0 := by
    intro hlong hzero
    rw [hword] at hzero
    exact hx.top (by omega) (htop.trans (by rw [hzero]))
  unfold Misses
  rw [hlength, topWord_negate h]
  unfold half wordShift at *
  omega

/-- All of them are right exactly there. -/
theorem powers_right_iff (shift : IntShift) {x : List Int} {e : Nat} (hx : Normal half x) (hroom : x.length ≤ maxSize)
    (hvalue : -(2 ^ 256) ≤ value base x ∧ value base x < 2 ^ 256) (hmax : e ≤ 256) :
    PowersRight shift x e ↔ Regular x e := by
  have h : Small x := ⟨balanced_of_normal hx, hroom⟩
  have habs : |value base x| ≤ 2 ^ 256 := abs_le.2 ⟨hvalue.1, hvalue.2.le⟩
  have hmisses := misses_iff (e := e) hx h
  have hadd := addPow2_denotes_iff shift h hmax habs (show |(1 : Int)| = 1 by decide)
  have hsub := addPow2_denotes_iff shift h hmax habs (show |(-1 : Int)| = 1 by decide)
  rw [shl_one_iff, one_mul] at hadd
  rw [shl_neg_one_iff, neg_one_mul, ← sub_eq_add_neg] at hsub
  constructor
  · intro hright
    obtain ⟨hfour, hleast⟩ := hmisses.1
      ⟨(modPow2_reduces_iff h hmax).1 hright.floor, (modPow2_up_reduces_iff shift h hmax).1 hright.up⟩
    exact ⟨hadd.1 hright.add, hfour, hleast⟩
  · rintro ⟨hshift, hfour, hleast⟩
    obtain ⟨hdown, hup⟩ := hmisses.2 ⟨hfour, hleast⟩
    exact {
      floor := (modPow2_reduces_iff h hmax).2 hdown
      up := (modPow2_up_reduces_iff shift h hmax).2 hup
      nearest := (modPow2_nearest_reduces_iff shift h hmax habs).2 (.inr ⟨hdown, fun _ => by omega⟩)
      add := hadd.2 hshift
      sub := hsub.2 (by omega)
      set := setPow2_denotes hmax }

namespace PowerSample

theorem int32_bounds (x : Int) : -2147483648 ≤ int32 x ∧ int32 x < 2147483648 := by
  unfold int32
  omega

theorem shl_exact (x : Int) (n : Nat) (h : n < 32) : int32 (x * 2 ^ (n % 32)) = int32 (x * 2 ^ n) := by
  rw [Nat.mod_eq_of_lt h]

/-- A shift that takes its count modulo the width. -/
def shift : IntShift where
  shl := fun x n => int32 (x * 2 ^ (n % 32))
  bounds := fun _ _ => int32_bounds _
  exact := shl_exact

/-- Minus five modulo two to the tenth. -/
theorem powers_right_ten : PowersRight shift [-5] 10 :=
  (powers_right_iff shift ⟨by decide, by decide, by decide⟩ (by decide) (by decide) (by decide)).2
    ⟨by decide, fun h => absurd h (by decide), fun h => absurd h (by decide)⟩

/-- Minus two to the two hundredth has no remainder by two to the two hundred and tenth. -/
theorem not_powers_right :
    ¬∀ (shift : IntShift) (x : List Int) (e : Nat), Normal half x → x.length ≤ maxSize →
      -(2 ^ 256) ≤ value base x ∧ value base x < 2 ^ 256 → e ≤ 256 → PowersRight shift x e := by
  intro h
  have hright := h shift [0, 0, 0, -17592186044416] 210 ⟨by decide, by decide, by decide⟩ (by decide) (by decide) (by decide)
  obtain ⟨r, hr, -⟩ := hright.floor
  have hnone : modPow2 [0, 0, 0, -17592186044416] (210 : Nat) = [] := by decide +kernel
  exact hr.ne_nil hnone

end PowerSample

end TonWallet.Td.BigInt
