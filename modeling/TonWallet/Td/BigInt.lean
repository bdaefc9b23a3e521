/-
Wide integers: at most five digits of 52 bits in machine words, the least first, and no digit where a number is not
valid. The operations work on the words as they are, so what does not fit a word wraps; a number becomes normal only
where it is normalized.
-/
import TonWallet.Lib.BalancedDigits
import Mathlib.Data.List.TakeWhile
import Mathlib.Tactic.LinearCombination

namespace TonWallet.Td.BigInt

open Lib.BalancedDigits

def wordShift : Nat := 52

def base : Int := 4503599627370496

def half : Int := 2251799813685248

def maxDenorm : Int := 2048

/-- The digits there is room for. -/
def maxSize : Nat := 5

/-- A machine word with a sign, of 64 bits. -/
def word (x : Int) : Int := (x + 9223372036854775808) % 18446744073709551616 - 9223372036854775808

theorem base_eq : base = 2 * half := rfl

theorem word_of_fits {x : Int} (h0 : -9223372036854775808 ≤ x) (h1 : x < 9223372036854775808) : word x = x := by
  unfold word
  omega

theorem word_bounds (x : Int) : -9223372036854775808 ≤ word x ∧ word x < 9223372036854775808 := by
  unfold word
  omega

/-- What does not fit and is not negative comes out too small, by a multiple of all there are words. -/
theorem word_le_sub {x : Int} (h : 9223372036854775808 ≤ x) : word x ≤ x - 18446744073709551616 := by
  unfold word
  omega

/-! ## Normalization -/

/-- The digits brought around zero from the lowest up, and what is left to carry. -/
def carryOver : Int → List Int → List Int × Int
  | val, [] => ([], val)
  | val, d :: ds =>
    let val := word (val + (d + half))
    let above := carryOver (val / base) ds
    ((val % base - half) :: above.1, above.2)

theorem length_carryOver (val : Int) (ds : List Int) : (carryOver val ds).1.length = ds.length := by
  induction ds generalizing val with
  | nil => rfl
  | cons d ds ih => simp only [carryOver, List.length_cons, ih]

theorem inRange_carryOver {val d : Int} {ds : List Int} (hd : d ∈ (carryOver val ds).1) : InRange half d := by
  induction ds generalizing val with
  | nil => cases hd
  | cons e ds ih =>
    rcases List.mem_cons.1 hd with rfl | hd
    · unfold InRange half base
      omega
    · exact ih hd

/-- What is carried past a digit is small. -/
theorem carry_bounds {val : Int} {ds : List Int} (hval : -2048 ≤ val ∧ val ≤ 2048) :
    -2048 ≤ (carryOver val ds).2 ∧ (carryOver val ds).2 ≤ 2048 := by
  induction ds generalizing val with
  | nil => exact hval
  | cons d ds ih =>
    refine ih ?_
    have := word_bounds (val + (d + half))
    unfold base
    omega

/-- No sum of a digit and what is carried to it leaves a word. -/
def CarryFits : Int → List Int → Prop
  | _, [] => True
  | val, d :: ds =>
    -9223372036854775808 ≤ val + (d + half) ∧ val + (d + half) < 9223372036854775808 ∧
      CarryFits ((val + (d + half)) / base) ds

theorem carryFits_of_bounds {val : Int} {ds : List Int} (hval : -2048 ≤ val ∧ val ≤ 2048)
    (hds : ∀ d ∈ ds, -4611686018427387904 ≤ d ∧ d ≤ 4611686018427387904) : CarryFits val ds := by
  induction ds generalizing val with
  | nil => trivial
  | cons d ds ih =>
    have hd := hds d List.mem_cons_self
    refine ⟨by unfold half; omega, by unfold half; omega, ih ?_ fun e he => hds e (List.mem_cons_of_mem d he)⟩
    unfold half base
    omega

theorem value_carryOver {val : Int} {ds : List Int} (hfits : CarryFits val ds) :
    value base (carryOver val ds).1 + base ^ ds.length * (carryOver val ds).2 = val + value base ds := by
  induction ds generalizing val with
  | nil => simp [carryOver]
  | cons d ds ih =>
    obtain ⟨h0, h1, habove⟩ := hfits
    have hsum := ih habove
    have hsplit := Int.emod_add_mul_ediv (val + (d + half)) base
    simp only [carryOver, word_of_fits h0 h1, value_cons, List.length_cons, pow_succ]
    linear_combination base * hsum + hsplit

/-- What is left to carry becomes digits of its own, as long as there is room. -/
def pushCarry : Nat → Int → List Int → List Int
  | 0, val, ds => if val = 0 then ds else []
  | room + 1, val, ds =>
    if val = 0 then ds
    else
      let val := word (val + half)
      pushCarry room (val / base) (ds ++ [val % base - half])

/-- A carry is a digit. -/
theorem pushCarry_of_small {room : Nat} {val : Int} {ds : List Int} (hval : -2048 ≤ val ∧ val ≤ 2048) :
    pushCarry (room + 1) val ds = if val = 0 then ds else ds ++ [val] := by
  rw [pushCarry]
  split_ifs with h0
  · rfl
  · have hdigit : word (val + half) % base - half = val := by
      rw [word_of_fits (by unfold half; omega) (by unfold half; omega)]
      unfold half base
      omega
    have hnone : word (val + half) / base = 0 := by
      rw [word_of_fits (by unfold half; omega) (by unfold half; omega)]
      unfold half base
      omega
    simp only [hdigit, hnone]
    cases room <;> rfl

/-- Zeros on top go, but for the last digit. -/
def dropTopZeros : List Int → List Int
  | [] => []
  | d :: ds =>
    let above := dropTopZeros ds
    if above = [0] then [d] else d :: above

theorem dropTopZeros_ne_nil {ds : List Int} (hds : ds ≠ []) : dropTopZeros ds ≠ [] := by
  cases ds with
  | nil => exact absurd rfl hds
  | cons d ds =>
    rw [dropTopZeros]
    split_ifs <;> exact List.cons_ne_nil _ _

theorem mem_of_mem_dropTopZeros {d : Int} {ds : List Int} (hd : d ∈ dropTopZeros ds) : d ∈ ds := by
  induction ds with
  | nil => exact hd
  | cons e ds ih =>
    rw [dropTopZeros] at hd
    split_ifs at hd
    · rw [List.mem_singleton.1 hd]
      exact List.mem_cons_self
    · rcases List.mem_cons.1 hd with rfl | hd
      · exact List.mem_cons_self
      · exact List.mem_cons_of_mem e (ih hd)

theorem value_dropTopZeros (ds : List Int) : value base (dropTopZeros ds) = value base ds := by
  induction ds with
  | nil => rfl
  | cons d ds ih =>
    rw [dropTopZeros]
    split_ifs with h0
    · rw [h0] at ih
      rw [value_cons, value_cons, ← ih]
      rfl
    · rw [value_cons, value_cons, ih]

theorem getLast?_dropTopZeros {ds : List Int} (hone : (dropTopZeros ds).length ≠ 1) :
    (dropTopZeros ds).getLast? ≠ some 0 := by
  induction ds with
  | nil => rintro ⟨⟩
  | cons d ds ih =>
    rw [dropTopZeros] at hone ⊢
    split_ifs at hone ⊢ with h0
    · exact absurd rfl hone
    · -- the digits above are not the zero alone
      cases habove : dropTopZeros ds with
      | nil =>
        rw [habove] at hone
        exact absurd rfl hone
      | cons e es =>
        rw [habove] at ih h0
        rw [List.getLast?_cons_cons]
        by_cases hes : es = []
        · subst hes
          rintro hlast
          exact h0 (by rw [List.getLast?_singleton] at hlast; rw [Option.some.inj hlast])
        · refine ih ?_
          rw [List.length_cons]
          have := List.length_pos_of_ne_nil hes
          omega

theorem length_dropTopZeros_le (ds : List Int) : (dropTopZeros ds).length ≤ ds.length := by
  induction ds with
  | nil => exact le_refl 0
  | cons d ds ih =>
    rw [dropTopZeros]
    split_ifs
    · exact Nat.succ_le_succ (Nat.zero_le _)
    · exact Nat.succ_le_succ ih

/-- Nothing is dropped where there is no zero on top. -/
theorem dropTopZeros_of_top {ds : List Int} (htop : ds.length ≠ 1 → ds.getLast? ≠ some 0) : dropTopZeros ds = ds := by
  induction ds with
  | nil => rfl
  | cons d ds ih =>
    rcases ds with _ | ⟨e, es⟩
    · rfl
    · have hlast : (e :: es).getLast? ≠ some 0 := by
        rw [← List.getLast?_cons_cons (a := d)]
        exact htop (by simp)
      rw [dropTopZeros, ih fun _ => hlast, if_neg]
      rintro h0
      rw [h0] at hlast
      exact hlast rfl

/-- The digits below the first one out of range stay as they are. -/
def normalize (ds : List Int) : List Int :=
  if ds = [] then []
  else
    let kept := ds.takeWhile fun d => decide (InRange half d)
    let carried := carryOver 0 (ds.dropWhile fun d => decide (InRange half d))
    dropTopZeros (pushCarry (maxSize - ds.length) carried.2 (kept ++ carried.1))

/-- Digits in range are carried over as they are. -/
theorem carryOver_eq (ds : List Int) :
    carryOver 0 ds =
      ((ds.takeWhile fun d => decide (InRange half d)) ++
          (carryOver 0 (ds.dropWhile fun d => decide (InRange half d))).1,
        (carryOver 0 (ds.dropWhile fun d => decide (InRange half d))).2) := by
  induction ds with
  | nil => rfl
  | cons d ds ih =>
    by_cases hd : InRange half d
    · rw [List.takeWhile_cons, List.dropWhile_cons, if_pos (decide_eq_true hd), if_pos (decide_eq_true hd)]
      obtain ⟨h0, h1⟩ := hd
      unfold half at h0 h1
      have hword : word (0 + (d + half)) = d + half := by
        rw [word_of_fits (by unfold half; omega) (by unfold half; omega), zero_add]
      have hdigit : (d + half) % base - half = d := by
        unfold half base
        omega
      have hcarry : (d + half) / base = 0 := by
        unfold half base
        omega
      simp only [carryOver, hword, hdigit, hcarry]
      rw [ih]
      rfl
    · rw [List.takeWhile_cons, List.dropWhile_cons, if_neg (by simpa using hd), if_neg (by simpa using hd)]
      rfl

theorem normalize_eq {ds : List Int} (hds : ds ≠ []) (hlength : ds.length < maxSize) :
    normalize ds = dropTopZeros
      (if (carryOver 0 ds).2 = 0 then (carryOver 0 ds).1 else (carryOver 0 ds).1 ++ [(carryOver 0 ds).2]) := by
  have hroom : maxSize - ds.length = maxSize - ds.length - 1 + 1 := by omega
  have hcarry := @carry_bounds 0 (ds.dropWhile fun d => decide (InRange half d)) (by omega)
  rw [normalize, if_neg hds, hroom]
  simp only [pushCarry_of_small hcarry]
  rw [carryOver_eq ds]

theorem normal_normalize {ds : List Int} (hds : ds ≠ []) (hlength : ds.length < maxSize) :
    Normal half (normalize ds) := by
  have hcarry := @carry_bounds 0 ds (by omega)
  have hne : (carryOver 0 ds).1 ≠ [] := by
    rw [ne_eq, ← List.length_eq_zero_iff, length_carryOver, List.length_eq_zero_iff]
    exact hds
  rw [normalize_eq hds hlength]
  refine ⟨fun d hd => ?_, ?_, getLast?_dropTopZeros⟩
  · have hmem := mem_of_mem_dropTopZeros hd
    split_ifs at hmem
    · exact inRange_carryOver hmem
    · rcases List.mem_append.1 hmem with hmem | hmem
      · exact inRange_carryOver hmem
      · rw [List.mem_singleton.1 hmem]
        unfold InRange half
        omega
  · refine dropTopZeros_ne_nil ?_
    split_ifs
    · exact hne
    · exact List.append_ne_nil_of_left_ne_nil hne _

theorem value_normalize_eq {ds : List Int} (hds : ds ≠ []) (hlength : ds.length < maxSize) :
    value base (normalize ds) =
      value base (carryOver 0 ds).1 + base ^ ds.length * (carryOver 0 ds).2 := by
  rw [normalize_eq hds hlength, value_dropTopZeros]
  split_ifs with h0
  · rw [h0, mul_zero, add_zero]
  · rw [value_append, length_carryOver, value_cons, value_nil, mul_zero, add_zero]

theorem value_normalize {ds : List Int} (hds : ds ≠ []) (hlength : ds.length < maxSize) (hfits : CarryFits 0 ds) :
    value base (normalize ds) = value base ds := by
  rw [value_normalize_eq hds hlength, value_carryOver hfits, zero_add]

theorem length_normalize_le {ds : List Int} (hds : ds ≠ []) (hlength : ds.length < maxSize) :
    (normalize ds).length ≤ ds.length + 1 := by
  rw [normalize_eq hds hlength]
  refine (length_dropTopZeros_le _).trans ?_
  split_ifs
  · rw [length_carryOver]
    exact Nat.le_succ _
  · rw [List.length_append, length_carryOver, List.length_singleton]

/-- A normal number stays as it is. -/
theorem normalize_of_normal {ds : List Int} (hds : Normal half ds) : normalize ds = ds := by
  have hall : ∀ d ∈ ds, decide (InRange half d) = true := fun d hd => decide_eq_true (hds.inRange d hd)
  have hnone : ∀ room, pushCarry room 0 ds = ds := by
    rintro (_ | room) <;> exact if_pos rfl
  rw [normalize, if_neg hds.ne_nil, List.takeWhile_eq_self_iff.2 hall, List.dropWhile_eq_nil_iff.2 hall]
  simp only [carryOver, List.append_nil, hnone]
  exact dropTopZeros_of_top hds.top

theorem value_normalize_of_bounds {ds : List Int} (hds : ds ≠ []) (hlength : ds.length < maxSize)
    (hbounds : ∀ d ∈ ds, -4611686018427387904 ≤ d ∧ d ≤ 4611686018427387904) :
    value base (normalize ds) = value base ds :=
  value_normalize hds hlength (carryFits_of_bounds (by omega) hbounds)

theorem bounds_of_inRange {d : Int} (hd : InRange half d) : -4611686018427387904 ≤ d ∧ d ≤ 4611686018427387904 := by
  obtain ⟨h0, h1⟩ := hd
  unfold half at h0 h1
  omega

/-- The lowest digit may leave its word where it comes back when it is carried over. -/
theorem carryOver_word (x : Int) (ds : List Int) : carryOver 0 (word x :: ds) = carryOver 0 (x :: ds) := by
  have hword : word (0 + (word x + half)) = word (0 + (x + half)) := by
    unfold word
    omega
  simp only [carryOver, hword]

/-! ## Comparison -/

def topWord (ds : List Int) : Int := ds.getLastD 0

def sgn (ds : List Int) : Int := if ds = [] then -2147483648 else (topWord ds).sign

/-- Numbers of different sizes are not looked at below their top digits. -/
def cmp (xs ys : List Int) : Int :=
  if ys.length < xs.length then if topWord xs < 0 then -1 else 1
  else if xs.length < ys.length then if topWord ys > 0 then -1 else 1
  else compareDigits xs ys

def cmpWord (ds : List Int) (y : Int) : Int :=
  match ds with
  | [] => -2147483648
  | [d] => if d < y then -1 else if d > y then 1 else 0
  | ds => if topWord ds < 0 then -1 else 1

section

variable {xs ys : List Int}

theorem topWord_of_getLast? {top : Int} (htop : xs.getLast? = some top) : topWord xs = top := by
  rw [topWord, List.getLastD_eq_getLast?, htop, Option.getD_some]

theorem sgn_eq (hx : Normal half xs) : sgn xs = (value base xs).sign := by
  obtain ⟨top, htop⟩ := hx.exists_top
  rw [sgn, if_neg hx.ne_nil, topWord_of_getLast? htop, base_eq, hx.sign_value (by decide) htop]

theorem cmp_eq (hx : Normal half xs) (hy : Normal half ys) : cmp xs ys = (value base xs - value base ys).sign := by
  have hne : ∀ {zs ws : List Int} {top : Int}, Normal half zs → ws ≠ [] → ws.length < zs.length →
      zs.getLast? = some top → top ≠ 0 := by
    rintro zs ws top hz hws hlt htop rfl
    refine hz.top ?_ htop
    have := List.length_pos_of_ne_nil hws
    omega
  unfold cmp
  split_ifs with hlt htop hgt htop
  · obtain ⟨top, h⟩ := hx.exists_top
    rw [topWord_of_getLast? h] at htop
    rw [base_eq, sign_sub_of_length_lt hx.inRange hy.inRange (by decide) h (hne hx hy.ne_nil hlt h) hlt, if_pos htop]
  · obtain ⟨top, h⟩ := hx.exists_top
    rw [topWord_of_getLast? h] at htop
    rw [base_eq, sign_sub_of_length_lt hx.inRange hy.inRange (by decide) h (hne hx hy.ne_nil hlt h) hlt, if_neg htop]
  · obtain ⟨top, h⟩ := hy.exists_top
    rw [topWord_of_getLast? h] at htop
    rw [← neg_sub, Int.sign_neg, base_eq,
      sign_sub_of_length_lt hy.inRange hx.inRange (by decide) h (hne hy hx.ne_nil hgt h) hgt, if_neg (by omega)]
  · obtain ⟨top, h⟩ := hy.exists_top
    rw [topWord_of_getLast? h] at htop
    have := hne hy hx.ne_nil hgt h
    rw [← neg_sub, Int.sign_neg, base_eq,
      sign_sub_of_length_lt hy.inRange hx.inRange (by decide) h (hne hy hx.ne_nil hgt h) hgt, if_pos (by omega)]
    rfl
  · exact compareDigits_eq_sign (by omega) hx.inRange hy.inRange

theorem sgn_neg_iff (hx : Normal half xs) : sgn xs < 0 ↔ value base xs < 0 := by
  rw [sgn_eq hx, ← not_le, ← not_le, Int.sign_nonneg_iff]

theorem cmp_nonneg_iff (hx : Normal half xs) (hy : Normal half ys) : cmp xs ys ≥ 0 ↔ value base ys ≤ value base xs := by
  rw [cmp_eq hx hy, ge_iff_le, Int.sign_nonneg_iff, sub_nonneg]

/-- One digit is compared as a word, also where it is out of range. -/
theorem cmp_singleton (hx : xs ≠ []) (y : Int) : cmp xs [y] = cmpWord xs y := by
  rcases xs with _ | ⟨d, _ | ⟨e, xs⟩⟩
  · exact absurd rfl hx
  · simp [cmp, cmpWord, compareDigits]
  · simp [cmp, cmpWord]

/-- A number of several digits that is not negative is above every word. -/
theorem cmpWord_of_length (hx : Normal half xs) (hlength : xs.length ≠ 1) (h0 : 0 ≤ value base xs) (y : Int) :
    cmpWord xs y = 1 := by
  obtain ⟨top, htop⟩ := hx.exists_top
  have hsign := hx.sign_value (by decide) htop
  have htop0 : ¬topWord xs < 0 := by
    rintro hneg
    rw [topWord_of_getLast? htop] at hneg
    rw [Int.sign_eq_neg_one_of_neg hneg, Int.sign_eq_neg_one_iff_neg, ← base_eq] at hsign
    omega
  rcases xs with _ | ⟨d, _ | ⟨e, xs⟩⟩
  · exact absurd rfl hx.ne_nil
  · exact absurd rfl hlength
  · exact if_neg htop0

/-- What lies between the least and the largest number of some digits has no more digits. -/
theorem length_le_of_value (hx : Normal half xs) {n : Nat}
    (h0 : value base (List.replicate (n + 1) (-half)) ≤ value base xs)
    (h1 : value base xs ≤ value base (List.replicate (n + 1) (half - 1))) : xs.length ≤ n + 1 := by
  have hy : ∀ y ∈ List.replicate (n + 1) (-half), InRange half y := by
    rintro y hy
    rw [List.eq_of_mem_replicate hy]
    decide
  have hz : ∀ z ∈ List.replicate (n + 1) (half - 1), InRange half z := by
    rintro z hz
    rw [List.eq_of_mem_replicate hz]
    decide
  have hle := hx.length_le_of_between (by decide) hy hz (by simp) (by simp) h0 h1
  rwa [List.length_replicate] at hle

end

/-! ## Sums and products -/

def addDigits : List Int → List Int → List Int
  | [], ys => ys
  | xs, [] => xs
  | x :: xs, y :: ys => word (x + y) :: addDigits xs ys

def add (xs ys : List Int) : List Int :=
  if xs = [] ∨ ys = [] ∨ ys.length > maxSize then [] else addDigits xs ys

def addTiny (y : Int) : List Int → List Int
  | [] => []
  | d :: ds => word (d + y) :: ds

def mulTiny (y : Int) (ds : List Int) : List Int := ds.map fun d => word (d * y)

/-- The products of the digits, cut at the size of a digit, and what is left above them. -/
def mulAddDigits (y : Int) : Int → List Int → List Int × Int
  | z, [] => ([], z)
  | z, d :: ds =>
    let above := mulAddDigits y (word (y * d / base)) ds
    (word (y * d % base + z) :: above.1, above.2)

def mulAddShort (y z : Int) (ds : List Int) : List Int :=
  if ds = [] then []
  else
    let r := mulAddDigits y z ds
    if r.2 = 0 then r.1
    else if r.1.length < maxSize then r.1 ++ [r.2]
    else
      let z := word (r.2 + topWord r.1 / base)
      if z = 0 ∨ z = -1 then r.1.dropLast ++ [topWord r.1 % base + z * base] else []

def mulShortOpt (y : Int) (ds : List Int) : List Int :=
  if y ≤ maxDenorm ∧ -maxDenorm ≤ y then mulTiny y ds else mulAddShort y 0 ds

def sum (xs ys : List Int) : List Int := normalize (add xs ys)

def sumWord (ds : List Int) (y : Int) : List Int := normalize (addTiny y ds)

def subWord (ds : List Int) (y : Int) : List Int := normalize (addTiny (word (-y)) ds)

def mulWord (ds : List Int) (y : Int) : List Int := normalize (mulShortOpt y ds)

section

variable {xs : List Int} (hx : Normal half xs) (hlength : xs.length < maxSize)

include hx hlength in
/-- A word that is not close to the largest one is added exactly. -/
theorem normal_sumWord {y : Int} (hy : -9223372036854775808 ≤ y ∧ y ≤ 4611686018427387904) :
    Normal half (sumWord xs y) ∧ value base (sumWord xs y) = value base xs + y := by
  rcases xs with _ | ⟨d, ds⟩
  · exact absurd rfl hx.ne_nil
  · refine ⟨normal_normalize (List.cons_ne_nil _ _) hlength, ?_⟩
    obtain ⟨h0, h1⟩ := hx.inRange d List.mem_cons_self
    unfold half at h0 h1
    have hfits : CarryFits 0 ((d + y) :: ds) := by
      refine ⟨by unfold half; omega, by unfold half; omega, carryFits_of_bounds ?_ ?_⟩
      · unfold half base
        omega
      · rintro e he
        exact bounds_of_inRange (hx.inRange e (List.mem_cons_of_mem d he))
    have hcarried := value_carryOver hfits
    have hsame : (word (d + y) :: ds).length < maxSize := hlength
    rw [sumWord, addTiny, value_normalize_eq (List.cons_ne_nil _ _) hsame, carryOver_word]
    rw [List.length_cons] at hcarried ⊢
    rw [hcarried, value_cons, value_cons]
    ring

end

/-- Adding a number of one digit is adding a word. -/
theorem sum_singleton {xs : List Int} (hx : xs ≠ []) (y : Int) : sum xs [y] = sumWord xs y := by
  cases xs with
  | nil => exact absurd rfl hx
  | cons d ds =>
    have hadd : add (d :: ds) [y] = addDigits (d :: ds) [y] := if_neg (by simp [maxSize])
    rw [sum, sumWord, hadd]
    cases ds <;> rfl

/-- The least sum with half a digit that a product by `y` cannot have. -/
def productBound (y : Int) : Int :=
  if y ≤ maxDenorm then 9223372036854775808 else (9223372036854775808 - half) * base

section

variable {x y : Int} (hx : 0 ≤ x) (hy : 0 ≤ y)

theorem value_normalize_singleton (d : Int) : value base (normalize [d]) = word (d + half) - half := by
  rw [value_normalize_eq (List.cons_ne_nil _ _) (by simp [maxSize])]
  simp only [carryOver, value_cons, value_nil, List.length_singleton, zero_add, pow_one, mul_zero, add_zero]
  have := Int.emod_add_mul_ediv (word (d + half)) base
  linarith

theorem value_normalize_pair (d e : Int) :
    value base (normalize [d, e]) = word (d + half) % base - half +
      base * (word (word (d + half) / base + (e + half)) - half) := by
  rw [value_normalize_eq (List.cons_ne_nil _ _) (by simp [maxSize])]
  simp only [carryOver, value_cons, value_nil, List.length_cons, List.length_nil, zero_add, mul_zero, add_zero]
  have := Int.emod_add_mul_ediv (word (word (d + half) / base + (e + half))) base
  linear_combination base * this

/-- The product of two words is normalized as what the words are worth, until its top digit wraps. -/
theorem value_mulWord (hx : 0 ≤ x) (hy : 0 ≤ y) :
    value base (mulWord [x] y) =
      if y ≤ maxDenorm then word (x * y + half) - half
      else (x * y + half) % base - half + base * (word ((x * y + half) / base + half) - half) := by
  have hp : 0 ≤ x * y := mul_nonneg hx hy
  unfold mulWord mulShortOpt
  by_cases hsmall : y ≤ maxDenorm
  · rw [if_pos ⟨hsmall, by unfold maxDenorm; omega⟩, if_pos hsmall, mulTiny, List.map_singleton,
      value_normalize_singleton]
    generalize x * y = p
    unfold word half
    omega
  · rw [if_neg (by rintro ⟨h, -⟩; exact hsmall h), if_neg hsmall, mulAddShort, if_neg (List.cons_ne_nil _ _)]
    simp only [mulAddDigits, mul_comm y x, add_zero]
    generalize x * y = p at hp
    have hlow : word (p % base) = p % base := word_of_fits (by unfold base; omega) (by unfold base; omega)
    rw [hlow, if_pos (show [p % base].length < maxSize by simp [maxSize])]
    split_ifs with h0
    · rw [value_normalize_singleton]
      unfold word half base at *
      omega
    · rw [List.singleton_append, value_normalize_pair]
      unfold word half base at *
      omega

theorem value_mulWord_of_fits (hx : 0 ≤ x) (hy : 0 ≤ y) (hfits : x * y + half < productBound y) :
    value base (mulWord [x] y) = x * y := by
  have hp : 0 ≤ x * y := mul_nonneg hx hy
  rw [value_mulWord hx hy]
  generalize x * y = p at hfits hp
  unfold productBound at hfits
  split_ifs at hfits ⊢ with hsmall
  · unfold word half at *
    omega
  · unfold word half base at *
    omega

/-- A product that does not fit comes out too small. -/
theorem value_mulWord_lt (hx : 0 ≤ x) (hy : 0 ≤ y) (hbound : productBound y ≤ x * y + half) :
    value base (mulWord [x] y) ≤ x * y - 18446744073709551616 := by
  rw [value_mulWord hx hy]
  generalize x * y = p at hbound
  unfold productBound at hbound
  split_ifs at hbound ⊢ with hsmall
  · have := word_le_sub hbound
    omega
  · have hcarried : 9223372036854775808 ≤ (p + half) / base + half := by
      unfold half base at *
      omega
    have := word_le_sub hcarried
    unfold half base at *
    omega

theorem normal_mulWord (x y : Int) : Normal half (mulWord [x] y) ∧ (mulWord [x] y).length ≤ 3 := by
  have hproduct : mulShortOpt y [x] ≠ [] ∧ (mulShortOpt y [x]).length ≤ 2 := by
    unfold mulShortOpt
    split_ifs
    · exact ⟨List.cons_ne_nil _ _, by simp [mulTiny]⟩
    · rw [mulAddShort, if_neg (List.cons_ne_nil _ _)]
      simp only [mulAddDigits, List.length_singleton, show (1 < maxSize) = True by simp [maxSize], if_true]
      split_ifs <;> exact ⟨by simp, by simp⟩
  have hlength : (mulShortOpt y [x]).length < maxSize := lt_of_le_of_lt hproduct.2 (by decide)
  exact ⟨normal_normalize hproduct.1 hlength,
    (length_normalize_le hproduct.1 hlength).trans (Nat.succ_le_succ hproduct.2)⟩

end

/-! ## Shifts by less than a digit -/

/-- The low bits of a digit go to the digit below it, to which `v` belongs. -/
def rshiftDigits (exponent : Nat) : Int → List Int → List Int
  | v, [] => [v]
  | v, w :: ws =>
    (v + w % 2 ^ exponent * 2 ^ (wordShift - exponent)) :: rshiftDigits exponent (w / 2 ^ exponent) ws

/-- The bits that fall out are rounded down, to the nearest or up. -/
def rshift (exponent : Nat) (roundMode : Int) : List Int → List Int
  | [] => []
  | d :: ds =>
    if roundMode = 0 then rshiftDigits exponent ((d / 2 ^ (exponent - 1) + 1) / 2) ds
    else if roundMode > 0 then rshiftDigits exponent (word (-1 + d) / 2 ^ exponent + 1) ds
    else rshiftDigits exponent (d / 2 ^ exponent) ds

def lshiftDigits (exponent : Nat) : Int → List Int → List Int × Int
  | v, [] => ([], v)
  | v, w :: ws =>
    let above := lshiftDigits exponent (w / 2 ^ (wordShift - exponent)) ws
    ((v + w % 2 ^ (wordShift - exponent) * 2 ^ exponent) :: above.1, above.2)

def lshift (exponent : Nat) (ds : List Int) : List Int :=
  let r := lshiftDigits exponent 0 ds
  if r.2 = 0 then r.1
  else if r.1.length < maxSize then r.1 ++ [r.2]
  else if r.2 = -1 then r.1.dropLast ++ [word (topWord r.1 - base)] else []

def shiftRight (ds : List Int) (exponent : Nat) (roundMode : Int) : List Int :=
  normalize (rshift exponent roundMode ds)

def shiftLeft (ds : List Int) (exponent : Nat) : List Int := normalize (lshift exponent ds)

section

variable {exponent : Nat}

theorem two_pow_mul_two_pow (hexponent : exponent ≤ wordShift) :
    (2 : Int) ^ exponent * 2 ^ (wordShift - exponent) = base := by
  rw [← pow_add, Nat.add_sub_cancel' hexponent]
  rfl

theorem value_rshiftDigits (hexponent : exponent ≤ wordShift) (v : Int) (ws : List Int) :
    value base (rshiftDigits exponent v ws) = v + 2 ^ (wordShift - exponent) * value base ws := by
  induction ws generalizing v with
  | nil => simp [rshiftDigits]
  | cons w ws ih =>
    have hsplit := Int.emod_add_mul_ediv w (2 ^ exponent)
    rw [rshiftDigits, value_cons, ih, value_cons, ← two_pow_mul_two_pow hexponent]
    linear_combination (2 : Int) ^ (wordShift - exponent) * hsplit

theorem value_lshiftDigits (hexponent : exponent ≤ wordShift) (v : Int) (ws : List Int) :
    value base (lshiftDigits exponent v ws).1 + base ^ ws.length * (lshiftDigits exponent v ws).2 =
      v + 2 ^ exponent * value base ws := by
  induction ws generalizing v with
  | nil => simp [lshiftDigits]
  | cons w ws ih =>
    have hsplit := Int.emod_add_mul_ediv w (2 ^ (wordShift - exponent))
    have habove := ih (w / 2 ^ (wordShift - exponent))
    simp only [lshiftDigits, value_cons, List.length_cons, pow_succ]
    rw [← two_pow_mul_two_pow hexponent] at habove ⊢
    linear_combination (2 : Int) ^ exponent * 2 ^ (wordShift - exponent) * habove + 2 ^ exponent * hsplit

/-- A quotient by a power of two is no farther from zero. -/
theorem ediv_bounds {d : Int} (hd : -4503599627370496 ≤ d ∧ d ≤ 4503599627370496) (n : Nat) :
    -4503599627370496 ≤ d / 2 ^ n ∧ d / 2 ^ n ≤ 4503599627370496 := by
  have hpow : (1 : Int) ≤ 2 ^ n := one_le_pow₀ (by norm_num)
  constructor
  · refine (Int.le_ediv_iff_mul_le (by omega)).2 ?_
    nlinarith
  · refine Int.ediv_le_of_le_mul (by omega) ?_
    nlinarith

/-- The bits that go to the digit below fill it. -/
theorem moved_bounds (hexponent : exponent ≤ wordShift) (w : Int) :
    0 ≤ w % 2 ^ exponent * 2 ^ (wordShift - exponent) ∧
      w % 2 ^ exponent * 2 ^ (wordShift - exponent) < 4503599627370496 := by
  have h0 : (0 : Int) < 2 ^ exponent := by positivity
  have h1 : (0 : Int) < 2 ^ (wordShift - exponent) := by positivity
  have hprod := two_pow_mul_two_pow hexponent
  constructor
  · exact mul_nonneg (Int.emod_nonneg w h0.ne') h1.le
  · have := mul_lt_mul_of_pos_right (Int.emod_lt_of_pos w h0) h1
    rw [hprod] at this
    exact this

theorem bounds_rshiftDigits (hexponent : exponent ≤ wordShift) {v : Int} {ws : List Int}
    (hv : -4503599627370497 ≤ v ∧ v ≤ 4503599627370497) (hws : ∀ w ∈ ws, InRange half w) :
    ∀ d ∈ rshiftDigits exponent v ws, -4611686018427387904 ≤ d ∧ d ≤ 4611686018427387904 := by
  induction ws generalizing v with
  | nil =>
    rintro d hd
    rw [List.mem_singleton.1 hd]
    omega
  | cons w ws ih =>
    have hw := hws w List.mem_cons_self
    unfold InRange half at hw
    have hdiv := @ediv_bounds w (by omega) exponent
    rintro d hd
    rcases List.mem_cons.1 hd with rfl | hd
    · have := moved_bounds hexponent w
      omega
    · exact ih (by omega) (fun e he => hws e (List.mem_cons_of_mem w he)) d hd

theorem length_rshiftDigits (v : Int) (ws : List Int) : (rshiftDigits exponent v ws).length = ws.length + 1 := by
  induction ws generalizing v with
  | nil => rfl
  | cons w ws ih => rw [rshiftDigits, List.length_cons, ih, List.length_cons]

theorem length_lshiftDigits (v : Int) (ws : List Int) : (lshiftDigits exponent v ws).1.length = ws.length := by
  induction ws generalizing v with
  | nil => rfl
  | cons w ws ih => rw [lshiftDigits, List.length_cons, ih, List.length_cons]

theorem bounds_lshiftDigits (hexponent : exponent ≤ wordShift) {v : Int} {ws : List Int}
    (hv : -4503599627370496 ≤ v ∧ v ≤ 4503599627370496) (hws : ∀ w ∈ ws, InRange half w) :
    (∀ d ∈ (lshiftDigits exponent v ws).1, -4611686018427387904 ≤ d ∧ d ≤ 4611686018427387904) ∧
      -4503599627370496 ≤ (lshiftDigits exponent v ws).2 ∧ (lshiftDigits exponent v ws).2 ≤ 4503599627370496 := by
  induction ws generalizing v with
  | nil =>
    refine ⟨?_, hv⟩
    rintro d ⟨⟩
  | cons w ws ih =>
    have hw := hws w List.mem_cons_self
    unfold InRange half at hw
    have habove := ih (@ediv_bounds w (by omega) (wordShift - exponent)) fun e he =>
      hws e (List.mem_cons_of_mem w he)
    refine ⟨?_, habove.2⟩
    rintro d hd
    rcases List.mem_cons.1 hd with rfl | hd
    · have := moved_bounds (Nat.sub_le wordShift exponent) w
      rw [Nat.sub_sub_self hexponent] at this
      omega
    · exact habove.1 d hd

variable {xs : List Int} (hx : Normal half xs) (hexponent : exponent ≤ wordShift)

include hx hexponent in
/-- A shift to the left multiplies. -/
theorem normal_shiftLeft (hlength : xs.length + 1 < maxSize) :
    Normal half (shiftLeft xs exponent) ∧ (shiftLeft xs exponent).length ≤ xs.length + 2 ∧
      value base (shiftLeft xs exponent) = 2 ^ exponent * value base xs := by
  have hdigits := @length_lshiftDigits exponent 0 xs
  obtain ⟨hbounds, htop⟩ := bounds_lshiftDigits hexponent (v := 0) (by omega) hx.inRange
  have hne : (lshiftDigits exponent 0 xs).1 ≠ [] := by
    rw [← List.length_pos_iff, hdigits]
    exact List.length_pos_of_ne_nil hx.ne_nil
  have hvalue := value_lshiftDigits hexponent 0 xs
  -- the digits with what is shifted out on top
  have hshift : lshift exponent xs ≠ [] ∧ (lshift exponent xs).length ≤ xs.length + 1 ∧
      (∀ d ∈ lshift exponent xs, -4611686018427387904 ≤ d ∧ d ≤ 4611686018427387904) ∧
      value base (lshift exponent xs) = 2 ^ exponent * value base xs := by
    unfold lshift
    simp only [hdigits, show (xs.length < maxSize) = True from eq_true (by omega), if_true]
    split_ifs with h0
    · refine ⟨hne, by omega, hbounds, ?_⟩
      rw [h0] at hvalue
      linarith
    · refine ⟨List.append_ne_nil_of_left_ne_nil hne _, by rw [List.length_append, hdigits]; rfl, ?_, ?_⟩
      · rintro d hd
        rcases List.mem_append.1 hd with hd | hd
        · exact hbounds d hd
        · rw [List.mem_singleton.1 hd]
          omega
      · rw [value_append, hdigits, value_cons, value_nil]
        linarith
  obtain ⟨hshiftNe, hshiftLength, hshiftBounds, hshiftValue⟩ := hshift
  have hsame : (lshift exponent xs).length < maxSize := by omega
  refine ⟨normal_normalize hshiftNe hsame, (length_normalize_le hshiftNe hsame).trans (by omega), ?_⟩
  rw [shiftLeft, value_normalize_of_bounds hshiftNe hsame hshiftBounds, hshiftValue]

include hx hexponent in
/-- A shift to the right that rounds up divides and rounds up. -/
theorem normal_shiftRight (hlength : xs.length < maxSize) :
    Normal half (shiftRight xs exponent 1) ∧ (shiftRight xs exponent 1).length ≤ xs.length + 1 ∧
      value base (shiftRight xs exponent 1) = (value base xs - 1) / 2 ^ exponent + 1 := by
  rcases xs with _ | ⟨d, ds⟩
  · exact absurd rfl hx.ne_nil
  · obtain ⟨h0, h1⟩ := hx.inRange d List.mem_cons_self
    unfold half at h0 h1
    have hword : word (-1 + d) = -1 + d := word_of_fits (by omega) (by omega)
    have hshift : rshift exponent 1 (d :: ds) = rshiftDigits exponent ((-1 + d) / 2 ^ exponent + 1) ds := by
      rw [rshift, if_neg (by decide), if_pos (by decide), hword]
    have hne : rshiftDigits exponent ((-1 + d) / 2 ^ exponent + 1) ds ≠ [] := by
      rw [← List.length_pos_iff, length_rshiftDigits]
      exact Nat.succ_pos _
    have hsame : (rshiftDigits exponent ((-1 + d) / 2 ^ exponent + 1) ds).length < maxSize := by
      rw [length_rshiftDigits]
      exact hlength
    have hlow := @ediv_bounds (-1 + d) (by omega) exponent
    have hbounds := bounds_rshiftDigits hexponent (v := (-1 + d) / 2 ^ exponent + 1) (by omega)
      fun w hw => hx.inRange w (List.mem_cons_of_mem d hw)
    rw [shiftRight, hshift]
    refine ⟨normal_normalize hne hsame, (length_normalize_le hne hsame).trans (by rw [length_rshiftDigits]; rfl), ?_⟩
    have hsplit : d + base * value base ds - 1 =
        -1 + d + 2 ^ exponent * (2 ^ (wordShift - exponent) * value base ds) := by
      rw [← two_pow_mul_two_pow hexponent]
      ring
    rw [value_normalize_of_bounds hne hsame hbounds, value_rshiftDigits hexponent, value_cons, hsplit,
      Int.add_mul_ediv_left _ _ (by positivity)]
    ring

end

/-! ## Division by one digit -/

/-- The digits are divided from the top down; what is left of the digits above, `rem` at first, counts for each. -/
def divDigits (y rem : Int) : List Int → List Int × Int
  | [] => ([], rem)
  | d :: ds =>
    let above := divDigits y rem ds
    let x := above.2 * base + d
    (word (x.tdiv y) :: above.1, word (x.tmod y))

/-- Division drops what is behind the point, so a remainder on the other side of zero than the divisor takes one off. -/
def floorLowest (y : Int) : List Int × Int → List Int
  | ([], _) => []
  | (q :: qs, rem) => if rem ≠ 0 ∧ (rem < 0 ↔ ¬ y < 0) then word (q - 1) :: qs else q :: qs

/-- The quotient that is left in place of the number; there is none where the divisor is zero. -/
def divmodShort (y : Int) (ds : List Int) : List Int :=
  match ds with
  | [d] => floorLowest y ([d.tdiv y], d.tmod y)
  | ds =>
    -- a top digit that is too small for a digit of the quotient is left over at once
    let divided :=
      if |topWord ds| * 2 < |y| then divDigits y (topWord ds) ds.dropLast else divDigits y 0 ds
    dropTopZeros (floorLowest y divided)

/-- The quotient of a number and a number of one digit. -/
def divShort (ds : List Int) (y : Int) : List Int :=
  if ds = [] ∨ y = 0 then [] else normalize (divmodShort y ds)

/-- The quotient is normalized where it is found and where it is handed out. -/
def div (ds : List Int) (y : Int) : List Int := normalize (divShort ds y)

section

variable {y : Int} (hy : 0 < y)

theorem length_divDigits (y rem : Int) (ds : List Int) : (divDigits y rem ds).1.length = ds.length := by
  induction ds with
  | nil => rfl
  | cons d ds ih => simp only [divDigits, List.length_cons, ih]

include hy in
/-- The quotient and what is left of a number, where what was left above it is below the divisor. -/
theorem divDigits_spec {rem : Int} (hyWord : y < 9223372036854775808) (hrem : -y < rem ∧ rem < y) {ds : List Int}
    (hds : ∀ d ∈ ds, InRange half d) :
    value base (divDigits y rem ds).1 * y + (divDigits y rem ds).2 = base ^ ds.length * rem + value base ds ∧
      (-y < (divDigits y rem ds).2 ∧ (divDigits y rem ds).2 < y) ∧
      ∀ q ∈ (divDigits y rem ds).1, -4503599627370497 ≤ q ∧ q ≤ 4503599627370497 := by
  induction ds with
  | nil => exact ⟨by simp [divDigits], hrem, by rintro q ⟨⟩⟩
  | cons d ds ih =>
    obtain ⟨hvalue, ⟨h0, h1⟩, hquot⟩ := ih fun e he => hds e (List.mem_cons_of_mem d he)
    obtain ⟨hd0, hd1⟩ := hds d List.mem_cons_self
    obtain ⟨r, hr⟩ : ∃ r, r = (divDigits y rem ds).2 := ⟨_, rfl⟩
    rw [← hr] at hvalue h0 h1
    obtain ⟨x, hx⟩ : ∃ x, x = r * base + d := ⟨_, rfl⟩
    have hsplit := Int.mul_tdiv_add_tmod x y
    have hmod0 : -y < x.tmod y := Int.lt_tmod_of_pos x hy
    have hmod1 : x.tmod y < y := Int.tmod_lt_of_pos x hy
    have hx0 : -(y * 4503599627370497) < x := by
      unfold half base at *
      omega
    have hx1 : x < y * 4503599627370497 := by
      unfold half base at *
      omega
    have hquot0 : -4503599627370497 ≤ x.tdiv y := by
      by_contra hcontra
      have := mul_le_mul_of_nonneg_left (show x.tdiv y ≤ -4503599627370498 by omega) hy.le
      omega
    have hquot1 : x.tdiv y ≤ 4503599627370497 := by
      by_contra hcontra
      have := mul_le_mul_of_nonneg_left (show 4503599627370498 ≤ x.tdiv y by omega) hy.le
      omega
    simp only [divDigits, ← hr, ← hx]
    rw [word_of_fits (by omega) (by omega), word_of_fits (by omega) (by omega)]
    refine ⟨?_, ⟨hmod0, hmod1⟩, ?_⟩
    · rw [value_cons, value_cons, List.length_cons, pow_succ]
      linear_combination base * hvalue + hsplit + hx
    · rintro q hq
      rcases List.mem_cons.1 hq with rfl | hq
      · exact ⟨hquot0, hquot1⟩
      · exact hquot q hq

include hy in
/-- With a quotient and what is left of it, the lowest digit makes the quotient rounded down. -/
theorem value_floorLowest {z : Int} {qs : List Int} {rem : Int} (hqs : qs ≠ [])
    (hbounds : ∀ q ∈ qs, -4503599627370497 ≤ q ∧ q ≤ 4503599627370497) (hrem : -y < rem ∧ rem < y)
    (hvalue : value base qs * y + rem = z) :
    floorLowest y (qs, rem) ≠ [] ∧ (floorLowest y (qs, rem)).length = qs.length ∧
      (∀ q ∈ floorLowest y (qs, rem), -4611686018427387904 ≤ q ∧ q ≤ 4611686018427387904) ∧
      value base (floorLowest y (qs, rem)) = z / y := by
  cases qs with
  | nil => exact absurd rfl hqs
  | cons q qs =>
    have hq := hbounds q List.mem_cons_self
    have habove : ∀ e ∈ qs, -4611686018427387904 ≤ e ∧ e ≤ 4611686018427387904 := by
      rintro e he
      have := hbounds e (List.mem_cons_of_mem q he)
      omega
    rw [floorLowest]
    split_ifs with hneg
    · have hword : word (q - 1) = q - 1 := word_of_fits (by omega) (by omega)
      rw [hword]
      refine ⟨List.cons_ne_nil _ _, rfl, List.forall_mem_cons.2 ⟨by omega, habove⟩, ?_⟩
      have hz : z = rem + y + (q - 1 + base * value base qs) * y := by
        rw [← hvalue, value_cons]
        ring
      rw [value_cons, hz, Int.add_mul_ediv_right _ _ hy.ne', Int.ediv_eq_zero_of_lt (by omega) (by omega), zero_add]
    · refine ⟨List.cons_ne_nil _ _, rfl, List.forall_mem_cons.2 ⟨by omega, habove⟩, ?_⟩
      rw [← hvalue, add_comm, Int.add_mul_ediv_right _ _ hy.ne', Int.ediv_eq_zero_of_lt (by omega) (by omega),
        zero_add]

include hy in
theorem divmodShort_spec {xs : List Int} (hyWord : y < 9223372036854775808) (hx : Normal half xs) :
    divmodShort y xs ≠ [] ∧ (divmodShort y xs).length ≤ xs.length ∧
      (∀ q ∈ divmodShort y xs, -4611686018427387904 ≤ q ∧ q ≤ 4611686018427387904) ∧
      value base (divmodShort y xs) = value base xs / y := by
  rcases xs with _ | ⟨d, _ | ⟨e, ds⟩⟩
  · exact absurd rfl hx.ne_nil
  · have hd := hx.inRange d List.mem_cons_self
    unfold InRange half at hd
    have hle := Int.natAbs_tdiv_le_natAbs d y
    have hfloor := @value_floorLowest y hy d [d.tdiv y] (d.tmod y) (List.cons_ne_nil _ _)
      (by rintro q hq; rw [List.mem_singleton.1 hq]; omega) ⟨Int.lt_tmod_of_pos d hy, Int.tmod_lt_of_pos d hy⟩ (by
        rw [value_cons, value_nil, mul_zero, add_zero]
        exact Int.tdiv_mul_add_tmod d y)
    rw [value_cons, value_nil, mul_zero, add_zero]
    exact ⟨hfloor.1, hfloor.2.1.le, hfloor.2.2.1, hfloor.2.2.2⟩
  · obtain ⟨xs, hxs⟩ : ∃ xs, xs = d :: e :: ds := ⟨_, rfl⟩
    have hdef : divmodShort y xs = dropTopZeros (floorLowest y
        (if |topWord xs| * 2 < |y| then divDigits y (topWord xs) xs.dropLast else divDigits y 0 xs)) := by
      rw [hxs]
      rfl
    have hlong : 2 ≤ xs.length := by
      rw [hxs]
      exact Nat.le_add_left 2 ds.length
    rw [← hxs] at hx ⊢
    -- either way the digits are divided with what is left above them
    have hdivided : ∃ rem low, low ≠ [] ∧ low.length ≤ xs.length ∧ (∀ z ∈ low, InRange half z) ∧ (-y < rem ∧ rem < y) ∧
        base ^ low.length * rem + value base low = value base xs ∧
        divmodShort y xs = dropTopZeros (floorLowest y (divDigits y rem low)) := by
      by_cases hskip : |topWord xs| * 2 < |y|
      · obtain ⟨top, htop⟩ := hx.exists_top
        obtain ⟨low, rfl⟩ := List.getLast?_eq_some_iff.1 htop
        rw [topWord_of_getLast? htop] at hskip hdef
        rw [if_pos hskip, List.dropLast_concat] at hdef
        rw [abs_of_pos hy] at hskip
        rw [List.length_append, List.length_singleton] at hlong
        refine ⟨top, low, ?_, by simp, fun z hz => hx.inRange z (List.mem_append_left _ hz), ?_, ?_, hdef⟩
        · rintro rfl
          simp at hlong
        · have := abs_lt.1 (show |top| < y by omega)
          exact this
        · rw [value_append, value_cons, value_nil]
          ring
      · rw [if_neg hskip] at hdef
        exact ⟨0, xs, hx.ne_nil, le_refl _, hx.inRange, by omega, by ring, hdef⟩
    obtain ⟨rem, low, hlow, hle, hrange, hrem, hvalue, hdef⟩ := hdivided
    obtain ⟨hsplit, hleft, hbounds⟩ := divDigits_spec hy hyWord hrem hrange
    have hne : (divDigits y rem low).1 ≠ [] := by
      rw [← List.length_pos_iff, length_divDigits]
      exact List.length_pos_of_ne_nil hlow
    obtain ⟨hfloorNe, hfloorLength, hfloorBounds, hfloorValue⟩ :=
      value_floorLowest hy hne hbounds hleft (hsplit.trans hvalue)
    rw [hdef]
    refine ⟨dropTopZeros_ne_nil hfloorNe, ?_, fun q hq => hfloorBounds q (mem_of_mem_dropTopZeros hq), ?_⟩
    · refine (length_dropTopZeros_le _).trans ?_
      rw [hfloorLength, length_divDigits]
      exact hle
    · rw [value_dropTopZeros, hfloorValue]

include hy in
/-- The quotient by a number of one digit is rounded down. -/
theorem normal_div {xs : List Int} (hyWord : y < 9223372036854775808) (hx : Normal half xs)
    (hlength : xs.length < maxSize) : Normal half (div xs y) ∧ value base (div xs y) = value base xs / y := by
  obtain ⟨hne, hle, hbounds, hvalue⟩ := divmodShort_spec hy hyWord hx
  have hsame : (divmodShort y xs).length < maxSize := by omega
  have hnormal := normal_normalize hne hsame
  have hshort : divShort xs y = normalize (divmodShort y xs) :=
    if_neg (by rintro (h | h); exacts [hx.ne_nil h, hy.ne' h])
  rw [div, hshort, normalize_of_normal hnormal]
  exact ⟨hnormal, by rw [value_normalize_of_bounds hne hsame hbounds, hvalue]⟩

end

/-! ## The value as a word -/

/-- What no word can hold, and what is not valid, is the least word. -/
def noLong : Int := -9223372036854775808

/-- Whether the digits above the lowest are those of what was found there. -/
def digitsAre : Int → List Int → Bool
  | _, [] => false
  | w, [d] => w == d
  | w, d :: ds => word (w - d) % base == 0 && digitsAre (word (w - d) / base) ds

def toLong : List Int → Int
  | [] => noLong
  | [d] => d
  | d :: e :: ds =>
    let v := word (d + word (e * base))
    if digitsAre ((v % base - d) / base + v / base) (e :: ds) then v else noLong

theorem length_le_two {xs : List Int} (hx : Normal half xs)
    (h : -10141204801825837463773439328256 ≤ value base xs ∧ value base xs ≤ 10141204801825832960173811957759) :
    xs.length ≤ 2 := by
  have hleast : value base (List.replicate 2 (-half)) = -10141204801825837463773439328256 := by decide
  have hlargest : value base (List.replicate 2 (half - 1)) = 10141204801825832960173811957759 := by decide
  refine @length_le_of_value xs hx 1 ?_ ?_
  · rw [hleast]
    exact h.1
  · rw [hlargest]
    exact h.2

theorem length_eq_one {xs : List Int} (hx : Normal half xs) (h : -half ≤ value base xs ∧ value base xs < half) :
    xs.length = 1 := by
  have hle := @length_le_of_value xs hx 0 (by simpa using h.1) (by simpa using Int.le_sub_one_of_lt h.2)
  have := List.length_pos_of_ne_nil hx.ne_nil
  omega

theorem length_ne_one {xs : List Int} (hx : Normal half xs) (h : half ≤ value base xs) : xs.length ≠ 1 := by
  rintro hone
  obtain ⟨d, rfl⟩ := List.length_eq_one_iff.1 hone
  have := (hx.inRange d (List.mem_singleton_self d)).2
  rw [value_cons, value_nil] at h
  omega

/-- A number that a word can hold is read as it. -/
theorem toLong_eq {xs : List Int} (hx : Normal half xs)
    (h : -9223372036854775808 ≤ value base xs ∧ value base xs < 9223372036854775808) :
    toLong xs = value base xs := by
  have hlength := length_le_two hx (by omega)
  rcases xs with _ | ⟨d, _ | ⟨e, _ | ⟨f, ds⟩⟩⟩
  · exact absurd rfl hx.ne_nil
  · rw [value_cons, value_nil, mul_zero, add_zero]
    rfl
  · obtain ⟨hd0, hd1⟩ := hx.inRange d List.mem_cons_self
    rw [value_cons, value_cons, value_nil] at h ⊢
    have hv : word (d + word (e * base)) = d + base * (e + base * 0) := by
      unfold word base at *
      omega
    have hsame : (d + base * (e + base * 0)) % base - d = base * (e - (d + base * (e + base * 0)) / base) := by
      have := Int.emod_add_mul_ediv (d + base * (e + base * 0)) base
      linear_combination this
    have hdigits : digitsAre (((d + base * (e + base * 0)) % base - d) / base + (d + base * (e + base * 0)) / base)
        [e] = true := by
      rw [hsame, Int.mul_ediv_cancel_left _ (by decide), digitsAre, beq_iff_eq]
      ring
    rw [toLong]
    simp only [hv, hdigits, if_true]
  · simp at hlength

/-- Every number of moderate size has its digits. -/
theorem exists_normal {v : Int} (h0 : 0 ≤ v) (h1 : v < 5192296858534827628530496329220096) :
    ∃ xs, Normal half xs ∧ xs.length ≤ 3 ∧ value base xs = v := by
  have hne : [v % base, v / base] ≠ [] := List.cons_ne_nil _ _
  have hlength : [v % base, v / base].length < maxSize := by simp [maxSize]
  have hbounds : ∀ d ∈ [v % base, v / base], -4611686018427387904 ≤ d ∧ d ≤ 4611686018427387904 := by
    rintro d hd
    rcases List.mem_pair.1 hd with rfl | rfl <;> unfold base <;> omega
  refine ⟨normalize [v % base, v / base], normal_normalize hne hlength, length_normalize_le hne hlength, ?_⟩
  rw [value_normalize_of_bounds hne hlength hbounds, value_cons, value_cons, value_nil, mul_zero, add_zero]
  exact Int.emod_add_mul_ediv v base

end TonWallet.Td.BigInt
