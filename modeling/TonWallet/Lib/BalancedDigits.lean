/-
Numbers as lists of digits, the least first, where the digits of a normal number lie around zero: with a base of twice
`half` they are at least `-half` and below `half`. Normal numbers are compared by their lengths and their digits alone.
-/
import Mathlib.Data.Int.Order.Basic
import Mathlib.Data.List.Basic
import Mathlib.Data.Sign.Defs
import Mathlib.Tactic.Linarith
import Mathlib.Tactic.Ring

namespace Lib.BalancedDigits

/-- The number that digits denote. -/
def value (base : Int) (ds : List Int) : Int := ds.foldr (fun d v => d + base * v) 0

@[simp] theorem value_nil (base : Int) : value base [] = 0 := rfl

@[simp] theorem value_cons (base d : Int) (ds : List Int) : value base (d :: ds) = d + base * value base ds := rfl

theorem value_append (base : Int) (xs ys : List Int) :
    value base (xs ++ ys) = value base xs + base ^ xs.length * value base ys := by
  induction xs with
  | nil => simp
  | cons x xs ih =>
    rw [List.cons_append, value_cons, ih, value_cons, List.length_cons, pow_succ]
    ring

theorem value_replicate_zero (base : Int) (n : Nat) : value base (List.replicate n 0) = 0 := by
  induction n with
  | zero => rfl
  | succ n ih => rw [List.replicate_succ, value_cons, ih, mul_zero, add_zero]

/-- Zeros on top do not count. -/
theorem value_append_zeros (base : Int) (ds : List Int) (n : Nat) :
    value base (ds ++ List.replicate n 0) = value base ds := by
  rw [value_append, value_replicate_zero, mul_zero, add_zero]

/-! ## Digits around zero -/

/-- The digits of a normal number. -/
def InRange (half d : Int) : Prop := -half ≤ d ∧ d < half

instance decidableInRange (half d : Int) : Decidable (InRange half d) := inferInstanceAs (Decidable (_ ∧ _))

/-- Normal numbers have their digits around zero, and no zero on top but for the number zero. -/
structure Normal (half : Int) (ds : List Int) : Prop where
  inRange : ∀ d ∈ ds, InRange half d
  ne_nil : ds ≠ []
  top : ds.length ≠ 1 → ds.getLast? ≠ some 0

/-- The comparison of the digits, the top ones first. -/
def compareDigits : List Int → List Int → Int
  | x :: xs, y :: ys =>
    let c := compareDigits xs ys
    if c ≠ 0 then c else if x < y then -1 else if x > y then 1 else 0
  | _, _ => 0

section

variable {half : Int}

/-- Digits of the same number are compared as their numbers. -/
theorem compareDigits_eq_sign {xs ys : List Int} (hlength : xs.length = ys.length) (hx : ∀ x ∈ xs, InRange half x)
    (hy : ∀ y ∈ ys, InRange half y) :
    compareDigits xs ys = (value (2 * half) xs - value (2 * half) ys).sign := by
  induction xs generalizing ys with
  | nil =>
    rw [List.length_nil] at hlength
    rw [List.length_eq_zero_iff.1 hlength.symm]
    rfl
  | cons x xs ih =>
    cases ys with
    | nil => cases hlength
    | cons y ys =>
      obtain ⟨hx0, hx1⟩ := hx x List.mem_cons_self
      obtain ⟨hy0, hy1⟩ := hy y List.mem_cons_self
      have htails := ih (Nat.succ.inj hlength) (fun d hd => hx d (List.mem_cons_of_mem x hd))
        fun d hd => hy d (List.mem_cons_of_mem y hd)
      obtain ⟨D, hD⟩ : ∃ D, D = value (2 * half) xs - value (2 * half) ys := ⟨_, rfl⟩
      have hdiff : value (2 * half) (x :: xs) - value (2 * half) (y :: ys) = x - y + 2 * half * D := by
        rw [value_cons, value_cons, hD]
        ring
      rw [hdiff, compareDigits, htails, ← hD]
      -- what the digits below differ by is less than the base
      rcases lt_trichotomy D 0 with hlt | rfl | hgt
      · have hneg : x - y + 2 * half * D < 0 := by nlinarith
        rw [Int.sign_eq_neg_one_of_neg hlt, Int.sign_eq_neg_one_of_neg hneg]
        rfl
      · rw [Int.sign_zero, mul_zero, add_zero, if_neg (not_not.2 rfl)]
        rcases lt_trichotomy x y with hxy | rfl | hxy
        · rw [if_pos hxy, Int.sign_eq_neg_one_of_neg (by omega)]
        · simp
        · rw [if_neg (by omega), if_pos hxy, Int.sign_eq_one_of_pos (by omega)]
      · have hpos : 0 < x - y + 2 * half * D := by nlinarith
        rw [Int.sign_eq_one_of_pos hgt, Int.sign_eq_one_of_pos hpos]
        rfl

/-- Different top digits decide. -/
theorem compareDigits_append_singleton {xs ys : List Int} (hlength : xs.length = ys.length) {a b : Int} (hab : a ≠ b) :
    compareDigits (xs ++ [a]) (ys ++ [b]) = if a < b then -1 else 1 := by
  induction xs generalizing ys with
  | nil =>
    rw [List.length_nil] at hlength
    rw [List.length_eq_zero_iff.1 hlength.symm]
    simp only [List.nil_append, compareDigits]
    rcases lt_or_gt_of_ne hab with h | h
    · simp [h]
    · simp [h, not_lt.2 h.le]
  | cons x xs ih =>
    cases ys with
    | nil => cases hlength
    | cons y ys =>
      rw [List.cons_append, List.cons_append, compareDigits, ih (Nat.succ.inj hlength)]
      split_ifs <;> simp_all

/-- A longer number with a top digit is on the side of zero where its top digit is, whatever it is compared with. -/
theorem sign_sub_of_length_lt {xs ys : List Int} (hx : ∀ x ∈ xs, InRange half x) (hy : ∀ y ∈ ys, InRange half y)
    (hhalf : 0 < half) {top : Int} (htop : xs.getLast? = some top) (hne : top ≠ 0) (hlength : ys.length < xs.length) :
    (value (2 * half) xs - value (2 * half) ys).sign = if top < 0 then -1 else 1 := by
  obtain ⟨low, rfl⟩ := List.getLast?_eq_some_iff.1 htop
  rw [List.length_append, List.length_singleton] at hlength
  -- the shorter number gets zeros on top
  have hpadded : ∀ n, ∀ y ∈ ys ++ List.replicate n 0, InRange half y := by
    rintro n y hmem
    rcases List.mem_append.1 hmem with hmem | hmem
    · exact hy y hmem
    · rw [List.eq_of_mem_replicate hmem]
      constructor <;> omega
  have hlow : low.length = (ys ++ List.replicate (low.length - ys.length) 0).length := by
    rw [List.length_append, List.length_replicate]
    omega
  have hzeros : ys ++ List.replicate (low.length - ys.length + 1) 0 =
      (ys ++ List.replicate (low.length - ys.length) 0) ++ [0] := by
    rw [List.append_assoc, ← List.replicate_succ']
  rw [← value_append_zeros (2 * half) ys (low.length - ys.length + 1),
    ← compareDigits_eq_sign _ hx (hpadded _), hzeros, compareDigits_append_singleton hlow hne]
  rw [hzeros, List.length_append, List.length_append, ← hlow]
  rfl

namespace Normal

variable {xs ys zs : List Int}

theorem exists_top (hx : Normal half xs) : ∃ top, xs.getLast? = some top :=
  ⟨_, List.getLast?_eq_some_getLast hx.ne_nil⟩

/-- The top digit tells the sign. -/
theorem sign_value (hx : Normal half xs) (hhalf : 0 < half) {top : Int} (htop : xs.getLast? = some top) :
    (value (2 * half) xs).sign = top.sign := by
  by_cases hone : xs.length = 1
  · obtain ⟨d, rfl⟩ := List.length_eq_one_iff.1 hone
    rw [List.getLast?_singleton, Option.some.injEq] at htop
    rw [value_cons, value_nil, mul_zero, add_zero, htop]
  · have hne : top ≠ 0 := by
      rintro rfl
      exact hx.top hone htop
    have hlength : ([] : List Int).length < xs.length := List.length_pos_of_ne_nil hx.ne_nil
    have hsign := sign_sub_of_length_lt hx.inRange (by rintro y hy; cases hy) hhalf htop hne hlength
    rw [value_nil, sub_zero] at hsign
    rw [hsign]
    rcases lt_or_gt_of_ne hne with h | h
    · rw [if_pos h, Int.sign_eq_neg_one_of_neg h]
    · rw [if_neg (by omega), Int.sign_eq_one_of_pos h]

/-- A normal number is no longer than two numbers it lies between. -/
theorem length_le_of_between (hx : Normal half xs) (hhalf : 0 < half) (hy : ∀ y ∈ ys, InRange half y)
    (hz : ∀ z ∈ zs, InRange half z) (hlength : ys.length = zs.length) (hys : ys ≠ [])
    (h0 : value (2 * half) ys ≤ value (2 * half) xs) (h1 : value (2 * half) xs ≤ value (2 * half) zs) :
    xs.length ≤ zs.length := by
  by_contra hcontra
  obtain ⟨top, htop⟩ := hx.exists_top
  have hone : xs.length ≠ 1 := by
    have := List.length_pos_of_ne_nil hys
    omega
  have hne : top ≠ 0 := by
    rintro rfl
    exact hx.top hone htop
  have habove := sign_sub_of_length_lt hx.inRange hy hhalf htop hne (by omega)
  have hbelow := sign_sub_of_length_lt hx.inRange hz hhalf htop hne (by omega)
  by_cases hneg : top < 0
  · rw [if_pos hneg, Int.sign_eq_neg_one_iff_neg] at habove
    omega
  · rw [if_neg hneg, Int.sign_eq_one_iff_pos] at hbelow
    omega

end Normal

end

end Lib.BalancedDigits
