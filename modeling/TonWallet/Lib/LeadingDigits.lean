/-
Numbers read from their top digits: what the digits below a leading part can add up to, the sign that the first digit
other than zero tells, and the sign that the first large leading part tells before all digits are read.
-/
import Mathlib.Algebra.Order.Ring.Abs
import TonWallet.Lib.BalancedDigits

namespace Lib.BalancedDigits

theorem value_map_neg {base : Int} (ds : List Int) : value base (ds.map Neg.neg) = -value base ds := by
  induction ds with
  | nil => rfl
  | cons d ds ih =>
    rw [List.map_cons, value_cons, value_cons, ih]
    ring

/-! ## Bounds -/

section

variable {base m : Int} {ds : List Int}

theorem mul_abs_value_le (hbase : 1 < base) (h : ∀ d ∈ ds, |d| ≤ m) :
    (base - 1) * |value base ds| ≤ m * (base ^ ds.length - 1) := by
  induction ds with
  | nil => simp
  | cons d ds ih =>
    have hd := h d List.mem_cons_self
    have htail := ih fun e he => h e (List.mem_cons_of_mem d he)
    have habs : |d + base * value base ds| ≤ |d| + base * |value base ds| := by
      refine (abs_add_le _ _).trans ?_
      rw [abs_mul, abs_of_pos (show 0 < base by omega)]
    have hpow : base ^ (ds.length + 1) = base * base ^ ds.length := pow_succ' base ds.length
    rw [value_cons, List.length_cons, hpow]
    nlinarith

/-- Digits below the base in absolute value stay below one more digit. -/
theorem abs_value_lt (hbase : 1 < base) (h : ∀ d ∈ ds, |d| ≤ base - 1) : |value base ds| < base ^ ds.length := by
  have hle := mul_abs_value_le hbase h
  have hpos : 0 < base - 1 := by omega
  have := le_of_mul_le_mul_left hle hpos
  omega

end

/-! ## The first digit that is not zero -/

/-- The first digit from the top that is not zero, if there is one. -/
def topNonzero : List Int → Int
  | [] => 0
  | d :: ds => if topNonzero ds ≠ 0 then topNonzero ds else d

/-- It has the sign of the number. -/
theorem sign_topNonzero {base : Int} (hbase : 1 < base) {ds : List Int} (h : ∀ d ∈ ds, |d| ≤ base - 1) :
    (topNonzero ds).sign = (value base ds).sign := by
  induction ds with
  | nil => rfl
  | cons d ds ih =>
    have hd := abs_le.1 (h d List.mem_cons_self)
    have htail := ih fun e he => h e (List.mem_cons_of_mem d he)
    rw [topNonzero, value_cons]
    by_cases hzero : topNonzero ds = 0
    · rw [hzero, Int.sign_zero, eq_comm, Int.sign_eq_zero_iff_zero] at htail
      rw [if_neg (not_not.2 hzero), htail, mul_zero, add_zero]
    · rw [if_pos hzero, htail]
      -- what is above outweighs the digit
      rcases lt_trichotomy (value base ds) 0 with hneg | hnone | hpos
      · rw [Int.sign_eq_neg_one_of_neg hneg, Int.sign_eq_neg_one_of_neg (by nlinarith)]
      · rw [hnone, Int.sign_zero, Int.sign_eq_zero_iff_zero] at htail
        exact absurd htail hzero
      · rw [Int.sign_eq_one_of_pos hpos, Int.sign_eq_one_of_pos (by nlinarith)]

/-! ## Leading parts -/

/-- The number of the digits `ds`, the top one first, behind the leading part `v`. -/
def valueFrom (base v : Int) (ds : List Int) : Int := ds.foldl (fun v d => v * base + d) v

section

variable {base : Int}

@[simp] theorem valueFrom_nil (v : Int) : valueFrom base v [] = v := rfl

@[simp] theorem valueFrom_cons (v d : Int) (ds : List Int) :
    valueFrom base v (d :: ds) = valueFrom base (v * base + d) ds := rfl

theorem valueFrom_append (v : Int) (xs ys : List Int) :
    valueFrom base v (xs ++ ys) = valueFrom base (valueFrom base v xs) ys := List.foldl_append

theorem valueFrom_eq (v : Int) (ds : List Int) :
    valueFrom base v ds = v * base ^ ds.length + value base ds.reverse := by
  induction ds generalizing v with
  | nil => simp
  | cons d ds ih =>
    rw [valueFrom_cons, ih, List.reverse_cons, value_append, List.length_reverse, value_cons, value_nil, List.length_cons,
      pow_succ]
    ring

theorem value_eq_valueFrom (ds : List Int) : value base ds = valueFrom base 0 ds.reverse := by
  rw [valueFrom_eq, List.reverse_reverse, zero_mul, zero_add]

theorem valueFrom_neg (v : Int) (ds : List Int) : valueFrom base v (ds.map Neg.neg) = -valueFrom base (-v) ds := by
  induction ds generalizing v with
  | nil => simp
  | cons d ds ih =>
    rw [List.map_cons, valueFrom_cons, valueFrom_cons, ih]
    congr 2
    ring

/-- Numbers are subtracted digit by digit. -/
theorem valueFrom_zipWith_sub {xs ys : List Int} (h : xs.length = ys.length) (v w : Int) :
    valueFrom base (v - w) (List.zipWith (· - ·) xs ys) = valueFrom base v xs - valueFrom base w ys := by
  induction xs generalizing ys v w with
  | nil =>
    rw [List.length_nil] at h
    rw [List.length_eq_zero_iff.1 h.symm]
    rfl
  | cons x xs ih =>
    cases ys with
    | nil => cases h
    | cons y ys =>
      have hsum : (v - w) * base + (x - y) = v * base + x - (w * base + y) := by ring
      rw [List.zipWith_cons_cons, valueFrom_cons, valueFrom_cons, valueFrom_cons, hsum]
      exact ih (Nat.succ.inj h) _ _

/-- A leading part that the digits below it cannot outweigh has the sign of the number. -/
theorem sign_valueFrom {m v : Int} (hbase : 1 < base) {ds : List Int} (h : ∀ d ∈ ds, |d| ≤ m) (hv : v ≠ 0)
    (hm : m ≤ (base - 1) * |v|) : (valueFrom base v ds).sign = v.sign := by
  have hlow := @mul_abs_value_le base m ds.reverse hbase fun d hd => h d (List.mem_reverse.1 hd)
  rw [List.length_reverse] at hlow
  obtain ⟨b, hb⟩ : ∃ b, b = base ^ ds.length := ⟨_, rfl⟩
  have hbpos : 1 ≤ b := by
    rw [hb]
    exact Int.add_one_le_iff.2 (pow_pos (by omega) _)
  have hless : |value base ds.reverse| < |v| * b := by
    rw [← hb] at hlow
    have hstep : (base - 1) * |value base ds.reverse| ≤ (base - 1) * (|v| * (b - 1)) := by
      refine hlow.trans ?_
      have := mul_le_mul_of_nonneg_right hm (show 0 ≤ b - 1 by omega)
      linarith [mul_assoc (base - 1) |v| (b - 1)]
    have hle := le_of_mul_le_mul_left hstep (by omega)
    have hvpos := abs_pos.2 hv
    nlinarith
  rw [valueFrom_eq, ← hb]
  obtain ⟨h0, h1⟩ := abs_lt.1 hless
  rcases lt_or_gt_of_ne hv with hneg | hpos
  · rw [abs_of_neg hneg] at h0 h1
    rw [Int.sign_eq_neg_one_of_neg hneg, Int.sign_eq_neg_one_of_neg (by linarith)]
  · rw [abs_of_pos hpos] at h0 h1
    rw [Int.sign_eq_one_of_pos hpos, Int.sign_eq_one_of_pos (by linarith)]

end

/-! ## Deciding early -/

/-- The sign of a number by its first leading part that is not between `-limit` and `limit`. -/
def signBy (base limit : Int) : Int → List Int → Int
  | v, [] => v.sign
  | v, d :: ds =>
    if limit ≤ v * base + d then 1 else if v * base + d ≤ -limit then -1 else signBy base limit (v * base + d) ds

/-- That leading part and the digits below it. -/
def firstLarge (base limit : Int) : Int → List Int → Option (Int × List Int)
  | _, [] => none
  | v, d :: ds => if limit ≤ |v * base + d| then some (v * base + d, ds) else firstLarge base limit (v * base + d) ds

section

variable {base limit : Int}

/-- The sign is right where that part is on the side of zero where the number is. -/
theorem signBy_eq_iff (hlimit : 0 < limit) (v : Int) (ds : List Int) :
    signBy base limit v ds = (valueFrom base v ds).sign ↔
      ∀ p below, firstLarge base limit v ds = some (p, below) → (valueFrom base p below).sign = p.sign := by
  induction ds generalizing v with
  | nil =>
    constructor
    · rintro - p below ⟨⟩
    · intro _
      rfl
  | cons d ds ih =>
    rw [signBy, firstLarge, valueFrom_cons]
    obtain ⟨p, hp⟩ : ∃ p, p = v * base + d := ⟨_, rfl⟩
    rw [← hp]
    by_cases hhigh : limit ≤ p
    · rw [if_pos hhigh, if_pos (hhigh.trans (le_abs_self p))]
      constructor
      · rintro hsign _ _ heq
        cases heq
        rw [← hsign, Int.sign_eq_one_of_pos (by omega)]
      · intro hall
        rw [hall p ds rfl, Int.sign_eq_one_of_pos (by omega)]
    · by_cases hlow : p ≤ -limit
      · rw [if_neg hhigh, if_pos hlow, if_pos (le_abs'.2 (.inl hlow))]
        constructor
        · rintro hsign _ _ heq
          cases heq
          rw [← hsign, Int.sign_eq_neg_one_of_neg (by omega)]
        · intro hall
          rw [hall p ds rfl, Int.sign_eq_neg_one_of_neg (by omega)]
      · rw [if_neg hhigh, if_neg hlow, if_neg (by rw [le_abs']; omega)]
        exact ih p

theorem firstLarge_spec {v : Int} {ds : List Int} {p : Int} {below : List Int}
    (h : firstLarge base limit v ds = some (p, below)) : limit ≤ |p| ∧ below <:+ ds := by
  induction ds generalizing v with
  | nil => cases h
  | cons d ds ih =>
    rw [firstLarge] at h
    split_ifs at h with hlarge
    · cases h
      exact ⟨hlarge, List.suffix_cons d _⟩
    · obtain ⟨hlimit, hsuffix⟩ := ih h
      exact ⟨hlimit, hsuffix.trans (List.suffix_cons d ds)⟩

/-- With digits that cannot outweigh a part of `limit`, the sign is always right. -/
theorem signBy_eq {m : Int} (hbase : 1 < base) (hlimit : 0 < limit) (hm : m ≤ (base - 1) * limit) (v : Int)
    {ds : List Int} (h : ∀ d ∈ ds, |d| ≤ m) : signBy base limit v ds = (valueFrom base v ds).sign := by
  rw [signBy_eq_iff hlimit]
  intro p below hfirst
  obtain ⟨hlarge, hsuffix⟩ := firstLarge_spec hfirst
  refine sign_valueFrom hbase (fun d hd => h d (hsuffix.mem hd)) (abs_pos.1 (by omega)) (hm.trans ?_)
  exact mul_le_mul_of_nonneg_left hlarge (by omega)

/-- With digits that cannot outweigh a part above `limit`, it is wrong only at `limit` itself. -/
theorem signBy_eq_iff_of_le {m : Int} (hbase : 1 < base) (hlimit : 0 < limit) (hm : m ≤ (base - 1) * (limit + 1)) (v : Int)
    {ds : List Int} (h : ∀ d ∈ ds, |d| ≤ m) :
    signBy base limit v ds = (valueFrom base v ds).sign ↔
      ∀ p below, firstLarge base limit v ds = some (p, below) → |p| = limit → (valueFrom base p below).sign = p.sign := by
  rw [signBy_eq_iff hlimit]
  constructor
  · intro hall p below hfirst _
    exact hall p below hfirst
  · intro hall p below hfirst
    obtain ⟨hlarge, hsuffix⟩ := firstLarge_spec hfirst
    by_cases hexact : |p| = limit
    · exact hall p below hfirst hexact
    · refine sign_valueFrom hbase (fun d hd => h d (hsuffix.mem hd)) (abs_pos.1 (by omega)) (hm.trans ?_)
      exact mul_le_mul_of_nonneg_left (by omega) (by omega)

end

end Lib.BalancedDigits
