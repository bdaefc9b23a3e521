/-
The lowest set bit of a number: the number that is left without it, and numbers that agree above it.
-/
import Mathlib.Data.Nat.Bitwise

namespace Lib

/-- The lowest set bit of `n` is at position `t`. -/
structure LowBit (n t : Nat) : Prop where
  set : n.testBit t = true
  below : ∀ i < t, n.testBit i = false

namespace LowBit

variable {n m t : Nat}

/-- The bits above the lowest one, and that one. -/
theorem eq_add (h : LowBit n t) : n = 2 ^ (t + 1) * (n / 2 ^ (t + 1)) + 2 ^ t := by
  have hlow : n % 2 ^ (t + 1) = 2 ^ t := by
    apply Nat.eq_of_testBit_eq
    intro i
    rw [Nat.testBit_mod_two_pow, Nat.testBit_two_pow]
    rcases lt_trichotomy i t with hi | rfl | hi
    · rw [h.below i hi, Bool.and_false, eq_comm, decide_eq_false_iff_not]
      omega
    · simp [h.set]
    · rw [decide_eq_false (by omega), Bool.false_and, eq_comm, decide_eq_false_iff_not]
      omega
  conv_lhs => rw [← Nat.div_add_mod n (2 ^ (t + 1)), hlow]

theorem of_eq {a : Nat} (h : n = 2 ^ (t + 1) * a + 2 ^ t) : LowBit n t := by
  have hlt : 2 ^ t < 2 ^ (t + 1) := Nat.pow_lt_pow_right (by decide) (by omega)
  constructor
  · rw [h, Nat.testBit_two_pow_mul_add _ hlt, if_pos (by omega), Nat.testBit_two_pow_self]
  · intro i hi
    rw [h, Nat.testBit_two_pow_mul_add _ hlt, if_pos (by omega), Nat.testBit_two_pow_of_ne (by omega)]

/-- `n & (n - 1)` takes the lowest bit away. -/
theorem testBit_and_sub_one (h : LowBit n t) (i : Nat) :
    (n &&& (n - 1)).testBit i = (decide (t < i) && n.testBit i) := by
  have hpos : 0 < 2 ^ t := Nat.two_pow_pos t
  have hlt : 2 ^ t < 2 ^ (t + 1) := Nat.pow_lt_pow_right (by decide) (by omega)
  have hpred : n - 1 = 2 ^ (t + 1) * (n / 2 ^ (t + 1)) + (2 ^ t - 1) := by
    have heq := h.eq_add
    omega
  have hbit : (n - 1).testBit i = if i < t + 1 then decide (i < t) else n.testBit i := by
    rw [hpred, Nat.testBit_two_pow_mul_add _ (by omega), Nat.testBit_two_pow_sub_one, Nat.testBit_div_two_pow]
    split
    · rfl
    · congr 1
      omega
  rw [Nat.testBit_and, hbit]
  rcases lt_trichotomy i t with hi | rfl | hi
  · rw [h.below i hi, Bool.false_and, Bool.and_false]
  · rw [if_pos (by omega), decide_eq_false (lt_irrefl i), Bool.and_false, Bool.false_and]
  · rw [if_neg (by omega), decide_eq_true hi, Bool.true_and, Bool.and_self]

/-- The negation in `w` bits keeps the lowest bit and inverts those above. -/
theorem testBit_neg {w : Nat} (h : LowBit n t) (hn : n < 2 ^ w) (i : Nat) :
    (2 ^ w - n).testBit i = if i ≤ t then decide (i = t) else decide (i < w) && !n.testBit i := by
  have hpos : 0 < 2 ^ t := Nat.two_pow_pos t
  have hlt : 2 ^ t < 2 ^ (t + 1) := Nat.pow_lt_pow_right (by decide) (by omega)
  have htw : t + 1 ≤ w := by
    have hle : 2 ^ t < 2 ^ w := (Nat.ge_two_pow_of_testBit h.set).trans_lt hn
    exact (Nat.pow_lt_pow_iff_right (by decide)).1 hle
  have hsplit : 2 ^ w = 2 ^ (t + 1) * 2 ^ (w - (t + 1)) := by
    rw [← pow_add, Nat.add_sub_cancel' htw]
  have hquot : n / 2 ^ (t + 1) < 2 ^ (w - (t + 1)) := by
    rw [Nat.div_lt_iff_lt_mul (Nat.two_pow_pos _), Nat.mul_comm, ← hsplit]
    exact hn
  have hneg : 2 ^ w - n = 2 ^ (t + 1) * (2 ^ (w - (t + 1)) - (n / 2 ^ (t + 1) + 1)) + 2 ^ t := by
    have heq := h.eq_add
    have hle : 2 ^ (t + 1) * (n / 2 ^ (t + 1) + 1) ≤ 2 ^ (t + 1) * 2 ^ (w - (t + 1)) := Nat.mul_le_mul_left _ hquot
    rw [Nat.mul_sub, hsplit]
    rw [Nat.mul_add] at hle ⊢
    rw [pow_succ] at *
    omega
  rw [hneg, Nat.testBit_two_pow_mul_add _ hlt]
  by_cases hi : i ≤ t
  · rw [if_pos (by omega), if_pos hi, Nat.testBit_two_pow]
    exact decide_eq_decide.2 eq_comm
  · rw [if_neg (by omega), if_neg hi, Nat.testBit_two_pow_sub_succ hquot, Nat.testBit_div_two_pow,
      Nat.sub_add_cancel (by omega : t + 1 ≤ i)]
    congr 1
    exact decide_eq_decide.2 (by omega)

/-- `n & -n` is the lowest bit. -/
theorem and_neg {w : Nat} (h : LowBit n t) (hn : n < 2 ^ w) : n &&& (2 ^ w - n) = 2 ^ t := by
  apply Nat.eq_of_testBit_eq
  intro i
  rw [Nat.testBit_and, h.testBit_neg hn, Nat.testBit_two_pow]
  rcases lt_trichotomy i t with hi | rfl | hi
  · rw [h.below i hi, Bool.false_and, decide_eq_false (by omega)]
  · simp [h.set]
  · rw [if_neg (by omega), decide_eq_false (by omega : ¬t = i)]
    cases n.testBit i <;> simp

theorem unique {s : Nat} (hs : LowBit n s) (ht : LowBit n t) : s = t := by
  by_contra hne
  rcases Nat.lt_or_gt_of_ne hne with h | h
  · exact Bool.false_ne_true ((ht.below s h).symm.trans hs.set)
  · exact Bool.false_ne_true ((hs.below t h).symm.trans ht.set)

/-- Numbers with one lowest bit that agree above it are the same. -/
theorem ext (hn : LowBit n t) (hm : LowBit m t) (h : ∀ i, t < i → n.testBit i = m.testBit i) : n = m := by
  apply Nat.eq_of_testBit_eq
  intro i
  rcases lt_trichotomy i t with hi | rfl | hi
  · rw [hn.below i hi, hm.below i hi]
  · rw [hn.set, hm.set]
  · exact h i hi

end LowBit

/-- The low `k` bits are clear when the mask `2 ^ k - 1` says so. -/
theorem and_two_pow_sub_one_eq_zero_iff {n k : Nat} :
    n &&& (2 ^ k - 1) = 0 ↔ ∀ i < k, n.testBit i = false := by
  constructor
  · intro h i hi
    have hbit := congrArg (Nat.testBit · i) h
    simpa only [Nat.testBit_and, Nat.testBit_two_pow_sub_one, decide_eq_true hi, Bool.and_true,
      Nat.zero_testBit] using hbit
  · intro h
    apply Nat.eq_of_testBit_eq
    intro i
    rw [Nat.testBit_and, Nat.testBit_two_pow_sub_one, Nat.zero_testBit]
    by_cases hi : i < k
    · rw [h i hi, Bool.false_and]
    · rw [decide_eq_false hi, Bool.and_false]

end Lib
