/-
Wide integers of at most three digits, as they are while they are not normalized: what a sum and a product do to each
digit, and what is left after a division by 2^16.
-/
import TonWallet.Td.BigInt

namespace TonWallet.Td.BigInt

open Lib.BalancedDigits

/-! ## Words -/

theorem word_natCast {n : Nat} (h : n < 9223372036854775808) : word n = n := word_of_fits (by omega) (by omega)

theorem word_word_add (x y : Int) : word (word x + y) = word (x + y) := by
  unfold word
  omega

theorem word_add_word (x y : Int) : word (x + word y) = word (x + y) := by
  rw [add_comm, word_word_add, add_comm]

theorem word_word (x : Int) : word (word x) = word x := by
  unfold word
  omega

theorem word_le {x : Int} (h : -9223372036854775808 ≤ x) : word x ≤ x := by
  unfold word
  omega

/-- A number that is no word comes out smaller by more than rounding can hide. -/
theorem word_add_le {x : Int} (hne : ¬x < 9223372036854775808) :
    word x + 18446744073709551616 ≤ x := by
  have := word_le_sub (not_lt.1 hne)
  omega

/-! ## Three digits -/

/-- A number of at most three digits, where a digit that is missing counts as zero. -/
inductive Digits : List Int → Int → Int → Int → Prop
  | one (a : Int) : Digits [a] a 0 0
  | two (a b : Int) : Digits [a, b] a b 0
  | three (a b c : Int) : Digits [a, b, c] a b c

namespace Digits

variable {xs ys : List Int} {a b c d e f : Int}

/-- Digits are added one by one, each as a word. -/
theorem add_digits (hx : Digits xs a b c) (hy : Digits ys d e f) (hb : word b = b) (hc : word c = c) (he : word e = e)
    (hf : word f = f) : Digits (add xs ys) (word (a + d)) (word (b + e)) (word (c + f)) := by
  cases hx <;> cases hy <;> simp only [add, addDigits, zero_add, add_zero, hb, hc, he, hf, maxSize, List.length_cons,
    List.length_nil, reduceCtorEq, false_or, Nat.reduceAdd, Nat.reduceLT, gt_iff_lt, if_false] <;> constructor

theorem sgn_nonneg (hx : Digits xs a b c) (ha : 0 ≤ a) (hb : 0 ≤ b) (hc : 0 ≤ c) : 0 ≤ sgn xs := by
  cases hx with
  | one => exact Int.sign_nonneg_iff.2 ha
  | two => exact Int.sign_nonneg_iff.2 hb
  | three => exact Int.sign_nonneg_iff.2 hc

theorem sgn_neg (hx : Digits xs a b c) (hc : c < 0) : sgn xs < 0 := by
  cases hx with
  | one => exact absurd hc (lt_irrefl 0)
  | two => exact absurd hc (lt_irrefl 0)
  | three => exact Int.sign_neg_iff.2 hc

/-- The product of two words takes two digits, the upper one of which may wrap. -/
theorem mul_word {x y : Int} (hx : 0 ≤ x) (hy : 0 ≤ y) :
    Digits (mulAddShort y 0 [x]) (y * x % base) (word (y * x / base)) 0 := by
  have hp : 0 ≤ y * x := mul_nonneg hy hx
  generalize hprod : y * x = p at hp
  have hlow : word (p % base + 0) = p % base := by
    unfold word base
    omega
  have hdef : mulAddShort y 0 [x] =
      if word (p / base) = 0 then [p % base] else [p % base] ++ [word (p / base)] := by
    simp only [mulAddShort, mulAddDigits, hprod, hlow]
    rfl
  rw [hdef]
  split_ifs with h0
  · rw [h0]
    exact one _
  · exact two _ _

/-- A product by a number of seconds takes three digits, none of which wraps. -/
theorem mul_seconds {y : Int} (hx : Digits xs a b 0) (hy : 0 ≤ y ∧ y < 4294967296)
    (ha : 0 ≤ a ∧ a < 9007199254740992) (hb : -9223372036854775808 ≤ b ∧ b < 9223372036854775808) :
    Digits (mulAddShort y 0 xs) (y * a % base) (y * b % base + y * a / base) (y * b / base) := by
  have hp : 0 ≤ y * a ∧ y * a < 38685626227668133590597632 := by
    constructor
    · exact mul_nonneg hy.1 ha.1
    · exact (mul_lt_mul'' hy.2 ha.2 hy.1 ha.1).trans_eq (by norm_num)
  have hq : -39614081257132168796771975168 ≤ y * b ∧ y * b ≤ 39614081257132168796771975168 := by
    constructor <;> nlinarith
  generalize hpa : y * a = p at hp
  generalize hqb : y * b = q at hq
  have hlow : word (p % base + 0) = p % base := by
    unfold word base
    omega
  have hcarry : word (p / base) = p / base := by
    unfold word base
    omega
  have hmiddle : word (q % base + p / base) = q % base + p / base := by
    unfold word base
    omega
  have htop : word (q / base) = q / base := by
    unfold word base
    omega
  cases hx with
  | one =>
    have hq0 : q = 0 := by rw [← hqb, mul_zero]
    have hdef : mulAddShort y 0 [a] = if p / base = 0 then [p % base] else [p % base] ++ [p / base] := by
      simp only [mulAddShort, mulAddDigits, hpa, hlow, hcarry]
      rfl
    rw [hdef, hq0, Int.zero_emod, Int.zero_ediv, zero_add]
    split_ifs with h0
    · rw [h0]
      exact one _
    · exact two _ _
  | two =>
    have hdef : mulAddShort y 0 [a, b] =
        if q / base = 0 then [p % base, q % base + p / base]
        else [p % base, q % base + p / base] ++ [q / base] := by
      simp only [mulAddShort, mulAddDigits, hpa, hqb, hlow, hcarry, hmiddle, htop]
      rfl
    rw [hdef]
    split_ifs with h0
    · rw [h0]
      exact two _ _
    · exact three _ _ _
  | three =>
    have hq0 := hqb
    have hdef : mulAddShort y 0 [a, b, 0] =
        [p % base, q % base + p / base, q / base] := by
      have hzero : word (y * 0 % base + q / base) = q / base := by
        rw [mul_zero, Int.zero_emod, zero_add, htop]
      have hnone : word (y * 0 / base) = 0 := by
        rw [mul_zero]
        rfl
      simp only [mulAddShort, mulAddDigits, hpa, hqb, hlow, hcarry, hmiddle, htop, hzero, hnone]
      rfl
    rw [hdef]
    exact three _ _ _

/-- What is left after the division by 2^16, rounded up. -/
theorem value_rshift {ds : List Int} {a b c : Int} (h : Digits ds a b c) :
    value base (rshift 16 1 ds) = (word (a - 1) + base * (b + base * c)) / 65536 + 1 := by
  have hsame : ∀ ws : List Int, value base ws = b + base * c →
      value base (rshift 16 1 (a :: ws)) = (word (a - 1) + base * (b + base * c)) / 65536 + 1 := by
    rintro ws hws
    have hshift := @value_rshiftDigits 16 (by decide) (word (-1 + a) / 2 ^ 16 + 1) ws
    rw [rshift, if_neg (by decide), if_pos (by decide), hshift, hws, show -1 + a = a - 1 by ring]
    have hpow : (2 : Int) ^ (wordShift - 16) = 68719476736 := by decide
    rw [hpow]
    unfold base
    omega
  cases h with
  | one => exact hsame [] (by simp)
  | two => exact hsame [b] (by simp [value_cons, value_nil])
  | three => exact hsame [b, c] (by simp [value_cons, value_nil])

end Digits

end TonWallet.Td.BigInt
