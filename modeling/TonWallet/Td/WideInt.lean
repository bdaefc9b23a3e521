/-
The integers that five digits hold, and the number of bits that one takes, by their values (`BigInt256`).
-/
import TonWallet.Lib.TwosComplement
import TonWallet.Td.BigIntBits

namespace TonWallet.Td

open Lib Lib.BalancedDigits

/-! ## Numbers of bits -/

/-- `bit_size`. -/
def bitSizeOf (sgnd : Bool) (x : Int) : Nat :=
  if x = 0 then 0
  else if 0 < x then bitLength x.toNat + sgnd.toNat
  else if sgnd then bitLength (-x - 1).toNat + 1
  else 0x7fffffff

theorem bitLength_toNat_le_iff {x : Int} (hx : 0 ≤ x) (n : Nat) : bitLength x.toNat ≤ n ↔ x < 2 ^ n := by
  have hcast : ((x.toNat : Int) < ((2 ^ n : Nat) : Int)) ↔ x < 2 ^ n := by
    rw [Int.toNat_of_nonneg hx]
    push_cast
    rfl
  rw [bitLength_le_iff, ← hcast]
  exact Int.ofNat_lt.symm

/-- It is the least number of bits that hold the number. -/
theorem bitSizeOf_le_iff {sgnd : Bool} {x : Int} {n : Nat} (hn : n < 0x7fffffff) : bitSizeOf sgnd x ≤ n ↔ FitsBits sgnd n x := by
  have hpow : (0 : Int) < 2 ^ n := by positivity
  unfold bitSizeOf
  rcases lt_trichotomy x 0 with hneg | rfl | hpos
  · rw [if_neg hneg.ne, if_neg hneg.not_gt]
    cases sgnd with
    | false =>
      rw [if_neg Bool.false_ne_true, fitsBits_unsigned]
      omega
    | true =>
      rw [if_pos rfl]
      cases n with
      | zero =>
        rw [fitsBits_zero]
        omega
      | succ n =>
        rw [Nat.succ_le_succ_iff, bitLength_toNat_le_iff (by omega), fitsBits_signed_succ]
        have : (0 : Int) < 2 ^ n := by positivity
        omega
  · rw [if_pos rfl]
    cases sgnd with
    | false => exact iff_of_true (Nat.zero_le n) ⟨le_refl 0, hpow⟩
    | true => exact iff_of_true (Nat.zero_le n) ⟨by omega, by omega⟩
  · rw [if_neg hpos.ne', if_pos hpos]
    cases sgnd with
    | false =>
      rw [Bool.toNat_false, Nat.add_zero, bitLength_toNat_le_iff hpos.le, fitsBits_unsigned]
      omega
    | true =>
      rw [Bool.toNat_true]
      cases n with
      | zero =>
        rw [fitsBits_zero]
        omega
      | succ n =>
        rw [Nat.succ_le_succ_iff, bitLength_toNat_le_iff hpos.le, fitsBits_signed_succ]
        have : (0 : Int) < 2 ^ n := by positivity
        omega

/-! ## Five digits -/

namespace BigInt

/-- Ones in all of so many digits. -/
def ones : Nat → Int
  | 0 => 0
  | n + 1 => 1 + base * ones n

/-- What so many digits add up to. -/
def FitsDigits (n : Nat) (x : Int) : Prop := -(half * ones n) ≤ x ∧ x ≤ (half - 1) * ones n

instance (n : Nat) (x : Int) : Decidable (FitsDigits n x) :=
  inferInstanceAs (Decidable (-(half * ones n) ≤ x ∧ x ≤ (half - 1) * ones n))

theorem exists_digits {n : Nat} {x : Int} (h : FitsDigits n x) :
    ∃ ds : List Int, ds.length = n ∧ (∀ d ∈ ds, InRange half d) ∧ value base ds = x := by
  induction n generalizing x with
  | zero =>
    refine ⟨[], rfl, by rintro d ⟨⟩, ?_⟩
    obtain ⟨hlow, hhigh⟩ := h
    rw [ones, mul_zero] at hlow hhigh
    rw [value_nil]
    omega
  | succ n ih =>
    obtain ⟨hlow, hhigh⟩ := h
    have hrest : FitsDigits n ((x + half) / base) := by
      rw [FitsDigits]
      rw [ones] at hlow hhigh
      unfold half base at *
      omega
    obtain ⟨ds, hlength, hrange, hvalue⟩ := ih hrest
    refine ⟨((x + half) % base - half) :: ds, by rw [List.length_cons, hlength], ?_, ?_⟩
    · intro d hd
      rcases List.mem_cons.1 hd with rfl | hd
      · unfold InRange half base
        omega
      · exact hrange d hd
    · have hsplit := Int.emod_add_mul_ediv (x + half) base
      rw [value_cons, hvalue]
      linarith

end BigInt

end TonWallet.Td
