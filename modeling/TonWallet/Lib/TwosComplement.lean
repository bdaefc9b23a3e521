/-
Integers in so many bits, with a sign (two's complement) or without: which ones fit, how they are written and read, and
when they would fit fewer bits.
-/
import Mathlib.Tactic.Linarith
import TonWallet.Lib.Bits

namespace Lib

/-- What `n` bits hold, with a sign or without. -/
def FitsBits (sgnd : Bool) (n : Nat) (x : Int) : Prop :=
  if sgnd then -(2 ^ n) ≤ 2 * x ∧ 2 * x < 2 ^ n else 0 ≤ x ∧ x < 2 ^ n

instance (sgnd : Bool) (n : Nat) (x : Int) : Decidable (FitsBits sgnd n x) := match sgnd with
  | true => inferInstanceAs (Decidable (-(2 ^ n) ≤ 2 * x ∧ 2 * x < 2 ^ n))
  | false => inferInstanceAs (Decidable (0 ≤ x ∧ x < 2 ^ n))

theorem fitsBits_signed {n : Nat} {x : Int} : FitsBits true n x ↔ -(2 ^ n) ≤ 2 * x ∧ 2 * x < 2 ^ n := Iff.rfl

theorem fitsBits_unsigned {n : Nat} {x : Int} : FitsBits false n x ↔ 0 ≤ x ∧ x < 2 ^ n := Iff.rfl

theorem FitsBits.mono {sgnd : Bool} {m n : Nat} {x : Int} (h : FitsBits sgnd m x) (hmn : m ≤ n) : FitsBits sgnd n x := by
  have hpow : (2 : Int) ^ m ≤ 2 ^ n := pow_le_pow_right₀ (by decide) hmn
  cases sgnd with
  | false => exact ⟨h.1, h.2.trans_le hpow⟩
  | true =>
    obtain ⟨hlow, hhigh⟩ := fitsBits_signed.1 h
    exact fitsBits_signed.2 ⟨by linarith, by linarith⟩

theorem fitsBits_zero {sgnd : Bool} {x : Int} : FitsBits sgnd 0 x ↔ x = 0 := by
  cases sgnd with
  | false =>
    rw [fitsBits_unsigned, pow_zero]
    omega
  | true =>
    rw [fitsBits_signed, pow_zero]
    omega

theorem fitsBits_signed_succ {n : Nat} {x : Int} : FitsBits true (n + 1) x ↔ -(2 ^ n) ≤ x ∧ x < 2 ^ n := by
  rw [fitsBits_signed, pow_succ]
  constructor <;> rintro ⟨hlow, hhigh⟩ <;> constructor <;> linarith

/-! ## Reading and writing -/

/-- The number in bits, most significant bit first; the first one is the sign. -/
def bitsToInt (bs : List Bool) : Int := bitsToNat bs - if bs.headD false then 2 ^ bs.length else 0

/-- The number in bits, with a sign or without. -/
def readBits (sgnd : Bool) (bs : List Bool) : Int := if sgnd then bitsToInt bs else bitsToNat bs

/-- The bits of a number. -/
def writeBits (n : Nat) (x : Int) : List Bool := natToBits n (x % 2 ^ n).toNat

@[simp] theorem length_writeBits (n : Nat) (x : Int) : (writeBits n x).length = n := length_natToBits n _

theorem bitsToInt_cons (b : Bool) (bs : List Bool) : bitsToInt (b :: bs) = bitsToNat bs - if b then 2 ^ bs.length else 0 := by
  have hnat := bitsToNat_append [b] bs
  rw [List.singleton_append] at hnat
  rw [bitsToInt, hnat, List.headD_cons, List.length_cons]
  cases b with
  | false => simp [bitsToNat]
  | true =>
    have hone : bitsToNat [true] = 1 := rfl
    rw [hone, if_pos rfl, if_pos rfl, pow_succ]
    push_cast
    ring

/-- The sign stays in front. -/
theorem bitsToInt_append {hi : List Bool} (hne : hi ≠ []) (lo : List Bool) :
    bitsToInt (hi ++ lo) = bitsToInt hi * 2 ^ lo.length + bitsToNat lo := by
  cases hi with
  | nil => exact absurd rfl hne
  | cons b hi =>
    rw [List.cons_append, bitsToInt_cons, bitsToInt_cons, bitsToNat_append, List.length_append, pow_add]
    push_cast
    cases b with
    | false => rw [if_neg Bool.false_ne_true, if_neg Bool.false_ne_true]; ring
    | true => rw [if_pos rfl, if_pos rfl]; ring

theorem fitsBits_bitsToNat (bs : List Bool) : FitsBits false bs.length (bitsToNat bs) :=
  ⟨Int.natCast_nonneg _, by exact_mod_cast bitsToNat_lt bs⟩

theorem fitsBits_bitsToInt (bs : List Bool) : FitsBits true bs.length (bitsToInt bs) := by
  cases bs with
  | nil => decide
  | cons b bs =>
    rw [List.length_cons, fitsBits_signed_succ, bitsToInt_cons]
    obtain ⟨hlow, hhigh⟩ := fitsBits_unsigned.1 (fitsBits_bitsToNat bs)
    cases b with
    | false => rw [if_neg Bool.false_ne_true]; constructor <;> linarith
    | true => rw [if_pos rfl]; constructor <;> linarith

theorem fitsBits_readBits (sgnd : Bool) (bs : List Bool) : FitsBits sgnd bs.length (readBits sgnd bs) := by
  cases sgnd with
  | false => exact fitsBits_bitsToNat bs
  | true => exact fitsBits_bitsToInt bs

theorem readBits_emod (sgnd : Bool) (bs : List Bool) : readBits sgnd bs % 2 ^ bs.length = bitsToNat bs := by
  obtain ⟨hlow, hhigh⟩ := fitsBits_unsigned.1 (fitsBits_bitsToNat bs)
  cases sgnd with
  | false => exact Int.emod_eq_of_lt hlow hhigh
  | true =>
    show bitsToInt bs % 2 ^ bs.length = _
    rw [bitsToInt]
    split
    · rw [Int.sub_emod_right, Int.emod_eq_of_lt hlow hhigh]
    · rw [sub_zero, Int.emod_eq_of_lt hlow hhigh]

/-- What is read is written as it was. -/
theorem writeBits_readBits (sgnd : Bool) (bs : List Bool) : writeBits bs.length (readBits sgnd bs) = bs := by
  rw [writeBits, readBits_emod, Int.toNat_natCast, natToBits_bitsToNat]

theorem FitsBits.eq_of_emod {sgnd : Bool} {n : Nat} {x y : Int} (hx : FitsBits sgnd n x) (hy : FitsBits sgnd n y)
    (h : x % 2 ^ n = y % 2 ^ n) : x = y := by
  have hdvd : (2 : Int) ^ n ∣ y - x := Int.dvd_of_emod_eq_zero (Int.emod_eq_emod_iff_emod_sub_eq_zero.1 h.symm)
  have hdiff : -(2 ^ n) < y - x ∧ y - x < 2 ^ n := by
    cases sgnd with
    | false =>
      obtain ⟨hx0, hx1⟩ := fitsBits_unsigned.1 hx
      obtain ⟨hy0, hy1⟩ := fitsBits_unsigned.1 hy
      constructor <;> linarith
    | true =>
      obtain ⟨hx0, hx1⟩ := fitsBits_signed.1 hx
      obtain ⟨hy0, hy1⟩ := fitsBits_signed.1 hy
      constructor <;> linarith
  have hzero := Int.eq_zero_of_abs_lt_dvd hdvd (abs_lt.2 hdiff)
  omega

/-- What is written is read back, when it fits. -/
theorem readBits_writeBits {sgnd : Bool} {n : Nat} {x : Int} (h : FitsBits sgnd n x) : readBits sgnd (writeBits n x) = x := by
  have hread := fitsBits_readBits sgnd (writeBits n x)
  have hemod := readBits_emod sgnd (writeBits n x)
  rw [length_writeBits] at hread hemod
  apply hread.eq_of_emod h
  have hnonneg : 0 ≤ x % 2 ^ n := Int.emod_nonneg _ (by positivity)
  have hlt : x % 2 ^ n < 2 ^ n := Int.emod_lt_of_pos _ (by positivity)
  have hnat : (x % 2 ^ n).toNat < 2 ^ n := by
    have : ((x % 2 ^ n).toNat : Int) < ((2 ^ n : Nat) : Int) := by
      rw [Int.toNat_of_nonneg hnonneg]
      exact_mod_cast hlt
    exact_mod_cast this
  rw [hemod, writeBits, bitsToNat_natToBits, Nat.mod_eq_of_lt hnat, Int.toNat_of_nonneg hnonneg]

/-! ## Fewer bits -/

/-- Nothing is lost without bits that are all zero. -/
theorem fits_lower_unsigned (hi lo : List Bool) : FitsBits false lo.length (readBits false (hi ++ lo)) ↔ bitsToNat hi = 0 := by
  have hlo := bitsToNat_lt lo
  have heq : readBits false (hi ++ lo) = ((2 ^ lo.length * bitsToNat hi + bitsToNat lo : Nat) : Int) := by
    rw [← bitsToNat_append]
    rfl
  rw [heq, fitsBits_unsigned]
  constructor
  · rintro ⟨-, h⟩
    have hnat : 2 ^ lo.length * bitsToNat hi + bitsToNat lo < 2 ^ lo.length := by exact_mod_cast h
    by_contra hne
    have : 2 ^ lo.length ≤ 2 ^ lo.length * bitsToNat hi := Nat.le_mul_of_pos_right _ (Nat.pos_of_ne_zero hne)
    omega
  · intro h
    rw [h, mul_zero, zero_add]
    exact ⟨Int.natCast_nonneg _, by exact_mod_cast hlo⟩

/-- Nothing is lost when the bits in front are all like the sign. -/
theorem fits_lower_signed {hi : List Bool} (hne : hi ≠ []) (lo : List Bool) :
    FitsBits true (lo.length + 1) (readBits true (hi ++ lo)) ↔ bitsToInt hi = 0 ∨ bitsToInt hi = -1 := by
  obtain ⟨hlow, hhigh⟩ := fitsBits_unsigned.1 (fitsBits_bitsToNat lo)
  have heq : readBits true (hi ++ lo) = bitsToInt hi * 2 ^ lo.length + bitsToNat lo := bitsToInt_append hne lo
  rw [heq, fitsBits_signed_succ]
  constructor
  · rintro ⟨hge, hlt⟩
    have h1 : bitsToInt hi < 1 := by
      by_contra hnot
      nlinarith
    have h2 : -2 < bitsToInt hi := by
      by_contra hnot
      nlinarith
    omega
  · rintro (h | h) <;> rw [h] <;> constructor <;> linarith

end Lib
