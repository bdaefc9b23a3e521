/-
Read-ahead windows: a word holds the next bits of a stream, the first one at the top. Bits of the stream may be in it
that are not counted yet, so a refill is an "or" with bits that are there already, or are not.
-/
import Mathlib.Data.BitVec
import TonWallet.Lib.Bits

namespace Lib.ReadAhead

variable {w n m : Nat} {s : Nat → Bool} {z y : BitVec w}

/-- The first `n` bits of a word are those of a stream. -/
def Shows (s : Nat → Bool) (z : BitVec w) (n : Nat) : Prop := ∀ k < n, z.getMsbD k = s k

/-- Every bit that is set in a word is set in a stream. -/
def Below (s : Nat → Bool) (z : BitVec w) : Prop := ∀ k, z.getMsbD k = true → s k = true

/-- A word has the bits of a stream from `n` to `n + m`, and no others. -/
def Fills (s : Nat → Bool) (y : BitVec w) (n m : Nat) : Prop := ∀ k, y.getMsbD k = (decide (n ≤ k ∧ k < n + m) && s k)

theorem Shows.mono (h : Shows s z n) (hm : m ≤ n) : Shows s z m := fun k hk => h k (hk.trans_le hm)

theorem shows_zero : Shows s z 0 := fun _ hk => absurd hk (Nat.not_lt_zero _)

theorem Fills.below (h : Fills s y n m) : Below s y := by
  intro k hk
  rw [h k, Bool.and_eq_true] at hk
  exact hk.2

/-- What is filled from the start is shown. -/
theorem Fills.shows (h : Fills s y 0 m) : Shows s y m := by
  intro k hk
  rw [h k, decide_eq_true ⟨Nat.zero_le k, by omega⟩, Bool.true_and]

theorem Below.or (hz : Below s z) (hy : Below s y) : Below s (z ||| y) := by
  intro k hk
  rw [BitVec.getMsbD_or, Bool.or_eq_true] at hk
  exact hk.elim (hz k) (hy k)

/-- A refill shows more of the stream. -/
theorem Shows.or (h : Shows s z n) (hz : Below s z) (hy : Fills s y n m) : Shows s (z ||| y) (n + m) := by
  intro k hk
  rw [BitVec.getMsbD_or, hy k]
  by_cases hkn : k < n
  · rw [h k hkn, decide_eq_false (by omega), Bool.false_and, Bool.or_false]
  · rw [decide_eq_true ⟨by omega, hk⟩, Bool.true_and]
    cases hs : s k with
    | true => rw [Bool.or_true]
    | false =>
      rw [Bool.or_false, ← Bool.not_eq_true]
      exact fun hbit => Bool.false_ne_true (hs.symm.trans (hz k hbit))

/-- Bits that are consumed leave the word at the top. -/
theorem Shows.shiftLeft (h : Shows s z n) (b : Nat) : Shows (fun k => s (b + k)) (z <<< b) (n - b) := by
  intro k hk
  rw [BitVec.getMsbD_shiftLeft, Nat.add_comm k b]
  exact h (b + k) (by omega)

theorem Below.shiftLeft (h : Below s z) (b : Nat) : Below (fun k => s (b + k)) (z <<< b) := by
  intro k hk
  rw [BitVec.getMsbD_shiftLeft, Nat.add_comm k b] at hk
  exact h (b + k) hk

/-- The first bits of a word as a number. -/
theorem toNat_ushiftRight_eq (z : BitVec w) (hn : n ≤ w) : (z >>> (w - n)).toNat = bitsToNat ((List.range n).map z.getMsbD) := by
  induction n with
  | zero => 
    rw [BitVec.toNat_ushiftRight, Nat.shiftRight_eq_div_pow]
    exact Nat.div_eq_of_lt z.isLt
  | succ n ih =>
    have hbit : z.getMsbD n = z.toNat.testBit (w - (n + 1)) := by
      rw [BitVec.getMsbD_eq_getLsbD, decide_eq_true (by omega), Bool.true_and, ← BitVec.testBit_toNat, Nat.add_comm n 1, Nat.sub_sub]
    rw [List.range_succ, List.map_append, List.map_singleton, bitsToNat_snoc, ← ih (by omega), hbit,
      BitVec.toNat_ushiftRight, BitVec.toNat_ushiftRight, Nat.shiftRight_eq_div_pow, Nat.shiftRight_eq_div_pow,
      Nat.toNat_testBit, show w - n = w - (n + 1) + 1 by omega, Nat.pow_succ, ← Nat.div_div_eq_div_mul]
    omega

theorem Shows.toNat (h : Shows s z n) (hn : n ≤ w) : (z >>> (w - n)).toNat = bitsToNat ((List.range n).map s) := by
  rw [toNat_ushiftRight_eq z hn]
  congr 1
  exact List.map_congr_left fun k hk => h k (List.mem_range.1 hk)

/-- The first bits of a word as a number with a sign. -/
theorem sshiftRight_eq (z : BitVec w) (hpos : 0 < n) (hn : n ≤ w) :
    z.sshiftRight (w - n) = (BitVec.ofNat n (z >>> (w - n)).toNat).signExtend w := by
  have hbit (i : Nat) (hi : i < n) : (BitVec.ofNat n (z >>> (w - n)).toNat).getLsbD i = z.getLsbD (w - n + i) := by
    rw [BitVec.getLsbD_ofNat, decide_eq_true hi, Bool.true_and, BitVec.testBit_toNat, BitVec.getLsbD_ushiftRight]
  apply BitVec.eq_of_getLsbD_eq
  intro i hi
  rw [BitVec.getLsbD_sshiftRight, BitVec.getLsbD_signExtend, decide_eq_false (by omega), decide_eq_true hi, Bool.not_false,
    Bool.true_and, Bool.true_and]
  by_cases h : i < n
  · rw [if_pos (by omega), if_pos h, hbit i h]
  · -- the sign is the first bit of both
    rw [if_neg (by omega), if_neg h, BitVec.msb_eq_getLsbD_last, BitVec.msb_eq_getLsbD_last, hbit _ (by omega)]
    congr 1
    omega

/-- A number that is put into a word above `sh` bits. -/
theorem getMsbD_ofNat_shiftLeft (c sh k : Nat) :
    (BitVec.ofNat w c <<< sh).getMsbD k = (decide (k + sh < w) && c.testBit (w - 1 - (k + sh))) := by
  rw [BitVec.getMsbD_shiftLeft, BitVec.getMsbD_eq_getLsbD, BitVec.getLsbD_ofNat]
  by_cases h : k + sh < w
  · rw [decide_eq_true h, decide_eq_true (by omega), Bool.true_and, Bool.true_and]
  · rw [decide_eq_false h, Bool.false_and, Bool.false_and]

/-- A number of `m` bits that is put into a word from `n` on; what it has above these bits falls out only at the top. -/
theorem fills_ofNat {c sh : Nat} (hw : n + m + sh = w) (hc : n = 0 ∨ c < 2 ^ m) (h : ∀ j < m, c.testBit (m - 1 - j) = s (n + j)) :
    Fills s (BitVec.ofNat w c <<< sh) n m := by
  intro k
  rw [getMsbD_ofNat_shiftLeft]
  by_cases hk : n ≤ k ∧ k < n + m
  · obtain ⟨j, rfl⟩ := Nat.exists_eq_add_of_le hk.1
    rw [decide_eq_true hk, decide_eq_true (by omega), Bool.true_and, Bool.true_and, ← h j (by omega),
      show w - 1 - (n + j + sh) = m - 1 - j by omega]
  · rw [decide_eq_false hk, Bool.false_and]
    by_cases hsh : k + sh < w
    · have hlt : c < 2 ^ m := hc.resolve_left (by omega)
      rw [Nat.testBit_lt_two_pow (hlt.trans_le (Nat.pow_le_pow_right (by decide) (by omega))), Bool.and_false]
    · rw [decide_eq_false hsh, Bool.false_and]

/-! ## Bytes -/

/-- The bits of a stream of bytes. -/
def byteBit (d : Nat → UInt8) (i : Nat) : Bool := (d (i / 8)).toNat.testBit (7 - i % 8)

theorem byteBit_add (d : Nat → UInt8) (p j : Nat) : byteBit d (8 * p + j) = byteBit (fun i => d (p + i)) j := by
  unfold byteBit
  rw [Nat.mul_add_div (by decide), Nat.mul_add_mod]

/-- A byte as a chunk of the stream. -/
theorem testBit_byte (d : Nat → UInt8) {p i : Nat} (hi : i < 8) : (d p).toNat.testBit (7 - i) = byteBit d (8 * p + i) := by
  rw [byteBit_add, byteBit, Nat.div_eq_of_lt hi, Nat.mod_eq_of_lt hi, Nat.add_zero]

/-- Four bytes as one chunk. -/
theorem testBit_fourBytes (d : Nat → UInt8) {p i : Nat} (hi : i < 32) :
    ((d p).toNat * 2 ^ 24 + (d (p + 1)).toNat * 2 ^ 16 + (d (p + 2)).toNat * 2 ^ 8 + (d (p + 3)).toNat).testBit (31 - i) =
      byteBit d (8 * p + i) := by
  have hsum : (d p).toNat * 2 ^ 24 + (d (p + 1)).toNat * 2 ^ 16 + (d (p + 2)).toNat * 2 ^ 8 + (d (p + 3)).toNat =
      2 ^ 8 * (2 ^ 8 * (2 ^ 8 * (d p).toNat + (d (p + 1)).toNat) + (d (p + 2)).toNat) + (d (p + 3)).toNat := by
    omega
  have hbyte (j : Nat) : (d (p + j)).toNat < 2 ^ 8 := UInt8.toNat_lt _
  rw [hsum, Nat.testBit_two_pow_mul_add _ (hbyte 3), Nat.testBit_two_pow_mul_add _ (hbyte 2),
    Nat.testBit_two_pow_mul_add _ (hbyte 1), byteBit_add, byteBit]
  have hq : i / 8 = 0 ∨ i / 8 = 1 ∨ i / 8 = 2 ∨ i / 8 = 3 := by omega
  rcases hq with hq | hq | hq | hq <;> rw [hq]
  · rw [if_neg (by omega), if_neg (by omega), if_neg (by omega), show 31 - i - 8 - 8 - 8 = 7 - i % 8 by omega, Nat.add_zero]
  · rw [if_neg (by omega), if_neg (by omega), if_pos (by omega), show 31 - i - 8 - 8 = 7 - i % 8 by omega]
  · rw [if_neg (by omega), if_pos (by omega), show 31 - i - 8 = 7 - i % 8 by omega]
  · rw [if_pos (by omega), show 31 - i = 7 - i % 8 by omega]

end Lib.ReadAhead
