/-
The checksum `crc16` as a register: a byte at a time from the table is a bit at a time from the generator.
-/
import TonWallet.Lib.Crc
import TonWallet.Td.Base64

namespace TonWallet.Td

open Lib Lib.Crc

/-- The generator of `crc16`. -/
def crc16Poly : BitVec 16 := 0x1021

theorem crc16Poly_odd : Crc.Odd crc16Poly := rfl

/-- The register after some bits. -/
abbrev crc16Feed (r : BitVec 16) (bits : List Bool) : BitVec 16 := feedAll crc16Poly r bits

/-- What stands in the table. -/
def crc16Entry (x : Nat) : BitVec 16 := BitVec.ofNat 16 (crc16Table.getD x 0)

/-! ## The table -/

/-- The register as a number, after one bit. -/
def crc16Shift (r : Nat) (b : Bool) : Nat := r * 2 % 65536 ^^^ bif (r / 32768 % 2 == 1) ^^ b then 0x1021 else 0

theorem feed_ofNat (r : Nat) (b : Bool) : feed crc16Poly (BitVec.ofNat 16 r) b = BitVec.ofNat 16 (crc16Shift r b) := by
  have hmsb : (BitVec.ofNat 16 r).msb = (r / 32768 % 2 == 1) := by
    rw [BitVec.msb_eq_getLsbD_last, BitVec.getLsbD_ofNat, Nat.testBit_eq_decide_div_mod_eq]
    rfl
  have hshift : BitVec.ofNat 16 r <<< 1 = BitVec.ofNat 16 (r * 2 % 65536) := by
    apply BitVec.eq_of_toNat_eq
    rw [BitVec.toNat_shiftLeft, BitVec.toNat_ofNat, BitVec.toNat_ofNat, Nat.shiftLeft_eq]
    omega
  rw [feed, crc16Shift, hmsb, hshift, BitVec.ofNat_xor]
  cases ((r / 32768 % 2 == 1) ^^ b) <;> rfl

theorem crc16Feed_ofNat (r : Nat) (bits : List Bool) :
    crc16Feed (BitVec.ofNat 16 r) bits = BitVec.ofNat 16 (bits.foldl crc16Shift r) := by
  induction bits generalizing r with
  | nil => rfl
  | cons b bits ih => rw [crc16Feed, feedAll_cons, feed_ofNat, List.foldl_cons, ← ih]

theorem crc16Table_eq : crc16Table = (List.range 256).map fun x => (natToBits 8 x).foldl crc16Shift 0 := by
  decide +kernel

theorem crc16Feed_bits {x : Nat} (hx : x < 256) : crc16Feed 0 (natToBits 8 x) = crc16Entry x := by
  have hentry : crc16Table.getD x 0 = (natToBits 8 x).foldl crc16Shift 0 := by
    rw [crc16Table_eq, List.getD_eq_getElem?_getD, List.getElem?_map, List.getElem?_range hx]
    rfl
  rw [crc16Entry, hentry, ← crc16Feed_ofNat]
  rfl

/-- A byte at the top of the register is emptied by its own bits, so what it leaves is what they leave. -/
theorem crc16Feed_top {x : Nat} (hx : x < 256) :
    crc16Feed (BitVec.ofNat 16 x <<< 8) (List.replicate 8 false) = crc16Entry x := by
  have hself := feedAll_self crc16Poly (BitVec.ofNat 16 x <<< 8)
  have hnat : (BitVec.ofNat 16 x <<< 8).toNat = x * 256 := by
    rw [BitVec.toNat_shiftLeft, BitVec.toNat_ofNat, Nat.shiftLeft_eq]
    omega
  have hbits : natToBits 16 (x * 256) = natToBits 8 x ++ List.replicate 8 false := by
    rw [natToBits_add 8 8, show x * 256 / 2 ^ 8 = x by omega, ← natToBits_mod 8 (x * 256),
      show x * 256 % 2 ^ 8 = 0 by omega]
    rfl
  rw [hnat, hbits, feedAll_append] at hself
  have hzero := eq_zero_of_feedAll_zeros crc16Poly_odd 8 hself
  have hxor := feedAll_xor crc16Poly (BitVec.ofNat 16 x <<< 8) 0
    (show (List.replicate 8 false).length = (natToBits 8 x).length by rw [length_natToBits]; rfl)
  have hzip : List.zipWith xor (List.replicate 8 false) (natToBits 8 x) = natToBits 8 x := by
    simp [natToBits]
  rw [hzip, show BitVec.ofNat 16 x <<< 8 ^^^ (0 : BitVec 16) = BitVec.ofNat 16 x <<< 8 from BitVec.xor_zero, hzero] at hxor
  rw [← crc16Feed_bits hx]
  exact BitVec.xor_eq_zero_iff.1 hxor.symm

theorem crc16Shift_zeros {r k : Nat} (h : r * 2 ^ k < 65536) :
    (List.replicate k false).foldl crc16Shift r = r * 2 ^ k := by
  induction k generalizing r with
  | zero => rw [Nat.pow_zero, Nat.mul_one]; rfl
  | succ k ih =>
    have hpos : 0 < 2 ^ k := Nat.two_pow_pos k
    rw [Nat.pow_succ'] at h ⊢
    rw [← Nat.mul_assoc] at h ⊢
    have hr : r * 2 < 65536 := lt_of_le_of_lt (Nat.le_mul_of_pos_right _ hpos) h
    have hstep : crc16Shift r false = r * 2 := by
      rw [crc16Shift, Nat.mod_eq_of_lt hr, show r / 32768 = 0 by omega]
      exact Nat.xor_zero _
    rw [List.replicate_succ, List.foldl_cons, hstep, ih h]

theorem crc16Feed_low {x : Nat} (hx : x < 256) :
    crc16Feed (BitVec.ofNat 16 x) (List.replicate 8 false) = BitVec.ofNat 16 x <<< 8 := by
  rw [crc16Feed_ofNat, crc16Shift_zeros (by omega)]
  apply BitVec.eq_of_toNat_eq
  rw [BitVec.toNat_shiftLeft, BitVec.toNat_ofNat, BitVec.toNat_ofNat, Nat.shiftLeft_eq]
  omega

/-! ## A byte at a time -/

theorem zipWith_xor_zeros {k : Nat} (bits : List Bool) (hlen : bits.length = k) :
    List.zipWith xor bits (List.replicate k false) = bits := by
  subst hlen
  induction bits with
  | nil => rfl
  | cons b bits ih => rw [List.length_cons, List.replicate_succ, List.zipWith_cons_cons, ih, Bool.xor_false]

/-- A byte fed bit by bit: the table's entry for it and the high byte, and the low byte moved up. -/
theorem crc16Feed_byte {hi lo c : Nat} (hhi : hi < 256) (hlo : lo < 256) (hc : c < 256) :
    crc16Feed (BitVec.ofNat 16 hi <<< 8 ^^^ BitVec.ofNat 16 lo) (natToBits 8 c) =
      crc16Entry (c ^^^ hi) ^^^ BitVec.ofNat 16 lo <<< 8 := by
  have hxor : c ^^^ hi < 256 := Nat.xor_lt_two_pow (n := 8) hc hhi
  have hlen : (natToBits 8 c).length = (List.replicate 8 false).length := by rw [length_natToBits]; rfl
  have hlow : crc16Feed (BitVec.ofNat 16 hi <<< 8 ^^^ BitVec.ofNat 16 lo) (natToBits 8 c) =
      crc16Feed (BitVec.ofNat 16 hi <<< 8) (natToBits 8 c) ^^^ BitVec.ofNat 16 lo <<< 8 := by
    rw [← crc16Feed_low hlo, ← feedAll_xor _ _ _ hlen, zipWith_xor_zeros _ (length_natToBits 8 c)]
  have hhigh : crc16Feed (BitVec.ofNat 16 hi <<< 8) (natToBits 8 c) = crc16Entry (c ^^^ hi) := by
    have hsum : crc16Feed ((0 : BitVec 16) ^^^ BitVec.ofNat 16 hi <<< 8) (List.zipWith xor (natToBits 8 c) (List.replicate 8 false)) =
        crc16Entry c ^^^ crc16Entry hi := by
      rw [crc16Feed, feedAll_xor _ _ _ hlen]
      exact congrArg₂ _ (crc16Feed_bits hc) (crc16Feed_top hhi)
    rw [zipWith_xor_zeros _ (length_natToBits 8 c),
      show (0 : BitVec 16) ^^^ BitVec.ofNat 16 hi <<< 8 = BitVec.ofNat 16 hi <<< 8 from BitVec.zero_xor] at hsum
    rw [hsum, ← crc16Feed_top hc, ← crc16Feed_top hhi, ← crc16Feed_top hxor]
    have hzeros := feedAll_xor crc16Poly (BitVec.ofNat 16 c <<< 8) (BitVec.ofNat 16 hi <<< 8)
      (show (List.replicate 8 false).length = (List.replicate 8 false).length from rfl)
    rw [zipWith_xor_self, List.length_replicate] at hzeros
    rw [crc16Feed, crc16Feed, crc16Feed, ← hzeros, ← BitVec.shiftLeft_xor_distrib, ← BitVec.ofNat_xor]
  rw [hlow, hhigh]

/-- One round of the loop of `crc16`, in the low bits of its register. -/
theorem crc16Feed_round (crc : Nat) (c : UInt8) :
    BitVec.ofNat 16 (crc16Table.getD ((c.toNat ^^^ (crc >>> 8)) &&& 0xff) 0 ^^^ (crc <<< 8) % 2 ^ 32) =
      crc16Feed (BitVec.ofNat 16 crc) (natToBits 8 c.toNat) := by
  have hindex : (c.toNat ^^^ (crc >>> 8)) &&& 0xff = c.toNat ^^^ (crc / 256 % 256) := by
    rw [show (0xff : Nat) = 2 ^ 8 - 1 from rfl, Nat.and_two_pow_sub_one_eq_mod, Nat.xor_mod_two_pow,
      Nat.mod_eq_of_lt c.toNat_lt, Nat.shiftRight_eq_div_pow]
  have hsplit : BitVec.ofNat 16 crc = BitVec.ofNat 16 (crc / 256 % 256) <<< 8 ^^^ BitVec.ofNat 16 (crc % 256) := by
    apply BitVec.eq_of_getLsbD_eq
    intro i hi
    simp only [BitVec.getLsbD_xor, BitVec.getLsbD_shiftLeft, BitVec.getLsbD_ofNat, hi, decide_true, Bool.true_and]
    rw [show (256 : Nat) = 2 ^ 8 from rfl, Nat.testBit_mod_two_pow, Nat.testBit_mod_two_pow, Nat.testBit_div_two_pow]
    by_cases hlow : i < 8
    · simp [hlow]
    · simp [hlow, show i - 8 < 8 by omega, show i - 8 + 8 = i by omega, show i - 8 < 16 by omega]
  have hlow : BitVec.ofNat 16 ((crc <<< 8) % 2 ^ 32) = BitVec.ofNat 16 (crc % 256) <<< 8 := by
    apply BitVec.eq_of_toNat_eq
    rw [BitVec.toNat_ofNat, BitVec.toNat_shiftLeft, BitVec.toNat_ofNat, Nat.shiftLeft_eq, Nat.shiftLeft_eq]
    omega
  rw [hindex, BitVec.ofNat_xor, hlow, hsplit, crc16Feed_byte (by omega) (by omega) c.toNat_lt]
  rfl

theorem ofNat_crc16 (data : List UInt8) : BitVec.ofNat 16 (crc16 data) = crc16Feed 0 (bytesToBits data) := by
  have hfold : ∀ (data : List UInt8) (crc : Nat), BitVec.ofNat 16 (data.foldl (fun (crc : Nat) c =>
      crc16Table.getD ((c.toNat ^^^ (crc >>> 8)) &&& 0xff) 0 ^^^ (crc <<< 8) % 2 ^ 32) crc) =
        crc16Feed (BitVec.ofNat 16 crc) (bytesToBits data) := by
    intro data
    induction data with
    | nil => intro crc; rfl
    | cons c data ih =>
      intro crc
      rw [List.foldl_cons, ih, crc16Feed_round, bytesToBits_cons, crc16Feed, crc16Feed, crc16Feed, feedAll_append]
  have hmod (x : Nat) : BitVec.ofNat 16 (x % 2 ^ 16) = BitVec.ofNat 16 x := by
    apply BitVec.eq_of_toNat_eq
    rw [BitVec.toNat_ofNat, BitVec.toNat_ofNat, Nat.mod_mod]
  rw [crc16, hmod]
  exact hfold data 0

end TonWallet.Td
