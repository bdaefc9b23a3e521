/-
Bit strings as lists, most significant bit first: the number a bit string denotes, the bit string
of a number, and bytes. Lengths and the two round trips are the facts the codecs above use.
-/
import Mathlib.Data.BitVec
import Mathlib.Data.Nat.Bits
import Mathlib.Tactic.Ring

namespace Lib

/-- The number denoted by a bit string, most significant bit first. -/
def bitsToNat (bs : List Bool) : Nat := bs.foldl (fun n b => 2 * n + b.toNat) 0

/-- The `n` low bits of `v`, most significant bit first. -/
def natToBits : Nat → Nat → List Bool
  | 0, _ => []
  | n + 1, v => v.testBit n :: natToBits n v

@[simp] theorem length_natToBits (n v : Nat) : (natToBits n v).length = n := by
  induction n with
  | zero => rfl
  | succ n ih => simp [natToBits, ih]

/-- The same bits, the lowest one taken off. -/
theorem natToBits_succ (n v : Nat) : natToBits (n + 1) v = natToBits n (v / 2) ++ [v % 2 == 1] := by
  induction n generalizing v with
  | zero =>
    rcases Nat.mod_two_eq_zero_or_one v with h | h <;> simp [natToBits, Nat.testBit_zero, h]
  | succ n ih =>
    rw [natToBits, ih, natToBits, Nat.testBit_succ]
    rfl

@[simp] theorem bitsToNat_nil : bitsToNat [] = 0 := rfl

theorem bitsToNat_snoc (bs : List Bool) (b : Bool) : bitsToNat (bs ++ [b]) = 2 * bitsToNat bs + b.toNat := by
  simp [bitsToNat]

/-- The number of one bit string behind another. -/
theorem bitsToNat_append (xs ys : List Bool) : bitsToNat (xs ++ ys) = 2 ^ ys.length * bitsToNat xs + bitsToNat ys := by
  induction ys using List.reverseRecOn with
  | nil => simp
  | append_singleton ys b ih =>
    rw [← List.append_assoc, bitsToNat_snoc, bitsToNat_snoc, ih, List.length_append, List.length_singleton, pow_succ]
    ring

/-- A bit with bits in front of it and behind it. -/
theorem bitsToNat_append_cons (xs ys : List Bool) (b : Bool) :
    bitsToNat (xs ++ b :: ys) = 2 ^ ys.length * (2 * bitsToNat xs + b.toNat) + bitsToNat ys := by
  rw [← bitsToNat_snoc, ← bitsToNat_append, List.append_assoc, List.singleton_append]

/-- Writing `n` bits of a number and reading them back keeps the number modulo `2 ^ n`. -/
theorem bitsToNat_natToBits (n v : Nat) : bitsToNat (natToBits n v) = v % 2 ^ n := by
  induction n generalizing v with
  | zero => simp [natToBits, Nat.mod_one]
  | succ n ih =>
    have hb : (v % 2 == 1).toNat = v % 2 := by
      rcases Nat.mod_two_eq_zero_or_one v with h | h <;> simp [h]
    rw [natToBits_succ, bitsToNat_snoc, ih, hb, pow_succ, Nat.mul_comm (2 ^ n) 2, Nat.mod_mul]
    omega

theorem bitsToNat_lt (bs : List Bool) : bitsToNat bs < 2 ^ bs.length := by
  induction bs using List.reverseRecOn with
  | nil => simp
  | append_singleton bs b ih =>
    rw [bitsToNat_snoc, List.length_append, List.length_singleton, pow_succ]
    have := Bool.toNat_le b
    omega

/-- Reading a bit string and writing it back with its length gives it back. -/
theorem natToBits_bitsToNat (bs : List Bool) : natToBits bs.length (bitsToNat bs) = bs := by
  induction bs using List.reverseRecOn with
  | nil => rfl
  | append_singleton bs b ih =>
    rw [bitsToNat_snoc, List.length_append, List.length_singleton, natToBits_succ]
    have h2 : (2 * bitsToNat bs + b.toNat) / 2 = bitsToNat bs := by
      have := Bool.toNat_le b; omega
    have hm : ((2 * bitsToNat bs + b.toNat) % 2 == 1) = b := by
      cases b <;> simp [Nat.add_mod]
    rw [h2, hm, ih]

/-- The high bits of a number, and then the low ones. -/
theorem natToBits_add (a b v : Nat) : natToBits (a + b) v = natToBits a (v / 2 ^ b) ++ natToBits b v := by
  induction b generalizing v with
  | zero => simp [natToBits]
  | succ b ih =>
    rw [← Nat.add_assoc, natToBits_succ, ih, natToBits_succ b, Nat.div_div_eq_div_mul, ← pow_succ', List.append_assoc]

/-- Only the low bits count. -/
theorem natToBits_mod (n v : Nat) : natToBits n (v % 2 ^ n) = natToBits n v := by
  have hread := natToBits_bitsToNat (natToBits n v)
  rwa [length_natToBits, bitsToNat_natToBits] at hread

/-- The number of bits that a number takes. -/
def bitLength (v : Nat) : Nat := if v = 0 then 0 else v.log2 + 1

theorem bitLength_le_iff {v n : Nat} : bitLength v ≤ n ↔ v < 2 ^ n := by
  unfold bitLength
  split
  · next h => simp [h]
  · next h => rw [← Nat.log2_lt h, Nat.succ_le_iff]

theorem bitLength_pos {v : Nat} (h : 0 < v) : 0 < bitLength v := by
  rw [bitLength, if_neg (by omega)]
  exact Nat.succ_pos _

/-- The bits of a byte string. -/
def bytesToBits (bytes : List UInt8) : List Bool := bytes.flatMap fun b => natToBits 8 b.toNat

@[simp] theorem bytesToBits_cons (b : UInt8) (bytes : List UInt8) :
    bytesToBits (b :: bytes) = natToBits 8 b.toNat ++ bytesToBits bytes := rfl

@[simp] theorem length_bytesToBits (bytes : List UInt8) : (bytesToBits bytes).length = 8 * bytes.length := by
  induction bytes with
  | nil => rfl
  | cons b bs ih =>
    have : bytesToBits (b :: bs) = natToBits 8 b.toNat ++ bytesToBits bs := rfl
    rw [this, List.length_append, length_natToBits, ih, List.length_cons]
    omega

theorem bytesToBits_inj {x y : List UInt8} (h : bytesToBits x = bytesToBits y) : x = y := by
  induction x generalizing y with
  | nil =>
    have hlen := congrArg List.length h
    rw [length_bytesToBits, length_bytesToBits, List.length_nil] at hlen
    exact (List.length_eq_zero_iff.1 (by omega)).symm
  | cons b x ih =>
    cases y with
    | nil =>
      have hlen := congrArg List.length h
      rw [length_bytesToBits, length_bytesToBits, List.length_cons, List.length_nil] at hlen
      omega
    | cons c y =>
      rw [bytesToBits_cons, bytesToBits_cons] at h
      obtain ⟨hbyte, hrest⟩ := List.append_inj h (by rw [length_natToBits, length_natToBits])
      have hvalue := congrArg bitsToNat hbyte
      rw [bitsToNat_natToBits, bitsToNat_natToBits, Nat.mod_eq_of_lt b.toNat_lt, Nat.mod_eq_of_lt c.toNat_lt] at hvalue
      rw [UInt8.toNat_inj.1 hvalue, ih hrest]

theorem bytesToBits_append (x y : List UInt8) : bytesToBits (x ++ y) = bytesToBits x ++ bytesToBits y :=
  List.flatMap_append

theorem bytesToBits_take (x : List UInt8) (k : Nat) : bytesToBits (x.take k) = (bytesToBits x).take (8 * k) := by
  induction x generalizing k with
  | nil => simp [bytesToBits]
  | cons b x ih =>
    cases k with
    | zero => rfl
    | succ k =>
      have hbyte : (natToBits 8 b.toNat).length ≤ 8 * (k + 1) := by
        rw [length_natToBits]
        omega
      rw [List.take_succ_cons, bytesToBits_cons, bytesToBits_cons, ih, List.take_append, List.take_of_length_le hbyte, length_natToBits]
      congr 2

/-- The bytes of a bit string; a last incomplete byte gets a one and then zeroes. -/
def packBits : List Bool → List UInt8
  | a :: b :: c :: d :: e :: f :: g :: h :: bs =>
    UInt8.ofNat (bitsToNat [a, b, c, d, e, f, g, h]) :: packBits bs
  | [] => []
  | bs => [UInt8.ofNat (bitsToNat ((bs ++ [true] ++ List.replicate 7 false).take 8))]

/-- Eight bits make a byte. -/
theorem natToBits_ofNat_bitsToNat {bs : List Bool} (h : bs.length = 8) :
    natToBits 8 (UInt8.ofNat (bitsToNat bs)).toNat = bs := by
  have hlt : bitsToNat bs < 2 ^ 8 := h ▸ bitsToNat_lt bs
  rw [UInt8.toNat_ofNat', Nat.mod_eq_of_lt hlt, ← h, natToBits_bitsToNat]

/-- Whole bytes are unpacked again. -/
theorem bytesToBits_packBits {bs : List Bool} (h : bs.length % 8 = 0) : bytesToBits (packBits bs) = bs := by
  fun_induction packBits bs with
  | case1 a b c d e f g h' bs ih =>
    have hbs : bs.length % 8 = 0 := by
      simp only [List.length_cons] at h
      omega
    rw [bytesToBits_cons, ih hbs, natToBits_ofNat_bitsToNat rfl]
    rfl
  | case2 => rfl
  | case3 bs hne hshort =>
    exfalso
    match bs with
    | [] => exact hshort rfl
    | [_] | [_, _] | [_, _, _] | [_, _, _, _] | [_, _, _, _, _] | [_, _, _, _, _, _] | [_, _, _, _, _, _, _] =>
      simp at h
    | a :: b :: c :: d :: e :: f :: g :: h' :: bs => exact hne a b c d e f g h' bs rfl

theorem length_packBits {bs : List Bool} (h : bs.length % 8 = 0) : (packBits bs).length = bs.length / 8 := by
  have hlen := congrArg List.length (bytesToBits_packBits h)
  rw [length_bytesToBits] at hlen
  omega

end Lib
