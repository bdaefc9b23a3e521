/-
Digits of `k` bits written as digits of `m` bits: the digits are shifted into a word, and whenever enough bits wait in it
the next digit is shifted out. The bits of all digits stay the same.
-/
import TonWallet.Lib.Bits
import Mathlib.Data.Nat.Bitwise

namespace Lib.Repack

/-- The digits of some digits, as bits. -/
def bitsOf (m : Nat) (digits : List Nat) : List Bool := digits.flatMap (natToBits m)

/-- The digits that wait in a word, with at most so many turns. -/
def shiftOut (m c : Nat) : Nat → Nat → List Nat × Nat
  | 0, length => ([], length)
  | turns + 1, length =>
    if m ≤ length then
      let r := shiftOut m c turns (length - m)
      ((c >>> (length - m) &&& (2 ^ m - 1)) :: r.1, r.2)
    else ([], length)

/-- One digit after the other, with the word and the number of bits that wait in it. -/
def repack (k m c length : Nat) : List Nat → List Nat × Nat × Nat
  | [] => ([], c, length)
  | v :: vs =>
    let c := (c <<< k ||| v) % 2 ^ 32
    let out := shiftOut m c (length + k) (length + k)
    let r := repack k m c out.2 vs
    (out.1 ++ r.1, r.2)

section

variable {k m : Nat}

@[simp] theorem bitsOf_nil (m : Nat) : bitsOf m [] = [] := rfl

@[simp] theorem bitsOf_cons (m v : Nat) (vs : List Nat) : bitsOf m (v :: vs) = natToBits m v ++ bitsOf m vs := by
  rw [bitsOf, List.flatMap_cons, bitsOf]

theorem bitsOf_append (m : Nat) (vs ws : List Nat) : bitsOf m (vs ++ ws) = bitsOf m vs ++ bitsOf m ws := by
  rw [bitsOf, List.flatMap_append, bitsOf, bitsOf]

theorem length_bitsOf (m : Nat) (vs : List Nat) : (bitsOf m vs).length = m * vs.length := by
  induction vs with
  | nil => rfl
  | cons v vs ih =>
    rw [bitsOf_cons, List.length_append, length_natToBits, ih, List.length_cons, Nat.mul_succ, Nat.add_comm]

/-- Digits are their bits. -/
theorem bitsOf_inj {vs ws : List Nat} (hm : 0 < m) (hvs : ∀ v ∈ vs, v < 2 ^ m) (hws : ∀ w ∈ ws, w < 2 ^ m)
    (h : bitsOf m vs = bitsOf m ws) : vs = ws := by
  have hlen : vs.length = ws.length := by
    have := congrArg List.length h
    rw [length_bitsOf, length_bitsOf] at this
    exact Nat.eq_of_mul_eq_mul_left hm this
  induction vs generalizing ws with
  | nil => exact (List.length_eq_zero_iff.1 hlen.symm).symm
  | cons v vs ih =>
    cases ws with
    | nil => cases hlen
    | cons w ws =>
      rw [bitsOf_cons, bitsOf_cons] at h
      obtain ⟨hfirst, hrest⟩ := List.append_inj h (by rw [length_natToBits, length_natToBits])
      have hv : v = w := by
        have := congrArg bitsToNat hfirst
        rwa [bitsToNat_natToBits, bitsToNat_natToBits, Nat.mod_eq_of_lt (hvs v List.mem_cons_self),
          Nat.mod_eq_of_lt (hws w List.mem_cons_self)] at this
      rw [hv, ih (fun x hx => hvs x (List.mem_cons_of_mem v hx)) (fun x hx => hws x (List.mem_cons_of_mem w hx)) hrest
        (Nat.succ.inj hlen)]

theorem natToBits_and (m x : Nat) : natToBits m (x &&& (2 ^ m - 1)) = natToBits m x := by
  rw [Nat.and_two_pow_sub_one_eq_mod, natToBits_mod]

/-- The digits that are shifted out are the first of the bits that wait. -/
theorem shiftOut_spec (hm : 0 < m) (c turns length : Nat) (hturns : length ≤ turns) :
    (shiftOut m c turns length).2 < m ∧ (∀ d ∈ (shiftOut m c turns length).1, d < 2 ^ m) ∧
      natToBits length c = bitsOf m (shiftOut m c turns length).1 ++ natToBits (shiftOut m c turns length).2 c := by
  induction turns generalizing length with
  | zero =>
    obtain rfl : length = 0 := by omega
    exact ⟨hm, nofun, rfl⟩
  | succ turns ih =>
    rw [shiftOut]
    by_cases hle : m ≤ length
    · rw [if_pos hle]
      obtain ⟨hlt, hdigits, hbits⟩ := ih (length - m) (by omega)
      refine ⟨hlt, ?_, ?_⟩
      · intro d hd
        rcases List.mem_cons.1 hd with rfl | hd
        · rw [Nat.and_two_pow_sub_one_eq_mod]
          exact Nat.mod_lt _ (Nat.two_pow_pos m)
        · exact hdigits d hd
      · have hsplit := natToBits_add m (length - m) c
        rw [Nat.add_sub_cancel' hle] at hsplit
        rw [hsplit, hbits, bitsOf_cons, natToBits_and, Nat.shiftRight_eq_div_pow, List.append_assoc]
    · rw [if_neg hle]
      exact ⟨not_le.1 hle, nofun, rfl⟩

/-- A digit comes behind the bits that wait. -/
theorem natToBits_shiftIn {c length v : Nat} (hv : v < 2 ^ k) (hfit : length + k ≤ 32) :
    natToBits (length + k) ((c <<< k ||| v) % 2 ^ 32) = natToBits length c ++ natToBits k v := by
  have hmod : (c <<< k ||| v) % 2 ^ 32 % 2 ^ (length + k) = (c <<< k ||| v) % 2 ^ (length + k) :=
    Nat.mod_mod_of_dvd _ (Nat.pow_dvd_pow 2 hfit)
  rw [← natToBits_mod, hmod, natToBits_mod, ← Nat.shiftLeft_add_eq_or_of_lt hv, Nat.shiftLeft_eq, natToBits_add,
    Nat.mul_comm, Nat.mul_add_div (Nat.two_pow_pos k), Nat.div_eq_of_lt hv, Nat.add_zero]
  congr 1
  rw [← natToBits_mod, Nat.mul_add_mod, natToBits_mod]

/-- No bit is lost, and fewer than a digit are left. -/
theorem repack_spec (hm : 0 < m) (hfit : m + k ≤ 33) {vs : List Nat} (hvs : ∀ v ∈ vs, v < 2 ^ k) {c length : Nat}
    (hlength : length < m) :
    (repack k m c length vs).2.2 < m ∧ (∀ d ∈ (repack k m c length vs).1, d < 2 ^ m) ∧
      natToBits length c ++ bitsOf k vs =
        bitsOf m (repack k m c length vs).1 ++ natToBits (repack k m c length vs).2.2 (repack k m c length vs).2.1 := by
  induction vs generalizing c length with
  | nil =>
    refine ⟨hlength, nofun, ?_⟩
    show _ ++ [] = [] ++ _
    rw [List.append_nil]
    rfl
  | cons v vs ih =>
    rw [repack]
    dsimp only
    obtain ⟨hlt, hdigits, hbits⟩ := shiftOut_spec hm ((c <<< k ||| v) % 2 ^ 32) (length + k) (length + k) (le_refl _)
    rw [natToBits_shiftIn (hvs v List.mem_cons_self) (by omega)] at hbits
    generalize shiftOut m ((c <<< k ||| v) % 2 ^ 32) (length + k) (length + k) = out at hlt hdigits hbits
    obtain ⟨hlt', hdigits', hbits'⟩ :=
      @ih (fun x hx => hvs x (List.mem_cons_of_mem v hx)) ((c <<< k ||| v) % 2 ^ 32) out.2 hlt
    refine ⟨hlt', ?_, ?_⟩
    · intro d hd
      rcases List.mem_append.1 hd with hd | hd
      · exact hdigits d hd
      · exact hdigits' d hd
    · rw [bitsOf_cons, ← List.append_assoc, hbits, List.append_assoc, hbits', bitsOf_append, List.append_assoc]

end

end Lib.Repack
