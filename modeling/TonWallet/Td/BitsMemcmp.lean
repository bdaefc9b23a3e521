/-
Comparing two ranges of bits (`bits_memcmp`, `bits_lexcmp`). Each side is read into the top of a word of its own, four bytes at a
time and then by bytes, and the words are compared after each reading.
-/
import TonWallet.Lib.LeadingRun
import TonWallet.Lib.BitMemory

namespace TonWallet.Td.Bitstring

open Lib.BitMemory Lib.LeadingRun

/-- The word that a side begins with, and how many bits it holds. -/
def firstByte (m : Memory) (bs : Int) (offs : Nat) : BitVec 64 := (m bs).setWidth 64 <<< (56 + offs)

/-- Four bytes behind `z` bits. -/
def loadFour (m : Memory) (bs : Int) (acc : BitVec 64) (z : Nat) : BitVec 64 := acc ||| (load 32 m bs 4).setWidth 64 <<< (32 - z)

/-- The comparison of two words that differ, and the number of bits before they do. -/
def cmpFound (acc1 acc2 : BitVec 64) (processed : Nat) : Int × Nat :=
  (if acc1 < acc2 then -1 else 1, processed + leadingZeroes (acc1 ^^^ acc2))

/-- The loop over words; `.error` is the result of the whole comparison. -/
def cmpWords (m : Memory) (bs1 bs2 : Int) (acc1 acc2 : BitVec 64) (z1 z2 processed bitCount : Nat) :
    Except (Int × Nat) (Int × Int × BitVec 64 × BitVec 64 × Nat × Nat) :=
  if 40 ≤ bitCount then
    let acc1 := loadFour m bs1 acc1 z1
    let acc2 := loadFour m bs2 acc2 z2
    if (acc1 ^^^ acc2) &&& BitVec.allOnes 64 <<< 32 ≠ 0 then .error (cmpFound acc1 acc2 processed)
    else cmpWords m (bs1 + 4) (bs2 + 4) (acc1 <<< 32) (acc2 <<< 32) z1 z2 (processed + 32) (bitCount - 32)
  else .ok (bs1, bs2, acc1, acc2, processed, bitCount)
termination_by bitCount

/-- Whole bytes behind `z` bits. -/
def loadBytes (m : Memory) (bs : Int) (acc : BitVec 64) (z : Nat) (offs : Int) : Int × BitVec 64 × Nat × Int :=
  if 8 ≤ offs then loadBytes m (bs + 1) (acc ||| (m bs).setWidth 64 <<< (56 - z)) (z + 8) (offs - 8) else (bs, acc, z, offs)
termination_by offs.toNat

/-- The rest of a side: `offs` bits more, or as many fewer. -/
def loadRest (m : Memory) (bs : Int) (acc : BitVec 64) (z : Nat) (offs : Int) : BitVec 64 × Int :=
  let (bs, acc, z, offs) := loadBytes m bs acc z offs
  (if 0 < offs then acc ||| (m bs).setWidth 64 <<< (56 - z) else acc, z + offs)

/-- `bits_memcmp`, with the variable behind `same_upto` before and after; no result where a check fails. -/
def bitsMemcmp (m : Memory) (bs1 bs1Offs bs2 bs2Offs : Int) (bitCount : Nat) (sameUpto : Option Nat) : Option (Int × Option Nat) :=
  if bitCount = 0 then some (0, sameUpto)
  else
    let bs1 := bs1 + bs1Offs / 8
    let bs2 := bs2 + bs2Offs / 8
    let bs1Offs := (bs1Offs % 8).toNat
    let bs2Offs := (bs2Offs % 8).toNat
    let z1 := 8 - bs1Offs
    let z2 := 8 - bs2Offs
    match cmpWords m (bs1 + 1) (bs2 + 1) (firstByte m bs1 bs1Offs) (firstByte m bs2 bs2Offs) z1 z2 0 bitCount with
    | .error (res, same) => some (res, sameUpto.map fun _ => same)
    | .ok (bs1, bs2, acc1, acc2, processed, bitCount) =>
      let (acc1, z1) := loadRest m bs1 acc1 z1 (bs1Offs + (bitCount - 8))
      let (acc2, z2) := loadRest m bs2 acc2 z2 (bs2Offs + (bitCount - 8))
      if z1 ≠ z2 ∨ 64 ≤ z1 then none
      else if z1 ≠ 0 ∧ (acc1 ^^^ acc2) &&& BitVec.allOnes 64 <<< (64 - z1).toNat ≠ 0 then
        let (res, same) := cmpFound acc1 acc2 processed
        some (res, sameUpto.map fun _ => same)
      else some (0, sameUpto.map fun _ => processed + bitCount)

/-- `bits_lexcmp`. -/
def bitsLexcmp (m : Memory) (bs1 bs1Offs : Int) (bs1BitCount : Nat) (bs2 bs2Offs : Int) (bs2BitCount : Nat) : Option Int := do
  let (res, _) ← bitsMemcmp m bs1 bs1Offs bs2 bs2Offs (min bs1BitCount bs2BitCount) none
  if res ≠ 0 ∨ bs1BitCount = bs2BitCount then return res
  return if bs1BitCount < bs2BitCount then -1 else 1

/-! ## What the words hold -/

/-- The top `z` bits of a word are those from an address on, the others are zero. -/
def Holds (acc : BitVec 64) (m : Memory) (P : Int) (z : Nat) : Prop :=
  ∀ k < 64, acc.getMsbD k = (decide (k < z) && bit m (P + k))

section

variable {m : Memory} {acc acc1 acc2 : BitVec 64} {P P1 P2 bs : Int} {z z1 z2 offs : Nat}

theorem holds_firstByte (hoffs : offs < 8) : Holds (firstByte m bs offs) m (8 * bs + offs) (8 - offs) := by
  intro k hk
  rw [firstByte, BitVec.getMsbD_shiftLeft, BitVec.getMsbD_eq_getLsbD, BitVec.getLsbD_setWidth]
  by_cases hin : k < 8 - offs
  · rw [decide_eq_true hin, decide_eq_true (by omega : k + (56 + offs) < 64), decide_eq_true (by omega : 64 - 1 - (k + (56 + offs)) < 64),
      getLsbD_byte m bs (by omega)]
    simp only [Bool.true_and]
    congr 1
    omega
  · rw [decide_eq_false hin, decide_eq_false (by omega : ¬k + (56 + offs) < 64), Bool.false_and, Bool.false_and]

/-- `n` more bits from the place behind those held. -/
theorem Holds.more {x : BitVec 64} {n : Nat} (h : Holds acc m P z)
    (hx : ∀ k < 64, x.getMsbD k = (decide (z ≤ k) && decide (k < z + n) && bit m (P + k))) : Holds (acc ||| x) m P (z + n) := by
  intro k hk
  rw [BitVec.getMsbD_or, h k hk, hx k hk]
  by_cases hlow : k < z
  · rw [decide_eq_true hlow, decide_eq_false (not_le.2 hlow), decide_eq_true (by omega : k < z + n)]
    simp
  · rw [decide_eq_false hlow, decide_eq_true (not_lt.1 hlow)]
    simp

theorem Holds.loadFour (h : Holds acc m P z) (hz : z ≤ 32) (hplace : 8 * bs = P + z) : Holds (loadFour m bs acc z) m P (z + 32) := by
  refine h.more fun k hk => ?_
  rw [BitVec.getMsbD_shiftLeft, BitVec.getMsbD_eq_getLsbD, BitVec.getLsbD_setWidth, getLsbD_load]
  by_cases hin : z ≤ k ∧ k < z + 32
  · rw [decide_eq_true hin.1, decide_eq_true hin.2, decide_eq_true (by omega : k + (32 - z) < 64),
      decide_eq_true (by omega : 64 - 1 - (k + (32 - z)) < 64), decide_eq_true (by omega : 64 - 1 - (k + (32 - z)) < 32)]
    simp only [Bool.true_and]
    congr 1
    omega
  · by_cases hlow : k < z
    · rw [decide_eq_false (not_le.2 hlow), decide_eq_false (by omega : ¬64 - 1 - (k + (32 - z)) < 32)]
      simp
    · rw [decide_eq_false (by omega : ¬k < z + 32), decide_eq_false (by omega : ¬k + (32 - z) < 64)]
      simp

theorem Holds.byte (h : Holds acc m P z) (hz : z ≤ 56) (hplace : 8 * bs = P + z) :
    Holds (acc ||| (m bs).setWidth 64 <<< (56 - z)) m P (z + 8) := by
  refine h.more fun k hk => ?_
  rw [BitVec.getMsbD_shiftLeft, BitVec.getMsbD_eq_getLsbD, BitVec.getLsbD_setWidth]
  by_cases hin : z ≤ k ∧ k < z + 8
  · rw [decide_eq_true hin.1, decide_eq_true hin.2, decide_eq_true (by omega : k + (56 - z) < 64),
      decide_eq_true (by omega : 64 - 1 - (k + (56 - z)) < 64), getLsbD_byte m bs (by omega)]
    simp only [Bool.true_and]
    congr 1
    omega
  · by_cases hlow : k < z
    · rw [decide_eq_false (not_le.2 hlow), BitVec.getLsbD_of_ge (m bs) _ (by omega)]
      simp
    · rw [decide_eq_false (by omega : ¬k < z + 8), decide_eq_false (by omega : ¬k + (56 - z) < 64)]
      simp

/-- The bits that are compared go, the others move up. -/
theorem Holds.shift {n : Nat} (h : Holds acc m P (z + n)) (hroom : z + n ≤ 64) : Holds (acc <<< n) m (P + n) z := by
  intro k hk
  rw [BitVec.getMsbD_shiftLeft]
  by_cases hin : k + n < 64
  · rw [h _ hin, decide_eq_decide.2 (by omega : k + n < z + n ↔ k < z)]
    congr 2
    push_cast
    omega
  · rw [BitVec.getMsbD_of_ge _ _ (not_lt.1 hin), decide_eq_false (by omega : ¬k < z), Bool.false_and]

/-! ## Words that are compared -/

/-- The bits of two ranges that are the same. -/
def same (m : Memory) (S1 S2 : Int) (k : Nat) : Bool := bit m (S1 + k) == bit m (S2 + k)

/-- What a comparison of `N` bits is to give. -/
def Compared (m : Memory) (S1 S2 : Int) (N : Nat) (res : Int) (upto : Nat) : Prop :=
  Leading (same m S1 S2) N upto ∧ res = if upto = N then 0 else if bit m (S2 + upto) then -1 else 1

/-- The mask keeps the top `t` bits. -/
theorem getMsbD_masked (v : BitVec 64) {t k : Nat} (ht : t ≤ 64) :
    (v &&& BitVec.allOnes 64 <<< (64 - t)).getMsbD k = (decide (k < t) && v.getMsbD k) := by
  rw [BitVec.getMsbD_and, BitVec.getMsbD_shiftLeft, BitVec.getMsbD_allOnes, Bool.and_comm,
    decide_eq_decide.2 (by omega : k + (64 - t) < 64 ↔ k < t)]

theorem Holds.getMsbD {S : Int} {a t : Nat} (h : Holds acc m (S + a) z) (ht : t ≤ z) (hroom : t ≤ 64) {k : Nat} (hk : k < t) :
    acc.getMsbD k = bit m (S + (a + k : Nat)) := by
  rw [h k (by omega), decide_eq_true (by omega), Bool.true_and]
  congr 1
  push_cast
  omega

theorem not_xor_eq_same {S1 S2 : Int} {a t k : Nat} (h1 : Holds acc1 m (S1 + a) z1) (h2 : Holds acc2 m (S2 + a) z2) (ht1 : t ≤ z1)
    (ht2 : t ≤ z2) (ht : t ≤ 64) (hk : k < t) : (!(acc1 ^^^ acc2).getMsbD k) = same m S1 S2 (a + k) := by
  rw [BitVec.getMsbD_xor, h1.getMsbD ht1 ht hk, h2.getMsbD ht2 ht hk, same]
  cases bit m (S1 + (a + k : Nat)) <;> cases bit m (S2 + (a + k : Nat)) <;> rfl

/-- Where there is no difference among the top `t` bits, so many more are the same. -/
theorem same_of_masked {S1 S2 : Int} {a t : Nat} (h1 : Holds acc1 m (S1 + a) z1) (h2 : Holds acc2 m (S2 + a) z2) (ht1 : t ≤ z1)
    (ht2 : t ≤ z2) (ht : t ≤ 64) (hall : ∀ k < a, same m S1 S2 k = true)
    (hzero : (acc1 ^^^ acc2) &&& BitVec.allOnes 64 <<< (64 - t) = 0) : ∀ k < a + t, same m S1 S2 k = true := by
  intro k hk
  by_cases hlow : k < a
  · exact hall k hlow
  · have hbit := @getMsbD_masked (acc1 ^^^ acc2) t (k - a) ht
    rw [hzero, decide_eq_true (by omega), Bool.true_and] at hbit
    have hsame := not_xor_eq_same h1 h2 ht1 ht2 ht (show k - a < t by omega)
    rwa [← hbit, show (0 : BitVec 64).getMsbD (k - a) = false from BitVec.getMsbD_zero, Nat.add_sub_of_le (not_lt.1 hlow), eq_comm]
      at hsame

/-- A difference among the top `t` bits of words that hold those from place `a` on. -/
theorem cmpFound_compared {S1 S2 : Int} {a t N : Nat} (h1 : Holds acc1 m (S1 + a) z1) (h2 : Holds acc2 m (S2 + a) z2) (ht1 : t ≤ z1)
    (ht2 : t ≤ z2) (ht : t ≤ 64) (hN : a + t ≤ N) (hall : ∀ k < a, same m S1 S2 k = true)
    (hne : (acc1 ^^^ acc2) &&& BitVec.allOnes 64 <<< (64 - t) ≠ 0) :
    Compared m S1 S2 N (cmpFound acc1 acc2 a).1 (cmpFound acc1 acc2 a).2 := by
  have hzeroes := leading_leadingZeroes (acc1 ^^^ acc2)
  unfold cmpFound
  generalize leadingZeroes (acc1 ^^^ acc2) = c at hzeroes ⊢
  have hc : c < t := by
    by_contra hge
    refine hne (BitVec.eq_of_getMsbD_eq fun k hk => ?_)
    rw [getMsbD_masked _ ht]
    refine Eq.trans ?_ BitVec.getMsbD_zero.symm
    by_cases hkt : k < t
    · have hbit := hzeroes.all (not_lt.1 hge) hkt
      rw [Bool.not_eq_true'] at hbit
      rw [hbit, Bool.and_false]
    · rw [decide_eq_false hkt, Bool.false_and]
  have hfirst : Leading (fun k => same m S1 S2 (a + k)) t c :=
    hzeroes.congr hc ht fun k hk => not_xor_eq_same h1 h2 ht1 ht2 ht hk
  have hwords : Leading (fun k => acc1.getMsbD k == acc2.getMsbD k) 64 c := by
    refine hzeroes.congr (by omega) (le_refl 64) fun k hk => ?_
    rw [BitVec.getMsbD_xor]
    cases acc1.getMsbD k <;> cases acc2.getMsbD k <;> rfl
  refine ⟨(hfirst.add hall).extend (by omega) hN, ?_⟩
  rw [if_neg (show ¬a + c = N by omega), ← h2.getMsbD ht2 ht hc]
  exact if_congr (lt_iff_of_leading hwords (by omega)) rfl rfl

end

/-! ## The whole comparison -/

/-- A comparison that is decided, or that has found the first bits the same and holds the next ones. -/
def CmpAt (m : Memory) (S1 S2 : Int) (N z1 z2 : Nat) : Except (Int × Nat) (Int × Int × BitVec 64 × BitVec 64 × Nat × Nat) → Prop
  | .error (res, upto) => Compared m S1 S2 N res upto
  | .ok (bs1, bs2, acc1, acc2, processed, bitCount) =>
    processed + bitCount = N ∧ (Holds acc1 m (S1 + processed) z1 ∧ 8 * bs1 = S1 + processed + z1) ∧
      (Holds acc2 m (S2 + processed) z2 ∧ 8 * bs2 = S2 + processed + z2) ∧ ∀ k < processed, same m S1 S2 k = true

section

variable {m : Memory} {S1 S2 bs1 bs2 : Int} {acc1 acc2 : BitVec 64} {N z1 z2 processed bitCount : Nat}

theorem cmpWords_at (hz1 : z1 ≤ 8) (hz2 : z2 ≤ 8) (h : CmpAt m S1 S2 N z1 z2 (.ok (bs1, bs2, acc1, acc2, processed, bitCount))) :
    CmpAt m S1 S2 N z1 z2 (cmpWords m bs1 bs2 acc1 acc2 z1 z2 processed bitCount) := by
  fun_induction cmpWords m bs1 bs2 acc1 acc2 z1 z2 processed bitCount with
  | case1 bs1 bs2 acc1 acc2 processed bitCount hcount acc1' acc2' hne =>
    obtain ⟨hsum, ⟨h1, hp1⟩, ⟨h2, hp2⟩, hall⟩ := h
    exact cmpFound_compared (h1.loadFour (by omega) hp1) (h2.loadFour (by omega) hp2) (t := 32) (by omega) (by omega) (by omega)
      (by omega) hall hne
  | case2 bs1 bs2 acc1 acc2 processed bitCount hcount acc1' acc2' hzero ih =>
    obtain ⟨hsum, ⟨h1, hp1⟩, ⟨h2, hp2⟩, hall⟩ := h
    have hfour1 := h1.loadFour (by omega) hp1
    have hfour2 := h2.loadFour (by omega) hp2
    have hsame := same_of_masked hfour1 hfour2 (t := 32) (by omega) (by omega) (by omega) hall (not_not.1 hzero)
    have hnext1 := hfour1.shift (by omega)
    have hnext2 := hfour2.shift (by omega)
    rw [Int.add_assoc, ← Nat.cast_add] at hnext1 hnext2
    exact ih ⟨by omega, ⟨hnext1, by omega⟩, ⟨hnext2, by omega⟩, hsame⟩
  | case3 bs1 bs2 acc1 acc2 processed bitCount hcount => exact h

theorem cmpWords_rem {r : Int × Int × BitVec 64 × BitVec 64 × Nat × Nat}
    (h : cmpWords m bs1 bs2 acc1 acc2 z1 z2 processed bitCount = .ok r) : r.2.2.2.2.2 < 40 := by
  fun_induction cmpWords m bs1 bs2 acc1 acc2 z1 z2 processed bitCount with
  | case1 bs1 bs2 acc1 acc2 processed bitCount hcount acc1' acc2' hne => cases h
  | case2 bs1 bs2 acc1 acc2 processed bitCount hcount acc1' acc2' hzero ih => exact ih h
  | case3 bs1 bs2 acc1 acc2 processed bitCount hcount =>
    cases h
    exact not_le.1 hcount

end

section

variable {m : Memory} {acc : BitVec 64} {P bs offs : Int} {z : Nat}

theorem loadBytes_holds (h : Holds acc m P z) (hplace : 8 * bs = P + z) (hroom : z + offs < 48) :
    Holds (loadBytes m bs acc z offs).2.1 m P (loadBytes m bs acc z offs).2.2.1 ∧
      8 * (loadBytes m bs acc z offs).1 = P + (loadBytes m bs acc z offs).2.2.1 ∧
      (loadBytes m bs acc z offs).2.2.1 + (loadBytes m bs acc z offs).2.2.2 = z + offs ∧ (loadBytes m bs acc z offs).2.2.2 < 8 := by
  fun_induction loadBytes m bs acc z offs with
  | case1 bs acc z offs hoffs ih =>
    obtain ⟨hholds, hnext, hsum, hless⟩ := ih (h.byte (by omega) hplace) (by omega) (by omega)
    exact ⟨hholds, hnext, by omega, hless⟩
  | case2 bs acc z offs hoffs => exact ⟨h, hplace, rfl, not_le.1 hoffs⟩

/-- A side is read to its end, and perhaps further. -/
theorem loadRest_holds (h : Holds acc m P z) (hplace : 8 * bs = P + z) (hroom : z + offs < 48) :
    (loadRest m bs acc z offs).2 = z + offs ∧ ∃ z' : Nat, z + offs ≤ z' ∧ Holds (loadRest m bs acc z offs).1 m P z' := by
  obtain ⟨hholds, hnext, hsum, hless⟩ := loadBytes_holds h hplace hroom
  unfold loadRest
  generalize loadBytes m bs acc z offs = loaded at hholds hnext hsum hless ⊢
  obtain ⟨bs', acc', z', offs'⟩ := loaded
  dsimp only at hholds hnext hsum hless ⊢
  refine ⟨hsum, ?_⟩
  split_ifs with hpos
  · exact ⟨z' + 8, by omega, hholds.byte (by omega) hnext⟩
  · exact ⟨z', by omega, hholds⟩

end

/-- `bits_memcmp` compares the ranges, and tells how many bits are the same unless there are none. -/
theorem bitsMemcmp_compared (m : Memory) (bs1 bs1Offs bs2 bs2Offs : Int) (N : Nat) (sameUpto : Option Nat) :
    ∃ res upto, bitsMemcmp m bs1 bs1Offs bs2 bs2Offs N sameUpto =
        some (res, if N = 0 then sameUpto else sameUpto.map fun _ => upto) ∧
      Compared m (8 * bs1 + bs1Offs) (8 * bs2 + bs2Offs) N res upto := by
  unfold bitsMemcmp
  obtain rfl | hpos := Nat.eq_zero_or_pos N
  · rw [if_pos rfl]
    exact ⟨0, 0, rfl, leading_of_all fun k hk => absurd hk (Nat.not_lt_zero k), (if_pos rfl).symm⟩
  simp only [if_neg hpos.ne']
  obtain ⟨offs1, hoffs1⟩ : ∃ offs1, offs1 = (bs1Offs % 8).toNat := ⟨_, rfl⟩
  obtain ⟨offs2, hoffs2⟩ : ∃ offs2, offs2 = (bs2Offs % 8).toNat := ⟨_, rfl⟩
  rw [← hoffs1, ← hoffs2]
  have h1 := @holds_firstByte m (bs1 + bs1Offs / 8) offs1 (by omega)
  have h2 := @holds_firstByte m (bs2 + bs2Offs / 8) offs2 (by omega)
  have hwords := @cmpWords_at m (8 * bs1 + bs1Offs) (8 * bs2 + bs2Offs) (bs1 + bs1Offs / 8 + 1) (bs2 + bs2Offs / 8 + 1) _ _ N
    (8 - offs1) (8 - offs2) 0 N (by omega) (by omega)
    ⟨by omega, ⟨by convert h1 using 1; omega, by omega⟩, ⟨by convert h2 using 1; omega, by omega⟩,
      fun k hk => absurd hk (Nat.not_lt_zero k)⟩
  have hfew := @cmpWords_rem m (bs1 + bs1Offs / 8 + 1) (bs2 + bs2Offs / 8 + 1) (firstByte m (bs1 + bs1Offs / 8) offs1)
    (firstByte m (bs2 + bs2Offs / 8) offs2) (8 - offs1) (8 - offs2) 0 N
  generalize cmpWords m (bs1 + bs1Offs / 8 + 1) (bs2 + bs2Offs / 8 + 1) (firstByte m (bs1 + bs1Offs / 8) offs1)
    (firstByte m (bs2 + bs2Offs / 8) offs2) (8 - offs1) (8 - offs2) 0 N = words at hwords hfew ⊢
  rcases words with ⟨res, upto⟩ | ⟨bs1', bs2', acc1, acc2, processed, bitCount⟩
  · exact ⟨res, upto, rfl, hwords⟩
  obtain ⟨hsum, ⟨hholds1, hp1⟩, ⟨hholds2, hp2⟩, hall⟩ := hwords
  have hless := hfew rfl
  dsimp only at hless ⊢
  obtain ⟨hlast1, t1, ht1, hend1⟩ := @loadRest_holds m acc1 _ bs1' (offs1 + (bitCount - 8)) (8 - offs1) hholds1 hp1 (by omega)
  obtain ⟨hlast2, t2, ht2, hend2⟩ := @loadRest_holds m acc2 _ bs2' (offs2 + (bitCount - 8)) (8 - offs2) hholds2 hp2 (by omega)
  generalize loadRest m bs1' acc1 (8 - offs1) (offs1 + (bitCount - 8)) = rest1 at hlast1 hend1 ⊢
  generalize loadRest m bs2' acc2 (8 - offs2) (offs2 + (bitCount - 8)) = rest2 at hlast2 hend2 ⊢
  obtain ⟨acc1', last1⟩ := rest1
  obtain ⟨acc2', last2⟩ := rest2
  dsimp only at hlast1 hend1 hlast2 hend2 ⊢
  obtain rfl : last1 = bitCount := by omega
  obtain rfl : last2 = bitCount := by omega
  rw [if_neg (by omega), show (64 - (bitCount : Int)).toNat = 64 - bitCount by omega]
  split_ifs with hne
  · exact ⟨_, _, rfl, cmpFound_compared hend1 hend2 (by omega) (by omega) (by omega) (by omega) hall hne.2⟩
  · refine ⟨0, processed + bitCount, rfl, ?_, (if_pos hsum).symm⟩
    rw [hsum]
    refine leading_of_all fun k hk => ?_
    by_cases hzero : bitCount = 0
    · exact hall k (by omega)
    · have hmask : (acc1' ^^^ acc2') &&& BitVec.allOnes 64 <<< (64 - bitCount) = 0 :=
        not_not.1 fun hcontra => hne ⟨by omega, hcontra⟩
      exact same_of_masked hend1 hend2 (by omega) (by omega) (by omega) hall hmask k (by omega)

/-! ## Lists of bits -/

/-- The number of bits at which two lists begin the same way. -/
def commonLength (xs ys : List Bool) : Nat := ((xs.zip ys).takeWhile fun p => p.1 == p.2).length

theorem Compared.lists {m : Memory} {S1 S2 res : Int} {N upto : Nat} (h : Compared m S1 S2 N res upto) :
    res = lexcmp (bitsAt m S1 N) (bitsAt m S2 N) ∧ upto = commonLength (bitsAt m S1 N) (bitsAt m S2 N) := by
  obtain ⟨hleading, hres⟩ := h
  unfold bitsAt commonLength
  constructor
  · rw [hres]
    exact (hleading.lexcmp (f := fun k => bit m (S1 + k)) (g := fun k => bit m (S2 + k))).symm
  · rw [List.zip_map']
    exact (hleading.length_takeWhile (f := fun k : Nat => (bit m (S1 + k), bit m (S2 + k))) (p := fun p => p.1 == p.2)).symm

theorem take_bitsAt (m : Memory) (S : Int) (n k : Nat) : (bitsAt m S n).take k = bitsAt m S (min k n) := by
  rw [bitsAt, ← List.map_take, List.take_range, bitsAt]

theorem length_bitsAt (m : Memory) (S : Int) (n : Nat) : (bitsAt m S n).length = n := by
  rw [bitsAt, List.length_map, List.length_range]

/-- `bits_memcmp` on lists of bits. -/
theorem bitsMemcmp_eq (m : Memory) (bs1 bs1Offs bs2 bs2Offs : Int) (N : Nat) (sameUpto : Option Nat) :
    bitsMemcmp m bs1 bs1Offs bs2 bs2Offs N sameUpto =
      some (lexcmp (bitsAt m (8 * bs1 + bs1Offs) N) (bitsAt m (8 * bs2 + bs2Offs) N),
        if N = 0 then sameUpto
        else sameUpto.map fun _ => commonLength (bitsAt m (8 * bs1 + bs1Offs) N) (bitsAt m (8 * bs2 + bs2Offs) N)) := by
  obtain ⟨res, upto, heq, hcompared⟩ := bitsMemcmp_compared m bs1 bs1Offs bs2 bs2Offs N sameUpto
  obtain ⟨hres, hupto⟩ := hcompared.lists
  rw [heq, hres, hupto]

/-- `bits_lexcmp` on lists of bits. -/
theorem bitsLexcmp_eq (m : Memory) (bs1 bs1Offs : Int) (n1 : Nat) (bs2 bs2Offs : Int) (n2 : Nat) :
    bitsLexcmp m bs1 bs1Offs n1 bs2 bs2Offs n2 =
      some (lexcmp (bitsAt m (8 * bs1 + bs1Offs) n1) (bitsAt m (8 * bs2 + bs2Offs) n2)) := by
  unfold bitsLexcmp
  rw [lexcmp_take, length_bitsAt, length_bitsAt, take_bitsAt, take_bitsAt, min_assoc, min_comm n2 n1, ← min_assoc, min_self,
    min_assoc, min_self, bitsMemcmp_eq]
  dsimp only [bind, Option.bind, pure]
  split_ifs <;> rfl

end TonWallet.Td.Bitstring
