/-
Grams in the cells of a smart contract (`smc::pack_grams` and `smc::unpack_grams`): a word of 64 bits is stored as the
signed number that it is. Of a negative one nothing is stored, and what does not fit 63 bits is not read.
-/
import TonWallet.SmcEnvelope.WalletInterface

namespace TonWallet.Vm.Slice

/-- `advance`. -/
def advance (bits : Nat) (cs : Slice) : Option Slice :=
  if bits ≤ cs.bits.length then some { cs with bits := cs.bits.drop bits } else none

/-- `advance_refs`. -/
def advanceRefs (refs : Nat) (cs : Slice) : Option Slice :=
  if refs ≤ cs.refs.length then some { cs with refs := cs.refs.drop refs } else none

/-- `fetch_to` of a type that `skip` runs over: the part that it runs over, and the rest. -/
def fetchTo (skip : Slice → Option Slice) (cs : Slice) : Option (Slice × Slice) := do
  let rest ← skip cs
  return (⟨cs.bits.take (cs.bits.length - rest.bits.length), cs.refs.take (cs.refs.length - rest.refs.length)⟩, rest)

/-- `store_from` of a type that `skip` runs over: nothing may be left of the field. -/
def storeFrom (skip : Slice → Option Slice) (field : Slice) (cb : CellBuilder) : Option CellBuilder := do
  let rest ← skip field
  guard (rest.bits = [] ∧ rest.refs = [])
  cb.appendSliceBool field

end TonWallet.Vm.Slice

namespace TonWallet.SmcEnvelope

open Lib TonWallet.Td TonWallet.Ton TonWallet.Vm TonWallet.Vm.CellBuilder TonWallet.Block

/-- `t_Grams.skip`. -/
def gramsSkip (cs : Slice) : Option Slice :=
  let (len, cs) := cs.fetchUlongInt 4
  if 0 ≤ len ∧ len < 16 then cs.advance (len.toNat * 8) else none

/-- `t_Grams.as_integer`: nothing may be left behind the number. -/
def gramsAsInteger (cs : Slice) : Option BigInt256 :=
  let (len, cs) := cs.fetchUlongInt 4
  if 0 ≤ len ∧ len < 16 ∧ (len = 0 ∨ cs.prefetchUlong 8 ≠ 0) then do
    let res ← cs.fetchInt256 (len.toNat * 8)
    guard (cs.bits.drop (len.toNat * 8) = [] ∧ cs.refs = [])
    return res
  else none

/-- `pack_grams`; whether the number is stored is not looked at. -/
def packGrams (amount : UInt64) : Slice :=
  let cb := (storeGrams (some amount.toInt64.toInt) {}).2
  ⟨cb.bits, cb.refs⟩

/-- `unpack_grams`. -/
def unpackGrams (cs : Slice) : Option UInt64 := do
  let got ← gramsAsInteger cs
  let x ← got
  guard (0 ≤ x ∧ x < 2 ^ 63)
  return UInt64.ofNat x.toNat

/-- `t_Grams.store_from` of what `pack_grams` makes. -/
def storeGramsFrom (amount : UInt64) (cb : CellBuilder) : Option CellBuilder := (packGrams amount).storeFrom gramsSkip cb

/-! ## What is packed -/

theorem toInt_toInt64 (amount : UInt64) :
    amount.toInt64.toInt = if amount.toNat < 2 ^ 63 then (amount.toNat : Int) else (amount.toNat : Int) - 2 ^ 64 := by
  show amount.toBitVec.toInt = _
  rw [BitVec.toInt_eq_toNat_cond]
  show (if 2 * amount.toNat < 2 ^ 64 then (amount.toNat : Int) else _) = _
  by_cases h : amount.toNat < 2 ^ 63
  · rw [if_pos h, if_pos (by omega)]
  · rw [if_neg h, if_neg (by omega)]
    rfl

theorem packGrams_eq {amount : UInt64} (h : amount.toNat < 2 ^ 63) : packGrams amount = gramsSlice amount.toNat := by
  have hlen := length_gramsSlice amount.toNat
  have hbits : bitLength amount.toNat ≤ 63 := bitLength_le_iff.2 h
  have hstore := @storeGrams_eq amount.toNat (h.trans (by decide)) {} (by
    rw [hlen]
    show 0 + _ ≤ 1023
    omega)
  unfold packGrams
  rw [toInt_toInt64, if_pos h, hstore]
  rfl

/-- Nothing is packed of a negative number. -/
theorem packGrams_neg {amount : UInt64} (h : 2 ^ 63 ≤ amount.toNat) : packGrams amount = Slice.empty := by
  have hneg : amount.toInt64.toInt < 0 := by
    have hlt := amount.toNat_lt
    rw [toInt_toInt64, if_neg (by omega)]
    omega
  have hstore : storeGrams (some amount.toInt64.toInt) {} = (false, {}) := by
    rw [storeGrams, storeVarUInteger, BigInt256.bitSize, if_pos hneg, if_neg (by decide)]
  rw [packGrams, hstore]
  rfl

/-- A length is read in front of as many bits as there are. -/
theorem fetchUlongInt_append {n len : Nat} (hlen : len < 2 ^ n) (bits : List Bool) (refs : List Cell) :
    (Slice.mk (natToBits n len ++ bits) refs).fetchUlongInt n = ((len : Int), ⟨bits, refs⟩) := by
  rw [Slice.fetchUlongInt, if_pos (by simp), List.take_left' (length_natToBits n len),
    List.drop_left' (length_natToBits n len), bitsToNat_natToBits, Nat.mod_eq_of_lt hlen]

/-- There is no length, or there is one. -/
theorem fetchUlongInt_cases (n : Nat) (cs : Slice) :
    cs.fetchUlongInt n = (-1, cs) ∨ ∃ (len : Nat) (bits : List Bool), len < 2 ^ n ∧ cs.bits = natToBits n len ++ bits := by
  unfold Slice.fetchUlongInt
  split
  · next hle =>
    have htake : (cs.bits.take n).length = n := List.length_take_of_le hle
    refine .inr ⟨bitsToNat (cs.bits.take n), cs.bits.drop n, ?_, ?_⟩
    · have hlt := bitsToNat_lt (cs.bits.take n)
      rwa [htake] at hlt
    · have hbits := natToBits_bitsToNat (cs.bits.take n)
      rw [htake] at hbits
      rw [hbits, List.take_append_drop]
  · exact .inl rfl

theorem gramsSkip_eq_some {cs rest : Slice} : gramsSkip cs = some rest ↔
    ∃ (len : Nat) (bits : List Bool), len < 16 ∧ bits.length = len * 8 ∧
      cs = ⟨natToBits 4 len ++ bits ++ rest.bits, rest.refs⟩ := by
  have hskip (len : Nat) (hlen : len < 16) (bits : List Bool) (refs : List Cell) :
      gramsSkip ⟨natToBits 4 len ++ bits, refs⟩ = Slice.advance (len * 8) ⟨bits, refs⟩ := by
    rw [gramsSkip, fetchUlongInt_append hlen]
    exact if_pos ⟨Int.natCast_nonneg len, by omega⟩
  constructor
  · intro h
    obtain ⟨csBits, refs⟩ := cs
    rcases fetchUlongInt_cases 4 ⟨csBits, refs⟩ with hnone | ⟨len, bits, hlen, hbits⟩
    · rw [gramsSkip, hnone] at h
      cases h
    · subst hbits
      rw [hskip len hlen, Slice.advance] at h
      split at h
      · next hle =>
        cases h
        exact ⟨len, bits.take (len * 8), hlen, List.length_take_of_le hle, by simp⟩
      · cases h
  · rintro ⟨len, bits, hlen, hbits, rfl⟩
    rw [List.append_assoc, hskip len hlen, Slice.advance, if_pos (by simp [hbits]), List.drop_left' hbits]

theorem gramsAsInteger_eq {len : Nat} (hlen : len < 16) (bits : List Bool) (refs : List Cell) :
    gramsAsInteger ⟨natToBits 4 len ++ bits, refs⟩ =
      if (len = 0 ∨ Slice.prefetchUlong ⟨bits, refs⟩ 8 ≠ 0) ∧ bits.length = len * 8 ∧ refs = [] then
        some (BigInt256.ofInt (bitsToNat bits))
      else none := by
  have hrange : (0 : Int) ≤ len ∧ (len : Int) < 16 := ⟨Int.natCast_nonneg len, by omega⟩
  have hzero : ((len : Int) = 0) ↔ len = 0 := Int.natCast_eq_zero
  rw [gramsAsInteger, fetchUlongInt_append hlen]
  simp only [hrange, true_and, hzero, Int.toNat_natCast]
  by_cases hfirst : len = 0 ∨ Slice.prefetchUlong ⟨bits, refs⟩ 8 ≠ 0
  · rw [if_pos hfirst]
    by_cases hbits : bits.length = len * 8
    · have htake : bits.take (len * 8) = bits := List.take_of_length_le (Nat.le_of_eq hbits)
      have hdrop : bits.drop (len * 8) = [] := List.drop_eq_nil_of_le (Nat.le_of_eq hbits)
      rw [Slice.fetchInt256, if_pos (Nat.le_of_eq hbits.symm), htake]
      simp only [hdrop]
      by_cases hrefs : refs = []
      · rw [if_pos ⟨hfirst, hbits, hrefs⟩]
        simp [guard, hrefs]
      · rw [if_neg fun h => hrefs h.2.2]
        simp [guard, hrefs]
    · rw [if_neg fun h => hbits h.2.1, Slice.fetchInt256]
      by_cases hroom : len * 8 ≤ bits.length
      · have hdrop : bits.drop (len * 8) ≠ [] := fun h => hbits (Nat.le_antisymm (List.drop_eq_nil_iff.1 h) hroom)
        simp [guard, hroom, hdrop]
      · simp [hroom]
  · rw [if_neg hfirst, if_neg fun h => hfirst h.1]

/-- The first byte of a number that is not zero is not zero, where as few bytes as possible are used. -/
theorem prefetchUlong_first {x : Nat} (hx : x ≠ 0) (refs : List Cell) :
    Slice.prefetchUlong ⟨natToBits ((bitLength x + 7) / 8 * 8) x, refs⟩ 8 ≠ 0 := by
  have hpos := bitLength_pos (Nat.pos_of_ne_zero hx)
  obtain ⟨l, hl⟩ : ∃ l, (bitLength x + 7) / 8 = l + 1 := ⟨(bitLength x + 7) / 8 - 1, by omega⟩
  have hbytes : (l + 1) * 8 = 8 + l * 8 := by ring
  have hle : x < 2 ^ (8 + l * 8) := bitLength_le_iff.1 (by omega)
  have hlow : 2 ^ (l * 8) ≤ x := Nat.not_lt.1 fun h => by
    have hfew := bitLength_le_iff.2 h
    omega
  have hdiv : x / 2 ^ (l * 8) < 2 ^ 8 := Nat.div_lt_of_lt_mul (by rwa [← pow_add, Nat.add_comm])
  rw [hl, hbytes, natToBits_add, Slice.prefetchUlong, if_pos (by simp), List.take_left' (length_natToBits 8 _),
    bitsToNat_natToBits, Nat.mod_eq_of_lt hdiv]
  exact (Nat.div_pos hlow (Nat.two_pow_pos _)).ne'

/-- The number of as few bytes as possible. -/
theorem bitLength_of_first {len : Nat} {bits : List Bool} {refs : List Cell} (hbits : bits.length = len * 8)
    (hfirst : len = 0 ∨ Slice.prefetchUlong ⟨bits, refs⟩ 8 ≠ 0) : (bitLength (bitsToNat bits) + 7) / 8 = len := by
  have hlt := bitsToNat_lt bits
  have hle := bitLength_le_iff.2 hlt
  rw [hbits] at hle
  rcases hfirst with rfl | hfirst
  · omega
  · rcases Nat.eq_zero_or_pos len with rfl | hlen
    · omega
    have hsplit : bits = bits.take 8 ++ bits.drop 8 := (List.take_append_drop 8 bits).symm
    rw [Slice.prefetchUlong, if_pos (show 8 ≤ bits.length by omega)] at hfirst
    have hlow : 2 ^ ((len - 1) * 8) ≤ bitsToNat bits := by
      have hrest : (bits.drop 8).length = (len - 1) * 8 := by
        rw [List.length_drop]
        omega
      rw [hsplit, bitsToNat_append, hrest]
      exact le_add_right (Nat.le_mul_of_pos_right _ (Nat.pos_of_ne_zero hfirst))
    have hmany : (len - 1) * 8 < bitLength (bitsToNat bits) := Nat.not_le.1 fun h =>
      Nat.not_le.2 (bitLength_le_iff.1 h) hlow
    omega

theorem unpackGrams_eq_some_iff {cs : Slice} {amount : UInt64} :
    unpackGrams cs = some amount ↔ amount.toNat < 2 ^ 63 ∧ gramsAsInteger cs = some (some (amount.toNat : Int)) := by
  simp only [unpackGrams, Option.bind_eq_bind, Option.bind_eq_some_iff, Option.guard_eq_some', Option.pure_def,
    exists_const, Option.some.injEq]
  constructor
  · rintro ⟨_, hgot, x, rfl, ⟨hpos, hlt⟩, hamount⟩
    obtain ⟨n, rfl⟩ := Int.eq_ofNat_of_zero_le hpos
    have hn : n < 2 ^ 63 := by exact_mod_cast hlt
    have hword : amount.toNat = n := by
      rw [← hamount, Int.toNat_natCast, UInt64.toNat_ofNat_of_lt' (hn.trans (by decide))]
    rw [hword]
    exact ⟨hn, hgot⟩
  · rintro ⟨hamount, hgot⟩
    have hlt : (amount.toNat : Int) < 2 ^ 63 := by exact_mod_cast hamount
    refine ⟨_, hgot, _, rfl, ⟨Int.natCast_nonneg _, hlt⟩, ?_⟩
    rw [Int.toNat_natCast, UInt64.ofNat_toNat]

theorem ofInt_bitsToNat {bits : List Bool} (h : bits.length ≤ 256) :
    BigInt256.ofInt (bitsToNat bits) = some (bitsToNat bits : Int) := by
  have hlt : bitsToNat bits < 2 ^ 256 := (bitsToNat_lt bits).trans_le (Nat.pow_le_pow_right (by decide) h)
  have hlt' : (bitsToNat bits : Int) < 2 ^ 256 := by exact_mod_cast hlt
  have hlow : (-2 ^ 256 : Int) ≤ 0 := Int.neg_nonpos_of_nonneg (by exact_mod_cast Nat.zero_le (2 ^ 256))
  rw [BigInt256.ofInt, if_pos ⟨hlow.trans (Int.natCast_nonneg _), hlt'⟩]

/-- A number is read where it is written in as few bytes as possible. -/
theorem unpackGrams_eq_some {cs : Slice} {amount : UInt64} :
    unpackGrams cs = some amount ↔ amount.toNat < 2 ^ 63 ∧ cs = gramsSlice amount.toNat := by
  rw [unpackGrams_eq_some_iff]
  refine and_congr_right fun hamount => ?_
  constructor
  · intro h
    obtain ⟨csBits, refs⟩ := cs
    rcases fetchUlongInt_cases 4 ⟨csBits, refs⟩ with hnone | ⟨len, bits, hlen, hbits⟩
    · rw [gramsAsInteger, hnone] at h
      cases h
    · subst hbits
      rw [gramsAsInteger_eq hlen] at h
      split at h
      · next hread =>
        obtain ⟨hfirst, hlength, rfl⟩ := hread
        rw [ofInt_bitsToNat (by omega)] at h
        have hvalue : bitsToNat bits = amount.toNat := by
          have := Option.some.inj (Option.some.inj h)
          exact_mod_cast this
        have hsize := bitLength_of_first hlength hfirst
        rw [hvalue] at hsize
        have hread := natToBits_bitsToNat bits
        rw [hvalue, hlength] at hread
        rw [← hread, ← hsize]
        rfl
      · cases h
  · rintro rfl
    have hfew : bitLength amount.toNat ≤ 63 := bitLength_le_iff.2 hamount
    have hfirst : (bitLength amount.toNat + 7) / 8 = 0 ∨ Slice.prefetchUlong
        ⟨natToBits ((bitLength amount.toNat + 7) / 8 * 8) amount.toNat, []⟩ 8 ≠ 0 := by
      rcases Nat.eq_zero_or_pos amount.toNat with hzero | hpos
      · rw [hzero]
        exact .inl (by decide)
      · exact .inr (prefetchUlong_first hpos.ne' [])
    have hall : bitsToNat (natToBits ((bitLength amount.toNat + 7) / 8 * 8) amount.toNat) = amount.toNat := by
      rw [bitsToNat_natToBits, Nat.mod_eq_of_lt (bitLength_le_iff.1 (by omega))]
    have hread := gramsAsInteger_eq (show (bitLength amount.toNat + 7) / 8 < 16 by omega)
      (natToBits ((bitLength amount.toNat + 7) / 8 * 8) amount.toNat) []
    rw [if_pos ⟨hfirst, length_natToBits _ _, rfl⟩, ofInt_bitsToNat (by rw [length_natToBits]; omega), hall] at hread
    exact hread

/-! ## What is stored -/

theorem gramsSkip_gramsSlice {x : Nat} (h : x < 2 ^ 63) : gramsSkip (gramsSlice x) = some Slice.empty := by
  have hfew : bitLength x ≤ 63 := bitLength_le_iff.2 h
  refine gramsSkip_eq_some.2 ⟨(bitLength x + 7) / 8, natToBits ((bitLength x + 7) / 8 * 8) x, by omega, by simp, ?_⟩
  exact congrArg (fun bits => (⟨bits, []⟩ : Slice)) (List.append_nil _).symm

/-- A number is stored when it is not negative. -/
theorem storeGramsFrom_eq (amount : UInt64) (cb : CellBuilder) :
    storeGramsFrom amount cb = if amount.toNat < 2 ^ 63 then cb.appendSliceBool (gramsSlice amount.toNat) else none := by
  rw [storeGramsFrom]
  split
  · next h =>
    rw [packGrams_eq h, Slice.storeFrom, gramsSkip_gramsSlice h]
    rfl
  · next h =>
    rw [packGrams_neg (Nat.not_lt.1 h)]
    rfl

theorem storeGramsFrom_ok {amount : UInt64} (hamount : amount.toNat < 2 ^ 63) (cb : CellBuilder)
    (h : cb.bits.length + (gramsSlice amount.toNat).bits.length ≤ maxBits) :
    storeGramsFrom amount cb = some ⟨cb.bits ++ (gramsSlice amount.toNat).bits, cb.refs⟩ := by
  rw [storeGramsFrom_eq, if_pos hamount]
  exact appendSliceBool_ok (gramsSlice amount.toNat).bits cb h

end TonWallet.SmcEnvelope
