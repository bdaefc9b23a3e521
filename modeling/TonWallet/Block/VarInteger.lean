/-
Integers with the number of their bytes in front (`VarUInteger` and `VarInteger`): stored in as few bytes as they take, and
read, skipped and checked apart from each other.
-/
import TonWallet.SmcEnvelope.PackGrams
import TonWallet.Td.WideInt
import TonWallet.Vm.CellSliceOps

namespace TonWallet.Td.BigInt256

/-- `bit_size`. -/
def sizeIn (sgnd : Bool) : BigInt256 → Nat
  | none => 0x7fffffff
  | some x => bitSizeOf sgnd x

/-- A number from its bits; of too many it is none. -/
def ofDigits (x : Int) : BigInt256 := if BigInt.FitsDigits BigInt.maxSize x then some x else none

theorem ofDigits_of_fits {x : Int} (h : BigInt.FitsDigits BigInt.maxSize x) : ofDigits x = some x := if_pos h

end TonWallet.Td.BigInt256

namespace TonWallet.Vm

open Lib TonWallet.Td

/-- `prefetch_ulong` or `prefetch_long`, as an `int`. -/
def Slice.prefetchInt (sgnd : Bool) (bits : Nat) (cs : Slice) : Int :=
  let word := if bits ≤ cs.bits.length ∧ bits ≤ 64 then wordOf sgnd (cs.bits.take bits) else fetchEof sgnd
  (word.setWidth 32).toInt

/-- `fetch_ulong`, as an `int`. -/
def Slice.fetchInt (bits : Nat) (cs : Slice) : Int × Slice :=
  (cs.prefetchInt false bits, if bits ≤ cs.bits.length ∧ bits ≤ 64 then { cs with bits := cs.bits.drop bits } else cs)

/-- `fetch_int256`. -/
def Slice.fetchWide (bits : Nat) (sgnd : Bool) (cs : Slice) : Option (BigInt256 × Slice) :=
  if bits ≤ cs.bits.length then
    some (BigInt256.ofDigits (readBits sgnd (cs.bits.take bits)), { cs with bits := cs.bits.drop bits })
  else none

/-- `store_int256_bool`. -/
def CellBuilder.storeWide (value : BigInt256) (bits : Nat) (sgnd : Bool) (cb : CellBuilder) : Option CellBuilder := do
  guard (cb.canExtendBy bits 0)
  let x ← value
  guard (FitsBits sgnd bits x)
  return ⟨cb.bits ++ writeBits bits x, cb.refs⟩

end TonWallet.Vm

namespace TonWallet.Block

open Lib TonWallet.Td TonWallet.Vm

/-! ## The two types -/

/-- What both types hold: there are fewer bytes than `n`, and their bits are counted by an `int`. -/
structure ByteLimit where
  n : Nat
  fits : n ≤ 2 ^ 28

namespace ByteLimit

/-- The number of bits of a length, `32 - count_leading_zeroes32(n - 1)`; -1 has no zero in front. -/
def ln (t : ByteLimit) : Nat := if t.n = 0 then 32 else bitLength (t.n - 1)

def skip (t : ByteLimit) (cs : Slice) : Option Slice :=
  let (len, cs) := cs.fetchInt t.ln
  if 0 ≤ len ∧ len < t.n then cs.advance (len.toNat * 8) else none

def validateSkip (t : ByteLimit) (redundant : Slice → Bool) (cs : Slice) : Option Slice :=
  let (len, cs) := cs.fetchInt t.ln
  if 0 ≤ len ∧ len < t.n ∧ (len = 0 ∨ redundant cs = false) then cs.advance (len.toNat * 8) else none

def asIntegerSkip (t : ByteLimit) (redundant : Slice → Bool) (sgnd : Bool) (cs : Slice) : Option (BigInt256 × Slice) :=
  let (len, cs) := cs.fetchInt t.ln
  if 0 ≤ len ∧ len < t.n ∧ (len = 0 ∨ redundant cs = false) then cs.fetchWide (len.toNat * 8) sgnd else none

/-- `as_uint` and `as_int`. -/
def asLong (t : ByteLimit) (sgnd : Bool) (cs : Slice) : Int :=
  let len := cs.prefetchInt false t.ln
  if 0 ≤ len ∧ len ≤ 8 ∧ t.ln + len.toNat * 8 ≤ cs.bits.length then
    readBits sgnd ((cs.bits.drop t.ln).take (len.toNat * 8))
  else if sgnd then -2 ^ 63 else 2 ^ 64 - 1

def storeIntegerValue (t : ByteLimit) (sgnd : Bool) (cb : CellBuilder) (value : BigInt256) : Option CellBuilder :=
  let k := value.sizeIn sgnd
  if (k : Int) ≤ (t.n - 1) * 8 then
    (cb.storeLongBool ((k + 7) / 8) t.ln).bind (CellBuilder.storeWide value ((k + 7) / 8 * 8) sgnd)
  else none

end ByteLimit

/-- `VarUInteger`. -/
structure VarUInteger extends ByteLimit

namespace VarUInteger

/-- Whether a byte could be left out. -/
def redundantUint (cs : Slice) : Bool := cs.prefetchUlong 8 = 0

def skip (t : VarUInteger) (cs : Slice) : Option Slice := t.toByteLimit.skip cs
def validateSkip (t : VarUInteger) (cs : Slice) : Option Slice := t.toByteLimit.validateSkip redundantUint cs
def asIntegerSkip (t : VarUInteger) (cs : Slice) : Option (BigInt256 × Slice) :=
  t.toByteLimit.asIntegerSkip redundantUint false cs
def asUint (t : VarUInteger) (cs : Slice) : Int := t.toByteLimit.asLong false cs
def storeIntegerValue (t : VarUInteger) (cb : CellBuilder) (value : BigInt256) : Option CellBuilder :=
  t.toByteLimit.storeIntegerValue false cb value

/-- `precompute_integer_size`. -/
def precomputeIntegerSize (t : VarUInteger) (value : BigInt256) : Nat :=
  let k := value.sizeIn false
  if (k : Int) ≤ (t.n - 1) * 8 then t.ln + (k + 7) / 8 * 8 else 0xfff

/-- `precompute_integer_size` of a reference. -/
def precomputeIntegerSizeRef (t : VarUInteger) : Option BigInt256 → Nat
  | none => 0xfff
  | some value =>
    let k := value.sizeIn false
    if (k : Int) ≤ (t.n - 1) * 8 then t.ln + (k + 7) / 8 * 8 else 0xfff

end VarUInteger

/-- `VarInteger`. -/
structure VarInteger extends ByteLimit

namespace VarInteger

/-- `redundant_int`. -/
def redundantInt (cs : Slice) : Bool :=
  let t := cs.prefetchInt true 9
  t = 0 ∨ t = -1

def skip (t : VarInteger) (cs : Slice) : Option Slice := t.toByteLimit.skip cs
def validateSkip (t : VarInteger) (cs : Slice) : Option Slice := t.toByteLimit.validateSkip redundantInt cs
def asIntegerSkip (t : VarInteger) (cs : Slice) : Option (BigInt256 × Slice) :=
  t.toByteLimit.asIntegerSkip redundantInt true cs
def asInt (t : VarInteger) (cs : Slice) : Int := t.toByteLimit.asLong true cs
def storeIntegerValue (t : VarInteger) (cb : CellBuilder) (value : BigInt256) : Option CellBuilder :=
  t.toByteLimit.storeIntegerValue true cb value

end VarInteger

/-! ## Words read as `int` -/

section Words

variable {bits : List Bool}

theorem fitsBits_toInt {w : Nat} (x : BitVec w) : FitsBits true w x.toInt := ⟨BitVec.le_two_mul_toInt, BitVec.two_mul_toInt_lt⟩

theorem toInt_ofNat_emod (w v : Nat) : (BitVec.ofNat w v).toInt % 2 ^ w = (v : Int) % 2 ^ w := by
  rw [BitVec.toInt_ofNat']
  have hbmod := @Int.bmod_emod (v : Int) (2 ^ w)
  push_cast at hbmod
  exact hbmod

theorem toInt_setWidth_emod {w : Nat} (x : BitVec w) (hw : 32 ≤ w) : (x.setWidth 32).toInt % 2 ^ 32 = x.toInt % 2 ^ 32 := by
  have hset : x.setWidth 32 = BitVec.ofNat 32 x.toNat := (BitVec.ofNat_toNat 32 x).symm
  obtain ⟨k, hk⟩ : ∃ k, w = 32 + k := ⟨w - 32, by omega⟩
  have hdvd : (2 : Int) ^ 32 ∣ 2 ^ w := pow_dvd_pow 2 hw
  have hx : x.toInt % 2 ^ w = (x.toNat : Int) % 2 ^ w := by
    have := toInt_ofNat_emod w x.toNat
    rwa [BitVec.ofNat_toNat, BitVec.setWidth_eq] at this
  rw [hset, toInt_ofNat_emod, ← Int.emod_emod_of_dvd _ hdvd, ← hx, Int.emod_emod_of_dvd _ hdvd]

theorem toInt_ofNat_bitsToNat (bits : List Bool) : (BitVec.ofNat bits.length (bitsToNat bits)).toInt = bitsToInt bits := by
  refine (fitsBits_toInt _).eq_of_emod (fitsBits_bitsToInt bits) ?_
  rw [toInt_ofNat_emod]
  exact (Int.emod_eq_of_lt (fitsBits_bitsToNat bits).1 (fitsBits_bitsToNat bits).2).trans (readBits_emod true bits).symm

/-- A number that an `int` has is read as it is. -/
theorem prefetchInt_eq {sgnd : Bool} (hlength : bits.length ≤ 32) (hfits : FitsBits true 32 (readBits sgnd bits)) (rest : List Bool)
    (refs : List Cell) : (Slice.mk (bits ++ rest) refs).prefetchInt sgnd bits.length = readBits sgnd bits := by
  have hword : (wordOf sgnd bits).toInt % 2 ^ 32 = readBits sgnd bits % 2 ^ 32 := by
    cases sgnd with
    | false =>
      have hdvd : (2 : Int) ^ 32 ∣ 2 ^ 64 := pow_dvd_pow 2 (by decide)
      show (BitVec.ofNat 64 (bitsToNat bits)).toInt % 2 ^ 32 = (bitsToNat bits : Int) % 2 ^ 32
      rw [← Int.emod_emod_of_dvd _ hdvd, toInt_ofNat_emod, Int.emod_emod_of_dvd _ hdvd]
    | true =>
      show ((BitVec.ofNat bits.length (bitsToNat bits)).signExtend 64).toInt % 2 ^ 32 = bitsToInt bits % 2 ^ 32
      rw [BitVec.toInt_signExtend_of_le (by omega), toInt_ofNat_bitsToNat]
  unfold Slice.prefetchInt
  dsimp only
  rw [if_pos ⟨by rw [List.length_append]; omega, by omega⟩, List.take_left' rfl]
  refine (fitsBits_toInt _).eq_of_emod hfits ?_
  rw [toInt_setWidth_emod _ (by decide), hword]

theorem prefetchInt_length (h : bits.length < 32) (rest : List Bool) (refs : List Cell) :
    (Slice.mk (bits ++ rest) refs).prefetchInt false bits.length = bitsToNat bits := by
  refine prefetchInt_eq (by omega) ?_ rest refs
  have hpow : (2 : Int) ^ bits.length ≤ 2 ^ 31 := pow_le_pow_right₀ (by decide) (by omega)
  obtain ⟨hlow, hhigh⟩ := fitsBits_unsigned.1 (fitsBits_bitsToNat bits)
  exact fitsBits_signed_succ.2 ⟨le_trans (by decide) hlow, hhigh.trans_le hpow⟩

theorem prefetchInt_eof {n : Nat} {cs : Slice} (h : cs.bits.length < n) (sgnd : Bool) :
    cs.prefetchInt sgnd n = if sgnd then 0 else -1 := by
  unfold Slice.prefetchInt
  dsimp only
  rw [if_neg (by omega)]
  cases sgnd <;> decide

end Words

/-! ## Encodings -/

/-- A number in a slice: how many bytes, the bytes, and what follows. -/
structure Encoded (t : ByteLimit) (len : Nat) (bits : List Bool) (cs rest : Slice) : Prop where
  lt : len < t.n
  length : bits.length = len * 8
  eq : cs = ⟨natToBits t.ln len ++ (bits ++ rest.bits), rest.refs⟩

/-- No byte of it could be left out. -/
def Shortest (sgnd : Bool) (len : Nat) (bits : List Bool) : Prop :=
  len = 0 ∨ ¬FitsBits sgnd ((len - 1) * 8) (readBits sgnd bits)

section Encodings

variable {t : ByteLimit}

theorem ln_eq (h : 0 < t.n) : t.ln = bitLength (t.n - 1) := if_neg h.ne'

theorem ln_le (h : 0 < t.n) : t.ln ≤ 28 := by
  have := t.fits
  rw [ln_eq h, bitLength_le_iff]
  omega

theorem lt_two_pow_ln {len : Nat} (h : len < t.n) : len < 2 ^ t.ln := by
  have hlast : t.n - 1 < 2 ^ t.ln := bitLength_le_iff.1 (ln_eq (by omega)).ge
  omega

section

variable {len : Nat} {bits : List Bool} {cs rest : Slice} (h : Encoded t len bits cs rest)

include h

theorem Encoded.prefetchInt : cs.prefetchInt false t.ln = len := by
  have hln := ln_le (t := t) (by have := h.lt; omega)
  have hread := @prefetchInt_length (natToBits t.ln len) (by rw [length_natToBits]; omega) (bits ++ rest.bits) rest.refs
  rw [length_natToBits, bitsToNat_natToBits, Nat.mod_eq_of_lt (lt_two_pow_ln h.lt)] at hread
  rw [h.eq, hread]

theorem Encoded.fetchInt : cs.fetchInt t.ln = ((len : Int), ⟨bits ++ rest.bits, rest.refs⟩) := by
  have hln := ln_le (t := t) (by have := h.lt; omega)
  have hdrop : (natToBits t.ln len ++ (bits ++ rest.bits)).drop t.ln = bits ++ rest.bits :=
    List.drop_left' (length_natToBits _ _)
  unfold Slice.fetchInt
  rw [h.prefetchInt, h.eq]
  dsimp only
  rw [if_pos ⟨by rw [List.length_append, length_natToBits]; omega, by omega⟩, hdrop]

theorem Encoded.advance : (Slice.mk (bits ++ rest.bits) rest.refs).advance (len * 8) = some rest := by
  unfold Slice.advance
  dsimp only
  rw [if_pos (by rw [List.length_append, h.length]; omega), List.drop_left' h.length]

theorem Encoded.skip : t.skip cs = some rest := by
  unfold ByteLimit.skip
  rw [h.fetchInt]
  dsimp only
  rw [if_pos ⟨Int.natCast_nonneg len, by exact_mod_cast h.lt⟩, Int.toNat_natCast, h.advance]

theorem Encoded.validateSkip (redundant : Slice → Bool) : t.validateSkip redundant cs =
    if len = 0 ∨ redundant ⟨bits ++ rest.bits, rest.refs⟩ = false then some rest else none := by
  unfold ByteLimit.validateSkip
  rw [h.fetchInt]
  dsimp only
  rw [Int.toNat_natCast, h.advance]
  refine if_congr ?_ rfl rfl
  have hlt := h.lt
  have hzero : (len : Int) = 0 ↔ len = 0 := Int.natCast_eq_zero
  rw [hzero]
  exact ⟨fun hall => hall.2.2, fun hshort => ⟨by omega, by omega, hshort⟩⟩

theorem Encoded.asIntegerSkip (redundant : Slice → Bool) (sgnd : Bool) : t.asIntegerSkip redundant sgnd cs =
    if len = 0 ∨ redundant ⟨bits ++ rest.bits, rest.refs⟩ = false then some (BigInt256.ofDigits (readBits sgnd bits), rest)
    else none := by
  have hfetch : (Slice.mk (bits ++ rest.bits) rest.refs).fetchWide (len * 8) sgnd =
      some (BigInt256.ofDigits (readBits sgnd bits), rest) := by
    unfold Slice.fetchWide
    dsimp only
    rw [if_pos (by rw [List.length_append, h.length]; omega), List.take_left' h.length, List.drop_left' h.length]
  unfold ByteLimit.asIntegerSkip
  rw [h.fetchInt]
  dsimp only
  rw [Int.toNat_natCast, hfetch]
  refine if_congr ?_ rfl rfl
  have hlt := h.lt
  have hzero : (len : Int) = 0 ↔ len = 0 := Int.natCast_eq_zero
  rw [hzero]
  exact ⟨fun hall => hall.2.2, fun hshort => ⟨by omega, by omega, hshort⟩⟩

theorem Encoded.asLong (sgnd : Bool) (hlen : len ≤ 8) : t.asLong sgnd cs = readBits sgnd bits := by
  have hbits : cs.bits = natToBits t.ln len ++ (bits ++ rest.bits) := by rw [h.eq]
  unfold ByteLimit.asLong
  dsimp only
  rw [h.prefetchInt, Int.toNat_natCast, hbits, List.drop_left' (length_natToBits _ _), List.take_left' h.length, if_pos]
  rw [List.length_append, List.length_append, length_natToBits, h.length]
  omega

end

/-- What the checks of a length leave is an encoding. -/
theorem exists_encoded {cs cs' rest : Slice} {len : Int} (hfetch : cs.fetchInt t.ln = (len, cs')) (h0 : 0 ≤ len)
    (hlt : len < t.n) (hadvance : cs'.advance (len.toNat * 8) = some rest) :
    ∃ bits, Encoded t len.toNat bits cs rest ∧ cs' = ⟨bits ++ rest.bits, rest.refs⟩ := by
  have hln := ln_le (t := t) (by omega)
  unfold Slice.fetchInt at hfetch
  by_cases hroom : cs.bits.length < t.ln
  · -- the end of the slice is no length
    rw [prefetchInt_eof hroom] at hfetch
    cases hfetch
    exact absurd h0 (by decide)
  · rw [if_pos ⟨by omega, by omega⟩] at hfetch
    obtain ⟨rfl, rfl⟩ := Prod.mk.inj hfetch
    have hlength : (cs.bits.take t.ln).length = t.ln := List.length_take_of_le (by omega)
    have hread := @prefetchInt_length (cs.bits.take t.ln) (by omega) (cs.bits.drop t.ln) cs.refs
    rw [List.take_append_drop, hlength] at hread
    rw [hread] at hlt
    rw [hread, Int.toNat_natCast] at hadvance ⊢
    unfold Slice.advance at hadvance
    dsimp only at hadvance
    split at hadvance
    · next hfits =>
      obtain rfl := Option.some.inj hadvance
      have hwritten : natToBits t.ln (bitsToNat (cs.bits.take t.ln)) = cs.bits.take t.ln := by
        have := natToBits_bitsToNat (cs.bits.take t.ln)
        rwa [hlength] at this
      refine ⟨(cs.bits.drop t.ln).take (bitsToNat (cs.bits.take t.ln) * 8), ⟨by omega, List.length_take_of_le hfits, ?_⟩, ?_⟩
      · rw [hwritten, List.take_append_drop, List.take_append_drop]
      · rw [List.take_append_drop]
    · cases hadvance

theorem encoded_of_validateSkip {redundant : Slice → Bool} {cs rest : Slice} (h : t.validateSkip redundant cs = some rest) :
    ∃ len bits, Encoded t len bits cs rest ∧ (len = 0 ∨ redundant ⟨bits ++ rest.bits, rest.refs⟩ = false) := by
  unfold ByteLimit.validateSkip at h
  cases hfetch : cs.fetchInt t.ln with
  | mk len cs' =>
    rw [hfetch] at h
    dsimp only at h
    split at h
    · next hall =>
      obtain ⟨h0, hlt, hshort⟩ := hall
      obtain ⟨bits, hencoded, rfl⟩ := exists_encoded hfetch h0 hlt h
      exact ⟨len.toNat, bits, hencoded, hshort.imp_left fun hzero => by omega⟩
    · cases h

end Encodings

/-! ## Bytes that could be left out -/

section Checks

variable {bits more : List Bool} {refs : List Cell} {len : Nat}

theorem redundantUint_iff (hlength : bits.length = len * 8) (hlen : 0 < len) :
    VarUInteger.redundantUint ⟨bits ++ more, refs⟩ = true ↔ FitsBits false ((len - 1) * 8) (readBits false bits) := by
  have hdrop : (bits.drop 8).length = (len - 1) * 8 := by
    rw [List.length_drop]
    omega
  have hlower := fits_lower_unsigned (bits.take 8) (bits.drop 8)
  rw [List.take_append_drop, hdrop] at hlower
  unfold VarUInteger.redundantUint Slice.prefetchUlong
  dsimp only
  rw [if_pos (by rw [List.length_append]; omega), List.take_append_of_le_length (by omega), hlower, decide_eq_true_iff]

theorem redundantInt_append {hi : List Bool} (hhi : hi.length = 9) :
    VarInteger.redundantInt ⟨hi ++ more, refs⟩ = true ↔ bitsToInt hi = 0 ∨ bitsToInt hi = -1 := by
  have hread := @prefetchInt_eq hi true (by omega) ((fitsBits_readBits true hi).mono (by omega)) more refs
  rw [hhi] at hread
  unfold VarInteger.redundantInt
  dsimp only
  rw [hread, decide_eq_true_iff]
  exact Iff.rfl

/-- Nine bits tell whether one of several bytes could be left out. -/
theorem redundantInt_iff (hlength : bits.length = len * 8) (hlen : 2 ≤ len) :
    VarInteger.redundantInt ⟨bits ++ more, refs⟩ = true ↔ FitsBits true ((len - 1) * 8) (readBits true bits) := by
  have htake : (bits.take 9).length = 9 := List.length_take_of_le (by omega)
  have hdrop : (bits.drop 9).length + 1 = (len - 1) * 8 := by
    rw [List.length_drop]
    omega
  have hlower := fits_lower_signed (List.ne_nil_of_length_pos (by omega : 0 < (bits.take 9).length)) (bits.drop 9)
  rw [List.take_append_drop, hdrop] at hlower
  have hnine := @redundantInt_append (bits.drop 9 ++ more) refs _ htake
  rw [← List.append_assoc, List.take_append_drop] at hnine
  rw [hnine, hlower]

/-- Of a single byte they take in the bit that follows. -/
theorem redundantInt_byte (hlength : bits.length = 8) : VarInteger.redundantInt ⟨bits ++ more, refs⟩ = false ↔
    ∃ b rest, more = b :: rest ∧ ¬(bitsToInt bits = 0 ∧ b = false) ∧ ¬(bitsToInt bits = -1 ∧ b = true) := by
  cases more with
  | nil =>
    have heof : VarInteger.redundantInt ⟨bits ++ [], refs⟩ = true := by
      unfold VarInteger.redundantInt
      rw [prefetchInt_eof (by rw [List.append_nil]; dsimp only; omega)]
      rfl
    rw [heof]
    constructor
    · rintro ⟨⟩
    · rintro ⟨b, rest, ⟨⟩, -⟩
  | cons b rest =>
    have hne : bits ≠ [] := List.ne_nil_of_length_pos (by omega)
    have hnine := @redundantInt_append rest refs (bits ++ [b]) (by rw [List.length_append, hlength]; rfl)
    rw [List.append_assoc, List.singleton_append, bitsToInt_append hne, List.length_singleton, pow_one] at hnine
    rw [← Bool.not_eq_true, hnine]
    have hiff : (bitsToInt bits * 2 + bitsToNat [b] = 0 ∨ bitsToInt bits * 2 + bitsToNat [b] = -1) ↔
        (bitsToInt bits = 0 ∧ b = false) ∨ (bitsToInt bits = -1 ∧ b = true) := by
      cases b with
      | false =>
        have hbit : bitsToNat [false] = 0 := rfl
        simp only [hbit, and_true, Bool.false_eq_true, and_false, or_false]
        omega
      | true =>
        have hbit : bitsToNat [true] = 1 := rfl
        simp only [hbit, and_true, Bool.true_eq_false, and_false, false_or]
        omega
    rw [hiff, not_or]
    constructor
    · exact fun h => ⟨b, rest, rfl, h⟩
    · rintro ⟨_, _, ⟨⟩, h⟩
      exact h

end Checks

/-! ## Storing -/

/-- The number of bytes that a number takes. -/
def byteLen (sgnd : Bool) (x : Int) : Nat := (bitSizeOf sgnd x + 7) / 8

/-- Whether a number fits the bytes that there may be. -/
def FitsBytes (t : ByteLimit) (sgnd : Bool) (x : Int) : Prop := 0 < t.n ∧ FitsBits sgnd ((t.n - 1) * 8) x

/-- The bits that are stored. -/
def storedBits (t : ByteLimit) (sgnd : Bool) (x : Int) : List Bool :=
  natToBits t.ln (byteLen sgnd x) ++ writeBits (byteLen sgnd x * 8) x

section Storing

variable {t : ByteLimit} {sgnd : Bool} {x : Int}

theorem byteLen_le_iff {m : Nat} (hm : m < 2 ^ 28) : byteLen sgnd x ≤ m ↔ FitsBits sgnd (m * 8) x := by
  rw [← bitSizeOf_le_iff (by omega), byteLen]
  omega

theorem byteLen_lt_iff : byteLen sgnd x < t.n ↔ FitsBytes t sgnd x := by
  have hfits := t.fits
  rcases Nat.eq_zero_or_pos t.n with hzero | hpos
  · rw [hzero]
    exact iff_of_false (Nat.not_lt_zero _) fun h => by have := h.1; omega
  · have hle := @byteLen_le_iff sgnd x (t.n - 1) (by omega)
    exact ⟨fun h => ⟨hpos, hle.1 (by omega)⟩, fun h => by have := hle.2 h.2; omega⟩

theorem size_le_iff : ((BigInt256.sizeIn sgnd (some x) : Nat) : Int) ≤ (t.n - 1) * 8 ↔ FitsBytes t sgnd x := by
  rw [← byteLen_lt_iff, byteLen]
  show (bitSizeOf sgnd x : Int) ≤ _ ↔ _
  omega

theorem FitsBytes.fits (h : FitsBytes t sgnd x) : FitsBits sgnd (byteLen sgnd x * 8) x := by
  have hlt := byteLen_lt_iff.2 h
  have := t.fits
  exact (byteLen_le_iff (by omega)).1 le_rfl

theorem length_stored : (storedBits t sgnd x).length = t.ln + byteLen sgnd x * 8 := by
  rw [storedBits, List.length_append, length_natToBits, length_writeBits]

theorem storeWide_ok {bits : Nat} {cb : CellBuilder} (hroom : cb.bits.length + bits ≤ maxBits) (h : FitsBits sgnd bits x) :
    CellBuilder.storeWide (some x) bits sgnd cb = some ⟨cb.bits ++ writeBits bits x, cb.refs⟩ := by
  have hcan : cb.canExtendBy bits 0 = true := by
    unfold CellBuilder.canExtendBy
    rw [Bool.and_eq_true, decide_eq_true_iff, decide_eq_true_iff]
    omega
  unfold CellBuilder.storeWide
  simp [guard, hcan, h]

theorem storeIntegerValue_of_fits (h : FitsBytes t sgnd x) {cb : CellBuilder}
    (hroom : cb.bits.length + (storedBits t sgnd x).length ≤ maxBits) :
    t.storeIntegerValue sgnd cb (some x) = some ⟨cb.bits ++ storedBits t sgnd x, cb.refs⟩ := by
  rw [length_stored] at hroom
  have hbytes : (BigInt256.sizeIn sgnd (some x) + 7) / 8 = byteLen sgnd x := rfl
  unfold ByteLimit.storeIntegerValue
  dsimp only
  rw [if_pos (size_le_iff.2 h), hbytes, CellBuilder.storeLongBool_ok _ _ _ (by omega), Option.bind_some,
    storeWide_ok (by rw [List.length_append, length_natToBits]; omega) h.fits, storedBits, List.append_assoc]

theorem storeIntegerValue_of_not_fits (h : ¬FitsBytes t sgnd x) (cb : CellBuilder) :
    t.storeIntegerValue sgnd cb (some x) = none := by
  unfold ByteLimit.storeIntegerValue
  exact if_neg fun hsize => h (size_le_iff.1 hsize)

/-- What is stored is an encoding. -/
theorem encoded_stored (h : FitsBytes t sgnd x) (rest : Slice) :
    Encoded t (byteLen sgnd x) (writeBits (byteLen sgnd x * 8) x) ⟨storedBits t sgnd x ++ rest.bits, rest.refs⟩ rest where
  lt := byteLen_lt_iff.2 h
  length := length_writeBits _ _
  eq := by rw [storedBits, List.append_assoc]

theorem shortest_stored (h : FitsBytes t sgnd x) : Shortest sgnd (byteLen sgnd x) (writeBits (byteLen sgnd x * 8) x) := by
  have hlt := byteLen_lt_iff.2 h
  have := t.fits
  rw [Shortest, readBits_writeBits h.fits]
  by_cases hzero : byteLen sgnd x = 0
  · exact .inl hzero
  · refine .inr fun hfewer => ?_
    have := (byteLen_le_iff (by omega)).2 hfewer
    omega

/-- The shortest encoding is the one that is stored. -/
theorem stored_eq_of_shortest {len : Nat} {bits : List Bool} (hlt : len < t.n) (hlength : bits.length = len * 8)
    (hshort : Shortest sgnd len bits) : FitsBytes t sgnd (readBits sgnd bits) ∧
      storedBits t sgnd (readBits sgnd bits) = natToBits t.ln len ++ bits := by
  have := t.fits
  have hfits := fitsBits_readBits sgnd bits
  rw [hlength] at hfits
  have hbytes : byteLen sgnd (readBits sgnd bits) = len := by
    refine le_antisymm ((byteLen_le_iff (by omega)).2 hfits) ?_
    rcases hshort with hzero | hnot
    · omega
    · by_contra hless
      exact hnot ((byteLen_le_iff (by omega)).1 (by omega))
  have hwritten := writeBits_readBits sgnd bits
  rw [hlength] at hwritten
  exact ⟨byteLen_lt_iff.1 (by omega), by rw [storedBits, hbytes, hwritten]⟩

end Storing

/-! ## Checks of what is stored and read -/

/-- A check passes. -/
def Passes (redundant : Slice → Bool) (len : Nat) (bits : List Bool) (rest : Slice) : Prop :=
  len = 0 ∨ redundant ⟨bits ++ rest.bits, rest.refs⟩ = false

section Passing

variable {bits : List Bool} {len : Nat} {rest : Slice}

theorem passes_unsigned_iff (hlength : bits.length = len * 8) :
    Passes VarUInteger.redundantUint len bits rest ↔ Shortest false len bits := by
  rcases Nat.eq_zero_or_pos len with hzero | hpos
  · exact iff_of_true (.inl hzero) (.inl hzero)
  · refine or_congr_right ?_
    rw [← redundantUint_iff hlength hpos, Bool.not_eq_true]

theorem passes_signed_iff (hlength : bits.length = len * 8) (hone : len ≠ 1) :
    Passes VarInteger.redundantInt len bits rest ↔ Shortest true len bits := by
  rcases Nat.eq_zero_or_pos len with hzero | hpos
  · exact iff_of_true (.inl hzero) (.inl hzero)
  · refine or_congr_right ?_
    rw [← redundantInt_iff hlength (by omega), Bool.not_eq_true]

theorem shortest_byte_iff : Shortest true 1 bits ↔ bitsToInt bits ≠ 0 := by
  rw [Shortest, or_iff_right Nat.one_ne_zero, Nat.sub_self, Nat.zero_mul, fitsBits_zero]
  exact Iff.rfl

theorem byteLen_signed_eq_one_iff {x : Int} : byteLen true x = 1 ↔ x ≠ 0 ∧ -128 ≤ x ∧ x < 128 := by
  have hzero : byteLen true x ≤ 0 ↔ x = 0 := (byteLen_le_iff (by decide)).trans fitsBits_zero
  have hone : byteLen true x ≤ 1 ↔ -128 ≤ x ∧ x < 128 := (byteLen_le_iff (by decide)).trans fitsBits_signed_succ
  omega

end Passing

/-! ## Stored and read back -/

/-- What a type does with its integers. -/
structure Codec where
  store : CellBuilder → BigInt256 → Option CellBuilder
  skip : Slice → Option Slice
  validateSkip : Slice → Option Slice
  asIntegerSkip : Slice → Option (BigInt256 × Slice)
  asLong : Slice → Int
  precompute : List (BigInt256 → Nat)

def ByteLimit.codec (t : ByteLimit) (sgnd : Bool) (redundant : Slice → Bool) (precompute : List (BigInt256 → Nat)) : Codec :=
  ⟨t.storeIntegerValue sgnd, t.skip, t.validateSkip redundant, t.asIntegerSkip redundant sgnd, t.asLong sgnd, precompute⟩

def VarUInteger.codec (t : VarUInteger) : Codec :=
  ⟨t.storeIntegerValue, t.skip, t.validateSkip, t.asIntegerSkip, t.asUint,
    [t.precomputeIntegerSize, fun value => t.precomputeIntegerSizeRef (some value)]⟩

def VarInteger.codec (t : VarInteger) : Codec :=
  ⟨t.storeIntegerValue, t.skip, t.validateSkip, t.asIntegerSkip, t.asInt, []⟩

/-- An integer is stored as some bits, and read from them, whatever follows. -/
structure ReadsBack (c : Codec) (sgnd : Bool) (x : Int) (rest : Slice) (bits : List Bool) : Prop where
  small : bits.length ≤ maxBits
  store : ∀ cb : CellBuilder, cb.bits.length + bits.length ≤ maxBits → c.store cb (some x) = some ⟨cb.bits ++ bits, cb.refs⟩
  skip : c.skip ⟨bits ++ rest.bits, rest.refs⟩ = some rest
  validateSkip : c.validateSkip ⟨bits ++ rest.bits, rest.refs⟩ = some rest
  asIntegerSkip : c.asIntegerSkip ⟨bits ++ rest.bits, rest.refs⟩ = some (some x, rest)
  asLong : FitsBits sgnd 64 x → c.asLong ⟨bits ++ rest.bits, rest.refs⟩ = x
  precompute : ∀ size ∈ c.precompute, size (some x) = bits.length

/-- The integers that fit are stored and read back, and no others are stored. -/
structure RoundTrips (c : Codec) (t : ByteLimit) (sgnd : Bool) (x : Int) (rest : Slice) : Prop where
  fits : FitsBytes t sgnd x → ∃ bits, ReadsBack c sgnd x rest bits
  fails : ¬FitsBytes t sgnd x → ∀ cb, c.store cb (some x) = none

/-- What is accepted is what is stored of the number that is read from it. -/
def Canonical (c : Codec) (cs : Slice) : Prop := ∀ rest, c.validateSkip cs = some rest →
  ∃ (x : Int) (bits : List Bool), cs = ⟨bits ++ rest.bits, rest.refs⟩ ∧ c.asIntegerSkip cs = some (some x, rest) ∧
    ∀ cb : CellBuilder, cb.bits.length + bits.length ≤ maxBits → c.store cb (some x) = some ⟨cb.bits ++ bits, cb.refs⟩

section RoundTrip

variable {t : ByteLimit} {sgnd : Bool} {redundant : Slice → Bool} {precompute : List (BigInt256 → Nat)}

theorem length_stored_le {x : Int} (h : FitsBytes t sgnd x) (hx : BigInt.FitsDigits BigInt.maxSize x) :
    (storedBits t sgnd x).length ≤ maxBits := by
  have hln := ln_le h.1
  have hsigned : FitsBits true 264 x := by
    have hhalf : BigInt.half * BigInt.ones BigInt.maxSize ≤ 2 ^ 263 := by
      rw [show 263 = 256 + 7 from rfl, pow_add]
      decide
    have hless : (BigInt.half - 1) * BigInt.ones BigInt.maxSize < BigInt.half * BigInt.ones BigInt.maxSize := by decide
    exact fitsBits_signed_succ.2 ⟨(neg_le_neg hhalf).trans hx.1, hx.2.trans_lt (hless.trans_le hhalf)⟩
  have hbytes : byteLen sgnd x ≤ 33 := by
    refine (byteLen_le_iff (by decide)).2 ?_
    cases sgnd with
    | true => exact hsigned
    | false =>
      obtain ⟨-, hhigh⟩ := fitsBits_signed_succ.1 hsigned
      exact ⟨(fitsBits_unsigned.1 h.2).1, hhigh.trans (by decide)⟩
  rw [length_stored, maxBits]
  omega

theorem readsBack_iff {x : Int} (h : FitsBytes t sgnd x) (hx : BigInt.FitsDigits BigInt.maxSize x)
    (hsize : ∀ size ∈ precompute, size (some x) = (storedBits t sgnd x).length) (rest : Slice) :
    (∃ bits, ReadsBack (t.codec sgnd redundant precompute) sgnd x rest bits) ↔
      Passes redundant (byteLen sgnd x) (writeBits (byteLen sgnd x * 8) x) rest := by
  have hencoded := encoded_stored h rest
  constructor
  · rintro ⟨bits, hbits⟩
    have hempty : ∀ bs : List Bool, bs.length ≤ maxBits → (⟨[], []⟩ : CellBuilder).bits.length + bs.length ≤ maxBits :=
      fun bs hbs => by rw [List.length_nil]; omega
    have hsame := (hbits.store ⟨[], []⟩ (hempty _ hbits.small)).symm.trans
      (storeIntegerValue_of_fits h (hempty _ (length_stored_le h hx)))
    have heq : bits = storedBits t sgnd x := congrArg CellBuilder.bits (Option.some.inj hsame)
    have hvalidate := hbits.validateSkip
    rw [heq] at hvalidate
    by_contra hnot
    have hnone := (hencoded.validateSkip redundant).trans (if_neg hnot)
    cases hnone.symm.trans hvalidate
  · intro hpass
    refine ⟨storedBits t sgnd x, length_stored_le h hx, fun cb => storeIntegerValue_of_fits h, hencoded.skip, ?_, ?_, ?_, hsize⟩
    · exact (hencoded.validateSkip redundant).trans (if_pos hpass)
    · refine (hencoded.asIntegerSkip redundant sgnd).trans ((if_pos hpass).trans ?_)
      rw [readBits_writeBits h.fits, BigInt256.ofDigits_of_fits hx]
    · intro hword
      exact (hencoded.asLong sgnd ((byteLen_le_iff (by decide)).2 hword)).trans (readBits_writeBits h.fits)

theorem canonical_of {cs : Slice} (hall : ∀ len bits rest, Encoded t len bits cs rest → Passes redundant len bits rest →
      Shortest sgnd len bits ∧ BigInt.FitsDigits BigInt.maxSize (readBits sgnd bits)) :
    Canonical (t.codec sgnd redundant precompute) cs := by
  intro rest hvalidate
  obtain ⟨len, bits, hencoded, hpass⟩ := encoded_of_validateSkip hvalidate
  obtain ⟨hshort, hdigits⟩ := hall len bits rest hencoded hpass
  obtain ⟨hfits, hstored⟩ := stored_eq_of_shortest hencoded.lt hencoded.length hshort
  refine ⟨readBits sgnd bits, natToBits t.ln len ++ bits, ?_, ?_, ?_⟩
  · rw [List.append_assoc]
    exact hencoded.eq
  · refine (hencoded.asIntegerSkip redundant sgnd).trans ((if_pos hpass).trans ?_)
    rw [BigInt256.ofDigits_of_fits hdigits]
  · intro cb hroom
    rw [← hstored] at hroom ⊢
    exact storeIntegerValue_of_fits hfits hroom

section

variable {cs : Slice} (h : Canonical (t.codec sgnd redundant precompute) cs) {len : Nat} {bits : List Bool} {rest : Slice}
  (hencoded : Encoded t len bits cs rest) (hpass : Passes redundant len bits rest)

include h hencoded hpass

/-- The number that is read is one, and is stored as what it was read from. -/
theorem Canonical.spec : BigInt.FitsDigits BigInt.maxSize (readBits sgnd bits) ∧
    ∀ cb : CellBuilder, cb.bits.length + (natToBits t.ln len ++ bits).length ≤ maxBits →
      t.storeIntegerValue sgnd cb (some (readBits sgnd bits)) = some ⟨cb.bits ++ (natToBits t.ln len ++ bits), cb.refs⟩ := by
  obtain ⟨x, whole, hcs, hread, hstore⟩ := h rest ((hencoded.validateSkip redundant).trans (if_pos hpass))
  have hvalue := hread.symm.trans ((hencoded.asIntegerSkip redundant sgnd).trans (if_pos hpass))
  have hdigits : some x = BigInt256.ofDigits (readBits sgnd bits) := congrArg Prod.fst (Option.some.inj hvalue)
  have hwhole : whole = natToBits t.ln len ++ bits := by
    have hbits := congrArg Slice.bits (hcs.symm.trans hencoded.eq)
    dsimp only at hbits
    rw [← List.append_assoc] at hbits
    exact List.append_cancel_right hbits
  by_cases hfits : BigInt.FitsDigits BigInt.maxSize (readBits sgnd bits)
  · rw [BigInt256.ofDigits_of_fits hfits] at hdigits
    rw [← Option.some.inj hdigits, ← hwhole]
    exact ⟨Option.some.inj hdigits ▸ hfits, hstore⟩
  · rw [BigInt256.ofDigits, if_neg hfits] at hdigits
    cases hdigits

theorem Canonical.shortest (hsmall : t.ln + len * 8 ≤ maxBits) : Shortest sgnd len bits := by
  obtain ⟨hdigits, hstore⟩ := Canonical.spec h hencoded hpass
  have hlength : (natToBits t.ln len ++ bits).length = t.ln + len * 8 := by
    rw [List.length_append, length_natToBits, hencoded.length]
  have hempty := hstore ⟨[], []⟩ (by rw [hlength, List.length_nil]; omega)
  by_cases hfits : FitsBytes t sgnd (readBits sgnd bits)
  · rw [storeIntegerValue_of_fits hfits (by rw [List.length_nil, Nat.zero_add]; exact length_stored_le hfits hdigits)] at hempty
    have heq : storedBits t sgnd (readBits sgnd bits) = natToBits t.ln len ++ bits :=
      congrArg CellBuilder.bits (Option.some.inj hempty)
    have hbytes : byteLen sgnd (readBits sgnd bits) = len := by
      have := congrArg List.length heq
      rw [length_stored, hlength] at this
      omega
    have hshort := shortest_stored hfits
    have hwritten := writeBits_readBits sgnd bits
    rw [hencoded.length] at hwritten
    rwa [hbytes, hwritten] at hshort
  · rw [storeIntegerValue_of_not_fits hfits] at hempty
    cases hempty

end

end RoundTrip

/-! ## Both types -/

/-- An integer that there is. -/
structure WideInt where
  val : Int
  fits : BigInt.FitsDigits BigInt.maxSize val

/-- Both types store and read `x` with `rest` behind it, and accept `cs` only as they would store it. -/
structure CodecsRight (t : ByteLimit) (x : WideInt) (rest cs : Slice) : Prop where
  unsigned : RoundTrips (VarUInteger.codec ⟨t⟩) t false x.val rest
  signed : RoundTrips (VarInteger.codec ⟨t⟩) t true x.val rest
  canonicalUnsigned : Canonical (VarUInteger.codec ⟨t⟩) cs
  canonicalSigned : Canonical (VarInteger.codec ⟨t⟩) cs

/-- Something follows a single byte, and does not look like more of -1; no byte of zeros is followed by a one; and what is
encoded is a number that there is. -/
structure Regular (t : ByteLimit) (x : WideInt) (rest cs : Slice) : Prop where
  followed : 1 < t.n → x.val ≠ 0 → -128 ≤ x.val → x.val < 128 →
    ∃ b more, rest.bits = b :: more ∧ ¬(x.val = -1 ∧ b = true)
  noZero : ∀ more refs, ¬Encoded t 1 (List.replicate 8 false) cs ⟨true :: more, refs⟩
  held : ∀ sgnd len bits rest, Encoded t len bits cs rest → Shortest sgnd len bits →
    BigInt.FitsDigits BigInt.maxSize (readBits sgnd bits)

section BothTypes

variable {t : ByteLimit} {x : WideInt} {rest cs : Slice}

theorem unsigned_roundTrips : RoundTrips (VarUInteger.codec ⟨t⟩) t false x.val rest where
  fits h := by
    have hsize (value : Nat) (hvalue : value = t.ln + byteLen false x.val * 8) : value = (storedBits t false x.val).length := by
      rw [length_stored, hvalue]
    refine (readsBack_iff h x.fits ?_ rest).2 ((passes_unsigned_iff (length_writeBits _ _)).2 (shortest_stored h))
    intro size hmem
    rcases List.mem_pair.1 hmem with rfl | rfl <;> exact hsize _ (if_pos (size_le_iff.2 h))
  fails := storeIntegerValue_of_not_fits

theorem followed_iff : (FitsBytes t true x.val →
      Passes VarInteger.redundantInt (byteLen true x.val) (writeBits (byteLen true x.val * 8) x.val) rest) ↔
    (1 < t.n → x.val ≠ 0 → -128 ≤ x.val → x.val < 128 → ∃ b more, rest.bits = b :: more ∧ ¬(x.val = -1 ∧ b = true)) := by
  by_cases hone : byteLen true x.val = 1
  · have hsmall := byteLen_signed_eq_one_iff.1 hone
    have hread : bitsToInt (writeBits 8 x.val) = x.val := @readBits_writeBits true 8 x.val (fitsBits_signed_succ.2 hsmall.2)
    have hpasses : Passes VarInteger.redundantInt 1 (writeBits (1 * 8) x.val) rest ↔
        ∃ b more, rest.bits = b :: more ∧ ¬(x.val = -1 ∧ b = true) := by
      rw [Passes, or_iff_right Nat.one_ne_zero, redundantInt_byte (length_writeBits _ _), hread]
      constructor
      · rintro ⟨b, more, heq, -, hnot⟩
        exact ⟨b, more, heq, hnot⟩
      · rintro ⟨b, more, heq, hnot⟩
        exact ⟨b, more, heq, fun hzero => hsmall.1 hzero.1, hnot⟩
    rw [← byteLen_lt_iff, hone, hpasses]
    exact ⟨fun h ht _ _ _ => h ht, fun h ht => h ht hsmall.1 hsmall.2.1 hsmall.2.2⟩
  · refine iff_of_true (fun h => ?_) fun _ h0 h1 h2 => absurd (byteLen_signed_eq_one_iff.2 ⟨h0, h1, h2⟩) hone
    exact (passes_signed_iff (length_writeBits _ _) hone).2 (shortest_stored h)

theorem signed_roundTrips_iff : RoundTrips (VarInteger.codec ⟨t⟩) t true x.val rest ↔
    (1 < t.n → x.val ≠ 0 → -128 ≤ x.val → x.val < 128 → ∃ b more, rest.bits = b :: more ∧ ¬(x.val = -1 ∧ b = true)) := by
  rw [← followed_iff]
  have hsize : ∀ size ∈ ([] : List (BigInt256 → Nat)), size (some x.val) = (storedBits t true x.val).length := by
    rintro size ⟨⟩
  constructor
  · exact fun h hfits => (readsBack_iff hfits x.fits hsize rest).1 (h.fits hfits)
  · exact fun h => ⟨fun hfits => (readsBack_iff hfits x.fits hsize rest).2 (h hfits), storeIntegerValue_of_not_fits⟩

theorem unsigned_canonical_iff : Canonical (VarUInteger.codec ⟨t⟩) cs ↔ ∀ len bits rest, Encoded t len bits cs rest →
    Shortest false len bits → BigInt.FitsDigits BigInt.maxSize (readBits false bits) := by
  constructor
  · intro h len bits rest hencoded hshort
    exact (Canonical.spec h hencoded ((passes_unsigned_iff hencoded.length).2 hshort)).1
  · intro hheld
    refine canonical_of fun len bits rest hencoded hpass => ?_
    have hshort := (passes_unsigned_iff hencoded.length).1 hpass
    exact ⟨hshort, hheld len bits rest hencoded hshort⟩

theorem fitsDigits_byte {bits : List Bool} (h : bits.length = 8) : BigInt.FitsDigits BigInt.maxSize (bitsToInt bits) := by
  have hfits := fitsBits_bitsToInt bits
  rw [h] at hfits
  obtain ⟨hlow, hhigh⟩ := fitsBits_signed_succ.1 hfits
  have hsmall : (2 : Int) ^ 7 ≤ (BigInt.half - 1) * BigInt.ones BigInt.maxSize := by decide
  have hlarge : -(BigInt.half * BigInt.ones BigInt.maxSize) ≤ -2 ^ 7 := by decide
  exact ⟨hlarge.trans hlow, hhigh.le.trans hsmall⟩

theorem signed_canonical_iff : Canonical (VarInteger.codec ⟨t⟩) cs ↔
    (∀ more refs, ¬Encoded t 1 (List.replicate 8 false) cs ⟨true :: more, refs⟩) ∧
      ∀ len bits rest, Encoded t len bits cs rest → Shortest true len bits →
        BigInt.FitsDigits BigInt.maxSize (readBits true bits) := by
  have hzeros : bitsToInt (List.replicate 8 false) = 0 := rfl
  constructor
  · intro h
    refine ⟨fun more refs hencoded => ?_, fun len bits rest hencoded hshort => ?_⟩
    · -- the one behind it makes the zero pass
      have hpass : Passes VarInteger.redundantInt 1 (List.replicate 8 false) ⟨true :: more, refs⟩ :=
        .inr ((redundantInt_byte rfl).2 ⟨true, more, rfl, by rw [hzeros]; decide, by rw [hzeros]; decide⟩)
      have hln := ln_le (t := t) (by have := hencoded.lt; omega)
      exact shortest_byte_iff.1 (Canonical.shortest h hencoded hpass (show t.ln + 1 * 8 ≤ 1023 by omega)) hzeros
    · by_cases hone : len = 1
      · subst hone
        exact fitsDigits_byte hencoded.length
      · exact (Canonical.spec h hencoded ((passes_signed_iff hencoded.length hone).2 hshort)).1
  · rintro ⟨hnoZero, hheld⟩
    refine canonical_of fun len bits rest hencoded hpass => ?_
    have hshort : Shortest true len bits := by
      by_cases hone : len = 1
      · subst hone
        refine shortest_byte_iff.2 fun hzero => ?_
        obtain ⟨b, more, hrest, hbit, -⟩ := (redundantInt_byte hencoded.length).1 (hpass.resolve_left Nat.one_ne_zero)
        have hbits := writeBits_readBits true bits
        rw [hencoded.length, show readBits true bits = 0 from hzero] at hbits
        cases b with
        | false => exact hbit ⟨hzero, rfl⟩
        | true =>
          have heq : rest = ⟨true :: more, rest.refs⟩ := by rw [← hrest]
          rw [heq, ← hbits] at hencoded
          exact hnoZero more rest.refs hencoded
      · exact (passes_signed_iff hencoded.length hone).1 hpass
    exact ⟨hshort, hheld len bits rest hencoded hshort⟩

/-- The unsigned type is right. The signed one looks at the bit behind a single byte: it refuses the last byte of a slice and
-1 with a one behind it, and accepts a zero with a one behind it. -/
theorem codecs_right_iff (t : ByteLimit) (x : WideInt) (rest cs : Slice) : CodecsRight t x rest cs ↔ Regular t x rest cs := by
  constructor
  · rintro ⟨-, hsigned, hunsignedCanonical, hsignedCanonical⟩
    refine ⟨signed_roundTrips_iff.1 hsigned, (signed_canonical_iff.1 hsignedCanonical).1, fun sgnd => ?_⟩
    cases sgnd with
    | false => exact unsigned_canonical_iff.1 hunsignedCanonical
    | true => exact (signed_canonical_iff.1 hsignedCanonical).2
  · rintro ⟨hfollowed, hnoZero, hheld⟩
    exact ⟨unsigned_roundTrips, signed_roundTrips_iff.2 hfollowed, unsigned_canonical_iff.2 (hheld false),
      signed_canonical_iff.2 ⟨hnoZero, hheld true⟩⟩

end BothTypes

namespace VarIntegerSample

theorem sixteen_le : 16 ≤ 2 ^ 28 := by decide

theorem five_fits : BigInt.FitsDigits BigInt.maxSize 5 := by decide

/-- Five, stored by `VarInteger 16` as the last thing in a slice, is refused. -/
theorem not_codecs_right : ¬CodecsRight ⟨16, sixteen_le⟩ ⟨5, five_fits⟩ ⟨[], []⟩ ⟨[], []⟩ := by
  intro h
  obtain ⟨b, more, hrest, -⟩ := signed_roundTrips_iff.1 h.signed (by decide) (by decide) (by decide) (by decide)
  cases hrest

end VarIntegerSample

end TonWallet.Block
