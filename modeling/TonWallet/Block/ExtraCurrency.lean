/-
Amounts of money: integers of 256 bits and a sign, amounts as the wallet's cells have them (`VarUIntegerPos`), and the
dictionaries of extra currencies, which are added and subtracted by merging them (`block-parse`).
-/
import TonWallet.Vm.DictionaryCombine

namespace TonWallet.Td

open Lib

/-- `td::BigInt256`; `none`: not a number. -/
abbrev BigInt256 := Option Int

namespace BigInt256

/-- A result, which is not a number when it takes more than 256 bits and a sign. -/
def ofInt (x : Int) : BigInt256 := if -2 ^ 256 ≤ x ∧ x < 2 ^ 256 then some x else none

def add (x y : BigInt256) : BigInt256 := do ofInt ((← x) + (← y))
def sub (x y : BigInt256) : BigInt256 := do ofInt ((← x) - (← y))

@[simp] theorem add_some (x y : Int) : add (some x) (some y) = ofInt (x + y) := by
  simp only [add, Option.bind_eq_bind, Option.bind_some]

@[simp] theorem sub_some (x y : Int) : sub (some x) (some y) = ofInt (x - y) := by
  simp only [sub, Option.bind_eq_bind, Option.bind_some]

/-- `bit_size(false)`. -/
def bitSize : BigInt256 → Nat
  | none => 0x7fffffff
  | some x => if x < 0 then 0x7fffffff else bitLength x.toNat

/-- `td::sgn`. -/
def sgn : BigInt256 → Int
  | none => 0
  | some x => x.sign

end BigInt256

end TonWallet.Td

namespace TonWallet.Vm

open Lib TonWallet.Td

/-- `prefetch_ulong`. -/
def Slice.prefetchUlong (s : Slice) (bits : Nat) : Nat :=
  if bits ≤ s.bits.length then bitsToNat (s.bits.take bits) else 2 ^ 64 - 1

/-- `fetch_ulong`, as an `int`. -/
def Slice.fetchUlongInt (s : Slice) (bits : Nat) : Int × Slice :=
  if bits ≤ s.bits.length then (bitsToNat (s.bits.take bits), { s with bits := s.bits.drop bits }) else (-1, s)

/-- `fetch_int256(bits, false)`. -/
def Slice.fetchInt256 (s : Slice) (bits : Nat) : Option BigInt256 :=
  if bits ≤ s.bits.length then some (BigInt256.ofInt (bitsToNat (s.bits.take bits))) else none

/-- `store_long_bool` of a number that is not negative. -/
def CellBuilder.storeLongBool (value bits : Nat) (cb : CellBuilder) : Option CellBuilder :=
  cb.appendSliceBool ⟨natToBits bits value, []⟩

theorem CellBuilder.storeLongBool_ok (value bits : Nat) (cb : CellBuilder) (h : cb.bits.length + bits ≤ maxBits) :
    cb.storeLongBool value bits = some ⟨cb.bits ++ natToBits bits value, cb.refs⟩ :=
  appendSliceBool_ok _ cb (by rwa [length_natToBits])

/-- `store_int256_bool(value, bits, false)`. -/
def CellBuilder.storeInt256Bool (value : BigInt256) (bits : Nat) (cb : CellBuilder) : Option CellBuilder := do
  let x ← value
  if x < 0 ∨ 2 ^ bits ≤ x then none else cb.appendSliceBool ⟨natToBits bits x.toNat, []⟩

end TonWallet.Vm

namespace TonWallet.Block

open Lib TonWallet.Td TonWallet.Vm Vm.Dict Vm.DictionaryBase Vm.CellBuilder

/-! ## Amounts -/

/-- `VarUIntegerPos`. -/
structure VarUIntegerPos where
  n : Nat
  storePosOnly : Bool

namespace VarUIntegerPos

/-- The number of bits of a length. -/
def ln (t : VarUIntegerPos) : Nat := bitLength (t.n - 1)

/-- `as_integer_skip`. -/
def asIntegerSkip (t : VarUIntegerPos) (cs : Slice) : Option BigInt256 :=
  let (len, cs) := cs.fetchUlongInt t.ln
  if 0 < len ∧ len < t.n ∧ cs.prefetchUlong 8 ≠ 0 then cs.fetchInt256 (len.toNat * 8) else none

/-- `store_integer_value`. -/
def storeIntegerValue (t : VarUIntegerPos) (value : BigInt256) (cb : CellBuilder) : Option CellBuilder :=
  let k := value.bitSize
  if k ≤ (t.n - 1) * 8 ∧ t.storePosOnly.toNat ≤ value.sgn then
    (cb.storeLongBool ((k + 7) / 8) t.ln).bind (storeInt256Bool value ((k + 7) / 8 * 8))
  else none

/-- `add_values`. -/
def addValues (t : VarUIntegerPos) (cb : CellBuilder) (cs1 cs2 : Slice) : Option CellBuilder := do
  let x ← t.asIntegerSkip cs1
  let y ← t.asIntegerSkip cs2
  t.storeIntegerValue (x.add y) cb

/-- `sub_values`; `none`: -1, an error; otherwise whether the difference is not zero. -/
def subValues (t : VarUIntegerPos) (cb : CellBuilder) (cs1 cs2 : Slice) : Option (Bool × CellBuilder) := do
  let x ← t.asIntegerSkip cs1
  let y ← t.asIntegerSkip cs2
  let cb ← t.storeIntegerValue (x.sub y) cb
  return ((x.sub y).sgn ≠ 0, cb)

end VarUIntegerPos

def tVarUIntegerPos32 : VarUIntegerPos := ⟨32, true⟩
def tVarUIntegerPosRelaxed32 : VarUIntegerPos := ⟨32, false⟩

variable [Digest]

/-- `HashmapE`: the length of the keys, and the type of the values. -/
structure HashmapE where
  n : Nat
  valueType : VarUIntegerPos
  n_le : n ≤ maxKeyBits

namespace HashmapE

/-- What `add_values` and `add_values_ref` do with two values of a key. -/
def addCombine (vt : VarUIntegerPos) : CombineFunc := fun cb cs1 cs2 _ => match vt.addValues cb cs1 cs2 with
  | none => .error .combineError
  | some cb => .ok (some cb)

/-- What `sub_values` and `sub_values_ref` do with two values of a key. -/
def subCombine (vt : VarUIntegerPos) : CombineFunc := fun cb cs1 cs2 _ => match vt.subValues cb cs1 cs2 with
  | none => .error .combineError
  | some (r, cb) => .ok (if r then some cb else none)

/-- `combine_with` of two roots; `none`: it returned false. -/
def combineRoots (t : HashmapE) (combine : CombineFunc) (mode : Nat) (arg1 arg2 : Option Cell) :
    Result (Option (Option Cell)) :=
  match run (combineWith Dictionary.forkOps ⟨t.n, arg2, t.n_le⟩ combine mode) ⟨t.n, arg1, t.n_le⟩ with
  | (.ok true, dict1) => .ok (some dict1.rootCell)
  | (.ok false, _) => .ok none
  | (.error e, _) => .error e

/-- `add_values_ref`; `none`: it returned false. -/
def addValuesRef (t : HashmapE) (arg1 arg2 : Option Cell) : Result (Option (Option Cell)) :=
  t.combineRoots (addCombine t.valueType) 0 arg1 arg2

/-- `sub_values_ref`: whether something is left, or -1; and what is left. -/
def subValuesRef (t : HashmapE) (arg1 arg2 : Option Cell) : Result (Int × Option Cell) := do
  match ← t.combineRoots (subCombine t.valueType) 1 arg1 arg2 with
  | some res => return (if res.isSome then 1 else 0, res)
  | none => return (-1, none)

end HashmapE

namespace ExtraCurrencyCollection

def dictType : HashmapE := ⟨32, tVarUIntegerPos32, by decide⟩
def dictType2 : HashmapE := ⟨32, tVarUIntegerPosRelaxed32, by decide⟩

def addValuesRef (arg1 arg2 : Option Cell) : Result (Option (Option Cell)) := dictType.addValuesRef arg1 arg2
def subValuesRef (arg1 arg2 : Option Cell) : Result (Int × Option Cell) := dictType2.subValuesRef arg1 arg2

end ExtraCurrencyCollection

/-- `add_extra_currency`; `none`: it returned false. -/
def addExtraCurrency (extra1 extra2 : Option Cell) : Result (Option (Option Cell)) :=
  if extra2.isNone then .ok (some extra1)
  else if extra1.isNone then .ok (some extra2)
  else ExtraCurrencyCollection.addValuesRef extra1 extra2

/-- `sub_extra_currency`; `none`: it returned false. -/
def subExtraCurrency (extra1 extra2 : Option Cell) : Result (Option (Option Cell)) :=
  if extra2.isNone then .ok (some extra1)
  else if extra1.isNone then .ok none
  else do
    let (r, res) ← ExtraCurrencyCollection.subValuesRef extra1 extra2
    return if r ≥ 0 then some res else none

/-- `CurrencyCollection`. -/
structure CurrencyCollection where
  grams : Option BigInt256
  extra : Option Cell

namespace CurrencyCollection

def isValid (c : CurrencyCollection) : Bool := c.grams.isSome

/-- What `invalidate` leaves. -/
def invalid : CurrencyCollection := ⟨none, none⟩

/-- What is left in `c` when the grams are computed, by whether the extra currencies are. -/
def ofExtra (grams : BigInt256) : Option (Option Cell) → CurrencyCollection
  | some extra => ⟨some grams, extra⟩
  | none => invalid

/-- `add`: `c` after it, which is valid when `add` returned true. -/
def add (a b : CurrencyCollection) : Result CurrencyCollection := match a.grams, b.grams with
  | some x, some y =>
    if (x.add y).isSome then do return ofExtra (x.add y) (← addExtraCurrency a.extra b.extra)
    else .ok invalid
  | _, _ => .ok invalid

/-- `sub`: `c` after it, which is valid when `sub` returned true. -/
def sub (a b : CurrencyCollection) : Result CurrencyCollection := match a.grams, b.grams with
  | some x, some y =>
    if (x.sub y).isSome ∧ (x.sub y).sgn ≥ 0 then do return ofExtra (x.sub y) (← subExtraCurrency a.extra b.extra)
    else .ok invalid
  | _, _ => .ok invalid

end CurrencyCollection

end TonWallet.Block
