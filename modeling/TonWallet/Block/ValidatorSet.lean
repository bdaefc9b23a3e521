/-
Validator sets (`block/mc-config`): `Config::unpack_validator_set` reads the validators of a configuration parameter
out of their dictionary. In what it accepts every weight is positive and the sum of all weights fits 64 bits.
-/
import TonWallet.Block.CheckProof
import TonWallet.Block.Message
import TonWallet.Vm.Dict.Lookup

namespace TonWallet.Block

open Lib TonWallet.Td TonWallet.Ton TonWallet.Vm TonWallet.Vm.Fetch

/-! ## The records -/

/-- `HmLabel::skip`, with the length of the label. -/
def skipLabel (n : Nat) : Fetch Nat := fun cs => do
  let p ← Dict.LabelParser.parse ⟨cs.bits, cs.refs⟩ n
  let ((), cs) ← advance p.sBits { cs with bits := p.remainder.bits }
  return (p.lBits, cs)

/-- `Hashmap::skip`. -/
def skipHashmap (n : Nat) (skipValue : Fetch Unit) : Fetch Unit := do
  let l ← skipLabel n
  guard (l ≤ n)
  if n - l = 0 then skipValue else advanceExt 0 2

/-- `ValidatorDescr::skip`. -/
def skipValidatorDescr : Fetch Unit := do
  let tag ← bselect 3 12
  if tag = 0 then advance 360 else advance 616

/-- `gen::ValidatorSet::Record_validators` and `Record_validators_ext`. -/
structure ValidatorsRecord where
  utimeSince : Nat
  utimeUntil : Nat
  total : Nat
  main : Nat
  totalWeight : UInt64
  list : CellSlice

/-- `ValidatorSet::unpack` of the constructor `validators`. -/
def unpackValidators : Fetch ValidatorsRecord := do
  fetchTag 8 17
  let utimeSince ← fetchUint 32
  let utimeUntil ← fetchUint 32
  let total ← fetchUint 16
  let main ← fetchUint 16
  guard (main ≤ total)
  guard (1 ≤ main)
  let list ← fetchTo (skipHashmap 16 skipValidatorDescr)
  return { utimeSince, utimeUntil, total, main, totalWeight := 0, list }

/-- `ValidatorSet::unpack` of the constructor `validators_ext`. -/
def unpackValidatorsExt : Fetch ValidatorsRecord := do
  fetchTag 8 18
  let utimeSince ← fetchUint 32
  let utimeUntil ← fetchUint 32
  let total ← fetchUint 16
  let main ← fetchUint 16
  guard (main ≤ total)
  guard (1 ≤ main)
  let totalWeight ← fetchUint 64
  let list ← fetchTo skipHashmapE
  return { utimeSince, utimeUntil, total, main, totalWeight := UInt64.ofNat totalWeight, list }

/-- `gen::ValidatorDescr::Record_validator_addr`. -/
structure ValidatorRecord where
  publicKey : CellSlice
  weight : UInt64
  adnlAddr : Bits256

/-- `ValidatorDescr::unpack` of the constructor `validator_addr`. -/
def unpackValidatorAddr : Fetch ValidatorRecord := do
  fetchTag 8 0x73
  let publicKey ← fetchSubslice 288
  let weight ← fetchUint 64
  let adnlAddr ← fetchHash
  return { publicKey, weight := UInt64.ofNat weight, adnlAddr }

/-- `ValidatorDescr::unpack_validator`, with a zero address. -/
def unpackValidator : Fetch ValidatorRecord := do
  fetchTag 8 0x53
  let publicKey ← fetchSubslice 288
  let weight ← fetchUint 64
  return { publicKey, weight := UInt64.ofNat weight, adnlAddr := 0 }

/-- `SigPubKey::unpack`. -/
def unpackSigPubKey : Fetch Bits256 := do
  fetchTag 32 0x8e81278a
  fetchHash

/-! ## The set -/

/-- `block::ValidatorDescr`. -/
structure WeightedDescr where
  pubkey : Bits256
  weight : UInt64
  cumWeight : UInt64
  adnlAddr : Bits256
deriving DecidableEq

/-- `block::ValidatorSet`. -/
structure ValidatorSet where
  utimeSince : Nat
  utimeUntil : Nat
  total : Nat
  main : Nat
  totalWeight : UInt64 := 0
  list : List WeightedDescr := []
deriving DecidableEq

namespace ValidatorSet

/-- `export_validator_set`. -/
def exportValidatorSet (vset : ValidatorSet) : List ValidatorDescr :=
  vset.list.map fun node => ⟨node.pubkey, node.weight, node.adnlAddr⟩

end ValidatorSet

variable [Digest]

/-- `dict_lookup_minmax` for the largest key: behind each label the right branch. -/
def dictLookupMax (cell : Option Cell) (n : Nat) : Result (List Bool) := do
  let label ← Dict.LabelParser.ofCell cell n .chkAll
  if n - label.lBits = 0 then return label.bits
  else
    let key ← dictLookupMax label.remainder.refs[1]? (n - label.lBits - 1)
    return label.bits ++ [true] ++ key
termination_by n
decreasing_by omega

/-- `Dictionary::lookup`. -/
def lookupIn (root : Option Cell) (key : List Bool) : Result (Option Slice) :=
  if root.isNone then .ok none else Dict.dictLookup .chkAll root key

/-- A slice of a value in a dictionary. -/
def valueSlice (value : Slice) : CellSlice := ⟨.none, .mk false value.bits value.refs, value.bits, value.refs⟩

/-- The record of a validator, with an address or without. -/
def readValidator (i : Nat) (value : Slice) : Result ValidatorRecord :=
  match unpackExact unpackValidatorAddr (valueSlice value) with
  | some descr => .ok descr
  | none => match unpackExact unpackValidator (valueSlice value) with
    | some descr => .ok descr
    | none => fail ("validator #" ++ toString i ++
        " has an invalid ValidatorDescr record in the validator set dictionary")

/-- One turn of the loop. -/
def addValidator (root : Option Cell) (i : Nat) (vset : ValidatorSet) : Result ValidatorSet := do
  let value ← orFail (lookupIn root (natToBits 16 i)) "indices in a validator set dictionary must be integers 0..total-1"
  let descr ← readValidator i value
  let pubkey ← orFail (.ok (unpackExact unpackSigPubKey descr.publicKey))
    ("validator #" ++ toString i ++ " has no public key or its public key is in unsupported format")
  failIf (descr.weight = 0) ("validator #" ++ toString i ++ " has zero weight")
  failIf (descr.weight > ~~~vset.totalWeight) "total weight of all validators in validator set exceeds 2^64"
  return { vset with
    list := vset.list ++ [⟨pubkey, descr.weight, vset.totalWeight, descr.adnlAddr⟩]
    totalWeight := vset.totalWeight + descr.weight }

omit [Digest] in
/-- A validator that is added has a weight, and with it the sum of the weights does not wrap. -/
theorem addValidator_ok {root : Option Cell} {i : Nat} {vset vset' : ValidatorSet} (hadd : addValidator root i vset = .ok vset') :
    ∃ (descr : ValidatorRecord) (pubkey : Bits256), 0 < descr.weight.toNat ∧
      vset.totalWeight.toNat + descr.weight.toNat < 2 ^ 64 ∧
      vset' = { vset with
        list := vset.list ++ [⟨pubkey, descr.weight, vset.totalWeight, descr.adnlAddr⟩]
        totalWeight := vset.totalWeight + descr.weight } := by
  obtain ⟨value, -, hadd⟩ := bind_ok hadd
  obtain ⟨descr, -, hadd⟩ := bind_ok hadd
  obtain ⟨pubkey, -, hadd⟩ := bind_ok hadd
  obtain ⟨_, hzero, hadd⟩ := bind_ok hadd
  obtain ⟨_, hfits, hadd⟩ := bind_ok hadd
  cases hadd
  rw [failIf_ok_iff] at hzero hfits
  refine ⟨descr, pubkey, Nat.pos_of_ne_zero fun h0 => hzero (UInt64.toNat_inj.1 ?_), ?_, rfl⟩
  · rw [h0]
    rfl
  · have hlt := vset.totalWeight.toNat_lt
    rw [gt_iff_lt, UInt64.lt_iff_toNat_lt, not_lt] at hfits
    have hnot : (~~~vset.totalWeight).toNat = 2 ^ 64 - 1 - vset.totalWeight.toNat := by simp
    omega

/-- The loop over the indices, with so many turns to go. -/
def addValidators (root : Option Cell) : Nat → Nat → ValidatorSet → Result ValidatorSet
  | 0, _, vset => .ok vset
  | n + 1, i, vset => do addValidators root n (i + 1) (← addValidator root i vset)

/-- The record of the set, and the root of the dictionary. -/
def readValidatorSet (vsetRoot : Cell) : Result (ValidatorsRecord × Option Cell) := do
  match ← unpackCell unpackValidatorsExt ⟨vsetRoot, .none⟩ with
    | some rec =>
      failIf (rec.totalWeight = 0) "validator set cannot have zero total weight"
      return (rec, rec.list.refs.head?)
    | none =>
      let rec0 ← orFail (unpackCell unpackValidators ⟨vsetRoot, .none⟩) "validator set is invalid"
      let root ← CellBuilder.finalize ⟨rec0.list.bits, rec0.list.refs⟩
      return (rec0, some root)

/-- `Config::unpack_validator_set`. -/
def unpackValidatorSet (vsetRoot : Option Cell) : Result ValidatorSet := do
  let vsetRoot ← orFail (.ok vsetRoot) "validator set is absent"
  let (rec, root) ← readValidatorSet vsetRoot
  let wrong := "maximal index in a validator set dictionary must be one less than the total number of validators"
  failIf root.isNone wrong
  let last ← dictLookupMax root 16
  failIf ((bitsToNat last : Int) ≠ rec.total - 1) wrong
  let vset ← addValidators root rec.total 0
    { utimeSince := rec.utimeSince, utimeUntil := rec.utimeUntil, total := rec.total, main := rec.main }
  failIf (rec.totalWeight ≠ 0 ∧ rec.totalWeight ≠ vset.totalWeight) "validator set declares incorrect total weight"
  return vset

end TonWallet.Block
