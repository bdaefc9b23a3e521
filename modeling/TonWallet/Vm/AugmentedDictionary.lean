/-
Augmented dictionaries (`vm/dict`, `AugmentedDictionary`): every leaf stores an extra computed from its value, every
fork one computed from those of its branches, and the root's is the sum of them all.
-/
import TonWallet.Vm.Dictionary

namespace TonWallet.Vm

open Lib TonWallet.Td CellBuilder Dict DictionaryBase

namespace Slice

/-- `cut_tail`: what is in front of a tail. -/
def cutTail (s tail : Slice) : Option Slice :=
  if tail.bits.length ≤ s.bits.length ∧ tail.refs.length ≤ s.refs.length then
    some ⟨s.bits.take (s.bits.length - tail.bits.length), s.refs.take (s.refs.length - tail.refs.length)⟩
  else none

theorem cutTail_append (s tail : Slice) : (s.append tail).cutTail tail = some s := by
  simp [cutTail, append]

/-- `contents_equal`: references are compared by their hashes. -/
def contentsEqual [Digest] (s t : Slice) : Bool :=
  s.bits == t.bits && s.refs.map (·.getHash maxLevel) == t.refs.map (·.getHash maxLevel)

theorem contentsEqual_self [Digest] (s : Slice) : s.contentsEqual s = true := by
  simp [contentsEqual]

end Slice

/-- `AugmentationData`: the extra of a value, that of a fork from those of its branches, that of the empty dictionary,
and what is left of a slice after an extra. -/
structure AugmentationData where
  skipExtra : Slice → Option Slice
  evalLeaf : Slice → Option Slice
  evalFork : Slice → Slice → Option Slice
  evalEmpty : Option Slice
  skip_evalLeaf : ∀ {v e : Slice}, evalLeaf v = some e → ∀ rest, skipExtra (e.append rest) = some rest
  skip_evalFork : ∀ {e₁ e₂ e : Slice}, evalFork e₁ e₂ = some e → ∀ rest, skipExtra (e.append rest) = some rest

namespace AugmentationData

/-- `extract_extra`. -/
def extractExtra (aug : AugmentationData) (s : Slice) : Option Slice := (aug.skipExtra s).bind s.cutTail

theorem extractExtra_append {aug : AugmentationData} {e rest : Slice} (h : aug.skipExtra (e.append rest) = some rest) :
    aug.extractExtra (e.append rest) = some e := by
  rw [extractExtra, h]
  exact Slice.cutTail_append e rest

/-- A computed extra stored in a new builder. -/
def computed (extra : Option Slice) : Option Slice :=
  (extra.bind fun e => appendSliceBool e {}).map fun cb => ⟨cb.bits, cb.refs⟩

variable [Digest]

/-- `check_leaf` of an extra and a value. -/
def checkLeaf (aug : AugmentationData) (extra value : Slice) : Bool := match computed (aug.evalLeaf value) with
  | some e => e.contentsEqual extra
  | none => false

/-- `check_fork` of an extra and those of the branches. -/
def checkFork (aug : AugmentationData) (extra left right : Slice) : Bool := match computed (aug.evalFork left right) with
  | some e => e.contentsEqual extra
  | none => false

end AugmentationData

namespace AugmentedDictionary

variable (aug : AugmentationData)

/-- `extract_value`: what is behind the extra. -/
def extractValue (valueExtra : Option Slice) : Option Slice := valueExtra.bind aug.skipExtra

variable [Digest]

/-- `get_node_extra`; `none`: no extra can be extracted. -/
def getNodeExtra (cell : Option Cell) (n : Nat) : Result (Option Slice) :=
  match cell with
  | none => match aug.evalEmpty.bind fun e => appendSliceBool e {} with
    | none => .ok none
    | some cb => do
      let _ ← cb.finalize
      return some ⟨cb.bits, cb.refs⟩
  | some cell => do
    let label ← LabelParser.ofCell (some cell) n .chkSize
    let rest := label.payload
    if label.lBits = n then return aug.extractExtra rest
    else if 2 ≤ rest.refs.length then
      let extra : Slice := ⟨rest.bits, rest.refs.drop 2⟩
      match aug.skipExtra extra with
      | some tail => return if tail.bits.isEmpty && tail.refs.isEmpty then some extra else none
      | none => return none
    else return none

/-- `finish_create_leaf`. -/
def finishCreateLeaf (value : Slice) (cb : CellBuilder) : Result Cell :=
  match (aug.evalLeaf value).bind fun e => cb.appendSliceBool e with
  | none => .error (.vmError "cannot compute and store extra value into an augmented dictionary cell")
  | some cb => match cb.appendSliceBool value with
    | none => .error (.vmError "cannot store new value into an augmented dictionary cell")
    | some cb => cb.finalize

/-- `finish_create_fork`. -/
def finishCreateFork (cb : CellBuilder) (c1 c2 : Option Cell) (n : Nat) : Result Cell :=
  match (cb.storeRefBool c1).bind (storeRefBool c2) with
  | none => .error (.vmError "cannot store branch references into an augmented dictionary cell")
  | some cb => do
    let extra1 ← getNodeExtra aug c1 (n - 1)
    let extra2 ← getNodeExtra aug c2 (n - 1)
    match extra1, extra2 with
    | none, _ | _, none =>
      .error (.vmError "cannot extract extra value from left branch of an augmented dictionary fork node")
    | some e1, some e2 => match (aug.evalFork e1 e2).bind fun e => cb.appendSliceBool e with
      | none => .error (.vmError "cannot compute extra value for an augmented dictionary fork node")
      | some cb => cb.finalize

/-- What an augmented dictionary overrides. -/
def forkOps : ForkOps := ⟨.chkSize, finishCreateFork aug⟩

/-- How `dict_set` finishes its cells. -/
def setOps (value : Slice) : SetOps where
  toForkOps := forkOps aug
  finishLeaf := finishCreateLeaf aug value
  changeLabel := "cannot change label of an old augmented dictionary cell (?)"

/-- `dict_set`: the changed dictionary, unless nothing changed. -/
def dictSet (dict : Option Cell) (key : List Bool) (value : Slice) (mode : SetMode) : Result (Option Cell) := do
  return (← dictSetWith (setOps aug value) dict key mode).dict

/-! ## Methods -/

/-- `set`. -/
def set (key : List Bool) (value : Slice) (mode : SetMode) : Method Bool :=
  setBy key fun dict => dictSet aug dict key value mode

/-- The slice of a new cell (`load_cell_slice(cb.finalize())`). -/
def loaded (cb : CellBuilder) : Result Slice := do
  let cell ← cb.finalize
  let cs ← loadCellSlice ⟨cell, .none⟩
  return ⟨cs.bits, cs.refs⟩

/-- `set_ref`: the mode is not handed on. -/
def setRef (key : List Bool) (valueRef : Option Cell) (_mode : SetMode) : Method Bool :=
  match valueRef with
  | none => return false
  | some _ => do
    let value ← call (storeRef valueRef {} >>= loaded)
    set aug key value .set

/-- `set_builder`: the mode is not handed on. -/
def setBuilder (key : List Bool) (value : CellBuilder) (_mode : SetMode) : Method Bool := do
  let value ← call (loaded value)
  set aug key value .set

/-- `lookup`. -/
def lookup (key : List Bool) : Method (Option Slice) := do
  return extractValue aug (← DictionaryBase.lookup (forkOps aug).labelMode key)

/-- `lookup_delete`. -/
def lookupDelete (key : List Bool) : Method (Option Slice) := do
  return extractValue aug (← DictionaryBase.lookupDelete (forkOps aug) key)

/-- `get_root_extra`. -/
def getRootExtra : Method (Option Slice) := do
  let d ← get
  call (getNodeExtra aug d.rootCell d.keyBits)

/-! ## Validation -/

/-- `check_leaf`. -/
def checkLeaf (cs : Slice) : Bool := match aug.skipExtra cs, aug.extractExtra cs with
  | some value, some extra => aug.checkLeaf extra value
  | _, _ => false

/-- `check_fork`. -/
def checkFork (cs : Slice) (c1 c2 : Option Cell) (n : Nat) : Result Bool := do
  let extra1 ← getNodeExtra aug c1 (n - 1)
  let extra2 ← getNodeExtra aug c2 (n - 1)
  match extra1, extra2 with
  | some e1, some e2 => return aug.checkFork cs e1 e2
  | _, _ => return false

/-- `dict_validate_check`, with nothing asked of the values. -/
def dictValidateCheck (dict : Option Cell) (n : Nat) : Result Bool :=
  match dict with
  | none => .ok true
  | some cell => do
    let label ← LabelParser.ofCell (some cell) n (forkOps aug).labelMode
    let cs := label.payload
    if _hn : label.lBits < n then
      let c1 := cs.refs[0]?
      let c2 := cs.refs[1]?
      let m := n - label.lBits - 1
      if ← checkFork aug ⟨cs.bits, cs.refs.drop 2⟩ c1 c2 (m + 1) then
        if ← dictValidateCheck c1 m then dictValidateCheck c2 m else return false
      else return false
    else return checkLeaf aug cs
termination_by n

/-- `validate_all` of a valid dictionary. -/
def validateAll : Method Bool := do
  let d ← get
  call (dictValidateCheck aug d.rootCell d.keyBits)

end AugmentedDictionary

end TonWallet.Vm
