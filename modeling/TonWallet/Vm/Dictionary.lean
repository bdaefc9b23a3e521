/-
Dictionaries of fixed key length (`vm/dict`): `Dictionary`, a map from keys of so many bits to the values that its
tree of cells has at the leaves. An operation changes nothing but the root cell, and only when it has not thrown.
-/
import TonWallet.Vm.Dict.Filter

namespace TonWallet.Vm

open Lib TonWallet.Td CellBuilder Dict

def maxKeyBits : Nat := 1023

/-- `DictionaryBase`, validated: the length of the keys and the root cell. -/
structure DictionaryBase where
  keyBits : Nat
  rootCell : Option Cell
  keyBits_le : keyBits ≤ maxKeyBits

namespace DictionaryBase

/-- `set_root_cell`. -/
def setRootCell (d : DictionaryBase) (cell : Option Cell) : DictionaryBase := { d with rootCell := cell }

@[simp] theorem keyBits_setRootCell (d : DictionaryBase) (cell : Option Cell) : (d.setRootCell cell).keyBits = d.keyBits := rfl
@[simp] theorem rootCell_setRootCell (d : DictionaryBase) (cell : Option Cell) : (d.setRootCell cell).rootCell = cell := rfl

/-- A method of a dictionary: it may throw, after it has changed the dictionary or before. -/
abbrev Method (α : Type) := ExceptT Fail (StateM DictionaryBase) α

/-- A call that does not touch the dictionary. -/
def call {α : Type} (r : Result α) : Method α := ExceptT.mk (pure r)

/-- What a method returns or throws, and the dictionary after it. -/
def run {α : Type} (m : Method α) (d : DictionaryBase) : Result α × DictionaryBase := StateT.run (ExceptT.run m) d

@[simp] theorem run_pure {α : Type} (a : α) (d : DictionaryBase) : run (pure a) d = (.ok a, d) := rfl
@[simp] theorem run_get (d : DictionaryBase) : run get d = (.ok d, d) := rfl
@[simp] theorem run_set (d d' : DictionaryBase) : run (set d') d = (.ok (), d') := rfl
@[simp] theorem run_call {α : Type} (r : Result α) (d : DictionaryBase) : run (call r) d = (r, d) := rfl

@[simp] theorem run_bind {α β : Type} (m : Method α) (f : α → Method β) (d : DictionaryBase) :
    run (m >>= f) d = match run m d with
      | (.ok a, d) => run (f a) d
      | (.error e, d) => (.error e, d) := by
  unfold run
  rw [ExceptT.run_bind, StateT.run_bind]
  rcases StateT.run (ExceptT.run m) d with ⟨_ | _, _⟩ <;> rfl

/-- `lookup`. -/
def lookup (mode : LabelMode) (key : List Bool) : Method (Option Slice) := do
  let d ← get
  if key.length ≠ d.keyBits ∨ d.rootCell.isNone then return none
  else call (dictLookup mode d.rootCell key)

theorem run_lookup (mode : LabelMode) (key : List Bool) (d : DictionaryBase) :
    run (lookup mode key) d = if key.length ≠ d.keyBits ∨ d.rootCell.isNone then (.ok none, d)
      else (dictLookup mode d.rootCell key, d) := by
  unfold lookup
  rw [run_bind, run_get]
  by_cases h : key.length ≠ d.keyBits ∨ d.rootCell.isNone
  · simp only [if_pos h, run_pure]
  · simp only [if_neg h, run_call]

/-- The methods that set a value: a key of another length is refused. -/
def setBy (key : List Bool) (dictSet : Option Cell → Result (Option Cell)) : Method Bool := do
  let d ← get
  if key.length ≠ d.keyBits then return false
  else
    let res ← call (dictSet d.rootCell)
    if res.isSome then set (d.setRootCell res)
    return res.isSome

theorem run_setBy (key : List Bool) (dictSet : Option Cell → Result (Option Cell)) (d : DictionaryBase) :
    run (setBy key dictSet) d = if key.length ≠ d.keyBits then (.ok false, d)
      else match dictSet d.rootCell with
        | .error e => (.error e, d)
        | .ok res => (.ok res.isSome, if res.isSome then d.setRootCell res else d) := by
  unfold setBy
  rw [run_bind, run_get]
  by_cases hkey : key.length ≠ d.keyBits
  · simp only [if_pos hkey, run_pure]
  · simp only [if_neg hkey, run_bind, run_call]
    rcases dictSet d.rootCell with _ | _ | _ <;> rfl

variable [Digest]

/-- `lookup_delete`. -/
def lookupDelete (ops : ForkOps) (key : List Bool) : Method (Option Slice) := do
  let d ← get
  if key.length ≠ d.keyBits then return none
  else
    let (oldVal, cell) ← call (dictLookupDelete ops d.rootCell key)
    if oldVal.isSome then set (d.setRootCell cell)
    return oldVal

theorem run_lookupDelete (ops : ForkOps) (key : List Bool) (d : DictionaryBase) :
    run (lookupDelete ops key) d = if key.length ≠ d.keyBits then (.ok none, d)
      else match dictLookupDelete ops d.rootCell key with
        | .error e => (.error e, d)
        | .ok (oldVal, cell) => (.ok oldVal, if oldVal.isSome then d.setRootCell cell else d) := by
  unfold lookupDelete
  rw [run_bind, run_get]
  by_cases hkey : key.length ≠ d.keyBits
  · simp only [if_pos hkey, run_pure]
  · simp only [if_neg hkey, run_bind, run_call]
    rcases dictLookupDelete ops d.rootCell key with _ | ⟨_ | _, _⟩ <;> rfl

/-- `filter`. -/
def filter (ops : ForkOps) (checkLeaf : List Bool → Slice → Int) : Method Int := do
  let d ← get
  let (res, _) ← call (dictFilter ops checkLeaf d.rootCell [] d.keyBits none)
  if 0 < res.changes then set (d.setRootCell res.dict)
  return res.changes

theorem run_filter (ops : ForkOps) (checkLeaf : List Bool → Slice → Int) (d : DictionaryBase) :
    run (filter ops checkLeaf) d = match dictFilter ops checkLeaf d.rootCell [] d.keyBits none with
      | .error e => (.error e, d)
      | .ok (res, _) => (.ok res.changes, if 0 < res.changes then d.setRootCell res.dict else d) := by
  unfold filter
  rw [run_bind, run_get]
  simp only [run_bind, run_call]
  cases dictFilter ops checkLeaf d.rootCell [] d.keyBits none with
  | error e => rfl
  | ok r =>
    obtain ⟨res, skip⟩ := r
    by_cases h : 0 < res.changes
    · simp only [if_pos h, run_bind, run_set, run_pure]
    · simp only [if_neg h, run_pure]

end DictionaryBase

namespace Dictionary

open DictionaryBase

variable [Digest]

/-- `finish_create_fork`. -/
def finishCreateFork (cb : CellBuilder) (c1 c2 : Option Cell) (_n : Nat) : Result Cell :=
  match (cb.storeRefBool c1).bind (storeRefBool c2) with
  | some cb => cb.finalize
  | none => .error (.vmError "cannot store branch references into a dictionary fork cell")

/-- What a dictionary overrides: nothing stands behind the branches of a fork. -/
def forkOps : ForkOps := ⟨.chkAll, finishCreateFork⟩

/-- How `dict_set` and `dict_lookup_set` finish their cells. -/
def setOps (storeVal : CellBuilder → Option CellBuilder) : SetOps where
  labelMode := .chkAll
  finishLeaf cb := match storeVal cb with
    | some cb => cb.finalize
    | none => .error (.vmError "cannot store new value into a dictionary cell")
  finishFork cb c1 c2 _ := cb.storeRef c1 >>= storeRef c2 >>= fun cb => cb.finalize
  changeLabel := "cannot change label of an old dictionary cell (?)"

/-- `dict_set`: the changed dictionary, unless nothing changed. -/
def dictSet (storeVal : CellBuilder → Option CellBuilder) (dict : Option Cell) (key : List Bool) (mode : SetMode) :
    Result (Option Cell) := do return (← dictSetWith (setOps storeVal) dict key mode).dict

/-- `dict_lookup_set`. -/
def dictLookupSet (storeVal : CellBuilder → Option CellBuilder) (dict : Option Cell) (key : List Bool) (mode : SetMode) :
    Result SetResult := dictSetWith (setOps storeVal) dict key mode

/-- `set_gen`. -/
def setGen (key : List Bool) (storeVal : CellBuilder → Option CellBuilder) (mode : SetMode) : Method Bool :=
  setBy key fun dict => dictSet storeVal dict key mode

/-- `set`. -/
def set (key : List Bool) (value : Slice) (mode : SetMode) : Method Bool := setGen key (appendSliceBool value) mode

/-- `set_ref`. -/
def setRef (key : List Bool) (value : Option Cell) (mode : SetMode) : Method Bool := setGen key (storeRefBool value) mode

/-- `lookup_set_gen`. -/
def lookupSetGen (key : List Bool) (storeVal : CellBuilder → Option CellBuilder) (mode : SetMode) :
    Method (Option Slice) := do
  let d ← get
  if key.length ≠ d.keyBits then return none
  else
    let res ← call (dictLookupSet storeVal d.rootCell key mode)
    if res.dict.isSome then MonadStateOf.set (d.setRootCell res.dict)
    return res.oldVal

/-- `lookup_set`. -/
def lookupSet (key : List Bool) (value : Slice) (mode : SetMode) : Method (Option Slice) :=
  lookupSetGen key (appendSliceBool value) mode

theorem run_setGen (key : List Bool) (storeVal : CellBuilder → Option CellBuilder) (mode : SetMode)
    (d : DictionaryBase) :
    run (setGen key storeVal mode) d = if key.length ≠ d.keyBits then (.ok false, d)
      else match dictSetWith (setOps storeVal) d.rootCell key mode with
        | .error e => (.error e, d)
        | .ok res => (.ok res.dict.isSome, if res.dict.isSome then d.setRootCell res.dict else d) := by
  rw [setGen, run_setBy, dictSet]
  rcases dictSetWith (setOps storeVal) d.rootCell key mode with _ | ⟨_, _ | _⟩ <;> rfl

theorem run_lookupSetGen (key : List Bool) (storeVal : CellBuilder → Option CellBuilder) (mode : SetMode)
    (d : DictionaryBase) :
    run (lookupSetGen key storeVal mode) d = if key.length ≠ d.keyBits then (.ok none, d)
      else match dictSetWith (setOps storeVal) d.rootCell key mode with
        | .error e => (.error e, d)
        | .ok res => (.ok res.oldVal, if res.dict.isSome then d.setRootCell res.dict else d) := by
  unfold lookupSetGen dictLookupSet
  rw [run_bind, run_get]
  by_cases hkey : key.length ≠ d.keyBits
  · simp only [if_pos hkey, run_pure]
  · simp only [if_neg hkey, run_bind, run_call]
    rcases dictSetWith (setOps storeVal) d.rootCell key mode with _ | ⟨_, _ | _⟩ <;> rfl

end Dictionary

end TonWallet.Vm
