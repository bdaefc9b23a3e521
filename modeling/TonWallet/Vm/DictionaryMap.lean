/-
What a dictionary is for: it is a finite map. The tree of a dictionary is the only one with the map's keys and
values, so the map alone decides the root cell, and every operation does to the root what it does to the map.
-/
import TonWallet.Lib.Run
import TonWallet.Vm.Dict.Fits
import TonWallet.Vm.Dictionary

namespace TonWallet.Vm

open Lib TonWallet.Td CellBuilder Dict DictionaryBase

/-! ## Maps -/

/-- A map from keys to values. -/
abbrev KeyMap (α : Type) := List Bool → Option α

namespace KeyMap

variable {α : Type}

def empty : KeyMap α := fun _ => none

/-- Set the value of a key, where the mode allows it. -/
def set (m : KeyMap α) (key : List Bool) (v : α) (mode : SetMode) : KeyMap α :=
  if mode.allows (m key).isSome then Function.update m key (some v) else m

def delete (m : KeyMap α) (key : List Bool) : KeyMap α := Function.update m key none

/-- A filter of the entries: its error, and nothing is dropped, or a number that is zero when nothing is. -/
def Filters (check : List Bool → α → Verdict Int) (m : KeyMap α) (res : Int) (m' : KeyMap α) : Prop :=
  ∃ es, EntriesOf m es ∧ match filterEntries check none es with
    | .error e => res = e ∧ e < 0 ∧ m' = m
    | .ok (kept, _) => 0 ≤ res ∧ (res = 0 ↔ kept = es) ∧ EntriesOf m' kept

end KeyMap

namespace Dictionary

/-! ## Operations -/

inductive Op
  | set (key : List Bool) (value : Slice) (mode : SetMode)
  | lookupSet (key : List Bool) (value : Slice) (mode : SetMode)
  | lookupDelete (key : List Bool)
  | lookup (key : List Bool)

inductive Reply
  | flag (b : Bool)
  | value (v : Option Slice)

/-- What the operations on keys of length `n` do to a map, and their replies. -/
def Op.onMap (n : Nat) : Op → KeyMap Slice → Reply × KeyMap Slice
  | .set key v mode, m =>
    if key.length = n then (.flag (mode.allows (m key).isSome), m.set key v mode) else (.flag false, m)
  | .lookupSet key v mode, m => if key.length = n then (.value (m key), m.set key v mode) else (.value none, m)
  | .lookupDelete key, m => if key.length = n then (.value (m key), m.delete key) else (.value none, m)
  | .lookup key, m => (.value (m key), m)

/-- An operation with its reply on a map: one that throws does nothing. -/
def MapStep (n : Nat) (m : KeyMap Slice) (e : Op × Result Reply) (m' : KeyMap Slice) : Prop := match e.2 with
  | .ok reply => e.1.onMap n m = (reply, m')
  | .error _ => m' = m

variable [Digest]

/-- The operations of a dictionary. -/
def Op.method : Op → Method Reply
  | .set key v mode => return .flag (← Dictionary.set key v mode)
  | .lookupSet key v mode => return .value (← Dictionary.lookupSet key v mode)
  | .lookupDelete key => return .value (← DictionaryBase.lookupDelete forkOps key)
  | .lookup key => return .value (← DictionaryBase.lookup forkOps.labelMode key)

/-- An operation with its reply on a dictionary. -/
def Step (d : DictionaryBase) (e : Op × Result Reply) (d' : DictionaryBase) : Prop := run e.1.method d = (e.2, d')

end Dictionary

/-! ## What a root stands for -/

namespace DictionaryBase

variable [Digest]

/-- The root of a dictionary is what the tree of a map is stored as. -/
def Stands (L : Layout) (d : DictionaryBase) (m : KeyMap Slice) : Prop :=
  ∃ t, PrefixTree.Keyed? d.keyBits t ∧ store? L d.keyBits t = some d.rootCell ∧ ∀ k, PrefixTree.get? t k = m k

variable {L : Layout} {d d' : DictionaryBase} {m : KeyMap Slice}

theorem stands_empty {n : Nat} (hn : n ≤ maxKeyBits) : Stands L ⟨n, none, hn⟩ KeyMap.empty :=
  ⟨none, PrefixTree.keyed?_none n, rfl, fun _ => rfl⟩

/-- Two dictionaries that stand for one map have one root. -/
theorem Stands.rootCell_eq (h : d.Stands L m) (h' : d'.Stands L m) (hn : d'.keyBits = d.keyBits) :
    d'.rootCell = d.rootCell := by
  obtain ⟨t, hkeyed, hroot, hget⟩ := h
  obtain ⟨t', hkeyed', hroot', hget'⟩ := h'
  rw [hn] at hkeyed' hroot'
  have ht : t' = t := PrefixTree.ext? hkeyed' hkeyed fun k => by rw [hget, hget']
  rw [ht, hroot] at hroot'
  exact (Option.some.inj hroot').symm

/-- Only keys of the right length have a value. -/
theorem Stands.eq_none (h : d.Stands L m) {key : List Bool} (hkey : key.length ≠ d.keyBits) : m key = none := by
  obtain ⟨t, hkeyed, -, hget⟩ := h
  rw [← hget]
  exact hkeyed.get_eq_none hkey

/-- The values that a root stands for are stored. -/
theorem Stands.leaf (h : d.Stands L m) (key : List Bool) : ∀ v ∈ m key, ∃ p, L.leaf v = some p := by
  obtain ⟨t, -, hroot, hget⟩ := h
  intro v hv
  rw [← hget] at hv
  exact leaf_of_store? hroot hv

/-- An insertion that does not throw. -/
theorem Stands.insert {ops : SetOps} {v : Slice} (hops : ops.Implements L v) (h : d.Stands L m) {key : List Bool}
    (hkey : key.length = d.keyBits) {mode : SetMode} {res : SetResult}
    (hres : dictSetWith ops d.rootCell key mode = .ok res) :
    res.oldVal = (m key).bind L.leaf ∧ res.dict.isSome = mode.allows (m key).isSome ∧
      (if res.dict.isSome then d.setRootCell res.dict else d).Stands L (m.set key v mode) := by
  obtain ⟨t, hkeyed, hroot, hget⟩ := h
  have hspec := toOption_dictSetWith hops mode hkeyed hkey hroot
  rw [hres, toOption_ok, insertSpec, hget] at hspec
  by_cases hallow : mode.allows (m key).isSome
  · rw [if_pos hallow] at hspec
    obtain ⟨c, hc, hres⟩ := Option.map_eq_some_iff.1 hspec.symm
    subst hres
    refine ⟨rfl, hallow.symm, some (PrefixTree.insert? t key v), (hkeyed.insert? hkey v).some, ?_, ?_⟩
    · show store? L d.keyBits _ = some (some c)
      rw [store?, hc]
      rfl
    · intro k
      rw [PrefixTree.get?_some, PrefixTree.get_insert? hkeyed hkey, KeyMap.set, if_pos hallow, hget,
        Function.update_apply]
  · rw [if_neg hallow] at hspec
    cases Option.some.inj hspec
    refine ⟨rfl, ?_, t, hkeyed, hroot, ?_⟩
    · rw [Bool.not_eq_true] at hallow
      exact hallow.symm
    · intro k
      rw [hget, KeyMap.set, if_neg hallow]

/-- A deletion that does not throw. -/
theorem Stands.erase {ops : ForkOps} (hops : ops.Implements L) (h : d.Stands L m) {key : List Bool}
    (hkey : key.length = d.keyBits) {res : Option Slice × Option Cell}
    (hres : dictLookupDelete ops d.rootCell key = .ok res) :
    res.1 = (m key).bind L.leaf ∧ (if res.1.isSome then d.setRootCell res.2 else d).Stands L (m.delete key) := by
  obtain ⟨t, hkeyed, hroot, hget⟩ := h
  have hspec := toOption_dictLookupDelete hops hkeyed hkey hroot
  rw [hres, toOption_ok, eraseSpec, hget] at hspec
  cases hm : m key with
  | none =>
    rw [hm] at hspec
    cases Option.some.inj hspec
    refine ⟨rfl, t, hkeyed, hroot, ?_⟩
    intro k
    rw [hget, KeyMap.delete, Function.update_apply]
    split
    · next hk => rw [hk, hm]
    · rfl
  | some u =>
    rw [hm] at hspec
    obtain ⟨c, hc, hres⟩ := Option.map_eq_some_iff.1 hspec.symm
    obtain ⟨p, hp⟩ := leaf_of_store? hroot ((hget key).trans hm)
    subst hres
    refine ⟨rfl, ?_⟩
    rw [if_pos (by rw [hp]; rfl)]
    refine ⟨PrefixTree.erase? t key, hkeyed.erase? hkey, hc, ?_⟩
    intro k
    rw [PrefixTree.get?_erase? hkeyed hkey, hget, KeyMap.delete, Function.update_apply]

/-- A filter that does not throw. -/
theorem Stands.filter {ops : ForkOps} (hops : ops.Implements L) (h : d.Stands L m)
    {checkLeaf : List Bool → Slice → Int} {res : FilterResult} {skip : Option Bool}
    (hres : dictFilter ops checkLeaf d.rootCell [] d.keyBits none = .ok (res, skip)) :
    ∃ m', m.Filters (L.verdict checkLeaf) res.changes m' ∧
      (if 0 < res.changes then d.setRootCell res.dict else d).Stands L m' := by
  obtain ⟨t, hkeyed, hroot, hget⟩ := h
  cases t with
  | none =>
    have hnone : d.rootCell = none := (Option.some.inj hroot).symm
    rw [hnone, dictFilter] at hres
    cases hres
    exact ⟨m, ⟨[], PrefixTree.entriesOf_entries? hget, le_rfl, ⟨fun _ => rfl, fun _ => rfl⟩,
      PrefixTree.entriesOf_entries? hget⟩, none, hkeyed, hroot, hget⟩
  | some t =>
    obtain ⟨c, hc, hsome⟩ := store?_some hroot
    rw [hsome] at hres
    have ht := hkeyed t rfl
    have hentries : EntriesOf m (t.entries []) := PrefixTree.entriesOf_entries? hget
    have hfiltered := dictFilter_store hops ht hc hres
    cases hk : filterEntries (L.verdict checkLeaf) none (t.entries []) with
    | error e =>
      rw [hk] at hfiltered
      cases hfiltered with
      | error hneg =>
        refine ⟨m, ⟨t.entries [], hentries, ?_⟩, ?_⟩
        · rw [hk]
          exact ⟨rfl, hneg, rfl⟩
        · rw [if_neg (by omega)]
          exact ⟨some t, hkeyed, hroot, hget⟩
    | ok r =>
      rw [hk] at hfiltered
      obtain ⟨t', rfl, hpos, hsame, hkeyed', hroot'⟩ := hfiltered.kept ht hc
      refine ⟨PrefixTree.get? t', ⟨t.entries [], hentries, ?_⟩, t', ?_, ?_, fun _ => rfl⟩
      · rw [hk]
        exact ⟨hpos, hsame, PrefixTree.entriesOf_entries? fun _ => rfl⟩
      · split <;> exact hkeyed'
      · by_cases hchanged : 0 < res.changes
        · rw [if_pos (by omega)] at hroot'
          rw [if_pos hchanged]
          exact hroot'
        · rw [if_neg (by omega)] at hroot'
          rw [if_neg hchanged, hsome]
          exact hroot'

/-- A search never throws. -/
theorem Stands.lookup {ops : ForkOps} (hops : ops.Implements L) (h : d.Stands L m) (key : List Bool) :
    run (lookup ops.labelMode key) d = (.ok ((m key).bind L.leaf), d) := by
  rw [run_lookup]
  by_cases hkey : key.length = d.keyBits
  · obtain ⟨t, hkeyed, hroot, hget⟩ := h
    cases t with
    | none =>
      have hnone : d.rootCell = none := (Option.some.inj hroot).symm
      rw [if_pos (.inr (by rw [hnone]; rfl)), ← hget]
      rfl
    | some t =>
      obtain ⟨c, hc, hsome⟩ := store?_some hroot
      have hne : ¬ (key.length ≠ d.keyBits ∨ d.rootCell.isNone) := by
        rw [hsome]
        rintro (hne | hnone)
        · exact hne hkey
        · cases hnone
      rw [if_neg hne, hsome, dictLookup_store hops (hkeyed t rfl) hkey hc, ← hget]
      rfl
  · rw [if_pos (.inl hkey), h.eq_none hkey]
    rfl

end DictionaryBase

namespace Dictionary

variable [Digest]

theorem forkOps_implements : forkOps.Implements Layout.plain where
  finishFork bits _ _ _ _ := by
    simp [forkOps, finishCreateFork, storeRefBool, maxRefs, toOption_finalize, Layout.plain, Slice.empty]
  accepts ca cb he := by
    cases he
    exact ⟨rfl, rfl⟩

theorem setOps_implements (v : Slice) : (setOps (appendSliceBool v)).Implements Layout.plain v where
  finishFork {a b ca cb m} bits _ _ _ _ := by
    refine (toOption_finalize ⟨bits, [ca, cb]⟩).trans ?_
    simp [Layout.plain, Slice.empty]
  accepts ca cb he := by
    cases he
    exact ⟨rfl, rfl⟩
  finishLeaf bits := toOption_finishPayload "cannot store new value into a dictionary cell" v ⟨bits, []⟩

/-! ## Operations on a root and on its map -/

variable {d d' : DictionaryBase} {m : KeyMap Slice}

omit [Digest] in
/-- A plain leaf holds the value alone. -/
theorem bind_plain (o : Option Slice) : o.bind Layout.plain.leaf = o := by
  cases o <;> rfl

/-- What an operation does to the root it does to the map. -/
theorem Step.onMap {op : Op} {r : Result Reply} (h : Step d (op, r) d') (hm : d.Stands .plain m) :
    d'.keyBits = d.keyBits ∧ (∀ e, r = .error e → d' = d) ∧
      ∃ m', MapStep d.keyBits m (op, r) m' ∧ d'.Stands .plain m' := by
  unfold Step at h
  cases op with
  | set key v mode =>
    simp only [Op.method, Dictionary.set, run_bind, run_setGen, run_pure] at h
    by_cases hkey : key.length = d.keyBits
    · rw [if_neg (not_not.2 hkey)] at h
      cases hres : dictSetWith (setOps (appendSliceBool v)) d.rootCell key mode with
      | error e =>
        rw [hres] at h
        cases h
        exact ⟨rfl, fun _ _ => rfl, m, rfl, hm⟩
      | ok res =>
        rw [hres] at h
        obtain ⟨-, hflag, hstands⟩ := hm.insert (setOps_implements v) hkey hres
        cases h
        refine ⟨by split <;> rfl, nofun, _, ?_, hstands⟩
        simp only [MapStep, Op.onMap, if_pos hkey, hflag]
    · rw [if_pos hkey] at h
      cases h
      refine ⟨rfl, nofun, m, ?_, hm⟩
      simp only [MapStep, Op.onMap, if_neg hkey]
  | lookupSet key v mode => 
    simp only [Op.method, Dictionary.lookupSet, run_bind, run_lookupSetGen, run_pure] at h
    by_cases hkey : key.length = d.keyBits
    · rw [if_neg (not_not.2 hkey)] at h
      cases hres : dictSetWith (setOps (appendSliceBool v)) d.rootCell key mode with
      | error e =>
        rw [hres] at h
        cases h
        exact ⟨rfl, fun _ _ => rfl, m, rfl, hm⟩
      | ok res =>
        rw [hres] at h
        obtain ⟨hold, -, hstands⟩ := hm.insert (setOps_implements v) hkey hres
        cases h
        refine ⟨by split <;> rfl, nofun, _, ?_, hstands⟩
        simp only [MapStep, Op.onMap, if_pos hkey, hold, bind_plain]
    · rw [if_pos hkey] at h
      cases h
      refine ⟨rfl, nofun, m, ?_, hm⟩
      simp only [MapStep, Op.onMap, if_neg hkey]
  | lookupDelete key =>
    simp only [Op.method, run_bind, run_lookupDelete, run_pure] at h
    by_cases hkey : key.length = d.keyBits
    · rw [if_neg (not_not.2 hkey)] at h
      cases hres : dictLookupDelete forkOps d.rootCell key with
      | error e =>
        rw [hres] at h
        cases h
        exact ⟨rfl, fun _ _ => rfl, m, rfl, hm⟩
      | ok res =>
        rw [hres] at h
        obtain ⟨hold, hstands⟩ := hm.erase forkOps_implements hkey hres
        cases h
        refine ⟨by split <;> rfl, nofun, _, ?_, hstands⟩
        simp only [MapStep, Op.onMap, if_pos hkey, hold, bind_plain]
    · rw [if_pos hkey] at h
      cases h
      refine ⟨rfl, nofun, m, ?_, hm⟩
      simp only [MapStep, Op.onMap, if_neg hkey]
  | lookup key =>
    simp only [Op.method, run_bind, hm.lookup forkOps_implements key, run_pure] at h
    cases h
    refine ⟨rfl, nofun, m, ?_, hm⟩
    simp only [MapStep, Op.onMap, bind_plain]

/-- What operations one after the other do to the root they do to the map. -/
theorem onMap_of_run {n : Nat} (hn : n ≤ maxKeyBits) {es : List (Op × Result Reply)}
    (h : Run Step ⟨n, none, hn⟩ es d) :
    d.keyBits = n ∧ ∃ m, Run (MapStep n) KeyMap.empty es m ∧ d.Stands .plain m := by
  induction h with
  | nil => exact ⟨rfl, KeyMap.empty, .nil, stands_empty hn⟩
  | snoc _ hstep ih =>
    obtain ⟨hbits, m, hrun, hm⟩ := ih
    obtain ⟨hbits', -, m', hmap, hm'⟩ := Step.onMap hstep hm
    exact ⟨hbits'.trans hbits, m', .snoc hrun (hbits ▸ hmap), hm'⟩

omit [Digest] in
/-- The events decide the map. -/
theorem MapStep.unique {n : Nat} {e : Op × Result Reply} {m₁ m₂ : KeyMap Slice} (h₁ : MapStep n m e m₁)
    (h₂ : MapStep n m e m₂) : m₁ = m₂ := by
  obtain ⟨op, r⟩ := e
  cases r with
  | error _ => exact h₁.trans h₂.symm
  | ok reply => exact (Prod.ext_iff.1 (h₁.symm.trans h₂)).2

/-! ## Values that fit -/

/-- The value that an operation sets fits in a leaf. -/
def Op.Fits (n : Nat) : Op → Prop
  | .set key v _ | .lookupSet key v _ => key.length = n → ValueFits n key v
  | .lookupDelete _ | .lookup _ => True

/-- Every value of a map fits in a leaf. -/
def MapFits (n : Nat) (m : KeyMap Slice) : Prop := ∀ k v, m k = some v → ValueFits n k v

theorem MapFits.set {n : Nat} {key : List Bool} {v : Slice} (h : MapFits n m) (hv : ValueFits n key v) (mode : SetMode) :
    MapFits n (m.set key v mode) := by
  intro k u hu
  unfold KeyMap.set at hu
  split at hu
  · rw [Function.update_apply] at hu
    split at hu
    · next hk =>
      cases hu
      rw [hk]
      exact hv
    · exact h k u hu
  · exact h k u hu

theorem MapFits.delete {n : Nat} (h : MapFits n m) (key : List Bool) : MapFits n (m.delete key) := by
  intro k u hu
  rw [KeyMap.delete, Function.update_apply] at hu
  split at hu
  · cases hu
  · exact h k u hu

/-- A value that fits keeps the map fitting. -/
theorem Op.Fits.onMap {n : Nat} {op : Op} (h : op.Fits n) (hm : MapFits n m) : MapFits n (op.onMap n m).2 := by
  cases op with
  | set key v mode =>
    rw [Op.onMap]
    split
    · next hkey => exact hm.set (h hkey) mode
    · exact hm
  | lookupSet key v mode =>
    rw [Op.onMap]
    split
    · next hkey => exact hm.set (h hkey) mode
    · exact hm
  | lookupDelete key =>
    rw [Op.onMap]
    split
    · exact hm.delete key
    · exact hm
  | lookup key => exact hm

theorem dictSetWith_fits (hm : d.Stands .plain m) (hfit : MapFits d.keyBits m) {key : List Bool} {v : Slice}
    (hkey : key.length = d.keyBits) (hv : ValueFits d.keyBits key v) (mode : SetMode) :
    ∃ res, dictSetWith (setOps (appendSliceBool v)) d.rootCell key mode = .ok res := by
  obtain ⟨t, hkeyed, hroot, hget⟩ := hm
  have hdepth : d.keyBits ≤ maxDepth := d.keyBits_le.trans (by decide)
  have hstored : ∃ c, store .plain d.keyBits (PrefixTree.insert? t key v) = some c := by
    obtain ⟨root, hroot⟩ := store?_of_fits hdepth (hkeyed.insert? hkey v).some fun k u hu => by
      rw [PrefixTree.get?_some, PrefixTree.get_insert? hkeyed hkey, hget] at hu
      split at hu
      · next hk =>
        cases hu
        rw [hk]
        exact hv
      · exact hfit k u hu
    obtain ⟨c, hc, -⟩ := store?_some hroot
    exact ⟨c, hc⟩
  obtain ⟨c, hc⟩ := hstored
  have hspec := toOption_dictSetWith (setOps_implements v) mode hkeyed hkey hroot
  cases hres : dictSetWith (setOps (appendSliceBool v)) d.rootCell key mode with
  | ok res => exact ⟨res, rfl⟩
  | error e =>
    rw [hres, insertSpec, hc] at hspec
    split at hspec <;> cases hspec

theorem dictLookupDelete_fits (hm : d.Stands .plain m) (hfit : MapFits d.keyBits m) {key : List Bool}
    (hkey : key.length = d.keyBits) : ∃ res, dictLookupDelete forkOps d.rootCell key = .ok res := by
  obtain ⟨t, hkeyed, hroot, hget⟩ := hm
  have hdepth : d.keyBits ≤ maxDepth := d.keyBits_le.trans (by decide)
  obtain ⟨root, hstored⟩ := store?_of_fits hdepth (hkeyed.erase? hkey) fun k u hu => by
    rw [PrefixTree.get?_erase? hkeyed hkey, hget] at hu
    split at hu
    · cases hu
    · exact hfit k u hu
  have hspec := toOption_dictLookupDelete forkOps_implements hkeyed hkey hroot
  cases hres : dictLookupDelete forkOps d.rootCell key with
  | ok res => exact ⟨res, rfl⟩
  | error e =>
    rw [hres, eraseSpec, hstored] at hspec
    split at hspec <;> cases hspec

/-- While all values fit, nothing is thrown. -/
theorem Step.ok {op : Op} {r : Result Reply} (h : Step d (op, r) d') (hm : d.Stands .plain m)
    (hfit : MapFits d.keyBits m) (hop : op.Fits d.keyBits) : ∃ reply, r = .ok reply := by
  unfold Step at h
  cases op with
  | set key v mode | lookupSet key v mode =>
    simp only [Op.method, Dictionary.set, Dictionary.lookupSet, run_bind, run_setGen, run_lookupSetGen, run_pure] at h
    by_cases hkey : key.length = d.keyBits
    · obtain ⟨res, hres⟩ := dictSetWith_fits hm hfit hkey (hop hkey) mode
      rw [if_neg (not_not.2 hkey), hres] at h
      exact ⟨_, (Prod.ext_iff.1 h).1.symm⟩
    · rw [if_pos hkey] at h
      exact ⟨_, (Prod.ext_iff.1 h).1.symm⟩
  | lookupDelete key =>
    simp only [Op.method, run_bind, run_lookupDelete, run_pure] at h
    by_cases hkey : key.length = d.keyBits
    · obtain ⟨res, hres⟩ := dictLookupDelete_fits hm hfit hkey
      rw [if_neg (not_not.2 hkey), hres] at h
      exact ⟨_, (Prod.ext_iff.1 h).1.symm⟩
    · rw [if_pos hkey] at h
      exact ⟨_, (Prod.ext_iff.1 h).1.symm⟩
  | lookup key =>
    simp only [Op.method, run_bind, hm.lookup forkOps_implements key, run_pure] at h
    exact ⟨_, (Prod.ext_iff.1 h).1.symm⟩

/-- Operations whose values fit never throw. -/
theorem replies_of_run {n : Nat} (hn : n ≤ maxKeyBits) {es : List (Op × Result Reply)}
    (h : Run Step ⟨n, none, hn⟩ es d) (hfit : ∀ e ∈ es, e.1.Fits n) :
    (∃ m, d.Stands .plain m ∧ MapFits n m) ∧ d.keyBits = n ∧ ∀ e ∈ es, ∃ reply, e.2 = .ok reply := by
  induction h with
  | nil => exact ⟨⟨KeyMap.empty, stands_empty hn, nofun⟩, rfl, nofun⟩
  | @snoc es d d' e _ hstep ih =>
    obtain ⟨⟨m, hm, hmfit⟩, rfl, hok⟩ := ih fun e he => hfit e (List.mem_append_left _ he)
    obtain ⟨op, r⟩ := e
    have hop : op.Fits d.keyBits := hfit (op, r) (by simp)
    obtain ⟨reply, rfl⟩ := Step.ok hstep hm hmfit hop
    obtain ⟨hbits, -, m', hmap, hm'⟩ := Step.onMap hstep hm
    have hmap' : m' = (op.onMap d.keyBits m).2 := (Prod.ext_iff.1 hmap).2.symm
    refine ⟨⟨m', hm', hmap' ▸ hop.onMap hmfit⟩, hbits, ?_⟩
    intro e he
    rcases List.mem_append.1 he with he | he
    · exact hok e he
    · rw [List.mem_singleton.1 he]
      exact ⟨reply, rfl⟩

/-! ## Runs -/

/-- A dictionary is a finite map: its replies and all later searches are the map's, its root cell is decided by the
map, and what is thrown changes nothing; nothing is thrown while every value fits in a leaf. -/
theorem actsAsMap_of_run {n : Nat} (hn : n ≤ maxKeyBits) {es : List (Op × Result Reply)}
    (h : Run Step ⟨n, none, hn⟩ es d) :
    ∃ m, Run (MapStep n) KeyMap.empty es m ∧
      (∀ key, run (lookup forkOps.labelMode key) d = (.ok (m key), d)) ∧
      (∀ es' d', Run Step ⟨n, none, hn⟩ es' d' → Run (MapStep n) KeyMap.empty es' m → d'.rootCell = d.rootCell) ∧
      (∀ op e d', Step d (op, .error e) d' → d' = d) ∧
      ((∀ e ∈ es, e.1.Fits n) → ∀ e ∈ es, ∃ reply, e.2 = .ok reply) := by
  obtain ⟨rfl, m, hrun, hm⟩ := onMap_of_run hn h
  refine ⟨m, hrun, ?_, ?_, ?_, ?_⟩
  · intro key
    rw [hm.lookup forkOps_implements, bind_plain]
  · intro es' d' h' hrun'
    obtain ⟨hbits, m', hrun'', hm'⟩ := onMap_of_run hn h'
    obtain rfl : m' = m := Run.unique (R := MapStep d.keyBits) (fun _ _ _ _ => MapStep.unique) hrun'' hrun'
    exact hm.rootCell_eq hm' hbits
  · intro op e d' hstep
    obtain ⟨-, hthrown, -⟩ := Step.onMap hstep hm
    exact hthrown e rfl
  · intro hfit
    exact (replies_of_run hn h hfit).2.2

namespace Sample

abbrev digest : Digest where
  sha256 bytes := BitVec.ofNat 256 (bytes.foldl (fun h b => (h * 257 + b.toNat + 1) % 2 ^ 256) 0)

def empty : DictionaryBase := ⟨2, none, by decide⟩

/-- A value is set, and then not set again. -/
def first : Op := .set [true, false] ⟨[true], []⟩ .set
def second : Op := .lookupSet [true, false] ⟨[false], []⟩ .add

def afterFirst : Result Reply × DictionaryBase := run (@Op.method digest first) empty
def afterSecond : Result Reply × DictionaryBase := run (@Op.method digest second) afterFirst.2

def events : List (Op × Result Reply) := [(first, afterFirst.1), (second, afterSecond.1)]

omit [Digest] in
theorem actsAsMap_set :
    ∃ m, Run (MapStep 2) KeyMap.empty events m ∧
      (∀ key, run (lookup (@forkOps digest).labelMode key) afterSecond.2 = (.ok (m key), afterSecond.2)) ∧
      ∀ e ∈ events, ∃ reply, e.2 = .ok reply := by
  have h : Run (@Step digest) empty events afterSecond.2 := .snoc (.snoc .nil rfl) rfl
  obtain ⟨m, hrun, hlookup, -, -, hok⟩ := @actsAsMap_of_run digest _ 2 (by decide) _ h
  refine ⟨m, hrun, hlookup, hok ?_⟩
  intro e he
  simp only [events, List.mem_cons, List.not_mem_nil, or_false] at he
  rcases he with rfl | rfl
  · exact fun _ => @valueFits_of_bits digest 2 [true, false] [true] (by decide)
  · exact fun _ => @valueFits_of_bits digest 2 [true, false] [false] (by decide)

end Sample

end Dictionary

end TonWallet.Vm
