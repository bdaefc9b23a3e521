/-
Dictionaries that are filled in a loop: one entry after the other is set, and whether it is set is not looked at. What is
set later replaces what was set under the same key before.
-/
import TonWallet.Vm.DictionaryMap

namespace TonWallet.Vm

open Lib TonWallet.Td CellBuilder Dict DictionaryBase

namespace KeyMap

variable {α : Type} {m : KeyMap α} {es : List (List Bool × α)} {k : List Bool} {v : α}

/-- The map after some entries have been set. -/
def putAll (m : KeyMap α) (es : List (List Bool × α)) : KeyMap α := es.foldl (fun m e => m.set e.1 e.2 .set) m

theorem set_set (m : KeyMap α) (key : List Bool) (v : α) : m.set key v .set = Function.update m key (some v) := by
  unfold set
  rw [if_pos]
  cases m key <;> rfl

@[simp] theorem putAll_nil (m : KeyMap α) : m.putAll [] = m := rfl

@[simp] theorem putAll_cons (m : KeyMap α) (e : List Bool × α) (es : List (List Bool × α)) :
    m.putAll (e :: es) = (m.set e.1 e.2 .set).putAll es := rfl

/-- A key that is not among those set keeps its value. -/
theorem putAll_of_not_mem (h : k ∉ es.map (·.1)) : m.putAll es k = m k := by
  induction es generalizing m with
  | nil => rfl
  | cons e es ih =>
    rw [List.map_cons, List.mem_cons, not_or] at h
    rw [putAll_cons, ih h.2, set_set, Function.update_of_ne h.1]

/-- A value comes from an entry that was set, or was there before. -/
theorem mem_of_putAll (h : m.putAll es k = some v) : (k, v) ∈ es ∨ m k = some v := by
  induction es generalizing m with
  | nil => exact .inr h
  | cons e es ih =>
    rw [putAll_cons] at h
    rcases ih h with hmem | hset
    · exact .inl (List.mem_cons_of_mem e hmem)
    · rw [set_set, Function.update_apply] at hset
      split at hset
      · next hk =>
        cases hset
        rw [hk]
        exact .inl List.mem_cons_self
      · exact .inr hset

theorem mem_of_putAll_empty (h : empty.putAll es k = some v) : (k, v) ∈ es := by
  rcases mem_of_putAll h with hmem | hempty
  · exact hmem
  · cases hempty

/-- Of different keys nothing is replaced. -/
theorem putAll_of_mem (hnodup : (es.map (·.1)).Nodup) (h : (k, v) ∈ es) : m.putAll es k = some v := by
  induction es generalizing m with
  | nil => cases h
  | cons e es ih =>
    rw [List.map_cons, List.nodup_cons] at hnodup
    rw [putAll_cons]
    rcases List.mem_cons.1 h with rfl | h
    · rw [putAll_of_not_mem hnodup.1, set_set, Function.update_self]
    · exact ih hnodup.2 h

/-- The entries of a map that was filled under different keys are those that were set. -/
theorem perm_of_entriesOf_putAll {fs : List (List Bool × α)} (hnodup : (es.map (·.1)).Nodup)
    (h : EntriesOf (empty.putAll es) fs) : fs.Perm es := by
  have hfs : fs.Nodup := by
    refine h.sorted.imp ?_
    rintro a _ hab rfl
    exact hab.asymm hab
  rw [List.perm_ext_iff_of_nodup hfs hnodup.of_map]
  rintro ⟨k, v⟩
  rw [h.mem_iff]
  constructor
  · exact mem_of_putAll_empty
  · exact putAll_of_mem hnodup

/-- Entries that are set in the order of their keys are the entries of the map. -/
theorem entriesOf_putAll (h : es.Pairwise fun a b => Before a.1 b.1) : EntriesOf (empty.putAll es) es := by
  have hnodup : (es.map (·.1)).Nodup := by
    rw [List.Nodup, List.pairwise_map]
    refine h.imp ?_
    rintro a b hab heq
    rw [heq] at hab
    exact hab.asymm hab
  exact ⟨h, fun k v => ⟨putAll_of_mem hnodup, mem_of_putAll_empty⟩⟩

end KeyMap

/-! ## The entries of a dictionary -/

namespace DictionaryBase

variable [Digest] {d : DictionaryBase} {m : KeyMap Slice}

theorem Stands.exists_entries {L : Layout} (h : d.Stands L m) : ∃ es, EntriesOf m es := by
  obtain ⟨t, -, -, hget⟩ := h
  exact ⟨_, PrefixTree.entriesOf_entries? hget⟩

/-- A dictionary is as much deeper than its leaves as its keys have bits. -/
theorem Stands.within_rootCell {b : Nat} (h : d.Stands .plain m) (hb : b + d.keyBits ≤ maxDepth)
    (hm : ∀ k v, m k = some v → ∃ c, node k d.keyBits v = some c ∧ c.Within b) :
    ∀ root ∈ d.rootCell, root.Within (b + d.keyBits) := by
  obtain ⟨t, hkeyed, hroot, hget⟩ := h
  intro root hmem
  cases t with
  | none =>
    rw [show d.rootCell = none from (Option.some.inj hroot).symm] at hmem
    cases hmem
  | some t =>
    obtain ⟨c, hstore, hc⟩ := store?_some hroot
    obtain ⟨c', hstore', hwithin⟩ := store_within (q := []) hb (hkeyed t rfl) (Nat.zero_add _) fun k v hk =>
      hm k v (by rw [← hget, PrefixTree.get?_some]; exact hk)
    rw [hstore] at hstore'
    rw [hc] at hmem
    cases hstore'
    cases hmem
    exact hwithin

end DictionaryBase

namespace Dictionary

variable [Digest] {α : Type} {d d' : DictionaryBase} {m : KeyMap Slice}

/-- `set_builder`. -/
def setBuilder (key : List Bool) (value : CellBuilder) (mode : SetMode) : Method Bool :=
  setGen key (appendSliceBool ⟨value.bits, value.refs⟩) mode

/-- A loop that sets the entries it makes of the elements of a list. -/
def fillWith (entry : α → Result (List Bool × CellBuilder)) : List α → Method Unit
  | [] => pure ()
  | x :: xs => do
    let e ← call (entry x)
    let _ ← setBuilder e.1 e.2 .set
    fillWith entry xs

/-- An entry as the dictionary keeps it. -/
def asEntry (e : List Bool × CellBuilder) : List Bool × Slice := (e.1, ⟨e.2.bits, e.2.refs⟩)

/-- One entry that is set. -/
theorem setBuilder_ok (hm : d.Stands .plain m) {key : List Bool} {value : CellBuilder} {flag : Bool}
    (hkey : key.length = d.keyBits) (h : run (setBuilder key value .set) d = (.ok flag, d')) :
    d'.keyBits = d.keyBits ∧ d'.Stands .plain (m.set key ⟨value.bits, value.refs⟩ .set) := by
  have hstep : Step d (.set key ⟨value.bits, value.refs⟩ .set, .ok (.flag flag)) d' := by
    unfold Step
    simp only [Op.method, Dictionary.set, run_bind, run_pure]
    rw [show run (setGen key (appendSliceBool ⟨value.bits, value.refs⟩) .set) d = (.ok flag, d') from h]
  obtain ⟨hbits, -, m', hmap, hm'⟩ := Step.onMap hstep hm
  have hmap' : m' = _ := (Prod.ext_iff.1 hmap).2.symm
  rw [hmap', Op.onMap, if_pos hkey] at hm'
  exact ⟨hbits, hm'⟩

/-- A loop that comes to its end has set all its entries. -/
theorem fillWith_ok {entry : α → Result (List Bool × CellBuilder)} {xs : List α} (hm : d.Stands .plain m)
    (hkey : ∀ x ∈ xs, ∀ e, entry x = .ok e → e.1.length = d.keyBits) (h : run (fillWith entry xs) d = (.ok (), d')) :
    d'.keyBits = d.keyBits ∧ ∃ es, xs.mapM entry = .ok es ∧ d'.Stands .plain (m.putAll (es.map asEntry)) := by
  induction xs generalizing d m with
  | nil =>
    rw [fillWith, run_pure] at h
    cases h
    exact ⟨rfl, [], rfl, hm⟩
  | cons x xs ih =>
    rw [fillWith, run_bind, run_call] at h
    cases he : entry x with
    | error f =>
      rw [he] at h
      cases h
    | ok e =>
      rw [he] at h
      simp only [run_bind] at h
      rcases hset : run (setBuilder e.1 e.2 .set) d with ⟨f | flag, d₁⟩
      · rw [hset] at h
        cases h
      · rw [hset] at h
        obtain ⟨hbits, hm₁⟩ := setBuilder_ok hm (hkey x List.mem_cons_self e he) hset
        obtain ⟨hbits', es, hes, hm'⟩ := ih hm₁ (fun y hy => hbits ▸ hkey y (List.mem_cons_of_mem x hy)) h
        refine ⟨hbits'.trans hbits, e :: es, ?_, hm'⟩
        rw [List.mapM_cons, he, hes]
        rfl

/-- A loop whose entries can be made and fit comes to its end. -/
theorem fillWith_total {entry : α → Result (List Bool × CellBuilder)} {xs : List α} (hm : d.Stands .plain m)
    (hfit : MapFits d.keyBits m)
    (hentry : ∀ x ∈ xs, ∃ e, entry x = .ok e ∧ e.1.length = d.keyBits ∧ ValueFits d.keyBits e.1 ⟨e.2.bits, e.2.refs⟩) :
    ∃ d', run (fillWith entry xs) d = (.ok (), d') := by
  induction xs generalizing d m with
  | nil => exact ⟨d, rfl⟩
  | cons x xs ih =>
    obtain ⟨e, he, hkey, hv⟩ := hentry x List.mem_cons_self
    obtain ⟨res, hres⟩ := dictSetWith_fits hm hfit hkey hv .set
    have hset : ∃ flag d₁, run (setBuilder e.1 e.2 .set) d = (.ok flag, d₁) := by
      rw [setBuilder, run_setGen, if_neg (not_not.2 hkey), hres]
      exact ⟨_, _, rfl⟩
    obtain ⟨flag, d₁, hset⟩ := hset
    obtain ⟨hbits, hm₁⟩ := setBuilder_ok hm hkey hset
    have hfit₁ : MapFits d₁.keyBits (m.set e.1 ⟨e.2.bits, e.2.refs⟩ .set) := by
      rw [hbits]
      exact hfit.set hv .set
    obtain ⟨d', hd'⟩ := ih hm₁ hfit₁ fun y hy => by
      rw [hbits]
      exact hentry y (List.mem_cons_of_mem x hy)
    refine ⟨d', ?_⟩
    rw [fillWith, run_bind, run_call, he]
    simp only [run_bind, hset]
    exact hd'

end Dictionary

end TonWallet.Vm
