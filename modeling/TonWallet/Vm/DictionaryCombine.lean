/-
`combine_with`: a dictionary is merged with another one. Without a mode that is the pointwise merge of the two maps,
wherever their trees branch; a mode that forbids keys which one of them lacks finds these out, but not everywhere.
-/
import TonWallet.Vm.Dict.CombineOutcome
import TonWallet.Vm.DictionaryMap

namespace TonWallet.Vm

open Lib TonWallet.Td CellBuilder Dict

namespace DictionaryBase

variable [Digest]

/-- `combine_with`. -/
def combineWith (ops : ForkOps) (dict2 : DictionaryBase) (combine : CombineFunc) (mode : Nat) : Method Bool := do
  let d ← get
  if d.keyBits ≠ dict2.keyBits then call (.error (.vmError "cannot combine dictionaries with different key lengths"))
  else match dictCombineWith ops combine mode d.rootCell dict2.rootCell [] d.keyBits 0 0 with
    | .ok res => do
      set (d.setRootCell res)
      return true
    | .error .combineError => return false
    | .error (.thrown e) => call (.error e)

/-- What `combine_with` makes of the merged root. -/
def combined (d : DictionaryBase) : CombineResult (Option Cell) → Result Bool × DictionaryBase
  | .ok res => (.ok true, d.setRootCell res)
  | .error .combineError => (.ok false, d)
  | .error (.thrown e) => (.error e, d)

theorem run_combineWith (ops : ForkOps) (dict2 : DictionaryBase) (combine : CombineFunc) (mode : Nat) (d : DictionaryBase) :
    run (combineWith ops dict2 combine mode) d =
      if d.keyBits ≠ dict2.keyBits then
        (.error (.vmError "cannot combine dictionaries with different key lengths"), d)
      else combined d (dictCombineWith ops combine mode d.rootCell dict2.rootCell [] d.keyBits 0 0) := by
  unfold combineWith
  rw [run_bind, run_get]
  by_cases hbits : d.keyBits ≠ dict2.keyBits
  · simp only [if_pos hbits, run_call]
  · simp only [if_neg hbits]
    rcases dictCombineWith ops combine mode d.rootCell dict2.rootCell [] d.keyBits 0 0 with (_ | _) | _ <;> rfl

/-- The root of a dictionary is parsed as the tree of a map. -/
def Parsed (canon : Prop) (d : DictionaryBase) (m : KeyMap Slice) : Prop :=
  ∃ t, Parses? canon d.keyBits t d.rootCell ∧ ∀ k, PrefixTree.get? t k = m k

/-- What a merge may come to, for the values `M` that it gives the keys. -/
inductive Merges (canon : Prop) (d : DictionaryBase) (M : List Bool → CombineResult (Option Slice)) :
    Result Bool → DictionaryBase → Prop
  | merged {d' : DictionaryBase} {m : KeyMap Slice} (hbits : d'.keyBits = d.keyBits) (hm : d'.Parsed canon m)
      (hM : ∀ k, M k = .ok (m k)) : Merges canon d M (.ok true) d'
  | failed {k : List Bool} (h : M k = .error .combineError) : Merges canon d M (.ok false) d
  | thrown {k : List Bool} {e : Fail} (h : M k = .error (.thrown e)) : Merges canon d M (.error e) d
  | overflow {r : Result Bool} {k : List Bool} {v : Slice} (hr : r ≠ .ok true) (h : M k = .ok (some v))
      (hfit : ¬ ValueFits d.keyBits k v) : Merges canon d M r d

/-- A mode finds out the keys that it forbids, and nothing else. -/
def KeepsMode (ops : ForkOps) (mode : Nat) (d1 d2 : DictionaryBase) (m1 m2 : KeyMap Slice) : Prop :=
  ∀ (combine : CombineFunc) (f : Combiner), combine.Implements d1.keyBits f →
    (Missing (mode.testBit 0) (mode.testBit 1) m1 m2 → run (combineWith ops d2 combine mode) d1 = (.ok false, d1)) ∧
    (¬ Missing (mode.testBit 0) (mode.testBit 1) m1 m2 →
      run (combineWith ops d2 combine mode) d1 = run (combineWith ops d2 combine 0) d1)

/-- The first map is not empty where that is tested for, and no missing key is hidden. -/
def Detects (mode : Nat) (m1 m2 : KeyMap Slice) : Prop :=
  (mode.testBit 0 → ∃ k, (m1 k).isSome) ∧
    (Missing (mode.testBit 0) (mode.testBit 1) m1 m2 → ¬ Hidden (mode.testBit 0) (mode.testBit 1) m1 m2)

section Combine

variable {canon : Prop} {d d1 d2 : DictionaryBase} {m m1 m2 : KeyMap Slice}

theorem Parsed.cases (h : d.Parsed canon m) :
    (d.rootCell = none ∧ ∀ k, m k = none) ∨
      ∃ t c, d.rootCell = some c ∧ Parses canon d.keyBits t c ∧ m = t.get := by
  obtain ⟨t, hroot, hget⟩ := h
  cases t with
  | none => exact .inl ⟨hroot, fun k => (hget k).symm⟩
  | some t =>
    obtain ⟨c, hc, ht⟩ := hroot
    exact .inr ⟨t, c, hc, ht, funext fun k => (hget k).symm⟩

theorem Parsed.exists_tree (h : d.Parsed canon m) (hkey : ∃ k, (m k).isSome) :
    ∃ t c, d.rootCell = some c ∧ Parses canon d.keyBits t c ∧ m = t.get := by
  rcases h.cases with ⟨-, hnone⟩ | htree
  · obtain ⟨k, hk⟩ := hkey
    rw [hnone] at hk
    cases hk
  · exact htree

/-- Only keys of the right length have a value. -/
theorem Parsed.eq_none (h : d.Parsed canon m) {k : List Bool} (hk : k.length ≠ d.keyBits) : m k = none := by
  rcases h.cases with ⟨-, hnone⟩ | ⟨t, c, -, ht, rfl⟩
  · exact hnone k
  · exact ht.keyed.get_eq_none hk

/-- A dictionary that the dictionary code has made is parsed, with labels in the shortest way. -/
theorem stands_iff_parsed : d.Stands .plain m ↔ d.Parsed True m := by
  constructor
  · rintro ⟨t, hkeyed, hroot, hget⟩
    refine ⟨t, ?_, hget⟩
    cases t with
    | none => exact (Option.some.inj hroot).symm
    | some t =>
      obtain ⟨c, hc, hroot⟩ := store?_some hroot
      exact ⟨c, hroot, parses_of_store (hkeyed t rfl) hc⟩
  · rintro ⟨t, hroot, hget⟩
    cases t with
    | none =>
      have hroot : d.rootCell = none := hroot
      exact ⟨none, PrefixTree.keyed?_none _, by rw [hroot]; rfl, hget⟩
    | some t =>
      obtain ⟨c, hroot, ht⟩ := hroot
      refine ⟨some t, ht.keyed.some, ?_, hget⟩
      rw [hroot, store?, ht.store]
      rfl

variable {ops : ForkOps} {combine : CombineFunc} {f : Combiner}

omit [Digest] in
theorem merges_of_outcome [Digest] {M : List Bool → CombineResult (Option Slice)} {r : CombineResult (Option Cell)}
    (h : Outcome canon d.keyBits d.keyBits [] M r) : Merges canon d M (combined d r).1 (combined d r).2 := by
  cases h with
  | ok hroot hmap => exact .merged rfl ⟨_, hroot, fun _ => rfl⟩ hmap
  | @failed e k hk =>
    cases e with
    | combineError => exact .failed hk
    | thrown e => exact .thrown hk
  | @overflow e k v hk hfit =>
    cases e with
    | combineError => exact .overflow (fun hr => by cases hr) hk hfit
    | thrown e => exact .overflow nofun hk hfit

/-- Without a mode, what is merged is the pointwise merge. -/
theorem merges_combineWith (h : ops.Plain) (hcombine : combine.Implements d1.keyBits f) (hbits : d2.keyBits = d1.keyBits)
    (h1 : d1.Parsed canon m1) (h2 : d2.Parsed canon m2) :
    Merges canon d1 (merged f [] m1 m2) (run (combineWith ops d2 combine 0) d1).1
      (run (combineWith ops d2 combine 0) d1).2 := by
  rw [run_combineWith, if_neg (not_not.2 hbits.symm)]
  apply merges_of_outcome
  have hdepth : d1.keyBits ≤ maxDepth := d1.keyBits_le.trans (by decide)
  rcases h1.cases with ⟨hroot1, hnone⟩ | ⟨t1, c1, hroot1, ht1, rfl⟩
  · obtain ⟨t2, ht2, hget⟩ := h2
    rw [hbits] at ht2
    rw [hroot1, dictCombineWith, if_neg (by simp)]
    exact .ok ht2 fun k => by rw [merged_right (hnone k), hget]
  · rcases h2.cases with ⟨hroot2, hnone⟩ | ⟨t2, c2, hroot2, ht2, rfl⟩
    · rw [hroot1, hroot2, dictCombineWith, if_neg (by simp)]
      refine .ok (t := some t1) ⟨c1, rfl, ht1⟩ fun k => ?_
      rw [merged_left (hnone k), PrefixTree.get?_some]
    · rw [hbits] at ht2
      rw [hroot1, hroot2]
      have h1 : Parses canon (d1.keyBits + ([] : List Bool).length) (t1.prepend []) c1 := by rwa [PrefixTree.prepend_nil]
      have h2 : Parses canon (d1.keyBits + ([] : List Bool).length) (t2.prepend []) c2 := by rwa [PrefixTree.prepend_nil]
      exact dictCombineWith_outcome h combine hcombine hdepth h1 h2 List.nil_suffix List.nil_suffix (Nat.zero_add _)

/-- The combiner that keeps the value of the first dictionary. -/
def keepFirst : CombineFunc := fun cb v1 _ _ => match cb.appendSliceBool v1 with
  | some cb => .ok (some cb)
  | none => .error (.thrown .cellWriteError)

omit [Digest] in
theorem keepFirst_implements (n : Nat) : keepFirst.Implements n fun _ v1 _ => .ok (some v1) where
  error _ h := by cases h
  drop _ h := by cases h
  value _ h hcb := by
    cases h
    rw [keepFirst, hcb]
  overflow _ h hcb := by
    cases h
    exact ⟨_, by rw [keepFirst, hcb]⟩

theorem keepFirst_ne_false (ops : ForkOps) (d2 d : DictionaryBase) :
    (run (combineWith ops d2 keepFirst 0) d).1 ≠ .ok false := by
  have hallowed : Allowed (dictCombineWith ops keepFirst 0 d.rootCell d2.rootCell [] d.keyBits 0 0) := by
    apply allowed_dictCombineWith
    intro cb v1 v2 key
    unfold keepFirst
    split
    · exact allowed_ok _
    · exact nofun
  rw [run_combineWith]
  split
  · exact nofun
  · cases hres : dictCombineWith ops keepFirst 0 d.rootCell d2.rootCell [] d.keyBits 0 0 with
    | ok res => exact nofun
    | error e =>
      cases e with
      | combineError => exact absurd hres hallowed
      | thrown e => exact nofun

section Mode

variable (h : ops.Plain) (mode : Nat) (hbits : d2.keyBits = d1.keyBits)

omit [Digest] in
/-- An empty map lacks what the other one has. -/
theorem missing_empty {b1 b2 : Prop} (hnone : ∀ k, m1 k = none) : Missing b1 b2 m1 m2 ↔ b1 ∧ ∃ k, (m2 k).isSome := by
  constructor
  · rintro (⟨hb, k, hk, -⟩ | ⟨-, k, hk, -⟩)
    · exact ⟨hb, k, hk⟩
    · rw [hnone] at hk
      cases hk
  · rintro ⟨hb, k, hk⟩
    exact .inl ⟨hb, k, hk, hnone k⟩

omit [Digest] in
/-- An empty map has no fork that could hide anything. -/
theorem not_hidden_empty {b1 b2 : Prop} (hnone : ∀ k, m1 k = none) : ¬ Hidden b1 b2 m1 m2 := by
  rintro ⟨p, ⟨⟨r, hr⟩, -⟩, -⟩
  rw [hnone] at hr
  cases hr

theorem isSome_of_parses {n : Nat} {t : PrefixTree Slice} {c : Cell} (ht : Parses canon n t c) : ∃ k, (t.get k).isSome := by
  obtain ⟨k, v, hk⟩ := ht.keyed.exists_get
  exact ⟨k, by rw [hk]; rfl⟩

include hbits

theorem run_combineWith_eq (combine : CombineFunc) (mode : Nat) : run (combineWith ops d2 combine mode) d1 =
    combined d1 (dictCombineWith ops combine mode d1.rootCell d2.rootCell [] d1.keyBits 0 0) := by
  rw [run_combineWith, if_neg (not_not.2 hbits.symm)]

/-- An empty dictionary is merged as the mode says exactly when it does not ask for keys of the first dictionary. -/
theorem keepsMode_iff_of_empty (hroot : d1.rootCell = none) (hnone : ∀ k, m1 k = none) (h2 : d2.Parsed canon m2) :
    KeepsMode ops mode d1 d2 m1 m2 ↔ ¬ mode.testBit 0 := by
  have hrun (combine : CombineFunc) (mode : Nat) : run (combineWith ops d2 combine mode) d1 =
      if mode.testBit 0 ∧ d2.rootCell.isNone then (.ok false, d1) else (.ok true, d1.setRootCell d2.rootCell) := by
    rw [run_combineWith_eq hbits, hroot, dictCombineWith]
    split <;> rfl
  constructor
  · intro hkeeps hbit
    obtain ⟨hmissing, hnot⟩ := hkeeps keepFirst _ (keepFirst_implements _)
    rw [missing_empty hnone] at hmissing hnot
    simp only [hrun, hbit, true_and, Nat.zero_testBit, Bool.false_eq_true, false_and, if_false] at hmissing hnot
    rcases h2.cases with ⟨hroot2, hnone2⟩ | ⟨t2, c2, hroot2, ht2, rfl⟩
    · have hrun := hnot <| by
        rintro ⟨k, hk⟩
        rw [hnone2] at hk
        cases hk
      rw [hroot2] at hrun
      cases hrun
    · have hrun := hmissing (isSome_of_parses ht2)
      rw [hroot2] at hrun
      cases hrun
  · intro hbit combine f _
    rw [missing_empty hnone]
    refine ⟨fun hmissing => absurd hmissing.1 hbit, fun _ => ?_⟩
    rw [hrun, hrun, if_neg fun h => hbit h.1, if_neg (by simp)]

include h

/-- Of two dictionaries that are not empty, a mode finds out what is caught. -/
theorem run_combineWith_mode (combine : CombineFunc) (h1 : d1.Parsed canon m1) (h2 : d2.Parsed canon m2)
    (hkey1 : ∃ k, (m1 k).isSome) (hkey2 : ∃ k, (m2 k).isSome) :
    Caught mode m1 m2 ∧ run (combineWith ops d2 combine mode) d1 = (.ok false, d1) ∨
      ¬ Caught mode m1 m2 ∧ run (combineWith ops d2 combine mode) d1 = run (combineWith ops d2 combine 0) d1 := by
  obtain ⟨t1, c1, hroot1, ht1, rfl⟩ := h1.exists_tree hkey1
  obtain ⟨t2, c2, hroot2, ht2, rfl⟩ := h2.exists_tree hkey2
  rw [hbits] at ht2
  have h1 : Parses canon (d1.keyBits + ([] : List Bool).length) (t1.prepend []) c1 := by rwa [PrefixTree.prepend_nil]
  have h2 : Parses canon (d1.keyBits + ([] : List Bool).length) (t2.prepend []) c2 := by rwa [PrefixTree.prepend_nil]
  have hmode := dictCombineWith_mode h combine mode h1 h2 List.nil_suffix List.nil_suffix (q := [])
  rw [List.length_nil] at hmode
  rw [run_combineWith_eq hbits, run_combineWith_eq hbits, hroot1, hroot2]
  rcases hmode with ⟨hcaught, hres⟩ | ⟨hnot, hres⟩
  · exact .inl ⟨hcaught, by rw [hres]; rfl⟩
  · exact .inr ⟨hnot, by rw [hres]⟩

/-- A mode keeps to what it says exactly for the maps where it detects what is missing. -/
theorem keepsMode_iff (h1 : d1.Parsed canon m1) (h2 : d2.Parsed canon m2) :
    KeepsMode ops mode d1 d2 m1 m2 ↔ Detects mode m1 m2 := by
  rcases h1.cases with ⟨hroot1, hnone1⟩ | ⟨t1, c1, hroot1, ht1, rfl⟩
  · rw [keepsMode_iff_of_empty mode hbits hroot1 hnone1 h2]
    constructor
    · exact fun hbit => ⟨fun h => absurd h hbit, fun _ => not_hidden_empty hnone1⟩
    · rintro ⟨hkey, -⟩ hbit
      obtain ⟨k, hk⟩ := hkey hbit
      rw [hnone1] at hk
      cases hk
  · have hkey := isSome_of_parses ht1
    rcases h2.cases with ⟨hroot2, hnone2⟩ | ⟨t2, c2, hroot2, ht2, rfl⟩
    · have hdetects : Detects mode t1.get m2 :=
        ⟨fun _ => hkey, fun _ => hidden_comm.not.2 (not_hidden_empty hnone2)⟩
      refine iff_of_true ?_ hdetects
      intro combine f _
      rw [missing_comm, missing_empty hnone2, run_combineWith_eq hbits, run_combineWith_eq hbits, hroot1, hroot2,
        dictCombineWith, dictCombineWith]
      refine ⟨fun hmissing => by rw [if_pos hmissing.1]; rfl, fun hnot => ?_⟩
      rw [if_neg fun hbit => hnot ⟨hbit, hkey⟩, if_neg (by simp)]
    · have hmode (combine : CombineFunc) := run_combineWith_mode h mode hbits combine h1 h2 hkey (isSome_of_parses ht2)
      constructor
      · refine fun hkeeps => ⟨fun _ => hkey, fun hmissing hhidden => ?_⟩
        obtain ⟨hfails, -⟩ := hkeeps keepFirst _ (keepFirst_implements _)
        rcases hmode keepFirst with ⟨hcaught, -⟩ | ⟨-, hrun⟩
        · exact hcaught.2 hhidden
        · -- what is hidden is merged as without a mode
          apply keepFirst_ne_false ops d2 d1
          rw [← hrun, hfails hmissing]
      · rintro ⟨-, hdetects⟩ combine f _
        rcases hmode combine with ⟨hcaught, hrun⟩ | ⟨hnot, hrun⟩
        · exact ⟨fun _ => hrun, fun hnot => absurd hcaught.1 hnot⟩
        · exact ⟨fun hmissing => absurd ⟨hmissing, hdetects hmissing⟩ hnot, fun _ => hrun⟩

end Mode

end Combine

end DictionaryBase

namespace Dictionary

variable [Digest]

/-- Nothing stands behind the branches of a fork. -/
theorem forkOps_plain : forkOps.Plain where
  labelMode := rfl
  finishFork bits ca cb n := by
    show (finishCreateFork ⟨bits, []⟩ (some ca) (some cb) n).toOption = _
    unfold finishCreateFork
    exact toOption_finalize _

end Dictionary

end TonWallet.Vm
