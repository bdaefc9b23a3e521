/-
The queries of the manual DNS contract and how `ManualDns::combine_actions` puts a list of actions into as few of them
as it can: it reads the list from its end, keeps for each name the last action of every category, and stops at the last
action that deletes everything.
-/
import Mathlib.Logic.Function.Basic
import Mathlib.Data.List.Nodup
import Mathlib.Data.List.Induction
import Std.Data.TreeMap.Lemmas
import TonWallet.Lib.UpdateFold
import TonWallet.Vm.Cell

namespace TonWallet.SmcEnvelope

open Lib TonWallet.Td TonWallet.Vm

/-! ## Actions -/

/-- `DnsInterface::Action`: an empty name deletes everything, category 0 the name; otherwise the value of a category is
set (to null with `some none`) or, without data, deleted. -/
structure DnsAction where
  name : String
  category : Int
  data : Option (Option Cell)

namespace DnsAction

/-- `does_create_category`. Like the next two it is only called for actions with a name and a category, so its checks
hold. -/
def doesCreateCategory (a : DnsAction) : Bool := a.data.isSome

/-- `does_change_empty`. -/
def doesChangeEmpty (a : DnsAction) : Bool := a.data.join.isSome

/-- `make_non_empty`. -/
def makeNonEmpty (a : DnsAction) : DnsAction := match a.data with
  | none => { a with data := some none }
  | some _ => a

end DnsAction

/-! ## What actions and queries mean -/

/-- The values of a name. -/
abbrev DnsCategories := Int → Option Cell

/-- A DNS table. A name without values is in it, too. -/
abbrev DnsTable := String → Option DnsCategories

namespace DnsAction

/-- What an action with a name does to the name. -/
def onName (a : DnsAction) (o : Option DnsCategories) : Option DnsCategories :=
  if a.category = 0 then none
  else match a.data with
    | none => o.map fun cats => Function.update cats a.category none
    | some value => some (Function.update (o.getD fun _ => none) a.category value)

theorem onName_zero {a : DnsAction} (h : a.category = 0) (o : Option DnsCategories) : a.onName o = none := if_pos h

theorem onName_none {a : DnsAction} (h : a.category ≠ 0) (hdata : a.data = none) (o : Option DnsCategories) :
    a.onName o = o.map fun cats => Function.update cats a.category none := by
  rw [onName, if_neg h, hdata]

theorem onName_some {a : DnsAction} {value : Option Cell} (h : a.category ≠ 0) (hdata : a.data = some value)
    (o : Option DnsCategories) :
    a.onName o = some (Function.update (o.getD fun _ => none) a.category value) := by
  rw [onName, if_neg h, hdata]

theorem doesCreateCategory_iff {a : DnsAction} : a.doesCreateCategory ↔ ∃ value, a.data = some value :=
  Option.isSome_iff_exists

/-- What an action does to the table. -/
def onTable (t : DnsTable) (a : DnsAction) : DnsTable :=
  if a.name = "" then fun _ => none else Function.update t a.name (a.onName (t a.name))

/-- The actions one after the other. -/
def onTables (actions : List DnsAction) (t : DnsTable) : DnsTable := actions.foldl onTable t

end DnsAction

/-- What a query does to a name: `DSet`, `DDel`, `VSet`, `VDel`. -/
inductive DnsNameQuery
  | dSet (table : DnsCategories)
  | dDel
  | vSet (category : Int) (value : Option Cell)
  | vDel (category : Int)

/-- A query: `TSet` and `TDel` are about the whole table. -/
inductive DnsQuery
  | tSet (table : DnsTable)
  | tDel
  | named (name : String) (query : DnsNameQuery)

def DnsNameQuery.onName (o : Option DnsCategories) : DnsNameQuery → Option DnsCategories
  | .dSet table => some table
  | .dDel => none
  | .vSet category value => some (Function.update (o.getD fun _ => none) category value)
  | .vDel category => o.map fun cats => Function.update cats category none

def DnsQuery.onTable (t : DnsTable) : DnsQuery → DnsTable
  | .tSet table => table
  | .tDel => fun _ => none
  | .named name query => Function.update t name (query.onName (t name))

namespace ManualDns

/-! ## Building a query -/

/-- `action.data.value()`. -/
def dataValue (a : DnsAction) : Result (Option Cell) := match a.data with
  | some value => .ok value
  | none => .error (.check "data")

/-- One turn of the loops that fill a category dictionary. -/
def setCategory (cats : DnsCategories) (a : DnsAction) : Result DnsCategories := do
  match ← dataValue a with
    | none => pure cats
    | some value => pure (Function.update cats a.category (some value))

/-- `create_set_name_unsigned`. -/
def createSetName (name : String) (entries : List DnsAction) : Result DnsQuery := do
  let dict ← entries.foldlM setCategory fun _ => none
  pure (.named name (.dSet dict))

/-- One turn of the loop of `create_set_all_unsigned`. -/
def setEntry (pdict : DnsTable) (a : DnsAction) : Result DnsTable := do
  let dict ← setCategory ((pdict a.name).getD fun _ => none) a
  pure (Function.update pdict a.name (some dict))

/-- `create_set_all_unsigned`. -/
def createSetAll (entries : List DnsAction) : Result DnsQuery := do
  let pdict ← entries.foldlM setEntry fun _ => none
  pure (.tSet pdict)

/-- `ManualDns::CombinedActions`. -/
structure CombinedActions where
  name : String := ""
  category : Int := 0
  actions : Option (List DnsAction) := none

/-- `create_update_query(combined)`. -/
def createUpdateQuery (combined : CombinedActions) : Result DnsQuery :=
  if combined.name = "" then match combined.actions with
    | none => .error (.check "actions")
    | some [] => .ok .tDel
    | some actions => createSetAll actions
  else if combined.category = 0 then match combined.actions with
    | none => .ok (.named combined.name .dDel)
    | some actions => createSetName combined.name actions
  else match combined.actions with
    | some [action] => match action.data with
      | some value => .ok (.named action.name (.vSet action.category value))
      | none => .ok (.named action.name (.vDel action.category))
    | _ => .error (.check "combined.actions.value().size() == 1")

/-! ## Combining -/

/-- `Info`: what is kept of the actions on a name. -/
structure Info where
  knownCategory : List Int := []
  actions : List DnsAction := []
  closed : Bool := false
  nonEmpty : Bool := false

/-- The actions that are kept when a name is closed, in the loop over `old_actions`. -/
def closeActions (isEmpty : Bool) : List DnsAction → List DnsAction
  | [] => []
  | a :: rest =>
    if isEmpty && a.doesCreateCategory then a :: closeActions false rest
    else if !isEmpty && a.doesChangeEmpty then a :: closeActions isEmpty rest
    else closeActions isEmpty rest

/-- The turn of the loop for an action with a name. -/
def Info.scan (info : Info) (a : DnsAction) : Info :=
  if info.closed then info
  else
    let info := if a.category ≠ 0 ∧ a.doesCreateCategory then { info with nonEmpty := true } else info
    if a.category ∈ info.knownCategory then info
    else
      let info := { info with knownCategory := a.category :: info.knownCategory }
      if a.category = 0 then { info with closed := true, actions := closeActions true info.actions }
      else { info with actions := info.actions ++ [a] }

/-- The first action that stands for a name that must be there is made to create it. -/
def makeFirstNonEmpty (needNonEmpty : Bool) : List DnsAction → List DnsAction
  | [] => []
  | a :: rest => (if needNonEmpty then a.makeNonEmpty else a) :: rest

/-- What is made of a name in the end. -/
def Info.combined (name : String) (info : Info) : List CombinedActions :=
  if info.closed then [⟨name, 0, if info.actions ≠ [] ∨ info.nonEmpty then some info.actions else none⟩]
  else (makeFirstNonEmpty info.nonEmpty info.actions).map fun a => ⟨a.name, a.category, some [a]⟩

/-- The entries of the table that replaces everything. -/
def setAllEntries (mp : Std.TreeMap String Info) : List DnsAction :=
  mp.toList.flatMap fun it => it.2.actions.filter (·.doesCreateCategory)

/-- The loop of `combine_actions`, over the reversed actions. -/
def combineLoop (mp : Std.TreeMap String Info) : List DnsAction → List CombinedActions
  | [] => mp.toList.flatMap fun it => it.2.combined it.1
  | a :: rest =>
    if a.name = "" then [{ actions := some (setAllEntries mp) }]
    else combineLoop (mp.alter a.name fun info => some ((info.getD {}).scan a)) rest

/-- `combine_actions`. -/
def combineActions (actions : List DnsAction) : List CombinedActions := combineLoop ∅ actions.reverse

/-- The queries of the combined actions do to every table what the actions do one after the other. -/
def Combines (actions : List DnsAction) : Prop :=
  ∃ queries, (combineActions actions).mapM createUpdateQuery = .ok queries ∧
    ∀ t, queries.foldl DnsQuery.onTable t = DnsAction.onTables actions t

/-! ## The last action of every category -/

/-- What some actions on a name, the last first, leave of the values: each category gets what its last action says. -/
def values (l : List DnsAction) (cats : DnsCategories) : DnsCategories := fun c =>
  match l.find? (·.category == c) with
  | some a => a.data.join
  | none => cats c

@[simp] theorem values_nil (cats : DnsCategories) : values [] cats = cats := rfl

theorem values_cons (a : DnsAction) (l : List DnsAction) (cats : DnsCategories) :
    values (a :: l) cats = Function.update (values l cats) a.category a.data.join := by
  funext c
  by_cases hc : c = a.category
  · subst hc
    simp [values]
  · have hne : (a.category == c) = false := by simpa using Ne.symm hc
    rw [Function.update_of_ne hc, values, List.find?_cons, hne]
    rfl

/-- Values depend on the actions only through the last one of each category. -/
theorem values_congr {l l' : List DnsAction} {cats : DnsCategories}
    (h : ∀ c, l.find? (·.category == c) = l'.find? (·.category == c)) : values l cats = values l' cats := by
  funext c
  rw [values, values, h]

/-- A category that no action is about. -/
theorem find?_eq_none_of_not_mem {l : List DnsAction} {c : Int} (h : c ∉ l.map (·.category)) :
    l.find? (·.category == c) = none := by
  rw [List.find?_eq_none]
  intro a ha hc
  exact h (List.mem_map.2 ⟨a, ha, by simpa using hc⟩)

/-- Deletions and settings to null leave the values out. -/
theorem values_eq_of_sublist {l l' : List DnsAction} (h : l'.Sublist l) (hnodup : (l.map (·.category)).Nodup)
    (hdrop : ∀ a ∈ l, a ∉ l' → a.data.join = none) : values l' (fun _ => none) = values l fun _ => none := by
  induction h with
  | slnil => rfl
  | cons a h ih =>
    rename_i l' l
    obtain ⟨hnot, hnodup⟩ := List.nodup_cons.1 hnodup
    have hnot' : a.category ∉ l'.map (·.category) := fun hmem => hnot ((h.map _).subset hmem)
    have hl' := ih hnodup fun b hb => hdrop b (List.mem_cons_of_mem a hb)
    -- nothing of the category is kept, and nothing is what the action leaves
    have hnone : a.data.join = none := hdrop a List.mem_cons_self fun hmem => hnot' (List.mem_map_of_mem hmem)
    rw [hl', values_cons, hnone]
    funext c
    by_cases hc : c = a.category
    · subst hc
      simp [values, find?_eq_none_of_not_mem hnot]
    · rw [Function.update_of_ne hc]
  | cons_cons a h ih =>
    rename_i l' l
    obtain ⟨hnot, hnodup⟩ := List.nodup_cons.1 hnodup
    rw [values_cons, values_cons, ih hnodup]
    intro b hb hb'
    refine hdrop b (List.mem_cons_of_mem a hb) ?_
    intro hmem
    rcases List.mem_cons.1 hmem with rfl | hmem
    · exact hnot (List.mem_map_of_mem hb)
    · exact hb' hmem

/-- Deletions alone leave nothing where there is nothing. -/
theorem values_eq_none {l : List DnsAction} (h : ¬ l.any (·.doesCreateCategory)) :
    values l (fun _ => none) = fun _ => none := by
  funext c
  unfold values
  split
  · next a ha =>
    cases hdata : a.data with
    | none => rfl
    | some value =>
      have hcreate : a.doesCreateCategory := DnsAction.doesCreateCategory_iff.2 ⟨value, hdata⟩
      exact absurd (List.any_eq_true.2 ⟨a, List.mem_of_find?_eq_some ha, hcreate⟩) h
  · rfl

/-- Actions on a name that do not delete it, the last first: they create the name, or change it if it is there. -/
theorem foldr_onName {l : List DnsAction} (h : ∀ a ∈ l, a.category ≠ 0) (o : Option DnsCategories) :
    l.foldr DnsAction.onName o =
      if l.any (·.doesCreateCategory) then some (values l (o.getD fun _ => none)) else o.map (values l) := by
  induction l with
  | nil => cases o <;> rfl
  | cons a l ih =>
    have hne := h a List.mem_cons_self
    rw [List.foldr_cons, ih fun b hb => h b (List.mem_cons_of_mem a hb), List.any_cons]
    cases hdata : a.data with
    | none =>
      have hcreates : a.doesCreateCategory = false := by simp [DnsAction.doesCreateCategory, hdata]
      have hcons (cats : DnsCategories) : values (a :: l) cats = Function.update (values l cats) a.category none := by
        rw [values_cons, hdata]
        rfl
      rw [DnsAction.onName_none hne hdata, hcreates, Bool.false_or]
      by_cases hany : l.any (·.doesCreateCategory)
      · rw [if_pos hany, if_pos hany, hcons]
        rfl
      · rw [if_neg hany, if_neg hany]
        cases o with
        | none => rfl
        | some cats => exact congrArg some (hcons cats).symm
    | some value =>
      have hcreates : a.doesCreateCategory = true := by simp [DnsAction.doesCreateCategory, hdata]
      rw [DnsAction.onName_some hne hdata, hcreates, Bool.true_or, if_pos rfl, values_cons, hdata]
      by_cases hany : l.any (·.doesCreateCategory)
      · rw [if_pos hany]
        rfl
      · rw [if_neg hany]
        cases o with
        | none =>
          rw [Option.getD_none, values_eq_none hany]
          rfl
        | some cats => rfl

/-! ## What the scan keeps -/

/-- What is known of a name after its actions `l` since its deletion, the last first. -/
structure Info.Open (info : Info) (l : List DnsAction) : Prop where
  closed : info.closed = false
  known : ∀ c, c ∈ info.knownCategory ↔ c ∈ info.actions.map (·.category)
  nodup : (info.actions.map (·.category)).Nodup
  subset : ∀ a ∈ info.actions, a ∈ l
  find : ∀ c, info.actions.find? (·.category == c) = l.find? (·.category == c)
  nonEmpty : info.nonEmpty = l.any (·.doesCreateCategory)

theorem Info.open_nil : ({} : Info).Open [] := by
  constructor
  · rfl
  · intro c
    rfl
  · exact List.nodup_nil
  · intro a ha
    cases ha
  · intro c
    rfl
  · rfl

/-- An action that does not delete the name is kept if it is the last of its category. -/
theorem Info.Open.scan {info : Info} {l : List DnsAction} (h : info.Open l) {a : DnsAction} (ha : a.category ≠ 0) :
    (info.scan a).Open (l ++ [a]) := by
  have hscan : info.scan a =
      if a.category ∈ info.knownCategory then { info with nonEmpty := info.nonEmpty || a.doesCreateCategory }
      else { info with
        knownCategory := a.category :: info.knownCategory
        actions := info.actions ++ [a]
        nonEmpty := info.nonEmpty || a.doesCreateCategory } := by
    have hclosed := h.closed
    obtain ⟨known, actions, closed, nonEmpty⟩ := info
    subst hclosed
    unfold Info.scan
    cases a.doesCreateCategory <;> simp [ha]
  have hany : (info.nonEmpty || a.doesCreateCategory) = (l ++ [a]).any (·.doesCreateCategory) := by
    simp [h.nonEmpty]
  rw [hscan]
  split
  · next hknown =>
    constructor
    · exact h.closed
    · exact h.known
    · exact h.nodup
    · intro b hb
      exact List.mem_append_left _ (h.subset b hb)
    · intro c
      rw [h.find c, List.find?_append]
      -- its category was met before
      cases hfind : l.find? (·.category == c) with
      | some b => rfl
      | none =>
        rw [← h.find c, List.find?_eq_none] at hfind
        have hne : (a.category == c) = false := by
          rw [h.known, List.mem_map] at hknown
          obtain ⟨b, hb, hba⟩ := hknown
          have := hfind b hb
          simpa [hba] using this
        simp [hne]
    · exact hany
  · next hknown =>
    rw [h.known] at hknown
    constructor
    · exact h.closed
    · intro c
      simp only [List.mem_cons, h.known, List.map_append, List.map_cons, List.map_nil, List.mem_append,
        List.not_mem_nil, or_false]
      exact or_comm
    · rw [List.map_append]
      refine List.nodup_append.2 ⟨h.nodup, List.nodup_singleton _, ?_⟩
      intro c hc d hd hcd
      rw [List.map_cons, List.map_nil, List.mem_singleton] at hd
      exact hknown (hd ▸ hcd ▸ hc)
    · intro b hb
      rcases List.mem_append.1 hb with hb | hb
      · exact List.mem_append_left _ (h.subset b hb)
      · exact List.mem_append_right _ hb
    · intro c
      dsimp only
      rw [List.find?_append, List.find?_append, h.find c]
    · exact hany

theorem Info.open_scan {l : List DnsAction} (h : ∀ a ∈ l, a.category ≠ 0) : (l.foldl Info.scan {}).Open l := by
  induction l using List.reverseRecOn with
  | nil => exact Info.open_nil
  | append_singleton l a ih =>
    rw [List.foldl_append]
    refine (ih ?_).scan (h a (by simp))
    intro b hb
    exact h b (List.mem_append_left _ hb)

theorem closeActions_sublist (isEmpty : Bool) (l : List DnsAction) : (closeActions isEmpty l).Sublist l := by
  induction l generalizing isEmpty with
  | nil => exact .slnil
  | cons a l ih =>
    unfold closeActions
    split
    · exact (ih _).cons_cons a
    · split
      · exact (ih _).cons_cons a
      · exact (ih _).cons a

theorem doesCreateCategory_of_mem_closeActions {isEmpty : Bool} {l : List DnsAction} {a : DnsAction}
    (h : a ∈ closeActions isEmpty l) : a.doesCreateCategory := by
  induction l generalizing isEmpty with
  | nil => cases h
  | cons b l ih =>
    unfold closeActions at h
    split at h
    · next hb =>
      rcases List.mem_cons.1 h with rfl | h
      · exact (Bool.and_eq_true_iff.1 hb).2
      · exact ih h
    · split at h
      · next hb =>
        rcases List.mem_cons.1 h with rfl | h
        · obtain ⟨-, hb⟩ := Bool.and_eq_true_iff.1 hb
          cases hdata : a.data with
          | none => simp [DnsAction.doesChangeEmpty, hdata] at hb
          | some value => exact DnsAction.doesCreateCategory_iff.2 ⟨value, hdata⟩
        · exact ih h
      · exact ih h

/-- What is not kept gives a category no value. -/
theorem join_eq_none_of_not_mem_closeActions {isEmpty : Bool} {l : List DnsAction} {a : DnsAction} (ha : a ∈ l)
    (h : a ∉ closeActions isEmpty l) : a.data.join = none := by
  induction l generalizing isEmpty with
  | nil => cases ha
  | cons b l ih =>
    unfold closeActions at h
    rcases List.mem_cons.1 ha with rfl | ha
    · split at h
      · exact absurd List.mem_cons_self h
      · next hcreate =>
        split at h
        · exact absurd List.mem_cons_self h
        · next hchange =>
          cases hdata : a.data.join with
          | none => rfl
          | some value =>
            have hdata' : a.data = some (some value) := Option.join_eq_some_iff.1 hdata
            cases isEmpty <;>
            simp [DnsAction.doesCreateCategory, DnsAction.doesChangeEmpty, hdata'] at hcreate hchange
    · split at h
      · exact ih ha fun hmem => h (List.mem_cons_of_mem b hmem)
      · split at h
        · exact ih ha fun hmem => h (List.mem_cons_of_mem b hmem)
        · exact ih ha h

/-- Something is kept of a closed name if one of its actions creates it. -/
theorem closeActions_ne_nil_iff {l : List DnsAction} :
    closeActions true l ≠ [] ↔ ∃ a ∈ l, a.doesCreateCategory := by
  constructor
  · intro h
    obtain ⟨a, ha⟩ := List.exists_mem_of_ne_nil _ h
    exact ⟨a, (closeActions_sublist true l).subset ha, doesCreateCategory_of_mem_closeActions ha⟩
  · rintro ⟨a, ha, hcreate⟩
    induction l with
    | nil => cases ha
    | cons b l ih =>
      unfold closeActions
      by_cases hb : b.doesCreateCategory
      · simp [hb]
      · rcases List.mem_cons.1 ha with rfl | ha
        · exact absurd hcreate hb
        · simpa [hb] using ih ha

/-- Some category was set last, not deleted. -/
def SetLast (l : List DnsAction) : Prop := ∃ c a, l.find? (·.category == c) = some a ∧ a.doesCreateCategory

/-- With one action for each category, every action is the last of its category. -/
theorem setLast_iff_of_nodup {l : List DnsAction} (h : (l.map (·.category)).Nodup) :
    SetLast l ↔ ∃ a ∈ l, a.doesCreateCategory := by
  constructor
  · rintro ⟨c, a, ha, hcreate⟩
    exact ⟨a, List.mem_of_find?_eq_some ha, hcreate⟩
  · rintro ⟨a, ha, hcreate⟩
    refine ⟨a.category, a, ?_, hcreate⟩
    cases hfind : l.find? (·.category == a.category) with
    | none =>
      rw [List.find?_eq_none] at hfind
      exact absurd (beq_self_eq_true a.category) (hfind a ha)
    | some b =>
      have hb := List.find?_some hfind
      exact congrArg some (List.inj_on_of_nodup_map h (List.mem_of_find?_eq_some hfind) ha (by simpa using hb))

theorem setLast_congr {l l' : List DnsAction} (h : ∀ c, l.find? (·.category == c) = l'.find? (·.category == c)) :
    SetLast l ↔ SetLast l' := by
  unfold SetLast
  simp only [h]

/-- What is known of a name that was deleted before its actions `l`, the last first. -/
structure Info.Closed (info : Info) (l : List DnsAction) : Prop where
  closed : info.closed = true
  nodup : (info.actions.map (·.category)).Nodup
  subset : ∀ a ∈ info.actions, a ∈ l
  creates : ∀ a ∈ info.actions, a.doesCreateCategory
  values_eq : values info.actions (fun _ => none) = values l fun _ => none
  ne_nil_iff : info.actions ≠ [] ↔ SetLast l
  nonEmpty : info.nonEmpty = l.any (·.doesCreateCategory)

/-- The deletion of a name closes it. -/
theorem Info.Open.close {info : Info} {l : List DnsAction} (h : info.Open l) (hl : ∀ a ∈ l, a.category ≠ 0)
    {a : DnsAction} (ha : a.category = 0) : (info.scan a).Closed l := by
  have hnot : 0 ∉ info.knownCategory := by
    rw [h.known, List.mem_map]
    rintro ⟨b, hb, hzero⟩
    exact hl b (h.subset b hb) hzero
  have hscan : info.scan a = ⟨0 :: info.knownCategory, closeActions true info.actions, true, info.nonEmpty⟩ := by
    unfold Info.scan
    simp [h.closed, ha, hnot]
  rw [hscan]
  have hsub := closeActions_sublist true info.actions
  constructor
  · rfl
  · exact h.nodup.sublist (hsub.map _)
  · intro b hb
    exact h.subset b (hsub.subset hb)
  · intro b hb
    exact doesCreateCategory_of_mem_closeActions hb
  · rw [← values_congr h.find]
    exact values_eq_of_sublist hsub h.nodup fun b hb hb' => join_eq_none_of_not_mem_closeActions hb hb'
  · rw [← setLast_congr h.find, setLast_iff_of_nodup h.nodup]
    exact closeActions_ne_nil_iff
  · exact h.nonEmpty

/-- Nothing is scanned of a closed name. -/
theorem Info.foldl_scan_of_closed {info : Info} (h : info.closed = true) (l : List DnsAction) :
    l.foldl Info.scan info = info := by
  induction l with
  | nil => rfl
  | cons a l ih => rwa [List.foldl_cons, Info.scan, if_pos h]

/-- The actions on a name since its last deletion, the last first. -/
def sinceDeletion (l : List DnsAction) : List DnsAction := l.takeWhile (·.category != 0)

theorem category_ne_zero_of_mem_sinceDeletion {l : List DnsAction} {a : DnsAction} (h : a ∈ sinceDeletion l) :
    a.category ≠ 0 := by
  have := List.all_eq_true.1 List.all_takeWhile a h
  simpa using this

/-- A name is open with all its actions, or closed by its last deletion. -/
theorem Info.scan_cases (l : List DnsAction) :
    (l.foldl Info.scan {}).Open l ∧ sinceDeletion l = l ∨
      (l.foldl Info.scan {}).Closed (sinceDeletion l) ∧
        ∀ o, l.foldr DnsAction.onName o = (sinceDeletion l).foldr DnsAction.onName none := by
  have hopen := Info.open_scan fun a (ha : a ∈ sinceDeletion l) => category_ne_zero_of_mem_sinceDeletion ha
  have happend : sinceDeletion l ++ l.dropWhile (·.category != 0) = l := List.takeWhile_append_dropWhile
  cases hdrop : l.dropWhile (·.category != 0) with
  | nil =>
    rw [hdrop, List.append_nil] at happend
    rw [happend] at hopen
    exact .inl ⟨hopen, happend⟩
  | cons a rest =>
    have ha : a.category = 0 := by
      have := List.head?_dropWhile_not (·.category != 0) l
      rw [hdrop] at this
      simpa using this
    rw [hdrop] at happend
    have hclosed := hopen.close (fun b hb => category_ne_zero_of_mem_sinceDeletion hb) ha
    refine .inr ⟨?_, ?_⟩
    · rwa [← happend, List.foldl_append, List.foldl_cons, foldl_scan_of_closed hclosed.closed, happend]
    · intro o
      conv_lhs => rw [← happend]
      rw [List.foldr_append, List.foldr_cons, DnsAction.onName_zero ha]

end ManualDns

end TonWallet.SmcEnvelope
