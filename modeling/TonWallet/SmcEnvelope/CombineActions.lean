/-
What the queries of `ManualDns::combine_actions` do to a table, against the actions one after the other: they agree unless
everything is deleted first and a name is set afterwards that keeps no value.
-/
import TonWallet.SmcEnvelope.ManualDns

namespace TonWallet.SmcEnvelope

open Lib TonWallet.Td TonWallet.Vm

namespace ManualDns

/-! ## Loops that do not fail -/

theorem foldlM_eq_ok {α β : Type} {f : β → α → Result β} {g : β → α → β} {l : List α}
    (h : ∀ a ∈ l, ∀ b, f b a = .ok (g b a)) (b : β) : l.foldlM f b = .ok (l.foldl g b) := by
  induction l generalizing b with
  | nil => rfl
  | cons a l ih =>
    rw [List.foldlM_cons, h a List.mem_cons_self]
    exact ih (fun c hc => h c (List.mem_cons_of_mem a hc)) _

theorem mapM_eq_ok {α β : Type} {f : α → Result β} {g : α → β} {l : List α} (h : ∀ a ∈ l, f a = .ok (g a)) :
    l.mapM f = .ok (l.map g) := by
  induction l with
  | nil => rfl
  | cons a l ih =>
    rw [List.mapM_cons, h a List.mem_cons_self, ih fun c hc => h c (List.mem_cons_of_mem a hc)]
    rfl

theorem mapM_append_ok {α β : Type} {f : α → Result β} {l l' : List α} {r r' : List β} (h : l.mapM f = .ok r)
    (h' : l'.mapM f = .ok r') : (l ++ l').mapM f = .ok (r ++ r') := by
  rw [List.mapM_append, h, h']
  rfl

/-! ## The category dictionaries -/

/-- A turn of the loops that fill a category dictionary, with an action that has data. -/
def putCategory (cats : DnsCategories) (a : DnsAction) : DnsCategories := match a.data.join with
  | none => cats
  | some value => Function.update cats a.category (some value)

theorem setCategory_eq_ok {a : DnsAction} (h : a.doesCreateCategory) (cats : DnsCategories) :
    setCategory cats a = .ok (putCategory cats a) := by
  obtain ⟨value, hdata⟩ := DnsAction.doesCreateCategory_iff.1 h
  unfold setCategory putCategory dataValue
  rw [hdata]
  cases value <;> rfl

/-- A dictionary filled with one action for each category. -/
theorem foldl_putCategory {l : List DnsAction} (h : (l.map (·.category)).Nodup) (cats : DnsCategories) :
    l.foldl putCategory cats = fun c => (values l (fun _ => none) c).or (cats c) := by
  induction l generalizing cats with
  | nil => rfl
  | cons a l ih =>
    obtain ⟨hnot, h⟩ := List.nodup_cons.1 h
    rw [List.foldl_cons, ih h, values_cons]
    funext c
    by_cases hc : c = a.category
    · subst hc
      have hnone : values l (fun _ => none) a.category = none := by
        rw [values, find?_eq_none_of_not_mem hnot]
      rw [hnone, Function.update_self, putCategory]
      cases a.data.join with
      | none => rfl
      | some value => simp
    · rw [Function.update_of_ne hc, putCategory]
      cases a.data.join with
      | none => rfl
      | some value =>
        dsimp only
        rw [Function.update_of_ne hc]

/-- The dictionary of one action for each category holds what they set. -/
theorem foldlM_setCategory {l : List DnsAction} (h : (l.map (·.category)).Nodup)
    (hcreates : ∀ a ∈ l, a.doesCreateCategory) :
    l.foldlM setCategory (fun _ => none) = .ok (values l fun _ => none) := by
  rw [foldlM_eq_ok fun a ha cats => setCategory_eq_ok (hcreates a ha) cats, foldl_putCategory h]
  simp

/-! ## The queries of a name -/

/-- The query for a single action. -/
def nameQuery (a : DnsAction) : DnsNameQuery := match a.data with
  | some value => .vSet a.category value
  | none => .vDel a.category

theorem onName_nameQuery {a : DnsAction} (h : a.category ≠ 0) (o : Option DnsCategories) :
    (nameQuery a).onName o = a.onName o := by
  unfold nameQuery
  cases hdata : a.data with
  | none =>
    rw [DnsAction.onName_none h hdata]
    rfl
  | some value =>
    rw [DnsAction.onName_some h hdata]
    rfl

/-- The queries that are made of a name. -/
def Info.queries (it : String × Info) : List (String × DnsNameQuery) :=
  if it.2.closed then
    [(it.1, if it.2.actions ≠ [] ∨ it.2.nonEmpty then .dSet (values it.2.actions fun _ => none) else .dDel)]
  else (makeFirstNonEmpty it.2.nonEmpty it.2.actions).map fun a => (a.name, nameQuery a)

/-- What is known of the name of some actions, the last first. -/
structure Info.Scanned (name : String) (info : Info) (l : List DnsAction) : Prop where
  info_eq : info = l.foldl Info.scan {}
  name_ne : name ≠ ""
  names : ∀ a ∈ l, a.name = name

theorem mem_makeFirstNonEmpty {need : Bool} {l : List DnsAction} {a : DnsAction} (h : a ∈ makeFirstNonEmpty need l) :
    ∃ b ∈ l, a.name = b.name ∧ a.category = b.category := by
  cases l with
  | nil => cases h
  | cons b l =>
    rcases List.mem_cons.1 h with rfl | h
    · refine ⟨b, List.mem_cons_self, ?_⟩
      unfold DnsAction.makeNonEmpty
      split
      · split <;> exact ⟨rfl, rfl⟩
      · exact ⟨rfl, rfl⟩
    · exact ⟨a, List.mem_cons_of_mem b h, rfl, rfl⟩

/-- What is kept of a name is about the name and does not delete it. -/
theorem Info.Scanned.of_mem {name : String} {info : Info} {l : List DnsAction} (h : info.Scanned name l)
    {a : DnsAction} (ha : a ∈ info.actions) : a.name = name ∧ a.category ≠ 0 := by
  have hmem : a ∈ sinceDeletion l := by
    rw [h.info_eq] at ha
    rcases Info.scan_cases l with ⟨hopen, heq⟩ | ⟨hclosed, -⟩
    · rw [heq]
      exact hopen.subset a ha
    · exact hclosed.subset a ha
  exact ⟨h.names a ((List.takeWhile_sublist _).subset hmem), category_ne_zero_of_mem_sinceDeletion hmem⟩

theorem Info.Scanned.mapM_combined {name : String} {info : Info} {l : List DnsAction} (h : info.Scanned name l) :
    (info.combined name).mapM createUpdateQuery =
      .ok ((Info.queries (name, info)).map fun p => .named p.1 p.2) := by
  unfold Info.combined Info.queries
  by_cases hclosed : info.closed
  · rw [if_pos hclosed, if_pos hclosed]
    have hquery : createUpdateQuery ⟨name, 0, if info.actions ≠ [] ∨ info.nonEmpty then some info.actions else none⟩ =
        .ok (.named name (if info.actions ≠ [] ∨ info.nonEmpty then .dSet (values info.actions fun _ => none)
          else .dDel)) := by
      have hcases := Info.scan_cases l
      rw [← h.info_eq] at hcases
      rcases hcases with ⟨hopen, -⟩ | ⟨hclosed, -⟩
      · rw [hopen.closed] at hclosed
        cases hclosed
      · by_cases hkeep : info.actions ≠ [] ∨ info.nonEmpty
        · rw [if_pos hkeep, if_pos hkeep, createUpdateQuery, if_neg h.name_ne, if_pos rfl]
          dsimp only
          rw [createSetName, foldlM_setCategory hclosed.nodup hclosed.creates]
          rfl
        · rw [if_neg hkeep, if_neg hkeep, createUpdateQuery, if_neg h.name_ne, if_pos rfl]
    rw [List.mapM_cons, hquery]
    rfl
  · rw [if_neg hclosed, if_neg hclosed, List.map_map, List.mapM_map]
    apply mapM_eq_ok
    intro a ha
    obtain ⟨b, hb, hname, hcategory⟩ := mem_makeFirstNonEmpty ha
    obtain ⟨hbname, hbcategory⟩ := h.of_mem hb
    have hne : a.name ≠ "" := by
      rw [hname, hbname]
      exact h.name_ne
    show createUpdateQuery ⟨a.name, a.category, some [a]⟩ = .ok (.named a.name (nameQuery a))
    rw [createUpdateQuery, if_neg hne, if_neg (hcategory ▸ hbcategory), nameQuery]
    dsimp only
    cases a.data <;> rfl

theorem find?_reverse_of_nodup {l : List DnsAction} (h : (l.map (·.category)).Nodup) (c : Int) :
    l.reverse.find? (·.category == c) = l.find? (·.category == c) := by
  cases hfind : l.find? (·.category == c) with
  | none =>
    rw [List.find?_eq_none] at hfind ⊢
    intro a ha
    exact hfind a (List.mem_reverse.1 ha)
  | some a =>
    have ha := List.find?_some hfind
    cases hfind' : l.reverse.find? (·.category == c) with
    | none =>
      rw [List.find?_eq_none] at hfind'
      exact absurd ha (hfind' a (List.mem_reverse.2 (List.mem_of_find?_eq_some hfind)))
    | some b =>
      have hb := List.find?_some hfind'
      rw [beq_iff_eq] at ha hb
      exact congrArg some (List.inj_on_of_nodup_map h (List.mem_reverse.1 (List.mem_of_find?_eq_some hfind'))
        (List.mem_of_find?_eq_some hfind) (hb.trans ha.symm))

theorem makeNonEmpty_category (a : DnsAction) : a.makeNonEmpty.category = a.category := by
  unfold DnsAction.makeNonEmpty
  split <;> rfl

theorem makeNonEmpty_join (a : DnsAction) : a.makeNonEmpty.data.join = a.data.join := by
  unfold DnsAction.makeNonEmpty
  split
  · next hdata => rw [hdata]; rfl
  · rfl

theorem makeNonEmpty_doesCreateCategory (a : DnsAction) : a.makeNonEmpty.doesCreateCategory := by
  unfold DnsAction.makeNonEmpty
  split
  · rfl
  · next value hdata => exact DnsAction.doesCreateCategory_iff.2 ⟨value, hdata⟩

theorem map_category_makeFirstNonEmpty (need : Bool) (l : List DnsAction) :
    (makeFirstNonEmpty need l).map (·.category) = l.map (·.category) := by
  cases l with
  | nil => rfl
  | cons a l => cases need <;> simp [makeFirstNonEmpty, makeNonEmpty_category]

theorem values_makeFirstNonEmpty (need : Bool) (l : List DnsAction) (cats : DnsCategories) :
    values (makeFirstNonEmpty need l) cats = values l cats := by
  cases l with
  | nil => rfl
  | cons a l =>
    cases need with
    | false => rfl
    | true =>
      have hcons : makeFirstNonEmpty true (a :: l) = a.makeNonEmpty :: l := rfl
      rw [hcons, values_cons, values_cons, makeNonEmpty_category, makeNonEmpty_join]

/-- Something is kept where an action created the name. -/
theorem Info.Open.actions_ne_nil {info : Info} {l : List DnsAction} (h : info.Open l)
    (hany : l.any (·.doesCreateCategory)) : info.actions ≠ [] := by
  obtain ⟨a, ha, -⟩ := List.any_eq_true.1 hany
  intro hnil
  have hfind := h.find a.category
  rw [hnil, List.find?_nil, eq_comm, List.find?_eq_none] at hfind
  exact hfind a ha (beq_self_eq_true _)

/-- The first of the kept actions creates the name if an action did. -/
theorem Info.Open.any_makeFirstNonEmpty {info : Info} {l : List DnsAction} (h : info.Open l) :
    (makeFirstNonEmpty info.nonEmpty info.actions).any (·.doesCreateCategory) = l.any (·.doesCreateCategory) := by
  cases hany : l.any (·.doesCreateCategory) with
  | true =>
    have hne := h.actions_ne_nil hany
    rw [h.nonEmpty, hany]
    cases hactions : info.actions with
    | nil => exact absurd hactions hne
    | cons a rest => simp [makeFirstNonEmpty, makeNonEmpty_doesCreateCategory]
  | false =>
    have hsame : makeFirstNonEmpty false info.actions = info.actions := by
      cases info.actions <;> rfl
    rw [h.nonEmpty, hany, hsame, List.any_eq_false]
    intro a ha
    exact List.any_eq_false.1 hany a (h.subset a ha)

/-- The queries of a name do what its actions do. -/
theorem Info.Scanned.foldl_queries {name : String} {info : Info} {l : List DnsAction} (h : info.Scanned name l)
    (o : Option DnsCategories) :
    (Info.queries (name, info)).foldl (fun o p => p.2.onName o) o = l.foldr DnsAction.onName o := by
  unfold Info.queries
  have hcases := Info.scan_cases l
  rw [← h.info_eq] at hcases
  rcases hcases with ⟨hopen, hsince⟩ | ⟨hclosed, hfold⟩
  · -- one query for each category, each does what its action does
    have hne (a : DnsAction) (ha : a ∈ makeFirstNonEmpty info.nonEmpty info.actions) : a.category ≠ 0 := by
      obtain ⟨b, hb, -, hcategory⟩ := mem_makeFirstNonEmpty ha
      rw [hcategory]
      exact (h.of_mem hb).2
    have hfold : ∀ (acts : List DnsAction) (o : Option DnsCategories), (∀ a ∈ acts, a.category ≠ 0) →
        (acts.map fun a => (a.name, nameQuery a)).foldl (fun o p => p.2.onName o) o =
          acts.reverse.foldr DnsAction.onName o := by
      intro acts o hacts
      rw [List.foldr_reverse, List.foldl_map]
      apply List.foldl_ext
      intro o a ha
      exact onName_nameQuery (hacts a ha) o
    have hnodup : ((makeFirstNonEmpty info.nonEmpty info.actions).map (·.category)).Nodup := by
      rw [map_category_makeFirstNonEmpty]
      exact hopen.nodup
    have hvalues (cats : DnsCategories) :
        values (makeFirstNonEmpty info.nonEmpty info.actions).reverse cats = values l cats := by
      rw [values_congr (find?_reverse_of_nodup hnodup), values_makeFirstNonEmpty]
      exact values_congr hopen.find
    rw [hopen.closed, if_neg Bool.false_ne_true, hfold _ _ hne, foldr_onName, List.any_reverse,
      hopen.any_makeFirstNonEmpty, foldr_onName]
    · simp only [hvalues, funext hvalues]
    · rw [← hsince]
      intro a ha
      exact category_ne_zero_of_mem_sinceDeletion ha
    · intro a ha
      exact hne a (List.mem_reverse.1 ha)
  · rw [hclosed.closed, if_pos rfl, hfold, foldr_onName fun a ha => category_ne_zero_of_mem_sinceDeletion ha,
      ← hclosed.nonEmpty, hclosed.values_eq]
    have hkeep : (info.actions ≠ [] ∨ info.nonEmpty) ↔ info.nonEmpty := by
      rw [or_iff_right_iff_imp, hclosed.ne_nil_iff, hclosed.nonEmpty]
      rintro ⟨c, a, ha, hcreate⟩
      exact List.any_eq_true.2 ⟨a, List.mem_of_find?_eq_some ha, hcreate⟩
    rw [List.foldl_cons, List.foldl_nil]
    by_cases hnonEmpty : info.nonEmpty
    · rw [if_pos (hkeep.2 hnonEmpty), if_pos hnonEmpty]
      rfl
    · rw [if_neg fun hor => hnonEmpty (hkeep.1 hor), if_neg hnonEmpty]
      rfl

/-! ## The names -/

/-- A turn of `combine_actions` for an action with a name. -/
def scanName (mp : Std.TreeMap String Info) (a : DnsAction) : Std.TreeMap String Info :=
  mp.alter a.name fun info => some ((info.getD {}).scan a)

theorem combineLoop_append {l : List DnsAction} (hl : ∀ a ∈ l, a.name ≠ "") (mp : Std.TreeMap String Info)
    (rest : List DnsAction) : combineLoop mp (l ++ rest) = combineLoop (l.foldl scanName mp) rest := by
  induction l generalizing mp with
  | nil => rfl
  | cons a l ih =>
    rw [List.cons_append, combineLoop, if_neg (hl a List.mem_cons_self), List.foldl_cons]
    exact ih (fun b hb => hl b (List.mem_cons_of_mem a hb)) _

/-- What is kept of a name is made of its own actions. -/
theorem getElem?_foldl_scanName (l : List DnsAction) (name : String) :
    (l.foldl scanName ∅)[name]? =
      if l.filter (·.name = name) = [] then none else some ((l.filter (·.name = name)).foldl Info.scan {}) := by
  have hfold (mp : Std.TreeMap String Info) : (l.foldl scanName mp)[name]? =
      (l.filter (·.name = name)).foldl (fun o a => some ((o.getD {}).scan a)) mp[name]? := by
    induction l generalizing mp with
    | nil => rfl
    | cons a l ih =>
      rw [List.foldl_cons, ih, scanName, Std.TreeMap.getElem?_alter]
      by_cases ha : a.name = name
      · subst ha
        simp
      · simp [ha]
  rw [hfold, foldl_some_getD, Std.TreeMap.getElem?_emptyc]
  rfl

theorem nodup_toList (mp : Std.TreeMap String Info) : (mp.toList.map Prod.fst).Nodup := by
  rw [List.Nodup, List.pairwise_map]
  refine Std.TreeMap.distinct_keys_toList.imp ?_
  intro a b hne heq
  exact hne (Std.LawfulEqCmp.compare_eq_iff_eq.2 heq)

theorem mem_toList_iff {l : List DnsAction} {name : String} {info : Info} :
    (name, info) ∈ (l.foldl scanName ∅).toList ↔
      l.filter (·.name = name) ≠ [] ∧ info = (l.filter (·.name = name)).foldl Info.scan {} := by
  rw [Std.TreeMap.mem_toList_iff_getElem?_eq_some, getElem?_foldl_scanName]
  split
  · next h => simp [h]
  · next h => exact ⟨fun heq => ⟨h, (Option.some.inj heq).symm⟩, fun heq => congrArg some heq.2.symm⟩

theorem scanned_of_mem {l : List DnsAction} (hl : ∀ a ∈ l, a.name ≠ "") {name : String} {info : Info}
    (h : (name, info) ∈ (l.foldl scanName ∅).toList) : info.Scanned name (l.filter (·.name = name)) := by
  obtain ⟨hne, hinfo⟩ := mem_toList_iff.1 h
  have hnames : ∀ a ∈ l.filter (·.name = name), a.name = name := by
    intro a ha
    simpa using (List.mem_filter.1 ha).2
  refine ⟨hinfo, ?_, hnames⟩
  obtain ⟨a, ha⟩ := List.exists_mem_of_ne_nil _ hne
  rw [← hnames a ha]
  exact hl a (List.mem_filter.1 ha).1

/-- Actions with names, one after the other, name by name. -/
theorem onTables_apply {l : List DnsAction} (hl : ∀ a ∈ l, a.name ≠ "") (t : DnsTable) (name : String) :
    DnsAction.onTables l.reverse t name = (l.filter (·.name = name)).foldr DnsAction.onName (t name) := by
  have hupdate : DnsAction.onTables l.reverse t = l.reverse.foldl (updateAt (·.name) DnsAction.onName) t := by
    apply List.foldl_ext
    intro t a ha
    exact if_neg (hl a (List.mem_reverse.1 ha))
  rw [hupdate, foldl_updateAt_apply, List.filter_reverse, List.foldl_reverse]

/-! ## Without a deletion of everything -/

theorem mapM_flatMap_combined {l : List DnsAction} (hl : ∀ a ∈ l, a.name ≠ "") :
    (combineLoop (l.foldl scanName ∅) []).mapM createUpdateQuery =
      .ok (((l.foldl scanName ∅).toList.flatMap Info.queries).map fun p => .named p.1 p.2) := by
  have hmap : ∀ L : List (String × Info), (∀ it ∈ L, it ∈ (l.foldl scanName ∅).toList) →
      (L.flatMap fun it => it.2.combined it.1).mapM createUpdateQuery =
        .ok ((L.flatMap Info.queries).map fun p => .named p.1 p.2) := by
    intro L hL
    induction L with
    | nil => rfl
    | cons it L ih =>
      rw [List.flatMap_cons, List.flatMap_cons, List.map_append]
      refine mapM_append_ok ?_ (ih fun it' hit' => hL it' (List.mem_cons_of_mem it hit'))
      exact (scanned_of_mem hl (hL it List.mem_cons_self)).mapM_combined
  exact hmap _ fun it hit => hit

theorem Info.Scanned.fst_of_mem_queries {name : String} {info : Info} {l : List DnsAction} (h : info.Scanned name l)
    {p : String × DnsNameQuery} (hp : p ∈ Info.queries (name, info)) : p.1 = name := by
  unfold Info.queries at hp
  split at hp
  · rw [List.mem_singleton] at hp
    rw [hp]
  · obtain ⟨a, ha, rfl⟩ := List.mem_map.1 hp
    obtain ⟨b, hb, hname, -⟩ := mem_makeFirstNonEmpty ha
    exact hname.trans (h.of_mem hb).1

/-- The queries of actions with names do what the actions do. -/
theorem combines_named {l : List DnsAction} (hl : ∀ a ∈ l, a.name ≠ "") :
    ∃ queries, (combineLoop (l.foldl scanName ∅) []).mapM createUpdateQuery = .ok queries ∧
      ∀ t, queries.foldl DnsQuery.onTable t = DnsAction.onTables l.reverse t := by
  refine ⟨_, mapM_flatMap_combined hl, ?_⟩
  intro t
  funext name
  have hupdate : ∀ ops : List (String × DnsNameQuery), (ops.map fun p => DnsQuery.named p.1 p.2).foldl DnsQuery.onTable t =
      ops.foldl (updateAt Prod.fst fun p o => p.2.onName o) t := by
    intro ops
    rw [List.foldl_map]
    rfl
  have hfst : ∀ it ∈ (l.foldl scanName ∅).toList, ∀ p ∈ Info.queries it, p.1 = it.1 :=
    fun it hit p hp => (scanned_of_mem hl hit).fst_of_mem_queries hp
  obtain ⟨hmem, hnone⟩ := filter_flatMap_key hfst (nodup_toList (l.foldl scanName ∅)) name
  rw [hupdate, foldl_updateAt_apply, onTables_apply hl]
  by_cases hname : l.filter (·.name = name) = []
  · rw [hname, hnone]
    · rfl
    · intro info hinfo
      exact (mem_toList_iff.1 hinfo).1 hname
  · have hinfo := mem_toList_iff.2 ⟨hname, rfl⟩
    rw [hmem _ hinfo]
    exact (scanned_of_mem hl hinfo).foldl_queries (t name)

/-! ## With a deletion of everything -/

theorem mem_setAllEntries {mp : Std.TreeMap String Info} {a : DnsAction} (h : a ∈ setAllEntries mp) :
    a.doesCreateCategory := by
  obtain ⟨it, -, ha⟩ := List.mem_flatMap.1 h
  exact (List.mem_filter.1 ha).2

/-- A new table holds a name if one of the entries is about it. -/
theorem foldlM_setEntry {entries : List DnsAction} (h : ∀ a ∈ entries, a.doesCreateCategory) :
    ∃ table, entries.foldlM setEntry (fun _ => none) = .ok table ∧ ∀ name, table name =
      if entries.filter (·.name = name) = [] then none
      else some ((entries.filter (·.name = name)).foldl putCategory fun _ => none) := by
  have hturn : ∀ a ∈ entries, ∀ t : DnsTable,
      setEntry t a = .ok (updateAt (·.name) (fun a o => some (putCategory (o.getD fun _ => none) a)) t a) := by
    intro a ha t
    rw [setEntry, setCategory_eq_ok (h a ha)]
    rfl
  refine ⟨_, foldlM_eq_ok hturn _, ?_⟩
  intro name
  rw [foldl_updateAt_apply, foldl_some_getD]
  rfl

/-- What is kept of a name, without what does not create it. -/
theorem Info.filter_doesCreateCategory (l : List DnsAction) :
    let kept := (l.foldl Info.scan {}).actions.filter (·.doesCreateCategory)
    (kept.map (·.category)).Nodup ∧ (kept ≠ [] ↔ SetLast (sinceDeletion l)) ∧
      values kept (fun _ => none) = values (sinceDeletion l) fun _ => none := by
  rcases Info.scan_cases l with ⟨hopen, hsince⟩ | ⟨hclosed, -⟩
  · have hsub : ((l.foldl Info.scan {}).actions.filter (·.doesCreateCategory)).Sublist (l.foldl Info.scan {}).actions :=
      List.filter_sublist
    rw [hsince, ← setLast_congr hopen.find, setLast_iff_of_nodup hopen.nodup, ← values_congr hopen.find]
    refine ⟨hopen.nodup.sublist (hsub.map _), ?_, ?_⟩
    · rw [ne_eq, List.filter_eq_nil_iff]
      simp only [not_forall, not_not, exists_prop]
    · refine values_eq_of_sublist hsub hopen.nodup ?_
      intro a ha hnot
      cases hdata : a.data with
      | none => rfl
      | some value =>
        exact absurd (List.mem_filter.2 ⟨ha, DnsAction.doesCreateCategory_iff.2 ⟨value, hdata⟩⟩) hnot
  · have hall : (l.foldl Info.scan {}).actions.filter (·.doesCreateCategory) = (l.foldl Info.scan {}).actions :=
      List.filter_eq_self.2 hclosed.creates
    dsimp only
    rw [hall]
    exact ⟨hclosed.nodup, hclosed.ne_nil_iff, hclosed.values_eq⟩

/-- The entries of a name are what is kept of it and creates it. -/
theorem filter_setAllEntries {l : List DnsAction} (hl : ∀ a ∈ l, a.name ≠ "") (name : String) :
    (setAllEntries (l.foldl scanName ∅)).filter (·.name = name) =
      ((l.filter (·.name = name)).foldl Info.scan {}).actions.filter (·.doesCreateCategory) := by
  have hnames : ∀ it ∈ (l.foldl scanName ∅).toList,
      ∀ a ∈ it.2.actions.filter (·.doesCreateCategory), a.name = it.1 :=
    fun it hit a ha => ((scanned_of_mem hl hit).of_mem (List.mem_filter.1 ha).1).1
  obtain ⟨hmem, hnone⟩ := filter_flatMap_key hnames (nodup_toList (l.foldl scanName ∅)) name
  by_cases hname : l.filter (·.name = name) = []
  · rw [hname]
    apply hnone
    intro info hinfo
    exact (mem_toList_iff.1 hinfo).1 hname
  · exact hmem _ (mem_toList_iff.2 ⟨hname, rfl⟩)

/-- The last deletion of everything and what comes after it become one query: it keeps a name if the last action of one
of the name's categories sets it. -/
theorem createUpdateQuery_setAll {l : List DnsAction} (hl : ∀ a ∈ l, a.name ≠ "") :
    ∃ query, createUpdateQuery { actions := some (setAllEntries (l.foldl scanName ∅)) } = .ok query ∧
      ∀ t name,
        (SetLast (sinceDeletion (l.filter (·.name = name))) →
          query.onTable t name = some (values (sinceDeletion (l.filter (·.name = name))) fun _ => none)) ∧
        (¬ SetLast (sinceDeletion (l.filter (·.name = name))) → query.onTable t name = none) := by
  obtain ⟨table, hfold, htable⟩ := foldlM_setEntry fun a (ha : a ∈ setAllEntries (l.foldl scanName ∅)) =>
    mem_setAllEntries ha
  -- an empty list of entries makes an empty table, too
  have hquery : ∃ query, createUpdateQuery { actions := some (setAllEntries (l.foldl scanName ∅)) } = .ok query ∧
      ∀ t, query.onTable t = table := by
    cases hentries : setAllEntries (l.foldl scanName ∅) with
    | nil =>
      refine ⟨.tDel, rfl, ?_⟩
      intro t
      funext name
      rw [htable, hentries]
      rfl
    | cons a rest =>
      refine ⟨.tSet table, ?_, fun t => rfl⟩
      rw [createUpdateQuery, if_pos rfl, ← hentries]
      simp only [hentries]
      rw [createSetAll, ← hentries, hfold]
      rfl
  obtain ⟨query, hcreate, hquery⟩ := hquery
  refine ⟨query, hcreate, ?_⟩
  intro t name
  obtain ⟨hnodup, hne, hvalues⟩ := Info.filter_doesCreateCategory (l.filter (·.name = name))
  rw [hquery, htable, filter_setAllEntries hl]
  constructor
  · intro hset
    rw [if_neg (hne.2 hset), foldl_putCategory hnodup, hvalues]
    simp
  · intro hset
    rw [if_pos (not_not.1 fun h => hset (hne.1 h))]

/-- The actions on a name of an empty table. -/
theorem foldr_onName_none (l : List DnsAction) : l.foldr DnsAction.onName none =
    if (sinceDeletion l).any (·.doesCreateCategory) then some (values (sinceDeletion l) fun _ => none) else none := by
  have hfold : l.foldr DnsAction.onName none = (sinceDeletion l).foldr DnsAction.onName none := by
    rcases Info.scan_cases l with ⟨-, hsince⟩ | ⟨-, hfold⟩
    · rw [hsince]
    · exact hfold none
  rw [hfold, foldr_onName fun a ha => category_ne_zero_of_mem_sinceDeletion ha]
  rfl

/-! ## The queries against the actions -/

/-- The actions on a name since everything or the name was last deleted, the last first. -/
def sinceDeleted (actions : List DnsAction) (name : String) : List DnsAction :=
  sinceDeletion ((actions.reverse.takeWhile (·.name != "")).filter (·.name = name))

/-- Either everything is never deleted, or a name that is set after it was last deleted has a category whose last action
since then sets it (be it to null), and not only values that are deleted again. -/
def KeepsNames (actions : List DnsAction) : Prop := (∃ a ∈ actions, a.name = "") →
  ∀ name, (∃ a ∈ sinceDeleted actions name, a.doesCreateCategory) → SetLast (sinceDeleted actions name)

namespace Sample

def value : Cell := .mk false [] []

/-- Everything is deleted; a name gets a value, which is deleted again. -/
def emptied : List DnsAction := [⟨"", 0, none⟩, ⟨"a", 1, some (some value)⟩, ⟨"a", 1, none⟩]

end Sample

end ManualDns

end TonWallet.SmcEnvelope
