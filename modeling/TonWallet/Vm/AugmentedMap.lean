/-
What an augmented dictionary stores: the tree of a map from keys to values, with the extra of every edge, computed
anew wherever an operation has changed what is below it.
-/
import TonWallet.Vm.AugmentedDictionary
import TonWallet.Vm.DictionaryMap

namespace TonWallet.Vm.AugmentedDictionary

open Lib TonWallet.Td CellBuilder Dict DictionaryBase

variable {aug : AugmentationData}

/-- The extra of a tree. -/
def extraOf (aug : AugmentationData) : PrefixTree Slice → Option Slice
  | .leaf _ v => aug.evalLeaf v
  | .fork _ a b => (extraOf aug a).bind fun ea => (extraOf aug b).bind fun eb => aug.evalFork ea eb

/-- An augmented dictionary stores the extras in front of the values and behind the branches. -/
def layout (aug : AugmentationData) : Layout where
  leaf v := (aug.evalLeaf v).map fun e => e.append v
  fork a b := extraOf aug (.fork [] a b)

theorem skip_extraOf {t : PrefixTree Slice} {e : Slice} (h : extraOf aug t = some e) (rest : Slice) :
    aug.skipExtra (e.append rest) = some rest := by
  cases t with
  | leaf l v => exact aug.skip_evalLeaf h rest
  | fork l a b =>
    obtain ⟨ea, -, h⟩ := Option.bind_eq_some_iff.1 h
    obtain ⟨eb, -, h⟩ := Option.bind_eq_some_iff.1 h
    exact aug.skip_evalFork h rest

theorem accepts {a b : PrefixTree Slice} {e : Slice} (ca cb : Cell) (_ : (layout aug).fork a b = some e) :
    LabelMode.chkSize.Accepts ⟨e.bits, ca :: cb :: e.refs⟩ := by
  simp [LabelMode.Accepts]

variable [Digest]

/-- The extra at the root of a stored tree. -/
theorem getNodeExtra_store {t : PrefixTree Slice} {n : Nat} {c : Cell} (ht : t.Keyed n)
    (hs : store (layout aug) n t = some c) :
    ∃ e, extraOf aug t = some e ∧ getNodeExtra aug (some c) n = .ok (some e) := by
  obtain ⟨label, p, hlabel, hreads, hbelow⟩ := Dict.ofCell_store accepts ht hs
  unfold getNodeExtra
  dsimp only
  rw [hlabel]
  simp only [bind, Except.bind, hreads.payload_eq, hreads.lBits_eq]
  cases t with
  | leaf l v =>
    obtain ⟨e, he, rfl⟩ := Option.map_eq_some_iff.1 hbelow
    refine ⟨e, he, ?_⟩
    rw [if_pos (show (PrefixTree.leaf l v).label.length = n from ht), AugmentationData.extractExtra_append (aug.skip_evalLeaf he v)]
    rfl
  | fork l a b =>
    obtain ⟨ca, cb, e, -, -, he, rfl⟩ := below_fork_eq_some hbelow
    obtain ⟨m, hm, -, -⟩ := ht
    refine ⟨e, he, ?_⟩
    have hskip := skip_extraOf (show extraOf aug (.fork [] a b) = some e from he) Slice.empty
    rw [Slice.append_empty] at hskip
    rw [if_neg (by rw [PrefixTree.label]; omega), if_pos (by simp)]
    simp only [List.drop_succ_cons, List.drop_zero, hskip]
    rfl

/-! ## Operations follow the layout -/

/-- Extra and value are stored behind a label, unless they are too much for a cell. -/
theorem toOption_finishCreateLeaf (v : Slice) (bits : List Bool) :
    (finishCreateLeaf aug v ⟨bits, []⟩).toOption =
      ((layout aug).leaf v).bind fun p => cellOf ⟨bits ++ p.bits, p.refs⟩ := by
  show _ = ((aug.evalLeaf v).map fun e => e.append v).bind fun p => cellOf ⟨bits ++ p.bits, p.refs⟩
  unfold finishCreateLeaf
  cases aug.evalLeaf v with
  | none => rfl
  | some e =>
    rw [Option.bind_some, Option.map_some, Option.bind_some, Slice.append_bits, Slice.append_refs, ← List.append_assoc]
    rcases appendSliceBool_cases e ⟨bits, []⟩ with he | ⟨he, hlarge⟩
    · rw [he]
      refine Eq.trans ?_ (toOption_finishPayload "cannot store new value into an augmented dictionary cell" v
        ⟨bits ++ e.bits, e.refs⟩)
      unfold finishPayload
      dsimp only [List.nil_append]
      cases appendSliceBool v ⟨bits ++ e.bits, e.refs⟩ <;> rfl
    · rw [he]
      refine (cellOf_eq_none ?_).symm
      simp only [List.length_append, List.length_nil] at hlarge ⊢
      omega

theorem forkOps_implements : (forkOps aug).Implements (layout aug) where
  finishFork {a b ca cb m} bits ha hb hca hcb := by
    obtain ⟨ea, hea, hnodea⟩ := getNodeExtra_store ha hca
    obtain ⟨eb, heb, hnodeb⟩ := getNodeExtra_store hb hcb
    show (finishCreateFork aug ⟨bits, []⟩ (some ca) (some cb) (m + 1)).toOption = (extraOf aug (.fork [] a b)).bind _
    have hrefs : ((⟨bits, []⟩ : CellBuilder).storeRefBool (some ca)).bind (storeRefBool (some cb)) =
        some ⟨bits, [ca, cb]⟩ := rfl
    unfold finishCreateFork
    rw [hrefs]
    dsimp only
    rw [Nat.add_sub_cancel, hnodea, hnodeb, extraOf, hea, heb]
    simp only [bind, Except.bind, Option.bind_some]
    cases aug.evalFork ea eb with
    | none => rfl
    | some e =>
      rcases appendSliceBool_cases e ⟨bits, [ca, cb]⟩ with he | ⟨he, hlarge⟩
      · rw [Option.bind_some, he]
        exact toOption_finalize _
      · rw [Option.bind_some, he]
        refine (cellOf_eq_none ?_).symm
        simp only [List.length_append, List.length_cons, List.length_nil] at hlarge ⊢
        omega
  accepts ca cb he := accepts ca cb he

theorem setOps_implements (v : Slice) : (setOps aug v).Implements (layout aug) v where
  toImplements := forkOps_implements
  finishLeaf := toOption_finishCreateLeaf v

/-! ## What is stored is augmented -/

/-- The extra of an edge: every leaf's is that of its value, every fork's that of the extras of its branches. -/
inductive Augmented (aug : AugmentationData) : Nat → Cell → Slice → Prop
  | leaf {n : Nat} {c : Cell} {label : LabelParser} {e v : Slice}
      (hlabel : LabelParser.ofCell (some c) n .chkSize = .ok label) (hn : label.lBits = n)
      (hpayload : label.payload = e.append v) (he : aug.evalLeaf v = some e) : Augmented aug n c e
  | fork {n m : Nat} {c ca cb : Cell} {label : LabelParser} {ea eb e : Slice}
      (hlabel : LabelParser.ofCell (some c) n .chkSize = .ok label) (hn : label.lBits + 1 + m = n)
      (hpayload : label.payload = ⟨e.bits, ca :: cb :: e.refs⟩) (ha : Augmented aug m ca ea) (hb : Augmented aug m cb eb)
      (he : aug.evalFork ea eb = some e) : Augmented aug n c e

theorem augmented_store {t : PrefixTree Slice} {n : Nat} {c : Cell} (ht : t.Keyed n)
    (hs : store (layout aug) n t = some c) : ∃ e, extraOf aug t = some e ∧ Augmented aug n c e := by
  induction t generalizing n c with
  | leaf l v =>
    obtain ⟨label, p, hlabel, hreads, hbelow⟩ := Dict.ofCell_store accepts ht hs
    obtain ⟨e, he, rfl⟩ := Option.map_eq_some_iff.1 hbelow
    exact ⟨e, he, .leaf hlabel (hreads.lBits_eq.trans ht) hreads.payload_eq he⟩
  | fork l a b iha ihb =>
    obtain ⟨label, p, hlabel, hreads, hbelow⟩ := Dict.ofCell_store accepts ht hs
    obtain ⟨ca, cb, e, hca, hcb, he, rfl⟩ := below_fork_eq_some hbelow
    obtain ⟨m, hm, ha, hb⟩ := ht
    rw [PrefixTree.label, show n - l.length - 1 = m by omega] at hca hcb
    obtain ⟨ea, hea, haug⟩ := iha ha hca
    obtain ⟨eb, heb, hbug⟩ := ihb hb hcb
    have hfork : extraOf aug (.fork l a b) = aug.evalFork ea eb := by
      rw [extraOf, hea, heb]
      rfl
    have he : extraOf aug (.fork l a b) = some e := he
    refine ⟨e, he, .fork hlabel ?_ hreads.payload_eq haug hbug (hfork ▸ he)⟩
    rw [hreads.lBits_eq]
    exact hm

omit [Digest] in
/-- An extra that fits in a cell is what a new builder holds of it. -/
theorem computed_eq {e : Slice} (hbits : e.bits.length ≤ maxBits) (hrefs : e.refs.length ≤ maxRefs) :
    AugmentationData.computed (some e) = some e := by
  unfold AugmentationData.computed
  rw [Option.bind_some]
  rcases appendSliceBool_cases e {} with h | ⟨-, hlarge⟩
  · rw [h]
    rfl
  · simp only [List.length_nil] at hlarge
    omega

theorem checkLeaf_append {v e : Slice} (he : aug.evalLeaf v = some e) (hbits : e.bits.length ≤ maxBits)
    (hrefs : e.refs.length ≤ maxRefs) : checkLeaf aug (e.append v) = true := by
  have hskip := aug.skip_evalLeaf he v
  unfold checkLeaf AugmentationData.checkLeaf
  rw [hskip, AugmentationData.extractExtra_append hskip]
  dsimp only
  rw [he, computed_eq hbits hrefs]
  exact e.contentsEqual_self

/-- A stored leaf passes its check. -/
theorem checkLeaf_store {l : List Bool} {v p : Slice} {n : Nat} {c : Cell}
    (hs : store (layout aug) n (.leaf l v) = some c) (hp : (layout aug).leaf v = some p) : checkLeaf aug p = true := by
  obtain ⟨p', hp', hnode⟩ := store_eq_some hs
  cases hp.symm.trans hp'
  obtain ⟨e, he, rfl⟩ := Option.map_eq_some_iff.1 hp
  obtain ⟨-, hbits, hrefs, -⟩ := cellOf_eq_some hnode
  simp only [Slice.append_bits, Slice.append_refs, List.length_append] at hbits hrefs
  exact checkLeaf_append he (by omega) (by omega)

/-- A stored fork passes its check. -/
theorem checkFork_store {l : List Bool} {a b : PrefixTree Slice} {n m : Nat} {c ca cb : Cell} {e : Slice}
    (hs : store (layout aug) n (.fork l a b) = some c) (ha : a.Keyed m) (hb : b.Keyed m)
    (hp : below (layout aug) (n - l.length) (.fork l a b) = some ⟨e.bits, ca :: cb :: e.refs⟩)
    (hca : store (layout aug) m a = some ca) (hcb : store (layout aug) m b = some cb)
    (he : (layout aug).fork a b = some e) : checkFork aug e (some ca) (some cb) (m + 1) = .ok true := by
  obtain ⟨p', hp', hnode⟩ := store_eq_some hs
  cases hp.symm.trans hp'
  obtain ⟨-, hbits, hrefs, -⟩ := cellOf_eq_some hnode
  simp only [List.length_append, List.length_cons] at hbits hrefs
  obtain ⟨ea, hea, hnodea⟩ := getNodeExtra_store ha hca
  obtain ⟨eb, heb, hnodeb⟩ := getNodeExtra_store hb hcb
  have hfork : aug.evalFork ea eb = some e := by
    have he : extraOf aug (.fork l a b) = some e := he
    rw [extraOf, hea, heb] at he
    exact he
  unfold checkFork AugmentationData.checkFork
  rw [Nat.add_sub_cancel, hnodea, hnodeb]
  simp only [bind, Except.bind]
  rw [hfork, computed_eq (by omega) (by omega)]
  exact congrArg Except.ok e.contentsEqual_self

/-- The validation accepts a stored tree. -/
theorem dictValidateCheck_store {t : PrefixTree Slice} {n : Nat} {c : Cell} (ht : t.Keyed n)
    (hs : store (layout aug) n t = some c) : dictValidateCheck aug (some c) n = .ok true := by
  induction t generalizing n c with
  | leaf l v =>
    obtain ⟨label, p, hlabel, hreads, hbelow⟩ := Dict.ofCell_store accepts ht hs
    have hlen : ¬ label.lBits < n := by
      rw [hreads.lBits_eq]
      exact not_lt.2 (le_of_eq ht.symm)
    rw [dictValidateCheck, show (forkOps aug).labelMode = .chkSize from rfl, hlabel]
    simp only [bind, Except.bind, dif_neg hlen, hreads.payload_eq]
    rw [checkLeaf_store hs hbelow]
    rfl
  | fork l a b iha ihb =>
    obtain ⟨label, p, hlabel, hreads, hbelow⟩ := Dict.ofCell_store accepts ht hs
    obtain ⟨ca, cb, e, hca, hcb, he, rfl⟩ := below_fork_eq_some hbelow
    obtain ⟨m, hm, ha, hb⟩ := ht
    have hm' : n - l.length - 1 = m := by omega
    rw [PrefixTree.label, hm'] at hca hcb
    have hlen : label.lBits < n := by
      rw [hreads.lBits_eq, PrefixTree.label]
      omega
    rw [dictValidateCheck, show (forkOps aug).labelMode = .chkSize from rfl, hlabel]
    simp only [bind, Except.bind, dif_pos hlen, hreads.payload_eq, hreads.lBits_eq, PrefixTree.label, hm',
      List.getElem?_cons_zero, List.getElem?_cons_succ, List.drop_succ_cons, List.drop_zero]
    rw [checkFork_store hs ha hb hbelow hca hcb he]
    simp only [if_true]
    rw [iha ha hca]
    exact ihb hb hcb

/-! ## Operations -/

/-- The three setters, with what they are given to set. -/
inductive Setter
  | set (value : Slice)
  | setRef (valueRef : Option Cell)
  | setBuilder (value : CellBuilder)

/-- The value that a setter is to set; a null reference is refused. -/
def Setter.value : Setter → Option Slice
  | .set v => some v
  | .setRef ref => ref.map fun c => ⟨[], [c]⟩
  | .setBuilder cb => some ⟨cb.bits, cb.refs⟩

inductive Op
  | set (setter : Setter) (key : List Bool) (mode : SetMode)
  | lookupDelete (key : List Bool)
  | filter (checkLeaf : List Bool → Slice → Int)

inductive Reply
  | flag (b : Bool)
  | value (v : Option Slice)
  | changes (n : Int)

/-- A value is set in a map of keys of length `n`, and a flag returned; no value is refused. -/
def Assigns (n : Nat) (m : KeyMap Slice) (key : List Bool) (value : Option Slice) (mode : SetMode) (flag : Bool)
    (m' : KeyMap Slice) : Prop := match value with
  | some v => if key.length = n then flag = mode.allows (m key).isSome ∧ m' = m.set key v mode else flag = false ∧ m' = m
  | none => flag = false ∧ m' = m

/-- What an operation that returns does to a map of keys of length `n`, and its reply. -/
def Op.OnMap (aug : AugmentationData) (n : Nat) (m : KeyMap Slice) : Op → Reply → KeyMap Slice → Prop
  | .set setter key mode, r, m' => ∃ flag, r = .flag flag ∧ Assigns n m key setter.value mode flag m'
  | .lookupDelete key, r, m' => r = .value (m key) ∧ m' = m.delete key
  | .filter checkLeaf, r, m' => ∃ k, r = .changes k ∧ m.Filters ((layout aug).verdict checkLeaf) k m'

/-- An operation with its reply on a map: one that throws does nothing. -/
def MapStep (aug : AugmentationData) (n : Nat) (m : KeyMap Slice) (e : Op × Result Reply) (m' : KeyMap Slice) : Prop :=
  match e.2 with
  | .ok reply => e.1.OnMap aug n m reply m'
  | .error _ => m' = m

/-- The setters of an augmented dictionary. -/
def Setter.method (aug : AugmentationData) (key : List Bool) (mode : SetMode) : Setter → Method Bool
  | .set v => AugmentedDictionary.set aug key v mode
  | .setRef ref => AugmentedDictionary.setRef aug key ref mode
  | .setBuilder cb => AugmentedDictionary.setBuilder aug key cb mode

/-- The operations of an augmented dictionary. -/
def Op.method (aug : AugmentationData) : Op → Method Reply
  | .set setter key mode => return .flag (← setter.method aug key mode)
  | .lookupDelete key => return .value (← AugmentedDictionary.lookupDelete aug key)
  | .filter checkLeaf => return .changes (← DictionaryBase.filter (forkOps aug) checkLeaf)

/-- An operation with its reply on a dictionary. -/
def Step (aug : AugmentationData) (d : DictionaryBase) (e : Op × Result Reply) (d' : DictionaryBase) : Prop :=
  run (e.1.method aug) d = (e.2, d')

/-- Whether a search finds a key. -/
def has (aug : AugmentationData) (d : DictionaryBase) (key : List Bool) : Bool := match run (lookup aug key) d with
  | (.ok v, _) => v.isSome
  | (.error _, _) => false

/-- The mode of `set_ref` and `set_builder` is as good as `Set`: there is nothing to set, or the mode sets it. -/
def Op.ModeKept (aug : AugmentationData) (d : DictionaryBase) : Op → Prop
  | .set (.set _) _ _ => True
  | .set setter key mode => setter.value.isSome → key.length = d.keyBits → mode.allows (has aug d key) = true
  | .lookupDelete _ | .filter _ => True

variable {d d' : DictionaryBase} {m : KeyMap Slice}

omit [Digest] in
/-- Behind the extra of a leaf is the value. -/
theorem extractValue_leaf {o : Option Slice} (h : ∀ v ∈ o, ∃ p, (layout aug).leaf v = some p) :
    extractValue aug (o.bind (layout aug).leaf) = o := by
  cases o with
  | none => rfl
  | some v =>
    obtain ⟨p, hp⟩ := h v rfl
    obtain ⟨e, he, rfl⟩ := Option.map_eq_some_iff.1 hp
    show ((layout aug).leaf v).bind aug.skipExtra = some v
    rw [hp]
    exact aug.skip_evalLeaf he v

theorem lookup_stands (hm : d.Stands (layout aug) m) (key : List Bool) : run (lookup aug key) d = (.ok (m key), d) := by
  unfold lookup
  rw [run_bind, hm.lookup forkOps_implements key]
  simp only [run_pure, extractValue_leaf (hm.leaf key)]

theorem has_stands (hm : d.Stands (layout aug) m) (key : List Bool) : has aug d key = (m key).isSome := by
  rw [has, lookup_stands hm]

omit [Digest] in
/-- A mode that would set a key's value is as good as `Set`. -/
theorem Assigns.of_set {n : Nat} {key : List Bool} {v : Slice} {mode : SetMode} {flag : Bool} {m' : KeyMap Slice}
    (h : Assigns n m key (some v) .set flag m') (hmode : key.length = n → mode.allows (m key).isSome = true) :
    Assigns n m key (some v) mode flag m' := by
  unfold Assigns at h ⊢
  dsimp only at h ⊢
  by_cases hkey : key.length = n
  · rw [if_pos hkey] at h ⊢
    obtain ⟨rfl, rfl⟩ := h
    refine ⟨(hmode hkey).symm, ?_⟩
    rw [KeyMap.set, KeyMap.set, if_pos (hmode hkey)]
    exact if_pos rfl
  · rw [if_neg hkey] at h ⊢
    exact h

/-- A setter that returns does to the root what it does to the map; one that throws does nothing. -/
def Sets (aug : AugmentationData) (d : DictionaryBase) (m : KeyMap Slice) (key : List Bool) (value : Option Slice)
    (mode : SetMode) (r : Result Bool) (d' : DictionaryBase) : Prop :=
  d'.keyBits = d.keyBits ∧ ∃ m', d'.Stands (layout aug) m' ∧
    (∀ flag, r = .ok flag → Assigns d.keyBits m key value mode flag m') ∧ ∀ e, r = .error e → m' = m

theorem Sets.of_error {key : List Bool} {value : Option Slice} {mode : SetMode} (hm : d.Stands (layout aug) m)
    (e : Fail) : Sets aug d m key value mode (.error e) d :=
  ⟨rfl, m, hm, nofun, fun _ _ => rfl⟩

theorem run_set {key : List Bool} {v : Slice} {mode : SetMode} {r : Result Bool} (hm : d.Stands (layout aug) m)
    (h : run (AugmentedDictionary.set aug key v mode) d = (r, d')) : Sets aug d m key (some v) mode r d' := by
  rw [AugmentedDictionary.set, run_setBy, dictSet] at h
  by_cases hkey : key.length = d.keyBits
  · rw [if_neg (not_not.2 hkey)] at h
    cases hres : dictSetWith (setOps aug v) d.rootCell key mode with
    | error e =>
      rw [hres] at h
      cases h
      exact .of_error hm e
    | ok res =>
      rw [hres] at h
      obtain ⟨-, hflag, hstands⟩ := hm.insert (setOps_implements v) hkey hres
      cases h
      refine ⟨?_, _, hstands, ?_, nofun⟩
      · cases res.dict.isSome <;> rfl
      · rintro flag hok
        cases hok
        unfold Assigns
        dsimp only
        rw [if_pos hkey]
        exact ⟨hflag, rfl⟩
  · rw [if_pos hkey] at h
    cases h
    refine ⟨rfl, m, hm, ?_, nofun⟩
    rintro flag hok
    cases hok
    unfold Assigns
    dsimp only
    rw [if_neg hkey]
    exact ⟨rfl, rfl⟩

/-- A new cell is loaded as it was built. -/
theorem loaded_eq {cb : CellBuilder} {v : Slice} (h : loaded cb = .ok v) : v = ⟨cb.bits, cb.refs⟩ := by
  unfold loaded at h
  obtain ⟨c, hc, h⟩ := bind_ok h
  obtain ⟨cs, hcs, h⟩ := bind_ok h
  have hcell : cellOf ⟨cb.bits, cb.refs⟩ = some c := by
    rw [← toOption_finalize, hc]
    rfl
  obtain ⟨rfl, -⟩ := cellOf_eq_some hcell
  obtain ⟨-, rfl⟩ := loadCellSlice_ok hcs
  cases h
  rfl

/-- A setter that sets a new cell without the mode does as if it had handed the mode on, if the mode would set. -/
theorem run_loaded {built : Result CellBuilder} {cb : CellBuilder} (hbuilt : ∀ cb', built = .ok cb' → cb' = cb)
    {key : List Bool} {mode : SetMode} {r : Result Bool} (hm : d.Stands (layout aug) m)
    (hmode : key.length = d.keyBits → mode.allows (has aug d key) = true)
    (h : run (call (built >>= loaded) >>= fun value => AugmentedDictionary.set aug key value .set) d = (r, d')) :
    Sets aug d m key (some ⟨cb.bits, cb.refs⟩) mode r d' := by
  rw [run_bind, run_call] at h
  cases hvalue : built >>= loaded with
  | error e =>
    rw [hvalue] at h
    cases h
    exact .of_error hm e
  | ok v =>
    rw [hvalue] at h
    obtain ⟨cb', hcb, hloaded⟩ := bind_ok hvalue
    obtain rfl := hbuilt cb' hcb
    obtain rfl := loaded_eq hloaded
    obtain ⟨hbits, m', hm', hok, herror⟩ := run_set hm h
    rw [has_stands hm] at hmode
    exact ⟨hbits, m', hm', fun flag hr => (hok flag hr).of_set hmode, herror⟩

theorem run_setter {setter : Setter} {key : List Bool} {mode : SetMode} {r : Result Bool}
    (hm : d.Stands (layout aug) m) (hkept : (Op.set setter key mode).ModeKept aug d)
    (h : run (setter.method aug key mode) d = (r, d')) : Sets aug d m key setter.value mode r d' := by
  cases setter with
  | set v => exact run_set hm h
  | setRef ref =>
    cases ref with
    | none =>
      cases h
      refine ⟨rfl, m, hm, ?_, nofun⟩
      rintro flag hok
      cases hok
      exact ⟨rfl, rfl⟩
    | some c =>
      have hbuilt : ∀ cb, storeRef (some c) {} = .ok cb → cb = ⟨[], [c]⟩ := by
        rintro cb hcb
        cases hcb
        rfl
      exact run_loaded hbuilt hm (hkept rfl) h
  | setBuilder cb =>
    have hbuilt : ∀ cb', (.ok cb : Result CellBuilder) = .ok cb' → cb' = cb := by
      rintro cb' hcb
      cases hcb
      rfl
    exact run_loaded hbuilt hm (hkept rfl) h

/-- What an operation does to the root it does to the map, unless it drops a mode. -/
theorem Step.onMap {op : Op} {r : Result Reply} (h : Step aug d (op, r) d') (hkept : op.ModeKept aug d)
    (hm : d.Stands (layout aug) m) :
    d'.keyBits = d.keyBits ∧ ∃ m', MapStep aug d.keyBits m (op, r) m' ∧ d'.Stands (layout aug) m' := by
  unfold Step at h
  cases op with
  | set setter key mode =>
    simp only [Op.method, run_bind] at h
    rcases hres : run (setter.method aug key mode) d with ⟨res, d''⟩
    rw [hres] at h
    obtain ⟨hbits, m', hm', hok, herror⟩ := run_setter hm hkept hres
    cases res with
    | error e =>
      cases h
      exact ⟨hbits, m', herror e rfl, hm'⟩
    | ok flag =>
      cases h
      exact ⟨hbits, m', ⟨flag, rfl, hok flag rfl⟩, hm'⟩
  | lookupDelete key =>
    simp only [Op.method, AugmentedDictionary.lookupDelete, run_bind, run_lookupDelete] at h
    by_cases hkey : key.length = d.keyBits
    · rw [if_neg (not_not.2 hkey)] at h
      cases hres : dictLookupDelete (forkOps aug) d.rootCell key with
      | error e =>
        rw [hres] at h
        cases h
        exact ⟨rfl, m, rfl, hm⟩
      | ok res =>
        rw [hres] at h
        obtain ⟨hold, hstands⟩ := hm.erase forkOps_implements hkey hres
        cases h
        refine ⟨?_, _, ⟨?_, rfl⟩, hstands⟩
        · cases res.1.isSome <;> rfl
        · rw [hold, extractValue_leaf (hm.leaf key)]
    · rw [if_pos hkey] at h
      cases h
      have hnone := hm.eq_none hkey
      refine ⟨rfl, m, ⟨by rw [hnone]; rfl, ?_⟩, hm⟩
      rw [KeyMap.delete, ← hnone, Function.update_eq_self]
  | filter checkLeaf =>
    simp only [Op.method, run_bind, run_filter] at h
    cases hres : dictFilter (forkOps aug) checkLeaf d.rootCell [] d.keyBits none with
    | error e =>
      rw [hres] at h
      cases h
      exact ⟨rfl, m, rfl, hm⟩
    | ok res =>
      obtain ⟨res, skip⟩ := res
      rw [hres] at h
      obtain ⟨m', hfilters, hstands⟩ := hm.filter forkOps_implements hres
      cases h
      refine ⟨?_, m', ⟨res.changes, rfl, hfilters⟩, hstands⟩
      by_cases hchanged : 0 < res.changes
      · rw [if_pos hchanged]
        rfl
      · rw [if_neg hchanged]

/-! ## Runs -/

/-- A step that drops no mode. -/
def KeptStep (aug : AugmentationData) (d : DictionaryBase) (e : Op × Result Reply) (d' : DictionaryBase) : Prop :=
  e.1.ModeKept aug d ∧ Step aug d e d'

/-- The dictionary holds the map, every extra in it is the one that the augmentation computes, and it is valid. -/
structure Holds (aug : AugmentationData) (d : DictionaryBase) (m : KeyMap Slice) : Prop where
  lookup : ∀ key, run (AugmentedDictionary.lookup aug key) d = (.ok (m key), d)
  extras : ∀ c, d.rootCell = some c →
    ∃ e, Augmented aug d.keyBits c e ∧ run (getRootExtra aug) d = (.ok (some e), d)
  empty : d.rootCell = none → ∀ e, (run (getRootExtra aug) d).1 = .ok e → e = AugmentationData.computed aug.evalEmpty
  valid : run (validateAll aug) d = (.ok true, d)

theorem run_getRootExtra (d : DictionaryBase) :
    run (getRootExtra aug) d = (getNodeExtra aug d.rootCell d.keyBits, d) := by
  rw [getRootExtra, run_bind, run_get]
  rfl

theorem run_validateAll (d : DictionaryBase) :
    run (validateAll aug) d = (dictValidateCheck aug d.rootCell d.keyBits, d) := by
  rw [validateAll, run_bind, run_get]
  rfl

/-- The extra of the empty dictionary is the empty one. -/
theorem getNodeExtra_none {n : Nat} {e : Option Slice} (h : getNodeExtra aug none n = .ok e) :
    e = AugmentationData.computed aug.evalEmpty := by
  unfold getNodeExtra AugmentationData.computed at *
  dsimp only at h
  cases hcb : aug.evalEmpty.bind fun e => appendSliceBool e {} with
  | none =>
    rw [hcb] at h
    cases h
    rfl
  | some cb =>
    rw [hcb] at h
    obtain ⟨c, -, h⟩ := bind_ok h
    cases h
    rfl

theorem holds_of_stands (hm : d.Stands (layout aug) m) : Holds aug d m := by
  refine ⟨lookup_stands hm, ?_, ?_, ?_⟩
  · intro c hc
    obtain ⟨t, hkeyed, hroot, -⟩ := hm
    rw [hc] at hroot
    cases t with
    | none => cases hroot
    | some t =>
      obtain ⟨c', hc', hsome⟩ := store?_some hroot
      cases hsome
      have ht := hkeyed t rfl
      obtain ⟨e, he, haug⟩ := augmented_store ht hc'
      obtain ⟨e', he', hnode⟩ := getNodeExtra_store ht hc'
      cases he.symm.trans he'
      refine ⟨e, haug, ?_⟩
      rw [run_getRootExtra, hc, hnode]
  · intro hnone e he
    rw [run_getRootExtra, hnone] at he
    exact getNodeExtra_none (n := d.keyBits) he
  · obtain ⟨t, hkeyed, hroot, -⟩ := hm
    rw [run_validateAll]
    cases t with
    | none =>
      have hnone : d.rootCell = none := (Option.some.inj hroot).symm
      rw [hnone, dictValidateCheck]
    | some t =>
      obtain ⟨c, hc, hsome⟩ := store?_some hroot
      rw [hsome, dictValidateCheck_store (hkeyed t rfl) hc]

theorem stands_of_run {n : Nat} (hn : n ≤ maxKeyBits) {es : List (Op × Result Reply)}
    (h : Run (KeptStep aug) ⟨n, none, hn⟩ es d) :
    d.keyBits = n ∧ ∃ m, Run (MapStep aug n) KeyMap.empty es m ∧ d.Stands (layout aug) m := by
  induction h with
  | nil => exact ⟨rfl, KeyMap.empty, .nil, stands_empty hn⟩
  | snoc _ hstep ih =>
    obtain ⟨hbits, m, hrun, hm⟩ := ih
    obtain ⟨hbits', m', hmap, hm'⟩ := Step.onMap hstep.2 hstep.1 hm
    exact ⟨hbits'.trans hbits, m', .snoc hrun (hbits ▸ hmap), hm'⟩

/-- While no setter drops a mode that would not set, an augmented dictionary is a finite map with all its extras. -/
theorem holds_of_run {n : Nat} (hn : n ≤ maxKeyBits) {es : List (Op × Result Reply)}
    (h : Run (KeptStep aug) ⟨n, none, hn⟩ es d) :
    ∃ m, Run (MapStep aug n) KeyMap.empty es m ∧ Holds aug d m := by
  obtain ⟨-, m, hrun, hm⟩ := stands_of_run hn h
  exact ⟨m, hrun, holds_of_stands hm⟩

namespace Sample

abbrev digest : Digest := Dictionary.Sample.digest

def skip (s : Slice) : Option Slice := match s.bits with
  | _ :: bits => some ⟨bits, s.refs⟩
  | [] => none

/-- One bit counts the leaves, modulo two. -/
def parity : AugmentationData where
  skipExtra := skip
  evalLeaf _ := some ⟨[true], []⟩
  evalFork a b := some ⟨[a.bits.headD false ^^ b.bits.headD false], []⟩
  evalEmpty := some ⟨[false], []⟩
  skip_evalLeaf {v e} he rest := by
    cases he
    rfl
  skip_evalFork {a b e} he rest := by
    cases he
    rfl

def empty : DictionaryBase := Dictionary.Sample.empty

/-- A value is set, and a reference added at another key and at the same key. -/
def first : Op := .set (.set ⟨[true], []⟩) [true, false] .set
def other : Op := .set (.setRef (some (.mk false [] []))) [false, true] .add
def again : Op := .set (.setRef (some (.mk false [] []))) [true, false] .add

def afterFirst : Result Reply × DictionaryBase := run (@Op.method digest parity first) empty
def afterOther : Result Reply × DictionaryBase := run (@Op.method digest parity other) afterFirst.2
def afterAgain : Result Reply × DictionaryBase := run (@Op.method digest parity again) afterFirst.2

omit [Digest] in
theorem holds_after_other : ∃ m, Run (MapStep parity 2) KeyMap.empty [(first, afterFirst.1), (other, afterOther.1)] m ∧
    @Holds digest parity afterOther.2 m := by
  have hadd : @has digest parity afterFirst.2 [false, true] = false := by decide +kernel
  have h : Run (@KeptStep digest parity) empty [(first, afterFirst.1), (other, afterOther.1)] afterOther.2 := by
    refine .snoc (.snoc .nil ⟨trivial, rfl⟩) ⟨?_, rfl⟩
    intro _ _
    rw [hadd]
    rfl
  exact @holds_of_run parity digest _ 2 (by decide) _ h

/-- The flag of a reply. -/
def flagOf : Result Reply → Option Bool
  | .ok (.flag flag) => some flag
  | _ => none

omit [Digest] in
theorem eq_of_flagOf {r : Result Reply} {flag : Bool} (h : flagOf r = some flag) : r = .ok (.flag flag) := by
  unfold flagOf at h
  split at h
  · cases h
    rfl
  · cases h

omit [Digest] in
/-- A reference is added to a key that has a value, and overwrites it. -/
theorem not_map_after_again : ¬ ∀ (_ : Digest) (aug : AugmentationData) (n : Nat) (hn : n ≤ maxKeyBits)
    (es : List (Op × Result Reply)) (d : DictionaryBase), Run (Step aug) ⟨n, none, hn⟩ es d →
      ∃ m, Run (MapStep aug n) KeyMap.empty es m ∧ Holds aug d m := by
  intro hclaim
  have h : Run (@Step digest parity) empty ([(first, afterFirst.1)] ++ [(again, afterAgain.1)]) afterAgain.2 :=
    .snoc (.single rfl) rfl
  obtain ⟨m, hrun, -⟩ := hclaim digest parity 2 (by decide) _ _ h
  rw [eq_of_flagOf (show flagOf afterFirst.1 = some true by decide +kernel),
    eq_of_flagOf (show flagOf afterAgain.1 = some true by decide +kernel)] at hrun
  obtain ⟨m₁, hrun₁, flag, hreply, hassigns⟩ := Run.snoc_inv hrun
  obtain ⟨m₀, -, flag₀, -, hassigns₀⟩ := Run.snoc_inv (show Run _ _ ([] ++ [_]) _ from hrun₁)
  -- the key has a value, so nothing could be added
  have hsome : (m₁ [true, false]).isSome = true := by
    rw [hassigns₀.2]
    rfl
  have hflag : flag = !(m₁ [true, false]).isSome := hassigns.1
  cases hreply
  rw [hsome] at hflag
  cases hflag

end Sample

end TonWallet.Vm.AugmentedDictionary
