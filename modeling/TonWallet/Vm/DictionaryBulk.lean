/-
`cut_prefix_subdict`, `filter` and `map`: a dictionary becomes that of another map. Labels that are made are in the
shortest form, so a dictionary that the dictionary code has made stays the only one of its map.
-/
import TonWallet.Vm.Dict.Rebuild
import TonWallet.Vm.DictionaryCombine

namespace TonWallet.Vm

open Lib TonWallet.Td CellBuilder Dict

/-! ## Maps -/

/-- The entries whose keys start with a prefix, under their keys or under what follows the prefix. -/
def KeyMap.under {α : Type} (m : KeyMap α) (pfx : List Bool) (removePrefix : Bool) : KeyMap α := fun k =>
  if removePrefix then m (pfx ++ k) else if pfx <+: k then m k else none

theorem KeyMap.under_get? (t : Option (PrefixTree Slice)) (pfx : List Bool) (removePrefix : Bool) (k : List Bool) :
    PrefixTree.get? ((t.bind (·.cut pfx)).map (Dict.under pfx removePrefix)) k =
      KeyMap.under (PrefixTree.get? t) pfx removePrefix k := by
  unfold KeyMap.under
  cases t with
  | none =>
    show none = if removePrefix then none else if pfx <+: k then none else none
    rw [ite_self, ite_self]
  | some t =>
    cases removePrefix with
    | true =>
      rw [if_pos rfl, PrefixTree.get?_some, ← PrefixTree.get?_cut]
      exact congrArg (PrefixTree.get? · k) Option.map_id'
    | false =>
      rw [if_neg Bool.false_ne_true, PrefixTree.get?_some, ← PrefixTree.get?_map_prepend_cut]
      rfl

/-! ## The part under a prefix -/

section Under

variable [Digest] {ops : ForkOps} {L : Layout} {R : Nat → PrefixTree Slice → Cell → Prop}
  {B : Nat → Slice → PrefixTree Slice → Prop} (h : Represents ops L R B) {n : Nat} {t : Option (PrefixTree Slice)}
  {root : Option Cell} {pfx : List Bool} {removePrefix : Bool}

omit [Digest] in
theorem keyed_under {s : PrefixTree Slice} (hlen : pfx.length ≤ n) (hs : s.Keyed (n - pfx.length)) :
    (under pfx removePrefix s).Keyed (bitsUnder n pfx removePrefix) := by
  cases removePrefix with
  | true => exact hs
  | false =>
    have hkeyed := hs.prepend pfx
    rwa [Nat.add_sub_cancel' hlen] at hkeyed

include h

/-- What is extracted stands under the new root, unless the edge that the prefix ends on cannot be made anew. -/
theorem extractPrefix_root (hroot : Root R n t root) (hle : removePrefix = true → pfx.length ≤ n) :
    (∃ res, extractPrefixSubdictInternal ops.labelMode n pfx removePrefix root = .ok res ∧
      Root R (bitsUnder n pfx removePrefix) ((t.bind (·.cut pfx)).map (under pfx removePrefix)) (if res.2 then res.1 else root)) ∨
      ∃ e s p, extractPrefixSubdictInternal ops.labelMode n pfx removePrefix root = .error e ∧
        (t.bind (·.cut pfx)).map (under pfx removePrefix) = some s ∧ s.Keyed (bitsUnder n pfx removePrefix) ∧
        B (bitsUnder n pfx removePrefix - s.label.length) p s ∧ node s.label (bitsUnder n pfx removePrefix) p = none := by
  unfold extractPrefixSubdictInternal
  cases t with
  | none =>
    obtain rfl : root = none := hroot
    exact .inl ⟨(none, false), if_pos (.inl rfl), rfl⟩
  | some t =>
    obtain ⟨c, rfl, hc⟩ := hroot
    by_cases hnil : pfx = []
    · subst hnil
      have hwhole : (some t).bind (·.cut []) = some t := by
        rw [Option.bind_some, PrefixTree.cut_label [] t.label rfl]
        cases t <;> rfl
      refine .inl ⟨(none, false), if_pos (.inr rfl), ?_⟩
      rw [hwhole]
      cases removePrefix with
      | true => exact ⟨c, rfl, hc⟩
      | false => exact ⟨c, rfl, by rwa [under, if_neg Bool.false_ne_true, PrefixTree.prepend_nil]⟩
    · rw [if_neg (by simp [hnil])]
      rw [Option.bind_some]
      by_cases hlong : n < pfx.length
      · rw [if_pos hlong]
        refine .inl ⟨(none, true), rfl, ?_⟩
        cases hcut : t.cut pfx with
        | none => rfl
        | some s =>
          have hshort := ((h.keyed hc).cut hcut).1
          omega
      · rw [if_neg hlong]
        have hextracted : Extracted B n pfx removePrefix t 0 (extractPrefix ops.labelMode n pfx removePrefix (some c) 0) :=
          extractPrefix_extracted h (Nat.zero_le _) (Nat.not_lt.1 hlong) hc
        cases hextracted with
        | gone hcut hr =>
          rw [List.drop_zero] at hcut
          exact .inl ⟨_, hr, by rw [hcut]; rfl⟩
        | same hcut _ ht hremove hr =>
          rw [List.drop_zero] at hcut
          refine .inl ⟨_, hr, ?_⟩
          rw [hcut, Option.map_some, ← ht, bitsUnder, hremove]
          exact ⟨c, rfl, hc⟩
        | @made s p hcut hb hr =>
          rw [List.drop_zero] at hcut
          have hkeyed : (under pfx removePrefix s).Keyed (bitsUnder n pfx removePrefix) :=
            keyed_under (Nat.not_lt.1 hlong) ((h.keyed hc).cut hcut).2
          have hbelow : B (bitsUnder n pfx removePrefix - (under pfx removePrefix s).label.length) p
              (under pfx removePrefix s) := by
            cases removePrefix with
            | true => exact hb
            | false =>
              rw [under, if_neg Bool.false_ne_true, PrefixTree.label_prepend, List.length_append, bitsUnder,
                if_neg Bool.false_ne_true, ← Nat.sub_sub]
              exact h.withLabel _ hb
          rw [hcut, Option.map_some]
          cases hres : extractPrefix ops.labelMode n pfx removePrefix (some c) 0 with
          | error e =>
            rw [hres] at hr
            exact .inr ⟨e, _, p, rfl, rfl, hkeyed, hbelow, Option.map_eq_none_iff.1 hr.symm⟩
          | ok res =>
            rw [hres] at hr
            obtain ⟨c', hc', hsome⟩ := Option.map_eq_some_iff.1 hr.symm
            refine .inl ⟨res, rfl, ?_⟩
            rw [← hsome]
            exact ⟨c', rfl, h.node hkeyed hbelow hc'⟩

end Under

/-! ## Operations -/

namespace DictionaryBase

variable [Digest]

/-- `cut_prefix_subdict`. -/
def cutPrefixSubdict (mode : LabelMode) (pfx : List Bool) (prefixLen : Int) (removePrefix : Bool) : Method Bool := do
  let d ← get
  if prefixLen < 0 then return false
  else if d.keyBits < prefixLen ∧ removePrefix then return false
  else
    let res ← call (extractPrefixSubdictInternal mode d.keyBits (pfx.take prefixLen.toNat) removePrefix d.rootCell)
    let d := if removePrefix then { d with keyBits := d.keyBits - prefixLen.toNat
                                           keyBits_le := (Nat.sub_le _ _).trans d.keyBits_le } else d
    set (if res.2 then d.setRootCell res.1 else d)
    return true

/-- The dictionary of what is under a prefix, before its root is set. -/
def cutKeys (d : DictionaryBase) (pfx : List Bool) (removePrefix : Bool) : DictionaryBase :=
  ⟨bitsUnder d.keyBits pfx removePrefix, d.rootCell, by
    unfold bitsUnder
    split
    · exact (Nat.sub_le _ _).trans d.keyBits_le
    · exact d.keyBits_le⟩

theorem run_cutPrefixSubdict (mode : LabelMode) {pfx : List Bool} {prefixLen : Int} (hlen : prefixLen ≤ pfx.length)
    (removePrefix : Bool) (d : DictionaryBase) :
    run (cutPrefixSubdict mode pfx prefixLen removePrefix) d =
      if prefixLen < 0 ∨ d.keyBits < prefixLen ∧ removePrefix then (.ok false, d)
      else match extractPrefixSubdictInternal mode d.keyBits (pfx.take prefixLen.toNat) removePrefix d.rootCell with
        | .error e => (.error e, d)
        | .ok res => (.ok true, if res.2 then (d.cutKeys (pfx.take prefixLen.toNat) removePrefix).setRootCell res.1
            else d.cutKeys (pfx.take prefixLen.toNat) removePrefix) := by
  have hkeys : (if removePrefix then { d with keyBits := d.keyBits - prefixLen.toNat
                                              keyBits_le := (Nat.sub_le _ _).trans d.keyBits_le } else d) =
      d.cutKeys (pfx.take prefixLen.toNat) removePrefix := by
    have htake : (pfx.take prefixLen.toNat).length = prefixLen.toNat := by
      rw [List.length_take]
      omega
    cases removePrefix with
    | true => simp only [cutKeys, bitsUnder, if_true, htake]
    | false => rfl
  unfold cutPrefixSubdict
  rw [run_bind, run_get]
  by_cases hneg : prefixLen < 0
  · simp only [if_pos hneg, if_pos (Or.inl (b := (d.keyBits : Int) < prefixLen ∧ removePrefix) hneg), run_pure]
  · by_cases hlong : (d.keyBits : Int) < prefixLen ∧ removePrefix
    · simp only [if_neg hneg, if_pos hlong, if_pos (Or.inr (a := prefixLen < 0) hlong), run_pure]
    · simp only [if_neg hneg, if_neg hlong, if_neg (not_or.2 ⟨hneg, hlong⟩), run_bind, run_call, hkeys]
      cases extractPrefixSubdictInternal mode d.keyBits (pfx.take prefixLen.toNat) removePrefix d.rootCell <;> rfl

/-- Cutting does nothing, or what is under the prefix stands under the new root, or the edge that the prefix ends on cannot
be made anew. -/
theorem run_cut_cases {ops : ForkOps} {L : Layout} {R : Nat → PrefixTree Slice → Cell → Prop}
    {B : Nat → Slice → PrefixTree Slice → Prop} (h : Represents ops L R B) {d : DictionaryBase} {t : Option (PrefixTree Slice)}
    (hroot : Root R d.keyBits t d.rootCell) {bits pfx : List Bool} {prefixLen : Int} (hlen : prefixLen ≤ bits.length)
    (hpfx : bits.take prefixLen.toNat = pfx) (removePrefix : Bool) :
    ((prefixLen < 0 ∨ d.keyBits < prefixLen ∧ removePrefix) ∧
        run (cutPrefixSubdict ops.labelMode bits prefixLen removePrefix) d = (.ok false, d)) ∨
      ¬ (prefixLen < 0 ∨ d.keyBits < prefixLen ∧ removePrefix) ∧
        ((∃ d', run (cutPrefixSubdict ops.labelMode bits prefixLen removePrefix) d = (.ok true, d') ∧
            d'.keyBits = bitsUnder d.keyBits pfx removePrefix ∧
            Root R d'.keyBits ((t.bind (·.cut pfx)).map (under pfx removePrefix)) d'.rootCell) ∨
          ∃ e s p, run (cutPrefixSubdict ops.labelMode bits prefixLen removePrefix) d = (.error e, d) ∧
            (t.bind (·.cut pfx)).map (under pfx removePrefix) = some s ∧ s.Keyed (bitsUnder d.keyBits pfx removePrefix) ∧
            B (bitsUnder d.keyBits pfx removePrefix - s.label.length) p s ∧
            node s.label (bitsUnder d.keyBits pfx removePrefix) p = none) := by
  rw [run_cutPrefixSubdict _ hlen, hpfx]
  by_cases hrefused : prefixLen < 0 ∨ d.keyBits < prefixLen ∧ removePrefix
  · exact .inl ⟨hrefused, if_pos hrefused⟩
  · rw [if_neg hrefused]
    have hle : removePrefix = true → pfx.length ≤ d.keyBits := by
      intro hremove
      rw [not_or, not_and] at hrefused
      have hshort : ¬ (d.keyBits : Int) < prefixLen := fun hlong => hrefused.2 hlong hremove
      rw [← hpfx, List.length_take]
      omega
    rcases extractPrefix_root h hroot hle with ⟨res, hres, hroot'⟩ | ⟨e, s, p, hres, hrest⟩
    · refine .inr ⟨hrefused, .inl ⟨_, by rw [hres], ?_⟩⟩
      cases hset : res.2 <;> rw [hset] at hroot' <;> exact ⟨rfl, hroot'⟩
    · exact .inr ⟨hrefused, .inr ⟨e, s, p, by rw [hres], hrest⟩⟩

end DictionaryBase

namespace Dictionary

open DictionaryBase

variable [Digest]

/-- `map`. -/
def map (mapFunc : MapFunc) : Method Unit := do
  let d ← get
  let res ← call (dictMap mapFunc d.rootCell [] d.keyBits)
  MonadStateOf.set (d.setRootCell res)

theorem run_map (mapFunc : MapFunc) (d : DictionaryBase) :
    run (map mapFunc) d = match dictMap mapFunc d.rootCell [] d.keyBits with
      | .error e => (.error e, d)
      | .ok res => (.ok (), d.setRootCell res) := by
  unfold map
  rw [run_bind, run_get]
  simp only [run_bind, run_call]
  cases dictMap mapFunc d.rootCell [] d.keyBits <;> rfl

/-- Entries are set one after the other. -/
def setAll : List (List Bool × Slice) → Method Unit
  | [] => return ()
  | (k, v) :: es => do
    let _ ← Dictionary.set k v .set
    setAll es

/-- All entries of a map, in some order. -/
structure EntriesIn (m : KeyMap Slice) (es : List (List Bool × Slice)) : Prop where
  nodup : (es.map Prod.fst).Nodup
  mem_iff : ∀ k v, (k, v) ∈ es ↔ m k = some v

/-- The canonical dictionary of a map: what setting its entries one after the other in an empty one gives, in every
order; and they can be set if they all fit in a leaf. -/
structure Canonical (d : DictionaryBase) (m : KeyMap Slice) : Prop where
  rootCell_eq : ∀ es d', EntriesIn m es → run (setAll es) ⟨d.keyBits, none, d.keyBits_le⟩ = (.ok (), d') →
    d'.rootCell = d.rootCell
  settable : MapFits d.keyBits m → ∀ es, EntriesIn m es → ∃ d', run (setAll es) ⟨d.keyBits, none, d.keyBits_le⟩ = (.ok (), d')

/-! ## Canonical dictionaries -/

section Canonical

variable {d : DictionaryBase} {m : KeyMap Slice} {es : List (List Bool × Slice)}

omit [Digest] in
theorem KeyMap.set_set (key : List Bool) (v : Slice) : m.set key v .set = Function.update m key (some v) := by
  unfold KeyMap.set
  exact if_pos rfl

/-- Setting an entry. -/
theorem run_set_cons {key : List Bool} {v : Slice} (hm : d.Stands .plain m) (hkey : key.length = d.keyBits) :
    (∃ d₁, run (setAll ((key, v) :: es)) d = run (setAll es) d₁ ∧ d₁.keyBits = d.keyBits ∧
        d₁.Stands .plain (Function.update m key (some v))) ∨
      (∃ e, run (setAll ((key, v) :: es)) d = (.error e, d)) ∧ ¬ (MapFits d.keyBits m ∧ ValueFits d.keyBits key v) := by
  rw [setAll, run_bind]
  cases hres : run (Dictionary.set key v .set) d with
  | mk r d₁ =>
    have hmethod : run (Op.set key v .set).method d = (r.map Reply.flag, d₁) := by
      rw [Op.method, run_bind, hres]
      cases r <;> rfl
    have hstep : Step d (.set key v .set, r.map Reply.flag) d₁ := hmethod
    obtain ⟨hbits, hthrown, m', hmap, hm'⟩ := Step.onMap hstep hm
    cases r with
    | error e =>
      obtain rfl : d₁ = d := hthrown e rfl
      refine .inr ⟨⟨e, rfl⟩, ?_⟩
      rintro ⟨hfit, hv⟩
      obtain ⟨reply, hreply⟩ := Step.ok hstep hm hfit fun _ => hv
      cases hreply
    | ok b =>
      refine .inl ⟨d₁, rfl, hbits, ?_⟩
      have hset : (Op.set key v .set).onMap d.keyBits m = (.flag b, m') := hmap
      rw [Op.onMap, if_pos hkey, KeyMap.set_set] at hset
      have hupdate : Function.update m key (some v) = m' := (Prod.ext_iff.1 hset).2
      rwa [hupdate]

/-- Entries that are set make the map whose entries they are, over what was there. -/
theorem stands_setAll {m' : KeyMap Slice} {d' : DictionaryBase} (hm : d.Stands .plain m)
    (hnodup : (es.map Prod.fst).Nodup) (hmem : ∀ e ∈ es, e.1.length = d.keyBits ∧ m' e.1 = some e.2)
    (hrest : ∀ k, k ∉ es.map Prod.fst → m' k = m k) (hrun : run (setAll es) d = (.ok (), d')) :
    d'.keyBits = d.keyBits ∧ d'.Stands .plain m' := by
  induction es generalizing d m with
  | nil =>
    cases hrun
    have hsame : m' = m := funext fun k => hrest k List.not_mem_nil
    exact ⟨rfl, hsame ▸ hm⟩
  | cons e es ih =>
    obtain ⟨key, v⟩ := e
    rw [List.map_cons, List.nodup_cons] at hnodup
    obtain ⟨hkey, hvalue⟩ := hmem (key, v) (List.mem_cons_self ..)
    rcases @run_set_cons _ _ _ es _ v hm hkey with ⟨d₁, hd₁, hbits, hm₁⟩ | ⟨⟨e, he⟩, -⟩
    · rw [hd₁] at hrun
      rw [← hbits]
      refine ih hm₁ hnodup.2 (fun e he => ?_) (fun k hk => ?_) hrun
      · rw [hbits]
        exact hmem e (List.mem_cons_of_mem _ he)
      · rw [Function.update_apply]
        split
        · next hkey => rw [hkey, hvalue]
        · next hne => exact hrest k (by rw [List.map_cons, List.mem_cons]; exact not_or.2 ⟨hne, hk⟩)
    · rw [he] at hrun
      cases hrun

/-- Entries that fit can be set. -/
theorem exists_setAll (hm : d.Stands .plain m) (hfit : MapFits d.keyBits m)
    (hes : ∀ e ∈ es, e.1.length = d.keyBits ∧ ValueFits d.keyBits e.1 e.2) : ∃ d', run (setAll es) d = (.ok (), d') := by
  induction es generalizing d m with
  | nil => exact ⟨d, rfl⟩
  | cons e es ih =>
    obtain ⟨key, v⟩ := e
    obtain ⟨hkey, hv⟩ := hes (key, v) (List.mem_cons_self ..)
    rcases @run_set_cons _ _ _ es _ v hm hkey with ⟨d₁, hd₁, hbits, hm₁⟩ | ⟨-, hno⟩
    · rw [hd₁]
      rw [← hbits] at hfit hv hes
      have hfit₁ : MapFits d₁.keyBits (m.set key v .set) := hfit.set hv .set
      exact ih hm₁ (KeyMap.set_set key v ▸ hfit₁) fun e he => hes e (List.mem_cons_of_mem _ he)
    · exact absurd ⟨hfit, hv⟩ hno

omit [Digest] in
theorem EntriesIn.value [Digest] {canon : Prop} (hes : EntriesIn m es) (h : d.Parsed canon m) {e : List Bool × Slice}
    (he : e ∈ es) : e.1.length = d.keyBits ∧ m e.1 = some e.2 := by
  have hvalue : m e.1 = some e.2 := (hes.mem_iff e.1 e.2).1 he
  refine ⟨?_, hvalue⟩
  by_contra hlen
  rw [h.eq_none hlen] at hvalue
  cases hvalue

/-- A dictionary whose labels are in the shortest form is the canonical one. -/
theorem canonical_of_parsed (h : d.Parsed True m) : Canonical d m := by
  have hempty : (⟨d.keyBits, none, d.keyBits_le⟩ : DictionaryBase).Stands .plain KeyMap.empty := stands_empty d.keyBits_le
  constructor
  · intro es d' hes hrun
    have hrest : ∀ k, k ∉ es.map Prod.fst → m k = none := by
      intro k hk
      cases hv : m k with
      | none => rfl
      | some v => exact absurd (List.mem_map_of_mem ((hes.mem_iff k v).2 hv)) hk
    obtain ⟨hbits, hm'⟩ := stands_setAll hempty hes.nodup (fun e he => hes.value h he) hrest hrun
    exact (stands_iff_parsed.2 h).rootCell_eq hm' hbits
  · intro hfit es hes
    refine exists_setAll hempty nofun fun e he => ?_
    obtain ⟨hlen, hvalue⟩ := hes.value h he
    exact ⟨hlen, hfit e.1 e.2 hvalue⟩

end Canonical

/-! ## What the operations come to -/

/-- What cutting to a prefix may come to. -/
inductive Cuts (canon : Prop) (d : DictionaryBase) (m : KeyMap Slice) (pfx : List Bool) (prefixLen : Int) (removePrefix : Bool) :
    Result Bool → DictionaryBase → Prop
  | refused (h : prefixLen < 0 ∨ d.keyBits < prefixLen ∧ removePrefix) : Cuts canon d m pfx prefixLen removePrefix (.ok false) d
  | cut {d' : DictionaryBase} (h : ¬ (prefixLen < 0 ∨ d.keyBits < prefixLen ∧ removePrefix))
      (hbits : d'.keyBits = bitsUnder d.keyBits pfx removePrefix) (hm : d'.Parsed canon (m.under pfx removePrefix))
      (hcanon : canon → Canonical d' (m.under pfx removePrefix)) : Cuts canon d m pfx prefixLen removePrefix (.ok true) d'
  | overflow {e : Fail} {k : List Bool} {v : Slice} (hk : m.under pfx removePrefix k = some v)
      (hfit : ¬ ValueFits (bitsUnder d.keyBits pfx removePrefix) k v) : Cuts canon d m pfx prefixLen removePrefix (.error e) d

/-- What filtering may come to. An answer about the rest ends the questions; without such answers the number is exact,
unless it is effectively infinity. -/
inductive FilterEnds (canon : Prop) (d : DictionaryBase) (m : KeyMap Slice) (checkLeaf : List Bool → Slice → Int) :
    Result Int → DictionaryBase → Prop
  | aborted {res : Int} {es : List (List Bool × Slice)} (hneg : res < 0) (hes : EntriesOf m es)
      (h : filterEntries (Layout.plain.verdict checkLeaf) none es = .error res) : FilterEnds canon d m checkLeaf (.ok res) d
  | kept {res : Int} {d' : DictionaryBase} {m' : KeyMap Slice} {es fs : List (List Bool × Slice)} {rest : Option Bool}
      (hes : EntriesOf m es) (h : filterEntries (Layout.plain.verdict checkLeaf) none es = .ok (fs, rest))
      (hfs : EntriesOf m' fs) (hbits : d'.keyBits = d.keyBits) (hm : d'.Parsed canon m') (hcanon : canon → Canonical d' m')
      (hpos : 0 ≤ res) (hzero : res = 0 → d' = d) (hsame : res = 0 ↔ fs = es)
      (hcount : (∀ k v, checkLeaf k v < manyChanges) → Counts res es.length fs.length)
      (hpred : (∀ k v, 0 ≤ checkLeaf k v ∧ checkLeaf k v < manyChanges) →
        ∀ k, m' k = (m k).filter fun v => checkLeaf k v ≠ 0) : FilterEnds canon d m checkLeaf (.ok res) d'
  | overflow {e : Fail} {k : List Bool} {v : Slice} (hk : m k = some v) (hfit : ¬ ValueFits d.keyBits k v) :
      FilterEnds canon d m checkLeaf (.error e) d

/-- What mapping may come to. -/
inductive Maps (d : DictionaryBase) (m : KeyMap Slice) (f : ValueMap) : Result Unit → DictionaryBase → Prop
  | mapped {d' : DictionaryBase} {m' : KeyMap Slice} (hbits : d'.keyBits = d.keyBits) (hm : d'.Parsed True m')
      (hcanon : Canonical d' m') (hnone : ∀ k, m k = none → m' k = none)
      (hmap : ∀ k v, m k = some v → ImageOf f d.keyBits k v (m' k)) : Maps d m f (.ok ()) d'
  | failed {e : Fail} {k : List Bool} {v : Slice} (hk : m k = some v) (h : f k v = .error e) : Maps d m f (.error e) d
  | overflow {e : Fail} {k : List Bool} {v w : Slice} (hk : m k = some v) (h : f k v = .ok (some w))
      (hfit : ¬ ValueFits d.keyBits k w) : Maps d m f (.error e) d

section Outcomes

variable {canon : Prop} {d : DictionaryBase} {m : KeyMap Slice}

theorem canonical_of (hcanon : canon) (h : d.Parsed canon m) : Canonical d m :=
  canonical_of_parsed (eq_true hcanon ▸ h)

omit [Digest] in
theorem exists_not_fits [Digest] {n : Nat} (h : ¬ FitsAt n [] m) : ∃ k v, m k = some v ∧ ¬ ValueFits n k v := by
  unfold FitsAt at h
  push Not at h
  exact h

theorem cuts (h : d.Parsed canon m) {pfx : List Bool} {prefixLen : Int} (hlen : prefixLen ≤ pfx.length) (removePrefix : Bool) :
    Cuts canon d m (pfx.take prefixLen.toNat) prefixLen removePrefix
      (run (cutPrefixSubdict forkOps.labelMode pfx prefixLen removePrefix) d).1
      (run (cutPrefixSubdict forkOps.labelMode pfx prefixLen removePrefix) d).2 := by
  obtain ⟨t, hroot, hget⟩ := h
  obtain rfl : PrefixTree.get? t = m := funext hget
  have hunder := KeyMap.under_get? t (pfx.take prefixLen.toNat) removePrefix
  rcases run_cut_cases (represents_parses forkOps_plain) (root_parses_iff.2 hroot) hlen rfl removePrefix with
    ⟨hrefused, hrun⟩ | ⟨hnot, ⟨d', hrun, hbits, hroot'⟩ | ⟨e, s, p, hrun, hs, hkeyed, hb, hnode⟩⟩
  · rw [hrun]
    exact .refused hrefused
  · rw [hrun]
    have hparsed : d'.Parsed canon (KeyMap.under (PrefixTree.get? t) (pfx.take prefixLen.toNat) removePrefix) :=
      ⟨_, root_parses_iff.1 hroot', hunder⟩
    exact .cut hnot hbits hparsed fun hcanon => canonical_of hcanon hparsed
  · rw [hrun]
    rw [hs] at hunder
    have hdepth : bitsUnder d.keyBits (pfx.take prefixLen.toNat) removePrefix ≤ maxDepth :=
      (d.cutKeys (pfx.take prefixLen.toNat) removePrefix).keyBits_le.trans (by decide)
    have hno : ¬ FitsAt (bitsUnder d.keyBits (pfx.take prefixLen.toNat) removePrefix) [] s.get := by
      intro hfit
      obtain ⟨c, hc⟩ := node_of_fits hdepth hkeyed hb (Nat.zero_add _) hfit
      rw [hnode] at hc
      cases hc
    obtain ⟨k, v, hk, hfit⟩ := exists_not_fits hno
    exact .overflow ((hunder k).symm.trans hk) hfit

omit [Digest] in
theorem verdict_eq [Digest] {checkLeaf : List Bool → Slice → Int} (h : ∀ k v, 0 ≤ checkLeaf k v ∧ checkLeaf k v < manyChanges)
    (k : List Bool) (v : Slice) :
    Layout.plain.verdict checkLeaf k v = if decide (checkLeaf k v ≠ 0) then .keep else .drop := by
  obtain ⟨hpos, hless⟩ := h k v
  show verdictOf (checkLeaf k v) = _
  unfold verdictOf
  rw [if_neg (Int.not_lt.2 hpos), if_neg (Int.not_le.2 hless)]
  by_cases hzero : checkLeaf k v = 0 <;> simp [hzero]

theorem filterEnds (h : d.Parsed canon m) (checkLeaf : List Bool → Slice → Int) :
    FilterEnds canon d m checkLeaf (run (filter forkOps checkLeaf) d).1 (run (filter forkOps checkLeaf) d).2 := by
  rw [run_filter]
  have hrep : Represents forkOps .plain (Parses canon) (Behind canon) := represents_parses forkOps_plain
  obtain ⟨t, hroot, hget⟩ := h
  have hes : EntriesOf m (PrefixTree.entries? [] t) := PrefixTree.entriesOf_entries? hget
  -- a predicate that decides about each entry keeps those that it accepts
  have hpred {m' : KeyMap Slice} {fs : List (List Bool × Slice)} {rest : Option Bool} (hfs : EntriesOf m' fs)
      (hkept : filterEntries (Layout.plain.verdict checkLeaf) none (PrefixTree.entries? [] t) = .ok (fs, rest))
      (hsmall : ∀ k v, 0 ≤ checkLeaf k v ∧ checkLeaf k v < manyChanges) (k : List Bool) :
      m' k = (m k).filter fun v => checkLeaf k v ≠ 0 := by
    rw [filterEntries_filter (verdict_eq hsmall)] at hkept
    cases hkept
    apply Option.ext
    intro v
    rw [← hfs.mem_iff, List.mem_filter, hes.mem_iff, Option.filter_eq_some_iff]
  cases t with
  | none =>
    have hnone : d.rootCell = none := hroot
    rw [hnone, dictFilter]
    have hparsed : d.Parsed canon m := ⟨none, hroot, hget⟩
    exact .kept hes rfl hes rfl hparsed (fun hcanon => canonical_of hcanon hparsed) le_rfl (fun _ => rfl)
      ⟨fun _ => rfl, fun _ => rfl⟩ (fun _ => ⟨by decide, .inl rfl⟩) (hpred hes rfl)
  | some t =>
    obtain ⟨c, hsome, ht⟩ := hroot
    have hdepth : d.keyBits ≤ maxDepth := d.keyBits_le.trans (by decide)
    rw [hsome]
    cases hres : dictFilter forkOps checkLeaf (some c) [] d.keyBits none with
    | error e =>
      have hno : ¬ FitsAt d.keyBits [] t.get := by
        intro hfit
        obtain ⟨r, hr⟩ := @dictFilter_ok _ _ forkOps_plain _ checkLeaf _ _ [] _ _ none hdepth ht (Nat.zero_add _) hfit
        rw [hres] at hr
        cases hr
      obtain ⟨k, v, hk, hfit⟩ := exists_not_fits hno
      exact .overflow ((hget k).symm.trans hk) hfit
    | ok r =>
      obtain ⟨res, skip⟩ := r
      have hfiltered := dictFilter_represents hrep ht hres
      dsimp only
      cases hk : filterEntries (Layout.plain.verdict checkLeaf) none (t.entries []) with
      | error e =>
        rw [hk] at hfiltered
        cases hfiltered with
        | error hneg =>
          rw [if_neg (by omega)]
          exact .aborted hneg hes hk
      | ok r =>
        rw [hk] at hfiltered
        obtain ⟨t', rfl, hpos, hsame, hroot'⟩ := hfiltered.kept ht
        have hfs : EntriesOf (PrefixTree.get? t') (PrefixTree.entries? [] t') := PrefixTree.entriesOf_entries? fun _ => rfl
        have hparsed : (if 0 < res.changes then d.setRootCell res.dict else d).Parsed canon (PrefixTree.get? t') := by
          refine ⟨t', root_parses_iff.1 ?_, fun _ => rfl⟩
          by_cases hchanged : 0 < res.changes
          · rw [if_pos (by omega)] at hroot'
            rw [if_pos hchanged]
            exact hroot'
          · rw [if_neg (by omega)] at hroot'
            rw [if_neg hchanged, hsome]
            exact hroot'
        refine .kept hes hk hfs (by split <;> rfl) hparsed (fun hcanon => canonical_of hcanon hparsed) hpos ?_ hsame ?_
          (hpred hfs hk)
        · intro hzero
          rw [if_neg (by omega)]
        · intro hsmall
          obtain ⟨-, fs, hfs, hcounts⟩ := dictFilter_counts hrep hsmall ht hres hpos
          rw [hk] at hfs
          cases hfs
          exact hcounts

theorem maps (h : d.Parsed canon m) {mapFunc : MapFunc} {f : ValueMap} (hf : mapFunc.Implements d.keyBits f) :
    Maps d m f (run (map mapFunc) d).1 (run (map mapFunc) d).2 := by
  rw [run_map]
  obtain ⟨t, hroot, hget⟩ := h
  cases t with
  | none =>
    have hnone : d.rootCell = none := hroot
    have hparsed : (d.setRootCell none).Parsed True m := ⟨none, rfl, hget⟩
    rw [hnone, dictMap]
    exact .mapped rfl hparsed (canonical_of_parsed hparsed) (fun _ hk => hk) fun k v hk => by
      rw [← hget] at hk
      cases hk
  | some t =>
    obtain ⟨c, hsome, ht⟩ := hroot
    obtain rfl : t.get = m := funext hget
    have hmapped := dictMap_mapped hf (d.keyBits_le.trans (by decide)) (q := []) ht (Nat.zero_add _)
    rw [hsome]
    revert hmapped
    generalize dictMap mapFunc (some c) [] d.keyBits = r
    intro hmapped
    cases hmapped with
    | @ok root t' hroot' hnone hmap =>
      have hparsed : (d.setRootCell root).Parsed True (PrefixTree.get? t') := ⟨t', hroot', fun _ => rfl⟩
      exact .mapped rfl hparsed (canonical_of_parsed hparsed) hnone hmap
    | failed hk hfail => exact .failed hk hfail
    | overflow hk hw hfit => exact .overflow hk hw hfit

/-- Cutting a dictionary with something behind the branches of its forks. -/
theorem stands_cut {L : Layout} {ops : ForkOps} (hops : ops.Implements L) (h : d.Stands L m) {pfx : List Bool} {prefixLen : Int}
    (hlen : prefixLen ≤ pfx.length) (removePrefix : Bool) {r : Result Bool} {d' : DictionaryBase}
    (hrun : run (cutPrefixSubdict ops.labelMode pfx prefixLen removePrefix) d = (r, d')) :
    r = .ok true ∧ d'.Stands L (m.under (pfx.take prefixLen.toNat) removePrefix) ∨ r ≠ .ok true ∧ d' = d := by
  obtain ⟨t, hkeyed, hroot, hget⟩ := h
  obtain rfl : PrefixTree.get? t = m := funext hget
  rcases run_cut_cases (represents_store hops) (root_storedAs_iff.2 ⟨hkeyed, hroot⟩) hlen rfl removePrefix with
    ⟨-, hcases⟩ | ⟨-, ⟨d₁, hcases, hbits, hroot'⟩ | ⟨e, s, p, hcases, -⟩⟩ <;> rw [hrun] at hcases <;> cases hcases
  · exact .inr ⟨nofun, rfl⟩
  · obtain ⟨hkeyed', hroot'⟩ := root_storedAs_iff.1 hroot'
    exact .inl ⟨rfl, _, hkeyed', hroot', KeyMap.under_get? t _ removePrefix⟩
  · exact .inr ⟨nofun, rfl⟩

/-- Filtering one. -/
theorem stands_filter {L : Layout} {ops : ForkOps} (hops : ops.Implements L) (h : d.Stands L m)
    {checkLeaf : List Bool → Slice → Int} {r : Result Int} {d' : DictionaryBase}
    (hrun : run (filter ops checkLeaf) d = (r, d')) :
    (∃ res m', r = .ok res ∧ m.Filters (L.verdict checkLeaf) res m' ∧ d'.Stands L m' ∧ (res ≤ 0 → d' = d)) ∨
      (∃ e, r = .error e) ∧ d' = d := by
  rw [run_filter] at hrun
  cases hres : dictFilter ops checkLeaf d.rootCell [] d.keyBits none with
  | error e =>
    rw [hres] at hrun
    cases hrun
    exact .inr ⟨⟨e, rfl⟩, rfl⟩
  | ok res =>
    obtain ⟨res, skip⟩ := res
    rw [hres] at hrun
    obtain ⟨m', hfilters, hstands⟩ := h.filter hops hres
    cases hrun
    exact .inl ⟨res.changes, m', rfl, hfilters, hstands, fun hle => if_neg (Int.not_lt.2 hle)⟩

/-- Cutting, filtering and mapping a dictionary do so to its map, and what is thrown or aborted changes nothing. -/
theorem cuts_filters_maps (h : d.Parsed canon m) :
    (∀ (pfx : List Bool) (prefixLen : Int) (removePrefix : Bool), prefixLen ≤ pfx.length →
      Cuts canon d m (pfx.take prefixLen.toNat) prefixLen removePrefix
        (run (cutPrefixSubdict forkOps.labelMode pfx prefixLen removePrefix) d).1
        (run (cutPrefixSubdict forkOps.labelMode pfx prefixLen removePrefix) d).2) ∧
    (∀ checkLeaf : List Bool → Slice → Int,
      FilterEnds canon d m checkLeaf (run (filter forkOps checkLeaf) d).1 (run (filter forkOps checkLeaf) d).2) ∧
    (∀ (mapFunc : MapFunc) (f : ValueMap), mapFunc.Implements d.keyBits f →
      Maps d m f (run (map mapFunc) d).1 (run (map mapFunc) d).2) ∧
    ∀ (L : Layout) (ops : ForkOps), ops.Implements L → ∀ (d₁ : DictionaryBase) (m₁ : KeyMap Slice), d₁.Stands L m₁ →
      (∀ (pfx : List Bool) (prefixLen : Int) (removePrefix : Bool), prefixLen ≤ pfx.length → ∀ r d',
        run (cutPrefixSubdict ops.labelMode pfx prefixLen removePrefix) d₁ = (r, d') →
        r = .ok true ∧ d'.Stands L (m₁.under (pfx.take prefixLen.toNat) removePrefix) ∨ r ≠ .ok true ∧ d' = d₁) ∧
      ∀ (checkLeaf : List Bool → Slice → Int) (r : Result Int) (d' : DictionaryBase), run (filter ops checkLeaf) d₁ = (r, d') →
        (∃ res m', r = .ok res ∧ m₁.Filters (L.verdict checkLeaf) res m' ∧ d'.Stands L m' ∧ (res ≤ 0 → d' = d₁)) ∨
          (∃ e, r = .error e) ∧ d' = d₁ := by
  refine ⟨?_, filterEnds h, ?_, ?_⟩
  · intro pfx prefixLen removePrefix hlen
    exact cuts h hlen removePrefix
  · intro mapFunc f hf
    exact maps h hf
  · intro L ops hops d₁ m₁ h₁
    refine ⟨?_, ?_⟩
    · intro pfx prefixLen removePrefix hlen r d' hrun
      exact stands_cut hops h₁ hlen removePrefix hrun
    · intro checkLeaf r d' hrun
      exact stands_filter hops h₁ hrun

end Outcomes

namespace Sample

/-- Two entries. -/
def entries : List (List Bool × Slice) := [([false, false], ⟨[true], []⟩), ([false, true], ⟨[false], []⟩)]

def leafCell (b : Bool) : Cell := .mk false [false, false, b] []

omit [Digest] in
theorem keyBits_le : 2 ≤ maxKeyBits := by decide

def two : DictionaryBase :=
  ⟨2, some (.mk false [false, true, false, false] [leafCell true, leafCell false]), keyBits_le⟩

def tree : PrefixTree Slice := .fork [false] (.leaf [] ⟨[true], []⟩) (.leaf [] ⟨[false], []⟩)

/-- An entry under a label in the long form, where the short one takes as many bits. -/
def looseCell : Cell := .mk false [true, false, true, true, true] []

def loose : DictionaryBase := ⟨1, some looseCell, by decide⟩

omit [Digest] in
theorem parses_leaf (b : Bool) : @Parses digest True 0 (.leaf [] ⟨[b], []⟩) (leafCell b) := by
  have hlabel : LabelParser.ofCell (some (leafCell b)) 0 .chkAll = .ok ⟨⟨[b], []⟩, none, 0⟩ := by
    cases b <;> rfl
  exact @Parses.leaf digest _ _ _ _ _ _ (by cases b <;> decide) hlabel .any rfl fun _ => by cases b <;> rfl

omit [Digest] in
theorem parsed_two : @DictionaryBase.Parsed digest True two tree.get := by
  refine ⟨some tree, ⟨_, rfl, ?_⟩, fun _ => rfl⟩
  have hlabel : LabelParser.ofCell two.rootCell 2 .chkAll =
      .ok ⟨⟨[false], [leafCell true, leafCell false]⟩, none, 1⟩ := rfl
  exact @Parses.fork digest _ _ _ _ _ _ _ _ _ _ (by decide) hlabel .any rfl (parses_leaf true) (parses_leaf false) fun _ => rfl

omit [Digest] in
theorem parsed_loose : @DictionaryBase.Parsed digest False loose (PrefixTree.leaf [true] ⟨[true], []⟩).get := by
  refine ⟨some (.leaf [true] ⟨[true], []⟩), ⟨_, rfl, ?_⟩, fun _ => rfl⟩
  have hlabel : LabelParser.ofCell (some looseCell) 1 .chkAll = .ok ⟨⟨[true, true], []⟩, none, 1⟩ := rfl
  exact @Parses.leaf digest _ _ _ _ _ _ (by decide) hlabel .any rfl nofun

def filtered (checkLeaf : List Bool → Slice → Int) (d : DictionaryBase) : Result Int × DictionaryBase :=
  @run _ (@filter digest (@forkOps digest) checkLeaf) d

/-- The only entry of the loose dictionary is set in an empty one. -/
def tight : Result Unit × DictionaryBase := @run _ (@setAll digest [([true], ⟨[true], []⟩)]) ⟨1, none, by decide⟩

def rootHash (d : DictionaryBase) : Option Ton.Bits256 := d.rootCell.map fun c => @Cell.getHash digest c 0

def dropRest (_ : List Bool) (_ : Slice) : Int := 2 ^ 30
def keepRest (key : List Bool) (_ : Slice) : Int := if key = [false, false] then 2 ^ 30 + 1 else 0
def keep (_ : List Bool) (_ : Slice) : Int := 1

omit [Digest] in
/-- The answer that drops all the rest has no exact number, the one that keeps it is not asked again, and a label that
is not touched stays in the form in which it was. -/
theorem rest_and_loose :
    (@DictionaryBase.Parsed digest True two tree.get ∧ EntriesOf tree.get entries ∧
      (filtered dropRest two).1.toOption = some (2 ^ 30) ∧ (filtered dropRest two).2.rootCell = none ∧
      (filtered keepRest two).1.toOption = some 0 ∧ rootHash (filtered keepRest two).2 = rootHash two) ∧
    @DictionaryBase.Parsed digest False loose (PrefixTree.leaf [true] ⟨[true], []⟩).get ∧
      (filtered keep loose).1.toOption = some 0 ∧ tight.1.toOption = some () ∧
      rootHash (filtered keep loose).2 ≠ rootHash tight.2 := by
  refine ⟨⟨parsed_two, PrefixTree.entriesOf_entries? (t := some tree) fun _ => rfl, ?_, ?_, ?_, ?_⟩, parsed_loose, ?_, ?_, ?_⟩
  all_goals decide +kernel

/-- A value is kept as it is. -/
def copy : MapFunc := fun cb v _ => .ok (cb.appendSliceBool v)

omit [Digest] in
theorem copy_implements (n : Nat) : copy.Implements n fun _ v => .ok (some v) where
  error _ h := by cases h
  drop _ h := by cases h
  value _ h hcb := by
    cases h
    rw [copy, hcb]
  overflow _ h hcb := by
    cases h
    exact .inl (by rw [copy, hcb])

omit [Digest] in
/-- Two entries are cut to the part under `0`, filtered and mapped; and cut again with nothing behind their branches. -/
theorem cuts_filters_maps_two :
    @Cuts digest True two tree.get [false] 1 true
      (@run _ (@cutPrefixSubdict digest (@forkOps digest).labelMode [false] 1 true) two).1
      (@run _ (@cutPrefixSubdict digest (@forkOps digest).labelMode [false] 1 true) two).2 ∧
    @FilterEnds digest True two tree.get keep (filtered keep two).1 (filtered keep two).2 ∧
    @Maps digest two tree.get (fun _ v => .ok (some v)) (@run _ (@map digest copy) two).1 (@run _ (@map digest copy) two).2 ∧
    ∀ r d', @run _ (@cutPrefixSubdict digest (@forkOps digest).labelMode [false] 1 false) two = (r, d') →
      r = .ok true ∧ @DictionaryBase.Stands digest .plain d' (KeyMap.under tree.get [false] false) ∨ r ≠ .ok true ∧ d' = two := by
  obtain ⟨hcut, hfilter, hmap, hlayout⟩ := @cuts_filters_maps digest True two tree.get parsed_two
  refine ⟨hcut [false] 1 true (by decide), hfilter keep, hmap copy _ (copy_implements _), ?_⟩
  obtain ⟨hcut', -⟩ := hlayout .plain (@forkOps digest) (@forkOps_implements digest) two tree.get
    (@stands_iff_parsed digest two tree.get |>.2 parsed_two)
  exact hcut' [false] 1 false (by decide)

end Sample

end Dictionary

end TonWallet.Vm
