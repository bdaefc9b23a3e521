/-
Operations that make a dictionary anew (`extract_prefix_subdict_internal`, `dict_filter`, `dict_map`). The part of a
tree under a prefix only gets another label; a map makes every edge again, and what is left of a fork is merged.
-/
import TonWallet.Vm.Dict.CombineOutcome
import TonWallet.Vm.Dict.Filter

namespace TonWallet.Vm.Dict

open Lib TonWallet.Td CellBuilder

variable [Digest]

/-! ## Parsed trees -/

section Parsed

variable {canon : Prop} {N n m : Nat} {q l : List Bool}

omit [Digest] in
theorem root_parses_iff [Digest] {t : Option (PrefixTree Slice)} {root : Option Cell} :
    Root (Parses canon) n t root ↔ Parses? canon n t root := by
  cases t <;> rfl

variable {ops : ForkOps} (h : ops.Plain)

include h

/-- The cells of a plain dictionary, with labels in any form or in the shortest one. -/
theorem represents_parses : Represents ops .plain (Parses canon) (Behind canon) where
  keyed hc := hc.keyed
  ofCell hc := by
    rw [h.labelMode]
    exact hc.ofCell
  leaf hb := by
    obtain ⟨-, rfl⟩ := hb
    rfl
  fork hb := by
    obtain ⟨k, ca, cb, hk, rfl, ha, hb⟩ := hb
    exact ⟨k, ca, cb, hk, rfl, rfl, ha, hb⟩
  withLabel l hb := by rwa [behind_withLabel]
  node ht hb hc := parses_of_node ht.length_label_le hb hc
  createFork hk ha hb hc := by
    rcases h.createFork_cases hk ha hb with ⟨c', hc', hparses⟩ | ⟨e, he, -⟩
    · rw [hc] at hc'
      cases hc'
      exact hparses
    · rw [hc] at he
      cases he

/-- Branches that have changed make a tree again, unless a value in it does not fit. -/
theorem rejoinCells_cases (hN : N ≤ maxDepth) (hq : q.length + n = N) (hm : l.length + 1 + m = n)
    {a b : Option (PrefixTree Slice)} {ra rb : Option Cell} (ha : Parses? canon m a ra) (hb : Parses? canon m b rb) :
    (∃ root, rejoinCells ops l n ra rb = .ok root ∧ Parses? canon n (PrefixTree.rejoin l a b) root) ∨
      ∃ e, rejoinCells ops l n ra rb = .error e ∧ ¬ FitsAt N q (PrefixTree.get? (PrefixTree.rejoin l a b)) := by
  have houtcome := Outcome.rejoin h hN hq hm ha hb fun _ => rfl
  cases hres : rejoinCells ops l n ra rb with
  | ok root =>
    refine .inl ⟨root, rfl, ?_⟩
    exact root_parses_iff.1 ((represents_parses h).rejoin hm (root_parses_iff.2 ha) (root_parses_iff.2 hb) hres)
  | error e =>
    refine .inr ⟨e, rfl, fun hfit => ?_⟩
    rw [hres] at houtcome
    cases houtcome with
    | failed hk => cases hk
    | overflow hk hno => exact hno (hfit _ _ (Except.ok.inj hk))

end Parsed

/-! ## Filters -/

section Filter

variable {ops : ForkOps} (h : ops.Plain) {canon : Prop} {checkLeaf : List Bool → Slice → Int}

omit [Digest] in
theorem mem_entries?_iff {q k : List Bool} {t : Option (PrefixTree Slice)} {v : Slice} :
    (q ++ k, v) ∈ PrefixTree.entries? q t ↔ PrefixTree.get? t k = some v := by
  cases t with
  | none => exact iff_of_false List.not_mem_nil nofun
  | some t =>
    refine PrefixTree.mem_entries.trans ⟨?_, fun h => ⟨k, rfl, h⟩⟩
    rintro ⟨r, hr, hget⟩
    rw [List.append_cancel_left hr]
    exact hget

omit [Digest] in
/-- Values that are kept from a tree fit where those of the tree do. -/
theorem FitsAt.of_sublist [Digest] {N : Nat} {q : List Bool} {t : PrefixTree Slice} {t' : Option (PrefixTree Slice)}
    (hfit : FitsAt N q t.get) (h : (PrefixTree.entries? q t').Sublist (t.entries q)) : FitsAt N q (PrefixTree.get? t') := by
  intro k v hk
  exact hfit k v ((mem_entries?_iff (t := some t)).1 (h.subset (mem_entries?_iff.2 hk)))

include h

/-- What a filter keeps of a parsed tree is part of it. -/
theorem kept_of_dictFilter {n : Nat} {q : List Bool} {t : PrefixTree Slice} {c : Cell} {skip skip' : Option Bool}
    {res : FilterResult} (hc : Parses canon n t c) (hres : dictFilter ops checkLeaf (some c) q n skip = .ok (res, skip'))
    (hpos : 0 ≤ res.changes) :
    ∃ t', (PrefixTree.entries? q t').Sublist (t.entries q) ∧ Parses? canon n t' (if res.changes ≠ 0 then res.dict else some c) := by
  have hfiltered := dictFilter_represents (represents_parses h) hc hres
  cases hk : filterEntries (Layout.plain.verdict checkLeaf) skip (t.entries q) with
  | error e =>
    rw [hk] at hfiltered
    cases hfiltered with
    | error hneg => omega
  | ok r =>
    rw [hk] at hfiltered
    obtain ⟨t', rfl, -, -, ht'⟩ := hfiltered.kept hc
    exact ⟨t', filterEntries_sublist hk, root_parses_iff.1 ht'⟩

/-- A filter does not throw when the values fit. -/
theorem dictFilter_ok {N n : Nat} {q : List Bool} {t : PrefixTree Slice} {c : Cell} {skip : Option Bool} (hN : N ≤ maxDepth)
    (hc : Parses canon n t c) (hq : q.length + n = N) (hfit : FitsAt N q t.get) :
    ∃ r, dictFilter ops checkLeaf (some c) q n skip = .ok r := by
  have hrep : Represents ops .plain (Parses canon) (Behind canon) := represents_parses h
  induction t generalizing n c q skip with
  | leaf l v =>
    cases skip with
    | some drop => exact ⟨_, by rw [dictFilter]⟩
    | none =>
      obtain ⟨label, p, hlabel, hreads, hp, hlen⟩ := hrep.ofCell_leaf hc
      exact ⟨_, dictFilter_leaf hlabel (by rw [hreads.lBits_eq, hlen]; exact lt_irrefl n)⟩
  | fork l a b iha ihb =>
    cases skip with
    | some drop => exact ⟨_, by rw [dictFilter]⟩
    | none =>
      obtain ⟨label, m, ca, cb, hlabel, hlen, hbits, hca, hcb, hm, ha, hb⟩ := hrep.ofCell_fork hc
      have hm' : n - l.length - 1 = m := by omega
      have hlt : label.lBits < n := by omega
      obtain ⟨hfita, hfitb⟩ := hfit.fork
      obtain ⟨⟨left, skip₁⟩, hleft⟩ := @iha _ (q ++ l ++ [false]) _ none ha (by simp; omega) hfita
      obtain ⟨⟨right, skip₂⟩, hright⟩ := @ihb _ (q ++ l ++ [true]) _ skip₁ hb (by simp; omega) hfitb
      rw [dictFilter, hlabel]
      simp only [bind, Except.bind, dif_pos hlt, hbits, hlen, hm', hca, hcb, hleft, hright]
      by_cases hneg : left.changes < 0
      · rw [if_pos hneg]
        exact ⟨_, rfl⟩
      · rw [if_neg hneg]
        by_cases hend : right.changes < 0 ∨ left.changes = 0 ∧ right.changes = 0
        · rw [if_pos hend]
          exact ⟨_, rfl⟩
        · rw [if_neg hend]
          obtain ⟨a', hsubl, hl⟩ := kept_of_dictFilter h ha hleft (by omega)
          obtain ⟨b', hsubr, hr⟩ := kept_of_dictFilter h hb hright (by omega)
          have hsub : (PrefixTree.entries? q (PrefixTree.rejoin l a' b')).Sublist ((PrefixTree.fork l a b).entries q) := by
            rw [PrefixTree.entries?_rejoin, PrefixTree.entries]
            exact hsubl.append hsubr
          rcases rejoinCells_cases h hN hq hm hl hr with ⟨root, hroot, -⟩ | ⟨e, -, hno⟩
          · rw [hroot]
            exact ⟨_, rfl⟩
          · exact absurd (hfit.of_sublist hsub) hno

end Filter

/-! ## The part under a prefix -/

/-- The end of `extract_prefix_subdict_internal`: the edge that the prefix ends on, under its new label. -/
def prefixRoot (keyBits : Nat) (pfx : List Bool) (removePrefix : Bool) (label : LabelParser) (m : Nat) :
    Result (Option Cell × Bool) :=
  if !removePrefix ∧ m = 0 then return (none, false)
  else do
    let cell ← (if !removePrefix then appendDictLabel (pfx.take m ++ label.bits) keyBits {}
      else
        -- that many last bits of the label are left
        let last := m + label.lBits - pfx.length
        match label.lSame with
        | none => appendDictLabel (label.bits.drop (label.lBits - last)) (keyBits - pfx.length) {}
        | some same => appendDictLabelSame same last (keyBits - pfx.length) {}) >>=
      finishPayload "cannot create new dictionary root while constructing prefix subdictionary" label.payload
    return (some cell, true)

/-- The loop of `extract_prefix_subdict_internal`, with `m` bits of the prefix consumed. -/
def extractPrefix (mode : LabelMode) (keyBits : Nat) (pfx : List Bool) (removePrefix : Bool) (dict : Option Cell) (m : Nat) :
    Result (Option Cell × Bool) := do
  let label ← LabelParser.ofCell dict (keyBits - m) mode
  if label.commonPrefixLen (pfx.drop m) < min (pfx.length - m) label.lBits then return (none, true)
  else if _hm : m + label.lBits < pfx.length then
    extractPrefix mode keyBits pfx removePrefix label.remainder.refs[(pfx.getD (m + label.lBits) false).toNat]?
      (m + label.lBits + 1)
  else prefixRoot keyBits pfx removePrefix label m
termination_by pfx.length - m

/-- `extract_prefix_subdict_internal`: the new root, and whether there is one. -/
def extractPrefixSubdictInternal (mode : LabelMode) (keyBits : Nat) (pfx : List Bool) (removePrefix : Bool)
    (dict : Option Cell) : Result (Option Cell × Bool) :=
  if dict.isNone ∨ pfx = [] then return (none, false)
  else if keyBits < pfx.length then return (none, true)
  else extractPrefix mode keyBits pfx removePrefix dict 0

/-- The tree of what is under a prefix, with the prefix or without. -/
def under (pfx : List Bool) (removePrefix : Bool) (s : PrefixTree Slice) : PrefixTree Slice :=
  if removePrefix then s else s.prepend pfx

/-- The bits of the keys that are left. -/
def bitsUnder (keyBits : Nat) (pfx : List Bool) (removePrefix : Bool) : Nat :=
  if removePrefix then keyBits - pfx.length else keyBits

/-- What is extracted of a tree that has `m` bits of the prefix in front: nothing; the tree as it is; or the edge that
the prefix ends on, if it can be made. -/
inductive Extracted (B : Nat → Slice → PrefixTree Slice → Prop) (keyBits : Nat) (pfx : List Bool) (removePrefix : Bool)
    (t : PrefixTree Slice) (m : Nat) (r : Result (Option Cell × Bool)) : Prop
  | gone (hcut : t.cut (pfx.drop m) = none) (hr : r = .ok (none, true))
  | same {s : PrefixTree Slice} (hcut : t.cut (pfx.drop m) = some s) (hm : m = 0) (ht : t = under pfx removePrefix s)
      (hremove : removePrefix = false) (hr : r = .ok (none, false))
  | made {s : PrefixTree Slice} {p : Slice} (hcut : t.cut (pfx.drop m) = some s)
      (hb : B (keyBits - pfx.length - s.label.length) p s)
      (hr : r.toOption = (node (under pfx removePrefix s).label (bitsUnder keyBits pfx removePrefix) p).map fun c => (some c, true))

section Extract

variable {ops : ForkOps} {L : Layout} {R : Nat → PrefixTree Slice → Cell → Prop} {B : Nat → Slice → PrefixTree Slice → Prop}
  (h : Represents ops L R B) {keyBits : Nat} {pfx : List Bool} {removePrefix : Bool}

include h

omit h [Digest] in
theorem withLabel_prepend {t : PrefixTree Slice} {r : List Bool} (h : t.label = pfx ++ r) : (t.withLabel r).prepend pfx = t := by
  rw [PrefixTree.prepend, PrefixTree.label_withLabel, ← h]
  cases t <;> rfl

omit h [Digest] in
/-- The label that is left of one whose front is cut off. -/
theorem toOption_cutLabel {l front r : List Bool} {label : LabelParser} {p : Slice} (hl : l = front ++ r)
    (hreads : label.Reads l p) (n : Nat) :
    (match label.lSame with
      | none => appendDictLabel (label.bits.drop (label.lBits - r.length)) n {}
      | some same => appendDictLabelSame same r.length n {}).toOption = built (labelBits r n) := by
  have hlen : l.length - r.length = front.length := by rw [hl, List.length_append, Nat.add_sub_cancel]
  have hbits := hreads.bits_eq
  cases hreads with
  | same b hsame =>
    have hr : r = List.replicate r.length b := by
      rw [hl, List.length_append, ← List.replicate_append_replicate] at hsame
      exact (List.append_inj' hsame (by rw [List.length_replicate])).2
    show (appendDictLabelSame b r.length n {}).toOption = _
    rw [toOption_appendDictLabelSame, ← hr]
  | any =>
    show (appendDictLabel (LabelParser.bits _ |>.drop (l.length - r.length)) n {}).toOption = _
    rw [hbits, hlen, hl, List.drop_left, toOption_appendDictLabel]

/-- The prefix ends on the label. -/
theorem prefixRoot_extracted {m : Nat} {t : PrefixTree Slice} {r : List Bool} {label : LabelParser} {p : Slice}
    (hm : m ≤ pfx.length) (hlabel : t.label = pfx.drop m ++ r) (hreads : label.Reads t.label p)
    (hb : B (keyBits - m - t.label.length) p t) :
    Extracted B keyBits pfx removePrefix t m (prefixRoot keyBits pfx removePrefix label m) := by
  have hcut := PrefixTree.cut_label (pfx.drop m) r hlabel
  have hlen : t.label.length = pfx.length - m + r.length := by rw [hlabel, List.length_append, List.length_drop]
  unfold prefixRoot
  by_cases hend : (!removePrefix) = true ∧ m = 0
  · rw [if_pos hend]
    obtain ⟨hremove, rfl⟩ := hend
    have hremove : removePrefix = false := by simpa using hremove
    rw [List.drop_zero] at hlabel
    refine .same hcut rfl ?_ hremove rfl
    rw [hremove, under, if_neg Bool.false_ne_true, withLabel_prepend hlabel]
  · rw [if_neg hend]
    refine .made (p := p) hcut ?_ ?_
    · rw [PrefixTree.label_withLabel, show keyBits - pfx.length - r.length = keyBits - m - t.label.length by omega]
      exact h.withLabel r hb
    · have hlast : m + label.lBits - pfx.length = r.length := by
        rw [hreads.lBits_eq]
        omega
      have hbuilt : (if (!removePrefix) = true then appendDictLabel (pfx.take m ++ label.bits) keyBits {}
          else match label.lSame with
            | none => appendDictLabel (label.bits.drop (label.lBits - r.length)) (keyBits - pfx.length) {}
            | some same => appendDictLabelSame same r.length (keyBits - pfx.length) {}).toOption =
          built (labelBits (under pfx removePrefix (t.withLabel r)).label (bitsUnder keyBits pfx removePrefix)) := by
        cases removePrefix with
        | false =>
          rw [if_pos (by rfl), toOption_appendDictLabel, hreads.bits_eq, hlabel, ← List.append_assoc, List.take_append_drop]
          show _ = built (labelBits ((t.withLabel r).prepend pfx).label keyBits)
          rw [PrefixTree.label_prepend, PrefixTree.label_withLabel]
        | true =>
          rw [if_neg (by decide), toOption_cutLabel hlabel hreads]
          show _ = built (labelBits (t.withLabel r).label (keyBits - pfx.length))
          rw [PrefixTree.label_withLabel]
      have hnode := toOption_relabel hbuilt
        "cannot create new dictionary root while constructing prefix subdictionary" label.payload
      rw [hreads.payload_eq] at hnode
      dsimp only
      rw [hlast, toOption_bind, hreads.payload_eq, hnode]
      cases Dict.node _ _ p <;> rfl

/-- The loop ends on the label. -/
theorem extractPrefix_label {m : Nat} {t : PrefixTree Slice} {r : List Bool} {c : Cell} (hm : m ≤ pfx.length)
    (hc : R (keyBits - m) t c) (hl : t.label = pfx.drop m ++ r) :
    Extracted B keyBits pfx removePrefix t m (extractPrefix ops.labelMode keyBits pfx removePrefix (some c) m) := by
  obtain ⟨label, p, hlabel, hreads, hb⟩ := h.ofCell hc
  have hlen : label.lBits = pfx.length - m + r.length := by
    rw [hreads.lBits_eq, hl, List.length_append, List.length_drop]
  have hcommon : label.commonPrefixLen (pfx.drop m) = pfx.length - m := by
    rw [LabelParser.commonPrefixLen, hreads.bits_eq, commonPrefixLen_comm, hl, commonPrefixLen_self_append, List.length_drop]
  rw [extractPrefix, hlabel]
  simp only [bind, Except.bind, hcommon]
  rw [if_neg (by omega), dif_neg (by omega)]
  exact prefixRoot_extracted h hm hl hreads hb

/-- The loop ends where the label parts from the prefix. -/
theorem extractPrefix_diverge {m : Nat} {t : PrefixTree Slice} {u r s : List Bool} {b : Bool} {c : Cell}
    (hc : R (keyBits - m) t c) (hl : t.label = u ++ b :: r) (hpfx : pfx.drop m = u ++ (!b) :: s) :
    Extracted B keyBits pfx removePrefix t m (extractPrefix ops.labelMode keyBits pfx removePrefix (some c) m) := by
  obtain ⟨label, p, hlabel, hreads, -⟩ := h.ofCell hc
  have hlen : label.lBits = u.length + (r.length + 1) := by rw [hreads.lBits_eq, hl, List.length_append, List.length_cons]
  have hrest := congrArg List.length hpfx
  rw [List.length_drop, List.length_append, List.length_cons] at hrest
  have hcommon : label.commonPrefixLen (pfx.drop m) = u.length := by
    rw [LabelParser.commonPrefixLen, hreads.bits_eq, hl, hpfx, commonPrefixLen_diverge]
  refine .gone ?_ ?_
  · rw [hpfx, PrefixTree.cut_diverge hl]
  · rw [extractPrefix, hlabel]
    simp only [bind, Except.bind, hcommon]
    rw [if_pos (by omega)]
    rfl

/-- What is extracted is what is under the prefix. -/
theorem extractPrefix_extracted {m : Nat} {t : PrefixTree Slice} {c : Cell} (hm : m ≤ pfx.length) (hle : pfx.length ≤ keyBits)
    (hc : R (keyBits - m) t c) :
    Extracted B keyBits pfx removePrefix t m (extractPrefix ops.labelMode keyBits pfx removePrefix (some c) m) := by
  induction t generalizing m c with
  | leaf l v =>
    have hkeyed : l.length = keyBits - m := h.keyed hc
    generalize hrest : pfx.drop m = rest
    have hlen : rest.length = pfx.length - m := by rw [← hrest, List.length_drop]
    cases PrefixTree.cutStep (.leaf l v) rest with
    | label hl => exact extractPrefix_label h hm hc (hrest ▸ hl)
    | longer =>
      rw [List.length_append, List.length_cons] at hlen
      omega
    | diverge hl => exact extractPrefix_diverge h hc hl hrest
  | fork l x y ihx ihy =>
    generalize hrest : pfx.drop m = rest
    have hlen : rest.length = pfx.length - m := by rw [← hrest, List.length_drop]
    cases PrefixTree.cutStep (.fork l x y) rest with
    | label hl => exact extractPrefix_label h hm hc (hrest ▸ hl)
    | @side _ r b _ _ =>
      obtain ⟨label, k, cx, cy, hlabel, hl, hbits, hx, hy, hk, hcx, hcy⟩ := h.ofCell_fork hc
      rw [List.length_append, List.length_cons] at hlen
      have hcommon : label.commonPrefixLen (pfx.drop m) = l.length := by
        rw [LabelParser.commonPrefixLen, hbits, hrest, commonPrefixLen_self_append]
      have hbit : pfx.getD (m + l.length) false = b := by
        rw [List.getD_eq_getElem?_getD, ← List.getElem?_drop, hrest, List.getElem?_append_right (le_refl l.length),
          Nat.sub_self]
        rfl
      have hnext : pfx.drop (m + l.length + 1) = r := by
        rw [Nat.add_assoc, ← List.drop_drop, hrest, List.append_cons]
        exact List.drop_left' (by simp)
      have hside : Extracted B keyBits pfx removePrefix (if b then y else x) (m + l.length + 1)
          (extractPrefix ops.labelMode keyBits pfx removePrefix label.remainder.refs[b.toNat]? (m + l.length + 1)) := by
        have hbelow : keyBits - (m + l.length + 1) = k := by omega
        cases b with
        | false => exact hx ▸ ihx (by omega) (hbelow ▸ hcx)
        | true => exact hy ▸ ihy (by omega) (hbelow ▸ hcy)
      have hstep : extractPrefix ops.labelMode keyBits pfx removePrefix (some c) m =
          extractPrefix ops.labelMode keyBits pfx removePrefix label.remainder.refs[b.toNat]? (m + l.length + 1) := by
        rw [extractPrefix, hlabel]
        simp only [bind, Except.bind, hcommon]
        rw [if_neg (by omega), dif_pos (by omega), hl, hbit]
      have hcut : (PrefixTree.fork l x y).cut (l ++ b :: r) = (if b then y else x).cut (pfx.drop (m + l.length + 1)) := by
        rw [PrefixTree.cut_fork, hnext]
      rw [hstep]
      cases hside with
      | gone hnone hr => exact .gone (by rw [hrest, hcut, hnone]) hr
      | same _ hzero => omega
      | made hsome hb hr => exact .made (by rw [hrest, hcut, hsome]) hb hr
    | diverge hl => exact extractPrefix_diverge h hc hl hrest

end Extract

/-! ## Maps -/

/-- `map_func_t`: it puts its value behind the label of a leaf, or the leaf is omitted. -/
abbrev MapFunc := CellBuilder → Slice → List Bool → Result (Option CellBuilder)

/-- The forks of `dict_map`. -/
def mapForkOps : ForkOps where
  labelMode := .chkAll
  finishFork cb c1 c2 _ := do
    let cb ← cb.storeRef c1
    let cb ← cb.storeRef c2
    cb.finalize

/-- `dict_map`. -/
def dictMap (mapFunc : MapFunc) (dict : Option Cell) (key : List Bool) (n : Nat) : Result (Option Cell) :=
  match dict with
  | none => .ok none
  | some cell => do
    let label ← LabelParser.ofCell (some cell) n .chkAll
    let key := key ++ label.bits
    if _hn : label.lBits < n then
      let m := n - label.lBits - 1
      let c1 ← dictMap mapFunc label.remainder.refs[0]? (key ++ [false]) m
      let c2 ← dictMap mapFunc label.remainder.refs[1]? (key ++ [true]) m
      rejoinCells mapForkOps label.bits n c1 c2
    else
      let cb ← appendDictLabel label.bits n {}
      match ← mapFunc cb label.payload key with
      | none => return none
      | some cb => return some (← cb.finalize)
termination_by n

/-- What a function makes of the value of a key; `none`: the key is dropped. -/
abbrev ValueMap := List Bool → Slice → Result (Option Slice)

/-- In the leaves of keys of at most `n` bits the image of a value is put in as it is; for one that does not fit the leaf
is omitted, or it is an error. -/
structure MapFunc.Implements (mapFunc : MapFunc) (n : Nat) (f : ValueMap) : Prop where
  error : ∀ {key v e l}, l.length ≤ n → f key v = .error e → mapFunc (leafBuilder l) v key = .error e
  drop : ∀ {key v l}, l.length ≤ n → f key v = .ok none → mapFunc (leafBuilder l) v key = .ok none
  value : ∀ {key v w l cb}, l.length ≤ n → f key v = .ok (some w) → (leafBuilder l).appendSliceBool w = some cb →
    mapFunc (leafBuilder l) v key = .ok (some cb)
  overflow : ∀ {key v w l}, l.length ≤ n → f key v = .ok (some w) → (leafBuilder l).appendSliceBool w = none →
    mapFunc (leafBuilder l) v key = .ok none ∨ ∃ e, mapFunc (leafBuilder l) v key = .error e

/-- What may become of the value of a key: its image, or nothing if the image does not fit. -/
def ImageOf (f : ValueMap) (N : Nat) (key : List Bool) (v : Slice) (r : Option Slice) : Prop :=
  f key v = .ok r ∨ r = none ∧ ∃ w, f key v = .ok (some w) ∧ ¬ ValueFits N key w

/-- A mapped tree: each value is mapped; or there is an error; or an image does not fit. -/
inductive Mapped (f : ValueMap) (N n : Nat) (q : List Bool) (t : PrefixTree Slice) : Result (Option Cell) → Prop
  | ok {root : Option Cell} {t' : Option (PrefixTree Slice)} (hroot : Parses? True n t' root)
      (hnone : ∀ k, t.get k = none → PrefixTree.get? t' k = none)
      (hmap : ∀ k v, t.get k = some v → ImageOf f N (q ++ k) v (PrefixTree.get? t' k)) : Mapped f N n q t (.ok root)
  | failed {e : Fail} {k : List Bool} {v : Slice} (hk : t.get k = some v) (h : f (q ++ k) v = .error e) :
      Mapped f N n q t (.error e)
  | overflow {e : Fail} {k : List Bool} {v w : Slice} (hk : t.get k = some v) (h : f (q ++ k) v = .ok (some w))
      (hfit : ¬ ValueFits N (q ++ k) w) : Mapped f N n q t (.error e)

section Map

variable {mapFunc : MapFunc} {f : ValueMap} {N : Nat}

theorem mapForkOps_plain : mapForkOps.Plain where
  labelMode := rfl
  finishFork _ _ _ _ := toOption_finalize _

/-- An error on a side of a fork is one of the fork. -/
theorem Mapped.of_branch {n m : Nat} {q l : List Bool} {b : Bool} {x y : PrefixTree Slice} {e : Fail}
    (h : Mapped f N m (q ++ l ++ [b]) (if b then y else x) (.error e)) : Mapped f N n q (.fork l x y) (.error e) := by
  have hget : ∀ k, (PrefixTree.fork l x y).get (l ++ b :: k) = (if b then y else x).get k := by
    intro k
    cases b
    · exact PrefixTree.get_fork_false l k x y
    · exact PrefixTree.get_fork_true l k x y
  cases h with
  | @failed _ k v hk h => exact .failed (k := l ++ b :: k) ((hget k).trans hk) (by simpa using h)
  | @overflow _ k v w hk h hfit =>
    exact .overflow (k := l ++ b :: k) ((hget k).trans hk) (by simpa using h) (by simpa using hfit)

variable (h : mapFunc.Implements N f)

include h

/-- A leaf gets its image. -/
theorem mapped_leaf (hN : N ≤ maxDepth) {q l : List Bool} {v : Slice} (hq : q.length + l.length = N) :
    Mapped f N l.length q (.leaf l v) (do
      match ← mapFunc (leafBuilder l) v (q ++ l) with
      | none => return none
      | some cb => return some (← cb.finalize)) := by
  have hlen : l.length ≤ N := by omega
  have hself : (PrefixTree.leaf l v).get l = some v := PrefixTree.get_leaf_self l v
  have honly : ∀ k w, (PrefixTree.leaf l v).get k = some w → k = l ∧ w = v := by
    intro k w hk
    rw [PrefixTree.get] at hk
    split at hk
    · next hkl =>
      cases hk
      exact ⟨hkl, rfl⟩
    · cases hk
  have hdropped (hr : ImageOf f N (q ++ l) v none) : Mapped f N l.length q (.leaf l v) (.ok none) := by
    refine @Mapped.ok _ f N l.length q _ none none rfl (fun _ _ => rfl) fun k w hk => ?_
    obtain ⟨rfl, rfl⟩ := honly k w hk
    exact hr
  cases hf : f (q ++ l) v with
  | error e =>
    rw [h.error hlen hf]
    exact .failed hself hf
  | ok o =>
    cases o with
    | none =>
      rw [h.drop hlen hf]
      exact hdropped (.inl hf)
    | some w =>
      have hbehind : Behind True (l.length - l.length) w (.leaf l w) := ⟨Nat.sub_self _, rfl⟩
      have hfits : ¬ FitsAt N q (PrefixTree.leaf l w).get → ¬ ValueFits N (q ++ l) w := by
        intro hno hfit
        refine hno fun k u hk => ?_
        rw [PrefixTree.get] at hk
        split at hk
        · next hkl =>
          cases hk
          rwa [hkl]
        · cases hk
      rcases appendSliceBool_cases w (leafBuilder l) with happend | ⟨happend, -⟩
      · rw [h.value hlen hf happend]
        have hfinal : (CellBuilder.finalize ⟨(leafBuilder l).bits ++ w.bits, (leafBuilder l).refs ++ w.refs⟩).toOption =
            node l l.length w := toOption_finalize _
        rcases built_cases (t := .leaf l w) (le_refl l.length) hbehind hfinal with ⟨c, hc, hparses⟩ | ⟨e, he, hover⟩
        · show Mapped f N l.length q _ (CellBuilder.finalize _ >>= _)
          rw [hc]
          refine @Mapped.ok _ f N l.length q _ (some c) (some (.leaf l w)) ⟨c, rfl, hparses⟩ ?_ ?_
          · intro k hk
            rw [PrefixTree.get] at hk
            split at hk
            · cases hk
            · next hkl => exact if_neg hkl
          · intro k u hk
            obtain ⟨rfl, rfl⟩ := honly k u hk
            exact .inl (hf.trans (congrArg Except.ok (PrefixTree.get_leaf_self k w).symm))
        · show Mapped f N l.length q _ (CellBuilder.finalize _ >>= _)
          rw [he]
          exact .overflow hself hf (hfits (hover hN hq))
      · have hno := hfits (not_fitsAt_leaf hN hq happend)
        rcases h.overflow hlen hf happend with hnone | ⟨e, he⟩
        · rw [hnone]
          exact hdropped (.inr ⟨rfl, w, hf, hno⟩)
        · rw [he]
          exact .overflow hself hf hno

/-- What is mapped is every value of the tree, and all labels are written in the shortest form. -/
theorem dictMap_mapped {canon : Prop} (hN : N ≤ maxDepth) {n : Nat} {q : List Bool} {t : PrefixTree Slice} {c : Cell}
    (hc : Parses canon n t c) (hq : q.length + n = N) : Mapped f N n q t (dictMap mapFunc (some c) q n) := by
  have hrep : Represents mapForkOps .plain (Parses canon) (Behind canon) := represents_parses mapForkOps_plain
  induction t generalizing n c q with
  | leaf l v =>
    obtain ⟨label, p, hlabel, hreads, hp, rfl⟩ := hrep.ofCell_leaf hc
    cases hp
    have hstart := appendDictLabel_eq hc.length_label_le
    have hlabel' : LabelParser.ofCell (some c) l.length .chkAll = .ok label := hlabel
    rw [PrefixTree.label] at hstart
    rw [dictMap, hlabel']
    simp only [bind, Except.bind]
    rw [dif_neg (by rw [hreads.lBits_eq]; exact lt_irrefl _), hreads.bits_eq, hstart, hreads.payload_eq]
    exact mapped_leaf h hN hq
  | fork l x y ihx ihy =>
    obtain ⟨label, m, cx, cy, hlabel, hl, hbits, hcx, hcy, hm, hx, hy⟩ := hrep.ofCell_fork hc
    have hm' : n - l.length - 1 = m := by omega
    have hlt : label.lBits < n := by omega
    have hlabel' : LabelParser.ofCell (some c) n .chkAll = .ok label := hlabel
    have hleft := ihx (q := q ++ l ++ [false]) hx (by simp; omega)
    have hright := ihy (q := q ++ l ++ [true]) hy (by simp; omega)
    rw [dictMap, hlabel']
    simp only [bind, Except.bind, dif_pos hlt, hbits, hl, hm', hcx, hcy]
    cases hrl : dictMap mapFunc (some cx) (q ++ l ++ [false]) m with
    | error e =>
      rw [hrl] at hleft
      exact Mapped.of_branch (b := false) hleft
    | ok c1 =>
      dsimp only
      cases hrr : dictMap mapFunc (some cy) (q ++ l ++ [true]) m with
      | error e =>
        rw [hrr] at hright
        exact Mapped.of_branch (b := true) hright
      | ok c2 =>
        dsimp only
        rw [hrl] at hleft
        rw [hrr] at hright
        cases hleft with
        | @ok _ x' hx' hnonel hmapl =>
          cases hright with
          | @ok _ y' hy' hnoner hmapr =>
            have hnone (k : List Bool) (hk : (PrefixTree.fork l x y).get k = none) :
                PrefixTree.get? (PrefixTree.rejoin l x' y') k = none := by
              by_cases hside : ∃ b r, k = l ++ b :: r
              · obtain ⟨b, r, rfl⟩ := hside
                cases b
                · rw [PrefixTree.get_fork_false] at hk
                  rw [PrefixTree.get?_rejoin_false]
                  exact hnonel r hk
                · rw [PrefixTree.get_fork_true] at hk
                  rw [PrefixTree.get?_rejoin_true]
                  exact hnoner r hk
              · exact PrefixTree.get?_rejoin_of_not l _ _ k fun b r hkl => hside ⟨b, r, hkl⟩
            have hmap (k : List Bool) (v : Slice) (hk : (PrefixTree.fork l x y).get k = some v) :
                ImageOf f N (q ++ k) v (PrefixTree.get? (PrefixTree.rejoin l x' y') k) := by
              by_cases hside : ∃ b r, k = l ++ b :: r
              · obtain ⟨b, r, rfl⟩ := hside
                cases b
                · rw [PrefixTree.get_fork_false] at hk
                  rw [PrefixTree.get?_rejoin_false]
                  simpa using hmapl r v hk
                · rw [PrefixTree.get_fork_true] at hk
                  rw [PrefixTree.get?_rejoin_true]
                  simpa using hmapr r v hk
              · have hno := PrefixTree.get?_rejoin_of_not l (some x) (some y) k fun b r hkl => hside ⟨b, r, hkl⟩
                cases hno.symm.trans hk
            rcases rejoinCells_cases mapForkOps_plain hN hq hm hx' hy' with ⟨root, hroot, hparses⟩ | ⟨e, he, hno⟩
            · rw [hroot]
              exact .ok hparses hnone hmap
            · rw [he]
              -- the value that does not fit is the image of one in the tree
              obtain ⟨k, w, hw, hover⟩ : ∃ k w, PrefixTree.get? (PrefixTree.rejoin l x' y') k = some w ∧
                  ¬ ValueFits N (q ++ k) w := by simpa [FitsAt] using hno
              cases hv : (PrefixTree.fork l x y).get k with
              | none => cases hw.symm.trans (hnone k hv)
              | some v =>
                rcases hmap k v hv with himage | ⟨hdrop, -⟩
                · exact .overflow hv (himage.trans (congrArg Except.ok hw)) hover
                · cases hw.symm.trans hdrop

end Map

end TonWallet.Vm.Dict
