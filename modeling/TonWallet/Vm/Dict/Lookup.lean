/-
Search and deletion in a dictionary (`DictionaryFixed::lookup` and `dict_lookup_delete`): where a deletion leaves
a fork one branch, the fork goes and its edge and the branch's become one.
-/
import TonWallet.Vm.Dict.Set

namespace TonWallet.Vm.Dict

open Lib TonWallet.Td CellBuilder

/-! ## Search -/

/-- The loop of `lookup`. -/
def dictLookup (mode : LabelMode) (cell : Option Cell) (key : List Bool) : Result (Option Slice) := do
  let label ← LabelParser.ofCell cell key.length mode
  if label.isPrefixOf key then
    match _hkey : key.drop label.lBits with
    | [] => return some label.payload
    | sw :: rest => dictLookup mode label.remainder.refs[sw.toNat]? rest
  else return none
termination_by key.length
decreasing_by
  have := congrArg List.length _hkey
  rw [List.length_drop, List.length_cons] at this
  omega

section Lookup

variable {mode : LabelMode} {cell : Option Cell} {key : List Bool} {label : LabelParser}
  (hlabel : LabelParser.ofCell cell key.length mode = .ok label)

include hlabel

theorem dictLookup_part (hpfx : label.isPrefixOf key = false) : dictLookup mode cell key = .ok none := by
  rw [dictLookup, hlabel]
  exact if_neg (by rw [hpfx]; exact Bool.false_ne_true)

theorem dictLookup_leaf (hpfx : label.isPrefixOf key = true) (hkey : key.drop label.lBits = []) :
    dictLookup mode cell key = .ok (some label.payload) := by
  rw [dictLookup, hlabel]
  refine (if_pos hpfx).trans ?_
  split
  · rfl
  · next h => cases hkey.symm.trans h

theorem dictLookup_fork (hpfx : label.isPrefixOf key = true) {sw : Bool} {rest : List Bool}
    (hkey : key.drop label.lBits = sw :: rest) :
    dictLookup mode cell key = dictLookup mode label.remainder.refs[sw.toNat]? rest := by
  rw [dictLookup, hlabel]
  refine (if_pos hpfx).trans ?_
  split
  · next h => cases hkey.symm.trans h
  · next h =>
    cases hkey.symm.trans h
    rfl

end Lookup

variable [Digest]

theorem dictLookup_store {ops : ForkOps} {L : Layout} (h : ops.Implements L) {n : Nat} {t : PrefixTree Slice}
    {key : List Bool} {c : Cell} (ht : t.Keyed n) (hkey : key.length = n) (hs : store L n t = some c) :
    dictLookup ops.labelMode (some c) key = .ok ((t.get key).bind L.leaf) := by
  induction ht.locate hkey generalizing n c with
  | @diverge t p r s b hl =>
    obtain ⟨label, payload, hlabel, hreads, -⟩ := h.ofCell_store ht hs
    have hpfx : label.isPrefixOf (p ++ (!b) :: s) = false := by
      rw [LabelParser.isPrefixOf, hreads.bits_eq, hl, ← Bool.not_eq_true, List.isPrefixOf_iff_prefix]
      rintro ⟨q, hq⟩
      rw [List.append_assoc] at hq
      have := List.append_cancel_left hq
      cases b <;> cases this
    rw [dictLookup_part (hkey ▸ hlabel) hpfx, PrefixTree.get_diverge hl]
    rfl
  | leaf k u =>
    obtain ⟨label, payload, hlabel, hreads, hbelow⟩ := h.ofCell_store ht hs
    have hleaf : L.leaf u = some payload := hbelow
    obtain ⟨-, hdrop, -⟩ := hreads.descend []
    have hpfx := hreads.isPrefixOf_append []
    rw [PrefixTree.label, List.append_nil] at hdrop hpfx
    rw [dictLookup_leaf (hkey ▸ hlabel) hpfx hdrop, hreads.payload_eq, PrefixTree.get_leaf_self,
      Option.bind_some, hleaf]
  | @left l r a b _ ih =>
    obtain ⟨label, payload, hlabel, hreads, hbelow⟩ := h.ofCell_store ht hs
    obtain ⟨ca, cb, e, hca, -, -, rfl⟩ := below_fork_eq_some hbelow
    obtain ⟨m, hm, ha, -⟩ := ht
    obtain ⟨-, hdrop, -⟩ := hreads.descend (false :: r)
    have hpfx := hreads.isPrefixOf_append (false :: r)
    have hn := hkey
    rw [List.length_append, List.length_cons] at hkey
    rw [PrefixTree.label] at hdrop hpfx hca
    rw [dictLookup_fork (hn ▸ hlabel) hpfx hdrop, hreads.refs_eq, PrefixTree.get_fork_false]
    exact ih ha (by omega) (by rwa [show n - l.length - 1 = m by omega] at hca)
  | @right l r b a _ ih =>
    obtain ⟨label, payload, hlabel, hreads, hbelow⟩ := h.ofCell_store ht hs
    obtain ⟨ca, cb, e, -, hcb, -, rfl⟩ := below_fork_eq_some hbelow
    obtain ⟨m, hm, -, hb⟩ := ht
    obtain ⟨-, hdrop, -⟩ := hreads.descend (true :: r)
    have hpfx := hreads.isPrefixOf_append (true :: r)
    have hn := hkey
    rw [List.length_append, List.length_cons] at hkey
    rw [PrefixTree.label] at hdrop hpfx hcb
    rw [dictLookup_fork (hn ▸ hlabel) hpfx hdrop, hreads.refs_eq, PrefixTree.get_fork_true]
    exact ih hb (by omega) (by rwa [show n - l.length - 1 = m by omega] at hcb)

/-! ## Deletion -/

/-- The edge to the only branch of a fork, merged with the edge to the fork. -/
def collapseEdge (ops : ForkOps) (label : List Bool) (n : Nat) (side : Bool) (child : Cell) : Result Cell := do
  let label2 ← LabelParser.ofCell (some child) (n - label.length - 1) ops.labelMode
  appendDictLabel (label ++ [side] ++ label2.bits) n {} >>=
    finishPayload "cannot change label of an old dictionary cell while merging edges" label2.payload

/-- What becomes of a fork whose branches have changed. -/
def rejoinCells (ops : ForkOps) (label : List Bool) (n : Nat) : Option Cell → Option Cell → Result (Option Cell)
  | some c1, some c2 => do return some (← createFork ops label n (some c1) (some c2))
  | some c1, none => do return some (← collapseEdge ops label n false c1)
  | none, some c2 => do return some (← collapseEdge ops label n true c2)
  | none, none => return none

/-- `dict_lookup_delete`: the value that was there, if one was, and then the dictionary without it. -/
def dictLookupDelete (ops : ForkOps) (dict : Option Cell) (key : List Bool) : Result (Option Slice × Option Cell) :=
  let n := key.length
  match dict with
  | none => .ok (none, none)
  | some cell => do
    let label ← LabelParser.ofCell (some cell) n ops.labelMode
    if label.commonPrefixLen key < label.lBits then return (none, none)
    else
      let c1 := label.remainder.refs[0]?
      let c2 := label.remainder.refs[1]?
      match _hkey : key.drop label.lBits with
      | [] => return (some label.payload, none)
      | true :: rest => do
        let res ← dictLookupDelete ops c2 rest
        match res.1 with
        | none => return (none, none)
        | some oldVal => return (some oldVal, ← rejoinCells ops (key.take label.lBits) n c1 res.2)
      | false :: rest => do
        let res ← dictLookupDelete ops c1 rest
        match res.1 with
        | none => return (none, none)
        | some oldVal => return (some oldVal, ← rejoinCells ops (key.take label.lBits) n res.2 c2)
termination_by key.length
decreasing_by
  all_goals
    have := congrArg List.length _hkey
    rw [List.length_drop, List.length_cons] at this
    omega

section Steps

variable {ops : ForkOps} {cell : Cell} {key : List Bool} {label : LabelParser}
  (hlabel : LabelParser.ofCell (some cell) key.length ops.labelMode = .ok label)

include hlabel

theorem dictLookupDelete_diverge (hlt : label.commonPrefixLen key < label.lBits) :
    dictLookupDelete ops (some cell) key = .ok (none, none) := by
  rw [dictLookupDelete]
  dsimp only
  rw [hlabel]
  exact if_pos hlt

variable (hle : ¬ label.commonPrefixLen key < label.lBits)

include hle

theorem dictLookupDelete_leaf (hkey : key.drop label.lBits = []) :
    dictLookupDelete ops (some cell) key = .ok (some label.payload, none) := by
  rw [dictLookupDelete]
  dsimp only
  rw [hlabel]
  refine (if_neg hle).trans ?_
  split
  · rfl
  · next h => cases hkey.symm.trans h
  · next h => cases hkey.symm.trans h

theorem dictLookupDelete_right {rest : List Bool} (hkey : key.drop label.lBits = true :: rest) :
    dictLookupDelete ops (some cell) key = dictLookupDelete ops label.remainder.refs[1]? rest >>= fun res =>
      match res.1 with
      | none => return (none, none)
      | some oldVal => return (some oldVal,
        ← rejoinCells ops (key.take label.lBits) key.length label.remainder.refs[0]? res.2) := by
  rw [dictLookupDelete]
  dsimp only
  rw [hlabel]
  refine (if_neg hle).trans ?_
  split
  · next h => cases hkey.symm.trans h
  · next h =>
    cases hkey.symm.trans h
    rfl
  · next h => cases hkey.symm.trans h

theorem dictLookupDelete_left {rest : List Bool} (hkey : key.drop label.lBits = false :: rest) :
    dictLookupDelete ops (some cell) key = dictLookupDelete ops label.remainder.refs[0]? rest >>= fun res =>
      match res.1 with
      | none => return (none, none)
      | some oldVal => return (some oldVal,
        ← rejoinCells ops (key.take label.lBits) key.length res.2 label.remainder.refs[1]?) := by
  rw [dictLookupDelete]
  dsimp only
  rw [hlabel]
  refine (if_neg hle).trans ?_
  split
  · next h => cases hkey.symm.trans h
  · next h => cases hkey.symm.trans h
  · next h =>
    cases hkey.symm.trans h
    rfl

end Steps

section Delete

/-- What a deletion from a stored tree comes to. -/
def eraseSpec (L : Layout) (n : Nat) (t : Option (PrefixTree Slice)) (key : List Bool) :
    Option (Option Slice × Option Cell) :=
  match PrefixTree.get? t key with
  | none => some (none, none)
  | some u => (store? L n (PrefixTree.erase? t key)).map fun c => (L.leaf u, c)

theorem eraseSpec_some (L : Layout) (n : Nat) (t : PrefixTree Slice) (key : List Bool) :
    eraseSpec L n (some t) key = match t.get key with
    | none => some (none, none)
    | some u => (store? L n (t.erase key)).map fun c => (L.leaf u, c) := rfl

variable {ops : ForkOps} {L : Layout} (h : ops.Implements L)

include h

/-- Merged edges store the branch with the bits of both. -/
theorem toOption_collapseEdge {m n : Nat} {t : PrefixTree Slice} {c : Cell} (ht : t.Keyed m) (hs : store L m t = some c)
    {l : List Bool} (hm : l.length + 1 + m = n) (side : Bool) :
    (collapseEdge ops l n side c).toOption = store L n (t.prepend (l ++ [side])) := by
  obtain ⟨label, payload, hlabel, hreads, hbelow⟩ := h.ofCell_store ht hs
  have hlen : n - l.length - 1 = m := by omega
  unfold collapseEdge
  rw [hlen, hlabel, toOption_bind, toOption_ok, Option.bind_some, hreads.bits_eq, hreads.payload_eq,
    toOption_relabel (toOption_appendDictLabel _ n), PrefixTree.prepend, store_withLabel (m := m), hbelow]
  · rfl
  · simp only [List.length_append, List.length_singleton]
    omega

/-- The fork that is left stores the rejoined branches. -/
theorem toOption_rejoinCells {m n : Nat} {a b : Option (PrefixTree Slice)} {ca cb : Option Cell}
    (ha : PrefixTree.Keyed? m a) (hb : PrefixTree.Keyed? m b) (hca : store? L m a = some ca)
    (hcb : store? L m b = some cb) {l : List Bool} (hm : l.length + 1 + m = n) :
    (rejoinCells ops l n ca cb).toOption = store? L n (PrefixTree.rejoin l a b) := by
  cases a with
  | none =>
    cases hca
    cases b with
    | none =>
      cases hcb
      rfl
    | some b =>
      obtain ⟨cb, hcb', rfl⟩ := store?_some hcb
      show Except.toOption (collapseEdge ops l n true cb >>= _) = _
      rw [toOption_bind, toOption_collapseEdge h (hb b rfl) hcb' hm]
      exact (Option.map_eq_bind ..).symm
  | some a =>
    obtain ⟨ca, hca', rfl⟩ := store?_some hca
    cases b with
    | none =>
      cases hcb
      show Except.toOption (collapseEdge ops l n false ca >>= _) = _
      rw [toOption_bind, toOption_collapseEdge h (ha a rfl) hca' hm]
      exact (Option.map_eq_bind ..).symm
    | some b =>
      obtain ⟨cb, hcb', rfl⟩ := store?_some hcb
      show Except.toOption (createFork ops l n (some ca) (some cb) >>= _) = _
      rw [toOption_bind, h.toOption_fork (ha a rfl) (hb b rfl) hca' hcb' hm]
      exact (Option.map_eq_bind ..).symm

theorem toOption_dictLookupDelete_some {n : Nat} {t : PrefixTree Slice} {key : List Bool} {c : Cell} (ht : t.Keyed n)
    (hkey : key.length = n) (hs : store L n t = some c) :
    (dictLookupDelete ops (some c) key).toOption = eraseSpec L n (some t) key := by
  induction ht.locate hkey generalizing n c with
  | @diverge t p r s b hl =>
    obtain ⟨label, payload, hlabel, hreads, -⟩ := h.ofCell_store ht hs
    obtain ⟨hpfx, hlt⟩ := (hl ▸ hreads).part (s := s)
    rw [dictLookupDelete_diverge (hkey ▸ hlabel) (hpfx ▸ hlt), eraseSpec_some, PrefixTree.get_diverge hl]
    rfl
  | leaf k u =>
    obtain ⟨label, payload, hlabel, hreads, hbelow⟩ := h.ofCell_store ht hs
    obtain ⟨hpfx, hdrop, -⟩ := hreads.descend []
    rw [PrefixTree.label, List.append_nil] at hpfx hdrop
    have hleaf : L.leaf u = some payload := hbelow
    rw [dictLookupDelete_leaf (hkey ▸ hlabel) (by rw [hpfx]; exact lt_irrefl _) hdrop, eraseSpec_some,
      PrefixTree.get_leaf_self, hreads.payload_eq]
    dsimp only
    rw [hleaf, PrefixTree.erase_leaf]
    rfl
  | @left l r a b _ ih =>
    obtain ⟨label, payload, hlabel, hreads, hbelow⟩ := h.ofCell_store ht hs
    obtain ⟨ca, cb, e, hca, hcb, -, rfl⟩ := below_fork_eq_some hbelow
    obtain ⟨m, hm, ha, hb⟩ := ht
    obtain ⟨hpfx, hdrop, htake⟩ := hreads.descend (false :: r)
    rw [PrefixTree.label] at hpfx hdrop htake
    have hn := hkey
    rw [List.length_append, List.length_cons] at hkey
    rw [PrefixTree.label, show n - l.length - 1 = m by omega] at hca hcb
    rw [dictLookupDelete_left (hn ▸ hlabel) (by rw [hpfx]; exact lt_irrefl _) hdrop, hreads.refs_eq, htake, hn,
      toOption_bind]
    dsimp only [List.getElem?_cons_zero, List.getElem?_cons_succ]
    rw [ih ha (by omega) hca, eraseSpec_some, eraseSpec_some, PrefixTree.get_fork_false, PrefixTree.erase_left]
    cases hu : a.get r with
    | none => rfl
    | some u =>
      obtain ⟨p, hp⟩ := leaf_of_store hca hu
      dsimp only
      rw [hp]
      cases hca' : store? L m (a.erase r) with
      | none =>
        rw [(store?_rejoin_eq_none hm hca' b).1]
        rfl
      | some ca' =>
        rw [Option.map_some, Option.bind_some]
        dsimp only
        rw [toOption_bind, toOption_rejoinCells h (ha.erase (by omega)) hb.some hca' (by rw [store?, hcb]; rfl) hm]
        exact (Option.map_eq_bind ..).symm
  | @right l r b a _ ih =>
    obtain ⟨label, payload, hlabel, hreads, hbelow⟩ := h.ofCell_store ht hs
    obtain ⟨ca, cb, e, hca, hcb, -, rfl⟩ := below_fork_eq_some hbelow
    obtain ⟨m, hm, ha, hb⟩ := ht
    obtain ⟨hpfx, hdrop, htake⟩ := hreads.descend (true :: r)
    rw [PrefixTree.label] at hpfx hdrop htake
    have hn := hkey
    rw [List.length_append, List.length_cons] at hkey
    rw [PrefixTree.label, show n - l.length - 1 = m by omega] at hca hcb
    rw [dictLookupDelete_right (hn ▸ hlabel) (by rw [hpfx]; exact lt_irrefl _) hdrop, hreads.refs_eq, htake, hn,
      toOption_bind]
    dsimp only [List.getElem?_cons_zero, List.getElem?_cons_succ]
    rw [ih hb (by omega) hcb, eraseSpec_some, eraseSpec_some, PrefixTree.get_fork_true, PrefixTree.erase_right]
    cases hu : b.get r with
    | none => rfl
    | some u =>
      obtain ⟨p, hp⟩ := leaf_of_store hcb hu
      dsimp only
      rw [hp]
      cases hcb' : store? L m (b.erase r) with
      | none =>
        rw [(store?_rejoin_eq_none hm hcb' a).2]
        rfl
      | some cb' =>
        rw [Option.map_some, Option.bind_some]
        dsimp only
        rw [toOption_bind, toOption_rejoinCells h ha.some (hb.erase (by omega)) (by rw [store?, hca]; rfl) hcb' hm]
        exact (Option.map_eq_bind ..).symm

/-- A deletion from a stored tree. -/
theorem toOption_dictLookupDelete {n : Nat} {t : Option (PrefixTree Slice)} {key : List Bool} {root : Option Cell}
    (ht : PrefixTree.Keyed? n t) (hkey : key.length = n) (hs : store? L n t = some root) :
    (dictLookupDelete ops root key).toOption = eraseSpec L n t key := by
  cases t with
  | none =>
    cases hs
    rw [dictLookupDelete]
    rfl
  | some t =>
    obtain ⟨c, hc, rfl⟩ := store?_some hs
    exact toOption_dictLookupDelete_some h (ht t rfl) hkey hc

end Delete

end TonWallet.Vm.Dict
