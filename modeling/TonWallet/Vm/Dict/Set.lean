/-
Insertion into a dictionary (`dict_set`, `dict_lookup_set` and `AugmentedDictionary::dict_set`): the same tree
surgery, which differs in how the new leaf and the forks above it are finished.
-/
import TonWallet.Vm.Dict.Tree

namespace TonWallet.Vm.Dict

open Lib TonWallet.Td CellBuilder

/-- `DictionaryBase::SetMode`. -/
inductive SetMode
  | set
  | replace
  | add
  deriving DecidableEq, Repr

/-- Whether a mode sets the value of a key that is there, or is not. -/
def SetMode.allows : SetMode → Bool → Bool
  | .set, _ => true
  | .replace, present => present
  | .add, present => !present

/-- What an insertion returns: the value that was there, and the changed dictionary, unless nothing changed. -/
structure SetResult where
  oldVal : Option Slice
  dict : Option Cell

/-- How a dictionary validates its labels and finishes its forks (`label_mode`, `finish_create_fork`). -/
structure ForkOps where
  labelMode : LabelMode
  finishFork : CellBuilder → Option Cell → Option Cell → Nat → Result Cell

/-- How an insertion finishes the new leaf besides, and its text for an old cell that it cannot relabel. -/
structure SetOps extends ForkOps where
  finishLeaf : CellBuilder → Result Cell
  changeLabel : String

variable [Digest]

/-- `cell_builder_add_slice_bool` and `finalize`: the payload of an old edge goes under a new label. -/
def finishPayload (text : String) (payload : Slice) (cb : CellBuilder) : Result Cell :=
  match cb.appendSliceBool payload with
  | some cb => cb.finalize
  | none => .error (.vmError text)

/-- `append_dict_label` and the finish of a fork. -/
def createFork (ops : ForkOps) (label : List Bool) (n : Nat) (c1 c2 : Option Cell) : Result Cell := do
  let cb ← appendDictLabel label n {}
  ops.finishFork cb c1 c2 (n - label.length)

/-- A new fork inside the edge to a dictionary, for a key that parts from its label. -/
def splitEdge (ops : SetOps) (label : LabelParser) (key : List Bool) (pfxLen : Nat) : Result Cell := do
  let n := key.length
  let m := n - pfxLen - 1
  let c1 ← appendDictLabel (key.drop (pfxLen + 1)) m {} >>= ops.finishLeaf
  let t := label.lBits - pfxLen - 1
  let c2 ← (match label.lSame with
    | some same => appendDictLabelSame same t m {}
    | none => appendDictLabel (label.bits.drop (pfxLen + 1)) m {}) >>= finishPayload ops.changeLabel label.payload
  if key.getD pfxLen false then createFork ops.toForkOps (key.take pfxLen) n (some c2) (some c1)
  else createFork ops.toForkOps (key.take pfxLen) n (some c1) (some c2)

/-- `dict_set` and `dict_lookup_set`. -/
def dictSetWith (ops : SetOps) (dict : Option Cell) (key : List Bool) (mode : SetMode) : Result SetResult :=
  let n := key.length
  match dict with
  | none =>
    if mode = .replace then .ok ⟨none, none⟩
    else do return ⟨none, some (← appendDictLabel key n {} >>= ops.finishLeaf)⟩
  | some cell => do
    let label ← LabelParser.ofCell (some cell) n ops.labelMode
    let pfxLen := label.commonPrefixLen key
    if pfxLen < label.lBits then
      if mode = .replace then .ok ⟨none, none⟩
      else do return ⟨none, some (← splitEdge ops label key pfxLen)⟩
    else
      let c1 := label.remainder.refs[0]?
      let c2 := label.remainder.refs[1]?
      match _hkey : key.drop label.lBits with
      | [] =>
        -- the edge leads to the leaf of the key
        if mode = .add then .ok ⟨some label.payload, none⟩
        else do return ⟨some label.payload, some (← appendDictLabel key n {} >>= ops.finishLeaf)⟩
      | true :: rest => do
        let res ← dictSetWith ops c2 rest mode
        match res.dict with
        | none => return ⟨res.oldVal, none⟩
        | some c2 => return ⟨res.oldVal, some (← createFork ops.toForkOps (key.take label.lBits) n c1 (some c2))⟩
      | false :: rest => do
        let res ← dictSetWith ops c1 rest mode
        match res.dict with
        | none => return ⟨res.oldVal, none⟩
        | some c1 => return ⟨res.oldVal, some (← createFork ops.toForkOps (key.take label.lBits) n (some c1) c2)⟩
termination_by key.length
decreasing_by
  all_goals
    have := congrArg List.length _hkey
    rw [List.length_drop, List.length_cons] at this
    omega

section Steps

variable {ops : SetOps} {cell : Cell} {key : List Bool} {mode : SetMode} {label : LabelParser}
  (hlabel : LabelParser.ofCell (some cell) key.length ops.labelMode = .ok label)

include hlabel

/-- The key parts from the label of the root edge. -/
theorem dictSetWith_diverge (hlt : label.commonPrefixLen key < label.lBits) :
    dictSetWith ops (some cell) key mode = if mode = .replace then .ok ⟨none, none⟩
      else do return ⟨none, some (← splitEdge ops label key (label.commonPrefixLen key))⟩ := by
  rw [dictSetWith]
  dsimp only
  rw [hlabel]
  exact if_pos hlt

variable (hle : ¬ label.commonPrefixLen key < label.lBits)

include hle

theorem dictSetWith_leaf (hkey : key.drop label.lBits = []) :
    dictSetWith ops (some cell) key mode = if mode = .add then .ok ⟨some label.payload, none⟩
      else do return ⟨some label.payload, some (← appendDictLabel key key.length {} >>= ops.finishLeaf)⟩ := by
  rw [dictSetWith]
  dsimp only
  rw [hlabel]
  refine (if_neg hle).trans ?_
  split
  · rfl
  · next h => cases hkey.symm.trans h
  · next h => cases hkey.symm.trans h

theorem dictSetWith_right {rest : List Bool} (hkey : key.drop label.lBits = true :: rest) :
    dictSetWith ops (some cell) key mode = dictSetWith ops label.remainder.refs[1]? rest mode >>= fun res =>
      match res.dict with
      | none => return ⟨res.oldVal, none⟩
      | some c2 => return ⟨res.oldVal,
        some (← createFork ops.toForkOps (key.take label.lBits) key.length label.remainder.refs[0]? (some c2))⟩ := by
  rw [dictSetWith]
  dsimp only
  rw [hlabel]
  refine (if_neg hle).trans ?_
  split
  · next h => cases hkey.symm.trans h
  · next h =>
    cases hkey.symm.trans h
    rfl
  · next h => cases hkey.symm.trans h

theorem dictSetWith_left {rest : List Bool} (hkey : key.drop label.lBits = false :: rest) :
    dictSetWith ops (some cell) key mode = dictSetWith ops label.remainder.refs[0]? rest mode >>= fun res =>
      match res.dict with
      | none => return ⟨res.oldVal, none⟩
      | some c1 => return ⟨res.oldVal,
        some (← createFork ops.toForkOps (key.take label.lBits) key.length (some c1) label.remainder.refs[1]?)⟩ := by
  rw [dictSetWith]
  dsimp only
  rw [hlabel]
  refine (if_neg hle).trans ?_
  split
  · next h => cases hkey.symm.trans h
  · next h => cases hkey.symm.trans h
  · next h =>
    cases hkey.symm.trans h
    rfl

end Steps

/-! ## Finishing cells -/

/-- The forks are finished as a layout says. -/
structure ForkOps.Implements (ops : ForkOps) (L : Layout) : Prop where
  finishFork : ∀ {a b : PrefixTree Slice} {ca cb : Cell} {m : Nat} (bits : List Bool), a.Keyed m → b.Keyed m →
    store L m a = some ca → store L m b = some cb →
    (ops.finishFork ⟨bits, []⟩ (some ca) (some cb) (m + 1)).toOption =
      (L.fork a b).bind fun e => cellOf ⟨bits ++ e.bits, ca :: cb :: e.refs⟩
  accepts : ∀ {a b : PrefixTree Slice} {e : Slice} (ca cb : Cell), L.fork a b = some e →
    ops.labelMode.Accepts ⟨e.bits, ca :: cb :: e.refs⟩

/-- So is the leaf of a value. -/
structure SetOps.Implements (ops : SetOps) (L : Layout) (v : Slice) : Prop extends ops.toForkOps.Implements L where
  finishLeaf : ∀ bits : List Bool, (ops.finishLeaf ⟨bits, []⟩).toOption =
    (L.leaf v).bind fun p => cellOf ⟨bits ++ p.bits, p.refs⟩

section Finish

variable {l : List Bool} {n : Nat}

/-- A label and what is built behind it make the cell of an edge. -/
theorem toOption_built {label : Result CellBuilder} (hlabel : label.toOption = built (labelBits l n))
    {f : CellBuilder → Result Cell} {p : Option Slice}
    (hf : (f ⟨labelBits l n, []⟩).toOption = p.bind fun p => cellOf ⟨labelBits l n ++ p.bits, p.refs⟩) :
    (label >>= f).toOption = p.bind (node l n) := by
  rw [toOption_bind, hlabel]
  unfold built
  split
  · exact hf
  · next h =>
    -- the label alone is too long
    cases p with
    | none => rfl
    | some p =>
      refine (cellOf_eq_none (.inl ?_)).symm
      rw [List.length_append]
      omega

theorem toOption_finishPayload (text : String) (payload : Slice) (cb : CellBuilder) :
    (finishPayload text payload cb).toOption = cellOf ⟨cb.bits ++ payload.bits, cb.refs ++ payload.refs⟩ := by
  unfold finishPayload
  rcases cb.appendSliceBool_cases payload with h | ⟨h, hlarge⟩
  · rw [h]
    exact toOption_finalize _
  · rw [h]
    refine (cellOf_eq_none ?_).symm
    show maxBits < (cb.bits ++ payload.bits).length ∨ maxRefs < (cb.refs ++ payload.refs).length
    rw [List.length_append, List.length_append]
    exact hlarge

theorem toOption_relabel {label : Result CellBuilder} (hlabel : label.toOption = built (labelBits l n)) (text : String)
    (payload : Slice) : (label >>= finishPayload text payload).toOption = node l n payload :=
  toOption_built (p := some payload) hlabel (toOption_finishPayload text payload _)

theorem SetOps.Implements.toOption_leaf {ops : SetOps} {L : Layout} {v : Slice} (h : ops.Implements L v) :
    (appendDictLabel l n {} >>= ops.finishLeaf).toOption = store L n (.leaf l v) :=
  toOption_built (toOption_appendDictLabel l n) (h.finishLeaf _)

theorem ForkOps.Implements.toOption_fork {ops : ForkOps} {L : Layout} (h : ops.Implements L) {a b : PrefixTree Slice}
    {ca cb : Cell} {m : Nat} (ha : a.Keyed m) (hb : b.Keyed m) (hca : store L m a = some ca) (hcb : store L m b = some cb)
    (hm : l.length + 1 + m = n) : (createFork ops l n (some ca) (some cb)).toOption = store L n (.fork l a b) := by
  unfold createFork
  have hn : n - l.length = m + 1 := by omega
  rw [hn, store_fork, hn, Nat.add_sub_cancel, hca, hcb, Option.bind_some, Option.bind_some]
  rw [toOption_built (p := (L.fork a b).map fun e => ⟨e.bits, ca :: cb :: e.refs⟩) (toOption_appendDictLabel l n)]
  · rw [Option.bind_map]
    rfl
  · rw [h.finishFork _ ha hb hca hcb, Option.bind_map]
    rfl

end Finish

/-! ## Reading a stored edge -/

/-- The label of a stored edge is parsed. -/
theorem ofCell_store {L : Layout} {mode : LabelMode}
    (haccepts : ∀ {a b : PrefixTree Slice} {e : Slice} (ca cb : Cell), L.fork a b = some e →
      mode.Accepts ⟨e.bits, ca :: cb :: e.refs⟩) {t : PrefixTree Slice} {n : Nat} {c : Cell} (ht : t.Keyed n)
    (hs : store L n t = some c) :
    ∃ label p, LabelParser.ofCell (some c) n mode = .ok label ∧ label.Reads t.label p ∧
      below L (n - t.label.length) t = some p := by
  obtain ⟨p, hp, hc⟩ := store_eq_some hs
  have hfork : t.label.length < n → mode.Accepts p := by
    intro hlt
    cases t with
    | leaf l v =>
      simp only [PrefixTree.Keyed] at ht
      simp only [PrefixTree.label] at hlt
      omega
    | fork l a b =>
      obtain ⟨ca, cb, e, -, -, he, rfl⟩ := below_fork_eq_some hp
      exact haccepts ca cb he
  obtain ⟨label, hlabel, hreads⟩ := LabelParser.ofCell_cellOf ht.length_label_le hfork hc
  exact ⟨label, p, hlabel, hreads, hp⟩

theorem ForkOps.Implements.ofCell_store {ops : ForkOps} {L : Layout} (h : ops.Implements L) {t : PrefixTree Slice}
    {n : Nat} {c : Cell} (ht : t.Keyed n) (hs : store L n t = some c) :
    ∃ label p, LabelParser.ofCell (some c) n ops.labelMode = .ok label ∧ label.Reads t.label p ∧
      below L (n - t.label.length) t = some p :=
  Dict.ofCell_store h.accepts ht hs

/-! ## Insertion -/

section Insert

variable {ops : SetOps} {L : Layout} {v : Slice} (h : ops.Implements L v) (mode : SetMode)

/-- What an insertion into a stored tree comes to. -/
def insertSpec (L : Layout) (n : Nat) (t : Option (PrefixTree Slice)) (key : List Bool) (v : Slice) (mode : SetMode) :
    Option SetResult :=
  let oldVal := (PrefixTree.get? t key).bind L.leaf
  if mode.allows (PrefixTree.get? t key).isSome then
    (store L n (PrefixTree.insert? t key v)).map fun c => ⟨oldVal, some c⟩
  else some ⟨oldVal, none⟩

theorem insertSpec_some (n : Nat) (t : PrefixTree Slice) (key : List Bool) : insertSpec L n (some t) key v mode =
    if mode.allows (t.get key).isSome then (store L n (t.insert key v)).map fun c => ⟨(t.get key).bind L.leaf, some c⟩
    else some ⟨(t.get key).bind L.leaf, none⟩ := rfl

include h

/-- A new fork inside an edge stores the tree with the new key. -/
theorem toOption_splitEdge {n : Nat} {t : PrefixTree Slice} {p r s : List Bool} {b : Bool} {label : LabelParser}
    {payload : Slice} (ht : t.Keyed n) (hl : t.label = p ++ b :: r) (hkey : (p ++ (!b) :: s).length = n)
    (hreads : label.Reads t.label payload) (hbelow : below L (n - t.label.length) t = some payload) :
    (splitEdge ops label (p ++ (!b) :: s) p.length).toOption = store L n (t.insert (p ++ (!b) :: s) v) := by
  rw [List.length_append, List.length_cons] at hkey
  have hlen := ht.length_label_le
  rw [hl, List.length_append, List.length_cons] at hlen
  have hm : n - p.length - 1 = s.length := by omega
  have hdrop : (t.dropLabel (p.length + 1)).Keyed s.length := by
    have := ht.dropLabel (p := p ++ [b]) (r := r) (by rw [hl]; simp)
    rw [List.length_append, List.length_singleton] at this
    rwa [show s.length = n - (p.length + 1) by omega]
  have hr : t.label.drop (p.length + 1) = r := by
    rw [hl]
    simp
  have ht' : label.lBits - p.length - 1 = r.length := by
    rw [hreads.lBits_eq, hl]
    simp
  -- the lower part of the old edge
  have hold : ((match label.lSame with
      | some same => appendDictLabelSame same r.length s.length {}
      | none => appendDictLabel (label.bits.drop (p.length + 1)) s.length {}) >>=
      finishPayload ops.changeLabel label.payload).toOption = store L s.length (t.dropLabel (p.length + 1)) := by
    have hstore : store L s.length (t.dropLabel (p.length + 1)) = node r s.length payload := by
      rw [PrefixTree.dropLabel, hr, store_withLabel (m := n) (by rw [hl]; simp; omega), hbelow]
      rfl
    rw [hstore, hreads.payload_eq]
    apply toOption_relabel
    cases hreads with
    | same same hsame =>
      -- the rest of equal bits are equal bits
      have hrest : r = List.replicate r.length same := by
        rw [List.eq_replicate_iff]
        refine ⟨rfl, fun x hx => ?_⟩
        have hx' : x ∈ t.label := by
          rw [hl]
          simp [hx]
        exact List.eq_of_mem_replicate (hsame ▸ hx')
      show (appendDictLabelSame same r.length s.length {}).toOption = _
      rw [toOption_appendDictLabelSame, ← hrest]
    | any =>
      show (appendDictLabel (LabelParser.bits _ |>.drop (p.length + 1)) s.length {}).toOption = _
      rw [LabelParser.Reads.any.bits_eq, hr, toOption_appendDictLabel]
  have hnew : (appendDictLabel s s.length {} >>= ops.finishLeaf).toOption = store L s.length (.leaf s v) := h.toOption_leaf
  have hleaf : (PrefixTree.leaf s v).Keyed s.length := rfl
  unfold splitEdge
  have hkeylen : (p ++ (!b) :: s).length = n := by simp; omega
  have hkeydrop : (p ++ (!b) :: s).drop (p.length + 1) = s := by simp
  have hget : (p ++ (!b) :: s).getD p.length false = !b := by simp
  dsimp only
  rw [hkeylen, hkeydrop, hget, List.take_left, hm, ht', PrefixTree.insert_diverge v hl, toOption_bind, hnew]
  cases hca : store L s.length (.leaf s v) with
  | none =>
    cases b <;> simp [PrefixTree.join, store_fork, hm, hca]
  | some ca =>
    rw [Option.bind_some, toOption_bind, hold]
    cases hcb : store L s.length (t.dropLabel (p.length + 1)) with
    | none =>
      cases b <;> simp [PrefixTree.join, store_fork, hm, hcb]
    | some cb =>
      rw [Option.bind_some]
      cases b with
      | false => exact h.toImplements.toOption_fork hdrop hleaf hcb hca (by omega)
      | true => exact h.toImplements.toOption_fork hleaf hdrop hca hcb (by omega)

/-- The first insertion makes the tree of one leaf. -/
theorem toOption_dictSetWith_none {n : Nat} {key : List Bool} (hkey : key.length = n) :
    (dictSetWith ops none key mode).toOption = insertSpec L n none key v mode := by
  rw [dictSetWith, insertSpec, hkey, PrefixTree.get?_none, Option.isSome_none]
  by_cases hmode : mode = .replace
  · subst hmode
    rfl
  · have hallow : mode.allows false = true := by
      cases mode <;> first | rfl | exact absurd rfl hmode
    rw [if_neg hmode, if_pos hallow, toOption_bind, h.toOption_leaf, PrefixTree.insert?]
    cases store L n (.leaf key v) <;> rfl

theorem toOption_dictSetWith_some {n : Nat} {t : PrefixTree Slice} {key : List Bool} {c : Cell} (ht : t.Keyed n)
    (hkey : key.length = n) (hs : store L n t = some c) :
    (dictSetWith ops (some c) key mode).toOption = insertSpec L n (some t) key v mode := by
  induction ht.locate hkey generalizing n c with
  | @diverge t p r s b hl =>
    obtain ⟨label, payload, hlabel, hreads, hbelow⟩ := h.toImplements.ofCell_store ht hs
    obtain ⟨hpfx, hlt⟩ := (hl ▸ hreads).part (s := s)
    rw [dictSetWith_diverge (hkey ▸ hlabel) (hpfx ▸ hlt), hpfx, insertSpec_some, PrefixTree.get_diverge hl]
    by_cases hmode : mode = .replace
    · subst hmode
      rfl
    · have hallow : mode.allows false = true := by
        cases mode <;> first | rfl | exact absurd rfl hmode
      rw [if_neg hmode, toOption_bind, toOption_splitEdge h ht hl hkey hreads hbelow, Option.isSome_none, if_pos hallow]
      cases store L n (t.insert (p ++ (!b) :: s) v) <;> rfl
  | leaf k u =>
    obtain ⟨label, payload, hlabel, hreads, hbelow⟩ := h.toImplements.ofCell_store ht hs
    obtain ⟨hpfx, hdrop, -⟩ := hreads.descend []
    rw [PrefixTree.label, List.append_nil] at hpfx hdrop
    have hleaf : L.leaf u = some payload := hbelow
    rw [dictSetWith_leaf (hkey ▸ hlabel) (by rw [hpfx]; exact lt_irrefl _) hdrop, insertSpec_some,
      PrefixTree.get_leaf_self, PrefixTree.insert_leaf, Option.bind_some, hleaf, hreads.payload_eq, hkey]
    by_cases hmode : mode = .add
    · subst hmode
      rfl
    · have hallow : mode.allows true = true := by
        cases mode <;> first | rfl | exact absurd rfl hmode
      rw [if_neg hmode, toOption_bind, h.toOption_leaf, Option.isSome_some, if_pos hallow]
      cases store L n (.leaf k v) <;> rfl
  | @left l r a b _ ih =>
    obtain ⟨label, payload, hlabel, hreads, hbelow⟩ := h.toImplements.ofCell_store ht hs
    obtain ⟨ca, cb, e, hca, hcb, -, rfl⟩ := below_fork_eq_some hbelow
    obtain ⟨m, hm, ha, hb⟩ := ht
    obtain ⟨hpfx, hdrop, htake⟩ := hreads.descend (false :: r)
    rw [PrefixTree.label] at hpfx hdrop htake
    have hn := hkey
    rw [List.length_append, List.length_cons] at hkey
    have hlen : n - l.length - 1 = m := by omega
    rw [PrefixTree.label, hlen] at hca hcb
    rw [dictSetWith_left (hn ▸ hlabel) (by rw [hpfx]; exact lt_irrefl _) hdrop, hreads.refs_eq, htake, hn, toOption_bind]
    dsimp only [List.getElem?_cons_zero, List.getElem?_cons_succ]
    rw [ih ha (by omega) hca, insertSpec_some, insertSpec_some, PrefixTree.get_fork_false, PrefixTree.insert_left]
    by_cases hallow : mode.allows (a.get r).isSome
    · rw [if_pos hallow, if_pos hallow]
      cases hca' : store L m (a.insert r v) with
      | none =>
        rw [store_fork, hlen, hca']
        rfl
      | some ca' =>
        rw [Option.map_some, Option.bind_some, ← h.toImplements.toOption_fork (ha.insert v (by omega)) hb hca' hcb hm]
        dsimp only
        rw [toOption_bind]
        cases (createFork ops.toForkOps l n (some ca') (some cb)).toOption <;> rfl
    · rw [if_neg hallow, if_neg hallow]
      rfl
  | @right l r b a _ ih =>
    obtain ⟨label, payload, hlabel, hreads, hbelow⟩ := h.toImplements.ofCell_store ht hs
    obtain ⟨ca, cb, e, hca, hcb, -, rfl⟩ := below_fork_eq_some hbelow
    obtain ⟨m, hm, ha, hb⟩ := ht
    obtain ⟨hpfx, hdrop, htake⟩ := hreads.descend (true :: r)
    rw [PrefixTree.label] at hpfx hdrop htake
    have hn := hkey
    rw [List.length_append, List.length_cons] at hkey
    have hlen : n - l.length - 1 = m := by omega
    rw [PrefixTree.label, hlen] at hca hcb
    rw [dictSetWith_right (hn ▸ hlabel) (by rw [hpfx]; exact lt_irrefl _) hdrop, hreads.refs_eq, htake, hn, toOption_bind]
    dsimp only [List.getElem?_cons_zero, List.getElem?_cons_succ]
    rw [ih hb (by omega) hcb, insertSpec_some, insertSpec_some, PrefixTree.get_fork_true, PrefixTree.insert_right]
    by_cases hallow : mode.allows (b.get r).isSome
    · rw [if_pos hallow, if_pos hallow]
      cases hcb' : store L m (b.insert r v) with
      | none =>
        rw [store_fork, hlen, hca, hcb']
        rfl
      | some cb' =>
        rw [Option.map_some, Option.bind_some, ← h.toImplements.toOption_fork ha (hb.insert v (by omega)) hca hcb' hm]
        dsimp only
        rw [toOption_bind]
        cases (createFork ops.toForkOps l n (some ca) (some cb')).toOption <;> rfl
    · rw [if_neg hallow, if_neg hallow]
      rfl

/-- An insertion into a stored tree. -/
theorem toOption_dictSetWith {n : Nat} {t : Option (PrefixTree Slice)} {key : List Bool} {root : Option Cell}
    (ht : PrefixTree.Keyed? n t) (hkey : key.length = n) (hs : store? L n t = some root) :
    (dictSetWith ops root key mode).toOption = insertSpec L n t key v mode := by
  cases t with
  | none =>
    cases hs
    exact toOption_dictSetWith_none h mode hkey
  | some t =>
    obtain ⟨c, hc, rfl⟩ := store?_some hs
    exact toOption_dictSetWith_some h mode (ht t rfl) hkey hc

end Insert

end TonWallet.Vm.Dict
