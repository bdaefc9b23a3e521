/-
Merging two dictionaries (`dict_combine_with`): the trees are gone through together, a branch that only one of them
has is taken over, and a combiner decides about the keys that both have. The mode forbids keys that one of them lacks.
-/
import TonWallet.Lib.PrefixMerge
import TonWallet.Vm.Dict.Parse

namespace TonWallet.Vm.Dict

open Lib TonWallet.Td CellBuilder

/-- How a merge fails: `combine_with` catches a `CombineError`, and nothing else. -/
inductive CombineFail
  | combineError
  | thrown (e : Fail)

abbrev CombineResult (α : Type) := Except CombineFail α

/-- What throws no `CombineError`. -/
def lift {α : Type} (r : Result α) : CombineResult α := r.mapError .thrown

theorem lift_some (r : Result Cell) :
    (do return some (← lift r) : CombineResult (Option Cell)) = lift (do return some (← r)) := by
  cases r <;> rfl

/-- `combine_func_t`: both values of a key go into the builder of a leaf as one, or (`none`) the key is dropped. -/
abbrev CombineFunc := CellBuilder → Slice → Slice → List Bool → CombineResult (Option CellBuilder)

variable [Digest]

/-- Two edges that part at bit `c` of what is left of their labels, under a new fork. -/
def combineDisjoint (ops : ForkOps) (label l1Bits l2Bits : List Bool) (payload1 payload2 : Slice) (n : Nat) : Result Cell := do
  let c := label.length
  let m := n - c - 1
  let c1 ← appendDictLabel (l1Bits.drop (c + 1)) m {} >>=
    finishPayload "cannot prune label of an old dictionary cell while merging dictionaries" payload1
  let c2 ← appendDictLabel (l2Bits.drop (c + 1)) m {} >>=
    finishPayload "cannot change label of an old dictionary cell while merging edges" payload2
  if l2Bits.getD c false then createFork ops label n (some c1) (some c2) else createFork ops label n (some c2) (some c1)

/-- One branch of a fork is merged, the other one is taken over. -/
def combineBranch (ops : ForkOps) (label : List Bool) (n : Nat) (sw : Bool) (c1 c2 : Option Cell)
    (merge : Option Cell → CombineResult (Option Cell)) : CombineResult (Option Cell) :=
  if sw then do lift (rejoinCells ops label n c1 (← merge c2)) else do lift (rejoinCells ops label n (← merge c1) c2)

/-- `dict_combine_with`: the first `skip1` (`skip2`) bits of the keys of the one (the other) dictionary are left out;
`key`: the bits of the key buffer in front of the keys that are left, which have length `n`. -/
def dictCombineWith (ops : ForkOps) (combine : CombineFunc) (mode : Nat) (dict1 dict2 : Option Cell) (key : List Bool)
    (n skip1 skip2 : Nat) : CombineResult (Option Cell) :=
  match dict1, dict2 with
  | none, dict2 => if mode.testBit 0 ∧ dict2.isNone then .error .combineError else .ok dict2
  | some dict1, none => if mode.testBit 1 then .error .combineError else .ok (some dict1)
  | some dict1, some dict2 => do
    let label1 ← lift (LabelParser.ofCell (some dict1) (n + skip1) ops.labelMode)
    let label2 ← lift (LabelParser.ofCell (some dict2) (n + skip2) ops.labelMode)
    let l1 := label1.lBits - skip1
    let l2 := label2.lBits - skip2
    let buffer := key.take (key.length - skip1) ++ label1.bits
    let l1Bits := buffer.drop key.length
    let l2Bits := label2.bits.drop skip2
    let c := label2.commonPrefixLen (buffer.drop (key.length - skip2)) - skip2
    let label := l1Bits.take c
    if c < l1 ∧ c < l2 then
      if mode.testBit 0 ∨ mode.testBit 1 then .error .combineError
      else return some (← lift (combineDisjoint ops label l1Bits l2Bits label1.payload label2.payload n))
    else if _hc : c < n then
      let m := n - c - 1
      if c = l1 ∧ c = l2 then
        let _ ← lift (appendDictLabel label n {})
        -- the mode is not handed on
        let c1 ← dictCombineWith ops combine 0 label1.remainder.refs[0]? label2.remainder.refs[0]? (key ++ label ++ [false]) m 0 0
        let c2 ← dictCombineWith ops combine 0 label1.remainder.refs[1]? label2.remainder.refs[1]? (key ++ label ++ [true]) m 0 0
        lift (rejoinCells ops label n c1 c2)
      else if c = l1 then
        if mode.testBit 1 then .error .combineError
        else
          let sw := l2Bits.getD c false
          combineBranch ops label n sw label1.remainder.refs[0]? label1.remainder.refs[1]? fun child =>
            dictCombineWith ops combine mode child (some dict2) (key ++ label ++ [sw]) m 0 (skip2 + c + 1)
      else
        if mode.testBit 0 then .error .combineError
        else
          let sw := l1Bits.getD c false
          combineBranch ops label n sw label2.remainder.refs[0]? label2.remainder.refs[1]? fun child =>
            dictCombineWith ops combine mode (some dict1) child (key ++ label ++ [sw]) m (skip1 + c + 1) 0
    else
      -- two leaves of one key
      let cb ← lift (appendDictLabel label n {})
      match ← combine cb label1.payload label2.payload buffer with
      | none => return none
      | some cb => return some (← lift cb.finalize)
termination_by n

/-! ## What fails -/

/-- Whether a merge does not fail as one that a mode or a combiner forbids. -/
def Allowed {α : Type} (r : CombineResult α) : Prop := r ≠ .error .combineError

omit [Digest] in
theorem allowed_ok {α : Type} (a : α) : Allowed (.ok a) := nofun

omit [Digest] in
theorem allowed_lift {α : Type} (r : Result α) : Allowed (lift r) := by
  cases r <;> exact nofun

omit [Digest] in
theorem Allowed.bind {α β : Type} {r : CombineResult α} {f : α → CombineResult β} (hr : Allowed r)
    (hf : ∀ a, Allowed (f a)) : Allowed (r >>= f) := by
  cases r with
  | ok a => exact hf a
  | error e =>
    intro he
    cases he
    exact hr rfl

theorem allowed_combineBranch {ops : ForkOps} {label : List Bool} {n : Nat} {sw : Bool} {c1 c2 : Option Cell}
    {merge : Option Cell → CombineResult (Option Cell)} (h : ∀ child, Allowed (merge child)) :
    Allowed (combineBranch ops label n sw c1 c2 merge) := by
  unfold combineBranch
  split
  · exact (h c2).bind fun _ => allowed_lift _
  · exact (h c1).bind fun _ => allowed_lift _

/-- Without a mode only a combiner can give a `CombineError`. -/
theorem allowed_dictCombineWith {ops : ForkOps} {combine : CombineFunc} (h : ∀ cb v1 v2 key, Allowed (combine cb v1 v2 key))
    (dict1 dict2 : Option Cell) (key : List Bool) (n skip1 skip2 : Nat) :
    Allowed (dictCombineWith ops combine 0 dict1 dict2 key n skip1 skip2) := by
  induction n using Nat.strong_induction_on generalizing dict1 dict2 key skip1 skip2 with
  | _ n ih =>
  unfold dictCombineWith
  split
  · rw [if_neg (by simp)]
    exact allowed_ok _
  · rw [if_neg (by simp)]
    exact allowed_ok _
  · refine (allowed_lift _).bind fun label1 => (allowed_lift _).bind fun label2 => ?_
    dsimp only
    split
    · rw [if_neg (by simp)]
      exact (allowed_lift _).bind fun _ => allowed_ok _
    · split
      · split
        · refine (allowed_lift _).bind fun _ => (ih _ (by omega) _ _ _ _ _).bind fun c1 => ?_
          exact (ih _ (by omega) _ _ _ _ _).bind fun c2 => allowed_lift _
        · split
          · rw [if_neg (by simp)]
            exact allowed_combineBranch fun _ => ih _ (by omega) _ _ _ _ _
          · rw [if_neg (by simp)]
            exact allowed_combineBranch fun _ => ih _ (by omega) _ _ _ _ _
      · refine (allowed_lift _).bind fun cb => (h _ _ _ _).bind fun res => ?_
        split
        · exact allowed_ok _
        · exact (allowed_lift _).bind fun _ => allowed_ok _

/-! ## Steps -/

section Steps

variable {ops : ForkOps} (combine : CombineFunc) (mode : Nat) {dict1 dict2 : Cell} {key s1 s2 l1 l2 : List Bool} {n : Nat}
  {label1 label2 : LabelParser} {p1 p2 : Slice}
  (hlabel1 : LabelParser.ofCell (some dict1) (n + s1.length) ops.labelMode = .ok label1)
  (hlabel2 : LabelParser.ofCell (some dict2) (n + s2.length) ops.labelMode = .ok label2)
  (hreads1 : label1.Reads (s1 ++ l1) p1) (hreads2 : label2.Reads (s2 ++ l2) p2) (hs1 : s1 <:+ key) (hs2 : s2 <:+ key)

include hlabel1 hlabel2 hreads1 hreads2 hs1 hs2

/-- A step, with what the labels are read as. -/
theorem dictCombineWith_eq {c : Nat} (hc : commonPrefixLen l2 l1 = c) :
    dictCombineWith ops combine mode (some dict1) (some dict2) key n s1.length s2.length =
      if c < l1.length ∧ c < l2.length then
        if mode.testBit 0 ∨ mode.testBit 1 then .error .combineError
        else do return some (← lift (combineDisjoint ops (l1.take c) l1 l2 p1 p2 n))
      else if c < n then
        if c = l1.length ∧ c = l2.length then do
          let _ ← lift (appendDictLabel (l1.take c) n {})
          let c1 ← dictCombineWith ops combine 0 p1.refs[0]? p2.refs[0]? (key ++ l1.take c ++ [false]) (n - c - 1) 0 0
          let c2 ← dictCombineWith ops combine 0 p1.refs[1]? p2.refs[1]? (key ++ l1.take c ++ [true]) (n - c - 1) 0 0
          lift (rejoinCells ops (l1.take c) n c1 c2)
        else if c = l1.length then
          if mode.testBit 1 then .error .combineError
          else combineBranch ops (l1.take c) n (l2.getD c false) p1.refs[0]? p1.refs[1]? fun child =>
            dictCombineWith ops combine mode child (some dict2) (key ++ l1.take c ++ [l2.getD c false]) (n - c - 1) 0
              (s2.length + c + 1)
        else
          if mode.testBit 0 then .error .combineError
          else combineBranch ops (l1.take c) n (l1.getD c false) p2.refs[0]? p2.refs[1]? fun child =>
            dictCombineWith ops combine mode (some dict1) child (key ++ l1.take c ++ [l1.getD c false]) (n - c - 1)
              (s1.length + c + 1) 0
      else do
        let cb ← lift (appendDictLabel (l1.take c) n {})
        match ← combine cb p1 p2 (key ++ l1) with
        | none => return none
        | some cb => return some (← lift cb.finalize) := by
  obtain ⟨hbuffer, hdrop, hcommon, hlen1, hlen2⟩ := along_key hs1 hs2 hc
  have hbind {α β : Type} (a : α) (f : α → CombineResult β) : (lift (.ok a) >>= f) = f a := rfl
  rw [dictCombineWith, hlabel1, hlabel2, hbind, hbind]
  simp only [hreads1.lBits_eq, hreads2.lBits_eq, hreads1.bits_eq, hreads2.bits_eq, hreads1.payload_eq,
    hreads2.payload_eq, hreads1.refs_eq, hreads2.refs_eq, hbuffer, hdrop, LabelParser.commonPrefixLen, hcommon, hlen1,
    hlen2, List.drop_left]
  by_cases hpart : c < l1.length ∧ c < l2.length
  · rw [if_pos hpart, if_pos hpart]
  · rw [if_neg hpart, if_neg hpart]
    by_cases hcn : c < n
    · rw [dif_pos hcn, if_pos hcn]
    · rw [dif_neg hcn, if_neg hcn]

end Steps

/-! ## Steps of a merge of parsed trees -/

/-- How a plain dictionary reads and finishes its cells. -/
structure ForkOps.Plain (ops : ForkOps) : Prop where
  labelMode : ops.labelMode = .chkAll
  finishFork : ∀ (bits : List Bool) (ca cb : Cell) (n : Nat),
    (ops.finishFork ⟨bits, []⟩ (some ca) (some cb) n).toOption = cellOf ⟨bits, [ca, cb]⟩

section Combine

variable {ops : ForkOps} (h : ops.Plain) (combine : CombineFunc) {canon : Prop}

/-- The label of an edge that is read with the bits in front of it. -/
theorem Parses.ofCell_prepend {n : Nat} {s : List Bool} {t : PrefixTree Slice} {c : Cell}
    (hc : Parses canon (n + s.length) (t.prepend s) c) :
    t.Keyed n ∧ (labelBits t.label n).length ≤ maxBits ∧ ∃ label p,
      LabelParser.ofCell (some c) (n + s.length) .chkAll = .ok label ∧ label.Reads (s ++ t.label) p ∧
        Behind canon (n - t.label.length) p t := by
  have hkeyed := hc.keyed.of_prepend
  have hlen := hkeyed.length_label_le
  obtain ⟨label, p, hlabel, hreads, hbehind⟩ := hc.ofCell
  have hshort := hc.length_label_le
  rw [PrefixTree.label_prepend] at hreads hbehind hshort
  refine ⟨hkeyed, ?_, label, p, hlabel, hreads, ?_⟩
  · refine (length_labelBits_le (List.suffix_append s t.label).isInfix hlen ?_ (Nat.le_add_right n s.length)).trans hshort
    rw [List.length_append]
    omega
  · rw [PrefixTree.prepend, behind_withLabel, List.length_append] at hbehind
    rwa [show n + s.length - (s.length + t.label.length) = n - t.label.length by omega] at hbehind

/-- A tree whose label ends in front of the end of the keys is a fork. -/
theorem Behind.fork {n : Nat} {t : PrefixTree Slice} {l : List Bool} {p : Slice}
    (hb : Behind canon (n - l.length) p t) (hl : t.label = l) (hlt : l.length < n) :
    ∃ a b m ca cb, t = .fork l a b ∧ l.length + 1 + m = n ∧ p = ⟨[], [ca, cb]⟩ ∧ Parses canon m a ca ∧ Parses canon m b cb := by
  subst hl
  cases t with
  | leaf l v => exact absurd hb.1 (by rw [PrefixTree.label] at hlt ⊢; omega)
  | fork l a b =>
    obtain ⟨m, ca, cb, hm, rfl, ha, hb⟩ := hb
    rw [PrefixTree.label] at hm hlt
    exact ⟨a, b, m, ca, cb, rfl, by rw [PrefixTree.label]; omega, rfl, ha, hb⟩

/-- The other tree below a fork whose label is in front of its own. -/
theorem Parses.longer {n m : Nat} {t : PrefixTree Slice} {s l q : List Bool} {sw : Bool} {c : Cell}
    (hc : Parses canon (n + s.length) ((t.prepend (l ++ [sw])).prepend s) c) (hm : l.length + 1 + m = n) (hs : s <:+ q) :
    Parses canon (m + (s ++ (l ++ [sw])).length) (t.prepend (s ++ (l ++ [sw]))) c ∧ s ++ (l ++ [sw]) <:+ q ++ l ++ [sw] := by
  refine ⟨?_, ?_⟩
  · rw [PrefixTree.prepend_prepend] at hc
    rwa [show m + (s ++ (l ++ [sw])).length = n + s.length by simp; omega]
  · obtain ⟨q, rfl⟩ := hs
    exact ⟨q, by simp⟩

/-- A step of a merge of two parsed trees in every mode, told by what their labels have in common. -/
inductive CombineStep (ops : ForkOps) (combine : CombineFunc) (canon : Prop) (q : List Bool) (n : Nat) (c1 c2 : Cell)
    (s1 s2 : List Bool) (res : Nat → CombineResult (Option Cell)) : PrefixTree Slice → PrefixTree Slice → Prop
  | parted {l : List Bool} {m : Nat} {sw : Bool} {t1 t2 : PrefixTree Slice} {p1 p2 : Slice} (hm : l.length + 1 + m = n)
      (hlen1 : t1.label.length ≤ m) (hb1 : Behind canon (m - t1.label.length) p1 t1) (hlen2 : t2.label.length ≤ m)
      (hb2 : Behind canon (m - t2.label.length) p2 t2)
      (hres : ∀ mode, res mode = if mode.testBit 0 ∨ mode.testBit 1 then .error .combineError
        else do return some (← lift (combineDisjoint ops l (l ++ sw :: t1.label) (l ++ (!sw) :: t2.label) p1 p2 n))) :
      CombineStep ops combine canon q n c1 c2 s1 s2 res (t1.prepend (l ++ [sw])) (t2.prepend (l ++ [!sw]))
  | leaves {l : List Bool} {v1 v2 : Slice} (hn : l.length = n)
      (hres : ∀ mode, res mode = do
        match ← combine ⟨labelBits l n, []⟩ v1 v2 (q ++ l) with
        | none => return none
        | some cb => return some (← lift cb.finalize)) :
      CombineStep ops combine canon q n c1 c2 s1 s2 res (.leaf l v1) (.leaf l v2)
  | forks {l : List Bool} {m : Nat} {a1 b1 a2 b2 : PrefixTree Slice} {ca1 cb1 ca2 cb2 : Cell} (hm : l.length + 1 + m = n)
      (ha1 : Parses canon m a1 ca1) (hb1 : Parses canon m b1 cb1) (ha2 : Parses canon m a2 ca2)
      (hb2 : Parses canon m b2 cb2)
      (hres : ∀ mode, res mode = do
        let c1 ← dictCombineWith ops combine 0 (some ca1) (some ca2) (q ++ l ++ [false]) m 0 0
        let c2 ← dictCombineWith ops combine 0 (some cb1) (some cb2) (q ++ l ++ [true]) m 0 0
        lift (rejoinCells ops l n c1 c2)) :
      CombineStep ops combine canon q n c1 c2 s1 s2 res (.fork l a1 b1) (.fork l a2 b2)
  | first {l : List Bool} {m : Nat} {sw : Bool} {a b t : PrefixTree Slice} {ca cb : Cell} (hm : l.length + 1 + m = n)
      (ha : Parses canon m a ca) (hb : Parses canon m b cb)
      (ht : Parses canon (m + (s2 ++ (l ++ [sw])).length) (t.prepend (s2 ++ (l ++ [sw]))) c2)
      (hs : s2 ++ (l ++ [sw]) <:+ q ++ l ++ [sw])
      (hres : ∀ mode, res mode = if mode.testBit 1 then .error .combineError
        else combineBranch ops l n sw (some ca) (some cb) fun child =>
          dictCombineWith ops combine mode child (some c2) (q ++ l ++ [sw]) m 0 (s2 ++ (l ++ [sw])).length) :
      CombineStep ops combine canon q n c1 c2 s1 s2 res (.fork l a b) (t.prepend (l ++ [sw]))
  | second {l : List Bool} {m : Nat} {sw : Bool} {a b t : PrefixTree Slice} {ca cb : Cell} (hm : l.length + 1 + m = n)
      (ha : Parses canon m a ca) (hb : Parses canon m b cb)
      (ht : Parses canon (m + (s1 ++ (l ++ [sw])).length) (t.prepend (s1 ++ (l ++ [sw]))) c1)
      (hs : s1 ++ (l ++ [sw]) <:+ q ++ l ++ [sw])
      (hres : ∀ mode, res mode = if mode.testBit 0 then .error .combineError
        else combineBranch ops l n sw (some ca) (some cb) fun child =>
          dictCombineWith ops combine mode (some c1) child (q ++ l ++ [sw]) m (s1 ++ (l ++ [sw])).length 0) :
      CombineStep ops combine canon q n c1 c2 s1 s2 res (t.prepend (l ++ [sw])) (.fork l a b)

/-- A parsed tree with nothing in front of it. -/
theorem Parses.whole {n : Nat} {t : PrefixTree Slice} {c : Cell} (hc : Parses canon n t c) :
    Parses canon (n + ([] : List Bool).length) (t.prepend []) c := by
  rw [PrefixTree.prepend_nil]
  exact hc

omit [Digest] in
/-- There is room for the label. -/
theorem appendDictLabel_eq {l : List Bool} {n : Nat} (hlen : (labelBits l n).length ≤ maxBits) :
    appendDictLabel l n {} = .ok ⟨labelBits l n, []⟩ := by
  have hbuilt := toOption_appendDictLabel l n
  rw [built, if_pos hlen] at hbuilt
  cases hres : appendDictLabel l n {} with
  | ok cb =>
    rw [hres] at hbuilt
    rw [Option.some.inj hbuilt]
  | error e =>
    rw [hres] at hbuilt
    cases hbuilt

include h

theorem combineStep {n : Nat} {t1 t2 : PrefixTree Slice} {c1 c2 : Cell} {s1 s2 q : List Bool}
    (h1 : Parses canon (n + s1.length) (t1.prepend s1) c1) (h2 : Parses canon (n + s2.length) (t2.prepend s2) c2)
    (hs1 : s1 <:+ q) (hs2 : s2 <:+ q) :
    CombineStep ops combine canon q n c1 c2 s1 s2
      (fun mode => dictCombineWith ops combine mode (some c1) (some c2) q n s1.length s2.length) t1 t2 := by
  obtain ⟨hkeyed1, hshort1, label1, p1, hlabel1, hreads1, hbehind1⟩ := h1.ofCell_prepend
  obtain ⟨hkeyed2, -, label2, p2, hlabel2, hreads2, hbehind2⟩ := h2.ofCell_prepend
  have hlen1 := hkeyed1.length_label_le
  have hlen2 := hkeyed2.length_label_le
  rw [← h.labelMode] at hlabel1 hlabel2
  have hstep (mode : Nat) {c : Nat} (hc : commonPrefixLen t2.label t1.label = c) :=
    dictCombineWith_eq combine mode hlabel1 hlabel2 hreads1 hreads2 hs1 hs2 hc
  rcases prefix_or_diverge t1.label t2.label with ⟨r, hr⟩ | ⟨sw, r, hr⟩ | ⟨l, sw, r1, r2, hl1, hl2⟩
  · obtain ⟨l, hl⟩ : ∃ l, t1.label = l := ⟨_, rfl⟩
    rw [hl] at hr hbehind1 hlen1
    have hc : commonPrefixLen t2.label t1.label = l.length := by
      rw [commonPrefixLen_comm, hl, hr, commonPrefixLen_self_append]
    have htake : t1.label.take l.length = l := by
      rw [hl, List.take_length]
    cases r with
    | nil =>
      -- the labels are the same
      rw [List.append_nil] at hr
      rw [hr] at hbehind2
      rw [hl] at hshort1
      by_cases hlt : l.length < n
      · obtain ⟨a1, b1, m, ca1, cb1, rfl, hm, rfl, ha1, hb1⟩ := hbehind1.fork hl hlt
        obtain ⟨a2, b2, m', ca2, cb2, rfl, hm', rfl, ha2, hb2⟩ := hbehind2.fork hr hlt
        obtain rfl : m' = m := by omega
        refine .forks hm ha1 hb1 ha2 hb2 fun mode => ?_
        rw [hstep mode hc, if_neg (by rw [hl]; omega), if_pos hlt, if_pos ⟨by rw [hl], by rw [hr]⟩, htake,
          appendDictLabel_eq hshort1, show n - l.length - 1 = m' by omega]
        rfl
      · have hn : l.length = n := by omega
        rw [hn, Nat.sub_self] at hbehind1 hbehind2
        cases t1 with
        | fork l' a b =>
          obtain ⟨_, _, _, hm, -⟩ := hbehind1
          cases hm
        | leaf l' v1 =>
          cases t2 with
          | fork l' a b =>
            obtain ⟨_, _, _, hm, -⟩ := hbehind2
            cases hm
          | leaf l'' v2 =>
            obtain rfl : l' = l := hl
            obtain rfl : l'' = l' := hr
            obtain ⟨-, rfl⟩ := hbehind1
            obtain ⟨-, rfl⟩ := hbehind2
            refine .leaves hn fun mode => ?_
            rw [hstep mode hc, if_neg (by rw [PrefixTree.label]; omega), if_neg hlt, htake, appendDictLabel_eq hshort1]
            rfl
    | cons sw r =>
      -- the label of the first tree is in front of that of the second one
      have hlt : l.length < t2.label.length := by
        rw [hr, List.length_append, List.length_cons]
        omega
      obtain ⟨a, b, m, ca, cb, rfl, hm, rfl, ha, hb⟩ := hbehind1.fork hl (by omega)
      obtain ⟨t2, rfl, rfl⟩ := PrefixTree.exists_prepend (p := l ++ [sw]) (r := r) (by rw [hr]; simp)
      obtain ⟨ht, hs⟩ := h2.longer hm hs2
      have hbit : (PrefixTree.prepend (l ++ [sw]) t2).label.getD l.length false = sw := by
        rw [hr]
        simp
      have hskip : s2.length + l.length + 1 = (s2 ++ (l ++ [sw])).length := by
        simp [Nat.add_assoc]
      refine .first hm ha hb ht hs fun mode => ?_
      rw [hstep mode hc, if_neg (by rw [hl]; omega), if_pos (by omega), if_neg (by omega), if_pos (by rw [hl]), hbit, htake,
        hskip, show n - l.length - 1 = m by omega]
      rfl
  · -- the label of the second tree is in front of that of the first one
    obtain ⟨l, hl⟩ : ∃ l, t2.label = l := ⟨_, rfl⟩
    rw [hl] at hr hbehind2
    have hc : commonPrefixLen t2.label t1.label = l.length := by
      rw [hl, hr, commonPrefixLen_self_append]
    have hlt : l.length < t1.label.length := by
      rw [hr, List.length_append, List.length_cons]
      omega
    obtain ⟨a, b, m, ca, cb, rfl, hm, rfl, ha, hb⟩ := hbehind2.fork hl (by omega)
    obtain ⟨t1, rfl, rfl⟩ := PrefixTree.exists_prepend (p := l ++ [sw]) (r := r) (by rw [hr]; simp)
    obtain ⟨ht, hs⟩ := h1.longer hm hs1
    have hbit : (PrefixTree.prepend (l ++ [sw]) t1).label.getD l.length false = sw := by
      rw [hr]
      simp
    have htake : (PrefixTree.prepend (l ++ [sw]) t1).label.take l.length = l := by
      rw [hr, List.take_left]
    have hskip : s1.length + l.length + 1 = (s1 ++ (l ++ [sw])).length := by
      simp [Nat.add_assoc]
    refine .second hm ha hb ht hs fun mode => ?_
    rw [hstep mode hc, if_neg (by rw [hl]; omega), if_pos (by omega), if_neg (by omega), if_neg (by omega), hbit, htake,
      hskip, show n - l.length - 1 = m by omega]
    rfl
  · -- the labels part
    have hc : commonPrefixLen t2.label t1.label = l.length := by
      rw [commonPrefixLen_comm, hl1, hl2, commonPrefixLen_diverge]
    obtain ⟨t1, rfl, rfl⟩ := PrefixTree.exists_prepend (p := l ++ [sw]) (r := r1) (by rw [hl1]; simp)
    obtain ⟨t2, rfl, rfl⟩ := PrefixTree.exists_prepend (p := l ++ [!sw]) (r := r2) (by rw [hl2]; simp)
    rw [hl1] at hlen1 hbehind1
    rw [hl2] at hlen2 hbehind2
    rw [PrefixTree.prepend, behind_withLabel] at hbehind1 hbehind2
    rw [List.length_append, List.length_cons] at hlen1 hlen2 hbehind1 hbehind2
    have hm : l.length + 1 + (n - l.length - 1) = n := by omega
    rw [show n - (l.length + (t1.label.length + 1)) = n - l.length - 1 - t1.label.length by omega] at hbehind1
    rw [show n - (l.length + (t2.label.length + 1)) = n - l.length - 1 - t2.label.length by omega] at hbehind2
    refine .parted hm (by omega) hbehind1 (by omega) hbehind2 fun mode => ?_
    rw [hstep mode hc, hl1, hl2, List.take_left, if_pos (by simp)]

end Combine

end TonWallet.Vm.Dict
