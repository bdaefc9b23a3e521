/-
Bulk filters of a dictionary (`dict_filter`): the leaves are shown to a function one after the other, and the forks
above a dropped leaf are made anew, merged with the branch that is left, or dropped as well.
-/
import TonWallet.Lib.PrefixEntries
import TonWallet.Vm.Dict.Represents

namespace TonWallet.Vm.Dict

open Lib TonWallet.Td CellBuilder

/-- "Effectively infinity": whole branches with an unknown number of nodes are dropped. -/
def manyChanges : Nat := 2 ^ 30

/-- The changed dictionary and the number of changes; a negative number is an error. -/
structure FilterResult where
  dict : Option Cell
  changes : Int

/-- What a filter function's number says about its leaf. -/
def verdictOf (res : Int) : Verdict Int :=
  if res < 0 then .fail res
  else if manyChanges ≤ res then if res % manyChanges = 0 then .dropRest else .keepRest
  else if res = 0 then .drop else .keep

/-- What `dict_filter` returns at a leaf, and what it decides about the rest. -/
def filterLeaf (res : Int) : FilterResult × Option Bool :=
  if manyChanges ≤ res then
    (⟨none, if res % manyChanges = 0 then 1 else 0⟩, some (decide (res % manyChanges = 0)))
  else (⟨none, if res < 0 then res else if res = 0 then 1 else 0⟩, none)

variable [Digest]

/-- `dict_filter`; `skip`: whether to drop the rest (`skip_rest > 0`) or to retain it (`skip_rest = 0`). -/
def dictFilter (ops : ForkOps) (checkLeaf : List Bool → Slice → Int) (dict : Option Cell) (key : List Bool) (n : Nat)
    (skip : Option Bool) : Result (FilterResult × Option Bool) :=
  match dict, skip with
  | none, _ => .ok (⟨none, 0⟩, skip)
  | some _, some drop => .ok (⟨none, if drop then manyChanges else 0⟩, skip)
  | some cell, none => do
    let label ← LabelParser.ofCell (some cell) n ops.labelMode
    let key := key ++ label.bits
    if _hn : label.lBits < n then
      let m := n - label.lBits - 1
      let (left, skip) ← dictFilter ops checkLeaf label.remainder.refs[0]? (key ++ [false]) m none
      if left.changes < 0 then return (left, skip)
      else
        let (right, skip) ← dictFilter ops checkLeaf label.remainder.refs[1]? (key ++ [true]) m skip
        -- an error on the right, or both sides unchanged
        if right.changes < 0 ∨ left.changes = 0 ∧ right.changes = 0 then return (right, skip)
        else
          let c1 := if left.changes ≠ 0 then left.dict else label.remainder.refs[0]?
          let c2 := if right.changes ≠ 0 then right.dict else label.remainder.refs[1]?
          let changes : Int := if (left.changes.toNat ||| right.changes.toNat).testBit 30 then manyChanges
            else left.changes + right.changes
          return (⟨← rejoinCells ops label.bits n c1 c2, changes⟩, skip)
    else return filterLeaf (checkLeaf key label.payload)
termination_by n

/-! ## What is left -/

/-- The result of a filter of a stored tree, for what the filter makes of its entries. -/
inductive Filtered (L : Layout) (n : Nat) (q : List Bool) (t : PrefixTree Slice) (res : FilterResult) (skip : Option Bool) :
    Except Int (List (List Bool × Slice) × Option Bool) → Prop
  | error (h : res.changes < 0) : Filtered L n q t res skip (.error res.changes)
  | same (h : res.changes = 0) : Filtered L n q t res skip (.ok (t.entries q, skip))
  | changed (t' : Option (PrefixTree Slice)) (h : 0 < res.changes) (hne : PrefixTree.entries? q t' ≠ t.entries q)
      (ht : PrefixTree.Keyed? n t') (hs : store? L n t' = some res.dict) :
      Filtered L n q t res skip (.ok (PrefixTree.entries? q t', skip))

/-- The same, for cells that stand for the tree in any way. -/
inductive FilteredBy (R : Nat → PrefixTree Slice → Cell → Prop) (n : Nat) (q : List Bool) (t : PrefixTree Slice)
    (res : FilterResult) (skip : Option Bool) : Except Int (List (List Bool × Slice) × Option Bool) → Prop
  | error (h : res.changes < 0) : FilteredBy R n q t res skip (.error res.changes)
  | same (h : res.changes = 0) : FilteredBy R n q t res skip (.ok (t.entries q, skip))
  | changed (t' : Option (PrefixTree Slice)) (h : 0 < res.changes) (hne : PrefixTree.entries? q t' ≠ t.entries q)
      (ht : Root R n t' res.dict) : FilteredBy R n q t res skip (.ok (PrefixTree.entries? q t', skip))

/-- The filter of the values that a filter of what is at the leaves amounts to. -/
def Layout.verdict (L : Layout) (checkLeaf : List Bool → Slice → Int) (key : List Bool) (v : Slice) : Verdict Int :=
  verdictOf (checkLeaf key ((L.leaf v).getD .empty))

/-- The changes on both sides of a fork, of which there may be many. -/
def addChanges (left right : Int) : Int :=
  if (left.toNat ||| right.toNat).testBit 30 then manyChanges else left + right

omit [Digest] in
theorem addChanges_pos {left right : Int} (h : 0 < left + right) : 0 < addChanges left right := by
  unfold addChanges
  split
  · decide
  · exact h

section Steps

variable {ops : ForkOps} {checkLeaf : List Bool → Slice → Int} {cell : Cell} {q : List Bool} {n : Nat}
  {skip' : Option Bool} {res : FilterResult} {label : LabelParser}
  (hlabel : LabelParser.ofCell (some cell) n ops.labelMode = .ok label)

include hlabel

theorem dictFilter_leaf (hn : ¬ label.lBits < n) :
    dictFilter ops checkLeaf (some cell) q n none = .ok (filterLeaf (checkLeaf (q ++ label.bits) label.payload)) := by
  rw [dictFilter, hlabel]
  simp only [bind, Except.bind, dif_neg hn]
  rfl

/-- What a filter that does not throw has done at a fork: an error on either side ends it, and nothing is made anew
when there is no change. -/
theorem dictFilter_fork (hn : label.lBits < n) (hres : dictFilter ops checkLeaf (some cell) q n none = .ok (res, skip')) :
    ∃ left skip₁, dictFilter ops checkLeaf label.remainder.refs[0]? (q ++ label.bits ++ [false]) (n - label.lBits - 1) none =
        .ok (left, skip₁) ∧
      ((left.changes < 0 ∧ res = left ∧ skip' = skip₁) ∨ 0 ≤ left.changes ∧ ∃ right,
        dictFilter ops checkLeaf label.remainder.refs[1]? (q ++ label.bits ++ [true]) (n - label.lBits - 1) skip₁ =
          .ok (right, skip') ∧
        (((right.changes < 0 ∨ left.changes = 0 ∧ right.changes = 0) ∧ res = right) ∨
          ¬ (right.changes < 0 ∨ left.changes = 0 ∧ right.changes = 0) ∧ ∃ root,
            rejoinCells ops label.bits n (if left.changes ≠ 0 then left.dict else label.remainder.refs[0]?)
              (if right.changes ≠ 0 then right.dict else label.remainder.refs[1]?) = .ok root ∧
            res = ⟨root, addChanges left.changes right.changes⟩)) := by
  rw [dictFilter, hlabel] at hres
  simp only [bind, Except.bind, dif_pos hn] at hres
  cases hleft : dictFilter ops checkLeaf label.remainder.refs[0]? (q ++ label.bits ++ [false]) (n - label.lBits - 1) none with
  | error e =>
    rw [hleft] at hres
    cases hres
  | ok left =>
    obtain ⟨left, skip₁⟩ := left
    rw [hleft] at hres
    refine ⟨left, skip₁, rfl, ?_⟩
    dsimp only at hres
    by_cases hneg : left.changes < 0
    · rw [if_pos hneg] at hres
      cases hres
      exact .inl ⟨hneg, rfl, rfl⟩
    · rw [if_neg hneg] at hres
      refine .inr ⟨Int.not_lt.1 hneg, ?_⟩
      cases hright : dictFilter ops checkLeaf label.remainder.refs[1]? (q ++ label.bits ++ [true]) (n - label.lBits - 1)
          skip₁ with
      | error e =>
        rw [hright] at hres
        cases hres
      | ok right =>
        obtain ⟨right, skip₂⟩ := right
        rw [hright] at hres
        dsimp only at hres
        by_cases hend : right.changes < 0 ∨ left.changes = 0 ∧ right.changes = 0
        · rw [if_pos hend] at hres
          cases hres
          exact ⟨_, rfl, .inl ⟨hend, rfl⟩⟩
        · rw [if_neg hend] at hres
          cases hcell : rejoinCells ops label.bits n (if left.changes ≠ 0 then left.dict else label.remainder.refs[0]?)
              (if right.changes ≠ 0 then right.dict else label.remainder.refs[1]?) with
          | error e =>
            rw [hcell] at hres
            cases hres
          | ok root =>
            rw [hcell] at hres
            cases hres
            exact ⟨right, rfl, .inr ⟨hend, root, hcell, rfl⟩⟩

end Steps

section Filter

variable {R : Nat → PrefixTree Slice → Cell → Prop} {B : Nat → Slice → PrefixTree Slice → Prop} {ops : ForkOps} {L : Layout}
  (h : Represents ops L R B) {checkLeaf : List Bool → Slice → Int}

omit [Digest] in
/-- A leaf is kept or dropped. -/
theorem filteredBy_leaf {n : Nat} {q l : List Bool} {v p : Slice} (hp : L.leaf v = some p) :
    FilteredBy R n q (.leaf l v) (filterLeaf (checkLeaf (q ++ l) p)).1 (filterLeaf (checkLeaf (q ++ l) p)).2
      (filterEntries (L.verdict checkLeaf) none (PrefixTree.entries q (.leaf l v))) := by
  have hentries : PrefixTree.entries q (.leaf l v) = [(q ++ l, v)] := rfl
  have hdropped (skip : Option Bool) : FilteredBy R n q (.leaf l v) ⟨none, 1⟩ skip (.ok ([], skip)) :=
    .changed none (by decide) (PrefixTree.entries_ne_nil q (.leaf l v)).symm rfl
  have hkept (skip : Option Bool) : FilteredBy R n q (.leaf l v) ⟨none, 0⟩ skip (.ok ([(q ++ l, v)], skip)) := .same rfl
  rw [hentries, filterEntries, Layout.verdict, hp, Option.getD_some]
  generalize checkLeaf (q ++ l) p = res
  unfold verdictOf filterLeaf
  have hmany : (0 : Int) < manyChanges := by decide
  by_cases hneg : res < 0
  · have hrest : ¬ manyChanges ≤ res := by omega
    simp only [hneg, hrest, if_true, if_false]
    exact .error hneg
  · by_cases hrest : manyChanges ≤ res
    · by_cases hzero : res % manyChanges = 0
      · simp only [hneg, hrest, hzero, if_true, if_false, decide_true]
        exact hdropped (some true)
      · simp only [hneg, hrest, hzero, if_true, if_false, decide_false]
        exact hkept (some false)
    · by_cases hzero : res = 0
      · subst hzero
        exact hdropped none
      · simp only [hneg, hrest, hzero, if_false]
        exact hkept none

omit [Digest] in
/-- What is kept stands under the root: under the old one, if nothing has changed. -/
theorem FilteredBy.kept {n : Nat} {q : List Bool} {t : PrefixTree Slice} {c : Cell} {skip : Option Bool} {res : FilterResult}
    {r : List (List Bool × Slice) × Option Bool} (h : FilteredBy R n q t res skip (.ok r)) (hc : R n t c) :
    ∃ t', r = (PrefixTree.entries? q t', skip) ∧ 0 ≤ res.changes ∧
      (res.changes = 0 ↔ PrefixTree.entries? q t' = t.entries q) ∧
      Root R n t' (if res.changes ≠ 0 then res.dict else some c) := by
  cases h with
  | same h =>
    refine ⟨some t, rfl, le_of_eq h.symm, ⟨fun _ => rfl, fun _ => h⟩, ?_⟩
    rw [if_neg (not_not.2 h)]
    exact ⟨c, rfl, hc⟩
  | changed t' h hne ht' =>
    refine ⟨t', rfl, le_of_lt h, ⟨fun h' => by omega, fun h' => absurd h' hne⟩, ?_⟩
    rwa [if_pos (by omega)]

theorem dictFilter_skip {n : Nat} {q : List Bool} {t : PrefixTree Slice} {c : Cell} {drop : Bool} {skip : Option Bool}
    {res : FilterResult} (hres : dictFilter ops checkLeaf (some c) q n (some drop) = .ok (res, skip)) :
    FilteredBy R n q t res skip (filterEntries (L.verdict checkLeaf) (some drop) (t.entries q)) := by
  rw [dictFilter] at hres
  cases hres
  rw [filterEntries_some]
  cases drop with
  | false => exact .same rfl
  | true => exact .changed none (by decide) (PrefixTree.entries_ne_nil q t).symm rfl

include h

/-- A filter that does not throw, of a tree that a cell stands for. -/
theorem dictFilter_represents {n : Nat} {q : List Bool} {t : PrefixTree Slice} {c : Cell} {skip skip' : Option Bool}
    {res : FilterResult} (hc : R n t c) (hres : dictFilter ops checkLeaf (some c) q n skip = .ok (res, skip')) :
    FilteredBy R n q t res skip' (filterEntries (L.verdict checkLeaf) skip (t.entries q)) := by
  induction t generalizing n c q skip res skip' with
  | leaf l v =>
    cases skip with
    | some drop => exact dictFilter_skip hres
    | none =>
      obtain ⟨label, p, hlabel, hreads, hp, hlen⟩ := h.ofCell_leaf hc
      rw [dictFilter_leaf hlabel (by rw [hreads.lBits_eq, hlen]; exact lt_irrefl n), hreads.bits_eq, hreads.payload_eq] at hres
      have hleaf : filterLeaf (checkLeaf (q ++ l) p) = (res, skip') := Except.ok.inj hres
      have hfiltered : FilteredBy R n q (.leaf l v) (filterLeaf (checkLeaf (q ++ l) p)).1 _ _ := filteredBy_leaf hp
      rwa [hleaf] at hfiltered
  | fork l a b iha ihb =>
    cases skip with
    | some drop => exact dictFilter_skip hres
    | none =>
      obtain ⟨label, m, ca, cb, hlabel, hlen, hbits, hca, hcb, hm, ha, hb⟩ := h.ofCell_fork hc
      have hm' : n - l.length - 1 = m := by omega
      obtain ⟨left, skip₁, hleft, hres⟩ := dictFilter_fork hlabel (by omega) hres
      rw [hca, hbits, hlen, hm'] at hleft
      rw [hca, hcb, hbits, hlen, hm'] at hres
      rw [PrefixTree.entries, filterEntries_append]
      have hl := iha ha hleft
      rcases hres with ⟨hneg, rfl, rfl⟩ | ⟨hpos, right, hright, hres⟩
      · -- an error on the left
        cases hkl : filterEntries (L.verdict checkLeaf) none (a.entries (q ++ l ++ [false])) with
        | error e =>
          rw [hkl] at hl
          cases hl with
          | error _ => exact .error hneg
        | ok r =>
          rw [hkl] at hl
          obtain ⟨a', -, hl0, -⟩ := hl.kept ha
          omega
      · cases hkl : filterEntries (L.verdict checkLeaf) none (a.entries (q ++ l ++ [false])) with
        | error e =>
          rw [hkl] at hl
          cases hl with
          | error hneg => omega
        | ok r₁ =>
          rw [hkl] at hl
          obtain ⟨a', rfl, -, hlsame, hak⟩ := hl.kept ha
          have hr := ihb hb hright
          show FilteredBy R n q _ res skip' ((filterEntries (L.verdict checkLeaf) skip₁ (b.entries (q ++ l ++ [true]))).map
            fun s => (PrefixTree.entries? (q ++ l ++ [false]) a' ++ s.1, s.2))
          cases hkr : filterEntries (L.verdict checkLeaf) skip₁ (b.entries (q ++ l ++ [true])) with
          | error e =>
            rw [hkr] at hr
            cases hr with
            | error hneg =>
              rcases hres with ⟨-, rfl⟩ | ⟨hend, -⟩
              · exact .error hneg
              · exact absurd (.inl hneg) hend
          | ok r₂ =>
            rw [hkr] at hr
            obtain ⟨b', rfl, hr0, hrsame, hbk⟩ := hr.kept hb
            show FilteredBy R n q _ res skip' (.ok (PrefixTree.entries? (q ++ l ++ [false]) a' ++
              PrefixTree.entries? (q ++ l ++ [true]) b', skip'))
            rcases hres with ⟨hend, rfl⟩ | ⟨hend, root, hroot, rfl⟩
            · have hsame : left.changes = 0 ∧ res.changes = 0 := hend.resolve_left (by omega)
              rw [hlsame.1 hsame.1, hrsame.1 hsame.2]
              exact .same hsame.2
            · rw [← PrefixTree.entries?_rejoin]
              refine .changed _ (addChanges_pos (by omega)) ?_ (h.rejoin hm hak hbk hroot)
              rw [PrefixTree.entries?_rejoin, PrefixTree.entries]
              intro heq
              -- parts of both sides that are all together are all of each
              have hsubl := filterEntries_sublist hkl
              have hsubr := filterEntries_sublist hkr
              have hlen := congrArg List.length heq
              rw [List.length_append, List.length_append] at hlen
              have hlenl := hsubl.length_le
              have hlenr := hsubr.length_le
              dsimp only at hsubl hsubr hlenl hlenr
              exact hend (.inr ⟨hlsame.2 (hsubl.eq_of_length (by omega)), hrsame.2 (hsubr.eq_of_length (by omega))⟩)

omit h [Digest] in
theorem testBit_manyChanges {x : Nat} (hx : x < 2 ^ 31) : x.testBit 30 = decide (2 ^ 30 ≤ x) := by
  rw [Nat.testBit_eq_decide_div_mod_eq, decide_eq_decide]
  omega

/-- A number of changes between a number of entries and what is left of it: exact, or many. -/
def Counts (changes : Int) (all kept : Nat) : Prop :=
  changes < 2 ^ 31 ∧ (changes + kept = all ∨ manyChanges ≤ changes ∧ manyChanges + kept ≤ all)

omit h [Digest] in
theorem Counts.add {x y : Int} {all₁ kept₁ all₂ kept₂ : Nat} (hx : 0 ≤ x) (hy : 0 ≤ y) (h₁ : Counts x all₁ kept₁)
    (h₂ : Counts y all₂ kept₂) : Counts (addChanges x y) (all₁ + all₂) (kept₁ + kept₂) := by
  obtain ⟨m, rfl⟩ := Int.eq_ofNat_of_zero_le hx
  obtain ⟨n, rfl⟩ := Int.eq_ofNat_of_zero_le hy
  obtain ⟨hm, h₁⟩ := h₁
  obtain ⟨hn, h₂⟩ := h₂
  have hm' : m < 2 ^ 31 := by omega
  have hn' : n < 2 ^ 31 := by omega
  unfold addChanges Counts
  unfold manyChanges at *
  rw [Int.toNat_natCast, Int.toNat_natCast, Nat.testBit_or, testBit_manyChanges hm', testBit_manyChanges hn']
  by_cases hmany : 2 ^ 30 ≤ m ∨ 2 ^ 30 ≤ n
  · rw [if_pos (by simpa using hmany)]
    exact ⟨by decide, .inr ⟨le_rfl, by omega⟩⟩
  · rw [if_neg (by simpa using hmany)]
    exact ⟨by omega, .inl (by push_cast; omega)⟩

/-- Without answers about the rest, the changes are the entries that are dropped, unless these are many. -/
theorem dictFilter_counts {n : Nat} {q : List Bool} {t : PrefixTree Slice} {c : Cell} {skip' : Option Bool}
    {res : FilterResult} (hsmall : ∀ k v, checkLeaf k v < manyChanges) (hc : R n t c)
    (hres : dictFilter ops checkLeaf (some c) q n none = .ok (res, skip')) (hpos : 0 ≤ res.changes) :
    skip' = none ∧ ∃ kept, filterEntries (L.verdict checkLeaf) none (t.entries q) = .ok (kept, none) ∧
      Counts res.changes (t.entries q).length kept.length := by
  induction t generalizing n c q res skip' with
  | leaf l v =>
    obtain ⟨label, p, hlabel, hreads, hp, hlen⟩ := h.ofCell_leaf hc
    rw [dictFilter_leaf hlabel (by rw [hreads.lBits_eq, hlen]; exact lt_irrefl n), hreads.bits_eq, hreads.payload_eq] at hres
    have hentries : PrefixTree.entries q (.leaf l v) = [(q ++ l, v)] := rfl
    have hless := hsmall (q ++ l) p
    rw [hentries, filterEntries, Layout.verdict, hp, Option.getD_some]
    revert hres hless
    generalize checkLeaf (q ++ l) p = x
    intro hres hless
    have hrest : ¬ (manyChanges : Int) ≤ x := by omega
    rw [filterLeaf, if_neg hrest] at hres
    cases hres
    have hneg : ¬ x < 0 := by
      intro hneg
      have hchanges : (0 : Int) ≤ if x < 0 then x else if x = 0 then 1 else 0 := hpos
      rw [if_pos hneg] at hchanges
      omega
    unfold verdictOf
    by_cases hzero : x = 0
    · simp only [hzero, if_true]
      exact ⟨trivial, [], rfl, by decide, .inl rfl⟩
    · simp only [hneg, hrest, hzero, if_false]
      exact ⟨trivial, [(q ++ l, v)], rfl, by decide, .inl rfl⟩
  | fork l a b iha ihb =>
    obtain ⟨label, m, ca, cb, hlabel, hlen, hbits, hca, hcb, hm, ha, hb⟩ := h.ofCell_fork hc
    have hm' : n - l.length - 1 = m := by omega
    obtain ⟨left, skip₁, hleft, hstep⟩ := dictFilter_fork hlabel (by omega) hres
    rw [hca, hbits, hlen, hm'] at hleft
    rw [hca, hcb, hbits, hlen, hm'] at hstep
    rcases hstep with ⟨hneg, rfl, rfl⟩ | ⟨hleftPos, right, hright, hstep⟩
    · omega
    · obtain ⟨rfl, keptLeft, hkl, hcl⟩ := iha ha hleft hleftPos
      have hrightPos : 0 ≤ right.changes := by
        rcases hstep with ⟨-, rfl⟩ | ⟨hend, -⟩
        · exact hpos
        · omega
      obtain ⟨rfl, keptRight, hkr, hcr⟩ := ihb hb hright hrightPos
      refine ⟨rfl, keptLeft ++ keptRight, ?_, ?_⟩
      · rw [PrefixTree.entries, filterEntries_append, hkl]
        change (filterEntries (L.verdict checkLeaf) none (b.entries (q ++ l ++ [true]))).map _ = _
        rw [hkr]
        rfl
      · rw [PrefixTree.entries, List.length_append, List.length_append]
        have hsum := hcl.add hleftPos hrightPos hcr
        rcases hstep with ⟨hend, hsame⟩ | ⟨-, root, -, hsame⟩
        · have hzero : left.changes = 0 ∧ right.changes = 0 := hend.resolve_left (by omega)
          rw [hzero.1, hzero.2] at hsum
          rw [hsame, hzero.2]
          exact hsum
        · rw [hsame]
          exact hsum

end Filter

/-! ## Stored trees -/

section Stored

variable {ops : ForkOps} {L : Layout} {checkLeaf : List Bool → Slice → Int} {n : Nat} {q : List Bool}
  {t : PrefixTree Slice} {c : Cell} {skip : Option Bool} {res : FilterResult}

theorem FilteredBy.filtered {r : Except Int (List (List Bool × Slice) × Option Bool)}
    (h : FilteredBy (StoredAs L) n q t res skip r) : Filtered L n q t res skip r := by
  cases h with
  | error h => exact .error h
  | same h => exact .same h
  | changed t' h hne ht =>
    obtain ⟨hkeyed, hs⟩ := root_storedAs_iff.1 ht
    exact .changed t' h hne hkeyed hs

/-- What is kept is stored: in the old root cell, if nothing has changed. -/
theorem Filtered.kept {r : List (List Bool × Slice) × Option Bool} (h : Filtered L n q t res skip (.ok r)) (ht : t.Keyed n)
    (hs : store L n t = some c) :
    ∃ t', r = (PrefixTree.entries? q t', skip) ∧ 0 ≤ res.changes ∧
      (res.changes = 0 ↔ PrefixTree.entries? q t' = t.entries q) ∧ PrefixTree.Keyed? n t' ∧
      store? L n t' = some (if res.changes ≠ 0 then res.dict else some c) := by
  cases h with
  | same h =>
    refine ⟨some t, rfl, le_of_eq h.symm, ⟨fun _ => rfl, fun _ => h⟩, ht.some, ?_⟩
    rw [if_neg (not_not.2 h), store?, hs]
    rfl
  | changed t' h hne ht' hs' =>
    refine ⟨t', rfl, le_of_lt h, ⟨fun h' => by omega, fun h' => absurd h' hne⟩, ht', ?_⟩
    rw [if_pos (by omega), hs']

/-- A filter of a stored tree that does not throw. -/
theorem dictFilter_store (h : ops.Implements L) {skip' : Option Bool} (ht : t.Keyed n) (hs : store L n t = some c)
    (hres : dictFilter ops checkLeaf (some c) q n skip = .ok (res, skip')) :
    Filtered L n q t res skip' (filterEntries (L.verdict checkLeaf) skip (t.entries q)) :=
  (dictFilter_represents (represents_store h) ⟨ht, hs⟩ hres).filtered

end Stored

end TonWallet.Vm.Dict
