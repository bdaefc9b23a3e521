/-
What a merge of two dictionaries comes to: without a mode, the pointwise merge of their maps, at whatever places the
two trees have their forks. A mode adds an error, for some of the keys that it forbids.
-/
import TonWallet.Vm.Dict.Combine

namespace TonWallet.Vm.Dict

open Lib TonWallet.Td CellBuilder

variable [Digest]

/-! ## What a merge comes to -/

/-- What a combiner makes of two values of a key; `none`: the key is dropped. -/
abbrev Combiner := List Bool → Slice → Slice → CombineResult (Option Slice)

/-- The builder of a leaf, with the label that it has. -/
def leafBuilder (label : List Bool) : CellBuilder := ⟨labelBits label label.length, []⟩

/-- In the leaves of keys of at most `n` bits a combiner's value is put in as it is; one that does not fit is an error. -/
structure CombineFunc.Implements (combine : CombineFunc) (n : Nat) (f : Combiner) : Prop where
  error : ∀ {key v1 v2 e l}, l.length ≤ n → f key v1 v2 = .error e → combine (leafBuilder l) v1 v2 key = .error e
  drop : ∀ {key v1 v2 l}, l.length ≤ n → f key v1 v2 = .ok none → combine (leafBuilder l) v1 v2 key = .ok none
  value : ∀ {key v1 v2 v l cb}, l.length ≤ n → f key v1 v2 = .ok (some v) →
    (leafBuilder l).appendSliceBool v = some cb → combine (leafBuilder l) v1 v2 key = .ok (some cb)
  overflow : ∀ {key v1 v2 v l}, l.length ≤ n → f key v1 v2 = .ok (some v) →
    (leafBuilder l).appendSliceBool v = none → ∃ e, combine (leafBuilder l) v1 v2 key = .error e

/-- The value of a key in the pointwise merge of two maps, where the combiner does not fail. -/
def merged (f : Combiner) (q : List Bool) (m1 m2 : List Bool → Option Slice) (k : List Bool) :
    CombineResult (Option Slice) := match m1 k, m2 k with
  | some v1, some v2 => f (q ++ k) v1 v2
  | some v, none | none, some v => .ok (some v)
  | none, none => .ok none

section Merged

variable {f : Combiner} {q : List Bool} {m1 m2 : List Bool → Option Slice} {k : List Bool}

omit [Digest]

theorem merged_left (h : m2 k = none) : merged f q m1 m2 k = .ok (m1 k) := by
  unfold merged
  rw [h]
  cases m1 k <;> rfl

theorem merged_right (h : m1 k = none) : merged f q m1 m2 k = .ok (m2 k) := by
  unfold merged
  rw [h]
  cases m2 k <;> rfl

theorem merged_both {v1 v2 : Slice} (h1 : m1 k = some v1) (h2 : m2 k = some v2) :
    merged f q m1 m2 k = f (q ++ k) v1 v2 := by
  unfold merged
  rw [h1, h2]

/-- What is merged on a side of a label. -/
theorem merged_branch {l : List Bool} {c : Bool} {m1' m2' : List Bool → Option Slice} (h1 : m1 (l ++ c :: k) = m1' k)
    (h2 : m2 (l ++ c :: k) = m2' k) : merged f q m1 m2 (l ++ c :: k) = merged f (q ++ l ++ [c]) m1' m2' k := by
  unfold merged
  rw [h1, h2]
  simp only [List.append_assoc, List.singleton_append]

end Merged

/-- A result for the values `M` that a merge gives the keys: it is parsed as the tree of these values; or one of them
is an error; or one of them does not fit, where keys have length `N` with what is in front of them. -/
inductive Outcome (canon : Prop) (N n : Nat) (q : List Bool) (M : List Bool → CombineResult (Option Slice)) :
    CombineResult (Option Cell) → Prop
  | ok {root : Option Cell} {t : Option (PrefixTree Slice)} (hroot : Parses? canon n t root)
      (hmap : ∀ k, M k = .ok (PrefixTree.get? t k)) : Outcome canon N n q M (.ok root)
  | failed {e : CombineFail} {k : List Bool} (h : M k = .error e) : Outcome canon N n q M (.error e)
  | overflow {e : CombineFail} {k : List Bool} {v : Slice} (h : M k = .ok (some v)) (hfit : ¬ ValueFits N (q ++ k) v) :
      Outcome canon N n q M (.error e)

section Outcome

variable {canon : Prop} {N n m : Nat} {q l : List Bool} {M K : List Bool → CombineResult (Option Slice)}
  {t a b : PrefixTree Slice} {p : Slice}

theorem Outcome.overflow_of_eq {e : CombineFail} {m : List Bool → Option Slice} (hM : ∀ k, M k = .ok (m k))
    (h : ¬ FitsAt N q m) : Outcome canon N n q M (.error e) := by
  unfold FitsAt at h
  push Not at h
  obtain ⟨k, v, hk, hfit⟩ := h
  exact .overflow (k := k) (by rw [hM, hk]) hfit

/-- An error below a prefix is one of the whole. -/
theorem Outcome.of_branch {e : CombineFail} {c : Bool} (h : Outcome canon N m (q ++ l ++ [c]) K (.error e))
    (hM : ∀ k, M (l ++ c :: k) = K k) : Outcome canon N n q M (.error e) := by
  cases h with
  | @failed _ k hk => exact .failed (k := l ++ c :: k) ((hM k).trans hk)
  | @overflow _ k v hk hfit =>
    refine .overflow (k := l ++ c :: k) ((hM k).trans hk) ?_
    simpa using hfit

/-- A label and what is behind it are made a cell, unless the values below do not fit. -/
theorem built_cases (hlen : t.label.length ≤ n) (hb : Behind canon (n - t.label.length) p t) {r : Result Cell}
    (hr : r.toOption = node t.label n p) :
    (∃ c, r = .ok c ∧ Parses canon n t c) ∨
      ∃ e, r = .error e ∧ ∀ {N : Nat} {q : List Bool}, N ≤ maxDepth → q.length + n = N → ¬ FitsAt N q t.get := by
  have hkeyed : t.Keyed n := by
    cases t with
    | leaf l v =>
      obtain ⟨hm, -⟩ := hb
      rw [PrefixTree.label] at hm hlen
      show l.length = n
      omega
    | fork l a b =>
      obtain ⟨k, ca, cb, hm, -, ha, hb⟩ := hb
      rw [PrefixTree.label] at hm hlen
      exact ⟨k, by omega, ha.keyed, hb.keyed⟩
  cases hres : r with
  | ok c =>
    rw [hres] at hr
    exact .inl ⟨c, rfl, parses_of_node hlen hb hr.symm⟩
  | error e =>
    refine .inr ⟨e, rfl, ?_⟩
    intro N q hN hq hfit
    obtain ⟨c, hc⟩ := node_of_fits hN hkeyed hb hq hfit
    rw [hres, hc] at hr
    cases hr

variable {ops : ForkOps} (h : ops.Plain)

include h

theorem ForkOps.Plain.toOption_createFork (l : List Bool) (n : Nat) (ca cb : Cell) :
    (createFork ops l n (some ca) (some cb)).toOption = node l n ⟨[], [ca, cb]⟩ := by
  refine toOption_built (p := some ⟨[], [ca, cb]⟩) (toOption_appendDictLabel l n) ?_
  rw [h.finishFork, Option.bind_some, List.append_nil]

theorem ForkOps.Plain.createFork_cases {ca cb : Cell} (hm : l.length + 1 + m = n) (ha : Parses canon m a ca)
    (hb : Parses canon m b cb) :
    (∃ c, createFork ops l n (some ca) (some cb) = .ok c ∧ Parses canon n (.fork l a b) c) ∨
      ∃ e, createFork ops l n (some ca) (some cb) = .error e ∧
        ∀ {N : Nat} {q : List Bool}, N ≤ maxDepth → q.length + n = N → ¬ FitsAt N q (PrefixTree.fork l a b).get := by
  refine built_cases (t := .fork l a b) ?_ ⟨m, ca, cb, ?_, rfl, ha, hb⟩ (h.toOption_createFork l n ca cb) <;>
  · rw [PrefixTree.label]
    omega

/-- The only branch of a fork gets the fork's label. -/
theorem ForkOps.Plain.collapseEdge_cases {c : Cell} (hm : l.length + 1 + m = n) (ht : Parses canon m t c) (side : Bool) :
    (∃ c', collapseEdge ops l n side c = .ok c' ∧ Parses canon n (t.prepend (l ++ [side])) c') ∨
      ∃ e, collapseEdge ops l n side c = .error e ∧
        ∀ {N : Nat} {q : List Bool}, N ≤ maxDepth → q.length + n = N → ¬ FitsAt N q (t.prepend (l ++ [side])).get := by
  obtain ⟨label, p, hlabel, hreads, hbehind⟩ := ht.ofCell
  have hlen := ht.keyed.length_label_le
  have hm' : n - l.length - 1 = m := by omega
  have hlength : (t.prepend (l ++ [side])).label.length = l.length + 1 + t.label.length := by
    rw [PrefixTree.label_prepend, List.length_append, List.length_append, List.length_singleton]
  refine built_cases (p := p) (by omega) ?_ ?_
  · rw [PrefixTree.prepend, behind_withLabel, ← PrefixTree.prepend, hlength, show n - (l.length + 1 + t.label.length) =
      m - t.label.length by omega]
    exact hbehind
  · unfold collapseEdge
    rw [hm', h.labelMode, hlabel, toOption_bind, toOption_ok, Option.bind_some, hreads.bits_eq, hreads.payload_eq,
      toOption_relabel (toOption_appendDictLabel _ n), PrefixTree.label_prepend]

/-- Merged branches make a merged tree. -/
theorem Outcome.rejoin (hN : N ≤ maxDepth) (hq : q.length + n = N) (hm : l.length + 1 + m = n)
    {a b : Option (PrefixTree Slice)} {ra rb : Option Cell} (ha : Parses? canon m a ra) (hb : Parses? canon m b rb)
    (hM : ∀ k, M k = .ok (PrefixTree.get? (PrefixTree.rejoin l a b) k)) :
    Outcome canon N n q M (lift (rejoinCells ops l n ra rb)) := by
  have hbuilt {t : PrefixTree Slice} {r : Result Cell} (ht : PrefixTree.rejoin l a b = some t)
      (hr : (∃ c, r = .ok c ∧ Parses canon n t c) ∨ ∃ e, r = .error e ∧
        ∀ {N : Nat} {q : List Bool}, N ≤ maxDepth → q.length + n = N → ¬ FitsAt N q t.get) :
      Outcome canon N n q M (lift do return some (← r)) := by
    rw [ht] at hM
    rcases hr with ⟨c, rfl, hc⟩ | ⟨e, rfl, he⟩
    · exact .ok (t := some t) ⟨c, rfl, hc⟩ hM
    · exact .overflow_of_eq hM (he hN hq)
  cases a with
  | none =>
    cases ha
    cases b with
    | none =>
      cases hb
      exact .ok (t := none) rfl hM
    | some b =>
      obtain ⟨cb, rfl, hb⟩ := hb
      exact hbuilt rfl (h.collapseEdge_cases hm hb true)
  | some a =>
    obtain ⟨ca, rfl, ha⟩ := ha
    cases b with
    | none =>
      cases hb
      exact hbuilt rfl (h.collapseEdge_cases hm ha false)
    | some b =>
      obtain ⟨cb, rfl, hb⟩ := hb
      exact hbuilt rfl (h.createFork_cases hm ha hb)

omit h [Digest] in
/-- Parts of a map below both sides of a label are those of rejoined branches. -/
theorem get?_rejoin_of_parts {a b : Option (PrefixTree Slice)} (hfalse : ∀ k, M (l ++ false :: k) = .ok (PrefixTree.get? a k))
    (htrue : ∀ k, M (l ++ true :: k) = .ok (PrefixTree.get? b k)) (hnone : ∀ k, (∀ c r, k ≠ l ++ c :: r) → M k = .ok none)
    (k : List Bool) : M k = .ok (PrefixTree.get? (PrefixTree.rejoin l a b) k) := by
  by_cases hk : ∃ c r, k = l ++ c :: r
  · obtain ⟨c, r, rfl⟩ := hk
    cases c with
    | false => rw [hfalse, PrefixTree.get?_rejoin_false]
    | true => rw [htrue, PrefixTree.get?_rejoin_true]
  · push Not at hk
    rw [hnone k hk, PrefixTree.get?_rejoin_of_not l a b k hk]

/-- A fork of which one branch is merged. -/
theorem Outcome.combineBranch (hN : N ≤ maxDepth) (hq : q.length + n = N) (hm : l.length + 1 + m = n) {ca cb : Cell}
    (ha : Parses canon m a ca) (hb : Parses canon m b cb) {sw : Bool}
    {merge : Option Cell → CombineResult (Option Cell)}
    (hmerge : Outcome canon N m (q ++ l ++ [sw]) K (merge (some (if sw then cb else ca))))
    (hside : ∀ k, M (l ++ sw :: k) = K k) (hother : ∀ k, M (l ++ (!sw) :: k) = .ok ((if sw then a else b).get k))
    (hnone : ∀ k, (∀ c r, k ≠ l ++ c :: r) → M k = .ok none) :
    Outcome canon N n q M (combineBranch ops l n sw (some ca) (some cb) merge) := by
  cases sw with
  | false =>
    show Outcome canon N n q M (merge (some ca) >>= fun c1 => lift (rejoinCells ops l n c1 (some cb)))
    rw [if_neg Bool.false_ne_true] at hmerge
    generalize merge (some ca) = res at hmerge
    cases res with
    | error e => exact hmerge.of_branch hside
    | ok root =>
      cases hmerge with
      | @ok _ t hroot hmap =>
        refine Outcome.rejoin h hN hq hm (b := some b) hroot ⟨cb, rfl, hb⟩ (get?_rejoin_of_parts ?_ hother hnone)
        intro k
        rw [hside, hmap]
  | true =>
    show Outcome canon N n q M (merge (some cb) >>= fun c2 => lift (rejoinCells ops l n (some ca) c2))
    rw [if_pos rfl] at hmerge
    generalize merge (some cb) = res at hmerge
    cases res with
    | error e => exact hmerge.of_branch hside
    | ok root =>
      cases hmerge with
      | @ok _ t hroot hmap =>
        refine Outcome.rejoin h hN hq hm (a := some a) ⟨ca, rfl, ha⟩ hroot (get?_rejoin_of_parts hother ?_ hnone)
        intro k
        rw [hside, hmap]

/-- Two trees under a new fork. -/
theorem Outcome.combineDisjoint (hN : N ≤ maxDepth) (hq : q.length + n = N) (hm : l.length + 1 + m = n) {c : Bool}
    {p1 p2 : Slice} (hlen1 : a.label.length ≤ m) (hb1 : Behind canon (m - a.label.length) p1 a)
    (hlen2 : b.label.length ≤ m) (hb2 : Behind canon (m - b.label.length) p2 b)
    (hside : ∀ k, M (l ++ c :: k) = .ok (a.get k)) (hother : ∀ k, M (l ++ (!c) :: k) = .ok (b.get k))
    (hnone : ∀ k, (∀ c r, k ≠ l ++ c :: r) → M k = .ok none) :
    Outcome canon N n q M
      (do return some (← lift (Dict.combineDisjoint ops l (l ++ c :: a.label) (l ++ (!c) :: b.label) p1 p2 n))) := by
  have hm' : n - l.length - 1 = m := by omega
  have hdrop (c : Bool) (r : List Bool) : (l ++ c :: r).drop (l.length + 1) = r := by simp
  have hbit : (l ++ (!c) :: b.label).getD l.length false = !c := by simp
  rw [lift_some]
  unfold Dict.combineDisjoint
  dsimp only
  rw [hm', hdrop, hdrop, hbit]
  have hsub (c : Bool) : (q ++ l ++ [c]).length + m = N := by
    simp only [List.length_append, List.length_singleton]
    omega
  -- the edge of the first tree
  rcases built_cases hlen1 hb1 (toOption_relabel (toOption_appendDictLabel a.label m)
    "cannot prune label of an old dictionary cell while merging dictionaries" p1) with ⟨ca, hca, ha⟩ | ⟨e, he, hover⟩
  · rw [hca]
    -- that of the other one
    rcases built_cases hlen2 hb2 (toOption_relabel (toOption_appendDictLabel b.label m)
      "cannot change label of an old dictionary cell while merging edges" p2) with ⟨cb, hcb, hb⟩ | ⟨e, he, hover⟩
    · rw [hcb]
      cases c with
      | false =>
        exact Outcome.rejoin h hN hq hm (a := some a) (b := some b) ⟨ca, rfl, ha⟩ ⟨cb, rfl, hb⟩
          (get?_rejoin_of_parts hside hother hnone)
      | true =>
        exact Outcome.rejoin h hN hq hm (a := some b) (b := some a) ⟨cb, rfl, hb⟩ ⟨ca, rfl, ha⟩
          (get?_rejoin_of_parts hother hside hnone)
    · rw [he]
      exact Outcome.of_branch (m := m) (.overflow_of_eq (fun _ => rfl) (hover hN (hsub _))) hother
  · rw [he]
    exact Outcome.of_branch (m := m) (.overflow_of_eq (fun _ => rfl) (hover hN (hsub _))) hside

end Outcome

section Combine

variable {ops : ForkOps} (h : ops.Plain) (combine : CombineFunc) {f : Combiner} {N : Nat}
  (hcombine : combine.Implements N f) {canon : Prop}

omit hcombine in
/-- A value that does not fit behind its label does not fit behind its key. -/
theorem not_fitsAt_leaf (hN : N ≤ maxDepth) {l q : List Bool} (hq : q.length + l.length = N) {v : Slice}
    (happend : (leafBuilder l).appendSliceBool v = none) : ¬ FitsAt N q (PrefixTree.leaf l v).get := by
  intro hfit
  obtain ⟨c, hc⟩ := @node_of_fits _ True _ (.leaf l v) _ _ _ hN rfl ⟨Nat.sub_self _, rfl⟩ hq hfit
  have hnone : node l l.length v = none := by
    rcases appendSliceBool_cases v (leafBuilder l) with hsome | ⟨-, hlarge⟩
    · rw [happend] at hsome
      cases hsome
    · refine cellOf_eq_none ?_
      show maxBits < (labelBits l l.length ++ v.bits).length ∨ maxRefs < v.refs.length
      simp only [leafBuilder, List.length_nil] at hlarge
      rw [List.length_append]
      omega
  rw [PrefixTree.label, hnone] at hc
  cases hc

include hcombine

/-- Two leaves of one key. -/
theorem outcome_leaves (hN : N ≤ maxDepth) {l q : List Bool} (hq : q.length + l.length = N) {v1 v2 : Slice} :
    Outcome canon N l.length q (merged f q (PrefixTree.leaf l v1).get (PrefixTree.leaf l v2).get) (do
      match ← combine (leafBuilder l) v1 v2 (q ++ l) with
      | none => return none
      | some cb => return some (← lift cb.finalize)) := by
  have hlen : l.length ≤ N := by omega
  have hM {o : Option Slice} (hf : f (q ++ l) v1 v2 = .ok o) (k : List Bool) :
      merged f q (PrefixTree.leaf l v1).get (PrefixTree.leaf l v2).get k = .ok (if k = l then o else none) := by
    by_cases hk : k = l
    · subst hk
      rw [merged_both (PrefixTree.get_leaf_self k v1) (PrefixTree.get_leaf_self k v2), hf, if_pos rfl]
    · rw [merged_left (by rw [PrefixTree.get, if_neg hk]), PrefixTree.get, if_neg hk, if_neg hk]
  cases hf : f (q ++ l) v1 v2 with
  | error e =>
    rw [hcombine.error hlen hf]
    exact .failed (k := l) ((merged_both (PrefixTree.get_leaf_self l v1) (PrefixTree.get_leaf_self l v2)).trans hf)
  | ok o =>
    cases o with
    | none =>
      rw [hcombine.drop hlen hf]
      refine .ok (t := none) rfl fun k => ?_
      rw [hM hf, PrefixTree.get?_none, ite_self]
    | some v =>
      have hleaf : ∀ k, merged f q (PrefixTree.leaf l v1).get (PrefixTree.leaf l v2).get k =
          .ok ((PrefixTree.leaf l v).get k) := hM hf
      have hbehind : Behind canon (l.length - l.length) v (.leaf l v) := ⟨Nat.sub_self _, rfl⟩
      rcases appendSliceBool_cases v (leafBuilder l) with happend | ⟨happend, -⟩
      · rw [hcombine.value hlen hf happend]
        have hfinal : (CellBuilder.finalize ⟨(leafBuilder l).bits ++ v.bits, (leafBuilder l).refs ++ v.refs⟩).toOption = node l l.length v :=
          toOption_finalize _
        rcases built_cases (t := .leaf l v) (le_refl l.length) hbehind hfinal with ⟨c, hc, hparses⟩ | ⟨e, he, hover⟩
        · show Outcome canon N l.length q _ (lift (CellBuilder.finalize _) >>= _)
          rw [hc]
          exact .ok (t := some (.leaf l v)) ⟨c, rfl, hparses⟩ hleaf
        · show Outcome canon N l.length q _ (lift (CellBuilder.finalize _) >>= _)
          rw [he]
          exact .overflow_of_eq hleaf (hover hN hq)
      · obtain ⟨e, he⟩ := hcombine.overflow hlen hf happend
        rw [he]
        exact .overflow_of_eq hleaf (not_fitsAt_leaf hN hq happend)

include h

/-- A merge of two parsed trees. -/
theorem dictCombineWith_outcome (hN : N ≤ maxDepth) {n : Nat} {t1 t2 : PrefixTree Slice} {c1 c2 : Cell}
    {s1 s2 q : List Bool} (h1 : Parses canon (n + s1.length) (t1.prepend s1) c1)
    (h2 : Parses canon (n + s2.length) (t2.prepend s2) c2) (hs1 : s1 <:+ q) (hs2 : s2 <:+ q) (hq : q.length + n = N) :
    Outcome canon N n q (merged f q t1.get t2.get)
      (dictCombineWith ops combine 0 (some c1) (some c2) q n s1.length s2.length) := by
  induction n using Nat.strong_induction_on generalizing t1 t2 c1 c2 s1 s2 q with
  | _ n ih =>
  have hkeyed1 := h1.keyed.of_prepend
  have hkeyed2 := h2.keyed.of_prepend
  have hsub (l : List Bool) (c : Bool) {m : Nat} (hm : l.length + 1 + m = n) : (q ++ l ++ [c]).length + m = N := by
    simp only [List.length_append, List.length_singleton]
    omega
  cases combineStep h combine h1 h2 hs1 hs2 with
  | @parted l m sw t1 t2 p1 p2 hm hlen1 hb1 hlen2 hb2 hres =>
    have hl1 : (t1.prepend (l ++ [sw])).label = l ++ sw :: t1.label := by simp
    have hl2 : (t2.prepend (l ++ [!sw])).label = l ++ (!sw) :: t2.label := by simp
    have hother (k : List Bool) : (t2.prepend (l ++ [!sw])).get (l ++ sw :: k) = none := by
      have := PrefixTree.get_prepend_other l k (!sw) t2
      rwa [Bool.not_not] at this
    rw [hres, if_neg (by simp)]
    refine Outcome.combineDisjoint h hN hq hm hlen1 hb1 hlen2 hb2 ?_ ?_ ?_
    · intro k
      rw [merged_left (hother k), PrefixTree.get_prepend_side]
    · intro k
      rw [merged_right (PrefixTree.get_prepend_other l k sw t1), PrefixTree.get_prepend_side]
    · intro k hk
      rw [merged_left (PrefixTree.get_of_not_side (.inr ⟨_, _, hl2⟩) hkeyed2 hk),
        PrefixTree.get_of_not_side (.inr ⟨_, _, hl1⟩) hkeyed1 hk]
  | leaves hn hres =>
    subst hn
    rw [hres]
    exact outcome_leaves combine hcombine hN hq
  | @forks l m a1 b1 a2 b2 ca1 cb1 ca2 cb2 hm ha1 hb1 ha2 hb2 hres =>
    rw [hres]
    have hM (c : Bool) (k : List Bool) : merged f q (PrefixTree.fork l a1 b1).get (PrefixTree.fork l a2 b2).get (l ++ c :: k) =
        merged f (q ++ l ++ [c]) (if c then b1 else a1).get (if c then b2 else a2).get k :=
      merged_branch (PrefixTree.get_fork_side l k c a1 b1) (PrefixTree.get_fork_side l k c a2 b2)
    have hleft := ih m (by omega) ha1.whole ha2.whole List.nil_suffix List.nil_suffix (hsub l false hm)
    have hright := ih m (by omega) hb1.whole hb2.whole List.nil_suffix List.nil_suffix (hsub l true hm)
    rw [List.length_nil] at hleft hright
    generalize dictCombineWith ops combine 0 (some ca1) (some ca2) (q ++ l ++ [false]) m 0 0 = left at hleft ⊢
    generalize dictCombineWith ops combine 0 (some cb1) (some cb2) (q ++ l ++ [true]) m 0 0 = right at hright ⊢
    cases left with
    | error e => exact hleft.of_branch (hM false)
    | ok ra =>
      cases right with
      | error e => exact hright.of_branch (hM true)
      | ok rb =>
        cases hleft with
        | ok hra hmapa =>
          cases hright with
          | ok hrb hmapb =>
            refine Outcome.rejoin h hN hq hm hra hrb (get?_rejoin_of_parts ?_ ?_ ?_)
            · exact fun k => (hM false k).trans (hmapa k)
            · exact fun k => (hM true k).trans (hmapb k)
            · intro k hk
              rw [merged_left (PrefixTree.get_of_not_side (.inl ⟨rfl, by rw [PrefixTree.label]; omega⟩) hkeyed2 hk),
                PrefixTree.get_of_not_side (.inl ⟨rfl, by rw [PrefixTree.label]; omega⟩) hkeyed1 hk]
  | @first l m sw a b t ca cb hm ha hb ht hs hres =>
    have hl2 : (t.prepend (l ++ [sw])).label = l ++ sw :: t.label := by simp
    have hside : Parses canon m (if sw then b else a) (if sw then cb else ca) := by
      cases sw <;> assumption
    rw [hres, if_neg (by simp)]
    refine Outcome.combineBranch h hN hq hm (K := merged f (q ++ l ++ [sw]) (if sw then b else a).get t.get) ha hb ?_ ?_ ?_ ?_
    · exact ih m (by omega) hside.whole ht List.nil_suffix hs (hsub l sw hm)
    · intro k
      rw [merged_branch (PrefixTree.get_fork_side l k sw a b) (PrefixTree.get_prepend_side l k sw t)]
    · intro k
      rw [merged_left (PrefixTree.get_prepend_other l k sw t), PrefixTree.get_fork_side]
      cases sw <;> rfl
    · intro k hk
      rw [merged_left (PrefixTree.get_of_not_side (.inr ⟨_, _, hl2⟩) hkeyed2 hk),
        PrefixTree.get_of_not_side (.inl ⟨rfl, by rw [PrefixTree.label]; omega⟩) hkeyed1 hk]
  | @second l m sw a b t ca cb hm ha hb ht hs hres =>
    have hl1 : (t.prepend (l ++ [sw])).label = l ++ sw :: t.label := by simp
    have hside : Parses canon m (if sw then b else a) (if sw then cb else ca) := by
      cases sw <;> assumption
    rw [hres, if_neg (by simp)]
    refine Outcome.combineBranch h hN hq hm (K := merged f (q ++ l ++ [sw]) t.get (if sw then b else a).get) ha hb ?_ ?_ ?_ ?_
    · exact ih m (by omega) ht hside.whole hs List.nil_suffix (hsub l sw hm)
    · intro k
      rw [merged_branch (PrefixTree.get_prepend_side l k sw t) (PrefixTree.get_fork_side l k sw a b)]
    · intro k
      rw [merged_right (PrefixTree.get_prepend_other l k sw t), PrefixTree.get_fork_side]
      cases sw <;> rfl
    · intro k hk
      rw [merged_left (PrefixTree.get_of_not_side (.inl ⟨rfl, by rw [PrefixTree.label]; omega⟩) hkeyed2 hk),
        PrefixTree.get_of_not_side (.inr ⟨_, _, hl1⟩) hkeyed1 hk]

end Combine

/-! ## Modes -/

/-- A mode: the first map may lack no key of the second one (bit 0), the second one no key of the first (bit 1). What it
forbids is found out, unless it is hidden behind two forks of one label. -/
def Caught (mode : Nat) (m1 m2 : List Bool → Option Slice) : Prop :=
  Missing (mode.testBit 0) (mode.testBit 1) m1 m2 ∧ ¬ Hidden (mode.testBit 0) (mode.testBit 1) m1 m2

section Mode

variable {mode n m : Nat} {l : List Bool} {sw : Bool} {a b t t1 t2 : PrefixTree Slice}

omit [Digest]

/-- Trees that part from one another have no common key. -/
theorem caught_parted (hmode : mode.testBit 0 ∨ mode.testBit 1) (h1 : (t1.prepend (l ++ [sw])).Keyed n)
    (h2 : (t2.prepend (l ++ [!sw])).Keyed n) :
    Caught mode (t1.prepend (l ++ [sw])).get (t2.prepend (l ++ [!sw])).get := by
  have hl1 : (t1.prepend (l ++ [sw])).label = l ++ sw :: t1.label := by simp
  have hl2 : (t2.prepend (l ++ [!sw])).label = l ++ (!sw) :: t2.label := by simp
  have hu1 := PrefixTree.under_label (t1.prepend (l ++ [sw]))
  have hu2 := PrefixTree.under_label (t2.prepend (l ++ [!sw]))
  rw [hl1] at hu1
  rw [hl2] at hu2
  have hapart {r s : List Bool} (h : l ++ sw :: r = l ++ (!sw) :: s) : False := by
    have h := List.append_cancel_left h
    rw [List.cons.injEq] at h
    cases sw <;> exact absurd h.1 (by decide)
  have hlacks {x y : PrefixTree Slice} (hx : Under (l ++ sw :: t1.label) x.get ∧ Under (l ++ (!sw) :: t2.label) y.get ∨
      Under (l ++ (!sw) :: t2.label) x.get ∧ Under (l ++ sw :: t1.label) y.get) (hy : y.Keyed n) : Lacks x.get y.get := by
    obtain ⟨k, v, hk⟩ := hy.exists_get
    refine ⟨k, by rw [hk]; rfl, ?_⟩
    cases hxk : x.get k with
    | none => rfl
    | some w =>
      exfalso
      rcases hx with ⟨hux, huy⟩ | ⟨hux, huy⟩
      · obtain ⟨r, hr⟩ := hux k (by rw [hxk]; rfl)
        obtain ⟨s, hs⟩ := huy k (by rw [hk]; rfl)
        rw [hr, List.append_assoc, List.append_assoc] at hs
        exact hapart hs
      · obtain ⟨r, hr⟩ := hux k (by rw [hxk]; rfl)
        obtain ⟨s, hs⟩ := huy k (by rw [hk]; rfl)
        rw [hs, List.append_assoc, List.append_assoc] at hr
        exact hapart hr
  refine ⟨?_, ?_⟩
  · rcases hmode with hmode | hmode
    · exact .inl ⟨hmode, hlacks (.inl ⟨hu1, hu2⟩) h2⟩
    · exact .inr ⟨hmode, hlacks (.inr ⟨hu2, hu1⟩) h1⟩
  · rintro ⟨p, hp1, hp2, -⟩
    obtain ⟨r, hr⟩ := hu1.le_branch hp1
    obtain ⟨s, hs⟩ := hu2.le_branch hp2
    rw [hr, List.append_assoc, List.append_assoc] at hs
    exact hapart hs

/-- Two forks of one label hide what is missing. -/
theorem not_caught_forks {a1 b1 a2 b2 : PrefixTree Slice} (h1 : (PrefixTree.fork l a1 b1).Keyed n)
    (h2 : (PrefixTree.fork l a2 b2).Keyed n) :
    ¬ Caught mode (PrefixTree.fork l a1 b1).get (PrefixTree.fork l a2 b2).get := by
  rintro ⟨-, hhidden⟩
  exact hhidden ⟨l, PrefixTree.branches_fork h1, PrefixTree.branches_fork h2, fun _ => PrefixTree.under_label _,
    fun _ => PrefixTree.under_label _⟩

/-- A fork has keys that a tree on one of its sides lacks. -/
theorem lacks_of_fork (h : (PrefixTree.fork l a b).Keyed n) :
    Lacks (t.prepend (l ++ [sw])).get (PrefixTree.fork l a b).get ∧
      ¬ ∃ p, Branches (t.prepend (l ++ [sw])).get p ∧ Under p (PrefixTree.fork l a b).get := by
  obtain ⟨m, -, ha, hb⟩ := h
  have hother : ∃ k v, (if !sw then b else a).get k = some v := by
    cases sw
    · exact hb.exists_get
    · exact ha.exists_get
  obtain ⟨k, v, hk⟩ := hother
  have hfork : ((PrefixTree.fork l a b).get (l ++ (!sw) :: k)).isSome := by
    rw [PrefixTree.get_fork_side, hk]
    rfl
  refine ⟨⟨_, hfork, PrefixTree.get_prepend_other l k sw t⟩, ?_⟩
  rintro ⟨p, hp, hu⟩
  obtain ⟨r, hr⟩ := (PrefixTree.under_label _).le_branch hp
  obtain ⟨s, hs⟩ := hu _ hfork
  rw [hr, PrefixTree.label_prepend] at hs
  simp only [List.append_assoc, List.singleton_append] at hs
  have hs := List.append_cancel_left hs
  rw [List.cons_append, List.cons.injEq] at hs
  cases sw <;> exact absurd hs.1 (by decide)

theorem caught_comm {b1 b2 : Prop} {m1 m2 : List Bool → Option Slice} :
    Missing b1 b2 m1 m2 ∧ ¬ Hidden b1 b2 m1 m2 ↔ Missing b2 b1 m2 m1 ∧ ¬ Hidden b2 b1 m2 m1 := by
  rw [missing_comm, hidden_comm]

/-- A fork and a tree on one of its sides: what is missing is found out on that side. -/
theorem caught_side {b1 b2 : Prop} (hb2 : ¬ b2) :
    Missing b1 b2 (PrefixTree.fork l a b).get (t.prepend (l ++ [sw])).get ∧
        ¬ Hidden b1 b2 (PrefixTree.fork l a b).get (t.prepend (l ++ [sw])).get ↔
      Missing b1 b2 (if sw then b else a).get t.get ∧ ¬ Hidden b1 b2 (if sw then b else a).get t.get := by
  have hunder : Under (l ++ [sw]) (t.prepend (l ++ [sw])).get := by
    intro k hk
    obtain ⟨r, hr⟩ := PrefixTree.under_label _ k hk
    rw [PrefixTree.label_prepend, List.append_assoc] at hr
    exact ⟨_, hr⟩
  obtain ⟨hmissing, hhidden⟩ :
      (Missing b1 b2 (PrefixTree.fork l a b).get (t.prepend (l ++ [sw])).get ↔ _) ∧ (Hidden b1 b2 _ _ ↔ _) :=
    missing_hidden_side hb2 hunder
  rw [hmissing, hhidden]
  simp only [PrefixTree.get_fork_side, PrefixTree.get_prepend_side]

end Mode

section Mode

variable {ops : ForkOps} (h : ops.Plain) (combine : CombineFunc) {canon : Prop}

omit [Digest] in
/-- A merge on one branch fails as that of the branch does. -/
theorem combineBranch_mode [Digest] {l : List Bool} {n : Nat} {sw : Bool} {ca cb : Cell} {p : Prop}
    {merge merge' : Option Cell → CombineResult (Option Cell)}
    (hmerge : p ∧ merge (some (if sw then cb else ca)) = .error .combineError ∨
      ¬ p ∧ merge (some (if sw then cb else ca)) = merge' (some (if sw then cb else ca))) :
    p ∧ combineBranch ops l n sw (some ca) (some cb) merge = .error .combineError ∨
      ¬ p ∧ combineBranch ops l n sw (some ca) (some cb) merge = combineBranch ops l n sw (some ca) (some cb) merge' := by
  rcases hmerge with ⟨hp, hmerge⟩ | ⟨hp, hmerge⟩
  · refine .inl ⟨hp, ?_⟩
    cases sw <;>
    · simp only [Bool.false_eq_true, if_false, if_true] at hmerge
      simp only [combineBranch, Bool.false_eq_true, if_false, if_true, hmerge]
      rfl
  · refine .inr ⟨hp, ?_⟩
    cases sw <;>
    · simp only [Bool.false_eq_true, if_false, if_true] at hmerge
      simp only [combineBranch, Bool.false_eq_true, if_false, if_true, hmerge]

include h

/-- A merge of two parsed trees in some mode fails for what is caught, and is otherwise that without a mode. -/
theorem dictCombineWith_mode (mode : Nat) {n : Nat} {t1 t2 : PrefixTree Slice} {c1 c2 : Cell} {s1 s2 q : List Bool}
    (h1 : Parses canon (n + s1.length) (t1.prepend s1) c1) (h2 : Parses canon (n + s2.length) (t2.prepend s2) c2)
    (hs1 : s1 <:+ q) (hs2 : s2 <:+ q) :
    Caught mode t1.get t2.get ∧
        dictCombineWith ops combine mode (some c1) (some c2) q n s1.length s2.length = .error .combineError ∨
      ¬ Caught mode t1.get t2.get ∧ dictCombineWith ops combine mode (some c1) (some c2) q n s1.length s2.length =
        dictCombineWith ops combine 0 (some c1) (some c2) q n s1.length s2.length := by
  induction n using Nat.strong_induction_on generalizing t1 t2 c1 c2 s1 s2 q with
  | _ n ih =>
  have hkeyed1 := h1.keyed.of_prepend
  have hkeyed2 := h2.keyed.of_prepend
  cases combineStep h combine h1 h2 hs1 hs2 with
  | @parted l m sw t1 t2 p1 p2 hm hlen1 hb1 hlen2 hb2 hres =>
    by_cases hmode : mode.testBit 0 ∨ mode.testBit 1
    · exact .inl ⟨caught_parted hmode hkeyed1 hkeyed2, by rw [hres, if_pos hmode]⟩
    · refine .inr ⟨?_, by rw [hres, hres, if_neg hmode, if_neg (by simp)]⟩
      rintro ⟨⟨hbit, -⟩ | ⟨hbit, -⟩, -⟩
      · exact hmode (.inl hbit)
      · exact hmode (.inr hbit)
  | @leaves l v1 v2 hn hres =>
    refine .inr ⟨?_, by rw [hres, hres]⟩
    have hkey {v w : Slice} : ¬ Lacks (PrefixTree.leaf l v).get (PrefixTree.leaf l w).get := by
      rintro ⟨k, hk, hnone⟩
      simp only [PrefixTree.get] at hk hnone
      split at hk
      · next hkl =>
        rw [if_pos hkl] at hnone
        cases hnone
      · cases hk
    rintro ⟨⟨-, hlacks⟩ | ⟨-, hlacks⟩, -⟩ <;> exact hkey hlacks
  | forks hm ha1 hb1 ha2 hb2 hres =>
    exact .inr ⟨not_caught_forks hkeyed1 hkeyed2, by rw [hres, hres]⟩
  | @first l m sw a b t ca cb hm ha hb ht hs hres =>
    by_cases hmode : mode.testBit 1
    · refine .inl ⟨⟨.inr ⟨hmode, (lacks_of_fork hkeyed1).1⟩, ?_⟩, by rw [hres, if_pos hmode]⟩
      rintro ⟨p, -, hp, -, hu⟩
      exact (lacks_of_fork hkeyed1).2 ⟨p, hp, hu hmode⟩
    · have hside : Parses canon m (if sw then b else a) (if sw then cb else ca) := by
        cases sw <;> assumption
      rw [hres, hres, if_neg hmode, if_neg (by simp), Caught, caught_side hmode]
      exact combineBranch_mode (ih m (by omega) hside.whole ht List.nil_suffix hs)
  | @second l m sw a b t ca cb hm ha hb ht hs hres =>
    by_cases hmode : mode.testBit 0
    · refine .inl ⟨⟨.inl ⟨hmode, (lacks_of_fork hkeyed2).1⟩, ?_⟩, by rw [hres, if_pos hmode]⟩
      rintro ⟨p, hp, -, hu, -⟩
      exact (lacks_of_fork hkeyed2).2 ⟨p, hp, hu hmode⟩
    · have hside : Parses canon m (if sw then b else a) (if sw then cb else ca) := by
        cases sw <;> assumption
      rw [hres, hres, if_neg hmode, if_neg (by simp), Caught, caught_comm, caught_side hmode, caught_comm]
      exact combineBranch_mode (ih m (by omega) ht hside.whole hs List.nil_suffix)

end Mode

end TonWallet.Vm.Dict
