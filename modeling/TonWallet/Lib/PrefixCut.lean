/-
The part of a tree whose keys start with some bits: the edge that these bits end on, without what they cover of its
label. The bits may end inside a label, or lead out of the tree.
-/
import TonWallet.Lib.PrefixMerge

namespace Lib

namespace PrefixTree

variable {α : Type*} {n : Nat} {t : PrefixTree α}

/-- A tree with another label, for keys that have as many bits below it. -/
theorem Keyed.withLabel (h : t.Keyed n) {l : List Bool} {n' : Nat} (hn : l.length + (n - t.label.length) = n') :
    (t.withLabel l).Keyed n' := by
  cases t with
  | leaf l' v =>
    have hlen : l'.length = n := h
    rw [label] at hn
    show l.length = n'
    omega
  | fork l' a b =>
    obtain ⟨m, hm, ha, hb⟩ := h
    rw [label] at hn
    exact ⟨m, by omega, ha, hb⟩

/-- What follows the bits `p` in the tree. -/
@[grind =] def cut : PrefixTree α → List Bool → Option (PrefixTree α)
  | leaf l v, p => (l.dropPrefix? p).map fun r => leaf r v
  | fork l a b, p => match l.dropPrefix? p with
    | some r => some (fork r a b)
    | none => match p.dropPrefix? l with
      | some (false :: r) => a.cut r
      | some (true :: r) => b.cut r
      | _ => none

/-- The bits end on the label. -/
theorem cut_label (p r : List Bool) (h : t.label = p ++ r) : t.cut p = some (t.withLabel r) := by
  cases t with
  | leaf l v =>
    have hl : l = p ++ r := h
    rw [cut, hl, dropPrefix?_append]
    rfl
  | fork l a b =>
    have hl : l = p ++ r := h
    rw [cut, hl, dropPrefix?_append]
    rfl

/-- Bits that go on behind a label do not end on it. -/
theorem dropPrefix?_longer (l r : List Bool) (b : Bool) : l.dropPrefix? (l ++ b :: r) = none := by
  cases h : l.dropPrefix? (l ++ b :: r) with
  | none => rfl
  | some s =>
    have hlen := congrArg List.length (dropPrefix?_eq_some.1 h)
    simp only [List.length_append, List.length_cons] at hlen
    omega

/-- The bits end on a side of a fork. -/
theorem cut_fork (l r : List Bool) (b : Bool) (x y : PrefixTree α) :
    (fork l x y).cut (l ++ b :: r) = (if b then y else x).cut r := by
  rw [cut, dropPrefix?_longer, dropPrefix?_append]
  cases b <;> rfl

theorem cut_leaf_longer (l r : List Bool) (b : Bool) (v : α) : (leaf l v).cut (l ++ b :: r) = none := by
  rw [cut, dropPrefix?_longer]
  rfl

theorem dropPrefix?_diverge (p r s : List Bool) (b : Bool) : (p ++ b :: r).dropPrefix? (p ++ (!b) :: s) = none := by
  cases h : (p ++ b :: r).dropPrefix? (p ++ (!b) :: s) with
  | none => rfl
  | some w =>
    have heq := dropPrefix?_eq_some.1 h
    rw [List.append_assoc] at heq
    have hcons := List.append_cancel_left heq
    cases b <;> cases hcons

/-- The bits lead out of the tree. -/
theorem cut_diverge {p r s : List Bool} {b : Bool} (h : t.label = p ++ b :: r) : t.cut (p ++ (!b) :: s) = none := by
  have hin : (p ++ (!b) :: s).dropPrefix? (p ++ b :: r) = none := by
    have hback := dropPrefix?_diverge p s r (!b)
    rwa [Bool.not_not] at hback
  cases t with
  | leaf l v =>
    have hl : l = p ++ b :: r := h
    rw [cut, hl, dropPrefix?_diverge]
    rfl
  | fork l x y =>
    have hl : l = p ++ b :: r := h
    rw [cut, hl, dropPrefix?_diverge, hin]

/-- Where the bits end: on the label of the tree, on a side of a fork, or outside. -/
inductive CutStep : PrefixTree α → List Bool → Prop
  | label {t : PrefixTree α} {p r : List Bool} (h : t.label = p ++ r) : CutStep t p
  | side {l r : List Bool} {b : Bool} {x y : PrefixTree α} : CutStep (fork l x y) (l ++ b :: r)
  | longer {l r : List Bool} {b : Bool} {v : α} : CutStep (leaf l v) (l ++ b :: r)
  | diverge {t : PrefixTree α} {p r s : List Bool} {b : Bool} (h : t.label = p ++ b :: r) : CutStep t (p ++ (!b) :: s)

theorem cutStep (t : PrefixTree α) (p : List Bool) : CutStep t p := by
  rcases prefix_or_diverge t.label p with ⟨r, rfl⟩ | ⟨b, r, hl⟩ | ⟨q, b, r, s, hl, rfl⟩
  · cases r with
    | nil => exact .label (r := []) (by rw [List.append_nil, List.append_nil])
    | cons b r =>
      cases t with
      | leaf l v => exact .longer
      | fork l x y => exact .side
  · exact .label hl
  · exact .diverge hl

/-- A key behind the label does not depend on it. -/
theorem get_withLabel (t : PrefixTree α) (l k : List Bool) : (t.withLabel l).get (l ++ k) = t.get (t.label ++ k) := by
  have hself : (t.withLabel []).prepend t.label = t := by
    rw [prepend, label_withLabel, List.append_nil]
    cases t <;> rfl
  have hother : (t.withLabel []).prepend l = t.withLabel l := by
    rw [prepend, label_withLabel, List.append_nil]
    cases t <;> rfl
  calc (t.withLabel l).get (l ++ k) = (t.withLabel []).get k := by rw [← hother, get_prepend]
    _ = ((t.withLabel []).prepend t.label).get (t.label ++ k) := (get_prepend t.label k _).symm
    _ = t.get (t.label ++ k) := by rw [hself]

/-- Keys that do not start with the label have no value. -/
theorem get_eq_none_of_not_under {k : List Bool} (h : ¬ t.label <+: k) : t.get k = none := by
  cases hg : t.get k with
  | none => rfl
  | some v =>
    obtain ⟨r, rfl⟩ := get_eq_some_label hg
    exact absurd (List.prefix_append t.label r) h

theorem get?_cut_label {p r : List Bool} (h : t.label = p ++ r) (k : List Bool) : get? (t.cut p) k = t.get (p ++ k) := by
  rw [cut_label p r h]
  by_cases hk : r <+: k
  · obtain ⟨s, rfl⟩ := hk
    rw [← List.append_assoc, ← h]
    exact get_withLabel t r s
  · have hnot : ¬ t.label <+: p ++ k := by
      rw [h, List.prefix_append_right_inj]
      exact hk
    rw [get_eq_none_of_not_under hnot]
    exact get_eq_none_of_not_under (by rwa [label_withLabel])

theorem get?_cut_diverge {p r s : List Bool} {b : Bool} (h : t.label = p ++ b :: r) (k : List Bool) :
    get? (t.cut (p ++ (!b) :: s)) k = t.get (p ++ (!b) :: s ++ k) := by
  rw [cut_diverge h, List.append_assoc, List.cons_append, get_diverge h]
  rfl

/-- What follows the bits is looked up with the bits in front. -/
theorem get?_cut (t : PrefixTree α) (p k : List Bool) : get? (t.cut p) k = t.get (p ++ k) := by
  induction t generalizing p with
  | leaf l v =>
    cases cutStep (leaf l v) p with
    | label h => exact get?_cut_label h k
    | @longer _ r b _ =>
      have hne : l ++ b :: r ++ k ≠ l := by
        intro h
        have hlen := congrArg List.length h
        simp only [List.length_append, List.length_cons] at hlen
        omega
      rw [cut_leaf_longer, get, if_neg hne]
      rfl
    | diverge h => exact get?_cut_diverge h k
  | fork l x y ihx ihy =>
    cases cutStep (fork l x y) p with
    | label h => exact get?_cut_label h k
    | @side _ r b _ _ =>
      rw [cut_fork, List.append_assoc, List.cons_append]
      cases b with
      | false => rw [get_fork_false, ← ihx, if_neg Bool.false_ne_true]
      | true => rw [get_fork_true, ← ihy, if_pos rfl]
    | diverge h => exact get?_cut_diverge h k

/-- What follows the bits has that many fewer. -/
theorem Keyed.cut (h : t.Keyed n) {p : List Bool} {s : PrefixTree α} (hs : t.cut p = Option.some s) :
    p.length ≤ n ∧ s.Keyed (n - p.length) := by
  induction t generalizing n p with
  | leaf l v =>
    cases cutStep (leaf l v) p with
    | @label _ _ r hl =>
      rw [cut_label p r hl] at hs
      cases hs
      have hlen := h.length_label_le
      rw [hl, List.length_append] at hlen
      exact ⟨by omega, h.withLabel (by rw [hl, List.length_append]; omega)⟩
    | longer =>
      rw [cut_leaf_longer] at hs
      cases hs
    | diverge hl =>
      rw [cut_diverge hl] at hs
      cases hs
  | fork l x y ihx ihy =>
    cases cutStep (fork l x y) p with
    | @label _ _ r hl =>
      rw [cut_label p r hl] at hs
      cases hs
      have hlen := h.length_label_le
      rw [hl, List.length_append] at hlen
      exact ⟨by omega, h.withLabel (by rw [hl, List.length_append]; omega)⟩
    | @side _ r b _ _ =>
      obtain ⟨m, hm, hx, hy⟩ := h
      rw [cut_fork] at hs
      have hside : r.length ≤ m ∧ s.Keyed (m - r.length) := by
        cases b with
        | false => exact ihx hx hs
        | true => exact ihy hy hs
      rw [List.length_append, List.length_cons]
      exact ⟨by omega, by rw [show n - (l.length + (r.length + 1)) = m - r.length by omega]; exact hside.2⟩
    | diverge hl =>
      rw [cut_diverge hl] at hs
      cases hs

/-- The keys that start with the bits, with the bits. -/
theorem get?_map_prepend_cut (t : PrefixTree α) (p k : List Bool) :
    get? ((t.cut p).map (·.prepend p)) k = if p <+: k then t.get k else none := by
  split
  · next h =>
    obtain ⟨r, rfl⟩ := h
    rw [← get?_cut]
    cases t.cut p with
    | none => rfl
    | some s => exact get_prepend p r s
  · next h =>
    cases t.cut p with
    | none => rfl
    | some s =>
      refine get_eq_none_of_not_under fun hk => h ?_
      rw [label_prepend] at hk
      exact (List.prefix_append p s.label).trans hk

end PrefixTree

end Lib
