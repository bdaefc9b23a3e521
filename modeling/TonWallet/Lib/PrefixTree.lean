/-
Binary trees with a bit string on every edge: a leaf holds a value, a fork has two branches, and no fork has
only one. A tree stands for a finite map from bit strings of one length, and it is the only one that does,
so the operations on it are described by what they do to the map.
-/
import Mathlib.Data.List.Basic

namespace Lib

/-! ## Common prefixes -/

/-- How many bits two bit strings have in common at their front. -/
@[grind =] def commonPrefixLen : List Bool → List Bool → Nat
  | a :: as, b :: bs => if a = b then commonPrefixLen as bs + 1 else 0
  | _, _ => 0

theorem commonPrefixLen_append (p l k : List Bool) :
    commonPrefixLen (p ++ l) (p ++ k) = p.length + commonPrefixLen l k := by
  induction p with
  | nil => simp
  | cons b p ih =>
    simp only [List.cons_append, commonPrefixLen, if_true, ih, List.length_cons]
    omega

theorem commonPrefixLen_self_append (p k : List Bool) : commonPrefixLen p (p ++ k) = p.length := by
  induction p with
  | nil => simp [commonPrefixLen]
  | cons b p ih => simp [commonPrefixLen, ih]

theorem commonPrefixLen_diverge (p l k : List Bool) (b : Bool) :
    commonPrefixLen (p ++ b :: l) (p ++ (!b) :: k) = p.length := by
  rw [commonPrefixLen_append]
  cases b <;> simp [commonPrefixLen]

theorem commonPrefixLen_comm (l k : List Bool) : commonPrefixLen l k = commonPrefixLen k l := by
  induction l generalizing k with
  | nil => cases k <;> rfl
  | cons a l ih =>
    cases k with
    | nil => rfl
    | cons b k => simp only [commonPrefixLen, ih k, eq_comm]

/-- Two bit strings: one is in front of the other, or they part at some bit. -/
theorem prefix_or_diverge (l k : List Bool) :
    (∃ r, k = l ++ r) ∨ (∃ b r, l = k ++ b :: r) ∨ ∃ p b r s, l = p ++ b :: r ∧ k = p ++ (!b) :: s := by
  induction l generalizing k with
  | nil => exact .inl ⟨k, rfl⟩
  | cons a l ih =>
    cases k with
    | nil => exact .inr (.inl ⟨a, l, rfl⟩)
    | cons b k =>
      by_cases hab : b = a
      · subst hab
        rcases ih k with ⟨r, rfl⟩ | ⟨c, r, rfl⟩ | ⟨p, c, r, s, rfl, rfl⟩
        · exact .inl ⟨r, rfl⟩
        · exact .inr (.inl ⟨c, r, rfl⟩)
        · exact .inr (.inr ⟨b :: p, c, r, s, rfl, rfl⟩)
      · refine .inr (.inr ⟨[], a, l, k, rfl, ?_⟩)
        cases a <;> cases b <;> simp_all

@[simp] theorem dropPrefix?_eq_some {k l r : List Bool} : k.dropPrefix? l = some r ↔ k = l ++ r := by
  rw [List.dropPrefix?_eq_some_iff]
  simp

@[simp] theorem dropPrefix?_append (l r : List Bool) : (l ++ r).dropPrefix? l = some r := by
  rw [dropPrefix?_eq_some]

/-! ## Trees -/

inductive PrefixTree (α : Type*) where
  | leaf (label : List Bool) (value : α)
  | fork (label : List Bool) (left right : PrefixTree α)
  deriving DecidableEq, Repr

namespace PrefixTree

variable {α : Type*}

/-- The bits on the edge to the root. -/
def label : PrefixTree α → List Bool
  | leaf l _ => l
  | fork l _ _ => l

def withLabel (l : List Bool) : PrefixTree α → PrefixTree α
  | leaf _ v => leaf l v
  | fork _ a b => fork l a b

/-- The tree whose keys have more bits in front. -/
def prepend (p : List Bool) (t : PrefixTree α) : PrefixTree α := t.withLabel (p ++ t.label)

/-- The tree whose keys miss the first bits of the label. -/
def dropLabel (n : Nat) (t : PrefixTree α) : PrefixTree α := t.withLabel (t.label.drop n)

/-- A fork with one tree on the side of a bit and another one on the other side. -/
def join (l : List Bool) (side : Bool) (x y : PrefixTree α) : PrefixTree α :=
  if side then fork l y x else fork l x y

/-- The keys have length `n`. -/
@[grind =] def Keyed : Nat → PrefixTree α → Prop
  | n, leaf l _ => l.length = n
  | n, fork l a b => ∃ m, l.length + 1 + m = n ∧ Keyed m a ∧ Keyed m b

@[grind =] def get : PrefixTree α → List Bool → Option α
  | leaf l v, k => if k = l then some v else none
  | fork l a b, k => match k.dropPrefix? l with
    | some (false :: r) => a.get r
    | some (true :: r) => b.get r
    | _ => none

@[grind =] def insert : PrefixTree α → List Bool → α → PrefixTree α
  | leaf l u, k, v =>
    if commonPrefixLen l k < l.length then
      join (k.take (commonPrefixLen l k)) (k.getD (commonPrefixLen l k) false)
        (leaf (k.drop (commonPrefixLen l k + 1)) v) (leaf (l.drop (commonPrefixLen l k + 1)) u)
    else leaf k v
  | fork l a b, k, v =>
    if commonPrefixLen l k < l.length then
      join (k.take (commonPrefixLen l k)) (k.getD (commonPrefixLen l k) false)
        (leaf (k.drop (commonPrefixLen l k + 1)) v) (fork (l.drop (commonPrefixLen l k + 1)) a b)
    else match k.drop l.length with
      | false :: r => fork l (a.insert r v) b
      | true :: r => fork l a (b.insert r v)
      | [] => fork l a b

/-- What is left of a fork when its branches have changed: a branch alone takes over its edge. -/
def rejoin (l : List Bool) : Option (PrefixTree α) → Option (PrefixTree α) → Option (PrefixTree α)
  | some a, some b => some (fork l a b)
  | some a, none => some (a.prepend (l ++ [false]))
  | none, some b => some (b.prepend (l ++ [true]))
  | none, none => none

@[grind =] def erase : PrefixTree α → List Bool → Option (PrefixTree α)
  | leaf l v, k => if k = l then none else some (leaf l v)
  | fork l a b, k => match k.dropPrefix? l with
    | some (false :: r) => rejoin l (a.erase r) (some b)
    | some (true :: r) => rejoin l (some a) (b.erase r)
    | _ => some (fork l a b)

/-! ## Labels -/

@[simp] theorem label_withLabel (l : List Bool) (t : PrefixTree α) : (t.withLabel l).label = l := by
  cases t <;> rfl

@[simp] theorem label_prepend (p : List Bool) (t : PrefixTree α) : (t.prepend p).label = p ++ t.label :=
  label_withLabel _ t

@[simp] theorem prepend_leaf (p l : List Bool) (v : α) : (leaf l v).prepend p = leaf (p ++ l) v := rfl
@[simp] theorem prepend_fork (p l : List Bool) (a b : PrefixTree α) : (fork l a b).prepend p = fork (p ++ l) a b := rfl

theorem prepend_prepend (p q : List Bool) (t : PrefixTree α) : (t.prepend q).prepend p = t.prepend (p ++ q) := by
  cases t <;> simp

/-- Every key starts with the label. -/
theorem get_eq_some_label {t : PrefixTree α} {k : List Bool} {v : α} (h : t.get k = some v) : ∃ r, k = t.label ++ r := by
  cases t with
  | leaf l u =>
    simp only [get] at h
    split at h
    · next hk => exact ⟨[], by rw [hk]; exact (List.append_nil l).symm⟩
    · cases h
  | fork l a b =>
    simp only [get] at h
    split at h
    · next r hr => exact ⟨false :: r, dropPrefix?_eq_some.1 hr⟩
    · next r hr => exact ⟨true :: r, dropPrefix?_eq_some.1 hr⟩
    · cases h

@[simp] theorem get_leaf_self (l : List Bool) (v : α) : (leaf l v).get l = some v := by simp [get]

@[simp] theorem get_fork_false (l r : List Bool) (a b : PrefixTree α) : (fork l a b).get (l ++ false :: r) = a.get r := by
  simp [get]

@[simp] theorem get_fork_true (l r : List Bool) (a b : PrefixTree α) : (fork l a b).get (l ++ true :: r) = b.get r := by
  simp [get]

theorem get_fork_of_short {l k : List Bool} (a b : PrefixTree α) (h : k.length ≤ l.length) : (fork l a b).get k = none := by
  simp only [get]
  split
  · next r hr =>
    rw [dropPrefix?_eq_some] at hr
    simp only [hr, List.length_append, List.length_cons] at h
    omega
  · next r hr =>
    rw [dropPrefix?_eq_some] at hr
    simp only [hr, List.length_append, List.length_cons] at h
    omega
  · rfl

theorem get_diverge {t : PrefixTree α} {p r s : List Bool} {b : Bool} (h : t.label = p ++ b :: r) :
    t.get (p ++ (!b) :: s) = none := by
  cases hg : t.get (p ++ (!b) :: s) with
  | none => rfl
  | some v =>
    obtain ⟨r', hr'⟩ := get_eq_some_label hg
    rw [h, List.append_assoc] at hr'
    have := List.append_cancel_left hr'
    cases b <;> cases this

@[simp] theorem get_prepend (p k : List Bool) (t : PrefixTree α) : (t.prepend p).get (p ++ k) = t.get k := by
  cases t with
  | leaf l v => simp [get]
  | fork l a b =>
    simp only [prepend_fork, get]
    have h : (p ++ k).dropPrefix? (p ++ l) = k.dropPrefix? l := by
      ext r
      simp [List.append_assoc]
    rw [h]

@[simp] theorem get_join_side (l : List Bool) (side : Bool) (x y : PrefixTree α) (r : List Bool) :
    (join l side x y).get (l ++ side :: r) = x.get r := by
  cases side <;> simp [join]

@[simp] theorem get_join_other (l : List Bool) (side : Bool) (x y : PrefixTree α) (r : List Bool) :
    (join l side x y).get (l ++ (!side) :: r) = y.get r := by
  cases side <;> simp [join]

@[simp] theorem label_join (l : List Bool) (side : Bool) (x y : PrefixTree α) : (join l side x y).label = l := by
  cases side <;> rfl

/-! ## Keys -/

theorem Keyed.length_label_le {n : Nat} {t : PrefixTree α} (h : t.Keyed n) : t.label.length ≤ n := by
  cases t with
  | leaf l v => exact Nat.le_of_eq h
  | fork l a b =>
    obtain ⟨m, rfl, _⟩ := h
    simp only [label]
    omega

theorem Keyed.prepend {n : Nat} {t : PrefixTree α} (h : t.Keyed n) (p : List Bool) : (t.prepend p).Keyed (p.length + n) := by
  cases t with
  | leaf l v =>
    simp only [Keyed] at h
    simp [Keyed, h]
  | fork l a b =>
    obtain ⟨m, rfl, ha, hb⟩ := h
    refine ⟨m, ?_, ha, hb⟩
    simp only [label, List.length_append]
    omega

/-- The front of a label taken off. -/
theorem prepend_dropLabel {t : PrefixTree α} {p r : List Bool} (h : t.label = p ++ r) :
    (t.dropLabel p.length).prepend p = t := by
  cases t with
  | leaf l v =>
    cases h
    simp [dropLabel, withLabel, label]
  | fork l a b =>
    cases h
    simp [dropLabel, withLabel, label]

theorem Keyed.dropLabel {n : Nat} {t : PrefixTree α} (h : t.Keyed n) {p r : List Bool} (hl : t.label = p ++ r) :
    (t.dropLabel p.length).Keyed (n - p.length) := by
  cases t with
  | leaf l v =>
    simp only [label] at hl
    subst hl
    simp only [Keyed, List.length_append] at h
    simp only [PrefixTree.dropLabel, withLabel, label, List.drop_left, Keyed]
    omega
  | fork l a b =>
    simp only [label] at hl
    subst hl
    obtain ⟨m, hm, ha, hb⟩ := h
    simp only [List.length_append] at hm
    simp only [PrefixTree.dropLabel, withLabel, label, List.drop_left]
    exact ⟨m, by omega, ha, hb⟩

theorem Keyed.join {m n : Nat} {x y : PrefixTree α} (hx : x.Keyed m) (hy : y.Keyed m) {l : List Bool} {side : Bool}
    (hn : l.length + 1 + m = n) : (join l side x y).Keyed n := by
  cases side
  · exact ⟨m, hn, hx, hy⟩
  · exact ⟨m, hn, hy, hx⟩

/-- Only keys of the right length have a value. -/
theorem Keyed.get_eq_none {n : Nat} {t : PrefixTree α} (h : t.Keyed n) {k : List Bool} (hk : k.length ≠ n) :
    t.get k = none := by
  induction t generalizing n k with
  | leaf l v =>
    simp only [get]
    rw [if_neg]
    rintro rfl
    exact hk h
  | fork l a b iha ihb =>
    obtain ⟨m, rfl, ha, hb⟩ := h
    simp only [get]
    split
    · next r hr =>
      rw [dropPrefix?_eq_some] at hr
      refine iha ha ?_
      rintro rfl
      simp only [hr, List.length_append, List.length_cons] at hk
      omega
    · next r hr =>
      rw [dropPrefix?_eq_some] at hr
      refine ihb hb ?_
      rintro rfl
      simp only [hr, List.length_append, List.length_cons] at hk
      omega
    · rfl

/-- A tree has a key. -/
theorem Keyed.exists_get {n : Nat} {t : PrefixTree α} (h : t.Keyed n) : ∃ k v, t.get k = some v := by
  induction t generalizing n with
  | leaf l v => exact ⟨l, v, get_leaf_self l v⟩
  | fork l a b iha _ =>
    obtain ⟨m, _, ha, _⟩ := h
    obtain ⟨k, v, hk⟩ := iha ha
    exact ⟨l ++ false :: k, v, by rw [get_fork_false]; exact hk⟩

/-! ## A tree is the only one for its map -/

/-- The label of a fork is what all of its keys start with, and no more. -/
theorem label_of_fork {n : Nat} {l : List Bool} {a b t : PrefixTree α} (h : (fork l a b).Keyed n)
    (heq : ∀ k, (fork l a b).get k = t.get k) : ∃ r, l = t.label ++ r := by
  obtain ⟨m, _, ha, hb⟩ := h
  obtain ⟨k, v, hk⟩ := ha.exists_get
  obtain ⟨k', v', hk'⟩ := hb.exists_get
  have hleft : t.get (l ++ false :: k) = some v := by rw [← heq, get_fork_false, hk]
  have hright : t.get (l ++ true :: k') = some v' := by rw [← heq, get_fork_true, hk']
  rcases prefix_or_diverge t.label l with ⟨r, hr⟩ | ⟨c, r, hr⟩ | ⟨p, c, r, s, hl, hs⟩
  · exact ⟨r, hr⟩
  · -- a longer label of `t` would leave out the keys on one side
    cases c with
    | false =>
      have hnone : t.get (l ++ (!false) :: k') = none := get_diverge hr
      rw [Bool.not_false, hright] at hnone
      cases hnone
    | true =>
      have hnone : t.get (l ++ (!true) :: k) = none := get_diverge hr
      rw [Bool.not_true, hleft] at hnone
      cases hnone
  · have hnone : t.get (p ++ (!c) :: (s ++ false :: k)) = none := get_diverge hl
    rw [hs, List.append_assoc, List.cons_append, hnone] at hleft
    cases hleft

/-- Two trees with the same map are the same. -/
theorem ext {n : Nat} {s t : PrefixTree α} (hs : s.Keyed n) (ht : t.Keyed n) (h : ∀ k, s.get k = t.get k) : s = t := by
  induction s generalizing n t with
  | leaf l v =>
    have hl : t.get l = some v := by rw [← h, get_leaf_self]
    cases t with
    | leaf l' v' =>
      simp only [get] at hl
      split at hl
      · next hll =>
        cases hl
        rw [hll]
      · cases hl
    | fork l' a b =>
      -- the fork has a longer key than its label, the leaf has not
      obtain ⟨r, hr⟩ := label_of_fork ht fun k => (h k).symm
      obtain ⟨m, hm, _⟩ := ht
      simp only [Keyed] at hs
      simp only [label] at hr
      have := congrArg List.length hr
      rw [List.length_append] at this
      omega
  | fork l a b iha ihb =>
    obtain ⟨r, hr⟩ := label_of_fork hs h
    cases t with
    | leaf l' v' =>
      simp only [label] at hr
      obtain ⟨m, hm, _⟩ := hs
      simp only [Keyed] at ht
      have := congrArg List.length hr
      rw [List.length_append] at this
      omega
    | fork l' a' b' =>
      obtain ⟨r', hr'⟩ := label_of_fork ht fun k => (h k).symm
      simp only [label] at hr hr'
      obtain rfl : l = l' := by
        have h₁ := congrArg List.length hr
        have h₂ := congrArg List.length hr'
        rw [List.length_append] at h₁ h₂
        have hnil : r = [] := List.eq_nil_of_length_eq_zero (by omega)
        rw [hr, hnil, List.append_nil]
      obtain ⟨m, hm, ha, hb⟩ := hs
      obtain ⟨m', hm', ha', hb'⟩ := ht
      obtain rfl : m = m' := by omega
      congr 1
      · exact iha ha ha' fun k => by rw [← get_fork_false l k a b, h, get_fork_false]
      · exact ihb hb hb' fun k => by rw [← get_fork_true l k a b, h, get_fork_true]

/-! ## Where a key is or would be -/

/-- The way of a key down a tree: it parts from an edge, or it ends at a leaf. -/
inductive Locate : List Bool → PrefixTree α → Prop
  | diverge {t : PrefixTree α} {p r s : List Bool} {b : Bool} (h : t.label = p ++ b :: r) : Locate (p ++ (!b) :: s) t
  | leaf (k : List Bool) (v : α) : Locate k (leaf k v)
  | left {l r : List Bool} {a : PrefixTree α} (b : PrefixTree α) (h : Locate r a) : Locate (l ++ false :: r) (fork l a b)
  | right {l r : List Bool} {b : PrefixTree α} (a : PrefixTree α) (h : Locate r b) : Locate (l ++ true :: r) (fork l a b)

theorem Keyed.locate {n : Nat} {t : PrefixTree α} (h : t.Keyed n) {k : List Bool} (hk : k.length = n) : Locate k t := by
  induction t generalizing n k with
  | leaf l v =>
    simp only [Keyed] at h
    rcases prefix_or_diverge l k with ⟨r, rfl⟩ | ⟨c, r, rfl⟩ | ⟨p, c, r, s, rfl, rfl⟩
    · rw [List.length_append] at hk
      have hnil : r = [] := List.eq_nil_of_length_eq_zero (by omega)
      rw [hnil, List.append_nil]
      exact .leaf l v
    · simp only [List.length_append, List.length_cons] at h
      omega
    · exact .diverge rfl
  | fork l a b iha ihb =>
    obtain ⟨m, hm, ha, hb⟩ := h
    rcases prefix_or_diverge l k with ⟨r, rfl⟩ | ⟨c, r, rfl⟩ | ⟨p, c, r, s, rfl, rfl⟩
    · cases r with
      | nil =>
        rw [List.append_nil] at hk
        omega
      | cons c r =>
        simp only [List.length_append, List.length_cons] at hk
        cases c with
        | false => exact .left b (iha ha (by omega))
        | true => exact .right a (ihb hb (by omega))
    · simp only [List.length_append, List.length_cons] at hm
      omega
    · exact .diverge rfl

/-! ## Insertion -/

section Insert

variable {n : Nat} {t : PrefixTree α} {k : List Bool} (v : α)

theorem insert_diverge {p r s : List Bool} {b : Bool} (h : t.label = p ++ b :: r) :
    t.insert (p ++ (!b) :: s) v = join p (!b) (leaf s v) (t.dropLabel (p.length + 1)) := by
  have hlen := commonPrefixLen_diverge p r s b
  have hlt : p.length < (p ++ b :: r).length := by simp
  cases t with
  | leaf l u =>
    simp only [label] at h
    subst h
    simp only [insert, hlen, if_pos hlt, List.take_left, dropLabel, withLabel, label]
    congr 1 <;> simp
  | fork l x y =>
    simp only [label] at h
    subst h
    simp only [insert, hlen, if_pos hlt, List.take_left, dropLabel, withLabel, label]
    congr 1 <;> simp

@[simp] theorem insert_leaf (k : List Bool) (u : α) : (leaf k u).insert k v = leaf k v := by
  have hlen := commonPrefixLen_self_append k []
  rw [List.append_nil] at hlen
  simp [insert, hlen]

@[simp] theorem insert_left (l r : List Bool) (a b : PrefixTree α) :
    (fork l a b).insert (l ++ false :: r) v = fork l (a.insert r v) b := by
  simp [insert, commonPrefixLen_self_append]

@[simp] theorem insert_right (l r : List Bool) (a b : PrefixTree α) :
    (fork l a b).insert (l ++ true :: r) v = fork l a (b.insert r v) := by
  simp [insert, commonPrefixLen_self_append]

theorem Keyed.insert (h : t.Keyed n) (hk : k.length = n) : (t.insert k v).Keyed n := by
  induction h.locate hk generalizing n with
  | @diverge t p r s b hl =>
    rw [insert_diverge v hl]
    simp only [List.length_append, List.length_cons] at hk
    have hdrop : (t.dropLabel (p.length + 1)).Keyed (n - (p.length + 1)) := by
      have := h.dropLabel (p := p ++ [b]) (r := r) (by rw [hl]; simp)
      simpa using this
    have hm : n - (p.length + 1) = s.length := by omega
    rw [hm] at hdrop
    have hleaf : (PrefixTree.leaf s v).Keyed s.length := rfl
    exact hleaf.join hdrop (by omega)
  | leaf k u =>
    rw [insert_leaf]
    exact hk
  | @left l r a b _ ih =>
    obtain ⟨m, hm, ha, hb⟩ := h
    simp only [List.length_append, List.length_cons] at hk
    rw [insert_left]
    exact ⟨m, hm, ih ha (by omega), hb⟩
  | @right l r b a _ ih =>
    obtain ⟨m, hm, ha, hb⟩ := h
    simp only [List.length_append, List.length_cons] at hk
    rw [insert_right]
    exact ⟨m, hm, ha, ih hb (by omega)⟩

/-- A tree whose front bits are taken off still has its keys, without these bits. -/
theorem get_dropLabel {p r : List Bool} {b : Bool} (h : t.label = p ++ b :: r) (q : List Bool) :
    (t.dropLabel (p.length + 1)).get q = t.get (p ++ b :: q) := by
  have hprep : (t.dropLabel (p ++ [b]).length).prepend (p ++ [b]) = t := prepend_dropLabel (r := r) (by rw [h]; simp)
  rw [List.length_append, List.length_singleton] at hprep
  rw [← get_prepend (p ++ [b]) q, hprep, List.append_assoc]
  rfl

/-- Insertion sets the value of the key. -/
theorem get_insert (h : t.Keyed n) (hk : k.length = n) (q : List Bool) :
    (t.insert k v).get q = if q = k then some v else t.get q := by
  induction h.locate hk generalizing n q with
  | @diverge t p r s b hl =>
    rw [insert_diverge v hl]
    rcases prefix_or_diverge p q with ⟨q, rfl⟩ | ⟨c, r', rfl⟩ | ⟨p', c, r', s', hp, rfl⟩
    · cases q with
      | nil =>
        have hne : ¬ p ++ [] = p ++ (!b) :: s := by simp
        rw [if_neg hne]
        cases ht : t.get (p ++ []) with
        | none =>
          cases b <;> exact get_fork_of_short _ _ (by simp)
        | some u =>
          obtain ⟨r', hr'⟩ := get_eq_some_label ht
          rw [hl, List.append_assoc] at hr'
          have := List.append_cancel_left hr'
          cases this
      | cons c q =>
        by_cases hc : c = b
        · subst hc
          have hne : ¬ p ++ c :: q = p ++ (!c) :: s := by simp
          have hother := get_join_other p (!c) (PrefixTree.leaf s v) (t.dropLabel (p.length + 1)) q
          rw [Bool.not_not] at hother
          rw [if_neg hne, hother, get_dropLabel hl]
        · obtain rfl : c = !b := by cases b <;> cases c <;> simp_all
          rw [get_join_side, get_diverge hl]
          simp [get]
    · have hne : ¬ q = q ++ c :: r' ++ (!b) :: s := by simp
      rw [if_neg hne]
      have hshort : (join (q ++ c :: r') (!b) (PrefixTree.leaf s v) (t.dropLabel ((q ++ c :: r').length + 1))).get q =
          none := by
        cases b <;> exact get_fork_of_short _ _ (by simp)
      rw [hshort]
      cases ht : t.get q with
      | none => rfl
      | some u =>
        obtain ⟨r'', hr''⟩ := get_eq_some_label ht
        rw [hl] at hr''
        simp at hr''
    · subst hp
      have hne : ¬ p' ++ (!c) :: s' = p' ++ c :: r' ++ (!b) :: s := by
        rw [List.append_assoc]
        intro he
        have := List.append_cancel_left he
        cases c <;> cases this
      rw [if_neg hne, get_diverge (by rw [label_join]), get_diverge (by rw [hl, List.append_assoc]; rfl)]
  | leaf k u =>
    rw [insert_leaf]
    simp only [get]
    by_cases hq : q = k <;> simp [hq]
  | @left l r a b _ ih =>
    obtain ⟨m, hm, ha, hb⟩ := h
    simp only [List.length_append, List.length_cons] at hk
    rw [insert_left]
    simp only [get]
    cases hd : q.dropPrefix? l with
    | none =>
      rw [if_neg]
      rintro rfl
      simp at hd
    | some q' =>
      rw [dropPrefix?_eq_some] at hd
      subst hd
      rcases q' with _ | ⟨_ | _, q'⟩
      · simp
      · simp only [List.append_cancel_left_eq, List.cons.injEq, true_and]
        exact ih ha (by omega) q'
      · simp
  | @right l r b a _ ih =>
    obtain ⟨m, hm, ha, hb⟩ := h
    simp only [List.length_append, List.length_cons] at hk
    rw [insert_right]
    simp only [get]
    cases hd : q.dropPrefix? l with
    | none =>
      rw [if_neg]
      rintro rfl
      simp at hd
    | some q' =>
      rw [dropPrefix?_eq_some] at hd
      subst hd
      rcases q' with _ | ⟨_ | _, q'⟩
      · simp
      · simp
      · simp only [List.append_cancel_left_eq, List.cons.injEq, true_and]
        exact ih hb (by omega) q'

end Insert

/-! ## Trees that may be empty -/

/-- The value of a key in a tree that may be empty. -/
def get? (t : Option (PrefixTree α)) (k : List Bool) : Option α := t.bind fun t => t.get k

/-- The keys of a tree that may be empty have length `n`. -/
def Keyed? (n : Nat) (t : Option (PrefixTree α)) : Prop := ∀ s ∈ t, s.Keyed n

@[simp] theorem get?_none (k : List Bool) : get? (none : Option (PrefixTree α)) k = none := rfl
@[simp] theorem get?_some (t : PrefixTree α) (k : List Bool) : get? (some t) k = t.get k := rfl

theorem keyed?_none (n : Nat) : Keyed? n (none : Option (PrefixTree α)) := by
  rintro _ ⟨⟩

theorem Keyed.some {n : Nat} {t : PrefixTree α} (h : t.Keyed n) : Keyed? n (some t) := by
  rintro _ ⟨⟩
  exact h

theorem Keyed?.get_eq_none {n : Nat} {t : Option (PrefixTree α)} (h : Keyed? n t) {k : List Bool} (hk : k.length ≠ n) :
    get? t k = none := by
  cases t with
  | none => rfl
  | some t => exact (h t rfl).get_eq_none hk

/-- Two trees that may be empty and have the same map are the same. -/
theorem ext? {n : Nat} {s t : Option (PrefixTree α)} (hs : Keyed? n s) (ht : Keyed? n t) (h : ∀ k, get? s k = get? t k) :
    s = t := by
  cases s with
  | none =>
    cases t with
    | none => rfl
    | some t =>
      obtain ⟨k, v, hk⟩ := (ht t rfl).exists_get
      have := h k
      rw [get?_none, get?_some, hk] at this
      cases this
  | some s =>
    cases t with
    | none =>
      obtain ⟨k, v, hk⟩ := (hs s rfl).exists_get
      have := h k
      rw [get?_none, get?_some, hk] at this
      cases this
    | some t => rw [ext (hs s rfl) (ht t rfl) h]

/-- Insertion into a tree that may be empty. -/
def insert? : Option (PrefixTree α) → List Bool → α → PrefixTree α
  | none, k, v => leaf k v
  | some t, k, v => t.insert k v

theorem Keyed?.insert? {n : Nat} {t : Option (PrefixTree α)} (h : Keyed? n t) {k : List Bool} (hk : k.length = n) (v : α) :
    (insert? t k v).Keyed n := by
  cases t with
  | none => exact hk
  | some t => exact (h t rfl).insert v hk

theorem get_insert? {n : Nat} {t : Option (PrefixTree α)} (h : Keyed? n t) {k : List Bool} (hk : k.length = n) (v : α)
    (q : List Bool) : (insert? t k v).get q = if q = k then some v else get? t q := by
  cases t with
  | none => simp [insert?, get]
  | some t => exact get_insert v (h t rfl) hk q

/-- Deletion from a tree that may be empty. -/
def erase? (t : Option (PrefixTree α)) (k : List Bool) : Option (PrefixTree α) := t.bind fun t => t.erase k

section Rejoin

variable (l : List Bool) (a b : Option (PrefixTree α))

theorem get?_prepend_cons (p q : List Bool) (c : Bool) (t : PrefixTree α) :
    get? (some (t.prepend (p ++ [c]))) (p ++ c :: q) = t.get q := by
  rw [get?_some]
  have := get_prepend (p ++ [c]) q t
  rwa [List.append_assoc] at this

theorem get?_prepend_other (p q : List Bool) (c : Bool) (t : PrefixTree α) :
    get? (some (t.prepend (p ++ [c]))) (p ++ (!c) :: q) = none := by
  rw [get?_some]
  exact get_diverge (r := t.label) (by rw [label_prepend, List.append_assoc]; rfl)

@[simp] theorem get?_rejoin_false (r : List Bool) : get? (rejoin l a b) (l ++ false :: r) = get? a r := by
  cases a <;> cases b
  · rfl
  · exact get?_prepend_other l r true _
  · exact get?_prepend_cons l r false _
  · simp [rejoin]

@[simp] theorem get?_rejoin_true (r : List Bool) : get? (rejoin l a b) (l ++ true :: r) = get? b r := by
  cases a <;> cases b
  · rfl
  · exact get?_prepend_cons l r true _
  · exact get?_prepend_other l r false _
  · simp [rejoin]

/-- Every key of a rejoined tree goes to one of its sides. -/
theorem get?_rejoin_of_not (k : List Bool) (h : ∀ c r, k ≠ l ++ c :: r) : get? (rejoin l a b) k = none := by
  cases hg : get? (rejoin l a b) k with
  | none => rfl
  | some v =>
    exfalso
    cases a with
    | none =>
      cases b with
      | none => cases hg
      | some b =>
        obtain ⟨r, hr⟩ := get_eq_some_label hg
        rw [label_prepend, List.append_assoc, List.append_assoc] at hr
        exact h _ _ hr
    | some a =>
      cases b with
      | none =>
        obtain ⟨r, hr⟩ := get_eq_some_label hg
        rw [label_prepend, List.append_assoc, List.append_assoc] at hr
        exact h _ _ hr
      | some b =>
        simp only [rejoin, get?_some, get] at hg
        split at hg
        · next r hr => exact h _ _ (dropPrefix?_eq_some.1 hr)
        · next r hr => exact h _ _ (dropPrefix?_eq_some.1 hr)
        · cases hg

theorem Keyed?.rejoin {m n : Nat} {a b : Option (PrefixTree α)} (ha : Keyed? m a) (hb : Keyed? m b)
    (hn : l.length + 1 + m = n) : Keyed? n (rejoin l a b) := by
  cases a with
  | none =>
    cases b with
    | none => exact keyed?_none n
    | some b =>
      have := (hb b rfl).prepend (l ++ [true])
      rw [List.length_append, List.length_singleton, hn] at this
      exact this.some
  | some a =>
    cases b with
    | none =>
      have := (ha a rfl).prepend (l ++ [false])
      rw [List.length_append, List.length_singleton, hn] at this
      exact this.some
    | some b => exact Keyed.some ⟨m, hn, ha a rfl, hb b rfl⟩

end Rejoin

/-! ## Deletion -/

section Erase

variable {n : Nat} {t : PrefixTree α} {k : List Bool}

theorem erase_diverge {p r s : List Bool} {b : Bool} (h : t.label = p ++ b :: r) :
    t.erase (p ++ (!b) :: s) = some t := by
  have hne : ∀ q, p ++ (!b) :: s ≠ t.label ++ q := by
    intro q hq
    rw [h, List.append_assoc] at hq
    have := List.append_cancel_left hq
    cases b <;> cases this
  cases t with
  | leaf l v =>
    simp only [erase]
    rw [if_neg fun hl => hne [] (by rw [List.append_nil]; exact hl)]
  | fork l x y =>
    simp only [erase]
    have hd : (p ++ (!b) :: s).dropPrefix? l = none := by
      rw [Option.eq_none_iff_forall_ne_some]
      intro q hq
      exact hne q (dropPrefix?_eq_some.1 hq)
    rw [hd]

@[simp] theorem erase_leaf (k : List Bool) (v : α) : (leaf k v).erase k = none := by simp [erase]

@[simp] theorem erase_left (l r : List Bool) (a b : PrefixTree α) :
    (fork l a b).erase (l ++ false :: r) = rejoin l (a.erase r) (some b) := by
  simp [erase]

@[simp] theorem erase_right (l r : List Bool) (a b : PrefixTree α) :
    (fork l a b).erase (l ++ true :: r) = rejoin l (some a) (b.erase r) := by
  simp [erase]

theorem Keyed.erase (h : t.Keyed n) (hk : k.length = n) : Keyed? n (t.erase k) := by
  induction h.locate hk generalizing n with
  | diverge hl =>
    rw [erase_diverge hl]
    exact h.some
  | leaf k v =>
    rw [erase_leaf]
    exact keyed?_none n
  | @left l r a b _ ih =>
    obtain ⟨m, hm, ha, hb⟩ := h
    simp only [List.length_append, List.length_cons] at hk
    rw [erase_left]
    exact Keyed?.rejoin l (ih ha (by omega)) hb.some hm
  | @right l r b a _ ih =>
    obtain ⟨m, hm, ha, hb⟩ := h
    simp only [List.length_append, List.length_cons] at hk
    rw [erase_right]
    exact Keyed?.rejoin l ha.some (ih hb (by omega)) hm

/-- Deletion takes the value of the key away. -/
theorem get_erase (h : t.Keyed n) (hk : k.length = n) (q : List Bool) :
    get? (t.erase k) q = if q = k then none else t.get q := by
  induction h.locate hk generalizing n q with
  | @diverge t p r s b hl =>
    rw [erase_diverge hl, get?_some]
    split
    · next hq => rw [hq, get_diverge hl]
    · rfl
  | leaf k v =>
    rw [erase_leaf]
    simp only [get, get?_none]
    by_cases hq : q = k <;> simp [hq]
  | @left l r a b _ ih =>
    obtain ⟨m, hm, ha, hb⟩ := h
    simp only [List.length_append, List.length_cons] at hk
    rw [erase_left]
    by_cases hq : ∃ c q', q = l ++ c :: q'
    · obtain ⟨c, q', rfl⟩ := hq
      cases c with
      | false =>
        rw [get?_rejoin_false, ih ha (by omega), get_fork_false]
        simp
      | true => simp
    · have hside : ∀ c q', q ≠ l ++ c :: q' := fun c q' h => hq ⟨c, q', h⟩
      rw [get?_rejoin_of_not l _ _ q hside, if_neg (hside _ _)]
      exact (get?_rejoin_of_not l (some a) (some b) q hside).symm
  | @right l r b a _ ih =>
    obtain ⟨m, hm, ha, hb⟩ := h
    simp only [List.length_append, List.length_cons] at hk
    rw [erase_right]
    by_cases hq : ∃ c q', q = l ++ c :: q'
    · obtain ⟨c, q', rfl⟩ := hq
      cases c with
      | false => simp
      | true =>
        rw [get?_rejoin_true, ih hb (by omega), get_fork_true]
        simp
    · have hside : ∀ c q', q ≠ l ++ c :: q' := fun c q' h => hq ⟨c, q', h⟩
      rw [get?_rejoin_of_not l _ _ q hside, if_neg (hside _ _)]
      exact (get?_rejoin_of_not l (some a) (some b) q hside).symm

theorem Keyed?.erase? {t : Option (PrefixTree α)} (h : Keyed? n t) (hk : k.length = n) : Keyed? n (erase? t k) := by
  cases t with
  | none => exact keyed?_none n
  | some t => exact (h t rfl).erase hk

theorem get?_erase? {t : Option (PrefixTree α)} (h : Keyed? n t) (hk : k.length = n) (q : List Bool) :
    get? (erase? t k) q = if q = k then none else get? t q := by
  cases t with
  | none => simp [erase?]
  | some t => exact get_erase (h t rfl) hk q

end Erase

end PrefixTree

end Lib
