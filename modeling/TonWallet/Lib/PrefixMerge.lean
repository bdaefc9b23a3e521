/-
Maps from bit strings seen from the prefixes of their keys: where a map branches, what all of its keys start with,
and which keys one map has and another lacks. A prefix tree has them on its edges.
-/
import TonWallet.Lib.PrefixTree

namespace Lib

variable {α : Type*}

/-- A map has keys on both sides of a prefix. -/
def Branches (m : List Bool → Option α) (p : List Bool) : Prop :=
  (∃ r, (m (p ++ false :: r)).isSome) ∧ ∃ r, (m (p ++ true :: r)).isSome

/-- All keys of a map start with a prefix. -/
def Under (p : List Bool) (m : List Bool → Option α) : Prop := ∀ k, (m k).isSome → ∃ r, k = p ++ r

/-- A map lacks a key of another one. -/
def Lacks (m m' : List Bool → Option α) : Prop := ∃ k, (m' k).isSome ∧ m k = none

/-- What all keys start with goes no further than where they branch. -/
theorem Under.le_branch {m : List Bool → Option α} {l p : List Bool} (h : Under l m) (hp : Branches m p) :
    ∃ r, p = l ++ r := by
  obtain ⟨⟨r, hr⟩, s, hs⟩ := hp
  obtain ⟨u, hu⟩ := h _ hr
  obtain ⟨v, hv⟩ := h _ hs
  rcases prefix_or_diverge l p with ⟨r', hr'⟩ | ⟨b, r', rfl⟩ | ⟨q, b, r', s', rfl, rfl⟩
  · exact ⟨r', hr'⟩
  · -- a longer prefix would leave out the keys on one side
    rw [List.append_assoc] at hu hv
    have hu := List.append_cancel_left hu
    have hv := List.append_cancel_left hv
    rw [List.cons_append, List.cons.injEq] at hu hv
    exact absurd (hu.1.trans hv.1.symm) (by decide)
  · rw [List.append_assoc, List.append_assoc] at hu
    have hu := List.append_cancel_left hu
    rw [List.cons_append, List.cons_append, List.cons.injEq] at hu
    cases b <;> exact absurd hu.1 (by decide)

/-! ## Below a prefix -/

section Side

variable {m m1 m2 : List Bool → Option α} {l p : List Bool} {c : Bool}

theorem branches_side : Branches m (l ++ c :: p) ↔ Branches (fun k => m (l ++ c :: k)) p := by
  simp only [Branches, List.append_assoc, List.cons_append]

/-- A key under a label and a bit. -/
theorem Under.exists_side (h : Under (l ++ [c]) m) {k : List Bool} (hk : (m k).isSome) : ∃ r, k = l ++ c :: r := by
  obtain ⟨r, rfl⟩ := h k hk
  exact ⟨r, by simp⟩

theorem under_side (h : Under (l ++ [c]) m) : Under (l ++ c :: p) m ↔ Under p fun k => m (l ++ c :: k) := by
  constructor
  · intro hp k hk
    obtain ⟨r, hr⟩ := hp _ hk
    rw [List.append_assoc, List.cons_append] at hr
    exact ⟨r, (List.cons.injEq .. ▸ List.append_cancel_left hr).2⟩
  · intro hp k hk
    obtain ⟨k, rfl⟩ := h.exists_side hk
    obtain ⟨r, rfl⟩ := hp k hk
    exact ⟨r, by simp⟩

theorem lacks_side (h : Under (l ++ [c]) m2) :
    Lacks m1 m2 ↔ Lacks (fun k => m1 (l ++ c :: k)) fun k => m2 (l ++ c :: k) := by
  constructor
  · rintro ⟨k, hk, hnone⟩
    obtain ⟨k, rfl⟩ := h.exists_side hk
    exact ⟨k, hk, hnone⟩
  · rintro ⟨k, hk, hnone⟩
    exact ⟨_, hk, hnone⟩

end Side

/-! ## Missing keys -/

section Missing

variable {m1 m2 : List Bool → Option α} {b1 b2 : Prop}

/-- Of two maps, the first lacks a key of the second one (`b1`), or the second one of the first (`b2`). -/
def Missing (b1 b2 : Prop) (m1 m2 : List Bool → Option α) : Prop := b1 ∧ Lacks m1 m2 ∨ b2 ∧ Lacks m2 m1

/-- Both maps branch where all keys of the second one (`b1`), or of the first one (`b2`), start with. -/
def Hidden (b1 b2 : Prop) (m1 m2 : List Bool → Option α) : Prop :=
  ∃ p, Branches m1 p ∧ Branches m2 p ∧ (b1 → Under p m2) ∧ (b2 → Under p m1)

theorem missing_comm : Missing b1 b2 m1 m2 ↔ Missing b2 b1 m2 m1 := or_comm

theorem hidden_comm : Hidden b1 b2 m1 m2 ↔ Hidden b2 b1 m2 m1 := by
  constructor <;>
  · rintro ⟨p, h1, h2, hu1, hu2⟩
    exact ⟨p, h2, h1, hu2, hu1⟩

/-- Where all keys of the second map go to one side of a label, it is decided there. -/
theorem missing_hidden_side {l : List Bool} {c : Bool} (hb2 : ¬ b2) (h : Under (l ++ [c]) m2) :
    (Missing b1 b2 m1 m2 ↔ Missing b1 b2 (fun k => m1 (l ++ c :: k)) fun k => m2 (l ++ c :: k)) ∧
      (Hidden b1 b2 m1 m2 ↔ Hidden b1 b2 (fun k => m1 (l ++ c :: k)) fun k => m2 (l ++ c :: k)) := by
  refine ⟨?_, ?_⟩
  · simp only [Missing, lacks_side h, hb2, false_and, or_false]
  · constructor
    · rintro ⟨p, h1, h2, hu1, -⟩
      obtain ⟨r, hr⟩ := h.le_branch h2
      obtain rfl : p = l ++ c :: r := by rw [hr]; simp
      exact ⟨r, branches_side.1 h1, branches_side.1 h2, fun hb => (under_side h).1 (hu1 hb), fun hb => absurd hb hb2⟩
    · rintro ⟨r, h1, h2, hu1, -⟩
      exact ⟨l ++ c :: r, branches_side.2 h1, branches_side.2 h2, fun hb => (under_side h).2 (hu1 hb), fun hb => absurd hb hb2⟩

end Missing

namespace PrefixTree

variable {t a b : PrefixTree α} {n : Nat}

@[simp] theorem prepend_nil (t : PrefixTree α) : t.prepend [] = t := by
  cases t <;> rfl

/-- A tree whose label starts with some bits, as what is left of it and these bits. -/
theorem exists_prepend {p r : List Bool} (h : t.label = p ++ r) : ∃ s : PrefixTree α, t = s.prepend p ∧ s.label = r := by
  refine ⟨t.dropLabel p.length, (prepend_dropLabel h).symm, ?_⟩
  rw [dropLabel, label_withLabel, h, List.drop_left]

theorem Keyed.of_prepend {p : List Bool} (h : (t.prepend p).Keyed (n + p.length)) : t.Keyed n := by
  cases t with
  | leaf l v =>
    have hlen : (p ++ l).length = n + p.length := h
    rw [List.length_append] at hlen
    show l.length = n
    omega
  | fork l a b =>
    obtain ⟨m, hm, ha, hb⟩ := h
    have hlen : (p ++ l).length + 1 + m = n + p.length := hm
    rw [List.length_append] at hlen
    exact ⟨m, by omega, ha, hb⟩

theorem get_prepend_side (l k : List Bool) (c : Bool) (t : PrefixTree α) :
    (t.prepend (l ++ [c])).get (l ++ c :: k) = t.get k := get?_prepend_cons l k c t

theorem get_prepend_other (l k : List Bool) (c : Bool) (t : PrefixTree α) :
    (t.prepend (l ++ [c])).get (l ++ (!c) :: k) = none := get?_prepend_other l k c t

theorem get_fork_side (l k : List Bool) (c : Bool) (a b : PrefixTree α) :
    (fork l a b).get (l ++ c :: k) = (if c then b else a).get k := by
  cases c with
  | false => exact get_fork_false l k a b
  | true => exact get_fork_true l k a b

/-- Keys of a tree go to one side of a part of its label. -/
theorem get_of_not_side {l k : List Bool} (hl : t.label = l ∧ t.label.length < n ∨ ∃ c r, t.label = l ++ c :: r)
    (ht : t.Keyed n) (h : ∀ c r, k ≠ l ++ c :: r) : t.get k = none := by
  cases hk : t.get k with
  | none => rfl
  | some v =>
    exfalso
    obtain ⟨r, hr⟩ := get_eq_some_label hk
    rcases hl with ⟨rfl, hlt⟩ | ⟨c, s, hs⟩
    · cases r with
      | nil =>
        rw [List.append_nil] at hr
        rw [ht.get_eq_none (by rw [hr]; omega)] at hk
        cases hk
      | cons c r => exact h c r hr
    · rw [hs, List.append_assoc, List.cons_append] at hr
      exact h c _ hr

theorem under_label (t : PrefixTree α) : Under t.label t.get := by
  intro k hk
  obtain ⟨v, hv⟩ := Option.isSome_iff_exists.1 hk
  exact get_eq_some_label hv

theorem branches_fork {l : List Bool} (h : (fork l a b).Keyed n) : Branches (fork l a b).get l := by
  obtain ⟨m, _, ha, hb⟩ := h
  obtain ⟨r, v, hr⟩ := ha.exists_get
  obtain ⟨s, w, hs⟩ := hb.exists_get
  exact ⟨⟨r, by rw [get_fork_false, hr]; rfl⟩, s, by rw [get_fork_true, hs]; rfl⟩

end PrefixTree

end Lib
