/-
Binary trees with values at the leaves. A leaf is named by the path that leads to it; the paths of all leaves form a
complete prefix code: every long enough path runs through exactly one leaf.
-/
import Mathlib.Data.List.Basic
import Mathlib.Data.List.Infix
import Mathlib.Data.List.Nodup

namespace Lib

inductive BinTree (α : Type*) where
  | leaf (a : α)
  | fork (l r : BinTree α)

namespace BinTree

variable {α β : Type*}

def depth : BinTree α → Nat
  | leaf _ => 0
  | fork l r => max l.depth r.depth + 1

/-- The leaves from left to right, each with its path. -/
def leaves : BinTree α → List (List Bool × α)
  | leaf a => [([], a)]
  | fork l r => l.leaves.map (fun x => (false :: x.1, x.2)) ++ r.leaves.map (fun x => (true :: x.1, x.2))

/-- The leaf that a path leads to or through. -/
def descend : BinTree α → List Bool → Option (List Bool × α)
  | leaf a, _ => some ([], a)
  | fork _ _, [] => none
  | fork l _, false :: p => (l.descend p).map fun x => (false :: x.1, x.2)
  | fork _ r, true :: p => (r.descend p).map fun x => (true :: x.1, x.2)

variable {t : BinTree α} {p q : List Bool} {a : α}

theorem descend_eq_some_iff : t.descend p = some (q, a) ↔ (q, a) ∈ t.leaves ∧ q <+: p := by
  induction t generalizing p q with
  | leaf b =>
    simp only [descend, leaves, Option.some.injEq, Prod.mk.injEq, List.mem_singleton]
    constructor
    · rintro ⟨rfl, rfl⟩
      exact ⟨⟨rfl, rfl⟩, List.nil_prefix⟩
    · rintro ⟨⟨rfl, rfl⟩, -⟩
      exact ⟨rfl, rfl⟩
  | fork l r ihl ihr =>
    simp only [leaves, List.mem_append, List.mem_map, Prod.exists, Prod.mk.injEq]
    constructor
    · intro h
      rcases p with _ | ⟨_ | _, p⟩
      · cases h
      · obtain ⟨⟨q', a'⟩, hl, heq⟩ := Option.map_eq_some_iff.1 h
        cases heq
        obtain ⟨hmem, hpre⟩ := ihl.1 hl
        exact ⟨.inl ⟨q', _, hmem, rfl, rfl⟩, List.cons_prefix_cons.2 ⟨rfl, hpre⟩⟩
      · obtain ⟨⟨q', a'⟩, hr, heq⟩ := Option.map_eq_some_iff.1 h
        cases heq
        obtain ⟨hmem, hpre⟩ := ihr.1 hr
        exact ⟨.inr ⟨q', _, hmem, rfl, rfl⟩, List.cons_prefix_cons.2 ⟨rfl, hpre⟩⟩
    · rintro ⟨⟨q', a', hmem, rfl, rfl⟩ | ⟨q', a', hmem, rfl, rfl⟩, hpre⟩
      all_goals
        rcases p with _ | ⟨b, p⟩
        · exact absurd (List.prefix_nil.1 hpre) (List.cons_ne_nil _ _)
        obtain ⟨rfl, htail⟩ := List.cons_prefix_cons.1 hpre
      · rw [descend, ihl.2 ⟨hmem, htail⟩]
        rfl
      · rw [descend, ihr.2 ⟨hmem, htail⟩]
        rfl

theorem isSome_descend (h : t.depth ≤ p.length) : (t.descend p).isSome := by
  induction t generalizing p with
  | leaf => rfl
  | fork l r ihl ihr =>
    rw [depth] at h
    rcases p with _ | ⟨_ | _, p⟩
    · simp at h
    · rw [List.length_cons] at h
      rw [descend, Option.isSome_map]
      exact ihl (by omega)
    · rw [List.length_cons] at h
      rw [descend, Option.isSome_map]
      exact ihr (by omega)

/-- Every long enough path runs through exactly one leaf. -/
theorem existsUnique_prefix (h : t.depth ≤ p.length) : ∃! x, x ∈ t.leaves ∧ x.1 <+: p := by
  obtain ⟨x, hx⟩ := Option.isSome_iff_exists.1 (isSome_descend h)
  refine ⟨x, descend_eq_some_iff.1 hx, ?_⟩
  intro y hy
  have hy' := descend_eq_some_iff.2 hy
  rw [hx] at hy'
  exact (Option.some.inj hy').symm

/-- A leaf is found by its path among all leaves. -/
theorem find?_leaves (t : BinTree α) (p : List Bool) : t.leaves.find? (fun x => decide (x.1 <+: p)) = t.descend p := by
  cases hd : t.descend p with
  | none =>
    rw [List.find?_eq_none]
    intro x hx hpre
    rw [descend_eq_some_iff.2 ⟨hx, of_decide_eq_true hpre⟩] at hd
    cases hd
  | some x =>
    obtain ⟨hmem, hpre⟩ := descend_eq_some_iff.1 hd
    cases hf : t.leaves.find? (fun x => decide (x.1 <+: p)) with
    | none =>
      rw [List.find?_eq_none] at hf
      exact absurd (decide_eq_true hpre) (hf x hmem)
    | some y =>
      have hprefix : y.1 <+: p := by simpa using List.find?_some hf
      have hy := descend_eq_some_iff.2 ⟨List.mem_of_find?_eq_some hf, hprefix⟩
      exact hy.symm.trans hd

/-- A leaf that ends where a path ends. -/
theorem find?_leaves_path (t : BinTree α) (p : List Bool) :
    t.leaves.find? (fun x => decide (x.1 = p)) = (t.descend p).bind fun x => if x.1 = p then some x else none := by
  cases hd : t.descend p with
  | none =>
    rw [Option.bind_none, List.find?_eq_none]
    intro x hx hpath
    rw [descend_eq_some_iff.2 ⟨hx, (of_decide_eq_true hpath) ▸ List.prefix_refl _⟩] at hd
    cases hd
  | some x =>
    rw [Option.bind_some]
    have hunique : ∀ y ∈ t.leaves, y.1 = p → y = x := by
      intro y hy hpath
      have hpre : y.1 <+: p := by rw [hpath]
      have hyd := descend_eq_some_iff.2 ⟨hy, hpre⟩
      rw [hd] at hyd
      exact (Option.some.inj hyd).symm
    cases hf : t.leaves.find? (fun x => decide (x.1 = p)) with
    | none =>
      rw [List.find?_eq_none] at hf
      rw [if_neg fun hpath => hf x (descend_eq_some_iff.1 hd).1 (decide_eq_true hpath)]
    | some y =>
      have hpath : y.1 = p := by simpa using List.find?_some hf
      obtain rfl := hunique y (List.mem_of_find?_eq_some hf) hpath
      rw [if_pos hpath]

/-- No path is found twice. -/
theorem nodup_paths (t : BinTree α) : (t.leaves.map Prod.fst).Nodup := by
  induction t with
  | leaf => exact List.nodup_singleton []
  | fork l r ihl ihr =>
    have hside (b : Bool) (s : BinTree α) : (s.leaves.map fun x => (b :: x.1, x.2)).map Prod.fst =
        (s.leaves.map Prod.fst).map (List.cons b) := by
      rw [List.map_map, List.map_map]
      rfl
    rw [leaves, List.map_append, hside, hside]
    refine List.Nodup.append (ihl.map fun _ _ h => (List.cons.inj h).2) (ihr.map fun _ _ h => (List.cons.inj h).2) ?_
    intro p hl hr
    obtain ⟨q, -, rfl⟩ := List.mem_map.1 hl
    obtain ⟨q', -, hq⟩ := List.mem_map.1 hr
    cases hq

theorem length_le_depth {x : List Bool × α} (hx : x ∈ t.leaves) : x.1.length ≤ t.depth := by
  induction t generalizing x with
  | leaf b =>
    obtain rfl := List.mem_singleton.1 hx
    exact le_refl 0
  | fork l r ihl ihr =>
    rw [depth]
    rcases List.mem_append.1 hx with hx | hx
    all_goals
      obtain ⟨y, hy, rfl⟩ := List.mem_map.1 hx
      rw [List.length_cons]
    · have := ihl hy
      omega
    · have := ihr hy
      omega

end BinTree

end Lib
