/-
Sorting by a key, the greatest one first. Elements of equal keys stay in no order that a sort promises, so what is read
off the sorted list depends on the order before unless the key tells it.
-/
import Mathlib.Data.List.Sort

namespace Lib

variable {α β κ : Type*} [LinearOrder κ] {key : α → κ} {f : α → Option β} {l l' : List α}

/-- A sort by a key: the same elements, with keys that do not grow. -/
structure SortsBy (key : α → κ) (sort : List α → List α) : Prop where
  perm : ∀ l, (sort l).Perm l
  sorted : ∀ l, (sort l).Pairwise fun a b => key b ≤ key a

/-- What `f` gives is told by the key. -/
def KeyTells (key : α → κ) (f : α → Option β) (l : List α) : Prop :=
  ∀ a ∈ l, ∀ b ∈ l, key a = key b → ∀ x y, f a = some x → f b = some y → x = y

/-- Sorted lists of the same elements give the same where the key tells it. -/
theorem filterMap_eq_of_sorted (htells : KeyTells key f l) (hperm : l.Perm l') (hl : l.Pairwise fun a b => key b ≤ key a)
    (hl' : l'.Pairwise fun a b => key b ≤ key a) : l.filterMap f = l'.filterMap f := by
  -- with its key each value stands in one order only
  let g : α → Option (κ × β) := fun a => (f a).map fun x => (key a, x)
  have hvalues (l : List α) : (l.filterMap g).map Prod.snd = l.filterMap f := by
    rw [List.map_filterMap]
    congr 1
    funext a
    simp only [g, Option.map_map]
    cases f a <;> rfl
  have hsorted {l : List α} (hl : l.Pairwise fun a b => key b ≤ key a) : (l.filterMap g).Pairwise fun p q => q.1 ≤ p.1 := by
    rw [List.pairwise_filterMap]
    refine hl.imp ?_
    rintro a b hab p hp q hq
    obtain ⟨x, -, rfl⟩ := Option.map_eq_some_iff.1 hp
    obtain ⟨y, -, rfl⟩ := Option.map_eq_some_iff.1 hq
    exact hab
  have hsame : l.filterMap g = l'.filterMap g := by
    refine (hperm.filterMap g).eq_of_pairwise ?_ (hsorted hl) (hsorted hl')
    rintro p q hp hq hle hge
    obtain ⟨a, ha, hpa⟩ := List.mem_filterMap.1 hp
    obtain ⟨b, hb, hqb⟩ := List.mem_filterMap.1 hq
    obtain ⟨x, hx, rfl⟩ := Option.map_eq_some_iff.1 hpa
    obtain ⟨y, hy, rfl⟩ := Option.map_eq_some_iff.1 hqb
    have hkey : key a = key b := le_antisymm hge hle
    rw [hkey, htells a ha b (hperm.mem_iff.2 hb) hkey x y hx hy]
  rw [← hvalues l, ← hvalues l', hsame]

/-- A sort by a strict order: the same elements, none in front of one that is less. -/
structure SortsFor (less : α → α → Bool) (sort : List α → List α) : Prop where
  perm : ∀ l, (sort l).Perm l
  sorted : ∀ l, (sort l).Pairwise fun a b => ¬less b a

theorem SortsBy.sortsFor {less : α → α → Bool} {sort : List α → List α} (h : SortsBy key sort)
    (hless : ∀ a b, less a b ↔ key b < key a) : SortsFor less sort where
  perm := h.perm
  sorted l := (h.sorted l).imp fun {a b} hab => by rw [hless, not_lt]; exact hab

/-! ## A stable sort -/

/-- Insertion sort, which leaves elements of equal keys in their order. -/
def insertionSortBy (key : α → κ) (l : List α) : List α := l.insertionSort fun a b => key b ≤ key a

instance instTotalKey : Std.Total fun a b : α => key b ≤ key a := ⟨fun a b => le_total (key b) (key a)⟩
instance instIsTransKey : IsTrans α fun a b => key b ≤ key a := ⟨fun _ _ _ hab hbc => le_trans hbc hab⟩

theorem insertionSortBy_sortsBy : SortsBy key (insertionSortBy key) where
  perm l := List.perm_insertionSort _ l
  sorted l := List.pairwise_insertionSort _ l

/-- The first two elements, of equal keys, stay side by side. -/
theorem insertionSortBy_two {a b : α} (hkey : key a = key b) (l : List α) :
    ∃ before after, insertionSortBy key (a :: b :: l) = before ++ a :: b :: after ∧
      insertionSortBy key (b :: a :: l) = before ++ b :: a :: after := by
  have hinsert {a b : α} (hkey : key a = key b) (l : List α) :
      (l.orderedInsert (fun a b => key b ≤ key a) b).orderedInsert (fun a b => key b ≤ key a) a =
        (l.takeWhile fun c => ¬ key c ≤ key a) ++ a :: b :: l.dropWhile fun c => ¬ key c ≤ key a := by
    induction l with
    | nil => simp [hkey]
    | cons c l ih =>
      by_cases hc : key c ≤ key a
      · rw [List.orderedInsert_cons, if_pos (hkey ▸ hc), List.orderedInsert_cons, if_pos (le_of_eq hkey.symm)]
        simp [hc]
      · rw [List.orderedInsert_cons, if_neg (hkey ▸ hc), List.orderedInsert_cons, if_neg hc, ih]
        simp [not_le.1 hc]
  refine ⟨_, _, hinsert hkey _, ?_⟩
  simp only [hkey]
  exact hinsert hkey.symm _

/-- Where the key does not tell what is read off, the order before the sort shows. -/
theorem filterMap_insertionSortBy_ne {a b : α} {x y : β} (hkey : key a = key b) (ha : f a = some x) (hb : f b = some y)
    (hxy : x ≠ y) (l : List α) :
    (insertionSortBy key (a :: b :: l)).filterMap f ≠ (insertionSortBy key (b :: a :: l)).filterMap f := by
  obtain ⟨before, after, hab, hba⟩ := insertionSortBy_two hkey l
  rw [hab, hba]
  intro heq
  simp only [List.filterMap_append, List.filterMap_cons, ha, hb] at heq
  have heq := List.append_cancel_left heq
  rw [List.cons.injEq] at heq
  exact hxy heq.1

end Lib
