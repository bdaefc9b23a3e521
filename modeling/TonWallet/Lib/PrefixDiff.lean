/-
Where two maps from bit strings differ: the keys with different values, in order, with both values. The list of a whole
is put together from those of the two sides of a prefix, and a visitor that may stop goes through it.
-/
import TonWallet.Lib.PrefixEntries
import TonWallet.Lib.PrefixMerge

namespace Lib

variable {α : Type*}

/-! ## The two sides of a label -/

/-- All keys of a map go on after a label: to the left as those of `a`, and to the right as those of `b`. -/
structure Splits (l : List Bool) (m a b : List Bool → Option α) : Prop where
  left : ∀ k, m (l ++ false :: k) = a k
  right : ∀ k, m (l ++ true :: k) = b k
  none : ∀ k, (∀ c r, k ≠ l ++ c :: r) → m k = none

namespace PrefixTree

theorem splits_fork {n : Nat} {l : List Bool} {a b : PrefixTree α} (h : (fork l a b).Keyed n) :
    Splits l (fork l a b).get a.get b.get :=
  ⟨fun k => get_fork_false l k a b, fun k => get_fork_true l k a b, fun _ hk =>
    get_of_not_side (.inl ⟨rfl, by obtain ⟨m, hm, -⟩ := h; rw [label]; omega⟩) h hk⟩

theorem get_prepend_of_not_side {l k : List Bool} {sw : Bool} (t : PrefixTree α) (h : ∀ c r, k ≠ l ++ c :: r) :
    (t.prepend (l ++ [sw])).get k = none := by
  cases hget : (t.prepend (l ++ [sw])).get k with
  | none => rfl
  | some v =>
    obtain ⟨r, hr⟩ := get_eq_some_label hget
    rw [label_prepend] at hr
    exact absurd (show k = l ++ sw :: (t.label ++ r) by rw [hr]; simp) (h _ _)

theorem splits_prepend_false (l : List Bool) (t : PrefixTree α) :
    Splits l (t.prepend (l ++ [false])).get t.get (fun _ => none) :=
  ⟨fun k => get_prepend_side l k false t, fun k => get_prepend_other l k false t, fun _ => get_prepend_of_not_side t⟩

theorem splits_prepend_true (l : List Bool) (t : PrefixTree α) :
    Splits l (t.prepend (l ++ [true])).get (fun _ => none) t.get :=
  ⟨fun k => get_prepend_other l k true t, fun k => get_prepend_side l k true t, fun _ => get_prepend_of_not_side t⟩

end PrefixTree

/-! ## Differences -/

/-- The keys for which two maps differ, after the bits `q`, in order and with both values. -/
structure DiffsOf (q : List Bool) (m1 m2 : List Bool → Option α) (ds : List (List Bool × Option α × Option α)) : Prop where
  sorted : ds.Pairwise fun d e => Before d.1 e.1
  mem_iff : ∀ k v1 v2, (k, v1, v2) ∈ ds ↔ ∃ r, k = q ++ r ∧ v1 = m1 r ∧ v2 = m2 r ∧ v1 ≠ v2

namespace DiffsOf

variable {q s l : List Bool} {m m1 m2 : List Bool → Option α} {ds ds0 ds1 : List (List Bool × Option α × Option α)}

/-- Equal maps do not differ. -/
theorem same (q : List Bool) (m : List Bool → Option α) : DiffsOf q m m [] := by
  refine ⟨List.Pairwise.nil, fun k v1 v2 => ⟨nofun, ?_⟩⟩
  rintro ⟨r, -, rfl, rfl, hne⟩
  exact absurd rfl hne

/-- Maps of one key. -/
theorem single {v1 v2 : Option α} (h : ∀ r, r ≠ l → m1 r = none ∧ m2 r = none) (h1 : m1 l = v1) (h2 : m2 l = v2)
    (hne : v1 ≠ v2) : DiffsOf q m1 m2 [(q ++ l, v1, v2)] := by
  refine ⟨List.pairwise_singleton _ _, fun k w1 w2 => ?_⟩
  rw [List.mem_singleton, Prod.mk.injEq, Prod.mk.injEq]
  constructor
  · rintro ⟨rfl, rfl, rfl⟩
    exact ⟨l, rfl, h1.symm, h2.symm, hne⟩
  · rintro ⟨r, rfl, rfl, rfl, hdiff⟩
    obtain rfl : r = l := by
      by_contra hr
      rw [(h r hr).1, (h r hr).2] at hdiff
      exact hdiff rfl
    exact ⟨rfl, h1, h2⟩

/-- Maps whose keys all go on after a label differ on its two sides. -/
theorem sides {a1 b1 a2 b2 : List Bool → Option α} (hm1 : Splits l m1 a1 b1) (hm2 : Splits l m2 a2 b2)
    (h0 : DiffsOf (q ++ l ++ [false]) a1 a2 ds0) (h1 : DiffsOf (q ++ l ++ [true]) b1 b2 ds1) :
    DiffsOf q m1 m2 (ds0 ++ ds1) := by
  refine ⟨List.pairwise_append.2 ⟨h0.sorted, h1.sorted, ?_⟩, fun k v1 v2 => ?_⟩
  · rintro ⟨k, v1, v2⟩ hk ⟨k', v1', v2'⟩ hk'
    obtain ⟨r, rfl, -⟩ := (h0.mem_iff _ _ _).1 hk
    obtain ⟨r', rfl, -⟩ := (h1.mem_iff _ _ _).1 hk'
    exact ⟨q ++ l, r, r', by simp, by simp⟩
  · rw [List.mem_append, h0.mem_iff, h1.mem_iff]
    constructor
    · rintro (⟨r, rfl, h⟩ | ⟨r, rfl, h⟩)
      · exact ⟨l ++ false :: r, by simp, by rwa [hm1.left, hm2.left]⟩
      · exact ⟨l ++ true :: r, by simp, by rwa [hm1.right, hm2.right]⟩
    · rintro ⟨k, rfl, rfl, rfl, hdiff⟩
      by_cases hside : ∀ c r, k ≠ l ++ c :: r
      · rw [hm1.none k hside, hm2.none k hside] at hdiff
        exact absurd rfl hdiff
      · push Not at hside
        obtain ⟨c, r, rfl⟩ := hside
        cases c with
        | false => exact .inl ⟨r, by simp, hm1.left r, hm2.left r, hdiff⟩
        | true => exact .inr ⟨r, by simp, hm1.right r, hm2.right r, hdiff⟩

/-- Bits that all keys start with may be counted to what is in front of them. -/
theorem under (h : DiffsOf q m1 m2 ds) (h1 : Under s m1) (h2 : Under s m2) :
    DiffsOf (q ++ s) (fun k => m1 (s ++ k)) (fun k => m2 (s ++ k)) ds := by
  refine ⟨h.sorted, fun k v1 v2 => ?_⟩
  rw [h.mem_iff]
  constructor
  · rintro ⟨r, rfl, rfl, rfl, hdiff⟩
    have hsome : (m1 r).isSome ∨ (m2 r).isSome := by
      cases hm1 : m1 r with
      | some v => exact .inl rfl
      | none =>
        cases hm2 : m2 r with
        | some v => exact .inr rfl
        | none =>
          rw [hm1, hm2] at hdiff
          exact absurd rfl hdiff
    obtain ⟨r, rfl⟩ : ∃ r', r = s ++ r' := by
      rcases hsome with hr | hr
      · exact h1 r hr
      · exact h2 r hr
    exact ⟨r, by rw [List.append_assoc], rfl, rfl, hdiff⟩
  · rintro ⟨r, rfl, rfl, rfl, hdiff⟩
    exact ⟨s ++ r, by rw [List.append_assoc], rfl, rfl, hdiff⟩

/-- The entries of a tree are where it differs from nothing. -/
theorem entries (q : List Bool) (t : PrefixTree α) :
    DiffsOf q t.get (fun _ => none) ((t.entries q).map fun x => (x.1, some x.2, none)) ∧
      DiffsOf q (fun _ => none) t.get ((t.entries q).map fun x => (x.1, none, some x.2)) := by
  have hsorted := PrefixTree.sorted_entries q t
  constructor
  · refine ⟨List.pairwise_map.2 hsorted, fun k v1 v2 => ?_⟩
    rw [List.mem_map]
    constructor
    · rintro ⟨⟨k, v⟩, hk, heq⟩
      cases heq
      obtain ⟨r, rfl, hr⟩ := PrefixTree.mem_entries.1 hk
      exact ⟨r, rfl, hr.symm, rfl, nofun⟩
    · rintro ⟨r, rfl, rfl, rfl, hne⟩
      obtain ⟨v, hv⟩ := Option.ne_none_iff_exists'.1 hne
      exact ⟨(q ++ r, v), PrefixTree.mem_entries.2 ⟨r, rfl, hv⟩, by rw [hv]⟩
  · refine ⟨List.pairwise_map.2 hsorted, fun k v1 v2 => ?_⟩
    rw [List.mem_map]
    constructor
    · rintro ⟨⟨k, v⟩, hk, heq⟩
      cases heq
      obtain ⟨r, rfl, hr⟩ := PrefixTree.mem_entries.1 hk
      exact ⟨r, rfl, rfl, hr.symm, nofun⟩
    · rintro ⟨r, rfl, rfl, rfl, hne⟩
      obtain ⟨v, hv⟩ := Option.ne_none_iff_exists'.1 hne.symm
      exact ⟨(q ++ r, v), PrefixTree.mem_entries.2 ⟨r, rfl, hv⟩, by rw [hv]⟩

end DiffsOf

/-! ## Visitors -/

variable {β γ σ : Type*}

/-- Visit one after the other, until the visitor says no. -/
def visitAll (f : β → σ → Bool × σ) : List β → σ → Bool × σ
  | [], s => (true, s)
  | x :: xs, s =>
    let r := f x s
    if r.1 then visitAll f xs r.2 else (false, r.2)

theorem visitAll_singleton (f : β → σ → Bool × σ) (x : β) (s : σ) : visitAll f [x] s = f x s := by
  rw [visitAll]
  rcases f x s with ⟨_ | _, s⟩ <;> rfl

/-- A visitor of other elements. -/
theorem visitAll_map (f : β → σ → Bool × σ) (g : γ → β) (xs : List γ) (st : σ) :
    visitAll f (xs.map g) st = visitAll (fun x => f (g x)) xs st := by
  induction xs generalizing st with
  | nil => rfl
  | cons x xs ih => rw [List.map_cons, visitAll, visitAll, ih]

/-- What is left after a part is visited unless the visitor said no. -/
theorem visitAll_append (f : β → σ → Bool × σ) (xs ys : List β) (s : σ) :
    visitAll f (xs ++ ys) s = if (visitAll f xs s).1 then visitAll f ys (visitAll f xs s).2 else visitAll f xs s := by
  induction xs generalizing s with
  | nil => rfl
  | cons x xs ih =>
    rw [List.cons_append, visitAll, visitAll]
    rcases f x s with ⟨_ | _, s⟩
    · rfl
    · exact ih s

end Lib
