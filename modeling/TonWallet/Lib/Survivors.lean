/-
A loop over a list that marks every element that another one covers, as long as that one is not marked itself. What is
left unmarked covers the same as the list did, and no two elements of it cover each other.
-/
import Mathlib.Data.Fintype.Basic
import Mathlib.Data.List.FinRange
import Mathlib.Order.Defs.Unbundled

namespace Lib

variable {α : Type*} (covers : α → α → Bool) (list : List α)

/-- The element at `i` is marked when another one that is not marked covers it. -/
def markStep (mark : Fin list.length → Bool) (i : Fin list.length) : Fin list.length → Bool :=
  if ∃ j, j ≠ i ∧ mark j = false ∧ covers (list.get j) (list.get i) then Function.update mark i true else mark

def marks : Fin list.length → Bool := (List.finRange list.length).foldl (markStep covers list) fun _ => false

/-- The elements that are left, in their order. -/
def survivors : List α := ((List.finRange list.length).filter fun i => !marks covers list i).map list.get

/-! ## What the marks say -/

/-- The elements of `done` have been looked at. -/
structure Marked (done : List (Fin list.length)) (mark : Fin list.length → Bool) : Prop where
  covered : ∀ i, mark i = true → ∃ j, mark j = false ∧ covers (list.get j) (list.get i)
  apart : ∀ i ∈ done, mark i = false → ∀ j, j ≠ i → mark j = false → ¬covers (list.get j) (list.get i)

variable {covers list}

theorem Marked.step (htrans : ∀ x y z, covers x y → covers y z → covers x z) {done : List (Fin list.length)}
    {mark : Fin list.length → Bool} (h : Marked covers list done mark) (i : Fin list.length) :
    Marked covers list (done ++ [i]) (markStep covers list mark i) := by
  unfold markStep
  split
  · next hcovered =>
    obtain ⟨j, hji, hj, hcovers⟩ := hcovered
    have hsame : ∀ k, Function.update mark i true k = false → k ≠ i ∧ mark k = false := by
      intro k hk
      by_cases hki : k = i
      · rw [hki, Function.update_self] at hk
        cases hk
      · rw [Function.update_of_ne hki] at hk
        exact ⟨hki, hk⟩
    have hj' : Function.update mark i true j = false := by rw [Function.update_of_ne hji, hj]
    constructor
    · intro k hk
      by_cases hki : k = i
      · exact ⟨j, hj', hki ▸ hcovers⟩
      · rw [Function.update_of_ne hki] at hk
        obtain ⟨l, hl, hlk⟩ := h.covered k hk
        -- the witness may be the one that is marked now: what covers it is a witness as well
        by_cases hli : l = i
        · exact ⟨j, hj', htrans _ _ _ hcovers (hli ▸ hlk)⟩
        · exact ⟨l, by rw [Function.update_of_ne hli, hl], hlk⟩
    · intro k hk hkfree l hlk hl
      obtain ⟨hki, hkfree⟩ := hsame k hkfree
      rw [List.mem_append, List.mem_singleton, or_iff_left hki] at hk
      exact h.apart k hk hkfree l hlk (hsame l hl).2
  · next hfree =>
    refine ⟨h.covered, ?_⟩
    intro k hk hkfree l hlk hl
    rw [List.mem_append, List.mem_singleton] at hk
    rcases hk with hk | rfl
    · exact h.apart k hk hkfree l hlk hl
    · exact fun hcovers => hfree ⟨l, hlk, hl, hcovers⟩

theorem Marked.run (htrans : ∀ x y z, covers x y → covers y z → covers x z) (todo : List (Fin list.length))
    {done : List (Fin list.length)} {mark : Fin list.length → Bool} (h : Marked covers list done mark) :
    Marked covers list (done ++ todo) (todo.foldl (markStep covers list) mark) := by
  induction todo generalizing done mark with
  | nil => simpa using h
  | cons i todo ih =>
    have hrest := ih (h.step htrans i)
    rwa [List.append_assoc] at hrest

theorem marked_marks (htrans : ∀ x y z, covers x y → covers y z → covers x z) :
    Marked covers list (List.finRange list.length) (marks covers list) := by
  have hstart : Marked covers list [] fun _ => false := ⟨nofun, nofun⟩
  exact hstart.run htrans (List.finRange list.length)

/-! ## What is left -/

theorem mem_survivors {x : α} : x ∈ survivors covers list ↔ ∃ i, marks covers list i = false ∧ list.get i = x := by
  simp [survivors]

theorem survivors_sublist : (survivors covers list).Sublist list := by
  have hsub := (List.filter_sublist (p := fun i => !marks covers list i) (l := List.finRange list.length)).map list.get
  rwa [List.map_get_finRange] at hsub

/-- Whatever the list covers is covered by what is left. -/
theorem exists_survivor (hrefl : ∀ x, covers x x) (htrans : ∀ x y z, covers x y → covers y z → covers x z) {x : α}
    (hx : x ∈ list) : ∃ y ∈ survivors covers list, covers y x := by
  obtain ⟨i, rfl⟩ := List.get_of_mem hx
  cases hi : marks covers list i with
  | false => exact ⟨_, mem_survivors.2 ⟨i, hi, rfl⟩, hrefl _⟩
  | true =>
    obtain ⟨j, hj, hcovers⟩ := (marked_marks htrans).covered i hi
    exact ⟨_, mem_survivors.2 ⟨j, hj, rfl⟩, hcovers⟩

/-- No two elements cover each other. -/
def Apart (covers : α → α → Bool) (list : List α) : Prop := list.Pairwise fun x y => ¬covers x y ∧ ¬covers y x

theorem apart_survivors (htrans : ∀ x y z, covers x y → covers y z → covers x z) : Apart covers (survivors covers list) := by
  rw [Apart, survivors, List.pairwise_map, List.pairwise_filter]
  refine (List.nodup_finRange list.length).imp ?_
  intro i j hij hi hj
  rw [Bool.not_eq_true'] at hi hj
  exact ⟨(marked_marks htrans).apart j (List.mem_finRange j) hj i hij hi,
    (marked_marks htrans).apart i (List.mem_finRange i) hi j (Ne.symm hij) hj⟩

/-- Of elements that do not cover each other all are left. -/
theorem survivors_of_apart (htrans : ∀ x y z, covers x y → covers y z → covers x z) (h : Apart covers list) :
    survivors covers list = list := by
  have hnone : ∀ i, marks covers list i = false := by
    intro i
    rw [← Bool.not_eq_true]
    intro hi
    obtain ⟨j, hj, hcovers⟩ := (marked_marks htrans).covered i hi
    have hne : j ≠ i := by
      rintro rfl
      cases hi.symm.trans hj
    rw [Apart, List.pairwise_iff_get] at h
    rcases lt_or_gt_of_ne hne with hlt | hlt
    · exact (h j i hlt).1 hcovers
    · exact (h i j hlt).2 hcovers
  rw [survivors, List.filter_eq_self.2 fun i _ => by rw [hnone i]; rfl, List.map_get_finRange]

end Lib
