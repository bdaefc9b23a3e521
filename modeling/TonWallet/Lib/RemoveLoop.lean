/-
A loop over the indices of a list that removes elements of the list on its way: after a removal it stays
where it is and the end moves one to the front. It removes exactly the elements that qualify.
-/
import Mathlib.Data.List.Basic

namespace Lib

variable {α : Type*}

/-- The loop with some rounds to go, from an index on, with whether it has removed anything. -/
def removeLoop (remove : α → Bool) : Nat → Nat → List α → Bool → List α × Bool
  | 0, _, l, changed => (l, changed)
  | n + 1, a, l, changed => match l[a]? with
    | none => (l, changed)
    | some x =>
      if remove x then removeLoop remove n a (l.eraseIdx a) true else removeLoop remove n (a + 1) l changed

/-- What is before the index stays, and the rest keeps what does not qualify. -/
theorem removeLoop_eq (remove : α → Bool) (n : Nat) (front back : List α) (changed : Bool) (h : back.length = n) :
    removeLoop remove n front.length (front ++ back) changed =
      (front ++ back.filter fun x => !remove x, changed || back.any remove) := by
  induction n generalizing front back changed with
  | zero =>
    cases List.eq_nil_of_length_eq_zero h
    simp [removeLoop]
  | succ n ih =>
    cases back with
    | nil => cases h
    | cons x back =>
      have hlen : back.length = n := by simpa using h
      have hx : (front ++ x :: back)[front.length]? = some x := by simp
      rw [removeLoop, hx]
      by_cases hr : remove x = true
      · have herase : (front ++ x :: back).eraseIdx front.length = front ++ back := by
          rw [List.eraseIdx_append_of_length_le (Nat.le_refl _)]
          simp
        simp only [hr, if_true, herase]
        rw [ih front back true hlen]
        simp [hr]
      · have hr : remove x = false := by simpa using hr
        have hsnoc : front ++ x :: back = (front ++ [x]) ++ back := by simp
        have hidx : front.length + 1 = (front ++ [x]).length := by simp
        simp only [hr, Bool.false_eq_true, if_false]
        rw [hsnoc, hidx, ih (front ++ [x]) back changed hlen]
        simp [hr]

/-- The loop over the whole list. -/
def removeAll (remove : α → Bool) (l : List α) : List α × Bool := removeLoop remove l.length 0 l false

theorem removeAll_eq (remove : α → Bool) (l : List α) :
    removeAll remove l = (l.filter fun x => !remove x, l.any remove) := by
  simpa [removeAll] using removeLoop_eq remove l.length [] l false rfl

end Lib
