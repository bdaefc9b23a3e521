/-
Tables of results (`HashMap::find` and `emplace`): what is looked up under a key is the result for an argument with
that key, so the arguments that are asked about may only share a key if they share the result.
-/
import Mathlib.Data.List.Basic

namespace Lib.Memo

variable {κ α β : Type*} [BEq κ]

/-- `emplace`: an entry there is stays. -/
def emplace (k : κ) (b : β) (m : List (κ × β)) : List (κ × β) :=
  if (m.lookup k).isSome then m else (k, b) :: m

variable [LawfulBEq κ]

/-- An entry is found where it was put, unless there was one. -/
theorem lookup_emplace_self (k : κ) (b : β) (m : List (κ × β)) : (emplace k b m).lookup k = some ((m.lookup k).getD b) := by
  unfold emplace
  cases hk : m.lookup k with
  | some v => simp [hk]
  | none => simp

/-- Every other entry is found where it was. -/
theorem lookup_emplace_of_ne {k j : κ} (h : j ≠ k) (b : β) (m : List (κ × β)) :
    (emplace k b m).lookup j = m.lookup j := by
  unfold emplace
  split
  · rfl
  · simp [List.lookup_cons, beq_eq_false_iff_ne.2 h]

/-- Every entry is a result for some argument with its key. -/
def Sound (R : α → β → Prop) (key : α → κ) (m : List (κ × β)) : Prop :=
  ∀ k b, m.lookup k = some b → ∃ a, key a = k ∧ R a b

namespace Sound

variable {R : α → β → Prop} {key : α → κ} {m : List (κ × β)}

theorem nil : Sound R key ([] : List (κ × β)) := fun _ _ h => nomatch h

/-- A new result may be put under its key. -/
theorem emplace (h : Sound R key m) {a : α} {b : β} (hab : R a b) : Sound R key (emplace (key a) b m) := by
  intro k b' hb'
  by_cases hk : k = key a
  · subst hk
    rw [lookup_emplace_self] at hb'
    cases hm : m.lookup (key a) with
    | none =>
      rw [hm] at hb'
      cases hb'
      exact ⟨a, rfl, hab⟩
    | some v =>
      rw [hm] at hb'
      cases hb'
      exact h _ _ hm
  · rw [lookup_emplace_of_ne hk] at hb'
    exact h _ _ hb'

end Sound

end Lib.Memo
