/-
Folds over lists of updates, each of which changes one key of a function and reads nothing but that key: what becomes of
a key is decided by the updates of that key alone, in their order.
-/
import Mathlib.Data.List.Nodup
import Mathlib.Logic.Function.Basic

namespace Lib

variable {α κ β : Type*} [DecidableEq κ]

/-- An update of one key, of what is there. -/
def updateAt (key : α → κ) (f : α → β → β) (t : κ → β) (a : α) : κ → β := Function.update t (key a) (f a (t (key a)))

theorem updateAt_apply (key : α → κ) (f : α → β → β) (t : κ → β) (a : α) (k : κ) :
    updateAt key f t a k = if key a = k then f a (t k) else t k := by
  unfold updateAt
  by_cases h : key a = k
  · subst h
    simp
  · rw [if_neg h, Function.update_of_ne (Ne.symm h)]

/-- Only the updates of a key matter for it. -/
theorem foldl_updateAt_apply (key : α → κ) (f : α → β → β) (l : List α) (t : κ → β) (k : κ) :
    l.foldl (updateAt key f) t k = (l.filter fun a => key a = k).foldl (fun b a => f a b) (t k) := by
  induction l generalizing t with
  | nil => rfl
  | cons a l ih =>
    rw [List.foldl_cons, ih, updateAt_apply]
    by_cases h : key a = k
    · simp [h]
    · simp [h]

/-- A fold that starts with nothing and puts a default there first. -/
theorem foldl_some_getD (g : β → α → β) (d : β) (l : List α) (o : Option β) :
    l.foldl (fun o a => some (g (o.getD d) a)) o = if l = [] then o else some (l.foldl g (o.getD d)) := by
  induction l generalizing o with
  | nil => rfl
  | cons a l ih =>
    rw [List.foldl_cons, ih, if_neg (List.cons_ne_nil a l)]
    split
    · next h => rw [h]; rfl
    · rfl

/-- Of lists made for distinct keys and joined, those entries that are about a key are the list that was made for it. -/
theorem filter_flatMap_key {ν γ : Type*} {key : γ → κ} {F : κ × ν → List γ} {L : List (κ × ν)}
    (hF : ∀ p ∈ L, ∀ c ∈ F p, key c = p.1) (hL : (L.map Prod.fst).Nodup) (k : κ) :
    (∀ v, (k, v) ∈ L → (L.flatMap F).filter (fun c => key c = k) = F (k, v)) ∧
      ((∀ v, (k, v) ∉ L) → (L.flatMap F).filter (fun c => key c = k) = []) := by
  induction L with
  | nil => simp
  | cons p L ih =>
    obtain ⟨hnot, hL⟩ := List.nodup_cons.1 hL
    obtain ⟨ih₁, ih₂⟩ := ih (fun q hq => hF q (List.mem_cons_of_mem p hq)) hL
    have hp := hF p List.mem_cons_self
    rw [List.flatMap_cons, List.filter_append]
    by_cases hk : p.1 = k
    · have hall : (F p).filter (fun c => key c = k) = F p := by
        rw [List.filter_eq_self]
        intro c hc
        simp [hp c hc, hk]
      have hnone : ∀ v, (k, v) ∉ L := by
        intro v hv
        exact hnot (List.mem_map.2 ⟨(k, v), hv, hk.symm⟩)
      rw [hall, ih₂ hnone, List.append_nil]
      constructor
      · intro v hv
        rcases List.mem_cons.1 hv with rfl | hv
        · rfl
        · exact absurd hv (hnone v)
      · intro h
        exact absurd (by rw [← hk]; exact List.mem_cons_self) (h p.2)
    · have hempty : (F p).filter (fun c => key c = k) = [] := by
        rw [List.filter_eq_nil_iff]
        intro c hc
        simp [hp c hc, hk]
      rw [hempty, List.nil_append]
      constructor
      · intro v hv
        rcases List.mem_cons.1 hv with rfl | hv
        · exact absurd rfl hk
        · exact ih₁ v hv
      · intro h
        exact ih₂ fun v hv => h v (List.mem_cons_of_mem p hv)

end Lib
