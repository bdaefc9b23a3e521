/-
Lists of parts in one list, each part with a terminator behind it, or with a separator between them. A prefix of
terminated parts that stops behind a terminator is the list of the first parts; every other prefix stops in a part.
-/
import Mathlib.Data.List.Infix

namespace Lib

variable {α : Type*} {sep : α}

/-! ## Where a separator is -/

/-- Where a separator is the first time splits a list in one way only. -/
theorem append_sep_inj {a b x y : List α} (ha : sep ∉ a) (hb : sep ∉ b) (h : a ++ sep :: x = b ++ sep :: y) :
    a = b ∧ x = y := by
  induction a generalizing b with
  | nil =>
    cases b with
    | nil => exact ⟨rfl, by simpa using h⟩
    | cons c b =>
      obtain ⟨rfl, -⟩ := List.cons.inj h
      exact absurd List.mem_cons_self hb
  | cons d a ih =>
    cases b with
    | nil =>
      obtain ⟨rfl, -⟩ := List.cons.inj h
      exact absurd List.mem_cons_self ha
    | cons c b =>
      obtain ⟨rfl, htail⟩ := List.cons.inj h
      obtain ⟨rfl, hxy⟩ := ih (fun hm => ha (List.mem_cons_of_mem _ hm)) (fun hm => hb (List.mem_cons_of_mem _ hm)) htail
      exact ⟨rfl, hxy⟩

section Rfind

variable [DecidableEq α]

/-- Where a value is the last time. -/
def rfind (c : α) (s : List α) : Option Nat := (s.reverse.idxOf? c).map fun i => s.length - 1 - i

theorem rfind_eq_none {c : α} {s : List α} (h : c ∉ s) : rfind c s = none := by
  have hnone : s.reverse.idxOf? c = none := by simpa using h
  rw [rfind, hnone, Option.map_none]

theorem rfind_append (c : α) (a b : List α) (h : c ∉ b) : rfind c (a ++ c :: b) = some a.length := by
  have hidx : (a ++ c :: b).reverse.idxOf? c = some b.length := by
    have hrev : (a ++ c :: b).reverse = b.reverse ++ c :: a.reverse := by simp
    have hb : b.reverse.idxOf? c = none := by simpa using h
    rw [hrev, List.idxOf?, List.findIdx?_append]
    rw [List.idxOf?] at hb
    simp [hb, List.findIdx?_cons]
  rw [rfind, hidx, Option.map_some]
  simp

end Rfind

/-! ## Parts with a separator between them -/

theorem intercalate_append {xs ys : List (List α)} (hxs : xs ≠ []) (hys : ys ≠ []) :
    [sep].intercalate (xs ++ ys) = [sep].intercalate xs ++ sep :: [sep].intercalate ys := by
  induction xs with
  | nil => exact absurd rfl hxs
  | cons x xs ih =>
    cases xs with
    | nil =>
      rw [List.singleton_append, List.intercalate_cons_of_ne_nil hys, List.intercalate_singleton]
      simp
    | cons x' xs =>
      have hne : x' :: xs ≠ [] := List.cons_ne_nil x' xs
      have hne' : x' :: xs ++ ys ≠ [] := by simp
      rw [List.cons_append, List.intercalate_cons_of_ne_nil hne', ih hne, List.intercalate_cons_of_ne_nil hne]
      simp

theorem intercalate_cons_eq (part : List α) (parts : List (List α)) :
    [sep].intercalate (part :: parts) = part ++ parts.flatMap (sep :: ·) := by
  induction parts generalizing part with
  | nil => simp
  | cons next parts ih =>
    rw [List.intercalate_cons_of_ne_nil (List.cons_ne_nil next parts), ih next]
    simp

/-- A part in the joined list, with what is behind it. -/
theorem intercalate_around (sep : α) (before : List (List α)) (part : List α) (after : List (List α)) :
    ∃ front, [sep].intercalate (before ++ part :: after) = front ++ part ++ after.flatMap (sep :: ·) := by
  by_cases h : before = []
  · subst h
    exact ⟨[], intercalate_cons_eq part after⟩
  · refine ⟨[sep].intercalate before ++ [sep], ?_⟩
    rw [intercalate_append h (List.cons_ne_nil part after), intercalate_cons_eq]
    simp

/-- Each part has room in the joined list when none is empty. -/
theorem length_le_intercalate (sep : α) {parts : List (List α)} (h : ∀ part ∈ parts, part ≠ []) :
    parts.length ≤ ([sep].intercalate parts).length := by
  induction parts with
  | nil => simp
  | cons part parts ih =>
    have hpart := List.length_pos_of_ne_nil (h part List.mem_cons_self)
    have hparts := ih fun p hp => h p (List.mem_cons_of_mem _ hp)
    cases parts with
    | nil =>
      rw [List.intercalate_singleton]
      exact hpart
    | cons part' parts =>
      rw [List.intercalate_cons_of_ne_nil (by simp)]
      simp only [List.length_cons, List.length_append] at *
      omega

theorem intercalate_ne_nil {parts : List (List α)} (hne : parts ≠ []) (h : ∀ part ∈ parts, part ≠ []) :
    [sep].intercalate parts ≠ [] := by
  intro hnil
  have hlen := length_le_intercalate sep h
  rw [hnil, List.length_nil, Nat.le_zero, List.length_eq_zero_iff] at hlen
  exact hne hlen

theorem mem_intercalate {part : List α} {parts : List (List α)} (hpart : part ∈ parts) {c : α} (hc : c ∈ part) :
    c ∈ [sep].intercalate parts := by
  obtain ⟨before, after, rfl⟩ := List.append_of_mem hpart
  have hback : c ∈ [sep].intercalate (part :: after) := by
    by_cases hafter : after = []
    · subst hafter
      simpa using hc
    · rw [List.intercalate_cons_of_ne_nil hafter]
      simp [hc]
  by_cases hbefore : before = []
  · subst hbefore
    exact hback
  · rw [intercalate_append hbefore (by simp)]
    exact List.mem_append_right _ (List.mem_cons_of_mem _ hback)

section SplitOn

variable [DecidableEq α]

theorem not_mem_of_mem_splitOn {s part : List α} (h : part ∈ s.splitOn sep) : sep ∉ part := by
  induction s generalizing part with
  | nil =>
    cases List.mem_singleton.1 (by simpa using h)
    simp
  | cons c s ih =>
    rw [List.splitOn_cons_eq_if_modifyHead] at h
    split at h
    · rcases List.mem_cons.1 h with rfl | hmem
      · simp
      · exact ih hmem
    · next hc =>
      cases hsplit : s.splitOn sep with
      | nil => exact absurd hsplit (List.splitOn_ne_nil sep s)
      | cons first rest =>
        rw [hsplit] at h
        rcases List.mem_cons.1 h with rfl | hmem
        · have hfirst : sep ∉ first := ih (by rw [hsplit]; exact List.mem_cons_self)
          simp only [beq_iff_eq] at hc
          simpa [hfirst] using Ne.symm hc
        · exact ih (by rw [hsplit]; exact List.mem_cons_of_mem _ hmem)

theorem mem_of_mem_splitOn {s part : List α} (h : part ∈ s.splitOn sep) {c : α} (hc : c ∈ part) : c ∈ s := by
  have hjoin : [sep].intercalate (s.splitOn sep) = s := List.intercalate_splitOn sep
  rw [← hjoin]
  exact mem_intercalate h hc

end SplitOn

/-! ## Parts with a terminator behind each -/

/-- The parts, each with the terminator behind it. -/
def terminated (sep : α) : List (List α) → List α
  | [] => []
  | part :: parts => part ++ sep :: terminated sep parts

@[simp] theorem terminated_nil : terminated sep ([] : List (List α)) = [] := rfl

@[simp] theorem terminated_cons (part : List α) (parts : List (List α)) :
    terminated sep (part :: parts) = part ++ sep :: terminated sep parts := rfl

@[simp] theorem terminated_append (xs ys : List (List α)) :
    terminated sep (xs ++ ys) = terminated sep xs ++ terminated sep ys := by
  induction xs with
  | nil => rfl
  | cons x xs ih => simp [ih]

theorem terminated_eq_intercalate {parts : List (List α)} (hne : parts ≠ []) :
    terminated sep parts = [sep].intercalate parts ++ [sep] := by
  induction parts with
  | nil => exact absurd rfl hne
  | cons part parts ih =>
    by_cases hparts : parts = []
    · subst hparts
      simp
    · rw [terminated_cons, ih hparts, List.intercalate_cons_of_ne_nil hparts]
      simp

/-- Terminated parts begin with others exactly when the parts do. -/
theorem terminated_prefix_iff {xs ys : List (List α)} (hxs : ∀ x ∈ xs, sep ∉ x) (hys : ∀ y ∈ ys, sep ∉ y) :
    terminated sep xs <+: terminated sep ys ↔ xs <+: ys := by
  constructor
  · intro h
    induction xs generalizing ys with
    | nil => exact List.nil_prefix
    | cons x xs ih =>
      obtain ⟨t, ht⟩ := h
      cases ys with
      | nil => simp at ht
      | cons y ys =>
        rw [terminated_cons, terminated_cons, List.append_assoc, List.cons_append] at ht
        obtain ⟨rfl, htail⟩ := append_sep_inj (hxs x List.mem_cons_self) (hys y List.mem_cons_self) ht
        have hrest := ih (fun z hz => hxs z (List.mem_cons_of_mem _ hz))
          (fun z hz => hys z (List.mem_cons_of_mem _ hz)) ⟨t, htail⟩
        exact List.cons_prefix_cons.2 ⟨rfl, hrest⟩
  · rintro ⟨t, rfl⟩
    exact ⟨terminated sep t, (terminated_append xs t).symm⟩

/-- The first elements of terminated parts: some whole parts and a piece of the next one. -/
theorem take_terminated {parts : List (List α)} {k : Nat} (h : k < (terminated sep parts).length) :
    ∃ xs part ys, ∃ i ≤ part.length, parts = xs ++ part :: ys ∧ k = (terminated sep xs).length + i ∧
      (terminated sep parts).take k = terminated sep xs ++ part.take i := by
  induction parts generalizing k with
  | nil => simp at h
  | cons part parts ih =>
    rw [terminated_cons] at h
    by_cases hk : k ≤ part.length
    · refine ⟨[], part, parts, k, hk, rfl, by simp, ?_⟩
      rw [terminated_cons, List.take_append_of_le_length hk]
      rfl
    · obtain ⟨m, rfl⟩ : ∃ m, k = part.length + 1 + m := ⟨k - (part.length + 1), by omega⟩
      have hm : m < (terminated sep parts).length := by simp at h; omega
      obtain ⟨xs, next, ys, i, hi, hparts, hlen, htake⟩ := ih hm
      refine ⟨part :: xs, next, ys, i, hi, by rw [hparts, List.cons_append], ?_, ?_⟩
      · rw [terminated_cons, List.length_append, List.length_cons]
        omega
      · have hsplit : terminated sep (part :: parts) = (part ++ [sep]) ++ terminated sep parts := by simp
        have hshort : part.length + 1 = (part ++ [sep]).length := by simp
        rw [hsplit, hshort, List.take_length_add_append, htake]
        simp

end Lib
