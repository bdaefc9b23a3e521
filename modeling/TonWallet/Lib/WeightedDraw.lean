/-
Drawing by weight without putting back: members stand on a line, each as wide as its weight, and a position on the line is the
member that covers it. Members that are drawn leave the line; a position on what is left becomes one on the whole line when it
is moved past the holes in front of it.
-/
import Mathlib.Data.List.Basic
import Mathlib.Data.List.Nodup

namespace Lib

/-! ## Lines -/

/-- Members with their weights, in the order in which they stand. -/
abbrev Line (ι : Type*) := List (ι × Nat)

variable {ι : Type*}

namespace Line

/-- How long a line is. -/
def total (line : Line ι) : Nat := line.foldr (fun m n => m.2 + n) 0

/-- The member that covers a position. -/
def memberAt : Line ι → Nat → Option ι
  | [], _ => none
  | (i, w) :: line, p => if p < w then some i else memberAt line (p - w)

@[simp] theorem total_nil : total ([] : Line ι) = 0 := rfl

@[simp] theorem total_cons (m : ι × Nat) (line : Line ι) : total (m :: line) = m.2 + total line := rfl

/-- Every position of a line is covered. -/
theorem memberAt_of_lt {line : Line ι} {p : Nat} (h : p < line.total) :
    ∃ i w, memberAt line p = some i ∧ (i, w) ∈ line := by
  induction line generalizing p with
  | nil => exact absurd h (Nat.not_lt_zero p)
  | cons m line ih =>
    obtain ⟨i, w⟩ := m
    rw [memberAt]
    split
    · exact ⟨i, w, rfl, List.mem_cons_self⟩
    · next hp =>
      rw [total_cons] at h
      obtain ⟨j, w', hj, hmem⟩ := ih (p := p - w) (by omega)
      exact ⟨j, w', hj, List.mem_cons_of_mem _ hmem⟩

theorem lt_total_of_memberAt {line : Line ι} {p : Nat} {i : ι} (h : memberAt line p = some i) : p < line.total := by
  induction line generalizing p with
  | nil => cases h
  | cons m line ih =>
    rw [memberAt] at h
    rw [total_cons]
    split at h
    · omega
    · have hlt := ih h
      omega

/-- A line with members of positive weight is not empty. -/
theorem total_pos {line : Line ι} (hpos : ∀ m ∈ line, 0 < m.2) (hlen : 0 < line.length) : 0 < line.total := by
  cases line with
  | nil => exact absurd hlen (Nat.lt_irrefl 0)
  | cons m line =>
    have hm := hpos m List.mem_cons_self
    rw [total_cons]
    omega

/-! ## Holes -/

variable [DecidableEq ι]

/-- The line without one member. -/
def leave (line : Line ι) (i : ι) : Line ι := line.filter fun m => m.1 ≠ i

/-- What is left of a line. -/
def without (line : Line ι) (drawn : List ι) : Line ι := line.filter fun m => m.1 ∉ drawn

/-- Where the members that are drawn have stood on a line that begins at `start`: positions and widths. -/
def holes (drawn : List ι) : Nat → Line ι → List (Nat × Nat)
  | _, [] => []
  | start, (i, w) :: line =>
    if i ∈ drawn then (start, w) :: holes drawn (start + w) line else holes drawn (start + w) line

/-- A position is moved past the holes, up to the first that is behind it. -/
def skipHoles : List (Nat × Nat) → Nat → Nat
  | [], p => p
  | (start, w) :: hs, p => if p < start then p else skipHoles hs (p + w)

theorem le_skipHoles (hs : List (Nat × Nat)) (p : Nat) : p ≤ skipHoles hs p := by
  induction hs generalizing p with
  | nil => exact Nat.le_refl p
  | cons h hs ih =>
    rw [skipHoles]
    split
    · exact Nat.le_refl p
    · exact Nat.le_trans (Nat.le_add_right p h.2) (ih _)

theorem le_of_mem_holes {drawn : List ι} {start : Nat} {line : Line ι} {h : Nat × Nat}
    (hmem : h ∈ holes drawn start line) : start ≤ h.1 := by
  induction line generalizing start with
  | nil => cases hmem
  | cons m line ih =>
    obtain ⟨i, w⟩ := m
    rw [holes] at hmem
    split at hmem
    · rcases List.mem_cons.1 hmem with rfl | hmem
      · exact Nat.le_refl _
      · exact Nat.le_trans (Nat.le_add_right _ _) (ih hmem)
    · exact Nat.le_trans (Nat.le_add_right _ _) (ih hmem)

/-- Holes that are all behind a position do not move it. -/
theorem skipHoles_of_lt {hs : List (Nat × Nat)} {p : Nat} (h : ∀ hole ∈ hs, p < hole.1) : skipHoles hs p = p := by
  cases hs with
  | nil => rfl
  | cons hole hs => exact if_pos (h hole List.mem_cons_self)

/-- A position on what is left is the member at the moved position on the whole line. -/
theorem memberAt_skipHoles (drawn : List ι) (start : Nat) (line : Line ι) (p : Nat) :
    memberAt line (skipHoles (holes drawn start line) (start + p) - start) = memberAt (without line drawn) p := by
  induction line generalizing start p with
  | nil => rfl
  | cons m line ih =>
    obtain ⟨i, w⟩ := m
    have hrest := ih (start + w)
    by_cases hi : i ∈ drawn
    · have hwithout : without ((i, w) :: line) drawn = without line drawn := by
        simp [without, hi]
      have hge := le_skipHoles (holes drawn (start + w) line) (start + w + p)
      rw [hwithout, ← hrest p, holes, if_pos hi, skipHoles, if_neg (by omega), show start + p + w = start + w + p by omega,
        memberAt, if_neg (by omega)]
      congr 1
      omega
    · have hwithout : without ((i, w) :: line) drawn = (i, w) :: without line drawn := by
        simp [without, hi]
      rw [hwithout, holes, if_neg hi, memberAt, memberAt]
      by_cases hp : p < w
      · have hstay : skipHoles (holes drawn (start + w) line) (start + p) = start + p :=
          skipHoles_of_lt fun hole hmem => Nat.lt_of_lt_of_le (by omega) (le_of_mem_holes hmem)
        rw [hstay, if_pos hp, if_pos (by omega)]
      · have hge := le_skipHoles (holes drawn (start + w) line) (start + p)
        rw [if_neg hp, if_neg (by omega), ← hrest (p - w), show start + w + (p - w) = start + p by omega]
        congr 1
        omega

/-- What is left and the holes are all of the line. -/
theorem total_holes (drawn : List ι) (start : Nat) (line : Line ι) :
    (holes drawn start line).foldr (fun hole n => hole.2 + n) 0 + (without line drawn).total = line.total := by
  induction line generalizing start with
  | nil => rfl
  | cons m line ih =>
    obtain ⟨i, w⟩ := m
    have hrest := ih (start + w)
    rw [holes, total_cons]
    split
    · next hi =>
      have hwithout : without ((i, w) :: line) drawn = without line drawn := by
        simp [without, hi]
      rw [hwithout, List.foldr_cons]
      omega
    · next hi =>
      have hwithout : without ((i, w) :: line) drawn = (i, w) :: without line drawn := by
        simp [without, hi]
      rw [hwithout, total_cons]
      omega

/-- A position on what is left stays on the line. -/
theorem skipHoles_lt {drawn : List ι} {start : Nat} {line : Line ι} {p : Nat} (h : p < (without line drawn).total) :
    skipHoles (holes drawn start line) (start + p) < start + line.total := by
  obtain ⟨i, w, hi, -⟩ := memberAt_of_lt h
  rw [← memberAt_skipHoles drawn start line p] at hi
  have hlt := lt_total_of_memberAt hi
  omega

/-! ## Drawing -/

/-- One member of a line of different members. -/
theorem leave_of_mem {line : Line ι} {i : ι} {w : Nat} (hnodup : (line.map Prod.fst).Nodup) (hmem : (i, w) ∈ line) :
    line.total = w + (leave line i).total ∧ line.length = (leave line i).length + 1 := by
  induction line with
  | nil => cases hmem
  | cons m line ih =>
    obtain ⟨hnot, hnodup⟩ := List.nodup_cons.1 hnodup
    rcases List.mem_cons.1 hmem with rfl | hmem
    · have hall : leave ((i, w) :: line) i = line := by
        rw [leave, List.filter_cons_of_neg (by simp)]
        refine List.filter_eq_self.2 fun m hm => decide_eq_true fun he => hnot ?_
        exact List.mem_map.2 ⟨m, hm, he⟩
      rw [hall]
      exact ⟨rfl, rfl⟩
    · have hne : m.1 ≠ i := fun he => hnot (List.mem_map.2 ⟨_, hmem, he.symm⟩)
      obtain ⟨htotal, hlen⟩ := ih hnodup hmem
      have hcons : leave (m :: line) i = m :: leave line i := List.filter_cons_of_pos (by simpa using hne)
      rw [hcons, total_cons, total_cons, List.length_cons, List.length_cons]
      omega

theorem without_append (line : Line ι) (drawn : List ι) (i : ι) :
    without line (drawn ++ [i]) = leave (without line drawn) i := by
  rw [without, leave, without, List.filter_filter]
  refine List.filter_congr fun m _ => ?_
  simp [and_comm]

/-- A member that is drawn leaves what is left. -/
theorem without_drawn {line : Line ι} {drawn : List ι} {i : ι} {w : Nat} (hnodup : (line.map Prod.fst).Nodup)
    (hmem : (i, w) ∈ without line drawn) : (without line drawn).total = w + (without line (drawn ++ [i])).total ∧
      (without line drawn).length = (without line (drawn ++ [i])).length + 1 := by
  rw [without_append]
  exact leave_of_mem (hnodup.sublist (List.filter_sublist.map _)) hmem

/-- So many members are drawn, each at a position that `next` gives on the line that the others have left. -/
def draws {σ : Type*} (next : σ → Nat → Nat × σ) : Nat → σ → Line ι → List ι
  | 0, _, _ => []
  | count + 1, s, line =>
    let r := next s line.total
    match memberAt line r.1 with
    | some i => i :: draws next count r.2 (leave line i)
    | none => []

end Line

end Lib
