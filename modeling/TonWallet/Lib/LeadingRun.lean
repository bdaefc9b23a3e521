/-
The first index at which a property fails. A run of equal bits at the front of a list, the zeros at either end of a word and
the lexicographic order of two lists of bits are all told by such an index, and runs that are found piece by piece compose.
-/
import Mathlib.Data.BitVec
import Mathlib.Data.List.TakeWhile
import Mathlib.Data.Nat.Bitwise

namespace Lib.LeadingRun

/-- `c` is the first index below `n` at which `p` fails, or `n`. -/
structure Leading (p : Nat → Bool) (n c : Nat) : Prop where
  le : c ≤ n
  holds : ∀ k < c, p k = true
  stops : c < n → p c = false

section

variable {p q : Nat → Bool} {n c : Nat}

theorem Leading.unique {d : Nat} (hc : Leading p n c) (hd : Leading p n d) : c = d := by
  rcases lt_trichotomy c d with hlt | heq | hgt
  · have := hc.stops (hlt.trans_le hd.le)
    rw [hd.holds c hlt] at this
    cases this
  · exact heq
  · have := hd.stops (hgt.trans_le hc.le)
    rw [hc.holds d hgt] at this
    cases this

/-- An index found below some of the indices is found, also further on. -/
theorem Leading.extend {m : Nat} (h : Leading p n c) (hlt : c < n) (hle : n ≤ m) : Leading p m c :=
  ⟨(hlt.trans_le hle).le, h.holds, fun _ => h.stops hlt⟩

/-- Indices at which `p` holds go in front. -/
theorem Leading.add {a : Nat} (h : Leading (fun k => p (a + k)) n c) (hp : ∀ k < a, p k = true) : Leading p (a + n) (a + c) := by
  refine ⟨Nat.add_le_add_left h.le a, fun k hk => ?_, fun hlt => h.stops (by omega)⟩
  by_cases hlow : k < a
  · exact hp k hlow
  · have hhigh := h.holds (k - a) (by omega)
    rwa [Nat.add_sub_of_le (not_lt.1 hlow)] at hhigh

/-- It does not matter what holds from `n` on. -/
theorem Leading.congr {m : Nat} (h : Leading p n c) (hlt : c < m) (hle : m ≤ n) (hpq : ∀ k < m, p k = q k) : Leading q m c :=
  ⟨hlt.le, fun k hk => by rw [← hpq k (hk.trans hlt)]; exact h.holds k hk,
    fun _ => by rw [← hpq c hlt]; exact h.stops (hlt.trans_le hle)⟩

theorem Leading.all {m : Nat} (h : Leading p n c) (hle : m ≤ c) {k : Nat} (hk : k < m) : p k = true := h.holds k (by omega)

theorem leading_of_all (h : ∀ k < n, p k = true) : Leading p n n := ⟨le_refl n, h, fun hlt => absurd hlt (lt_irrefl n)⟩

/-- The run that `takeWhile` takes. -/
theorem leading_takeWhile (p : Nat → Bool) (n : Nat) : Leading p n ((List.range n).takeWhile p).length := by
  induction n with
  | zero => exact ⟨Nat.le_refl 0, fun k hk => absurd hk (Nat.not_lt_zero k), fun hlt => absurd hlt (lt_irrefl 0)⟩
  | succ n ih =>
    rw [List.range_succ, List.takeWhile_append, List.length_range]
    split_ifs with hall
    · rw [hall] at ih
      cases hp : p n with
      | true =>
        rw [List.takeWhile_cons_of_pos hp, List.takeWhile_nil, List.length_append, List.length_range, List.length_singleton]
        refine leading_of_all fun k hk => ?_
        rcases Nat.lt_succ_iff_lt_or_eq.1 hk with hlt | rfl
        · exact ih.holds k hlt
        · exact hp
      | false =>
        rw [List.takeWhile_cons_of_neg (by rw [hp]; exact Bool.false_ne_true), List.append_nil, List.length_range]
        exact ⟨Nat.le_succ n, ih.holds, fun _ => hp⟩
    · exact ih.extend (lt_of_le_of_ne ih.le hall) (Nat.le_succ n)

theorem leading_iff : Leading p n c ↔ ((List.range n).takeWhile p).length = c :=
  ⟨fun h => (leading_takeWhile p n).unique h, fun h => h ▸ leading_takeWhile p n⟩

/-- The run at the front of a list of bits. -/
theorem Leading.length_takeWhile {α : Type*} {f : Nat → α} {p : α → Bool} (h : Leading (fun k => p (f k)) n c) :
    (((List.range n).map f).takeWhile p).length = c := by
  rw [List.takeWhile_map, List.length_map]
  exact leading_iff.1 h

end

/-! ## Zeros of words -/

section

variable {w : Nat}

/-- The zeros above the highest bit that is set. -/
def leadingZeroes (v : BitVec w) : Nat := ((List.range w).takeWhile fun k => !v.getMsbD k).length

/-- The zeros below the lowest bit that is set. -/
def trailingZeroes (v : BitVec w) : Nat := ((List.range w).takeWhile fun k => !v.getLsbD k).length

theorem leading_leadingZeroes (v : BitVec w) : Leading (fun k => !v.getMsbD k) w (leadingZeroes v) := leading_takeWhile _ w

theorem leading_trailingZeroes (v : BitVec w) : Leading (fun k => !v.getLsbD k) w (trailingZeroes v) := leading_takeWhile _ w

theorem leadingZeroes_lt {v : BitVec w} (h : v ≠ 0) : leadingZeroes v < w := by
  by_contra hge
  refine h (BitVec.eq_of_getMsbD_eq fun k hk => ?_)
  have := (leading_leadingZeroes v).all (not_lt.1 hge) hk
  rw [Bool.not_eq_true'] at this
  exact this.trans BitVec.getMsbD_zero.symm

theorem trailingZeroes_lt {v : BitVec w} (h : v ≠ 0) : trailingZeroes v < w := by
  by_contra hge
  refine h (BitVec.eq_of_getLsbD_eq fun k hk => ?_)
  have := (leading_trailingZeroes v).all (not_lt.1 hge) hk
  rw [Bool.not_eq_true'] at this
  exact this.trans BitVec.getLsbD_zero.symm

/-- The highest bit that differs decides. -/
theorem lt_of_first {x y : BitVec w} {c : Nat} (hlt : c < w) (hsame : ∀ k < c, x.getMsbD k = y.getMsbD k)
    (hx : x.getMsbD c = false) (hy : y.getMsbD c = true) : x < y := by
  rw [BitVec.getMsbD_eq_getLsbD, decide_eq_true hlt, Bool.true_and] at hx hy
  refine BitVec.lt_def.2 (Nat.lt_of_testBit (w - 1 - c) hx hy fun j hj => ?_)
  rw [BitVec.testBit_toNat, BitVec.testBit_toNat]
  by_cases hjw : j < w
  · have := hsame (w - 1 - j) (by omega)
    rwa [BitVec.getMsbD_eq_getLsbD, BitVec.getMsbD_eq_getLsbD, decide_eq_true (by omega), Bool.true_and, Bool.true_and,
      show w - 1 - (w - 1 - j) = j by omega] at this
  · rw [BitVec.getLsbD_of_ge x j (not_lt.1 hjw), BitVec.getLsbD_of_ge y j (not_lt.1 hjw)]

theorem lt_iff_of_leading {x y : BitVec w} {c : Nat} (h : Leading (fun k => x.getMsbD k == y.getMsbD k) w c) (hlt : c < w) :
    x < y ↔ y.getMsbD c = true := by
  have hsame : ∀ k < c, x.getMsbD k = y.getMsbD k := fun k hk => eq_of_beq (h.holds k hk)
  have hdiff := h.stops hlt
  cases hy : y.getMsbD c with
  | true =>
    cases hx : x.getMsbD c with
    | true =>
      rw [hx, hy] at hdiff
      cases hdiff
    | false => exact iff_of_true (lt_of_first hlt hsame hx hy) rfl
  | false =>
    cases hx : x.getMsbD c with
    | true =>
      have hgt := lt_of_first hlt (fun k hk => (hsame k hk).symm) hy hx
      exact iff_of_false (BitVec.lt_asymm hgt) Bool.false_ne_true
    | false =>
      rw [hx, hy] at hdiff
      cases hdiff

end

/-! ## The lexicographic order of bits -/

/-- The sign of the comparison of two lists of bits; a list is below those it begins. -/
def lexcmp : List Bool → List Bool → Int
  | [], [] => 0
  | [], _ :: _ => -1
  | _ :: _, [] => 1
  | x :: xs, y :: ys => if x = y then lexcmp xs ys else if y then -1 else 1

theorem Leading.lexcmp {f g : Nat → Bool} {n c : Nat} (h : Leading (fun k => f k == g k) n c) :
    lexcmp ((List.range n).map f) ((List.range n).map g) = if c = n then 0 else if g c then -1 else 1 := by
  induction n generalizing f g c with
  | zero => rw [if_pos (Nat.le_zero.1 h.le), List.range_zero, List.map_nil, List.map_nil, LeadingRun.lexcmp]
  | succ n ih =>
    rw [List.range_succ_eq_map, List.map_cons, List.map_cons, List.map_map, List.map_map, LeadingRun.lexcmp]
    cases c with
    | zero =>
      have hdiff := h.stops (Nat.succ_pos n)
      rw [if_neg (ne_of_beq_false hdiff), if_neg (Nat.succ_ne_zero n).symm]
    | succ c =>
      have hsame := h.holds 0 (Nat.succ_pos c)
      rw [if_pos (eq_of_beq hsame), ih (f := f ∘ Nat.succ) (g := g ∘ Nat.succ) (c := c)
        ⟨Nat.succ_le_succ_iff.1 h.le, fun k hk => h.holds (k + 1) (Nat.succ_lt_succ hk), fun hlt => h.stops (Nat.succ_lt_succ hlt)⟩]
      simp only [Nat.add_right_cancel_iff, Function.comp_apply, Nat.succ_eq_add_one]

/-- Lists of different lengths are compared by the shorter of the lengths first. -/
theorem lexcmp_take (xs ys : List Bool) :
    lexcmp xs ys =
      if lexcmp (xs.take (min xs.length ys.length)) (ys.take (min xs.length ys.length)) ≠ 0 ∨ xs.length = ys.length then
        lexcmp (xs.take (min xs.length ys.length)) (ys.take (min xs.length ys.length))
      else if xs.length < ys.length then -1 else 1 := by
  induction xs generalizing ys with
  | nil => cases ys <;> simp [lexcmp]
  | cons x xs ih =>
    cases ys with
    | nil => simp [lexcmp]
    | cons y ys =>
      rw [List.length_cons, List.length_cons, Nat.succ_min_succ, List.take_succ_cons, List.take_succ_cons, lexcmp, lexcmp]
      by_cases hxy : x = y
      · rw [if_pos hxy, if_pos hxy, ih]
        simp only [Nat.add_right_cancel_iff, Nat.add_lt_add_iff_right]
      · have hne : (if y = true then (-1 : Int) else 1) ≠ 0 := by split_ifs <;> decide
        rw [if_neg hxy, if_neg hxy, if_pos (Or.inl hne)]

end Lib.LeadingRun
