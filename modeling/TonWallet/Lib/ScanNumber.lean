/-
Numbers in a text as the conversions of `scanf` read them: blanks, a sign, the mark of the base and digits, as far as they
go. The scan is related to a grammar of numerals that says nothing of scanning: what is read is a numeral at the front of
the text, and a numeral is read in full wherever its end can be told.
-/
import Mathlib.Data.List.TakeWhile
import Mathlib.Tactic.Common

namespace Lib

/-- `isspace` in the C locale. -/
def isBlank (c : Char) : Bool := c = ' ' ∨ '\t' ≤ c ∧ c ≤ '\r'

/-- What is tested for all blanks; they are among the first characters. -/
theorem eq_false_of_isBlank {p : Char → Bool} (h : ∀ n : Fin 33, isBlank (Char.ofNat n) = true → p (Char.ofNat n) = false)
    (c : Char) (hc : isBlank c = true) : p c = false := by
  have hlt : c.toNat < 33 := by
    simp only [isBlank, decide_eq_true_eq] at hc
    rcases hc with rfl | ⟨-, hc⟩
    · decide
    · exact lt_of_le_of_lt (show c.toNat ≤ '\r'.toNat from hc) (by decide)
  simpa using h ⟨c.toNat, hlt⟩ (by simpa using hc)

/-- The letter of the mark `0x`. -/
def isMark (c : Char) : Bool := c = 'x' ∨ c = 'X'

/-- A character of the format: what is left behind it. -/
def scanChar (c : Char) : List Char → Option (List Char)
  | x :: s => if x = c then some s else none
  | [] => none

theorem scanChar_eq_some {c : Char} {s rest : List Char} : scanChar c s = some rest ↔ s = c :: rest := by
  cases s with
  | nil => simp [scanChar]
  | cons x s => simp [scanChar]

/-- The digits of a base, and the number that they denote; the numerals of some bases may be marked. -/
structure Digits where
  isDigit : Char → Bool
  number : List Char → Nat
  marked : Bool
  blank_not_digit : ∀ c, isBlank c = true → isDigit c = false
  mark_not_digit : ∀ c, isMark c = true → isDigit c = false
  sign_not_digit : isDigit '+' = false ∧ isDigit '-' = false

namespace Digits

variable {d : Digits} {s text rest digits : List Char} {z : Int}

/-! ## Scanning -/

/-- A sign, if there is one: whether it is a minus, and what is left. -/
def scanSign : List Char → Bool × List Char
  | '-' :: s => (true, s)
  | '+' :: s => (false, s)
  | s => (false, s)

/-- What is left behind a mark, if there is one. -/
def skipMark (d : Digits) : List Char → List Char
  | '0' :: c :: s => if d.marked && isMark c then s else '0' :: c :: s
  | s => s

/-- The number that is negated behind a minus. -/
def signed (neg : Bool) (n : Nat) : Int := if neg then -n else n

/-- A conversion: the number in front of a text, and what is left behind it. -/
def scanNumber (d : Digits) (s : List Char) : Option (Int × List Char) :=
  let sign := scanSign (s.dropWhile isBlank)
  let s := d.skipMark sign.2
  let digits := s.takeWhile d.isDigit
  if digits = [] then none else some (signed sign.1 (d.number digits), s.dropWhile d.isDigit)

/-! ## Numerals -/

inductive IsSign : List Char → Bool → Prop
  | none : IsSign [] false
  | plus : IsSign ['+'] false
  | minus : IsSign ['-'] true

inductive IsPrefix (d : Digits) : List Char → Prop
  | none : IsPrefix d []
  | mark {c : Char} : d.marked = true → isMark c = true → IsPrefix d ['0', c]

/-- The ways in which a number can be written. -/
structure Numeral (d : Digits) (text : List Char) (z : Int) : Prop where
  parts : ∃ blanks sign mark digits neg, text = blanks ++ (sign ++ (mark ++ digits)) ∧
    (∀ c ∈ blanks, isBlank c = true) ∧ IsSign sign neg ∧ IsPrefix d mark ∧
    digits ≠ [] ∧ (∀ c ∈ digits, d.isDigit c = true) ∧ z = signed neg (d.number digits)

/-- What can stand behind a numeral without becoming a part of it. -/
def Separate (d : Digits) (rest : List Char) : Prop := ∀ c s, rest = c :: s → d.isDigit c = false ∧ isMark c = false

/-- Digits are a numeral. -/
theorem Numeral.of_digits (hne : digits ≠ []) (hdigits : ∀ c ∈ digits, d.isDigit c = true) :
    d.Numeral digits (d.number digits) :=
  ⟨[], [], [], digits, false, rfl, List.forall_mem_nil _, .none, .none, hne, hdigits, rfl⟩

theorem Numeral.of_minus (hne : digits ≠ []) (hdigits : ∀ c ∈ digits, d.isDigit c = true) :
    d.Numeral ('-' :: digits) (-(d.number digits : Int)) :=
  ⟨[], ['-'], [], digits, true, rfl, List.forall_mem_nil _, .minus, .none, hne, hdigits, rfl⟩

/-! ## The parts of a numeral -/

theorem takeWhile_append {p : Char → Bool} (h : ∀ c ∈ text, p c = true) (hrest : ∀ c s, rest = c :: s → p c = false) :
    (text ++ rest).takeWhile p = text ∧ (text ++ rest).dropWhile p = rest := by
  induction text with
  | nil =>
    cases rest with
    | nil => exact ⟨rfl, rfl⟩
    | cons c s => simp [hrest c s rfl]
  | cons c text ih =>
    obtain ⟨htake, hdrop⟩ := ih fun x hx => h x (List.mem_cons_of_mem c hx)
    rw [List.cons_append, List.takeWhile_cons_of_pos (h c List.mem_cons_self),
      List.dropWhile_cons_of_pos (h c List.mem_cons_self), htake, hdrop]
    exact ⟨rfl, rfl⟩

/-- A digit is no blank, no mark and no sign. -/
theorem ne_of_isDigit {c : Char} (h : d.isDigit c = true) :
    isBlank c = false ∧ isMark c = false ∧ c ≠ '+' ∧ c ≠ '-' := by
  refine ⟨?_, ?_, ?_, ?_⟩
  · by_contra hblank
    rw [d.blank_not_digit c (by simpa using hblank)] at h
    cases h
  · by_contra hmark
    rw [d.mark_not_digit c (by simpa using hmark)] at h
    cases h
  · rintro rfl
    rw [d.sign_not_digit.1] at h
    cases h
  · rintro rfl
    rw [d.sign_not_digit.2] at h
    cases h

theorem scanSign_of_ne {c : Char} (hplus : c ≠ '+') (hminus : c ≠ '-') : scanSign (c :: s) = (false, c :: s) := by
  unfold scanSign
  split
  · next heq => exact absurd (List.cons.inj heq).1 hminus
  · next heq => exact absurd (List.cons.inj heq).1 hplus
  · rfl

/-- A text is its sign and what is left behind it. -/
theorem isSign_scanSign (s : List Char) : ∃ sign, s = sign ++ (scanSign s).2 ∧ IsSign sign (scanSign s).1 := by
  unfold scanSign
  split
  · exact ⟨_, rfl, .minus⟩
  · exact ⟨_, rfl, .plus⟩
  · exact ⟨_, rfl, .none⟩

/-- A text is its mark and what is left behind it. -/
theorem isPrefix_skipMark (s : List Char) : ∃ mark, s = mark ++ d.skipMark s ∧ IsPrefix d mark := by
  unfold skipMark
  split
  · split
    · next hmark =>
      rw [Bool.and_eq_true] at hmark
      exact ⟨_, rfl, .mark hmark.1 hmark.2⟩
    · exact ⟨_, rfl, .none⟩
  · exact ⟨_, rfl, .none⟩

/-- Digits have no mark in front of them. -/
theorem skipMark_digits (hne : digits ≠ []) (hdigits : ∀ c ∈ digits, d.isDigit c = true) (hrest : d.Separate rest) :
    d.skipMark (digits ++ rest) = digits ++ rest := by
  -- the second character is a digit or what separates
  have hsecond (x c : Char) (s : List Char) (h : digits ++ rest = x :: c :: s) : isMark c = false := by
    match digits, hne with
    | [_], _ => exact (hrest c s (List.cons.inj h).2).2
    | _ :: y :: ys, _ =>
      obtain ⟨-, hyc⟩ := List.cons.inj h
      obtain ⟨rfl, -⟩ := List.cons.inj hyc
      exact (ne_of_isDigit (hdigits y (List.mem_cons_of_mem _ List.mem_cons_self))).2.1
  unfold skipMark
  split
  · next c s heq =>
    rw [hsecond '0' c s heq, Bool.and_false, if_neg Bool.false_ne_true]
    exact heq.symm
  · rfl

/-! ## What is read -/

/-- What is read is a numeral. -/
theorem numeral_of_scanNumber (h : d.scanNumber s = some (z, rest)) : ∃ text, s = text ++ rest ∧ d.Numeral text z := by
  unfold scanNumber at h
  dsimp only at h
  split at h
  · cases h
  · next hne =>
    cases h
    obtain ⟨sign, hsign, hs⟩ := isSign_scanSign (s.dropWhile isBlank)
    obtain ⟨mark, hmark, hm⟩ := isPrefix_skipMark (d := d) (scanSign (s.dropWhile isBlank)).2
    have hblank : s.takeWhile isBlank ++ s.dropWhile isBlank = s := List.takeWhile_append_dropWhile
    have hdigits := List.takeWhile_append_dropWhile (p := d.isDigit)
      (l := d.skipMark (scanSign (s.dropWhile isBlank)).2)
    refine ⟨s.takeWhile isBlank ++ (sign ++ (mark ++ (d.skipMark (scanSign (s.dropWhile isBlank)).2).takeWhile d.isDigit)),
      ?_, ⟨⟨_, _, _, _, _, rfl, fun c hc => List.mem_takeWhile_imp hc, hs, hm, hne,
        fun c hc => List.mem_takeWhile_imp hc, rfl⟩⟩⟩
    rw [List.append_assoc, List.append_assoc, List.append_assoc, hdigits, ← hmark, ← hsign, hblank]

/-- A numeral is read in full. -/
theorem scanNumber_numeral (h : d.Numeral text z) (hrest : d.Separate rest) :
    d.scanNumber (text ++ rest) = some (z, rest) := by
  obtain ⟨blanks, sign, mark, digits, neg, rfl, hblanks, hsign, hmark, hne, hdigits, rfl⟩ := h.parts
  obtain ⟨c, cs, hcons⟩ := List.exists_cons_of_ne_nil hne
  obtain ⟨hblank, -, hplus, hminus⟩ := ne_of_isDigit (hdigits c (hcons ▸ List.mem_cons_self))
  have hends := takeWhile_append hdigits fun c s hs => (hrest c s hs).1
  -- the mark is skipped, and only the mark
  have hskip : d.skipMark (mark ++ (digits ++ rest)) = digits ++ rest := by
    cases hmark with
    | none =>
      rw [List.nil_append]
      exact skipMark_digits hne hdigits hrest
    | mark hmarked hletter => simp [skipMark, hmarked, hletter]
  -- neither a mark nor a digit is a sign or a blank
  have hfirst : ∃ x xs, mark ++ (digits ++ rest) = x :: xs ∧ isBlank x = false ∧ x ≠ '+' ∧ x ≠ '-' := by
    cases hmark with
    | none => exact ⟨c, cs ++ rest, by rw [hcons]; rfl, hblank, hplus, hminus⟩
    | mark => exact ⟨'0', _, rfl, by decide, by decide, by decide⟩
  obtain ⟨x, xs, hx, hxblank, hxplus, hxminus⟩ := hfirst
  have hscan : scanSign (sign ++ (mark ++ (digits ++ rest))) = (neg, mark ++ (digits ++ rest)) := by
    cases hsign with
    | none =>
      rw [List.nil_append, hx]
      exact scanSign_of_ne hxplus hxminus
    | plus => rfl
    | minus => rfl
  have hdrop : (blanks ++ (sign ++ (mark ++ (digits ++ rest)))).dropWhile isBlank =
      sign ++ (mark ++ (digits ++ rest)) := by
    refine (takeWhile_append hblanks fun y ys hy => ?_).2
    cases hsign with
    | none =>
      rw [List.nil_append, hx] at hy
      rw [← (List.cons.inj hy).1]
      exact hxblank
    | plus =>
      rw [← (List.cons.inj hy).1]
      decide
    | minus =>
      rw [← (List.cons.inj hy).1]
      decide
  unfold scanNumber
  dsimp only
  rw [List.append_assoc, List.append_assoc, List.append_assoc, hdrop, hscan]
  dsimp only
  rw [hskip, hends.1, hends.2, if_neg hne]

end Digits

end Lib
