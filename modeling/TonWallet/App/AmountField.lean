/-
The amount field of `WalletActionSheet`. After each edit its watcher makes the text a number of at most nine integer and
nine fractional digits and computes the amount from the two parts; the fraction is scaled in floating point.
-/
import TonWallet.App.ByteLengthFilter
import Mathlib.Data.List.Induction
import Mathlib.Data.List.TakeWhile
import Mathlib.Tactic.Ring

namespace TonWallet.App

open Lib

/-! ## Numbers in texts -/

def isDecimal (c : UInt16) : Bool := 0x30 ≤ c ∧ c ≤ 0x39

/-- The number that decimal digits denote. -/
def decimalNumber (digits : JavaString) : Nat := digits.foldl (fun n c => 10 * n + (c.toNat - 0x30)) 0

/-- `Long.parseLong` of digits and minus signs; `none` is an exception. -/
def javaParseLong (s : JavaString) : Option Int :=
  let digits := if s.head? = some 0x2D then s.tail else s
  if digits = [] ∨ !digits.all isDecimal then none
  else
    let n : Int := if s.head? = some 0x2D then -decimalNumber digits else decimalNumber digits
    if -2 ^ 63 ≤ n ∧ n < 2 ^ 63 then some n else none

/-- `Utilities.parseLong`: the first match of `[\-0-9]+`, and zero for a text without one that is a number. -/
def parseLong (value : JavaString) : Int :=
  let isMatch := fun c => isDecimal c || c == 0x2D
  let num := (value.dropWhile fun c => !isMatch c).takeWhile isMatch
  if num = [] then 0 else (javaParseLong num).getD 0

/-- `%d` of a number that is not negative. -/
def decimalText (n : Nat) : JavaString := utf16 (Nat.toDigits 10 n)

/-- The loop of `formatCurrency` that drops zeros at the end, on the reversed text. -/
def dropZeros : JavaString → JavaString
  | c :: d :: s => if c = 0x30 ∧ d ≠ 0x2E then dropZeros (d :: s) else c :: d :: s
  | s => s

/-- `TonController.formatCurrency`. -/
def formatCurrency (value : Int64) : JavaString :=
  if value = 0 then [0x30]
  else
    let sign := if value < 0 then [0x2D] else []
    let integer := decimalText (value.toInt.tdiv 1000000000).natAbs
    let fraction := decimalText (value.toInt.tmod 1000000000).natAbs
    let builder := sign ++ integer ++ 0x2E :: (List.replicate (9 - fraction.length) 0x30 ++ fraction)
    (dropZeros builder.reverse).reverse

/-! ## Floating point -/

/-- The `double` that is nearest to an integer; integers of at most 53 bits are represented. -/
structure Rounding where
  toDouble : Int → Int
  exact : ∀ n : Int, n.natAbs ≤ 2 ^ 53 → toDouble n = n

/-- `(int) (n * Math.pow(10, places))`: a cast to `int` is saturated. -/
def Rounding.scale (round : Rounding) (n : Int) (places : Nat) : Int :=
  max (-2147483648) (min 2147483647 (round.toDouble (round.toDouble n * 10 ^ places)))

/-! ## The watcher -/

structure AmountField where
  text : JavaString := []
  amountValue : Int64 := 0
  ignoreTextChange : Bool := false
  adding : Bool := false

namespace AmountField

/-- A change of the text, with `beforeTextChanged`. -/
def replace (f : AmountField) (start «end» : Nat) (text : JavaString) : AmountField :=
  { f with adding := «end» - start == 0 && text.length == 1, text := f.text.take start ++ text ++ f.text.drop «end» }

theorem text_replace (f : AmountField) (start «end» : Nat) (text : JavaString) :
    (f.replace start «end» text).text = f.text.take start ++ text ++ f.text.drop «end» := rfl

/-- The characters that are made dots. -/
def isSeparator (c : UInt16) : Bool := c == 0x2C || c == 0x23 || c == 0x2A

/-- A separator at `a` is replaced. -/
def dotAt (f : AmountField) (a : Nat) : AmountField :=
  if (f.text[a]?).any isSeparator then f.replace a (a + 1) [0x2E] else f

theorem length_dotAt (f : AmountField) {a : Nat} (h : a < f.text.length) :
    (f.dotAt a).text.length = f.text.length := by
  unfold dotAt
  split
  · rw [text_replace, List.length_append, List.length_append, List.length_take, List.length_drop, List.length_singleton]
    omega
  · rfl

/-- The loop over the characters from the one at `a` on. -/
def normalize (f : AmountField) (a dotsCount : Nat) : AmountField :=
  if h : a < f.text.length then
    let c := (f.dotAt a).text.get ⟨a, by rw [length_dotAt f h]; exact h⟩
    if c = 0x2E ∧ dotsCount = 0 then (f.dotAt a).normalize (a + 1) (dotsCount + 1)
    else if c < 0x30 ∨ c > 0x39 then ((f.dotAt a).replace a (a + 1) []).normalize a dotsCount
    else (f.dotAt a).normalize (a + 1) dotsCount
  else f
termination_by f.text.length - a
decreasing_by
  · rw [length_dotAt f h]
    omega
  · rw [text_replace, List.append_nil, List.length_append, List.length_take, List.length_drop, length_dotAt f h]
    omega
  · rw [length_dotAt f h]
    omega

/-- The amount of the text, which is cut to nine digits on both sides of the dot. Nothing else is in the fraction than at
most nine digits, so that the scale is a power of ten that is not negative. -/
def computeAmount (round : Rounding) (f : AmountField) : AmountField :=
  let index := f.text.idxOf 0x2E
  if index < f.text.length then
    let f := if f.text.length - index > 10 then f.replace (index + 10) f.text.length [] else f
    let countToDelete := index - 9
    let f := if index > 9 then f.replace 9 (9 + countToDelete) [] else f
    let index := if index > 9 then index - countToDelete else index
    let start := f.text.take index
    let «end» := f.text.drop (index + 1)
    { f with amountValue := Int64.ofInt (parseLong start) * 1000000000 +
        Int64.ofInt (round.scale (parseLong «end») (9 - «end».length)) }
  else
    let f := if f.text.length > 9 then f.replace 9 f.text.length [] else f
    { f with amountValue := Int64.ofInt (parseLong f.text) * 1000000000 }

/-- `afterTextChanged`. The changes that it makes itself run the watcher as well, which returns at once because of the
flag. -/
def afterTextChanged (round : Rounding) (f : AmountField) : AmountField :=
  if f.ignoreTextChange then f
  else
    let f := { f with ignoreTextChange := true }
    let f := f.normalize 0 0
    let f := if f.text.head? = some 0x2E then f.replace 0 0 [0x30] else f
    let f := if f.adding && f.text == [0x30] then f.replace 0 f.text.length [0x30, 0x2E] else f
    { f.computeAmount round with ignoreTextChange := false }

/-- An edit by the user, or a text that is set: a range is replaced. -/
def edit (round : Rounding) (f : AmountField) (start «end» : Nat) (text : JavaString) : AmountField :=
  (f.replace start «end» text).afterTextChanged round

def setText (round : Rounding) (f : AmountField) (text : JavaString) : AmountField :=
  f.edit round 0 f.text.length text

/-- A run of edits: which range is replaced by what. -/
def run (round : Rounding) (f : AmountField) (edits : List (Nat × Nat × JavaString)) : AmountField :=
  edits.foldl (fun f e => f.edit round e.1 e.2.1 e.2.2) f

/-- A text that is typed character by character at the end. -/
def type (round : Rounding) (f : AmountField) (text : JavaString) : AmountField :=
  text.foldl (fun f c => f.edit round f.text.length f.text.length [c]) f

end AmountField

/-! ## What the field shows -/

/-- The amounts that texts show, in units of `10 ^ -9`. -/
inductive Shows : JavaString → Nat → Prop
  | empty : Shows [] 0
  | integer {i : JavaString} : i ≠ [] → i.length ≤ 9 → i.all isDecimal = true → Shows i (decimalNumber i * 10 ^ 9)
  | fraction {i d : JavaString} : i ≠ [] → i.length ≤ 9 → i.all isDecimal = true → d.length ≤ 9 →
    d.all isDecimal = true → Shows (i ++ 0x2E :: d) (decimalNumber i * 10 ^ 9 + decimalNumber d * 10 ^ (9 - d.length))

/-! ## Digits -/

theorem toNat_of_isDecimal {c : UInt16} (h : isDecimal c = true) : 0x30 ≤ c.toNat ∧ c.toNat ≤ 0x39 := by
  rw [isDecimal, decide_eq_true_iff, UInt16.le_iff_toNat_le, UInt16.le_iff_toNat_le] at h
  simpa only [UInt16.reduceToNat] using h

theorem decimalNumber_append (s t : JavaString) : decimalNumber (s ++ t) = decimalNumber s * 10 ^ t.length + decimalNumber t := by
  have hfold (t : JavaString) (n : Nat) : t.foldl (fun n c => 10 * n + (c.toNat - 0x30)) n =
      n * 10 ^ t.length + decimalNumber t := by
    induction t generalizing n with
    | nil => simp [decimalNumber]
    | cons c t ih =>
      have hcons : decimalNumber (c :: t) = (10 * 0 + (c.toNat - 0x30)) * 10 ^ t.length + decimalNumber t := ih _
      rw [List.foldl_cons, ih, hcons, List.length_cons, pow_succ]
      ring
  rw [decimalNumber, List.foldl_append, hfold]
  rfl

theorem decimalNumber_cons (c : UInt16) (s : JavaString) :
    decimalNumber (c :: s) = (c.toNat - 0x30) * 10 ^ s.length + decimalNumber s := by
  rw [← List.singleton_append, decimalNumber_append]
  simp [decimalNumber]

theorem decimalNumber_lt {s : JavaString} (h : s.all isDecimal = true) : decimalNumber s < 10 ^ s.length := by
  induction s with
  | nil => decide
  | cons c s ih =>
    rw [List.all_cons, Bool.and_eq_true] at h
    have hs := ih h.2
    have hc := toNat_of_isDecimal h.1
    rw [decimalNumber_cons, List.length_cons, pow_succ]
    calc (c.toNat - 0x30) * 10 ^ s.length + decimalNumber s < (c.toNat - 0x30) * 10 ^ s.length + 10 ^ s.length :=
          Nat.add_lt_add_left hs _
      _ = (c.toNat - 0x30 + 1) * 10 ^ s.length := by ring
      _ ≤ 10 * 10 ^ s.length := Nat.mul_le_mul_right _ (by omega)
      _ = 10 ^ s.length * 10 := Nat.mul_comm _ _

/-- A digit is neither a dot nor a minus. -/
theorem ne_of_isDecimal {c : UInt16} (h : isDecimal c = true) : c ≠ 0x2E ∧ c ≠ 0x2D ∧ AmountField.isSeparator c = false := by
  refine ⟨?_, ?_, ?_⟩
  · rintro rfl
    revert h
    decide
  · rintro rfl
    revert h
    decide
  · by_contra hsep
    simp only [AmountField.isSeparator, Bool.not_eq_false, Bool.or_eq_true, beq_iff_eq] at hsep
    rcases hsep with (rfl | rfl) | rfl <;> revert h <;> decide

theorem dot_not_mem {s : JavaString} (h : s.all isDecimal = true) : (0x2E : UInt16) ∉ s := fun hmem =>
  (ne_of_isDecimal (List.all_eq_true.1 h _ hmem)).1 rfl

/-- Digits are parsed as the number that they denote. -/
theorem parseLong_of_all {s : JavaString} (h : s.all isDecimal = true) (hlt : decimalNumber s < 2 ^ 63) :
    parseLong s = decimalNumber s := by
  have hall : ∀ c ∈ s, (isDecimal c || c == 0x2D) = true := by
    intro c hc
    rw [List.all_eq_true.1 h c hc, Bool.true_or]
  have htake : s.takeWhile (fun c => isDecimal c || c == 0x2D) = s := List.takeWhile_eq_self_iff.2 hall
  unfold parseLong
  dsimp only
  cases s with
  | nil => rfl
  | cons c s =>
    have hc := hall c List.mem_cons_self
    have hhead : ¬ (c :: s).head? = some 0x2D := by
      rw [List.head?_cons, Option.some.injEq]
      exact (ne_of_isDecimal (List.all_eq_true.1 h c List.mem_cons_self)).2.1
    rw [List.dropWhile_cons_of_neg (by rw [hc]; decide), htake, if_neg (List.cons_ne_nil c s), javaParseLong]
    dsimp only
    rw [if_neg hhead, if_neg hhead, h, if_neg (by simp), if_pos ⟨by omega, by exact_mod_cast hlt⟩]
    rfl

theorem utf16_digits {cs : List Char} (h : ∀ c ∈ cs, c.isDigit = true) :
    (utf16 cs).all isDecimal = true ∧ (utf16 cs).length = cs.length ∧
      ∀ n, (utf16 cs).foldl (fun n c => 10 * n + (c.toNat - 0x30)) n = Nat.ofDigitChars 10 cs n := by
  induction cs with
  | nil => exact ⟨rfl, rfl, fun n => by rw [Nat.ofDigitChars_nil]; rfl⟩
  | cons c cs ih =>
    obtain ⟨hall, hlen, hfold⟩ := ih fun x hx => h x (List.mem_cons_of_mem c hx)
    have hc := h c List.mem_cons_self
    simp only [Char.isDigit, Bool.and_eq_true, decide_eq_true_eq] at hc
    have hlo : 0x30 ≤ c.toNat := hc.1
    have hhi : c.toNat ≤ 0x39 := hc.2
    have hunit : utf16Char c = [UInt16.ofNat c.toNat] := if_pos (by omega)
    have hnat : (UInt16.ofNat c.toNat).toNat = c.toNat := UInt16.toNat_ofNat_of_lt' (show _ < 65536 by omega)
    have hdec : isDecimal (UInt16.ofNat c.toNat) = true := by
      rw [isDecimal, decide_eq_true_iff, UInt16.le_iff_toNat_le, UInt16.le_iff_toNat_le, hnat]
      simp only [UInt16.reduceToNat]
      omega
    rw [utf16_cons, hunit, List.singleton_append]
    refine ⟨?_, ?_, fun n => ?_⟩
    · rw [List.all_cons, hdec, hall]
      rfl
    · rw [List.length_cons, hlen, List.length_cons]
    · rw [List.foldl_cons, hfold, hnat, Nat.ofDigitChars_cons]
      rfl

/-- Decimals are digits, and denote the number. -/
theorem decimalText_spec (n : Nat) : decimalText n ≠ [] ∧ (decimalText n).all isDecimal = true ∧
    decimalNumber (decimalText n) = n ∧ ∀ k, 0 < k → ((decimalText n).length ≤ k ↔ n < 10 ^ k) := by
  obtain ⟨hall, hlen, hfold⟩ := @utf16_digits (Nat.toDigits 10 n) fun c hc =>
    Nat.isDigit_of_mem_toDigits (by decide) (by decide) hc
  refine ⟨fun hnil => ?_, hall, ?_, fun k hk => ?_⟩
  · rw [decimalText] at hnil
    rw [hnil] at hlen
    exact Nat.toDigits_ne_nil (List.length_eq_zero_iff.1 hlen.symm)
  · rw [decimalNumber, decimalText, hfold, Nat.ofDigitChars_ten_toDigits]
  · rw [decimalText, hlen, Nat.length_toDigits_le_iff (by decide) hk]

/-- Only the decimals of zero begin with a zero. -/
theorem head?_decimalText {n : Nat} (h : (decimalText n).head? = some 0x30) : decimalText n = [0x30] := by
  obtain ⟨-, hall, hnumber, hlen⟩ := decimalText_spec n
  obtain ⟨s, hs⟩ : ∃ s, decimalText n = 0x30 :: s := by
    cases hd : decimalText n with
    | nil => rw [hd] at h; cases h
    | cons c s => rw [hd] at h; cases h; exact ⟨s, rfl⟩
  rw [hs] at hall hnumber hlen ⊢
  rw [List.all_cons, Bool.and_eq_true] at hall
  by_contra hne
  have hspos : 0 < s.length := List.length_pos_iff.2 fun hnil => hne (by rw [hnil])
  have hlt := decimalNumber_lt hall.2
  rw [decimalNumber_cons] at hnumber
  have hzero : (0x30 : UInt16).toNat - 0x30 = 0 := rfl
  rw [hzero, Nat.zero_mul, Nat.zero_add] at hnumber
  have hle := (hlen s.length hspos).2 (by rw [← hnumber]; exact hlt)
  rw [List.length_cons] at hle
  omega

/-! ## Texts that are made numbers -/

/-- What the loop makes of a text, behind a dot or not. -/
def cleaned : JavaString → Bool → JavaString
  | [], _ => []
  | c :: s, seen =>
    let c := if AmountField.isSeparator c then 0x2E else c
    if c = 0x2E ∧ !seen then 0x2E :: cleaned s true
    else if c < 0x30 ∨ c > 0x39 then cleaned s seen
    else c :: cleaned s seen

theorem not_isDecimal_iff {c : UInt16} : (c < 0x30 ∨ c > 0x39) ↔ ¬ isDecimal c = true := by
  rw [isDecimal, decide_eq_true_iff, not_and_or, UInt16.not_le, UInt16.not_le]

/-- Behind a dot only digits are left. -/
theorem all_cleaned_true (s : JavaString) : (cleaned s true).all isDecimal = true := by
  induction s with
  | nil => rfl
  | cons c s ih =>
    rw [cleaned, if_neg (by simp)]
    generalize (if AmountField.isSeparator c then (0x2E : UInt16) else c) = c'
    split
    · exact ih
    · next hdec =>
      rw [not_isDecimal_iff, not_not] at hdec
      rw [List.all_cons, hdec, ih]
      rfl

/-- Digits are left, and the first dot. -/
theorem cleaned_cases (s : JavaString) : (cleaned s false).all isDecimal = true ∨
    ∃ i d, cleaned s false = i ++ 0x2E :: d ∧ i.all isDecimal = true ∧ d.all isDecimal = true := by
  induction s with
  | nil => exact .inl rfl
  | cons c s ih =>
    rw [cleaned]
    generalize (if AmountField.isSeparator c then (0x2E : UInt16) else c) = c'
    split
    · exact .inr ⟨[], cleaned s true, rfl, rfl, all_cleaned_true s⟩
    · split
      · exact ih
      · next hdec =>
        rw [not_isDecimal_iff, not_not] at hdec
        rcases ih with hall | ⟨i, d, heq, hi, hd⟩
        · refine .inl ?_
          rw [List.all_cons, hdec, hall]
          rfl
        · refine .inr ⟨_ :: i, d, by rw [heq]; rfl, ?_, hd⟩
          rw [List.all_cons, hdec, hi]
          rfl

/-- Digits are left as they are. -/
theorem cleaned_digits_append {i : JavaString} (h : i.all isDecimal = true) (s : JavaString) (seen : Bool) :
    cleaned (i ++ s) seen = i ++ cleaned s seen := by
  induction i with
  | nil => rfl
  | cons c i ih =>
    rw [List.all_cons, Bool.and_eq_true] at h
    obtain ⟨hdot, -, hsep⟩ := ne_of_isDecimal h.1
    rw [List.cons_append, cleaned, hsep]
    simp only [Bool.false_eq_true, if_false]
    rw [if_neg fun hc => hdot hc.1, if_neg (not_isDecimal_iff.not.2 (not_not.2 h.1)), ih h.2, List.cons_append]

theorem cleaned_digits {i : JavaString} (h : i.all isDecimal = true) (seen : Bool) : cleaned i seen = i := by
  have hi := cleaned_digits_append h [] seen
  rwa [List.append_nil, cleaned, List.append_nil] at hi

theorem cleaned_dot (s : JavaString) : cleaned (0x2E :: s) false = 0x2E :: cleaned s true := by
  have hsep : AmountField.isSeparator 0x2E = false := by decide
  rw [cleaned, hsep]
  simp

theorem cleaned_fraction {i d : JavaString} (hi : i.all isDecimal = true) (hd : d.all isDecimal = true) :
    cleaned (i ++ 0x2E :: d) false = i ++ 0x2E :: d := by
  rw [cleaned_digits_append hi, cleaned_dot, cleaned_digits hd]

namespace AmountField

variable {round : Rounding} {f : AmountField}

theorem dotAt_append {p s : JavaString} {c : UInt16} (h : f.text = p ++ c :: s) :
    (f.dotAt p.length).text = p ++ (if isSeparator c then 0x2E else c) :: s ∧
      (f.dotAt p.length).ignoreTextChange = f.ignoreTextChange := by
  have hc : f.text[p.length]? = some c := by
    rw [h, List.getElem?_append_right le_rfl, Nat.sub_self]
    rfl
  unfold dotAt
  rw [hc, Option.any_some]
  split
  · refine ⟨?_, rfl⟩
    have hdrop : (p ++ c :: s).drop (p.length + 1) = s := by
      rw [← List.drop_drop, List.drop_left]
      rfl
    rw [text_replace, h, List.take_left, hdrop, List.append_assoc]
    rfl
  · exact ⟨h, rfl⟩

/-- The loop leaves what is cleaned of the rest. -/
theorem normalize_spec {p s : JavaString} {dotsCount : Nat} (h : f.text = p ++ s) :
    (f.normalize p.length dotsCount).text = p ++ cleaned s (dotsCount != 0) ∧
      (f.normalize p.length dotsCount).ignoreTextChange = f.ignoreTextChange := by
  induction s generalizing f p dotsCount with
  | nil =>
    rw [List.append_nil] at h
    rw [normalize, dif_neg (by rw [h]; exact lt_irrefl _), cleaned, List.append_nil]
    exact ⟨h, rfl⟩
  | cons c s ih =>
    obtain ⟨htext, hignore⟩ := dotAt_append h
    have hlt : p.length < f.text.length := by
      rw [h, List.length_append, List.length_cons]
      omega
    have hget : ∀ hb, (f.dotAt p.length).text.get ⟨p.length, hb⟩ = if isSeparator c then 0x2E else c := by
      intro hb
      have hopt : (f.dotAt p.length).text[p.length]? = some (if isSeparator c then 0x2E else c) := by
        rw [htext, List.getElem?_append_right le_rfl, Nat.sub_self]
        rfl
      exact (List.getElem?_eq_some_iff.1 hopt).2
    rw [normalize, dif_pos hlt, cleaned]
    dsimp only
    rw [hget]
    generalize (if isSeparator c then (0x2E : UInt16) else c) = c' at htext
    have hkept : (f.dotAt p.length).text = (p ++ [c']) ++ s := by
      rw [htext, List.append_assoc]
      rfl
    have hlen : (p ++ [c']).length = p.length + 1 := by rw [List.length_append, List.length_singleton]
    have hdots : (c' = 0x2E ∧ dotsCount = 0) ↔ (c' = 0x2E ∧ (!(dotsCount != 0)) = true) := by simp
    by_cases hdot : c' = 0x2E ∧ dotsCount = 0
    · obtain ⟨ihtext, ihignore⟩ := @ih _ _ (dotsCount + 1) hkept
      rw [hlen] at ihtext ihignore
      rw [if_pos hdot, if_pos (hdots.1 hdot), ihtext, ihignore, hdot.1, List.append_assoc]
      exact ⟨rfl, hignore⟩
    · rw [if_neg hdot, if_neg (hdots.not.1 hdot)]
      split
      · have hdel : ((f.dotAt p.length).replace p.length (p.length + 1) []).text = p ++ s := by
          rw [text_replace, htext, List.take_left, List.append_nil, ← List.drop_drop, List.drop_left]
          rfl
        obtain ⟨ihtext, ihignore⟩ := @ih _ _ dotsCount hdel
        rw [ihtext, ihignore]
        exact ⟨rfl, hignore⟩
      · obtain ⟨ihtext, ihignore⟩ := @ih _ _ dotsCount hkept
        rw [hlen] at ihtext ihignore
        rw [ihtext, ihignore, List.append_assoc]
        exact ⟨rfl, hignore⟩

/-! ## Amounts of numbers -/

/-- The amount does not overflow. -/
theorem toInt_amount {a b : Nat} (ha : a < 10 ^ 9) (hb : b < 10 ^ 9) :
    (Int64.ofInt a * 1000000000 + Int64.ofInt b).toInt = a * 10 ^ 9 + b := by
  have hsum : Int64.ofInt a * 1000000000 + Int64.ofInt b = Int64.ofInt ((a : Int) * 1000000000 + b) := by
    rw [Int64.ofInt_add, Int64.ofInt_mul]
    rfl
  rw [hsum, Int64.toInt_ofInt_of_le (by omega) (by omega)]
  norm_num

/-- A text without a dot is cut to nine digits. -/
theorem computeAmount_digits (h : f.text.all isDecimal = true) :
    (f.computeAmount round).text = f.text.take 9 ∧
      (f.computeAmount round).amountValue.toInt = decimalNumber (f.text.take 9) * 10 ^ 9 := by
  have hdot : ¬ f.text.idxOf 0x2E < f.text.length := by
    rw [List.idxOf_lt_length_iff]
    exact dot_not_mem h
  have htext : (if f.text.length > 9 then f.replace 9 f.text.length [] else f).text = f.text.take 9 := by
    split
    · rw [text_replace, List.append_nil, List.drop_length, List.append_nil]
    · rw [List.take_of_length_le (by omega)]
  have hall : (f.text.take 9).all isDecimal = true :=
    List.all_eq_true.2 fun c hc => List.all_eq_true.1 h c (List.mem_of_mem_take hc)
  have hlt := decimalNumber_lt hall
  have hpow : 10 ^ (f.text.take 9).length ≤ 10 ^ 9 :=
    Nat.pow_le_pow_right (by decide) (by rw [List.length_take]; exact Nat.min_le_left _ _)
  unfold computeAmount
  rw [if_neg hdot]
  dsimp only
  rw [htext, parseLong_of_all hall (by omega)]
  refine ⟨rfl, ?_⟩
  have hsum := toInt_amount (a := decimalNumber (f.text.take 9)) (b := 0) (by omega) (by decide)
  have hzero : Int64.ofInt ((0 : Nat) : Int) = 0 := rfl
  rw [hzero, Int64.add_zero] at hsum
  rw [hsum, Nat.cast_zero, Int.add_zero]

/-- The scale of at most nine digits is exact. -/
theorem scale_digits {d : JavaString} (hd : d.all isDecimal = true) (hlen : d.length ≤ 9) :
    round.scale (decimalNumber d) (9 - d.length) = decimalNumber d * 10 ^ (9 - d.length) ∧
      decimalNumber d * 10 ^ (9 - d.length) < 10 ^ 9 := by
  have hlt := decimalNumber_lt hd
  have hpos : 0 < 10 ^ (9 - d.length) := Nat.pow_pos (by decide)
  have hprod : decimalNumber d * 10 ^ (9 - d.length) < 10 ^ 9 := by
    calc decimalNumber d * 10 ^ (9 - d.length) < 10 ^ d.length * 10 ^ (9 - d.length) :=
          Nat.mul_lt_mul_of_pos_right hlt hpos
      _ = 10 ^ 9 := by rw [← pow_add, Nat.add_sub_cancel' hlen]
  have hsmall : decimalNumber d ≤ decimalNumber d * 10 ^ (9 - d.length) := Nat.le_mul_of_pos_right _ hpos
  refine ⟨?_, hprod⟩
  unfold Rounding.scale
  have hnum : round.toDouble (decimalNumber d) = decimalNumber d := round.exact _ (by omega)
  have hcast : ((decimalNumber d : Nat) : Int) * 10 ^ (9 - d.length) =
      ((decimalNumber d * 10 ^ (9 - d.length) : Nat) : Int) := by
    push_cast
    rfl
  rw [hnum, hcast, round.exact _ (by omega)]
  omega

/-- A text with a dot is cut to nine digits on both sides. -/
theorem computeAmount_fraction {i d : JavaString} (h : f.text = i ++ 0x2E :: d) (hi : i.all isDecimal = true)
    (hd : d.all isDecimal = true) :
    (f.computeAmount round).text = i.take 9 ++ 0x2E :: d.take 9 ∧
      (f.computeAmount round).amountValue.toInt =
        decimalNumber (i.take 9) * 10 ^ 9 + decimalNumber (d.take 9) * 10 ^ (9 - (d.take 9).length) := by
  have hindex : f.text.idxOf 0x2E = i.length := by
    rw [h, List.idxOf_append_of_notMem (dot_not_mem hi), List.idxOf_cons_self, Nat.add_zero]
  have hlen : f.text.length = i.length + 1 + d.length := by
    rw [h, List.length_append, List.length_cons]
    omega
  have hfraction : (if f.text.length - i.length > 10 then f.replace (i.length + 10) f.text.length [] else f).text =
      i ++ 0x2E :: d.take 9 := by
    split
    · rw [text_replace, List.append_nil, List.drop_length, List.append_nil, h, List.take_length_add_append]
      rfl
    · rw [List.take_of_length_le (show d.length ≤ 9 by omega), h]
  obtain ⟨g, hg⟩ : ∃ g, (if f.text.length - i.length > 10 then f.replace (i.length + 10) f.text.length [] else f) = g :=
    ⟨_, rfl⟩
  rw [hg] at hfraction
  have hinteger : (if i.length > 9 then g.replace 9 (9 + (i.length - 9)) [] else g).text = i.take 9 ++ 0x2E :: d.take 9 := by
    split
    · have hnine : 9 + (i.length - 9) = i.length := by omega
      rw [text_replace, List.append_nil, hfraction, hnine, List.drop_left, List.take_append_of_le_length (by omega)]
    · rw [List.take_of_length_le (show i.length ≤ 9 by omega), hfraction]
  have hshort : (if i.length > 9 then i.length - (i.length - 9) else i.length) = (i.take 9).length := by
    rw [List.length_take]
    split <;> omega
  have hi9 : (i.take 9).all isDecimal = true :=
    List.all_eq_true.2 fun c hc => List.all_eq_true.1 hi c (List.mem_of_mem_take hc)
  have hd9 : (d.take 9).all isDecimal = true :=
    List.all_eq_true.2 fun c hc => List.all_eq_true.1 hd c (List.mem_of_mem_take hc)
  have hilen : (i.take 9).length ≤ 9 := by rw [List.length_take]; exact Nat.min_le_left _ _
  have hdlen : (d.take 9).length ≤ 9 := by rw [List.length_take]; exact Nat.min_le_left _ _
  have hilt := decimalNumber_lt hi9
  have hipow : 10 ^ (i.take 9).length ≤ 10 ^ 9 := Nat.pow_le_pow_right (by decide) hilen
  have hdlt := decimalNumber_lt hd9
  have hdpow : 10 ^ (d.take 9).length ≤ 10 ^ 9 := Nat.pow_le_pow_right (by decide) hdlen
  obtain ⟨hscale, hbound⟩ := @scale_digits round _ hd9 hdlen
  unfold computeAmount
  dsimp only
  rw [hindex, if_pos (by omega), hg, hshort]
  refine ⟨hinteger, ?_⟩
  have hdrop : (i.take 9 ++ 0x2E :: d.take 9).drop ((i.take 9).length + 1) = d.take 9 := by
    rw [← List.drop_drop, List.drop_left]
    rfl
  show (Int64.ofInt (parseLong (List.take _ (if i.length > 9 then g.replace 9 (9 + (i.length - 9)) [] else g).text)) *
    1000000000 + Int64.ofInt (round.scale (parseLong (List.drop _
      (if i.length > 9 then g.replace 9 (9 + (i.length - 9)) [] else g).text)) (9 - (List.drop _
      (if i.length > 9 then g.replace 9 (9 + (i.length - 9)) [] else g).text).length))).toInt = _
  rw [hinteger, List.take_left, hdrop, parseLong_of_all hi9 (by omega), parseLong_of_all hd9 (by omega), hscale]
  have hsum := toInt_amount (a := decimalNumber (i.take 9)) (by omega) hbound
  push_cast at hsum
  exact hsum

end AmountField

/-! ## Amounts that are formatted -/

/-- Zeros are dropped but for one behind the dot. -/
theorem dropZeros_spec {r : JavaString} (hne : r ≠ []) (hr : r.all isDecimal = true) (t : JavaString) :
    ∃ r', dropZeros (r ++ 0x2E :: t) = r' ++ 0x2E :: t ∧ r' ≠ [] ∧ r'.all isDecimal = true ∧ r'.length ≤ r.length ∧
      decimalNumber r.reverse = decimalNumber r'.reverse * 10 ^ (r.length - r'.length) := by
  induction r with
  | nil => exact absurd rfl hne
  | cons c r ih =>
    have hall := hr
    rw [List.all_cons, Bool.and_eq_true] at hr
    cases r with
    | nil =>
      refine ⟨[c], ?_, hne, hall, le_rfl, by simp⟩
      rw [List.singleton_append, dropZeros, if_neg fun h => h.2 rfl]
    | cons d r =>
      rw [List.cons_append, List.cons_append, dropZeros]
      split
      · next hzero =>
        obtain ⟨r', heq, hne', hall', hlen, hnumber⟩ := ih (List.cons_ne_nil d r) hr.2
        refine ⟨r', heq, hne', hall', by rw [List.length_cons]; omega, ?_⟩
        have hone : decimalNumber [c] = 0 := by rw [hzero.1]; rfl
        have hsub : (c :: d :: r).length - r'.length = (d :: r).length - r'.length + 1 := by
          simp only [List.length_cons] at hlen ⊢
          omega
        rw [List.reverse_cons, decimalNumber_append, hone, hnumber, hsub, pow_succ, List.length_singleton]
        ring
      · exact ⟨c :: d :: r, rfl, List.cons_ne_nil _ _, hall, le_rfl, by simp⟩

/-- The text of an amount: a sign, its whole units, and a fraction of at most nine digits. -/
theorem formatCurrency_spec {v : Int64} {n : Nat} (hv : v.toInt.natAbs = n) (hpos : 0 < n) :
    ∃ d, formatCurrency v = (if v < 0 then [0x2D] else []) ++ (decimalText (n / 10 ^ 9) ++ 0x2E :: d) ∧ d ≠ [] ∧
      d.length ≤ 9 ∧ d.all isDecimal = true ∧ decimalNumber d * 10 ^ (9 - d.length) = n % 10 ^ 9 := by
  have hne : v ≠ 0 := by
    rintro rfl
    have hzero : (0 : Int64).toInt = 0 := rfl
    omega
  have hdiv : (v.toInt.tdiv 1000000000).natAbs = n / 10 ^ 9 := by
    rw [Int.natAbs_tdiv, hv]
    rfl
  have hmod : (v.toInt.tmod 1000000000).natAbs = n % 10 ^ 9 := by
    rw [Int.natAbs_tmod, hv]
    rfl
  obtain ⟨hnil, hall, hnumber, hlen⟩ := decimalText_spec (n % 10 ^ 9)
  have hnine : (decimalText (n % 10 ^ 9)).length ≤ 9 := (hlen 9 (by decide)).2 (Nat.mod_lt _ (by decide))
  obtain ⟨r, hr⟩ : ∃ r, List.replicate (9 - (decimalText (n % 10 ^ 9)).length) 0x30 ++ decimalText (n % 10 ^ 9) = r :=
    ⟨_, rfl⟩
  have hzeros (k : Nat) : decimalNumber (List.replicate k 0x30) = 0 ∧ (List.replicate k 0x30).all isDecimal = true := by
    induction k with
    | zero => exact ⟨rfl, rfl⟩
    | succ k ih =>
      rw [List.replicate_succ, decimalNumber_cons, ih.1, List.all_cons, ih.2]
      exact ⟨by simp, rfl⟩
  have hrlen : r.length = 9 := by
    rw [← hr, List.length_append, List.length_replicate]
    omega
  have hrall : r.all isDecimal = true := by
    rw [← hr, List.all_append, (hzeros _).2, hall]
    rfl
  have hrnumber : decimalNumber r = n % 10 ^ 9 := by
    rw [← hr, decimalNumber_append, (hzeros _).1, hnumber, Nat.zero_mul, Nat.zero_add]
  obtain ⟨r', hdrop, hne', hall', hlen', hnumber'⟩ := dropZeros_spec (r := r.reverse)
    (fun h => by rw [List.reverse_eq_nil_iff] at h; rw [h] at hrlen; cases hrlen)
    (by rw [List.all_reverse]; exact hrall) ((if v < 0 then [0x2D] else []) ++ decimalText (n / 10 ^ 9)).reverse
  rw [List.reverse_reverse, List.length_reverse, hrlen, hrnumber] at hnumber'
  rw [List.length_reverse, hrlen] at hlen'
  refine ⟨r'.reverse, ?_, fun h => hne' (List.reverse_eq_nil_iff.1 h), by rw [List.length_reverse]; exact hlen',
    by rw [List.all_reverse]; exact hall', by rw [List.length_reverse]; exact hnumber'.symm⟩
  unfold formatCurrency
  rw [if_neg hne, hdiv, hmod]
  dsimp only
  rw [hr, List.reverse_append, List.reverse_cons, List.append_assoc, List.singleton_append, hdrop,
    List.reverse_append, List.reverse_cons, List.reverse_reverse, List.append_assoc, List.singleton_append,
    List.append_assoc]

namespace AmountField

variable {round : Rounding} {f : AmountField}

/-! ## What an edit leaves -/

/-- The field when its text has been cleaned. -/
theorem normalize_start (f : AmountField) : ({ f with ignoreTextChange := true }.normalize 0 0).text = cleaned f.text false :=
  (@normalize_spec { f with ignoreTextChange := true } [] _ 0 rfl).1

/-- A text without a dot is a number already, or a zero to which a dot is added. -/
theorem afterTextChanged_digits (hignore : f.ignoreTextChange = false) (h : (cleaned f.text false).all isDecimal = true) :
    (f.afterTextChanged round).ignoreTextChange = false ∧
      ((f.afterTextChanged round).text = (cleaned f.text false).take 9 ∨
        cleaned f.text false = [0x30] ∧ (f.afterTextChanged round).text = [0x30, 0x2E]) ∧
      (f.afterTextChanged round).amountValue.toInt = decimalNumber ((cleaned f.text false).take 9) * 10 ^ 9 := by
  have htext := normalize_start f
  have hhead : ¬ (cleaned f.text false).head? = some 0x2E := fun hd => dot_not_mem h (List.mem_of_mem_head? hd)
  unfold afterTextChanged
  rw [if_neg (by rw [hignore]; decide)]
  dsimp only
  rw [htext, if_neg hhead]
  generalize ({ f with ignoreTextChange := true }.normalize 0 0) = g at htext ⊢
  refine ⟨rfl, ?_⟩
  split
  · next hzero =>
    rw [Bool.and_eq_true, beq_iff_eq] at hzero
    have hadded : (g.replace 0 g.text.length [0x30, 0x2E]).text = [0x30] ++ 0x2E :: [] := by
      rw [text_replace, List.drop_length]
      rfl
    obtain ⟨hnew, hamount⟩ := @computeAmount_fraction round _ _ _ hadded (by decide) rfl
    have hclean : cleaned f.text false = [0x30] := by rw [← htext, hzero.2]
    refine ⟨.inr ⟨hclean, hnew⟩, hamount.trans ?_⟩
    rw [hclean]
    simp [decimalNumber]
  · rw [← htext] at h ⊢
    obtain ⟨hnew, hamount⟩ := @computeAmount_digits round _ h
    exact ⟨.inl hnew, hamount⟩

/-- A text with a dot gets a digit in front of it. -/
theorem afterTextChanged_fraction {i d : JavaString} (hignore : f.ignoreTextChange = false)
    (h : cleaned f.text false = i ++ 0x2E :: d) (hi : i.all isDecimal = true) (hd : d.all isDecimal = true) :
    (f.afterTextChanged round).ignoreTextChange = false ∧
      (f.afterTextChanged round).text = (if i = [] then [0x30] else i.take 9) ++ 0x2E :: d.take 9 ∧
      (f.afterTextChanged round).amountValue.toInt =
        decimalNumber (i.take 9) * 10 ^ 9 + decimalNumber (d.take 9) * 10 ^ (9 - (d.take 9).length) := by
  have htext := normalize_start f
  rw [h] at htext
  unfold afterTextChanged
  rw [if_neg (by rw [hignore]; decide)]
  dsimp only
  rw [htext]
  generalize ({ f with ignoreTextChange := true }.normalize 0 0) = g at htext ⊢
  refine ⟨rfl, ?_⟩
  -- the text in front of the dot
  obtain ⟨k, hk⟩ : ∃ k, (if (i ++ 0x2E :: d).head? = some 0x2E then g.replace 0 0 [0x30] else g) = k := ⟨_, rfl⟩
  have hktext : k.text = (if i = [] then [0x30] else i) ++ 0x2E :: d := by
    cases i with
    | nil =>
      rw [List.nil_append, List.head?_cons, if_pos rfl] at hk
      rw [← hk, text_replace, htext]
      rfl
    | cons c i =>
      have hhead : ¬ (c :: i ++ 0x2E :: d).head? = some 0x2E := by
        rw [List.cons_append, List.head?_cons, Option.some.injEq]
        exact (ne_of_isDecimal (List.all_eq_true.1 hi c List.mem_cons_self)).1
      rw [if_neg hhead] at hk
      rw [← hk, htext]
      rfl
  rw [hk]
  have hlong : ¬ (k.adding && k.text == [0x30]) = true := by
    rw [Bool.and_eq_true, beq_iff_eq, not_and]
    intro _ hone
    have hmem : (0x2E : UInt16) ∈ k.text := by
      rw [hktext]
      exact List.mem_append_right _ List.mem_cons_self
    rw [hone] at hmem
    revert hmem
    decide
  rw [if_neg hlong]
  have hall : (if i = [] then [0x30] else i).all isDecimal = true := by
    split
    · rfl
    · exact hi
  obtain ⟨hnew, hamount⟩ := @computeAmount_fraction round _ _ _ hktext hall hd
  refine ⟨hnew.trans ?_, hamount.trans ?_⟩
  · split <;> rfl
  · split
    · next hnil =>
      rw [hnil]
      rfl
    · rfl

/-- After an edit the amount is what the text shows. -/
theorem shows_edit (hignore : f.ignoreTextChange = false) (start «end» : Nat) (text : JavaString) :
    (f.edit round start «end» text).ignoreTextChange = false ∧
      ∃ n, Shows (f.edit round start «end» text).text n ∧ (f.edit round start «end» text).amountValue.toInt = n := by
  unfold edit
  have hign : (f.replace start «end» text).ignoreTextChange = false := hignore
  generalize f.replace start «end» text = g at hign ⊢
  have hcut (s : JavaString) (hs : s.all isDecimal = true) : (s.take 9).length ≤ 9 ∧ (s.take 9).all isDecimal = true :=
    ⟨by rw [List.length_take]; exact Nat.min_le_left _ _,
      List.all_eq_true.2 fun c hc => List.all_eq_true.1 hs c (List.mem_of_mem_take hc)⟩
  rcases cleaned_cases g.text with hall | ⟨i, d, heq, hi, hd⟩
  · obtain ⟨hdone, htext, hamount⟩ := @afterTextChanged_digits round _ hign hall
    refine ⟨hdone, ?_⟩
    obtain ⟨hlen, hdec⟩ := hcut _ hall
    rcases htext with htext | ⟨hzero, htext⟩
    · rw [htext]
      by_cases hnil : (cleaned g.text false).take 9 = []
      · rw [hnil] at hamount ⊢
        exact ⟨0, .empty, hamount⟩
      · exact ⟨_, .integer hnil hlen hdec, by rw [hamount]; push_cast; rfl⟩
    · rw [hzero] at hamount
      rw [htext]
      exact ⟨0, .fraction (i := [0x30]) (d := []) (by decide) (by decide) (by decide) (by decide) rfl, hamount⟩
  · obtain ⟨hdone, htext, hamount⟩ := @afterTextChanged_fraction round _ _ _ hign heq hi hd
    obtain ⟨hilen, hidec⟩ := hcut i hi
    obtain ⟨hdlen, hddec⟩ := hcut d hd
    refine ⟨hdone, ?_⟩
    rw [htext, hamount]
    split
    · next hnil =>
      refine ⟨_, .fraction (i := [0x30]) (by decide) (by decide) (by decide) hdlen hddec, ?_⟩
      rw [hnil]
      push_cast
      rfl
    · next hne =>
      refine ⟨_, .fraction ?_ hilen hidec hdlen hddec, ?_⟩
      · intro htake
        rw [List.take_eq_nil_iff] at htake
        exact hne (htake.resolve_left (by decide))
      · push_cast
        rfl

theorem shows_run (round : Rounding) (edits : List (Nat × Nat × JavaString)) {f : AmountField}
    (hignore : f.ignoreTextChange = false) (h : ∃ n, Shows f.text n ∧ f.amountValue.toInt = n) :
    ∃ n, Shows (f.run round edits).text n ∧ (f.run round edits).amountValue.toInt = n := by
  induction edits generalizing f with
  | nil => exact h
  | cons e edits ih =>
    obtain ⟨hdone, hshows⟩ := @shows_edit round _ hignore e.1 e.2.1 e.2.2
    exact ih hdone hshows

/-! ## Amounts that are entered -/

/-- The text of an amount that is not negative. -/
theorem formatCurrency_nonneg {v : Int64} {n : Nat} (hv : v.toInt = n) (hpos : 0 < n) :
    ∃ d, formatCurrency v = decimalText (n / 10 ^ 9) ++ 0x2E :: d ∧ d ≠ [] ∧ d.length ≤ 9 ∧ d.all isDecimal = true ∧
      decimalNumber d * 10 ^ (9 - d.length) = n % 10 ^ 9 := by
  have hsign : ¬ v < 0 := by
    rw [Int64.lt_iff_toInt_lt, hv]
    have hzero : (0 : Int64).toInt = 0 := rfl
    omega
  have h := formatCurrency_spec (v := v) (n := n) (by omega) hpos
  rwa [if_neg hsign] at h

/-- The text of an amount is read as the amount. -/
theorem amountValue_of_text {v : Int64} (hlo : 0 ≤ v.toInt) (hhi : v.toInt < 10 ^ 18)
    (hignore : f.ignoreTextChange = false) (h : f.text = formatCurrency v) : (f.afterTextChanged round).amountValue = v := by
  obtain ⟨n, hn⟩ := Int.eq_ofNat_of_zero_le hlo
  apply Int64.toInt_inj.1
  rcases Nat.eq_zero_or_pos n with hzero | hpos
  · have hv : v = 0 := by
      apply Int64.toInt_inj.1
      rw [hn, hzero]
      rfl
    have hclean : cleaned f.text false = [0x30] := by
      rw [h, hv]
      rfl
    obtain ⟨-, -, hamount⟩ := @afterTextChanged_digits round _ hignore (by rw [hclean]; rfl)
    rw [hamount, hclean, hv]
    rfl
  · obtain ⟨d, htext, -, hdlen, hd, hfraction⟩ := formatCurrency_nonneg hn hpos
    obtain ⟨-, hi, hinteger, hilen⟩ := decimalText_spec (n / 10 ^ 9)
    have hlen : (decimalText (n / 10 ^ 9)).length ≤ 9 := (hilen 9 (by decide)).2 (by omega)
    have hclean : cleaned f.text false = decimalText (n / 10 ^ 9) ++ 0x2E :: d := by rw [h, htext, cleaned_fraction hi hd]
    obtain ⟨-, -, hamount⟩ := @afterTextChanged_fraction round _ _ _ hignore hclean hi hd
    rw [List.take_of_length_le hlen, List.take_of_length_le hdlen, hinteger] at hamount
    have hcast : ((decimalNumber d : Nat) : Int) * 10 ^ (9 - d.length) = ((n % 10 ^ 9 : Nat) : Int) := by
      rw [← hfraction]
      push_cast
      rfl
    rw [hamount, hcast, hn]
    omega

/-- A character that is typed at the end. -/
theorem type_append_singleton (round : Rounding) (f : AmountField) (s : JavaString) (c : UInt16) :
    f.type round (s ++ [c]) = ((f.type round s).replace (f.type round s).text.length (f.type round s).text.length
      [c]).afterTextChanged round := by
  rw [type, List.foldl_append]
  rfl

theorem text_replace_end (f : AmountField) (c : UInt16) :
    (f.replace f.text.length f.text.length [c]).text = f.text ++ [c] := by
  rw [text_replace, List.take_length, List.drop_length, List.append_nil]

/-- Typing digits, of which the first is no zero if there are more. -/
theorem type_digits (hignore : f.ignoreTextChange = false) (hempty : f.text = []) {i : JavaString}
    (hi : i.all isDecimal = true) (hlen : i.length ≤ 9) (hzero : i.head? = some 0x30 → i = [0x30]) :
    (f.type round i).ignoreTextChange = false ∧
      ((f.type round i).text = i ∨ i = [0x30] ∧ (f.type round i).text = [0x30, 0x2E]) ∧
      (i ≠ [] → (f.type round i).amountValue.toInt = decimalNumber i * 10 ^ 9) := by
  induction i using List.reverseRecOn with
  | nil => exact ⟨hignore, .inl hempty, fun h => absurd rfl h⟩
  | append_singleton p c ih =>
    rw [List.all_append, Bool.and_eq_true] at hi
    rw [List.length_append, List.length_singleton] at hlen
    -- a zero in front is the only digit
    have hp : p = [] ∨ p.head? ≠ some 0x30 := by
      rcases p with _ | ⟨x, p⟩
      · exact .inl rfl
      · refine .inr fun hx => ?_
        have hone := congrArg List.length (hzero hx)
        simp at hone
    have hpzero : p.head? = some 0x30 → p = [0x30] := by
      rintro hx
      rcases hp with rfl | hp
      · cases hx
      · exact absurd hx hp
    obtain ⟨hdone, htext, -⟩ := ih hi.1 (by omega) hpzero
    have hshown : (f.type round p).text = p := by
      rcases htext with htext | ⟨hone, -⟩
      · exact htext
      · rcases hp with rfl | hp
        · cases hone
        · exact absurd (by rw [hone]; rfl) hp
    have hall : (p ++ [c]).all isDecimal = true := by
      rw [List.all_append, hi.1, hi.2]
      rfl
    rw [type_append_singleton]
    have hnew := text_replace_end (f.type round p) c
    rw [hshown] at hnew
    have hclean : cleaned ((f.type round p).replace (f.type round p).text.length (f.type round p).text.length [c]).text
        false = p ++ [c] := by
      rw [hshown, hnew, cleaned_digits hall]
    obtain ⟨hdone', htext', hamount⟩ := @afterTextChanged_digits round
      ((f.type round p).replace (f.type round p).text.length (f.type round p).text.length [c]) hdone
      (by rw [hclean]; exact hall)
    rw [hclean, List.take_of_length_le (by rw [List.length_append, List.length_singleton]; exact hlen)] at htext' hamount
    exact ⟨hdone', htext', fun _ => hamount⟩

/-- Typing a fraction behind digits. -/
theorem type_fraction (hignore : f.ignoreTextChange = false) {i d : JavaString} (hne : i ≠ [])
    (hi : i.all isDecimal = true) (hilen : i.length ≤ 9) (hd : d.all isDecimal = true) (hdlen : d.length ≤ 9)
    (htext : f.text = i ∨ i = [0x30] ∧ f.text = [0x30, 0x2E]) :
    (f.type round (0x2E :: d)).ignoreTextChange = false ∧ (f.type round (0x2E :: d)).text = i ++ 0x2E :: d ∧
      (f.type round (0x2E :: d)).amountValue.toInt = decimalNumber i * 10 ^ 9 + decimalNumber d * 10 ^ (9 - d.length) := by
  induction d using List.reverseRecOn with
  | nil =>
    have hclean : cleaned (f.replace f.text.length f.text.length [0x2E]).text false = i ++ 0x2E :: [] := by
      rw [text_replace_end]
      rcases htext with htext | ⟨hone, htext⟩
      · rw [htext, cleaned_fraction hi hd]
      · rw [htext, hone]
        rfl
    obtain ⟨hdone, hnew, hamount⟩ := @afterTextChanged_fraction round
      (f.replace f.text.length f.text.length [0x2E]) _ _ hignore hclean hi hd
    rw [if_neg hne, List.take_of_length_le hilen] at hnew
    rw [List.take_of_length_le hilen] at hamount
    exact ⟨hdone, hnew, hamount⟩
  | append_singleton q c ih =>
    rw [List.all_append, Bool.and_eq_true] at hd
    rw [List.length_append, List.length_singleton] at hdlen
    obtain ⟨hdone, hshown, -⟩ := ih hd.1 (by omega)
    have hall : (q ++ [c]).all isDecimal = true := by
      rw [List.all_append, hd.1, hd.2]
      rfl
    rw [← List.cons_append, type_append_singleton]
    have hclean : cleaned ((f.type round (0x2E :: q)).replace (f.type round (0x2E :: q)).text.length
        (f.type round (0x2E :: q)).text.length [c]).text false = i ++ 0x2E :: (q ++ [c]) := by
      rw [text_replace_end, hshown, List.append_assoc, List.cons_append, cleaned_fraction hi hall]
    obtain ⟨hdone', hnew, hamount⟩ := @afterTextChanged_fraction round
      ((f.type round (0x2E :: q)).replace (f.type round (0x2E :: q)).text.length
        (f.type round (0x2E :: q)).text.length [c]) _ _ hdone hclean hi hall
    have hqlen : (q ++ [c]).length ≤ 9 := by
      rw [List.length_append, List.length_singleton]
      exact hdlen
    rw [if_neg hne, List.take_of_length_le hilen, List.take_of_length_le hqlen] at hnew
    rw [List.take_of_length_le hilen, List.take_of_length_le hqlen] at hamount
    exact ⟨hdone', hnew, hamount⟩

/-- An amount that is typed is read. -/
theorem amountValue_type {v : Int64} (hlo : 0 ≤ v.toInt) (hhi : v.toInt < 10 ^ 18)
    (hignore : f.ignoreTextChange = false) (hempty : f.text = []) : (f.type round (formatCurrency v)).amountValue = v := by
  obtain ⟨n, hn⟩ := Int.eq_ofNat_of_zero_le hlo
  apply Int64.toInt_inj.1
  rcases Nat.eq_zero_or_pos n with hzero | hpos
  · have hv : v = 0 := by
      apply Int64.toInt_inj.1
      rw [hn, hzero]
      rfl
    have htext : formatCurrency v = [0x30] := by
      rw [hv]
      rfl
    obtain ⟨-, -, hamount⟩ := @type_digits round _ hignore hempty [0x30] (by decide) (by decide)
      fun _ => rfl
    rw [htext, hamount (by decide), hv]
    rfl
  · obtain ⟨d, htext, -, hdlen, hd, hfraction⟩ := formatCurrency_nonneg hn hpos
    obtain ⟨hne, hi, hinteger, hilen⟩ := decimalText_spec (n / 10 ^ 9)
    have hlen : (decimalText (n / 10 ^ 9)).length ≤ 9 := (hilen 9 (by decide)).2 (by omega)
    obtain ⟨hdone, hshown, -⟩ := @type_digits round _ hignore hempty _ hi hlen fun h => head?_decimalText h
    obtain ⟨-, -, hamount⟩ := @type_fraction round _ hdone _ _ hne hi hlen hd hdlen hshown
    have htyped : f.type round (formatCurrency v) = (f.type round (decimalText (n / 10 ^ 9))).type round (0x2E :: d) := by
      rw [htext, type, List.foldl_append]
      rfl
    have hcast : ((decimalNumber d : Nat) : Int) * 10 ^ (9 - d.length) = ((n % 10 ^ 9 : Nat) : Int) := by
      rw [← hfraction]
      push_cast
      rfl
    rw [htyped, hamount, hinteger, hcast, hn]
    omega

/-- What is entered is the amount, and the amount is always what is shown: the text of an amount below `10 ^ 18` is read as
this amount, whether an edit completes it or it is typed into the empty field, and after every run of edits the field shows
a number of at most nine digits on both sides, or nothing, and holds its amount. -/
theorem amountField_exact (round : Rounding) :
    (∀ (f : AmountField) (v : Int64), f.ignoreTextChange = false → 0 ≤ v.toInt → v.toInt < 10 ^ 18 →
      (∀ start «end» text, (f.replace start «end» text).text = formatCurrency v →
        (f.edit round start «end» text).amountValue = v) ∧
      (f.text = [] → (f.type round (formatCurrency v)).amountValue = v)) ∧
    ∀ edits, ∃ n, Shows (run round {} edits).text n ∧ (run round {} edits).amountValue.toInt = n := by
  refine ⟨fun f v hignore hlo hhi => ⟨fun start «end» text htext => ?_, amountValue_type hlo hhi hignore⟩, fun edits => ?_⟩
  · exact amountValue_of_text (f := f.replace start «end» text) hlo hhi hignore htext
  · exact shows_run round edits rfl ⟨0, .empty, rfl⟩

end AmountField

namespace Sample

/-- Integers as they are. -/
def exactRounding : Rounding := ⟨id, fun _ _ => rfl⟩

/-- Five units and a half are typed. -/
theorem amountField_exact_typed :
    (AmountField.type exactRounding {} (formatCurrency 5500000000)).amountValue = 5500000000 :=
  ((AmountField.amountField_exact exactRounding).1 {} 5500000000 rfl (by decide) (by decide)).2 rfl

end Sample

end TonWallet.App
