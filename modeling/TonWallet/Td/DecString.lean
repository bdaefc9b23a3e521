/-
Decimal texts of integers (`common/bigint`, `common/refint`): a text is made of chunks of 18 digits and read in chunks
that a word has room for. The numbers are taken by their values; five words of 52 bits have room for all of 257 bits.
-/
import Mathlib.Tactic.Ring
import TonWallet.Block.ExtraCurrency

namespace TonWallet.Td

open Lib

/-! ## Printing -/

/-- `Tr::max_pow10`. -/
def maxPow10 : Nat := 10 ^ 18

/-- The loop of `to_dec_string_destroy_any`: the chunks, the lowest one first. -/
def decChunks (x : Nat) : List Nat :=
  (x % maxPow10) :: if x / maxPow10 = 0 then [] else decChunks (x / maxPow10)
termination_by x
decreasing_by exact Nat.div_lt_self (Nat.pos_of_ne_zero fun h => by simp_all) (by decide)

/-- `%018lld`. -/
def paddedChunk (chunk : Nat) : List Char :=
  List.replicate (18 - (Nat.toDigits 10 chunk).length) '0' ++ Nat.toDigits 10 chunk

/-- The text of some chunks: only the highest one is not padded. -/
def chunksText : List Nat → List Char
  | [] => []
  | [chunk] => Nat.toDigits 10 chunk
  | chunk :: chunks => chunksText chunks ++ paddedChunk chunk

/-- `dec_string`. -/
def decString : BigInt256 → List Char
  | none => ['N', 'a', 'N']
  | some x => (if x < 0 then ['-'] else []) ++ chunksText (decChunks x.natAbs)

/-! ## Reading -/

/-- What is known of a number while its digits are read: its value is `x * q + a`. -/
structure DecState where
  x : Int := 0
  q : Int := 1
  a : Int := 0
  ok : Bool := false

/-- `Tr::Half`. -/
def half : Int := 2 ^ 51

/-- `mul_add_short_bool`: a result that five words have no room for is refused. -/
def mulAddShort (x q a : Int) : Option Int :=
  if -2 ^ 260 ≤ x * q + a ∧ x * q + a < 2 ^ 260 then some (x * q + a) else none

/-- The sum of the weights of five words. -/
def wordWeights : Int := 1 + 2 ^ 52 + 2 ^ 104 + 2 ^ 156 + 2 ^ 208

/-- `normalize_bool`: whether five words from `-Half` to `Half - 1` have the value. -/
def normalizes (x : Int) : Prop := -half * wordWeights ≤ x ∧ x ≤ (half - 1) * wordWeights

instance (x : Int) : Decidable (normalizes x) := inferInstanceAs (Decidable (_ ∧ _))

namespace DecState

/-- Make room for another digit. -/
def flush (st : DecState) : Option DecState :=
  if st.q ≥ half / 10 then (mulAddShort st.x st.q st.a).map fun x => { st with x, q := 1, a := 0 } else some st

/-- Another digit. -/
def push (sgn : Bool) (digit : Int) (st : DecState) : DecState :=
  { st with q := st.q * 10, a := st.a * 10 + (if sgn then -digit else digit), ok := true }

/-- The loop of `parse_dec`: how many characters are read. -/
def readDigits (sgn : Bool) : List Char → Nat → DecState → Option (Nat × DecState)
  | [], i, st => some (i, st)
  | c :: s, i, st => if c.isDigit then do
      readDigits sgn s (i + 1) ((← st.flush).push sgn ((c.toNat - '0'.toNat : Nat) : Int))
    else some (i, st)

/-- The end of `parse_dec`. -/
def finish (st : DecState) : Option Int := do
  let x ← if st.ok then mulAddShort st.x st.q st.a else none
  if normalizes x then some x else none

end DecState

/-- `parse_dec`: how much of the text is read, and the number. -/
def parseDec (s : List Char) : Nat × Int :=
  let sgn := s.head? = some '-'
  match DecState.readDigits sgn (if sgn then s.tail else s) (if sgn then 1 else 0) {} with
  | none => (0, 0)
  | some (i, st) => match st.finish with
    | none => (0, 0)
    | some x => (i, x)

/-- `dec_string_to_int256`; `none`: a null reference. -/
def decStringToInt256 (s : List Char) : Option BigInt256 :=
  if s.length > 255 then none
  else if (parseDec s).1 = s.length then some (some (parseDec s).2) else none

/-! ## The digits of a text -/

theorem decChunks_eq (x : Nat) :
    decChunks x = (x % maxPow10) :: if x / maxPow10 = 0 then [] else decChunks (x / maxPow10) := by
  rw [decChunks]

theorem decChunks_ne_nil (x : Nat) : decChunks x ≠ [] := by
  rw [decChunks_eq]
  exact List.cons_ne_nil _ _

theorem ofDigitChars_paddedChunk (chunk init : Nat) (h : chunk < maxPow10) :
    Nat.ofDigitChars 10 (paddedChunk chunk) init = maxPow10 * init + chunk := by
  have hlen : (Nat.toDigits 10 chunk).length ≤ 18 := (Nat.length_toDigits_le_iff (by decide) (by decide)).2 h
  have hpow : 10 ^ (Nat.toDigits 10 chunk).length * 10 ^ (18 - (Nat.toDigits 10 chunk).length) = maxPow10 := by
    rw [← Nat.pow_add, Nat.add_sub_cancel' hlen]
    rfl
  rw [paddedChunk, Nat.ofDigitChars_append, Nat.ofDigitChars_replicate_zero, Nat.ofDigitChars_eq_ofDigitChars_zero,
    Nat.ofDigitChars_ten_toDigits, ← Nat.mul_assoc, hpow]

theorem length_paddedChunk (chunk : Nat) (h : chunk < maxPow10) : (paddedChunk chunk).length = 18 := by
  have hlen : (Nat.toDigits 10 chunk).length ≤ 18 := (Nat.length_toDigits_le_iff (by decide) (by decide)).2 h
  rw [paddedChunk, List.length_append, List.length_replicate]
  omega

theorem isDigit_of_mem_paddedChunk {chunk : Nat} {c : Char} (h : c ∈ paddedChunk chunk) : c.isDigit = true := by
  rcases List.mem_append.1 h with h | h
  · rw [List.eq_of_mem_replicate h]
    rfl
  · exact Nat.isDigit_of_mem_toDigits (by decide) (by decide) h

theorem chunksText_cons (chunk : Nat) {chunks : List Nat} (h : chunks ≠ []) :
    chunksText (chunk :: chunks) = chunksText chunks ++ paddedChunk chunk := by
  cases chunks with
  | nil => exact absurd rfl h
  | cons _ _ => rfl

theorem chunksText_ne_nil {chunks : List Nat} (h : chunks ≠ []) : chunksText chunks ≠ [] := by
  induction chunks with
  | nil => exact absurd rfl h
  | cons chunk chunks ih =>
    by_cases hnil : chunks = []
    · subst hnil
      exact Nat.toDigits_ne_nil
    · rw [chunksText_cons _ hnil]
      exact List.append_ne_nil_of_left_ne_nil (ih hnil) _

theorem mod_lt_maxPow10 (x : Nat) : x % maxPow10 < maxPow10 := Nat.mod_lt x (by decide)

/-- The text of a number has its digits. -/
theorem ofDigitChars_chunksText (x : Nat) : Nat.ofDigitChars 10 (chunksText (decChunks x)) 0 = x := by
  induction x using Nat.strongRecOn with
  | ind x ih =>
    rw [decChunks_eq]
    by_cases hx : x / maxPow10 = 0
    · rw [if_pos hx]
      have hlt : x < maxPow10 := (Nat.div_eq_zero_iff.1 hx).resolve_left (by decide)
      rw [chunksText, Nat.ofDigitChars_ten_toDigits, Nat.mod_eq_of_lt hlt]
    · rw [if_neg hx, chunksText_cons _ (decChunks_ne_nil _), Nat.ofDigitChars_append,
        ih _ (Nat.div_lt_self (Nat.pos_of_ne_zero fun h => hx (by rw [h]; rfl)) (by decide)),
        ofDigitChars_paddedChunk _ _ (mod_lt_maxPow10 x)]
      exact Nat.div_add_mod x maxPow10

theorem isDigit_of_mem_chunksText {chunks : List Nat} {c : Char} (h : c ∈ chunksText chunks) : c.isDigit = true := by
  induction chunks with
  | nil => cases h
  | cons chunk chunks ih =>
    by_cases hnil : chunks = []
    · subst hnil
      exact Nat.isDigit_of_mem_toDigits (by decide) (by decide) h
    · rw [chunksText_cons _ hnil] at h
      rcases List.mem_append.1 h with h | h
      · exact ih h
      · exact isDigit_of_mem_paddedChunk h

/-- A number below `10 ^ (18 * (n + 1))` takes no more than that many digits. -/
theorem length_chunksText_le (n x : Nat) (h : x < maxPow10 ^ (n + 1)) : (chunksText (decChunks x)).length ≤ 18 * (n + 1) := by
  induction n generalizing x with
  | zero =>
    have hx : x / maxPow10 = 0 := Nat.div_eq_of_lt (by simpa using h)
    rw [decChunks_eq, if_pos hx, chunksText]
    exact (Nat.length_toDigits_le_iff (by decide) (by decide)).2 (mod_lt_maxPow10 x)
  | succ n ih =>
    rw [decChunks_eq]
    by_cases hx : x / maxPow10 = 0
    · rw [if_pos hx, chunksText]
      have hlen : (Nat.toDigits 10 (x % maxPow10)).length ≤ 18 :=
        (Nat.length_toDigits_le_iff (by decide) (by decide)).2 (mod_lt_maxPow10 x)
      omega
    · have hdiv : x / maxPow10 < maxPow10 ^ (n + 1) := by
        rw [Nat.div_lt_iff_lt_mul (by decide), ← Nat.pow_succ]
        exact h
      have hlen := ih _ hdiv
      rw [if_neg hx, chunksText_cons _ (decChunks_ne_nil _), List.length_append, length_paddedChunk _ (mod_lt_maxPow10 x)]
      omega

/-! ## Reading a text back -/

/-- A number with a sign. -/
def signed (sgn : Bool) (n : Nat) : Int := if sgn then -(n : Int) else n

theorem le_ofDigitChars (s : List Char) (n : Nat) : n ≤ Nat.ofDigitChars 10 s n := by
  rw [Nat.ofDigitChars_eq_ofDigitChars_zero]
  calc n = 1 * n := (Nat.one_mul n).symm
    _ ≤ 10 ^ s.length * n := Nat.mul_le_mul_right n (Nat.one_le_pow _ _ (by decide))
    _ ≤ 10 ^ s.length * n + Nat.ofDigitChars 10 s 0 := Nat.le_add_right _ _

namespace DecState

/-- The digits that have been read are those of a number. -/
def Reads (sgn : Bool) (n : Nat) (st : DecState) : Prop := st.x * st.q + st.a = signed sgn n

variable {sgn : Bool} {n : Nat} {st : DecState}

theorem mulAddShort_reads (h : st.Reads sgn n) (hn : n < 2 ^ 260) : mulAddShort st.x st.q st.a = some (signed sgn n) := by
  have hfits : -2 ^ 260 ≤ st.x * st.q + st.a ∧ st.x * st.q + st.a < 2 ^ 260 := by
    rw [h, signed]
    split <;> omega
  rw [mulAddShort, if_pos hfits, h]

theorem flush_reads (h : st.Reads sgn n) (hn : n < 2 ^ 260) : ∃ st', st.flush = some st' ∧ st'.Reads sgn n := by
  unfold flush
  split
  · refine ⟨_, by rw [mulAddShort_reads h hn]; rfl, ?_⟩
    simp [Reads]
  · exact ⟨st, rfl, h⟩

theorem push_reads (h : st.Reads sgn n) (digit : Nat) : (st.push sgn digit).Reads sgn (10 * n + digit) := by
  unfold Reads at h ⊢
  have hvalue : signed sgn (10 * n + digit) = 10 * signed sgn n + (if sgn then -(digit : Int) else digit) := by
    unfold signed
    cases sgn
    · simp
    · simp only [if_true]
      push_cast
      ring
  rw [hvalue, ← h, push]
  ring

/-- All digits are read. -/
theorem readDigits_reads {s : List Char} (hdigits : ∀ c ∈ s, c.isDigit = true) (i : Nat) (h : st.Reads sgn n)
    (hn : Nat.ofDigitChars 10 s n < 2 ^ 260) :
    ∃ st', readDigits sgn s i st = some (i + s.length, st') ∧ st'.Reads sgn (Nat.ofDigitChars 10 s n) ∧
      (st'.ok = true ∨ s = [] ∧ st'.ok = st.ok) := by
  induction s generalizing i n st with
  | nil => exact ⟨st, rfl, h, .inr ⟨rfl, rfl⟩⟩
  | cons c s ih =>
    rw [Nat.ofDigitChars_cons] at hn
    have hle := le_ofDigitChars s (10 * n + (c.toNat - '0'.toNat))
    obtain ⟨st', hflush, hreads⟩ := flush_reads h (by omega)
    obtain ⟨st'', hrun, hreads', hok⟩ := @ih _ (st'.push sgn ((c.toNat - '0'.toNat : Nat) : Int))
      (fun d hd => hdigits d (List.mem_cons_of_mem c hd)) (i + 1) (push_reads hreads (c.toNat - '0'.toNat)) hn
    refine ⟨st'', ?_, ?_, ?_⟩
    · rw [readDigits, if_pos (hdigits c List.mem_cons_self), hflush]
      change readDigits sgn s (i + 1) (st'.push sgn ((c.toNat - '0'.toNat : Nat) : Int)) = _
      rw [hrun, List.length_cons, Nat.add_right_comm, Nat.add_assoc]
    · rw [Nat.ofDigitChars_cons]
      exact hreads'
    · rcases hok with hok | ⟨-, hok⟩
      · exact .inl hok
      · exact .inl hok

end DecState

/-- The text of an integer of 257 bits is read as the integer. -/
theorem decStringToInt256_decString {x : Int} (hlo : -2 ^ 256 ≤ x) (hhi : x < 2 ^ 256) :
    decStringToInt256 (decString (some x)) = some (some x) := by
  have habs : x.natAbs ≤ 2 ^ 256 := by omega
  have hdigits : ∀ c ∈ chunksText (decChunks x.natAbs), c.isDigit = true := fun c hc => isDigit_of_mem_chunksText hc
  have hvalue := ofDigitChars_chunksText x.natAbs
  have hlen := length_chunksText_le 4 x.natAbs (habs.trans_lt (by decide))
  have hnormal : normalizes x := by
    unfold normalizes half wordWeights
    omega
  have hread : parseDec (decString (some x)) = ((decString (some x)).length, x) := by
    obtain ⟨st, hrun, hreads, hok⟩ := @DecState.readDigits_reads (decide (x < 0)) 0 {} _ hdigits
      (if x < 0 then 1 else 0) (by simp [DecState.Reads, signed]) (by omega)
    rw [hvalue] at hreads
    have hsigned : signed (decide (x < 0)) x.natAbs = x := by
      unfold signed
      by_cases hneg : x < 0
      · simp only [hneg, decide_true, if_true]
        omega
      · simp only [hneg, decide_false, Bool.false_eq_true, if_false]
        omega
    have hok : st.ok = true := hok.resolve_right fun h => chunksText_ne_nil (decChunks_ne_nil _) h.1
    have hfinish : st.finish = some x := by
      rw [DecState.finish, if_pos hok, DecState.mulAddShort_reads hreads (by omega), hsigned]
      exact if_pos hnormal
    by_cases hneg : x < 0
    · have htext : decString (some x) = '-' :: chunksText (decChunks x.natAbs) := by
        rw [decString, if_pos hneg]
        rfl
      rw [htext, parseDec]
      simp only [hneg, decide_true, if_true] at hrun
      simp only [List.head?_cons, if_true, List.tail_cons, decide_true, hrun, hfinish, List.length_cons]
      rw [Nat.add_comm]
    · have htext : decString (some x) = chunksText (decChunks x.natAbs) := by
        rw [decString, if_neg hneg]
        rfl
      have hhead : (chunksText (decChunks x.natAbs)).head? ≠ some '-' := by
        intro hhead
        have hdigit := hdigits '-' (List.mem_of_mem_head? hhead)
        exact absurd hdigit (by decide)
      rw [htext, parseDec]
      simp only [hneg, decide_false, if_false] at hrun
      simp only [hhead, if_false, decide_false, hrun, hfinish, Nat.zero_add]
  have hshort : ¬ (decString (some x)).length > 255 := by
    have hsign : (if x < 0 then ['-'] else []).length ≤ 1 := by split <;> simp
    rw [decString, List.length_append]
    omega
  rw [decStringToInt256, if_neg hshort, hread, if_pos rfl]

end TonWallet.Td
