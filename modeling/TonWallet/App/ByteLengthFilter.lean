/-
The length limit of comments (`WalletActionSheet.ByteLengthFilter`). The limit is in bytes, but what an edit replaces and
what it offers are counted in code units, and what is kept of the offer is cut out of its bytes at a count of units. The
filter is exact where these counts agree.
-/
import TonWallet.Lib.Unicode
import Mathlib.Algebra.Order.Ring.Int

namespace TonWallet.App

open Lib

/-! ## Texts of the runtime -/

/-- A `String`: code units, of which surrogates need not be paired. -/
abbrev JavaString := List UInt16

/-- `getBytes`: UTF-8, where an unpaired surrogate is a question mark. -/
def getUtf8Bytes (s : JavaString) : List UInt8 := utf8 (decodeUtf16 '?' s)

/-- `new String(bytes, offset, length, UTF_8)`; `none` is an exception. -/
def newString (malformed : List UInt8 → Nat) (bytes : List UInt8) (offset length : Nat) : Option JavaString :=
  if offset + length > bytes.length then none
  else some (utf16 (decodeUtf8 malformed ((bytes.drop offset).take length)))

theorem getBytes_utf16 (s : List Char) : getUtf8Bytes (utf16 s) = utf8 s := by rw [getUtf8Bytes, decodeUtf16_utf16]

theorem utf16_inj {s t : List Char} : utf16 s = utf16 t ↔ s = t := by
  constructor
  · intro h
    rw [← @decodeUtf16_utf16 '?' s, h, decodeUtf16_utf16]
  · rintro rfl
    rfl

/-! ## The filter -/

structure ByteLengthFilter where
  mMax : Int
  /-- How the runtime groups malformed bytes. -/
  malformed : List UInt8 → Nat

namespace ByteLengthFilter

/-- The count of what may be kept: bytes, but for the replaced range. -/
def keep (f : ByteLengthFilter) (dest : JavaString) (dstart dend : Nat) : Int :=
  f.mMax - ((getUtf8Bytes dest).length - (dend - dstart))

/-- `filter`; `none` keeps the whole range of the source. -/
def filter (f : ByteLengthFilter) (source : JavaString) (start «end» : Nat) (dest : JavaString) (dstart dend : Nat) :
    Option JavaString :=
  let keep := f.keep dest dstart dend
  if keep ≤ 0 then some []
  else if keep ≥ «end» - start then none
  else
    let keep := keep + start
    some ((newString f.malformed (getUtf8Bytes source) start keep.toNat).getD [])

/-- What an edit inserts: what the filter returns, or else the range of the source. -/
def inserted (f : ByteLengthFilter) (source : JavaString) (start «end» : Nat) (dest : JavaString) (dstart dend : Nat) :
    JavaString :=
  (f.filter source start «end» dest dstart dend).getD ((source.take «end»).drop start)

end ByteLengthFilter

/-! ## Edits -/

/-- An edit: a range of a text is replaced by a range of a source. The text is cut at any code units, and the source is a
text of characters. -/
structure Edit where
  before : JavaString
  replaced : JavaString
  after : JavaString
  unused : List Char
  offered : List Char
  rest : List Char

namespace Edit

def dest (e : Edit) : JavaString := e.before ++ e.replaced ++ e.after
def source (e : Edit) : List Char := e.unused ++ e.offered ++ e.rest
def start (e : Edit) : Nat := (utf16 e.unused).length
def units (e : Edit) : Nat := (utf16 e.offered).length

def keep (f : ByteLengthFilter) (e : Edit) : Int :=
  f.keep e.dest e.before.length (e.before.length + e.replaced.length)

/-- What the filter lets the edit insert. -/
def inserted (f : ByteLengthFilter) (e : Edit) : JavaString :=
  f.inserted (utf16 e.source) e.start (e.start + e.units) e.dest e.before.length (e.before.length + e.replaced.length)

/-- The bytes of the text with `t` in the place of what is replaced. -/
def bytesWith (e : Edit) (t : List Char) : Nat := (getUtf8Bytes (e.before ++ utf16 t ++ e.after)).length

/-- The longest prefix of what is offered with which the text has at most `m` bytes. -/
structure LongestPrefix (m : Int) (e : Edit) (t : List Char) : Prop where
  begins : t <+: e.offered
  fits : e.bytesWith t ≤ m
  longest : ∀ t', t' <+: e.offered → (e.bytesWith t' : Int) ≤ m → t'.length ≤ t.length

/-- What the filter is for: a text that is in the limit stays there, with as much of the offer as there is room for. -/
def KeepsLimit (f : ByteLengthFilter) (e : Edit) : Prop :=
  ((getUtf8Bytes e.dest).length : Int) ≤ f.mMax → ∃ t, LongestPrefix f.mMax e t ∧ e.inserted f = utf16 t

/-- The bytes that are cut out of the source for a count of `keep` are those of `t`. -/
def CutsOut (f : ByteLengthFilter) (e : Edit) (t : List Char) : Prop :=
  let length := (e.keep f).toNat + e.start
  let cut := ((utf8 e.source).drop e.start).take length
  if e.start + length ≤ (utf8 e.source).length then cut = utf8 t ∨ replacement ∈ t ∧ decodeUtf8 f.malformed cut = t
  else t = []

/-- The edits of which the counts in code units lead to what there is room for in bytes: where nothing is kept no
character has room, where all of the offer is kept it has room, and what is cut out is a prefix that has room and to which
no character can be added. -/
structure CountsAgree (f : ByteLengthFilter) (e : Edit) : Prop where
  nothing : e.keep f ≤ 0 → (e.bytesWith [] : Int) ≤ f.mMax ∧
    ∀ c, e.offered.head? = some c → f.mMax < e.bytesWith [c]
  all : 0 < e.keep f → e.units ≤ e.keep f → (e.bytesWith e.offered : Int) ≤ f.mMax
  cut : 0 < e.keep f → e.keep f < e.units → ∃ t tail, e.offered = t ++ tail ∧ (e.bytesWith t : Int) ≤ f.mMax ∧
    (∀ c, tail.head? = some c → f.mMax < e.bytesWith (t ++ [c])) ∧ e.CutsOut f t

/-! ## Room -/

variable {f : ByteLengthFilter} {e : Edit} {m : Int} {t tail : List Char}

/-- Around a text that is not empty the bytes add up. -/
theorem bytesWith_of_ne_nil (ht : t ≠ []) :
    e.bytesWith t = (getUtf8Bytes e.before).length + (utf8 t).length + (getUtf8Bytes e.after).length := by
  unfold bytesWith getUtf8Bytes
  rw [decodeUtf16_between ht, utf8_append, utf8_append, List.length_append, List.length_append]

theorem bytesWith_le_append (ht : t ≠ []) (s : List Char) : e.bytesWith t ≤ e.bytesWith (t ++ s) := by
  rw [bytesWith_of_ne_nil ht, bytesWith_of_ne_nil (List.append_ne_nil_of_left_ne_nil ht s), utf8_append,
    List.length_append]
  omega

/-- A prefix is the longest one if the next character has no room. -/
theorem longestPrefix_iff (hsplit : e.offered = t ++ tail) : LongestPrefix m e t ↔
    (e.bytesWith t : Int) ≤ m ∧ ∀ c, tail.head? = some c → m < e.bytesWith (t ++ [c]) := by
  constructor
  · rintro ⟨-, hfits, hlongest⟩
    refine ⟨hfits, fun c hc => ?_⟩
    by_contra hroom
    obtain ⟨tail, rfl⟩ : ∃ s, tail = c :: s := by
      cases tail with
      | nil => cases hc
      | cons d s =>
        cases hc
        exact ⟨s, rfl⟩
    have hlen := hlongest (t ++ [c]) ⟨tail, by rw [hsplit, List.append_assoc]; rfl⟩ (not_lt.1 hroom)
    rw [List.length_append, List.length_singleton] at hlen
    omega
  · rintro ⟨hfits, hnext⟩
    refine ⟨⟨tail, hsplit.symm⟩, hfits, fun t' ht' hfits' => ?_⟩
    by_contra hlen
    -- a longer prefix has the next character in it
    obtain ⟨s, rfl⟩ : t <+: t' := List.prefix_of_prefix_length_le ⟨tail, hsplit.symm⟩ ht' (by omega)
    cases s with
    | nil => simp at hlen
    | cons c s =>
      have hhead : tail.head? = some c := by
        obtain ⟨u, hu⟩ := ht'
        rw [hsplit, List.append_assoc] at hu
        rw [← List.append_cancel_left hu]
        rfl
      have hmore := bytesWith_le_append (e := e) (t := t ++ [c]) (by simp) s
      rw [List.append_assoc, List.singleton_append] at hmore
      have hroom := hnext c hhead
      omega

/-! ## What is inserted -/

theorem inserted_nothing (h : e.keep f ≤ 0) : e.inserted f = utf16 [] := by
  unfold inserted ByteLengthFilter.inserted ByteLengthFilter.filter
  have hkeep : f.keep e.dest e.before.length (e.before.length + e.replaced.length) ≤ 0 := h
  rw [if_pos hkeep]
  rfl

theorem inserted_all (hpos : 0 < e.keep f) (h : e.units ≤ e.keep f) : e.inserted f = utf16 e.offered := by
  unfold inserted ByteLengthFilter.inserted ByteLengthFilter.filter
  have hkeep : ¬ f.keep e.dest e.before.length (e.before.length + e.replaced.length) ≤ 0 := not_le.2 hpos
  have hall : f.keep e.dest e.before.length (e.before.length + e.replaced.length) ≥
      ((e.start + e.units : Nat) : Int) - e.start := by
    have hunits : (e.units : Int) ≤ f.keep e.dest e.before.length (e.before.length + e.replaced.length) := h
    omega
  rw [if_neg hkeep, if_pos hall, Option.getD_none]
  have hlen : e.start + e.units = (utf16 (e.unused ++ e.offered)).length := by
    rw [utf16_append, List.length_append]
    rfl
  rw [source, utf16_append, hlen, List.take_left, utf16_append]
  exact List.drop_left

theorem inserted_cut (hpos : 0 < e.keep f) (h : e.keep f < e.units) : e.inserted f = utf16
    (if e.start + ((e.keep f).toNat + e.start) ≤ (utf8 e.source).length then
      decodeUtf8 f.malformed (((utf8 e.source).drop e.start).take ((e.keep f).toNat + e.start)) else []) := by
  have hkeep : ¬ f.keep e.dest e.before.length (e.before.length + e.replaced.length) ≤ 0 := not_le.2 hpos
  have hall : ¬ f.keep e.dest e.before.length (e.before.length + e.replaced.length) ≥
      ((e.start + e.units : Nat) : Int) - e.start := by
    have hunits : f.keep e.dest e.before.length (e.before.length + e.replaced.length) < e.units := h
    omega
  have hnat : (e.keep f + e.start).toNat = (e.keep f).toNat + e.start := by omega
  have hcut : f.inserted (utf16 e.source) e.start (e.start + e.units) e.dest e.before.length
      (e.before.length + e.replaced.length) =
        (newString f.malformed (utf8 e.source) e.start (e.keep f + e.start).toNat).getD [] := by
    unfold ByteLengthFilter.inserted ByteLengthFilter.filter
    rw [if_neg hkeep, if_neg hall, getBytes_utf16]
    rfl
  unfold inserted
  rw [hcut, hnat, newString]
  split
  · next hout =>
    rw [if_neg (by omega)]
    rfl
  · next hin =>
    rw [if_pos (by omega)]
    rfl

/-- What is read from the bytes that are cut out. -/
theorem cutsOut_iff : e.CutsOut f t ↔
    (if e.start + ((e.keep f).toNat + e.start) ≤ (utf8 e.source).length then
      decodeUtf8 f.malformed (((utf8 e.source).drop e.start).take ((e.keep f).toNat + e.start)) else []) = t := by
  unfold CutsOut
  dsimp only
  split
  · constructor
    · rintro (hcut | ⟨-, hcut⟩)
      · rw [hcut, decodeUtf8_utf8]
      · exact hcut
    · intro h
      by_cases hrep : replacement ∈ t
      · exact .inr ⟨hrep, h⟩
      · rw [← h] at hrep ⊢
        exact .inl (utf8_of_decodeUtf8 hrep).symm
  · exact eq_comm

/-- An edit is filtered as the limit asks if and only if its counts agree. -/
theorem keepsLimit_iff (f : ByteLengthFilter) (e : Edit) :
    KeepsLimit f e ↔ (((getUtf8Bytes e.dest).length : Int) ≤ f.mMax → CountsAgree f e) := by
  refine imp_congr_right fun _ => ?_
  constructor
  · rintro ⟨t, hlongest, hinserted⟩
    obtain ⟨tail, hsplit⟩ := hlongest.begins
    have hroom := (longestPrefix_iff hsplit.symm).1 hlongest
    refine ⟨fun h => ?_, fun hpos h => ?_, fun hpos h => ?_⟩
    · rw [inserted_nothing h, utf16_inj] at hinserted
      subst hinserted
      rw [List.nil_append] at hsplit
      rw [← hsplit]
      exact hroom
    · rw [inserted_all hpos h, utf16_inj] at hinserted
      rw [hinserted]
      exact hroom.1
    · rw [inserted_cut hpos h, utf16_inj] at hinserted
      exact ⟨t, tail, hsplit.symm, hroom.1, hroom.2, cutsOut_iff.2 hinserted⟩
  · rintro ⟨hnothing, hall, hcut⟩
    rcases le_or_gt (e.keep f) 0 with h | hpos
    · exact ⟨[], (longestPrefix_iff rfl).2 (hnothing h), inserted_nothing h⟩
    · rcases le_or_gt (e.units : Int) (e.keep f) with h | h
      · refine ⟨e.offered, (longestPrefix_iff (List.append_nil _).symm).2 ⟨hall hpos h, ?_⟩, inserted_all hpos h⟩
        intro c hc
        cases hc
      · obtain ⟨t, tail, hsplit, hfits, hnext, hcuts⟩ := hcut hpos h
        refine ⟨t, (longestPrefix_iff hsplit).2 ⟨hfits, hnext⟩, ?_⟩
        rw [inserted_cut hpos h, cutsOut_iff.1 hcuts]

end Edit

namespace Sample

/-- A comment of 500 letters of two bytes is pasted into an empty field. -/
def pasteAccents : Edit := ⟨[], [], [], [], List.replicate 500 'é', []⟩

/-- 500 code units are let through the limit of 500 bytes, and have 1000 bytes. -/
theorem pasteAccents_not_keepsLimit : ¬ ∀ f e, Edit.KeepsLimit f e := by
  intro h
  obtain ⟨t, hlongest, hinserted⟩ := h ⟨500, fun _ => 0⟩ pasteAccents (by decide)
  have hall : pasteAccents.inserted ⟨500, fun _ => 0⟩ = utf16 pasteAccents.offered := by decide +kernel
  rw [hall, utf16_inj] at hinserted
  have hfits := hlongest.fits
  rw [← hinserted] at hfits
  revert hfits
  decide +kernel

end Sample

end TonWallet.App
