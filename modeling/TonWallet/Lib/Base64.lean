/-
Base64: bytes as digits of six bits, and the digits as symbols of an alphabet. The texts built from
them differ in their alphabets, padding and line breaks; the digits are the same for all of them.
-/
import Mathlib.Data.List.Nodup
import Mathlib.Data.List.GetD

namespace Lib.Base64

/-! ## Digits -/

/-- The six-bit digits of some bytes; the last one is filled up with zero bits. -/
def digits : List UInt8 → List Nat
  | [] => []
  | [a] => [a.toNat / 4, a.toNat % 4 * 16]
  | [a, b] => [a.toNat / 4, a.toNat % 4 * 16 + b.toNat / 16, b.toNat % 16 * 4]
  | a :: b :: c :: bs =>
    a.toNat / 4 :: (a.toNat % 4 * 16 + b.toNat / 16) :: (b.toNat % 16 * 4 + c.toNat / 64) :: c.toNat % 64 :: digits bs

/-- The bytes of some digits; a single last digit is too short for a byte. -/
def ofDigits : List Nat → Option (List UInt8)
  | [] => some []
  | [_] => none
  | [s, t] => some [.ofNat (s * 4 + t / 16)]
  | [s, t, u] => some [.ofNat (s * 4 + t / 16), .ofNat (t % 16 * 16 + u / 4)]
  | s :: t :: u :: v :: ds =>
    (ofDigits ds).map fun bs =>
      .ofNat (s * 4 + t / 16) :: .ofNat (t % 16 * 16 + u / 4) :: .ofNat (u % 4 * 64 + v) :: bs

theorem ofNat_of_eq_toNat {n : Nat} {a : UInt8} (h : n = a.toNat) : UInt8.ofNat n = a := by
  rw [h]
  exact UInt8.ofNat_toNat

theorem ofDigits_digits (bs : List UInt8) : ofDigits (digits bs) = some bs := by
  induction bs using digits.induct with
  | case1 => rfl
  | case2 a =>
    have ha := a.toNat_lt
    simp only [digits, ofDigits]
    rw [ofNat_of_eq_toNat (a := a) (by omega)]
  | case3 a b =>
    have ha := a.toNat_lt
    have hb := b.toNat_lt
    simp only [digits, ofDigits]
    rw [ofNat_of_eq_toNat (a := a) (by omega), ofNat_of_eq_toNat (a := b) (by omega)]
  | case4 a b c bs ih =>
    have ha := a.toNat_lt
    have hb := b.toNat_lt
    have hc := c.toNat_lt
    simp only [digits, ofDigits, ih, Option.map_some]
    rw [ofNat_of_eq_toNat (a := a) (by omega), ofNat_of_eq_toNat (a := b) (by omega),
      ofNat_of_eq_toNat (a := c) (by omega)]

theorem digits_lt {bs : List UInt8} : ∀ d ∈ digits bs, d < 64 := by
  induction bs using digits.induct with
  | case1 => simp [digits]
  | case2 a =>
    have ha := a.toNat_lt
    simp only [digits, List.mem_cons, List.not_mem_nil, or_false]
    omega
  | case3 a b =>
    have ha := a.toNat_lt
    have hb := b.toNat_lt
    simp only [digits, List.mem_cons, List.not_mem_nil, or_false]
    omega
  | case4 a b c bs ih =>
    have ha := a.toNat_lt
    have hb := b.toNat_lt
    have hc := c.toNat_lt
    simp only [digits, List.mem_cons]
    rintro d (hd | hd | hd | hd | hd)
    · omega
    · omega
    · omega
    · omega
    · exact ih d hd

theorem length_digits (bs : List UInt8) : (digits bs).length = (bs.length * 4 + 2) / 3 := by
  induction bs using digits.induct with
  | case1 => rfl
  | case2 a => simp [digits]
  | case3 a b => simp [digits]
  | case4 a b c bs ih =>
    simp only [digits, List.length_cons, ih]
    omega

/-! ## Symbols -/

/-- Sixty-four symbols, all different. -/
structure Alphabet where
  symbols : List Char
  length_eq : symbols.length = 64
  nodup : symbols.Nodup

namespace Alphabet

variable (A : Alphabet)

def symbol (d : Nat) : Char := A.symbols.getD d '='

/-- The digit a symbol stands for. -/
def value (c : Char) : Option Nat := if c ∈ A.symbols then some (A.symbols.idxOf c) else none

theorem value_symbol {d : Nat} (h : d < 64) : A.value (A.symbol d) = some d := by
  have hd : d < A.symbols.length := A.length_eq.symm ▸ h
  have hs : A.symbol d = A.symbols[d] := List.getD_eq_getElem _ _ hd
  unfold value
  rw [if_pos (hs ▸ List.getElem_mem hd), hs, A.nodup.idxOf_getElem]

theorem symbol_mem {d : Nat} (h : d < 64) : A.symbol d ∈ A.symbols := by
  have hd : d < A.symbols.length := A.length_eq.symm ▸ h
  have hs : A.symbol d = A.symbols[d] := List.getD_eq_getElem _ _ hd
  exact hs ▸ List.getElem_mem hd

theorem exists_symbol {c : Char} (h : c ∈ A.symbols) : ∃ d < 64, A.symbol d = c := by
  obtain ⟨d, hd, rfl⟩ := List.getElem_of_mem h
  exact ⟨d, A.length_eq ▸ hd, List.getD_eq_getElem _ _ hd⟩

/-- The symbols of some bytes. -/
def encode (bs : List UInt8) : List Char := (digits bs).map A.symbol

/-- The bytes of some symbols. -/
def decode (cs : List Char) : Option (List UInt8) := (cs.mapM A.value).bind ofDigits

theorem mapM_value_symbol {ds : List Nat} (h : ∀ d ∈ ds, d < 64) : (ds.map A.symbol).mapM A.value = some ds := by
  induction ds with
  | nil => rfl
  | cons d ds ih =>
    have hd := A.value_symbol (h d (by simp))
    have hds := ih fun e he => h e (by simp [he])
    simp [hd, hds]

theorem decode_encode (bs : List UInt8) : A.decode (A.encode bs) = some bs := by
  unfold decode encode
  rw [A.mapM_value_symbol digits_lt]
  exact ofDigits_digits bs

theorem length_encode (bs : List UInt8) : (A.encode bs).length = (bs.length * 4 + 2) / 3 := by
  rw [encode, List.length_map, length_digits]

theorem encode_mem {bs : List UInt8} : ∀ c ∈ A.encode bs, c ∈ A.symbols := by
  intro c hc
  obtain ⟨d, hd, rfl⟩ := List.mem_map.1 hc
  exact A.symbol_mem (digits_lt d hd)

end Alphabet

def letters : List Char := "ABCDEFGHIJKLMNOPQRSTUVWXYZabcdefghijklmnopqrstuvwxyz0123456789".toList

/-- The codes of the letters and digits. -/
def letterCodes : List Nat := List.range' 65 26 ++ List.range' 97 26 ++ List.range' 48 10

theorem letters_toNat : letters.map Char.toNat = letterCodes := by
  decide +kernel

theorem length_letters_append (c d : Char) : (letters ++ [c, d]).length = 64 := by
  rw [← List.length_map Char.toNat, List.map_append, letters_toNat]
  rfl

theorem nodup_letterCodes : letterCodes.Nodup := by
  refine List.nodup_append.2 ⟨List.nodup_append.2 ⟨List.nodup_range', List.nodup_range', ?_⟩, List.nodup_range', ?_⟩
  · intro m hm n hn
    rw [List.mem_range'_1] at hm hn
    omega
  · intro m hm n hn
    rw [List.mem_append, List.mem_range'_1, List.mem_range'_1] at hm
    rw [List.mem_range'_1] at hn
    omega

theorem nodup_letters_append {c d : Char} (hc : c.toNat ∉ letterCodes) (hd : d.toNat ∉ letterCodes) (hne : c ≠ d) :
    (letters ++ [c, d]).Nodup := by
  have hmem {e : Char} (he : e ∈ letters) : e.toNat ∈ letterCodes := letters_toNat ▸ List.mem_map_of_mem he
  refine List.nodup_append.2 ⟨List.Nodup.of_map Char.toNat (letters_toNat ▸ nodup_letterCodes), by simp [hne], ?_⟩
  rintro e he f hf rfl
  rcases List.mem_pair.1 hf with rfl | rfl
  · exact hc (hmem he)
  · exact hd (hmem he)

/-- The alphabet with plus and slash. -/
def standard : Alphabet :=
  ⟨letters ++ ['+', '/'], length_letters_append '+' '/', nodup_letters_append (by decide) (by decide) (by decide)⟩

/-- The alphabet with hyphen and underscore. -/
def url : Alphabet :=
  ⟨letters ++ ['-', '_'], length_letters_append '-' '_', nodup_letters_append (by decide) (by decide) (by decide)⟩

theorem standard_toNat : standard.symbols.map Char.toNat = letterCodes ++ [43, 47] := by
  rw [standard, List.map_append, letters_toNat]
  rfl

theorem url_toNat : url.symbols.map Char.toNat = letterCodes ++ [45, 95] := by
  rw [url, List.map_append, letters_toNat]
  rfl

theorem mem_url_iff (c : Char) : c ∈ url.symbols ↔ c.toNat ∈ letterCodes ++ [45, 95] := by
  rw [← url_toNat]
  constructor
  · exact List.mem_map_of_mem
  · intro h
    obtain ⟨d, hd, hcode⟩ := List.mem_map.1 h
    exact Char.toNat_inj.1 hcode ▸ hd

theorem toNat_lt_of_mem_url {c : Char} (h : c ∈ url.symbols) : c.toNat < 128 := by
  have hcodes : ∀ n ∈ letterCodes ++ [45, 95], n < 128 := by decide
  exact hcodes _ ((mem_url_iff c).1 h)

end Lib.Base64
