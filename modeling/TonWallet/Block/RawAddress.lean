/-
Raw addresses: what `StdAddress::parse` makes of a text that is no packed address. A raw address is a workchain and 64
hexadecimal digits; the parser takes any letter for a digit, and no workchain that is written with eleven characters.
-/
import TonWallet.Block.PackedAddress
import Mathlib.Data.List.TakeWhile

namespace TonWallet.Block

open Lib TonWallet.Td TonWallet.Ton

/-! ## The form of a raw address -/

/-- The value of a hexadecimal digit. -/
def hexValue (c : Char) : Option Nat :=
  if '0' ≤ c ∧ c ≤ '9' then some (c.toNat - '0'.toNat)
  else if 'a' ≤ c ∧ c ≤ 'f' then some (c.toNat - 'a'.toNat + 10)
  else if 'A' ≤ c ∧ c ≤ 'F' then some (c.toNat - 'A'.toNat + 10)
  else none

def isHexDigit (c : Char) : Bool := (hexValue c).isSome

/-- The number that digits denote. -/
def hexNumber (digits : List Char) : Nat := digits.foldl (fun n c => 16 * n + (hexValue c).getD 0) 0

/-- A text taken apart: `[workchain:]` and 64 characters for the digits. -/
inductive IsRaw (s : List Char) : Int32 → List Char → Prop
  | bare : s.length = 64 → IsRaw s workchainInvalid s
  | named {wc : Int32} {digits : List Char} :
    wc ≠ workchainInvalid → s = (toString wc.toInt).toList ++ ':' :: digits → digits.length = 64 → IsRaw s wc digits

/-- The address of a text in the raw form. -/
def RawForm (s : List Char) (a : StdAddress) : Prop :=
  ∃ wc digits, IsRaw s wc digits ∧ digits.all isHexDigit ∧
    a = { workchain := wc, bounceable := true, testnet := false, addr := BitVec.ofNat 256 (hexNumber digits) }

/-- A packed address, whatever is in the memory of the buffer that it is unpacked to. -/
def ValidPacked (s : List Char) : Prop :=
  ∃ a, ∀ uninitialized, StdAddress.rdeserialize uninitialized s = some a

/-- A workchain that takes at most ten characters, or none. -/
def ShortWorkchain (wc : Int32) : Prop := wc = workchainInvalid ∨ -1000000000 < wc.toInt

/-- The texts that are read as they are written: a padded text is not a packed address by chance, no workchain is too
long, and no letter behind the sixth one stands for a digit. -/
def ReadAsWritten (uninitialized : Fin 36 → UInt8) (s : List Char) : Prop :=
  ¬ (s.getLast? = some '=' ∧ (StdAddress.rdeserialize uninitialized s).isSome) ∧
    ∀ wc digits, IsRaw s wc digits →
      (digits.all isHexDigit → ShortWorkchain wc) ∧
        (ShortWorkchain wc → digits.all Char.isAlphanum → digits.all isHexDigit)

/-! ## Digits -/

namespace StdAddress

/-- The codes of the characters that the parser takes for digits. -/
theorem parseHexDigit_eq (c : Char) : (parseHexDigit c).isSome = c.isAlphanum ∧
    (isHexDigit c = true → parseHexDigit c = hexValue c ∧ ∃ v, hexValue c = some v ∧ v < 16) := by
  have hascii : ∀ n : Fin 128, (parseHexDigit (Char.ofNat n)).isSome = (Char.ofNat n).isAlphanum ∧
      (isHexDigit (Char.ofNat n) = true → parseHexDigit (Char.ofNat n) = hexValue (Char.ofNat n) ∧
        (hexValue (Char.ofNat n)).getD 16 < 16) := by
    decide +kernel
  by_cases hc : c.toNat < 128
  · have h := hascii ⟨c.toNat, hc⟩
    rw [Char.ofNat_toNat] at h
    refine ⟨h.1, fun hhex => ⟨(h.2 hhex).1, ?_⟩⟩
    obtain ⟨v, hv⟩ := Option.isSome_iff_exists.1 hhex
    have hlt := (h.2 hhex).2
    rw [hv] at hlt
    exact ⟨v, hv, hlt⟩
  · -- the codes of other characters are greater than those of all letters
    have hor : 128 ≤ c.toNat ||| 0x20 := le_trans (Nat.le_of_not_lt hc) Nat.left_le_or
    have hnone : parseHexDigit c = none := by
      unfold parseHexDigit
      rw [if_neg (by rintro ⟨-, h⟩; exact hc (lt_of_le_of_lt h (by decide)))]
      dsimp only
      rw [if_neg (by rintro ⟨-, h⟩; exact absurd (le_trans hor h) (by decide))]
    have hle (d : Char) (hd : d.toNat < 128) : ¬ c ≤ d := fun h =>
      hc (lt_of_le_of_lt (show c.toNat ≤ d.toNat from h) hd)
    have hhex : hexValue c = none := by
      unfold hexValue
      rw [if_neg fun h => hle '9' (by decide) h.2, if_neg fun h => hle 'f' (by decide) h.2,
        if_neg fun h => hle 'F' (by decide) h.2]
    refine ⟨?_, fun h => ?_⟩
    · rw [hnone]
      symm
      unfold Char.isAlphanum Char.isAlpha Char.isUpper Char.isLower Char.isDigit
      have hval : c.toNat = c.val.toNat := rfl
      simp only [Option.isSome_none, Bool.or_eq_false_iff, Bool.and_eq_false_iff, decide_eq_false_iff_not, ge_iff_le,
        UInt32.le_iff_toNat_le]
      rw [hval] at hc
      have hle (n : Nat) (hn : n < 128) : ¬ c.toNat ≤ n := fun h => hc (lt_of_le_of_lt h hn)
      exact ⟨⟨fun h => hle _ (by decide) h.2, .inr (hle _ (by decide))⟩, .inr (hle _ (by decide))⟩
    · rw [isHexDigit, hhex] at h
      cases h

theorem isAlphanum_of_isHexDigit {c : Char} (h : isHexDigit c = true) : c.isAlphanum = true := by
  obtain ⟨halnum, hvalue⟩ := parseHexDigit_eq c
  obtain ⟨heq, v, hv, -⟩ := hvalue h
  rw [← halnum, heq, hv]
  rfl

/-- An even number of characters is taken for digits if they are letters and digits. -/
theorem isSome_parseHexBytes (digits : List Char) (h : digits.length % 2 = 0) :
    (parseHexBytes digits).isSome = digits.all Char.isAlphanum := by
  induction digits using parseHexBytes.induct with
  | case1 c d cs ih =>
    have hcs : cs.length % 2 = 0 := by
      simp only [List.length_cons] at h
      omega
    rw [parseHexBytes, List.all_cons, List.all_cons, ← ih hcs, ← (parseHexDigit_eq c).1, ← (parseHexDigit_eq d).1]
    rcases parseHexDigit c with _ | x
    · rfl
    · rcases parseHexDigit d with _ | y
      · rfl
      · rcases parseHexBytes cs with _ | bytes <;> rfl
  | case2 digits hshort =>
    match digits with
    | [] => rfl
    | [_] => cases h
    | c :: d :: cs => exact absurd rfl (hshort c d cs)

/-- Two digits make a byte. -/
theorem natToBits_byteOfDigits {x y : Nat} (hx : x < 16) (hy : y < 16) :
    natToBits 8 (UInt8.ofNat (((x <<< 4) &&& 0xf0) ||| y)).toNat = natToBits 8 (16 * x + y) := by
  have hall : ∀ x y : Fin 16, natToBits 8 (UInt8.ofNat (((x.1 <<< 4) &&& 0xf0) ||| y.1)).toNat =
      natToBits 8 (16 * x.1 + y.1) := by decide
  exact hall ⟨x, hx⟩ ⟨y, hy⟩

theorem hexNumber_cons (c : Char) (cs : List Char) :
    hexNumber (c :: cs) = 16 ^ cs.length * (hexValue c).getD 0 + hexNumber cs := by
  have hfold (cs : List Char) (n : Nat) : cs.foldl (fun n c => 16 * n + (hexValue c).getD 0) n =
      16 ^ cs.length * n + hexNumber cs := by
    induction cs generalizing n with
    | nil => simp [hexNumber]
    | cons c cs ih =>
      have hcons : hexNumber (c :: cs) = 16 ^ cs.length * (16 * 0 + (hexValue c).getD 0) + hexNumber cs := ih _
      rw [List.foldl_cons, ih, hcons, List.length_cons, pow_succ]
      ring
  rw [hexNumber, List.foldl_cons, hfold]
  ring

/-- The bits of the bytes are those of the digits. -/
theorem bitsToNat_parseHexBytes {digits : List Char} {bytes : List UInt8} (hlen : digits.length % 2 = 0)
    (hhex : digits.all isHexDigit = true) (h : parseHexBytes digits = some bytes) :
    2 * bytes.length = digits.length ∧ bitsToNat (bytesToBits bytes) = hexNumber digits := by
  induction digits using parseHexBytes.induct generalizing bytes with
  | case1 c d cs ih =>
    rw [List.all_cons, List.all_cons, Bool.and_eq_true, Bool.and_eq_true] at hhex
    obtain ⟨hc, hd, hcs⟩ := hhex
    obtain ⟨hceq, x, hx, hx16⟩ := (parseHexDigit_eq c).2 hc
    obtain ⟨hdeq, y, hy, hy16⟩ := (parseHexDigit_eq d).2 hd
    simp only [parseHexBytes, hceq, hdeq, hx, hy, Option.bind_eq_bind, Option.bind_some] at h
    obtain ⟨rest, hrest, h⟩ := Option.bind_eq_some_iff.1 h
    cases h
    have hcslen : cs.length % 2 = 0 := by
      simp only [List.length_cons] at hlen
      omega
    obtain ⟨hrestlen, hvalue⟩ := ih hcslen hcs hrest
    have hpow : 2 ^ (8 * rest.length) = 16 ^ cs.length := by
      rw [← hrestlen, pow_mul 16, pow_mul 2]
      norm_num
    constructor
    · rw [List.length_cons, List.length_cons, List.length_cons]
      omega
    · rw [bytesToBits_cons, natToBits_byteOfDigits hx16 hy16, bitsToNat_append, length_bytesToBits,
        bitsToNat_natToBits, Nat.mod_eq_of_lt (by omega), hvalue, hpow, hexNumber_cons, hexNumber_cons, hx, hy,
        Option.getD_some, Option.getD_some, List.length_cons, pow_succ]
      ring
  | case2 digits hshort =>
    match digits with
    | [] =>
      cases h
      exact ⟨rfl, rfl⟩
    | [_] => cases hlen
    | c :: d :: cs => exact absurd rfl (hshort c d cs)

/-- What 64 characters for digits are read as. -/
theorem parseDigits_iff {wc : Int32} {digits : List Char} {a : StdAddress} (hlen : digits.length = 64) :
    parseDigits wc digits = some a ↔ digits.all Char.isAlphanum = true ∧
      a = { workchain := wc, addr := addrOfBytes ((parseHexBytes digits).getD []) } := by
  have hsome := isSome_parseHexBytes digits (by omega)
  unfold parseDigits
  rw [if_neg (not_not.2 hlen), ← hsome]
  rcases parseHexBytes digits with _ | bytes
  · simp
  · simp [eq_comm]

/-! ## Workchains -/

/-- The decimals of a number. -/
theorem toList_toString (wc : Int) : (toString wc).toList =
    if 0 ≤ wc then Nat.toDigits 10 wc.natAbs else '-' :: Nat.toDigits 10 wc.natAbs := by
  rw [Int.toString_eq_repr, Int.repr_eq_if]
  rcases wc with n | n
  · simp
  · have hneg : ¬ (0 : Int) ≤ Int.negSucc n := by omega
    simp [hneg]

/-- Decimals are read as they are printed. -/
theorem foldl_toDigits (n : Nat) :
    (Nat.toDigits 10 n).foldl (fun (n : UInt32) c => n * 10 + UInt32.ofNat (c.toNat - '0'.toNat)) 0 = UInt32.ofNat n := by
  have hfold (cs : List Char) (m : Nat) :
      cs.foldl (fun (n : UInt32) c => n * 10 + UInt32.ofNat (c.toNat - '0'.toNat)) (UInt32.ofNat m) =
        UInt32.ofNat (Nat.ofDigitChars 10 cs m) := by
    induction cs generalizing m with
    | nil => simp
    | cons c cs ih =>
      rw [List.foldl_cons, Nat.ofDigitChars_cons, ← ih, UInt32.ofNat_add, UInt32.ofNat_mul, UInt32.mul_comm]
      rfl
  have h := hfold (Nat.toDigits 10 n) 0
  rwa [Nat.ofDigitChars_ten_toDigits] at h

theorem takeWhile_toDigits (n : Nat) : (Nat.toDigits 10 n).takeWhile Char.isDigit = Nat.toDigits 10 n :=
  List.takeWhile_eq_self_iff.2 fun _ hc => Nat.isDigit_of_mem_toDigits (by decide) (by decide) hc

theorem head?_toDigits_ne (n : Nat) : (Nat.toDigits 10 n).head? ≠ some '-' := by
  intro h
  have hdigit := Nat.isDigit_of_mem_toDigits (b := 10) (by decide) (by decide) (List.mem_of_mem_head? h)
  exact absurd hdigit (by decide)

theorem toInt_toInt32_ofNat {n : Nat} (h : n ≤ 2147483647) : (UInt32.ofNat n).toInt32.toInt = n := by
  show (BitVec.ofNat 32 n).toInt = n
  rw [BitVec.toInt_ofNat', Int.bmod_def]
  omega

/-- Every workchain is read from its decimals. -/
theorem toInteger_toString_toInt (wc : Int32) : toInteger (toString wc.toInt).toList = wc := by
  have hlo := wc.le_toInt
  have hhi := wc.toInt_lt
  obtain ⟨n, hn⟩ : ∃ n, wc.toInt.natAbs = n := ⟨_, rfl⟩
  have hlimit : (2147483647 : UInt32).toNat = 2147483647 := rfl
  have hsmall (h : n ≤ 2147483647) : ¬ (UInt32.ofNat n > 2147483647) := by
    rw [gt_iff_lt, UInt32.lt_iff_toNat_lt, UInt32.toNat_ofNat']
    omega
  rw [toList_toString, hn]
  by_cases hsign : 0 ≤ wc.toInt
  · rw [if_pos hsign]
    unfold toInteger
    simp only [head?_toDigits_ne, if_false, takeWhile_toDigits, foldl_toDigits, hsmall (by omega), decide_false,
      Bool.false_eq_true]
    apply Int32.toInt_inj.1
    rw [toInt_toInt32_ofNat (by omega)]
    omega
  · rw [if_neg hsign]
    unfold toInteger
    simp only [List.head?_cons, if_true, List.tail_cons, takeWhile_toDigits, foldl_toDigits, decide_true]
    by_cases hle : n ≤ 2147483647
    · simp only [hsmall hle, if_false, if_true]
      apply Int32.toInt_inj.1
      rw [Int32.toInt_neg, toInt_toInt32_ofNat hle, Int.bmod_def]
      omega
    · -- the least number is its own negative
      have hmin : n = 2147483648 := by omega
      have hwc : wc = Int32.minValue := by
        apply Int32.toInt_inj.1
        rw [show Int32.minValue.toInt = -2147483648 from rfl]
        omega
      rw [hmin, hwc]
      decide

/-- The workchains that are read are those that are written as they are printed. -/
theorem toIntegerSafe_iff {text : List Char} {wc : Int32} :
    toIntegerSafe text = some wc ↔ text = (toString wc.toInt).toList := by
  constructor
  · intro h
    exact (eq_of_toIntegerSafe h).1
  · rintro rfl
    unfold toIntegerSafe
    dsimp only
    rw [toInteger_toString_toInt, if_neg (not_not.2 rfl)]

theorem toString_toInt_inj {wc wc' : Int32} (h : (toString wc.toInt).toList = (toString wc'.toInt).toList) : wc = wc' := by
  rw [← toInteger_toString_toInt wc, h, toInteger_toString_toInt]

theorem colon_not_mem_toString (wc : Int) : ':' ∉ (toString wc).toList := by
  have hdigits (n : Nat) : ':' ∉ Nat.toDigits 10 n := fun h =>
    absurd (Nat.isDigit_of_mem_toDigits (b := 10) (by decide) (by decide) h) (by decide)
  rw [toList_toString]
  split
  · exact hdigits _
  · rw [List.mem_cons, not_or]
    exact ⟨by decide, hdigits _⟩

/-- The workchains that take at most ten characters. -/
theorem length_toString_le_iff {wc : Int32} (hwc : wc ≠ workchainInvalid) :
    (toString wc.toInt).toList.length ≤ 10 ↔ ShortWorkchain wc := by
  have hhi := wc.toInt_lt
  rw [toList_toString, ShortWorkchain, or_iff_right hwc]
  split
  · rw [Nat.length_toDigits_le_iff (by decide) (by decide)]
    omega
  · rw [List.length_cons, Nat.add_le_add_iff_right (k := 9), Nat.length_toDigits_le_iff (by decide) (by decide)]
    omega

/-! ## What is parsed -/

variable {uninitialized : Fin 36 → UInt8} {s : List Char} {a : StdAddress}

theorem colon_not_mem_of_isAlphanum (h : s.all Char.isAlphanum = true) : ':' ∉ s := fun hmem =>
  absurd (List.all_eq_true.1 h ':' hmem) (by decide)

theorem findIdx_colon {text digits : List Char} (h : ':' ∉ text) :
    (text ++ ':' :: digits).findIdx (· == ':') = text.length := by
  induction text with
  | nil => rfl
  | cons c text ih =>
    rw [List.mem_cons, not_or] at h
    rw [List.cons_append, List.findIdx_cons, ih h.2, List.length_cons, beq_false_of_ne (Ne.symm h.1)]
    rfl

/-- The raw texts that are accepted, and the addresses that they are read as. -/
theorem parseAddr_iff (hpacked : rdeserialize uninitialized s = none) :
    parseAddr uninitialized s = some a ↔ ∃ wc digits, IsRaw s wc digits ∧ ShortWorkchain wc ∧
      digits.all Char.isAlphanum = true ∧ a = { workchain := wc, addr := addrOfBytes ((parseHexBytes digits).getD []) } := by
  unfold parseAddr
  rw [hpacked]
  dsimp only
  constructor
  · intro h
    split at h
    · next hpos =>
      obtain ⟨hsplit, hnot⟩ := split_of_findIdx hpos
      split at h
      · cases h
      · next hshort =>
        split at h
        · cases h
        · next wc hread =>
          split at h
          · cases h
          · next hwc =>
            have hlen := (workchain_of_parseDigits h).1
            obtain ⟨halnum, ha⟩ := (parseDigits_iff hlen).1 h
            have htext := toIntegerSafe_iff.1 hread
            refine ⟨wc, _, .named hwc (htext ▸ hsplit) hlen, (length_toString_le_iff hwc).1 ?_, halnum, ha⟩
            rw [← htext, List.length_take]
            omega
    · have hlen := (workchain_of_parseDigits h).1
      obtain ⟨halnum, ha⟩ := (parseDigits_iff hlen).1 h
      exact ⟨workchainInvalid, s, .bare hlen, .inl rfl, halnum, ha⟩
  · rintro ⟨wc, digits, hraw, hshort, halnum, ha⟩
    cases hraw with
    | bare hlen =>
      have hpos : ¬ s.findIdx (· == ':') < s.length := fun hlt =>
        colon_not_mem_of_isAlphanum halnum ((split_of_findIdx hlt).1 ▸ List.mem_append_right _ List.mem_cons_self)
      rw [if_neg hpos]
      exact (parseDigits_iff hlen).2 ⟨halnum, ha⟩
    | named hwc hs hlen =>
      have hpos : s.findIdx (· == ':') = (toString wc.toInt).toList.length := by
        rw [hs]
        exact findIdx_colon (colon_not_mem_toString _)
      have hlt : s.findIdx (· == ':') < s.length := by
        rw [hpos, hs, List.length_append, List.length_cons]
        omega
      have htake : s.take (s.findIdx (· == ':')) = (toString wc.toInt).toList := by
        rw [hpos, hs]
        exact List.take_left
      have hdrop : s.drop (s.findIdx (· == ':') + 1) = digits := by
        rw [hpos, hs, ← List.drop_drop, List.drop_left]
        rfl
      have hten := (length_toString_le_iff hwc).2 hshort
      rw [if_pos hlt, if_neg (by omega), htake, hdrop, toIntegerSafe_iff.2 rfl]
      dsimp only
      rw [if_neg hwc]
      exact (parseDigits_iff hlen).2 ⟨halnum, ha⟩

theorem parse_iff_parseAddr : parse uninitialized s = .ok a ↔ parseAddr uninitialized s = some a := by
  unfold parse
  rcases parseAddr uninitialized s with _ | b
  · simp
  · simp

end StdAddress

/-- A text is taken apart in one way, as no digit is a colon. -/
theorem IsRaw.unique {s : List Char} {wc wc' : Int32} {digits digits' : List Char} (h : IsRaw s wc digits)
    (h' : IsRaw s wc' digits') (hcolon : ':' ∉ digits) (hcolon' : ':' ∉ digits') : wc = wc' ∧ digits = digits' := by
  cases h with
  | bare hlen =>
    cases h' with
    | bare => exact ⟨rfl, rfl⟩
    | named _ hs _ =>
      rw [hs] at hcolon
      exact absurd (List.mem_append_right _ List.mem_cons_self) hcolon
  | named _ hs _ =>
    cases h' with
    | bare hlen =>
      rw [hs] at hcolon'
      exact absurd (List.mem_append_right _ List.mem_cons_self) hcolon'
    | named _ hs' _ =>
      have heq := hs.symm.trans hs'
      have htext := StdAddress.eq_of_append_cons heq (StdAddress.colon_not_mem_toString _)
        (StdAddress.colon_not_mem_toString _)
      rw [htext] at heq
      exact ⟨StdAddress.toString_toInt_inj htext, (List.cons.inj (List.append_cancel_left heq)).2⟩

section Parse

variable {uninitialized : Fin 36 → UInt8} {s : List Char} {a : StdAddress}

/-- A packed address without padding does not depend on the memory of the buffer. -/
theorem validPacked_of_rdeserialize (h : StdAddress.rdeserialize uninitialized s = some a)
    (hpad : s.getLast? ≠ some '=') : ValidPacked s := by
  refine ⟨a, fun uninitialized' => ?_⟩
  rw [← h]
  obtain ⟨hlen, -⟩ := StdAddress.fitsByte_of_rdeserialize h
  unfold StdAddress.rdeserialize unpackStdSmcAddr
  rw [StdAddress.buffBase64Decode_of_length hlen hpad, StdAddress.buffBase64Decode_of_length hlen hpad]

/-- The address that hexadecimal digits are read as. -/
theorem addrOfBytes_parseHexBytes {digits : List Char} (hlen : digits.length = 64)
    (hhex : digits.all isHexDigit = true) :
    addrOfBytes ((StdAddress.parseHexBytes digits).getD []) = BitVec.ofNat 256 (hexNumber digits) := by
  have halnum : digits.all Char.isAlphanum = true :=
    List.all_eq_true.2 fun c hc => StdAddress.isAlphanum_of_isHexDigit (List.all_eq_true.1 hhex c hc)
  rw [← StdAddress.isSome_parseHexBytes _ (by omega)] at halnum
  obtain ⟨bytes, hbytes⟩ := Option.isSome_iff_exists.1 halnum
  obtain ⟨-, hvalue⟩ := StdAddress.bitsToNat_parseHexBytes (by omega) hhex hbytes
  rw [hbytes, Option.getD_some, addrOfBytes, hvalue]

theorem IsRaw.length_digits {wc : Int32} {digits : List Char} (h : IsRaw s wc digits) :
    digits.length = 64 ∧ 64 ≤ s.length := by
  cases h with
  | bare hlen => exact ⟨hlen, hlen.ge⟩
  | named _ hs hlen =>
    rw [hs, List.length_append, List.length_cons]
    exact ⟨hlen, by omega⟩

theorem isAlphanum_of_all_isHexDigit {digits : List Char} (h : digits.all isHexDigit = true) :
    digits.all Char.isAlphanum = true :=
  List.all_eq_true.2 fun c hc => StdAddress.isAlphanum_of_isHexDigit (List.all_eq_true.1 h c hc)

/-- A text of the raw form is accepted, as the address of that form, exactly if its workchain is short. -/
theorem parse_rawForm_iff (hpacked : StdAddress.rdeserialize uninitialized s = none) (h : RawForm s a) :
    StdAddress.parse uninitialized s = .ok a ↔ ShortWorkchain a.workchain := by
  obtain ⟨wc, digits, hraw, hhex, rfl⟩ := h
  rw [StdAddress.parse_iff_parseAddr, StdAddress.parseAddr_iff hpacked]
  have halnum := isAlphanum_of_all_isHexDigit hhex
  constructor
  · rintro ⟨wc', digits', hraw', hshort, halnum', heq⟩
    have hwc : wc = wc' := congrArg StdAddress.workchain heq
    rw [← hwc] at hshort
    exact hshort
  · intro hshort
    refine ⟨wc, digits, hraw, hshort, halnum, ?_⟩
    rw [addrOfBytes_parseHexBytes hraw.length_digits.1 hhex]

/-- A text that is no packed address is accepted exactly if it has the raw form, and is read as it is written, exactly
if it is none of three kinds: one that is padded and unpacked by chance, one with a workchain that takes eleven
characters, and one with a letter behind the sixth one among its digits. -/
theorem parse_rawForm (hpacked : ¬ ValidPacked s) :
    (∀ a, StdAddress.parse uninitialized s = .ok a ↔ RawForm s a) ↔ ReadAsWritten uninitialized s := by
  constructor
  · intro hparse
    have hnone : StdAddress.rdeserialize uninitialized s = none := by
      cases hread : StdAddress.rdeserialize uninitialized s with
      | none => rfl
      | some a =>
        have hok : StdAddress.parse uninitialized s = .ok a := by
          rw [StdAddress.parse_iff_parseAddr]
          unfold StdAddress.parseAddr
          rw [hread]
        obtain ⟨wc, digits, hraw, -⟩ := (hparse a).1 hok
        have hlen := (StdAddress.fitsByte_of_rdeserialize hread).1
        have hlong := hraw.length_digits.2
        omega
    refine ⟨fun hpadded => ?_, fun wc digits hraw => ⟨fun hhex => ?_, fun hshort halnum => ?_⟩⟩
    · rw [hnone] at hpadded
      exact absurd hpadded.2 (by decide)
    · have hform : RawForm s { workchain := wc, addr := BitVec.ofNat 256 (hexNumber digits) } :=
        ⟨wc, digits, hraw, hhex, rfl⟩
      exact (parse_rawForm_iff hnone hform).1 ((hparse _).2 hform)
    · have hok := StdAddress.parse_iff_parseAddr.2 ((StdAddress.parseAddr_iff hnone).2
        ⟨wc, digits, hraw, hshort, halnum, rfl⟩)
      obtain ⟨wc', digits', hraw', hhex', -⟩ := (hparse _).1 hok
      obtain ⟨-, hdigits⟩ := hraw.unique hraw' (StdAddress.colon_not_mem_of_isAlphanum halnum)
        (StdAddress.colon_not_mem_of_isAlphanum (isAlphanum_of_all_isHexDigit hhex'))
      rw [hdigits]
      exact hhex'
  · rintro ⟨hpadded, hread⟩ a
    have hnone : StdAddress.rdeserialize uninitialized s = none := by
      cases hread : StdAddress.rdeserialize uninitialized s with
      | none => rfl
      | some a =>
        rw [hread] at hpadded
        exact absurd (validPacked_of_rdeserialize hread fun hlast => hpadded ⟨hlast, rfl⟩) hpacked
    constructor
    · intro hok
      obtain ⟨wc, digits, hraw, hshort, halnum, rfl⟩ :=
        (StdAddress.parseAddr_iff hnone).1 (StdAddress.parse_iff_parseAddr.1 hok)
      have hhex := (hread wc digits hraw).2 hshort halnum
      refine ⟨wc, digits, hraw, hhex, ?_⟩
      rw [addrOfBytes_parseHexBytes hraw.length_digits.1 hhex]
    · intro hform
      apply (parse_rawForm_iff hnone hform).2
      obtain ⟨wc, digits, hraw, hhex, rfl⟩ := hform
      exact (hread wc digits hraw).1 hhex

end Parse

/-! ## A letter behind the sixth one -/

namespace Sample

/-- 64 times the last letter. -/
def zs : List Char := List.replicate 64 'z'

def ones : List Char := List.replicate 64 '1'

def memory : Fin 36 → UInt8 := fun _ => 0

theorem not_validPacked_of_length {s : List Char} (h : s.length ≠ 48) : ¬ ValidPacked s := by
  rintro ⟨a, ha⟩
  exact h (StdAddress.fitsByte_of_rdeserialize (ha memory)).1

/-- Digits alone are read as they are written. -/
theorem parse_rawForm_ones :
    (∀ a, StdAddress.parse memory ones = .ok a ↔ RawForm ones a) ↔ ReadAsWritten memory ones :=
  parse_rawForm (not_validPacked_of_length (by decide))

/-- A text of letters that are no digits is accepted. -/
theorem not_parse_rawForm : ¬ ∀ (uninitialized : Fin 36 → UInt8) (s : List Char), ¬ ValidPacked s →
    ∀ a, StdAddress.parse uninitialized s = .ok a ↔ RawForm s a := by
  intro h
  have hpacked : ¬ ValidPacked zs := not_validPacked_of_length (by decide)
  have hread := (parse_rawForm hpacked).1 (h memory zs hpacked)
  exact absurd ((hread.2 workchainInvalid zs (.bare (by decide))).2 (.inl rfl) (by decide)) (by decide)

end Sample

end TonWallet.Block
