/-
The URLs of payments: `WalletActionSheet` writes the URL of an invoice, and `parseTonUrl` fills in the fields of a sheet
from a URL. What is filled in is shown in the fields, and what these make of it is what the sheet holds: a comment is cut
by the filter of its field, and an amount by the watcher of its field.
-/
import TonWallet.App.AmountField
import TonWallet.Block.PackedAddress
import TonWallet.Lib.PercentEncoding

namespace TonWallet.App

open Lib

/-- The units of a text of the program. -/
def ascii (s : String) : JavaString := utf16 s.toList

/-! ## URLs -/

/-- A hierarchical URL: its path and its query, which is not decoded yet. -/
structure Uri where
  path : JavaString
  query : Option JavaString

namespace Uri

/-- `Uri.parse` and `getPath`; `none` stands for an opaque URL, of which there are no parameters. -/
def parse (malformed : List UInt8 → Nat) (url : JavaString) : Option Uri :=
  let ssp := if 0x3A ∈ url then (url.dropWhile (· ≠ 0x3A)).tail else url
  if 0x3A ∈ url ∧ ssp.head? ≠ some 0x2F then none
  else
    let rest := if ssp.take 2 = [0x2F, 0x2F] then
        (ssp.drop 2).dropWhile fun u => u ≠ 0x2F ∧ u ≠ 0x3F ∧ u ≠ 0x23 ∧ u ≠ 0x5C
      else ssp
    let path := rest.takeWhile fun u => u ≠ 0x3F ∧ u ≠ 0x23
    let query := (rest.takeWhile (· ≠ 0x23)).dropWhile (· ≠ 0x3F)
    some ⟨percentDecode malformed false path, if query = [] then none else some query.tail⟩

/-- `getQueryParameter`: the value of the first part of the query with the key. -/
def getQueryParameter (malformed : List UInt8 → Nat) (u : Uri) (key : JavaString) : Option JavaString :=
  u.query.bind fun query => (query.splitOn 0x26).findSome? fun part =>
    if part.takeWhile (· ≠ 0x3D) = key then some (percentDecode malformed true (part.dropWhile (· ≠ 0x3D)).tail) else none

end Uri

/-- The characters that `URLEncoder` does not change. -/
def isUnreserved (c : Char) : Bool :=
  (0x30 ≤ c.toNat ∧ c.toNat ≤ 0x39) ∨ (0x41 ≤ c.toNat ∧ c.toNat ≤ 0x5A) ∨ (0x61 ≤ c.toNat ∧ c.toNat ≤ 0x7A) ∨
    c = '.' ∨ c = '-' ∨ c = '*' ∨ c = '_'

/-- `URLEncoder.encode`. -/
def urlEncode (s : JavaString) : JavaString :=
  (decodeUtf16 '?' s).flatMap fun c =>
    if isUnreserved c then utf16Char c
    else if c = ' ' then [0x2B]
    else (String.utf8EncodeChar c).flatMap escapeByte

/-- `replaceAll("\\+", "%20")`. -/
def replacePlus (s : JavaString) : JavaString := s.flatMap fun u => if u = 0x2B then [0x25, 0x32, 0x30] else [u]

/-! ## The sheet -/

/-- `WalletActionSheet` with its fields. The amount is that of its field. -/
structure ActionSheet where
  recipientString : JavaString := []
  recipientText : JavaString := []
  commentString : JavaString := []
  commentText : JavaString := []
  amountField : AmountField := {}

namespace ActionSheet

def amountValue (s : ActionSheet) : Int64 := s.amountField.amountValue

def MAX_COMMENT_LENGTH : Int := 500

/-- A text that is set in the field of the comment. -/
def limited (malformed : List UInt8 → Nat) (text : JavaString) : JavaString :=
  ByteLengthFilter.inserted ⟨MAX_COMMENT_LENGTH, malformed⟩ text 0 text.length [] 0 0

/-- `onBindViewHolder` for the recipient: the watcher takes the text back, as no text without a slash is a URL. -/
def bindRecipient (s : ActionSheet) : ActionSheet := { s with recipientText := s.recipientString }

/-- `onBindViewHolder` for the comment: the watcher takes what the filter leaves. -/
def bindComment (malformed : List UInt8 → Nat) (s : ActionSheet) : ActionSheet :=
  { s with commentText := limited malformed s.commentString, commentString := limited malformed s.commentString }

/-- `onBindViewHolder` for the amount. -/
def bindAmount (round : Rounding) (s : ActionSheet) : ActionSheet :=
  { s with amountField :=
      s.amountField.setText round (if s.amountValue ≠ 0 then formatCurrency s.amountValue else []) }

/-- The text of a parameter, which is empty if the URL has none. -/
def param (malformed : List UInt8 → Nat) (uri : Uri) (key : String) : JavaString :=
  (uri.getQueryParameter malformed (ascii key)).getD []

/-- The path is the recipient without its slashes. -/
def takePath (pasted : Bool) (path : JavaString) (s : ActionSheet) : ActionSheet :=
  if path.length > 1 then
    let s := { s with recipientString := path.filter (· ≠ 0x2F) }
    if pasted then s else s.bindRecipient
  else s

def takeText (malformed : List UInt8 → Nat) (text : JavaString) (s : ActionSheet) : ActionSheet :=
  if text ≠ [] then bindComment malformed { s with commentString := text } else s

def takeAmount (round : Rounding) (amount : JavaString) (s : ActionSheet) : ActionSheet :=
  if amount ≠ [] then
    bindAmount round { s with amountField := { s.amountField with amountValue := Int64.ofInt (parseLong amount) } }
  else s

/-- `parseTonUrl`, of a URL that has been pasted into the field of the recipient or that has been given to the sheet. -/
def parseTonUrl (round : Rounding) (malformed : List UInt8 → Nat) (s : ActionSheet) (pasted : Bool) (url : JavaString) :
    ActionSheet :=
  match Uri.parse malformed url with
  | none => s
  | some uri =>
    let s := takeText malformed (param malformed uri "text") (takePath pasted uri.path s)
    let s := takeAmount round (param malformed uri "amount") s
    if pasted then s.bindRecipient else s

/-- The text of a `long`. -/
def longText (v : Int64) : JavaString := (if v < 0 then [0x2D] else []) ++ decimalText v.toInt.natAbs

/-- The URL of an invoice. -/
def invoiceUrl (walletAddress : JavaString) (amountValue : Int64) (commentString : JavaString) : JavaString :=
  ascii "ton://transfer/" ++ (walletAddress ++ (ascii "/?amount=" ++ (longText amountValue ++
    (if commentString = [] then [] else ascii "&text=" ++ replacePlus (urlEncode commentString)))))

/-! ## What a URL says -/

/-- The path of a recipient; a slash may stand behind it. -/
def IsRecipient (path r : JavaString) : Prop :=
  r ≠ [] ∧ 0x2F ∉ r ∧ (path = 0x2F :: r ∨ path = 0x2F :: r ++ [0x2F])

/-- The texts of numbers. -/
inductive IsNumeral : JavaString → Int → Prop
  | digits {s : JavaString} : s ≠ [] → s.all isDecimal = true → IsNumeral s (decimalNumber s)
  | plus {s : JavaString} : s ≠ [] → s.all isDecimal = true → IsNumeral (0x2B :: s) (decimalNumber s)
  | minus {s : JavaString} : s ≠ [] → s.all isDecimal = true → IsNumeral (0x2D :: s) (-decimalNumber s)

/-- What is filled in is what the URL says, or else the field is left as it is. -/
structure TakesAsWritten (old new : ActionSheet) (path text amount : JavaString) : Prop where
  recipient : new.recipientString = old.recipientString ∨ IsRecipient path new.recipientString
  amount : new.amountValue = old.amountValue ∨ IsNumeral amount new.amountValue.toInt
  text : new.commentString = old.commentString ∨ new.commentString = text

/-- The amount that the field makes of a number: ten digits in front of the dot are cut to nine. -/
def shownAmount (n : Nat) : Nat := if n < 10 ^ 18 then n else n / 10 ^ 10 * 10 ^ 9 + n % 10 ^ 9

/-- The URLs that can be taken as they are written: the path is that of a recipient, the amount is a number from zero to
`10 ^ 18`, and the text fits into the field; or what is made of a part is what its field holds already. -/
structure CanBeTaken (malformed : List UInt8 → Nat) (old : ActionSheet) (path text amount : JavaString) : Prop where
  recipient : path.length ≤ 1 ∨ (∃ r, IsRecipient path r) ∨ path.filter (· ≠ 0x2F) = old.recipientString
  amount : amount = [] ∨ (∃ n, IsNumeral amount n ∧ 0 ≤ n ∧ n < 10 ^ 18) ∨
    shownAmount (parseLong amount).natAbs = old.amountValue.toInt
  text : text = [] ∨ text.length ≤ 500 ∨ limited malformed text = old.commentString

end ActionSheet

/-! ## Lengths -/

theorem length_utf16Char_le (c : Char) : (utf16Char c).length ≤ c.utf8Size := by
  have hpos := Char.utf8Size_pos c
  unfold utf16Char
  split
  · exact hpos
  · next hlarge =>
    have hsize : c.utf8Size = 4 := by
      have hval : c.toNat = c.val.toNat := rfl
      have h1 : ¬ c.val ≤ 127 := by
        rw [UInt32.le_iff_toNat_le]
        simp only [UInt32.reduceToNat]
        omega
      have h2 : ¬ c.val ≤ 2047 := by
        rw [UInt32.le_iff_toNat_le]
        simp only [UInt32.reduceToNat]
        omega
      have h3 : ¬ c.val ≤ 65535 := by
        rw [UInt32.le_iff_toNat_le]
        simp only [UInt32.reduceToNat]
        omega
      unfold Char.utf8Size
      exact (if_neg h1).trans ((if_neg h2).trans (if_neg h3))
    rw [hsize]
    exact (by decide : 2 ≤ 4)

/-- A text has at most as many units as there are bytes that it is read from. -/
theorem length_utf16_decodeUtf8_le (malformed : List UInt8 → Nat) (bytes : List UInt8) :
    (utf16 (decodeUtf8 malformed bytes)).length ≤ bytes.length := by
  obtain ⟨n, hn⟩ : ∃ n, bytes.length ≤ n := ⟨_, le_rfl⟩
  induction n generalizing bytes with
  | zero =>
    rw [List.length_eq_zero_iff.1 (Nat.le_zero.1 hn)]
    exact le_rfl
  | succ n ih =>
    rcases bytes with _ | ⟨b, bytes⟩
    · exact le_rfl
    · rw [List.length_cons] at hn
      rcases hchar : decodeChar? (b :: bytes) with _ | c
      · have hone : (utf16Char replacement).length = 1 := by decide
        have hrest := ih (bytes.drop (malformed (b :: bytes))) (by rw [List.length_drop]; omega)
        rw [List.length_drop] at hrest
        rw [decodeUtf8, decodeFrom, hchar]
        dsimp only
        rw [decodeFrom_drop, utf16_cons, List.length_append, hone, List.length_cons]
        omega
      · obtain ⟨rest, hrest⟩ := decodeChar?_iff.1 hchar
        have hlen := congrArg List.length hrest
        rw [List.length_append, String.length_utf8EncodeChar, List.length_cons] at hlen
        have hpos := Char.utf8Size_pos c
        have hle := ih rest (by omega)
        have hc := length_utf16Char_le c
        rw [hrest, decodeUtf8_encodeChar_append, utf16_cons, List.length_append, List.length_append,
          String.length_utf8EncodeChar]
        omega

/-- Replacing surrogates does not change the length. -/
theorem length_utf16_decodeUtf16 (s : JavaString) : (utf16 (decodeUtf16 '?' s)).length = s.length := by
  have hunit (u : UInt16) : (utf16Char (unitChar '?' u)).length = 1 := by
    unfold unitChar
    split
    · rfl
    · next hsurrogate =>
      rw [Bool.or_eq_true, not_or, isHighSurrogate, isLowSurrogate, decide_eq_true_iff, decide_eq_true_iff,
        UInt16.le_iff_toNat_le, UInt16.lt_iff_toNat_lt, UInt16.le_iff_toNat_le, UInt16.lt_iff_toNat_lt] at hsurrogate
      simp only [UInt16.reduceToNat] at hsurrogate
      have hlt := u.toNat_lt
      have hvalid : u.toNat.isValidChar := by
        rw [Nat.isValidChar]
        omega
      have hnat : (Char.ofNat u.toNat).toNat = u.toNat := toNat_charOfNat hvalid
      rw [utf16Char, hnat, if_pos (by omega)]
      rfl
  induction s using decodeUtf16.induct with
  | case1 => rfl
  | case2 u =>
    rw [decodeUtf16_singleton, utf16_cons, List.length_append, hunit]
    rfl
  | case3 u v units hpair ih =>
    rw [decodeUtf16_cons_cons, if_pos hpair, utf16_cons, List.length_append, ih, List.length_cons, List.length_cons]
    rw [Bool.and_eq_true, isHighSurrogate, isLowSurrogate, decide_eq_true_iff, decide_eq_true_iff, UInt16.le_iff_toNat_le,
      UInt16.lt_iff_toNat_lt, UInt16.le_iff_toNat_le, UInt16.lt_iff_toNat_lt] at hpair
    simp only [UInt16.reduceToNat] at hpair
    have hvalid : (0x10000 + (u.toNat - 0xD800) * 0x400 + (v.toNat - 0xDC00)).isValidChar := by
      rw [Nat.isValidChar]
      omega
    have hnat : (Char.ofNat (0x10000 + (u.toNat - 0xD800) * 0x400 + (v.toNat - 0xDC00))).toNat =
        0x10000 + (u.toNat - 0xD800) * 0x400 + (v.toNat - 0xDC00) := toNat_charOfNat hvalid
    rw [utf16Char, hnat, if_neg (by omega)]
    show 2 + units.length = _
    omega
  | case4 u v units hpair ih =>
    rw [decodeUtf16_cons_cons, if_neg hpair, utf16_cons, List.length_append, ih, hunit, List.length_cons, List.length_cons,
      List.length_cons]
    omega

namespace ActionSheet

variable {round : Rounding} {malformed : List UInt8 → Nat}

/-! ## What the fields leave -/

/-- A text of at most 500 units stays as it is, and of a longer one as many are left at most. -/
theorem limited_cases (text : JavaString) : (text.length ≤ 500 ∧ limited malformed text = text) ∨
    500 < text.length ∧ (limited malformed text).length ≤ 500 := by
  have hkeep : ByteLengthFilter.keep ⟨MAX_COMMENT_LENGTH, malformed⟩ [] 0 0 = 500 := rfl
  unfold limited ByteLengthFilter.inserted ByteLengthFilter.filter
  rw [hkeep, if_neg (by decide)]
  rcases Nat.lt_or_ge 500 text.length with hlong | hshort
  · refine .inr ⟨hlong, ?_⟩
    rw [if_neg (by push_cast; omega), Option.getD_some]
    unfold newString
    split
    · exact Nat.zero_le _
    · have hle := length_utf16_decodeUtf8_le malformed (((getUtf8Bytes text).drop 0).take ((500 : Int) + (0 : Nat)).toNat)
      rw [Option.getD_some]
      exact le_trans hle (by rw [List.length_take]; exact Nat.min_le_left _ _)
  · refine .inl ⟨hshort, ?_⟩
    rw [if_pos (by push_cast; omega), Option.getD_none, List.take_length, List.drop_zero]

theorem limited_eq_self_iff (text : JavaString) : limited malformed text = text ↔ text.length ≤ 500 := by
  rcases @limited_cases malformed text with ⟨hshort, heq⟩ | ⟨hlong, hcut⟩
  · exact ⟨fun _ => hshort, fun _ => heq⟩
  · refine ⟨fun heq => ?_, fun hshort => absurd hshort (Nat.not_le.2 hlong)⟩
    rw [heq] at hcut
    exact hcut

/-- What the field makes of an amount that is set. -/
theorem toInt_setText {f : AmountField} (hignore : f.ignoreTextChange = false) (v : Int64) :
    (f.setText round (if v ≠ 0 then formatCurrency v else [])).amountValue.toInt = shownAmount v.toInt.natAbs := by
  have htext (s : JavaString) : (f.replace 0 f.text.length s).text = s := by
    rw [AmountField.text_replace, List.take_zero, List.nil_append, List.drop_length, List.append_nil]
  unfold AmountField.setText AmountField.edit
  have hign (s : JavaString) : (f.replace 0 f.text.length s).ignoreTextChange = false := hignore
  by_cases hzero : v = 0
  · have hclean : cleaned (f.replace 0 f.text.length []).text false = [] := by rw [htext, cleaned]
    obtain ⟨-, -, hamount⟩ := @AmountField.afterTextChanged_digits round _ (hign []) (by rw [hclean]; rfl)
    rw [if_neg (not_not.2 hzero), hamount, hclean, hzero]
    rfl
  · obtain ⟨n, hn⟩ : ∃ n, v.toInt.natAbs = n := ⟨_, rfl⟩
    have hpos : 0 < n := by
      rcases Nat.eq_zero_or_pos n with h | h
      · refine absurd (Int64.toInt_inj.1 ?_) hzero
        have hint : v.toInt = 0 := by omega
        rw [hint]
        rfl
      · exact h
    have hbound : n ≤ 2 ^ 63 := by
      have hlo := v.le_toInt
      have hhi := v.toInt_lt
      omega
    obtain ⟨d, hformat, -, hdlen, hd, hfraction⟩ := formatCurrency_spec hn hpos
    obtain ⟨hne, hi, hinteger, hilen⟩ := decimalText_spec (n / 10 ^ 9)
    have hclean : cleaned (f.replace 0 f.text.length (formatCurrency v)).text false =
        decimalText (n / 10 ^ 9) ++ 0x2E :: d := by
      rw [htext, hformat]
      split
      · rw [List.singleton_append, cleaned]
        have hsep : AmountField.isSeparator 0x2D = false := by decide
        rw [hsep]
        simp only [Bool.false_eq_true, if_false]
        rw [if_neg (by decide), if_pos (by decide), cleaned_fraction hi hd]
      · rw [List.nil_append, cleaned_fraction hi hd]
    obtain ⟨-, -, hamount⟩ := @AmountField.afterTextChanged_fraction round _ _ _ (hign _) hclean hi hd
    have hcast : ((decimalNumber d : Nat) : Int) * 10 ^ (9 - d.length) = ((n % 10 ^ 9 : Nat) : Int) := by
      rw [← hfraction]
      push_cast
      rfl
    rw [if_pos hzero, hamount, List.take_of_length_le hdlen, hcast, hn, shownAmount]
    by_cases hsmall : n < 10 ^ 18
    · rw [List.take_of_length_le ((hilen 9 (by decide)).2 (by omega)), hinteger, if_pos hsmall]
      push_cast
      omega
    · -- ten digits, of which the last one is cut
      have hten : (decimalText (n / 10 ^ 9)).length = 10 := by
        have hle := (hilen 10 (by decide)).2 (by omega)
        have hnot := (hilen 9 (by decide)).not.2 (by omega)
        omega
      have hlast : ((decimalText (n / 10 ^ 9)).drop 9).length = 1 := by rw [List.length_drop, hten]
      have hlt := decimalNumber_lt (s := (decimalText (n / 10 ^ 9)).drop 9)
        (List.all_eq_true.2 fun c hc => List.all_eq_true.1 hi c (List.mem_of_mem_drop hc))
      have hsum := decimalNumber_append ((decimalText (n / 10 ^ 9)).take 9) ((decimalText (n / 10 ^ 9)).drop 9)
      rw [List.take_append_drop, hinteger, hlast] at hsum
      rw [hlast] at hlt
      have hnine : decimalNumber ((decimalText (n / 10 ^ 9)).take 9) = n / 10 ^ 10 := by omega
      rw [if_neg hsmall, hnine]
      push_cast
      omega

theorem shownAmount_lt {n : Nat} (h : n ≤ 2 ^ 63) : shownAmount n < 10 ^ 18 := by
  unfold shownAmount
  split
  · assumption
  · omega

end ActionSheet

namespace ActionSheet

variable {round : Rounding} {malformed : List UInt8 → Nat} {s : ActionSheet}

/-! ## What a URL fills in -/

theorem parseLong_bounds (s : JavaString) : -2 ^ 63 ≤ parseLong s ∧ parseLong s < 2 ^ 63 := by
  have hzero : (-2 ^ 63 : Int) ≤ 0 ∧ (0 : Int) < 2 ^ 63 := by decide
  unfold parseLong
  dsimp only
  split
  · exact hzero
  · cases hnum : javaParseLong _ with
    | none => exact hzero
    | some n =>
      unfold javaParseLong at hnum
      dsimp only at hnum
      rw [Option.ite_none_left_eq_some] at hnum
      obtain ⟨-, hnum⟩ := hnum
      rw [Option.ite_none_right_eq_some] at hnum
      obtain ⟨hbounds, hnum⟩ := hnum
      cases hnum
      exact hbounds

theorem takePath_spec (pasted : Bool) (path : JavaString) (s : ActionSheet) :
    (s.takePath pasted path).recipientString =
        (if path.length > 1 then path.filter (· ≠ 0x2F) else s.recipientString) ∧
      (s.takePath pasted path).commentString = s.commentString ∧ (s.takePath pasted path).amountField = s.amountField := by
  unfold takePath
  split
  · cases pasted <;> exact ⟨rfl, rfl, rfl⟩
  · exact ⟨rfl, rfl, rfl⟩

theorem takeText_spec (text : JavaString) (s : ActionSheet) :
    (s.takeText malformed text).commentString = (if text ≠ [] then limited malformed text else s.commentString) ∧
      (s.takeText malformed text).recipientString = s.recipientString ∧
        (s.takeText malformed text).amountField = s.amountField := by
  unfold takeText
  split <;> exact ⟨rfl, rfl, rfl⟩

theorem takeAmount_spec (hignore : s.amountField.ignoreTextChange = false) (amount : JavaString) :
    (s.takeAmount round amount).amountValue.toInt =
        (if amount ≠ [] then (shownAmount (parseLong amount).natAbs : Int) else s.amountValue.toInt) ∧
      (s.takeAmount round amount).recipientString = s.recipientString ∧
        (s.takeAmount round amount).commentString = s.commentString := by
  obtain ⟨hlo, hhi⟩ := parseLong_bounds amount
  have hset := @toInt_setText round
    { s.amountField with amountValue := Int64.ofInt (parseLong amount) } hignore (Int64.ofInt (parseLong amount))
  rw [Int64.toInt_ofInt_of_le hlo hhi] at hset
  unfold takeAmount
  split
  · exact ⟨hset, rfl, rfl⟩
  · exact ⟨rfl, rfl, rfl⟩

/-- What the sheet holds when a URL has been parsed. -/
theorem parseTonUrl_spec (hignore : s.amountField.ignoreTextChange = false) (pasted : Bool) {url : JavaString} {uri : Uri}
    (h : Uri.parse malformed url = some uri) :
    (s.parseTonUrl round malformed pasted url).recipientString =
        (if uri.path.length > 1 then uri.path.filter (· ≠ 0x2F) else s.recipientString) ∧
      (s.parseTonUrl round malformed pasted url).amountValue.toInt =
        (if param malformed uri "amount" ≠ [] then (shownAmount (parseLong (param malformed uri "amount")).natAbs : Int)
          else s.amountValue.toInt) ∧
      (s.parseTonUrl round malformed pasted url).commentString =
        if param malformed uri "text" ≠ [] then limited malformed (param malformed uri "text") else s.commentString := by
  have hparse : s.parseTonUrl round malformed pasted url =
      let t := ((s.takePath pasted uri.path).takeText malformed (param malformed uri "text")).takeAmount round
        (param malformed uri "amount")
      if pasted then t.bindRecipient else t := by
    unfold parseTonUrl
    rw [h]
  obtain ⟨hrecipient, hcomment, hfield⟩ := takePath_spec pasted uri.path s
  obtain ⟨htext, htextRecipient, htextField⟩ :=
    @takeText_spec malformed (param malformed uri "text") (s.takePath pasted uri.path)
  obtain ⟨hamount, hamountRecipient, hamountComment⟩ := @takeAmount_spec round
    ((s.takePath pasted uri.path).takeText malformed (param malformed uri "text"))
    (by rw [htextField, hfield]; exact hignore) (param malformed uri "amount")
  have hsame : ((s.takePath pasted uri.path).takeText malformed (param malformed uri "text")).amountValue = s.amountValue := by
    rw [amountValue, htextField, hfield]
    rfl
  rw [hsame] at hamount
  have hlast (t : ActionSheet) : (if pasted then t.bindRecipient else t).recipientString = t.recipientString ∧
      (if pasted then t.bindRecipient else t).amountValue = t.amountValue ∧
        (if pasted then t.bindRecipient else t).commentString = t.commentString := by
    cases pasted <;> exact ⟨rfl, rfl, rfl⟩
  rw [hparse]
  dsimp only
  rw [(hlast _).1, (hlast _).2.1, (hlast _).2.2]
  refine ⟨?_, hamount, ?_⟩
  · rw [hamountRecipient, htextRecipient, hrecipient]
  · rw [hamountComment, htext, hcomment]

/-- The path of a recipient is stripped to the recipient. -/
theorem filter_of_isRecipient {path r : JavaString} (h : IsRecipient path r) :
    path.length > 1 ∧ path.filter (· ≠ 0x2F) = r := by
  obtain ⟨hne, hslash, hpath⟩ := h
  have hpos := List.length_pos_iff.2 hne
  have hkeep : r.filter (· ≠ 0x2F) = r := by
    refine List.filter_eq_self.2 fun u hu => ?_
    rw [decide_eq_true_iff]
    rintro rfl
    exact hslash hu
  rcases hpath with rfl | rfl
  · refine ⟨by rw [List.length_cons]; omega, ?_⟩
    rw [List.filter_cons_of_neg (by decide), hkeep]
  · refine ⟨by rw [List.length_append, List.length_cons]; omega, ?_⟩
    rw [List.filter_append, List.filter_cons_of_neg (by decide), hkeep, List.filter_cons_of_neg (by decide),
      List.filter_nil, List.append_nil]

/-- Small numbers are read as they are written. -/
theorem parseLong_of_isNumeral {a : JavaString} {n : Int} (h : IsNumeral a n) (hlo : 0 ≤ n) (hhi : n < 10 ^ 18) :
    parseLong a = n := by
  cases h with
  | digits hne hall => exact parseLong_of_all hall (by omega)
  | @plus s hne hall =>
    have hskip : parseLong (0x2B :: s) = parseLong s := by
      unfold parseLong
      dsimp only
      rw [List.dropWhile_cons_of_pos (by decide)]
    rw [hskip]
    exact parseLong_of_all hall (by omega)
  | @minus s hne hall =>
    have hzero : decimalNumber s = 0 := by omega
    have hmatch : ∀ c ∈ (0x2D :: s : JavaString), (isDecimal c || c == 0x2D) = true := by
      intro c hc
      rcases List.mem_cons.1 hc with rfl | hc
      · decide
      · rw [List.all_eq_true.1 hall c hc, Bool.true_or]
    unfold parseLong
    dsimp only
    rw [List.dropWhile_cons_of_neg (by decide), List.takeWhile_eq_self_iff.2 hmatch, if_neg (List.cons_ne_nil _ _),
      javaParseLong]
    simp only [List.head?_cons, if_true, List.tail_cons, hall, hzero]
    rw [if_neg (by simp [hne])]
    rfl

/-- What a URL fills in is what it says if and only if it can be taken so. -/
theorem takesAsWritten_iff (hignore : s.amountField.ignoreTextChange = false) (pasted : Bool) {url : JavaString} {uri : Uri}
    (h : Uri.parse malformed url = some uri) :
    TakesAsWritten s (s.parseTonUrl round malformed pasted url) uri.path (param malformed uri "text")
        (param malformed uri "amount") ↔
      CanBeTaken malformed s uri.path (param malformed uri "text") (param malformed uri "amount") := by
  obtain ⟨hrecipient, hamount, htext⟩ := @parseTonUrl_spec round _ _ hignore pasted _ _ h
  generalize s.parseTonUrl round malformed pasted url = s' at hrecipient hamount htext ⊢
  generalize param malformed uri "amount" = amount at hamount ⊢
  generalize param malformed uri "text" = text at htext ⊢
  obtain ⟨hlo, hhi⟩ := parseLong_bounds amount
  have hshown := shownAmount_lt (n := (parseLong amount).natAbs) (by omega)
  constructor
  · rintro ⟨hr, ha, ht⟩
    refine ⟨?_, ?_, ?_⟩
    · by_cases hlen : uri.path.length > 1
      · rw [if_pos hlen] at hrecipient
        rcases hr with hr | hr
        · exact .inr (.inr (hrecipient.symm.trans hr))
        · exact .inr (.inl ⟨_, hr⟩)
      · exact .inl (by omega)
    · by_cases hne : amount = []
      · exact .inl hne
      · rw [if_pos hne] at hamount
        rcases ha with ha | ha
        · exact .inr (.inr (by rw [← hamount, ha]))
        · exact .inr (.inl ⟨_, ha, by omega, by omega⟩)
    · by_cases hne : text = []
      · exact .inl hne
      · rw [if_pos hne] at htext
        rcases ht with ht | ht
        · exact .inr (.inr (htext.symm.trans ht))
        · exact .inr (.inl ((limited_eq_self_iff text).1 (htext.symm.trans ht)))
  · rintro ⟨hr, ha, ht⟩
    refine ⟨?_, ?_, ?_⟩
    · rcases hr with hr | ⟨r, hr⟩ | hr
      · rw [if_neg (by omega)] at hrecipient
        exact .inl hrecipient
      · obtain ⟨hlen, hfilter⟩ := filter_of_isRecipient hr
        rw [if_pos hlen, hfilter] at hrecipient
        rw [hrecipient]
        exact .inr hr
      · rw [hr, ite_self] at hrecipient
        exact .inl hrecipient
    · rcases ha with ha | ⟨n, ha, hn0, hn⟩ | ha
      · rw [if_neg (not_not.2 ha)] at hamount
        exact .inl (Int64.toInt_inj.1 hamount)
      · have hne : amount ≠ [] := by
          rintro rfl
          cases ha with
          | digits hne => exact hne rfl
        have hshow : (shownAmount n.natAbs : Int) = n := by
          rw [shownAmount, if_pos (by omega)]
          omega
        rw [if_pos hne, parseLong_of_isNumeral ha hn0 hn, hshow] at hamount
        rw [hamount]
        exact .inr ha
      · rw [ha, ite_self] at hamount
        exact .inl (Int64.toInt_inj.1 hamount)
    · rcases ht with ht | ht | ht
      · rw [if_neg (not_not.2 ht)] at htext
        exact .inl htext
      · rw [(limited_eq_self_iff text).2 ht] at htext
        by_cases hne : text = []
        · rw [if_neg (not_not.2 hne)] at htext
          exact .inl htext
        · rw [if_pos hne] at htext
          exact .inr htext
      · rw [ht, ite_self] at htext
        exact .inl htext

end ActionSheet

/-! ## The text of a comment in a URL -/

/-- A character that is not changed is a unit that stands for itself. -/
theorem utf16Char_of_isUnreserved {c : Char} (h : isUnreserved c = true) :
    ∃ u, utf16Char c = [u] ∧ u ≠ 0x25 ∧ plainUnit true u = u ∧ u ≠ 0x26 ∧ u ≠ 0x23 ∧ u ≠ 0x2B := by
  have hsmall : c.toNat < 128 := by
    simp only [isUnreserved, decide_eq_true_eq] at h
    rcases h with h | h | h | rfl | rfl | rfl | rfl
    · omega
    · omega
    · omega
    all_goals decide
  have hall : ∀ n : Fin 128, isUnreserved (Char.ofNat n) = true →
      utf16Char (Char.ofNat n) = [UInt16.ofNat n] ∧ UInt16.ofNat n ≠ 0x25 ∧
        plainUnit true (UInt16.ofNat n) = UInt16.ofNat n ∧ UInt16.ofNat n ≠ 0x26 ∧ UInt16.ofNat n ≠ 0x23 ∧
          UInt16.ofNat n ≠ 0x2B := by
    decide +kernel
  have hc := hall ⟨c.toNat, hsmall⟩
  rw [Char.ofNat_toNat] at hc
  exact ⟨_, hc h⟩

/-- With the plus signs replaced a comment is percent-encoded. -/
theorem replacePlus_urlEncode (s : JavaString) :
    replacePlus (urlEncode s) = percentEncode isUnreserved (decodeUtf16 '?' s) := by
  have hkeep (t : JavaString) (ht : ∀ u ∈ t, u ≠ 0x2B) : replacePlus t = t := by
    induction t with
    | nil => rfl
    | cons u t ih =>
      rw [replacePlus, List.flatMap_cons, if_neg (ht u List.mem_cons_self), List.singleton_append]
      exact congrArg (u :: ·) (ih fun v hv => ht v (List.mem_cons_of_mem u hv))
  unfold urlEncode percentEncode
  generalize decodeUtf16 '?' s = cs
  induction cs with
  | nil => rfl
  | cons c cs ih =>
    rw [List.flatMap_cons, List.flatMap_cons, replacePlus, List.flatMap_append]
    refine congrArg₂ (· ++ ·) ?_ ih
    show replacePlus _ = _
    by_cases hc : isUnreserved c = true
    · rw [if_pos hc, if_pos hc]
      obtain ⟨u, hunit, -, -, -, -, hplus⟩ := utf16Char_of_isUnreserved hc
      rw [hunit]
      exact hkeep [u] fun v hv => by rwa [List.mem_singleton.1 hv]
    · rw [if_neg hc, if_neg hc]
      split
      · next hspace =>
        rw [hspace]
        decide
      · refine hkeep _ fun u hu => ?_
        obtain ⟨b, -, hub⟩ := List.mem_flatMap.1 hu
        rcases mem_escapeByte hub with rfl | ⟨hlo, -⟩ | ⟨hlo, -⟩
        · decide
        · rintro rfl
          revert hlo
          decide
        · rintro rfl
          revert hlo
          decide

/-- A percent-encoded text separates nothing in a query. -/
theorem mem_percentEncode {s : List Char} {u : UInt16} (h : u ∈ percentEncode isUnreserved s) : u ≠ 0x26 ∧ u ≠ 0x23 := by
  obtain ⟨c, -, hu⟩ := List.mem_flatMap.1 h
  split at hu
  · next hc =>
    obtain ⟨v, hunit, -, -, hamp, hhash, -⟩ := utf16Char_of_isUnreserved hc
    rw [hunit, List.mem_singleton] at hu
    rw [hu]
    exact ⟨hamp, hhash⟩
  · obtain ⟨b, -, hub⟩ := List.mem_flatMap.1 hu
    rcases mem_escapeByte hub with rfl | ⟨hlo, -⟩ | ⟨hlo, -⟩
    · decide
    · constructor <;> rintro rfl <;> revert hlo <;> decide
    · constructor <;> rintro rfl <;> revert hlo <;> decide

/-- A comment is read back from its encoding if its surrogates are paired. -/
theorem percentDecode_comment (malformed : List UInt8 → Nat) (s : JavaString) :
    percentDecode malformed true (replacePlus (urlEncode s)) = utf16 (decodeUtf16 '?' s) := by
  rw [replacePlus_urlEncode]
  refine percentDecode_percentEncode (fun c hc => ?_) _
  obtain ⟨u, hunit, hpercent, hplain, -⟩ := utf16Char_of_isUnreserved hc
  exact ⟨u, hunit, hpercent, hplain⟩

namespace ActionSheet

variable {round : Rounding} {malformed : List UInt8 → Nat}

/-! ## Invoices -/

/-- The query of an invoice. -/
def invoiceQuery (v : Int64) (c : JavaString) : JavaString :=
  ascii "amount=" ++ (longText v ++ (if c = [] then [] else ascii "&text=" ++ replacePlus (urlEncode c)))

theorem digits_longText {v : Int64} (h : 0 < v) :
    longText v = decimalText v.toInt.natAbs ∧ 0 < v.toInt ∧ ∀ u ∈ longText v, isDecimal u = true := by
  have hzero : (0 : Int64).toInt = 0 := rfl
  have hpos : 0 < v.toInt := by
    rw [Int64.lt_iff_toInt_lt, hzero] at h
    exact h
  have hsign : ¬ v < 0 := by
    rw [Int64.lt_iff_toInt_lt, hzero]
    omega
  have htext : longText v = decimalText v.toInt.natAbs := by rw [longText, if_neg hsign, List.nil_append]
  refine ⟨htext, hpos, fun u hu => ?_⟩
  rw [htext] at hu
  exact List.all_eq_true.1 (decimalText_spec _).2.1 u hu

theorem ne_of_all {s : JavaString} {c : UInt16} (h : s.all (· != c) = true) : ∀ u ∈ s, u ≠ c := by
  simpa using h

/-- The URL of an invoice is taken apart into the address and the query. -/
theorem parse_invoiceUrl {address : JavaString} (haddress : ∀ u ∈ address, u ≠ 0x3F ∧ u ≠ 0x23 ∧ u ≠ 0x25) {v : Int64}
    (hv : 0 < v) (c : JavaString) : Uri.parse malformed (invoiceUrl address v c) =
      some ⟨0x2F :: (address ++ [0x2F]), some (invoiceQuery v c)⟩ := by
  have hprotocol : ascii "ton://transfer/" = [0x74, 0x6F, 0x6E, 0x3A, 0x2F, 0x2F, 0x74, 0x72, 0x61, 0x6E, 0x73, 0x66, 0x65,
    0x72, 0x2F] := by decide
  have hamount : ascii "/?amount=" = 0x2F :: 0x3F :: ascii "amount=" := by decide
  have hurl : invoiceUrl address v c = [0x74, 0x6F, 0x6E, 0x3A, 0x2F, 0x2F, 0x74, 0x72, 0x61, 0x6E, 0x73, 0x66, 0x65,
      0x72, 0x2F] ++ (address ++ 0x2F :: 0x3F :: invoiceQuery v c) := by
    rw [invoiceUrl, hprotocol, hamount, invoiceQuery]
    simp only [List.cons_append]
  have hhash : ∀ u ∈ invoiceQuery v c, u ≠ 0x23 := by
    intro u hu
    rcases List.mem_append.1 hu with hu | hu
    · exact ne_of_all (s := ascii "amount=") (c := 0x23) (by decide) u hu
    · rcases List.mem_append.1 hu with hu | hu
      · rintro rfl
        have hdec := (digits_longText hv).2.2 _ hu
        revert hdec
        decide
      · split at hu
        · cases hu
        · rcases List.mem_append.1 hu with hu | hu
          · exact ne_of_all (s := ascii "&text=") (c := 0x23) (by decide) u hu
          · rw [replacePlus_urlEncode] at hu
            exact (mem_percentEncode hu).2
  have hcolon : (0x3A : UInt16) ∈ invoiceUrl address v c := by
    rw [hurl]
    exact List.mem_append_left _ (by decide)
  have hssp : ((invoiceUrl address v c).dropWhile (· ≠ 0x3A)).tail = [0x2F, 0x2F, 0x74, 0x72, 0x61, 0x6E, 0x73, 0x66, 0x65,
      0x72, 0x2F] ++ (address ++ 0x2F :: 0x3F :: invoiceQuery v c) := by
    rw [hurl]
    rfl
  have hrest : (([0x2F, 0x2F, 0x74, 0x72, 0x61, 0x6E, 0x73, 0x66, 0x65, 0x72, 0x2F] ++
      (address ++ 0x2F :: 0x3F :: invoiceQuery v c)).drop 2).dropWhile
        (fun u => u ≠ 0x2F ∧ u ≠ 0x3F ∧ u ≠ 0x23 ∧ u ≠ 0x5C) = 0x2F :: (address ++ 0x2F :: 0x3F :: invoiceQuery v c) := rfl
  have hpath : (0x2F :: (address ++ 0x2F :: 0x3F :: invoiceQuery v c)).takeWhile (fun u => u ≠ 0x3F ∧ u ≠ 0x23) =
      0x2F :: (address ++ [0x2F]) := by
    rw [List.takeWhile_cons_of_pos (by decide), List.takeWhile_append_of_pos fun u hu => by
      simpa using ⟨(haddress u hu).1, (haddress u hu).2.1⟩]
    rfl
  have hquery : ((0x2F :: (address ++ 0x2F :: 0x3F :: invoiceQuery v c)).takeWhile (· ≠ 0x23)).dropWhile (· ≠ 0x3F) =
      0x3F :: invoiceQuery v c := by
    have hall : (0x2F :: (address ++ 0x2F :: 0x3F :: invoiceQuery v c)).takeWhile (· ≠ 0x23) =
        0x2F :: (address ++ 0x2F :: 0x3F :: invoiceQuery v c) := by
      refine List.takeWhile_eq_self_iff.2 fun u hu => ?_
      rw [decide_eq_true_iff]
      rcases List.mem_cons.1 hu with rfl | hu
      · decide
      · rcases List.mem_append.1 hu with hu | hu
        · exact (haddress u hu).2.1
        · rcases List.mem_cons.1 hu with rfl | hu
          · decide
          · rcases List.mem_cons.1 hu with rfl | hu
            · decide
            · exact hhash u hu
    rw [hall, List.dropWhile_cons_of_pos (by decide), List.dropWhile_append_of_pos fun u hu => by
      simpa using (haddress u hu).1]
    rfl
  have hplain : percentDecode malformed false (0x2F :: (address ++ [0x2F])) = 0x2F :: (address ++ [0x2F]) := by
    refine percentDecodeFrom_plain fun u hu => ⟨?_, rfl⟩
    rcases List.mem_cons.1 hu with rfl | hu
    · decide
    · rcases List.mem_append.1 hu with hu | hu
      · exact (haddress u hu).2.2
      · rw [List.mem_singleton.1 hu]
        decide
  unfold Uri.parse
  dsimp only
  rw [if_pos hcolon, hssp]
  rw [if_neg (fun h => h.2 rfl), if_pos (show ([0x2F, 0x2F, 0x74, 0x72, 0x61, 0x6E, 0x73, 0x66, 0x65, 0x72, 0x2F] ++
    (address ++ 0x2F :: 0x3F :: invoiceQuery v c) : JavaString).take 2 = [0x2F, 0x2F] from rfl), hrest, hpath, hquery,
    if_neg (List.cons_ne_nil _ _), hplain]
  rfl

/-- The parameters of an invoice. -/
theorem param_invoice (path : JavaString) {v : Int64} (hv : 0 < v) (c : JavaString) :
    param malformed ⟨path, some (invoiceQuery v c)⟩ "amount" = longText v ∧
      param malformed ⟨path, some (invoiceQuery v c)⟩ "text" = utf16 (decodeUtf16 '?' c) := by
  obtain ⟨-, -, hdigits⟩ := digits_longText hv
  have hamountKey : ascii "amount=" = ascii "amount" ++ [0x3D] := by decide
  have htextKey : ascii "text=" = ascii "text" ++ [0x3D] := by decide
  have hamp : ascii "&text=" = 0x26 :: ascii "text=" := by decide
  -- a part of the query is a key and a value
  have hpart (key value : JavaString) (hkey : ∀ u ∈ key, u ≠ 0x3D) :
      (key ++ [0x3D] ++ value).takeWhile (· ≠ 0x3D) = key ∧
        ((key ++ [0x3D] ++ value).dropWhile (· ≠ 0x3D)).tail = value := by
    rw [List.append_assoc, List.takeWhile_append_of_pos fun u hu => by simpa using hkey u hu,
      List.dropWhile_append_of_pos fun u hu => by simpa using hkey u hu]
    exact ⟨List.append_nil key, rfl⟩
  have hfirst := hpart (ascii "amount") (longText v) (ne_of_all (by decide))
  have hsecond := hpart (ascii "text") (replacePlus (urlEncode c)) (ne_of_all (by decide))
  have hnumber : percentDecode malformed true (longText v) = longText v := by
    refine percentDecodeFrom_plain fun u hu => ?_
    have hdec := toNat_of_isDecimal (hdigits u hu)
    constructor
    · rintro rfl
      revert hdec
      decide
    · rw [plainUnit, if_neg]
      rw [Bool.true_and, beq_iff_eq]
      rintro rfl
      revert hdec
      decide
  have hnoamp : (0x26 : UInt16) ∉ ascii "amount" ++ [0x3D] ++ longText v := by
    intro hmem
    rcases List.mem_append.1 hmem with hmem | hmem
    · revert hmem
      decide
    · have hdec := hdigits _ hmem
      revert hdec
      decide
  have hne : ascii "amount" ≠ ascii "text" := by decide
  unfold param Uri.getQueryParameter
  rw [Option.bind_some, Option.bind_some]
  by_cases hc : c = []
  · have hquery : (invoiceQuery v c).splitOn 0x26 = [ascii "amount" ++ [0x3D] ++ longText v] := by
      rw [invoiceQuery, if_pos hc, List.append_nil, hamountKey]
      exact List.splitOn_eq_singleton hnoamp
    rw [hquery, List.findSome?_cons, List.findSome?_cons, hfirst.1, hfirst.2, if_pos rfl, if_neg hne, hnumber, hc]
    exact ⟨rfl, rfl⟩
  · have hnoamp' : (0x26 : UInt16) ∉ ascii "text" ++ [0x3D] ++ replacePlus (urlEncode c) := by
      intro hmem
      rcases List.mem_append.1 hmem with hmem | hmem
      · revert hmem
        decide
      · rw [replacePlus_urlEncode] at hmem
        exact (mem_percentEncode hmem).1 rfl
    have hquery : (invoiceQuery v c).splitOn 0x26 =
        [ascii "amount" ++ [0x3D] ++ longText v, ascii "text" ++ [0x3D] ++ replacePlus (urlEncode c)] := by
      rw [invoiceQuery, if_neg hc, hamountKey, hamp, htextKey, List.cons_append, ← List.append_assoc,
        List.splitOn_append_cons_self_of_not_mem hnoamp, List.splitOn_eq_singleton hnoamp']
    rw [hquery]
    constructor
    · rw [List.findSome?_cons, hfirst.1, hfirst.2, if_pos rfl, hnumber]
      rfl
    · rw [List.findSome?_cons, hfirst.1, if_neg hne, List.findSome?_cons, hsecond.1, hsecond.2, if_pos rfl,
        percentDecode_comment]
      rfl

/-- A fresh sheet that is filled in from the URL of an invoice. -/
def filledIn (round : Rounding) (malformed : List UInt8 → Nat) (pasted : Bool) (address : JavaString) (v : Int64)
    (c : JavaString) : ActionSheet :=
  ({} : ActionSheet).parseTonUrl round malformed pasted (invoiceUrl address v c)

/-- An invoice is filled in as it has been made out if and only if its amount is below `10 ^ 18` and its comment fits into
the field and has no single surrogates. -/
theorem filledIn_iff (pasted : Bool) {address : JavaString}
    (haddress : ∀ u ∈ address, u ≠ 0x3F ∧ u ≠ 0x23 ∧ u ≠ 0x25 ∧ u ≠ 0x2F) {v : Int64} (hv : 0 < v) (c : JavaString) :
    ((filledIn round malformed pasted address v c).recipientString = address ∧
      (filledIn round malformed pasted address v c).amountValue = v ∧
        (filledIn round malformed pasted address v c).commentString = c) ↔
      v.toInt < 10 ^ 18 ∧ c.length ≤ 500 ∧ utf16 (decodeUtf16 '?' c) = c := by
  have hparse := @parse_invoiceUrl malformed _
    (fun u hu => ⟨(haddress u hu).1, (haddress u hu).2.1, (haddress u hu).2.2.1⟩) _ hv c
  obtain ⟨hrecipient, hamount, htext⟩ := @parseTonUrl_spec round _ {} rfl pasted _ _ hparse
  obtain ⟨hparam, hparamText⟩ := @param_invoice malformed (0x2F :: (address ++ [0x2F])) _ hv c
  obtain ⟨hlong, hpos, -⟩ := digits_longText hv
  obtain ⟨hne, hall, hnumber, -⟩ := decimalText_spec v.toInt.natAbs
  have hhi := v.toInt_lt
  have hparseLong : parseLong (longText v) = v.toInt := by
    rw [hlong, parseLong_of_all hall (by rw [hnumber]; omega), hnumber]
    omega
  have hkeep : (0x2F :: (address ++ [0x2F]) : JavaString).filter (· ≠ 0x2F) = address := by
    rw [List.filter_cons_of_neg (by decide), List.filter_append, List.filter_cons_of_neg (by decide), List.filter_nil,
      List.append_nil]
    refine List.filter_eq_self.2 fun u hu => ?_
    rw [decide_eq_true_iff]
    exact (haddress u hu).2.2.2
  rw [if_pos (by rw [List.length_cons, List.length_append, List.length_singleton]; omega), hkeep] at hrecipient
  rw [hparam, if_pos (by rw [hlong]; exact hne), hparseLong] at hamount
  rw [hparamText] at htext
  have hsame := length_utf16_decodeUtf16 c
  have hcomment : (filledIn round malformed pasted address v c).commentString =
      limited malformed (utf16 (decodeUtf16 '?' c)) := by
    refine htext.trans ?_
    split
    · rfl
    · next hnil =>
      rw [not_not] at hnil
      rw [hnil]
      exact ((limited_eq_self_iff []).2 (Nat.zero_le _)).symm
  constructor
  · rintro ⟨-, hv', hc'⟩
    refine ⟨?_, ?_⟩
    · have hshown : (shownAmount v.toInt.natAbs : Int) = v.toInt := by
        rw [← hamount]
        exact congrArg Int64.toInt hv'
      have hlt := shownAmount_lt (n := v.toInt.natAbs) (by omega)
      omega
    · rw [hcomment] at hc'
      rcases @limited_cases malformed (utf16 (decodeUtf16 '?' c)) with ⟨hshort, heq⟩ | ⟨hlong, hcut⟩
      · exact ⟨by omega, heq.symm.trans hc'⟩
      · rw [hc'] at hcut
        omega
  · rintro ⟨hsmall, hshort, hpaired⟩
    refine ⟨hrecipient, Int64.toInt_inj.1 (hamount.trans ?_), ?_⟩
    · rw [shownAmount, if_pos (by omega)]
      omega
    · rw [hcomment, (limited_eq_self_iff _).2 (by omega), hpaired]

/-- The symbols of an address separate nothing in a URL. -/
theorem mem_utf16_rserialize (a : Block.StdAddress) :
    ∀ u ∈ utf16 (a.rserialize true), u ≠ 0x3F ∧ u ≠ 0x23 ∧ u ≠ 0x25 ∧ u ≠ 0x2F := by
  have hall : ∀ n ∈ Base64.letterCodes ++ [45, 95], UInt16.ofNat n ≠ 0x3F ∧ UInt16.ofNat n ≠ 0x23 ∧ UInt16.ofNat n ≠ 0x25 ∧
      UInt16.ofNat n ≠ 0x2F := by decide +kernel
  have hsymbols : ∀ c ∈ Base64.url.symbols, ∀ u ∈ utf16Char c, u ≠ 0x3F ∧ u ≠ 0x23 ∧ u ≠ 0x25 ∧ u ≠ 0x2F := by
    intro c hc u hu
    have hsmall := Base64.toNat_lt_of_mem_url hc
    rw [utf16Char, if_pos (by omega), List.mem_singleton] at hu
    rw [hu]
    exact hall _ ((Base64.mem_url_iff c).1 hc)
  intro u hu
  obtain ⟨c, hc, hu⟩ := List.mem_flatMap.1 hu
  by_cases hfits : Block.StdAddress.FitsByte a.workchain
  · rw [Block.rserialize_eq hfits, if_pos rfl] at hc
    exact hsymbols c (Base64.url.encode_mem c hc) u hu
  · rw [Block.StdAddress.rserialize_eq_nil hfits] at hc
    cases hc

/-- The URLs of invoices and of payments. An invoice with an amount is filled in as it has been made out if and only if its
amount is below `10 ^ 18` and its comment fits into the field and has no single surrogates. A URL that is opaque leaves the
sheet as it is, and of any other one the parts are taken as they are written, or not at all, if and only if they can be
taken so. -/
theorem tonUrl_iff (round : Rounding) (malformed : List UInt8 → Nat) (pasted : Bool) :
    (∀ (a : Block.StdAddress) (v : Int64) (c : JavaString), 0 < v →
      ((filledIn round malformed pasted (utf16 (a.rserialize true)) v c).recipientString = utf16 (a.rserialize true) ∧
        (filledIn round malformed pasted (utf16 (a.rserialize true)) v c).amountValue = v ∧
          (filledIn round malformed pasted (utf16 (a.rserialize true)) v c).commentString = c ↔
        v.toInt < 10 ^ 18 ∧ c.length ≤ 500 ∧ utf16 (decodeUtf16 '?' c) = c)) ∧
    ∀ (s : ActionSheet) (url : JavaString), s.amountField.ignoreTextChange = false →
      (Uri.parse malformed url = none → s.parseTonUrl round malformed pasted url = s) ∧
        ∀ uri, Uri.parse malformed url = some uri →
          (TakesAsWritten s (s.parseTonUrl round malformed pasted url) uri.path (param malformed uri "text")
              (param malformed uri "amount") ↔
            CanBeTaken malformed s uri.path (param malformed uri "text") (param malformed uri "amount")) := by
  refine ⟨fun a v c hv => filledIn_iff pasted (mem_utf16_rserialize a) hv c, fun s url hignore => ⟨fun h => ?_, fun uri h => ?_⟩⟩
  · unfold parseTonUrl
    rw [h]
  · exact takesAsWritten_iff hignore pasted h

end ActionSheet

namespace Sample

/-- Malformed bytes by themselves. -/
def singleBytes (_ : List UInt8) : Nat := 0

/-- An address of the basic workchain. -/
def zeroAddress : Block.StdAddress := { workchain := 0, addr := 0 }

/-- An invoice of `10 ^ 18` is not filled in as it has been made out, and one of a single unit is. -/
theorem tonUrl_iff_amounts :
    ¬ ((ActionSheet.filledIn exactRounding singleBytes false (utf16 (zeroAddress.rserialize true)) 1000000000000000000
          []).recipientString = utf16 (zeroAddress.rserialize true) ∧
        (ActionSheet.filledIn exactRounding singleBytes false (utf16 (zeroAddress.rserialize true)) 1000000000000000000
          []).amountValue = 1000000000000000000 ∧
        (ActionSheet.filledIn exactRounding singleBytes false (utf16 (zeroAddress.rserialize true)) 1000000000000000000
          []).commentString = []) ∧
      (ActionSheet.filledIn exactRounding singleBytes false (utf16 (zeroAddress.rserialize true)) 1000000000
        []).amountValue = 1000000000 := by
  have h := (ActionSheet.tonUrl_iff exactRounding singleBytes false).1 zeroAddress
  exact ⟨fun hfilled => absurd ((h 1000000000000000000 [] (by decide)).1 hfilled).1 (by decide),
    ((h 1000000000 [] (by decide)).2 ⟨by decide, by decide, by decide⟩).2.1⟩

/-- The URL of an invoice of `10 ^ 18`. -/
def largeInvoice : JavaString :=
  ActionSheet.invoiceUrl (utf16 (zeroAddress.rserialize true)) 1000000000000000000 []

/-- It is filled in as a tenth of its amount. -/
theorem largeInvoice_filledIn :
    (ActionSheet.parseTonUrl exactRounding singleBytes {} false largeInvoice).amountValue = 100000000000000000 := by
  decide +kernel

end Sample

end TonWallet.App
