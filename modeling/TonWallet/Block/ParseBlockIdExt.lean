/-
Block ids from texts (`parse_hex_hash` and `parse_block_id_ext` in `block/block.cpp`). The numbers of a block are read by
`sscanf` and its hashes by a loop over the digits. The loop takes three characters for digits that are none, and `sscanf`
does not say when a number is too large for its field; every other text is read as it is written.
-/
import TonWallet.Lib.ScanNumber
import TonWallet.Block.RawAddress

namespace TonWallet.Block

open Lib TonWallet.Td TonWallet.Ton

/-! ## Hashes -/

/-- The value of a character of a hash; what is no digit is told by its distance from `0` and `a`. -/
def hashDigit (c : Char) : Option Nat :=
  let x := (c.toNat : Int) - '0'.toNat
  if x < 0 then none
  else if x > 10 then
    let x := ((c.toNat ||| 0x20 : Nat) : Int) - ('a'.toNat - 10)
    if x < 10 ∨ x > 16 then none else some x.toNat
  else some x.toNat

/-- The loop over the characters from the one at `i` on: every second one completes a byte. -/
def hashBytes : Nat → Nat → List Char → Option (List UInt8)
  | _, _, [] => some []
  | i, y, c :: cs => do
    let x ← hashDigit c
    let y := (y <<< 4) ||| x
    if i &&& 1 = 1 then return UInt8.ofNat y :: (← hashBytes (i + 1) 0 cs) else hashBytes (i + 1) y cs

/-- `parse_hex_hash`; the bytes that a failed call leaves are left out. -/
def parseHexHash (str : List Char) : Option Bits256 :=
  if str.length ≠ 64 then none else (hashBytes 0 0 str).map addrOfBytes

/-! ## Numbers -/

/-- The digits of `%d` and `%u`. -/
def decimal : Digits where
  isDigit := Char.isDigit
  number digits := Nat.ofDigitChars 10 digits 0
  marked := false
  blank_not_digit := eq_false_of_isBlank (by decide +kernel)
  mark_not_digit c h := by
    simp only [isMark, decide_eq_true_eq] at h
    rcases h with rfl | rfl <;> decide
  sign_not_digit := by decide

/-- The digits of `%llx`. -/
def hexadecimal : Digits where
  isDigit := isHexDigit
  number := hexNumber
  marked := true
  blank_not_digit := eq_false_of_isBlank (by decide +kernel)
  mark_not_digit c h := by
    simp only [isMark, decide_eq_true_eq] at h
    rcases h with rfl | rfl <;> decide
  sign_not_digit := by decide

/-- What `sscanf` stores for the number that it has read: the number where it fits into the variable, anything where it
does not. -/
structure Conversions where
  int : Int → Int32
  ullong : Int → UInt64
  uint : Int → UInt32
  int_toInt : ∀ w : Int32, int w.toInt = w
  ullong_toNat : ∀ n : UInt64, ullong n.toNat = n
  uint_toNat : ∀ n : UInt32, uint n.toNat = n

/-- The format `(%d,%llx,%u):%n`: the three numbers, and how many characters have been read. `none` stands for the calls
that convert less than three numbers or do not get to `%n`. -/
def scanBlockId (text : List Char) : Option (Int × Int × Int × Nat) := do
  let s ← scanChar '(' text
  let wc ← decimal.scanNumber s
  let s ← scanChar ',' wc.2
  let shard ← hexadecimal.scanNumber s
  let s ← scanChar ',' shard.2
  let seqno ← decimal.scanNumber s
  let s ← scanChar ')' seqno.2
  let s ← scanChar ':' s
  return (wc.1, shard.1, seqno.1, text.length - s.length)

/-! ## Block ids -/

/-- `parse_block_id_ext` on a text with `behind` in the memory behind it, where `sscanf` does not stop at the end of the
text; `none` stands for an id that is left invalid. -/
def parseBlockIdExt (conv : Conversions) (behind str : List Char) : Option BlockIdExt :=
  if str = [] ∨ str.length > 255 then none
  else if str.head? ≠ some '(' then none
  else if ')' ∉ str then none
  else
    match scanBlockId (str ++ behind) with
    | none => none
    | some (wc, shard, seqno, pos) =>
      if pos = 0 ∨ pos ≥ str.length then none
      else if conv.ullong shard = 0 ∨ conv.int wc = workchainInvalid then none
      else
        let hashes := str.drop pos
        if hashes.length ≠ 64 * 2 + 1 ∨ hashes[64]? ≠ some ':' then none
        else do
          let rootHash ← parseHexHash (hashes.take 64)
          let fileHash ← parseHexHash (hashes.drop 65)
          return ⟨⟨conv.int wc, conv.ullong shard, conv.uint seqno⟩, rootHash, fileHash⟩

/-! ## What a text denotes -/

/-- A text of 64 hexadecimal digits and the hash that they denote. -/
def DenotesHash (text : List Char) (hash : Bits256) : Prop :=
  text.length = 64 ∧ text.all isHexDigit = true ∧ hash.toNat = hexNumber text

/-- A text with the parts of a block id, and nothing behind them. -/
def IdText (s wc shard seqno root file : List Char) : Prop :=
  s = '(' :: (wc ++ ',' :: (shard ++ ',' :: (seqno ++ ')' :: ':' :: (root ++ ':' :: file))))

/-- A text that denotes a block id, field by field. -/
def DenotesId (s : List Char) (b : BlockIdExt) : Prop :=
  ∃ wc shard seqno root file, IdText s wc shard seqno root file ∧ decimal.Numeral wc b.id.workchain.toInt ∧
    hexadecimal.Numeral shard b.id.shard.toNat ∧ decimal.Numeral seqno b.id.seqno.toNat ∧
    DenotesHash root b.rootHash ∧ DenotesHash file b.fileHash

/-- What the parsers are for: hashes are accepted from hexadecimal digits only and as these denote them, the text of a
block id is read back, and no text is read as an id that it does not denote. -/
structure ParsedAsWritten (conv : Conversions) (behind s : List Char) : Prop where
  hash_iff : ∀ hash, parseHexHash s = some hash ↔ DenotesHash s hash
  printed : ∀ b : BlockIdExt, b.id.shard ≠ 0 → b.id.workchain ≠ workchainInvalid → s = b.toStr.toList →
    parseBlockIdExt conv behind s = some b
  denoted : ∀ b, parseBlockIdExt conv behind s = some b → DenotesId s b

/-- The characters that are taken for digits of a hash. -/
def isHashChar (c : Char) : Bool := isHexDigit c || c == ':' || c == 'g' || c == 'G'

/-- Numbers that fit into the variables that they are stored to. -/
def Fit (wc shard seqno : Int) : Prop :=
  (-2 ^ 31 ≤ wc ∧ wc < 2 ^ 31) ∧ (0 ≤ shard ∧ shard < 2 ^ 64) ∧ 0 ≤ seqno ∧ seqno < 2 ^ 32

/-- The texts without a digit that is none: 64 characters that are taken for digits are digits, as they are in a text with
the parts of a block id that is stored as a valid one, and the numbers of this one fit. -/
structure OnlyDigits (conv : Conversions) (s : List Char) : Prop where
  hash : s.length = 64 → s.all isHashChar = true → s.all isHexDigit = true
  block : ∀ {wc shard seqno root file : List Char} {w n q : Int}, s.length ≤ 255 → IdText s wc shard seqno root file →
    decimal.Numeral wc w → hexadecimal.Numeral shard n → decimal.Numeral seqno q →
    conv.ullong n ≠ 0 → conv.int w ≠ workchainInvalid →
    root.length = 64 → root.all isHashChar = true → file.length = 64 → file.all isHashChar = true →
    Fit w n q ∧ root.all isHexDigit = true ∧ file.all isHexDigit = true

/-! ## The digits of a hash -/

/-- The codes of the characters that are taken for digits of a hash. -/
theorem hashDigit_eq (c : Char) : (hashDigit c).isSome = isHashChar c ∧
    (isHexDigit c = true → hashDigit c = StdAddress.parseHexDigit c ∧ ∃ v, hexValue c = some v ∧ v < 16) := by
  have hascii : ∀ n : Fin 128, (hashDigit (Char.ofNat n)).isSome = isHashChar (Char.ofNat n) ∧
      (isHexDigit (Char.ofNat n) = true →
        hashDigit (Char.ofNat n) = StdAddress.parseHexDigit (Char.ofNat n)) := by
    decide +kernel
  by_cases hc : c.toNat < 128
  · have h := hascii ⟨c.toNat, hc⟩
    rw [Char.ofNat_toNat] at h
    exact ⟨h.1, fun hhex => ⟨h.2 hhex, ((StdAddress.parseHexDigit_eq c).2 hhex).2⟩⟩
  · -- other characters are neither taken for digits nor digits
    have hor : 128 ≤ c.toNat ||| 0x20 := le_trans (Nat.le_of_not_lt hc) Nat.left_le_or
    have hhex : isHexDigit c = false := by
      have hnone : StdAddress.parseHexDigit c = none := by
        unfold StdAddress.parseHexDigit
        rw [if_neg (by rintro ⟨-, h⟩; exact hc (lt_of_le_of_lt h (by decide)))]
        dsimp only
        rw [if_neg (by rintro ⟨-, h⟩; exact absurd (le_trans hor h) (by decide))]
      by_contra hhex
      have hsome := (StdAddress.parseHexDigit_eq c).2 (by simpa using hhex)
      rw [← hsome.1, hnone] at hsome
      obtain ⟨-, v, hv, -⟩ := hsome
      cases hv
    have hne (x : Char) (hx : x.toNat < 128) : (c == x) = false := by
      rw [beq_eq_false_iff_ne]
      rintro rfl
      exact hc hx
    have hnone : hashDigit c = none := by
      have hzero : ('0'.toNat : Int) = 48 := rfl
      have ha : ('a'.toNat : Int) = 97 := rfl
      unfold hashDigit
      dsimp only
      rw [hzero, ha, if_neg (by omega), if_pos (by omega), if_pos (by omega)]
    refine ⟨?_, fun h => ?_⟩
    · rw [hnone, isHashChar, hhex, hne ':' (by decide), hne 'g' (by decide), hne 'G' (by decide)]
      rfl
    · rw [hhex] at h
      cases h

theorem isHashChar_of_isHexDigit {c : Char} (h : isHexDigit c = true) : isHashChar c = true := by
  rw [isHashChar, h]
  rfl

/-- The digits of a byte. -/
theorem hashBytes_pair {i : Nat} (hi : i % 2 = 0) (c d : Char) (cs : List Char) :
    hashBytes i 0 (c :: d :: cs) = (hashDigit c).bind fun x => (hashDigit d).bind fun y =>
      (hashBytes (i + 2) 0 cs).map (UInt8.ofNat ((x <<< 4) ||| y) :: ·) := by
  have heven : ¬ i &&& 1 = 1 := by
    rw [Nat.and_one_is_mod]
    omega
  have hodd : (i + 1) &&& 1 = 1 := by
    rw [Nat.and_one_is_mod]
    omega
  rw [hashBytes]
  rcases hashDigit c with _ | x
  · rfl
  · simp only [Option.bind_eq_bind, Option.bind_some, Nat.zero_shiftLeft, Nat.zero_or]
    rw [if_neg heven, hashBytes]
    rcases hashDigit d with _ | y
    · rfl
    · simp only [Option.bind_eq_bind, Option.bind_some]
      rw [if_pos hodd]
      rcases hashBytes (i + 2) 0 cs with _ | bytes <;> rfl

/-- All characters have to be taken for digits. -/
theorem isSome_hashBytes {i : Nat} (hi : i % 2 = 0) {digits : List Char} (hlen : digits.length % 2 = 0) :
    (hashBytes i 0 digits).isSome = digits.all isHashChar := by
  induction digits using StdAddress.parseHexBytes.induct generalizing i with
  | case1 c d cs ih =>
    have hcs : cs.length % 2 = 0 := by
      simp only [List.length_cons] at hlen
      omega
    rw [hashBytes_pair hi, List.all_cons, List.all_cons, ← (hashDigit_eq c).1, ← (hashDigit_eq d).1,
      ← ih (i := i + 2) (by omega) hcs]
    rcases hashDigit c with _ | x
    · rfl
    · rcases hashDigit d with _ | y
      · rfl
      · rcases hashBytes (i + 2) 0 cs with _ | bytes <;> rfl
  | case2 digits hshort =>
    rcases digits with _ | ⟨c, _ | ⟨d, cs⟩⟩
    · rfl
    · cases hlen
    · exact absurd rfl (hshort c d cs)

/-- Of hexadecimal digits the bytes are those that a raw address has of them. -/
theorem hashBytes_eq_parseHexBytes {i : Nat} (hi : i % 2 = 0) {digits : List Char} (hlen : digits.length % 2 = 0)
    (hhex : digits.all isHexDigit = true) : hashBytes i 0 digits = StdAddress.parseHexBytes digits := by
  have hbyte : ∀ x y : Fin 16, UInt8.ofNat ((x.1 <<< 4) ||| y.1) = UInt8.ofNat (((x.1 <<< 4) &&& 0xf0) ||| y.1) := by
    decide
  induction digits using StdAddress.parseHexBytes.induct generalizing i with
  | case1 c d cs ih =>
    rw [List.all_cons, List.all_cons, Bool.and_eq_true, Bool.and_eq_true] at hhex
    obtain ⟨hc, hd, hcs⟩ := hhex
    have hcslen : cs.length % 2 = 0 := by
      simp only [List.length_cons] at hlen
      omega
    obtain ⟨hceq, x, hx, hx16⟩ := (hashDigit_eq c).2 hc
    obtain ⟨hdeq, y, hy, hy16⟩ := (hashDigit_eq d).2 hd
    have hcval := ((StdAddress.parseHexDigit_eq c).2 hc).1
    have hdval := ((StdAddress.parseHexDigit_eq d).2 hd).1
    rw [hashBytes_pair hi, ih (by omega) hcslen hcs, StdAddress.parseHexBytes, hceq, hdeq, hcval, hdval, hx, hy]
    simp only [Option.bind_eq_bind, Option.bind_some, hbyte ⟨x, hx16⟩ ⟨y, hy16⟩]
    rcases StdAddress.parseHexBytes cs with _ | bytes <;> rfl
  | case2 digits hshort =>
    rcases digits with _ | ⟨c, _ | ⟨d, cs⟩⟩
    · rfl
    · cases hlen
    · exact absurd rfl (hshort c d cs)

/-! ## Hashes from texts -/

theorem hexNumber_lt {digits : List Char} (hhex : digits.all isHexDigit = true) : hexNumber digits < 16 ^ digits.length := by
  induction digits with
  | nil => decide
  | cons c cs ih =>
    rw [List.all_cons, Bool.and_eq_true] at hhex
    obtain ⟨-, v, hv, hlt⟩ := (hashDigit_eq c).2 hhex.1
    have hcs := ih hhex.2
    rw [StdAddress.hexNumber_cons, hv, Option.getD_some, List.length_cons, pow_succ]
    calc 16 ^ cs.length * v + hexNumber cs < 16 ^ cs.length * v + 16 ^ cs.length := Nat.add_lt_add_left hcs _
      _ = 16 ^ cs.length * (v + 1) := by ring
      _ ≤ 16 ^ cs.length * 16 := Nat.mul_le_mul_left _ hlt

/-- The hash that a text of digits denotes. -/
theorem denotesHash_iff {text : List Char} {hash : Bits256} : DenotesHash text hash ↔
    text.length = 64 ∧ text.all isHexDigit = true ∧ hash = BitVec.ofNat 256 (hexNumber text) := by
  have hlt (hlen : text.length = 64) (hhex : text.all isHexDigit = true) : hexNumber text < 2 ^ 256 := by
    have h := hexNumber_lt hhex
    rw [hlen] at h
    exact lt_of_lt_of_eq h (by norm_num)
  constructor
  · rintro ⟨hlen, hhex, hhash⟩
    refine ⟨hlen, hhex, BitVec.eq_of_toNat_eq ?_⟩
    rw [BitVec.toNat_ofNat, Nat.mod_eq_of_lt (hlt hlen hhex), hhash]
  · rintro ⟨hlen, hhex, rfl⟩
    exact ⟨hlen, hhex, by rw [BitVec.toNat_ofNat, Nat.mod_eq_of_lt (hlt hlen hhex)]⟩

/-- Hexadecimal digits are read as the hash that they denote. -/
theorem parseHexHash_of_denotesHash {text : List Char} {hash : Bits256} (h : DenotesHash text hash) :
    parseHexHash text = some hash := by
  obtain ⟨hlen, hhex, rfl⟩ := denotesHash_iff.1 h
  have heven : text.length % 2 = 0 := by omega
  have hsome : (hashBytes 0 0 text).isSome = true := by
    rw [isSome_hashBytes rfl heven, List.all_eq_true]
    exact fun c hc => isHashChar_of_isHexDigit (List.all_eq_true.1 hhex c hc)
  obtain ⟨bytes, hbytes⟩ := Option.isSome_iff_exists.1 hsome
  have haddr := addrOfBytes_parseHexBytes hlen hhex
  rw [← hashBytes_eq_parseHexBytes (i := 0) rfl heven hhex, hbytes, Option.getD_some] at haddr
  rw [parseHexHash, if_neg (not_not.2 hlen), hbytes, Option.map_some, haddr]

/-- The texts that are accepted for a hash. -/
theorem isSome_parseHexHash {text : List Char} :
    (parseHexHash text).isSome = true ↔ text.length = 64 ∧ text.all isHashChar = true := by
  unfold parseHexHash
  split
  · next hlen => simp [hlen]
  · next hlen =>
    rw [Option.isSome_map, isSome_hashBytes rfl (by omega)]
    exact (and_iff_right (not_not.1 hlen)).symm

/-- What is read from hexadecimal digits only is what they denote. -/
theorem denotesHash_of_parseHexHash {text : List Char} {hash : Bits256} (h : parseHexHash text = some hash)
    (hhex : text.all isHexDigit = true) : DenotesHash text hash := by
  obtain ⟨hlen, -⟩ := isSome_parseHexHash.1 (Option.isSome_iff_exists.2 ⟨hash, h⟩)
  have hdenoted : DenotesHash text (BitVec.ofNat 256 (hexNumber text)) := denotesHash_iff.2 ⟨hlen, hhex, rfl⟩
  rw [parseHexHash_of_denotesHash hdenoted] at h
  cases h
  exact hdenoted

/-! ## Block ids from texts -/

/-- What the format matches. -/
theorem scanBlockId_iff {text : List Char} {w n q : Int} {pos : Nat} : scanBlockId text = some (w, n, q, pos) ↔
    ∃ wc shard seqno rest, text = '(' :: (wc ++ ',' :: (shard ++ ',' :: (seqno ++ ')' :: ':' :: rest))) ∧
      decimal.Numeral wc w ∧ hexadecimal.Numeral shard n ∧ decimal.Numeral seqno q ∧ pos = text.length - rest.length := by
  have hsep (d : Digits) (c : Char) (hc : d.isDigit c = false ∧ isMark c = false) (s : List Char) :
      d.Separate (c :: s) := by
    intro x xs heq
    rw [← (List.cons.inj heq).1]
    exact hc
  constructor
  · intro h
    unfold scanBlockId at h
    simp only [Option.bind_eq_bind, Option.bind_eq_some_iff, scanChar_eq_some] at h
    obtain ⟨s₁, rfl, ⟨w', t₁⟩, hwc, s₂, ht₁, ⟨n', t₂⟩, hshard, s₃, ht₂, ⟨q', t₃⟩, hseqno, s₄, ht₃, rest, ht₄, h⟩ := h
    obtain ⟨wc, rfl, hw⟩ := Digits.numeral_of_scanNumber hwc
    dsimp only at ht₁
    subst ht₁
    obtain ⟨shard, rfl, hn⟩ := Digits.numeral_of_scanNumber hshard
    dsimp only at ht₂
    subst ht₂
    obtain ⟨seqno, rfl, hq⟩ := Digits.numeral_of_scanNumber hseqno
    dsimp only at ht₃
    subst ht₃ ht₄
    cases h
    exact ⟨wc, shard, seqno, rest, rfl, hw, hn, hq, rfl⟩
  · rintro ⟨wc, shard, seqno, rest, rfl, hw, hn, hq, rfl⟩
    unfold scanBlockId
    simp only [Option.bind_eq_bind, scanChar_eq_some.2 rfl, Option.bind_some,
      Digits.scanNumber_numeral hw (hsep _ ',' (by decide) _), Digits.scanNumber_numeral hn (hsep _ ',' (by decide) _),
      Digits.scanNumber_numeral hq (hsep _ ')' (by decide) _)]
    rfl

/-- The texts that are accepted for a block id, and what they are read as. -/
theorem parseBlockIdExt_iff {conv : Conversions} {behind str : List Char} {b : BlockIdExt} :
    parseBlockIdExt conv behind str = some b ↔ str.length ≤ 255 ∧ ∃ wc shard seqno root file w n q,
      IdText str wc shard seqno root file ∧ decimal.Numeral wc w ∧ hexadecimal.Numeral shard n ∧ decimal.Numeral seqno q ∧
        conv.ullong n ≠ 0 ∧ conv.int w ≠ workchainInvalid ∧ b.id = ⟨conv.int w, conv.ullong n, conv.uint q⟩ ∧
        parseHexHash root = some b.rootHash ∧ parseHexHash file = some b.fileHash := by
  have hlength {text : List Char} {hash : Bits256} (h : parseHexHash text = some hash) : text.length = 64 :=
    (isSome_parseHexHash.1 (Option.isSome_iff_exists.2 ⟨hash, h⟩)).1
  constructor
  · intro h
    unfold parseBlockIdExt at h
    rw [Option.ite_none_left_eq_some, Option.ite_none_left_eq_some, Option.ite_none_left_eq_some] at h
    obtain ⟨hlen, -, -, h⟩ := h
    rcases hscan : scanBlockId (str ++ behind) with _ | ⟨w, n, q, pos⟩
    · rw [hscan] at h
      cases h
    rw [hscan] at h
    dsimp only at h
    rw [Option.ite_none_left_eq_some, Option.ite_none_left_eq_some, Option.ite_none_left_eq_some] at h
    obtain ⟨hpos, hvalid, hhashes, h⟩ := h
    rw [not_or, not_not, not_not] at hhashes
    rw [not_or] at hvalid hlen hpos
    obtain ⟨root, hroot, h⟩ := Option.bind_eq_some_iff.1 h
    obtain ⟨file, hfile, h⟩ := Option.bind_eq_some_iff.1 h
    cases h
    obtain ⟨wc, shard, seqno, rest, htext, hw, hn, hq, hposeq⟩ := scanBlockId_iff.1 hscan
    refine ⟨Nat.le_of_not_lt hlen.2, wc, shard, seqno, _, _, w, n, q, ?_, hw, hn, hq, hvalid.1, hvalid.2, rfl, hroot, hfile⟩
    -- what has been read ends in the text
    have hfront : str ++ behind = ('(' :: (wc ++ ',' :: (shard ++ ',' :: (seqno ++ [')', ':'])))) ++ rest := by
      rw [htext]
      simp
    have hfrontlen : ('(' :: (wc ++ ',' :: (shard ++ ',' :: (seqno ++ [')', ':'])))).length = pos := by
      rw [hposeq, hfront, List.length_append]
      omega
    have htake : str.take pos = '(' :: (wc ++ ',' :: (shard ++ ',' :: (seqno ++ [')', ':']))) := by
      have h := congrArg (List.take pos) hfront
      rwa [List.take_append_of_le_length (by omega), ← hfrontlen, List.take_left, hfrontlen] at h
    have hdrop : str.drop pos = (str.drop pos).take 64 ++ ':' :: (str.drop pos).drop 65 := by
      obtain ⟨hlt, hcolon⟩ := List.getElem?_eq_some_iff.1 hhashes.2
      rw [← hcolon, List.getElem_cons_drop, List.take_append_drop]
    unfold IdText
    rw [← hdrop]
    conv_lhs => rw [← List.take_append_drop pos str, htake]
    simp
  · rintro ⟨hlen, wc, shard, seqno, root, file, w, n, q, htext, hw, hn, hq, hshard, hwc, hid, hroot, hfile⟩
    obtain ⟨id, rootHash, fileHash⟩ := b
    dsimp only at hid hroot hfile
    subst hid
    have hrootlen := hlength hroot
    have hfilelen := hlength hfile
    unfold IdText at htext
    have hscan : scanBlockId (str ++ behind) = some (w, n, q, str.length - (root ++ ':' :: file).length) := by
      refine scanBlockId_iff.2 ⟨wc, shard, seqno, root ++ ':' :: file ++ behind, ?_, hw, hn, hq, ?_⟩
      · rw [htext]
        simp
      · simp only [List.length_append, List.length_cons]
        omega
    have hstrlen : 2 < str.length - (root ++ ':' :: file).length ∧
        str.length - (root ++ ':' :: file).length < str.length := by
      rw [htext]
      simp only [List.length_cons, List.length_append]
      omega
    have hdrop : str.drop (str.length - (root ++ ':' :: file).length) = root ++ ':' :: file := by
      have hfront : str = ('(' :: (wc ++ ',' :: (shard ++ ',' :: (seqno ++ [')', ':'])))) ++ (root ++ ':' :: file) := by
        rw [htext]
        simp
      conv_lhs => rw [hfront]
      rw [List.length_append, Nat.add_sub_cancel]
      exact List.drop_left
    have hne : ¬ (str = [] ∨ str.length > 255) := by
      rintro (h | h)
      · rw [h] at htext
        cases htext
      · omega
    have hhead : ¬ str.head? ≠ some '(' := by
      rw [htext, not_not]
      rfl
    have hparen : ¬ ')' ∉ str := by
      rw [htext, not_not]
      simp
    have hhashes : ¬ ((root ++ ':' :: file).length ≠ 64 * 2 + 1 ∨ (root ++ ':' :: file)[64]? ≠ some ':') := by
      rw [not_or, not_not, not_not, List.length_append, List.length_cons, hrootlen, hfilelen,
        List.getElem?_append_right hrootlen.le, hrootlen]
      exact ⟨rfl, rfl⟩
    have hpos : ¬ (str.length - (root ++ ':' :: file).length = 0 ∨
        str.length - (root ++ ':' :: file).length ≥ str.length) := by
      rintro (h | h) <;> omega
    have htake : (root ++ ':' :: file).take 64 = root := by
      rw [← hrootlen]
      exact List.take_left
    have htail : (root ++ ':' :: file).drop 65 = file := by
      rw [← List.drop_drop (i := 1) (j := 64), ← hrootlen, List.drop_left]
      rfl
    unfold parseBlockIdExt
    rw [if_neg hne, if_neg hhead, if_neg hparen, hscan]
    dsimp only
    rw [if_neg hpos, if_neg (not_or.2 ⟨hshard, hwc⟩), hdrop, if_neg hhashes, htake, htail, hroot, hfile]
    rfl

/-! ## Printed ids -/

theorem hexValue_hexDigit (upper : Bool) {v : Nat} (h : v < 16) : hexValue (hexDigit upper v) = some v := by
  have hall : ∀ (upper : Bool) (v : Fin 16), hexValue (hexDigit upper v.1) = some v.1 := by decide
  exact hall upper ⟨v, h⟩

/-- The printed digits are hexadecimal digits. -/
theorem isHexDigit_toHex (upper : Bool) (digits n : Nat) :
    (toHex upper digits n).toList.length = digits ∧ ∀ c ∈ (toHex upper digits n).toList, isHexDigit c = true := by
  unfold toHex
  rw [String.toList_ofList]
  constructor
  · rw [List.length_map, List.length_reverse, List.length_range]
  · intro c hc
    obtain ⟨i, -, rfl⟩ := List.mem_map.1 hc
    rw [isHexDigit, hexValue_hexDigit upper (Nat.mod_lt _ (by decide))]
    rfl

/-- The printed digits denote the number. -/
theorem hexNumber_toHex (upper : Bool) (digits n : Nat) : hexNumber (toHex upper digits n).toList = n % 16 ^ digits := by
  unfold toHex
  rw [String.toList_ofList]
  induction digits with
  | zero => simp [hexNumber, Nat.mod_one]
  | succ digits ih =>
    rw [List.range_succ, List.reverse_append, List.reverse_singleton, List.singleton_append, List.map_cons,
      StdAddress.hexNumber_cons, ih, hexValue_hexDigit upper (Nat.mod_lt _ (by decide)), Option.getD_some, List.length_map,
      List.length_reverse, List.length_range, Nat.mod_pow_succ, Nat.add_comm]

theorem denotesHash_hashHex (hash : Bits256) : DenotesHash (hashHex hash).toList hash := by
  obtain ⟨hlen, hhex⟩ := isHexDigit_toHex true 64 hash.toNat
  refine ⟨hlen, List.all_eq_true.2 hhex, ?_⟩
  unfold hashHex
  rw [hexNumber_toHex, Nat.mod_eq_of_lt (lt_of_lt_of_eq hash.isLt (by norm_num))]

/-- Decimals are a numeral. -/
theorem numeral_toString (z : Int) : decimal.Numeral (toString z).toList z := by
  have hdigits (n : Nat) : Nat.toDigits 10 n ≠ [] ∧ ∀ c ∈ Nat.toDigits 10 n, decimal.isDigit c = true :=
    ⟨Nat.toDigits_ne_nil, fun c hc => Nat.isDigit_of_mem_toDigits (by decide) (by decide) hc⟩
  have hnumber (n : Nat) : decimal.number (Nat.toDigits 10 n) = n := Nat.ofDigitChars_ten_toDigits
  rw [StdAddress.toList_toString]
  split
  · next hsign =>
    have h := Digits.Numeral.of_digits (hdigits z.natAbs).1 (hdigits z.natAbs).2
    rwa [hnumber, Int.natAbs_of_nonneg hsign] at h
  · next hsign =>
    have h := Digits.Numeral.of_minus (hdigits z.natAbs).1 (hdigits z.natAbs).2
    rwa [hnumber, show -(z.natAbs : Int) = z by omega] at h

theorem numeral_toHex {n : Nat} (h : n < 2 ^ 64) : hexadecimal.Numeral (toHex false 16 n).toList n := by
  obtain ⟨hlen, hhex⟩ := isHexDigit_toHex false 16 n
  have hne : (toHex false 16 n).toList ≠ [] := by
    intro hnil
    rw [hnil] at hlen
    cases hlen
  have hnumber : hexadecimal.number (toHex false 16 n).toList = n := by
    show hexNumber _ = n
    rw [hexNumber_toHex, Nat.mod_eq_of_lt (lt_of_lt_of_eq h (by norm_num))]
  have hnumeral := Digits.Numeral.of_digits (d := hexadecimal) hne hhex
  rwa [hnumber] at hnumeral

/-- An id is denoted by its text. -/
theorem denotesId_toStr (b : BlockIdExt) : DenotesId b.toStr.toList b := by
  refine ⟨(toString b.id.workchain.toInt).toList, (toHex false 16 b.id.shard.toNat).toList,
    (toString (b.id.seqno.toNat : Int)).toList, (hashHex b.rootHash).toList, (hashHex b.fileHash).toList, ?_,
    numeral_toString _, numeral_toHex b.id.shard.toNat_lt, numeral_toString _, denotesHash_hashHex _, denotesHash_hashHex _⟩
  unfold IdText BlockIdExt.toStr BlockId.toStr
  have hseqno : toString (b.id.seqno.toNat : Int) = toString b.id.seqno.toNat := rfl
  rw [hseqno]
  simp [String.toList_append]

/-- What a text denotes is at most 255 characters long when it has been printed. -/
theorem length_toStr_le (b : BlockIdExt) : b.toStr.toList.length ≤ 255 := by
  have hdecimals (z : Int) (h : z.natAbs < 10 ^ 10) : (toString z).toList.length ≤ 11 := by
    have hlen : (Nat.toDigits 10 z.natAbs).length ≤ 10 := (Nat.length_toDigits_le_iff (by decide) (by decide)).2 h
    rw [StdAddress.toList_toString]
    split
    · omega
    · rw [List.length_cons]
      omega
  have hlo := b.id.workchain.le_toInt
  have hhi := b.id.workchain.toInt_lt
  have hseqno := b.id.seqno.toNat_lt
  have hwclen := hdecimals b.id.workchain.toInt (by omega)
  have hseqnolen := hdecimals (b.id.seqno.toNat : Int) (by omega)
  have hshard := (isHexDigit_toHex false 16 b.id.shard.toNat).1
  have hroot := (denotesHash_hashHex b.rootHash).1
  have hfile := (denotesHash_hashHex b.fileHash).1
  have hcast : toString (b.id.seqno.toNat : Int) = toString b.id.seqno.toNat := rfl
  rw [hcast] at hseqnolen
  unfold BlockIdExt.toStr BlockId.toStr
  simp only [String.toList_append, List.length_append, hshard, hroot, hfile]
  have hparens : "(".toList.length = 1 ∧ ",".toList.length = 1 ∧ ")".toList.length = 1 ∧ ":".toList.length = 1 := by decide
  omega

/-- A block id with a valid shard is read back from its text. -/
theorem parseBlockIdExt_toStr (conv : Conversions) (behind : List Char) {b : BlockIdExt} (hshard : b.id.shard ≠ 0)
    (hwc : b.id.workchain ≠ workchainInvalid) : parseBlockIdExt conv behind b.toStr.toList = some b := by
  obtain ⟨wc, shard, seqno, root, file, htext, hw, hn, hq, hroot, hfile⟩ := denotesId_toStr b
  refine parseBlockIdExt_iff.2 ⟨length_toStr_le b, wc, shard, seqno, root, file, _, _, _, htext, hw, hn, hq, ?_, ?_, ?_,
    parseHexHash_of_denotesHash hroot, parseHexHash_of_denotesHash hfile⟩
  · rwa [conv.ullong_toNat]
  · rwa [conv.int_toInt]
  · rw [conv.int_toInt, conv.ullong_toNat, conv.uint_toNat]

/-! ## What is read as it is written -/

/-- The parts of a text are read in one way. -/
theorem idText_unique {s wc shard seqno root file wc' shard' seqno' root' file' : List Char} {w n q w' n' q' : Int}
    (h : IdText s wc shard seqno root file) (hw : decimal.Numeral wc w) (hn : hexadecimal.Numeral shard n)
    (hq : decimal.Numeral seqno q) (h' : IdText s wc' shard' seqno' root' file') (hw' : decimal.Numeral wc' w')
    (hn' : hexadecimal.Numeral shard' n') (hq' : decimal.Numeral seqno' q') (hroot : root.length = root'.length) :
    w = w' ∧ n = n' ∧ q = q' ∧ root = root' ∧ file = file' := by
  have hscan := scanBlockId_iff.2 ⟨wc, shard, seqno, _, h, hw, hn, hq, rfl⟩
  have hscan' := scanBlockId_iff.2 ⟨wc', shard', seqno', _, h', hw', hn', hq', rfl⟩
  rw [hscan, Option.some.injEq, Prod.mk.injEq, Prod.mk.injEq, Prod.mk.injEq] at hscan'
  obtain ⟨rfl, rfl, rfl, hpos⟩ := hscan'
  have hfront {wc shard seqno rest : List Char} :
      '(' :: (wc ++ ',' :: (shard ++ ',' :: (seqno ++ ')' :: ':' :: rest))) =
        ('(' :: (wc ++ ',' :: (shard ++ ',' :: (seqno ++ [')', ':'])))) ++ rest := by
    simp
  unfold IdText at h h'
  rw [hfront] at h h'
  -- the same number of characters is left for the hashes
  have hlen : (root ++ ':' :: file).length ≤ s.length := by
    rw [h]
    exact (List.suffix_append _ _).length_le
  have hlen' : (root' ++ ':' :: file').length ≤ s.length := by
    rw [h']
    exact (List.suffix_append _ _).length_le
  obtain ⟨-, hrest⟩ := List.append_inj' (h.symm.trans h') (by omega)
  obtain ⟨hroots, hfiles⟩ := List.append_inj hrest hroot
  exact ⟨rfl, rfl, rfl, hroots, (List.cons.inj hfiles).2⟩

/-- The numbers that are stored exactly. -/
theorem exact_of_fit (conv : Conversions) {w n q : Int} (h : Fit w n q) :
    (conv.int w).toInt = w ∧ ((conv.ullong n).toNat : Int) = n ∧ ((conv.uint q).toNat : Int) = q := by
  obtain ⟨⟨hwlo, hwhi⟩, ⟨hnlo, hnhi⟩, hqlo, hqhi⟩ := h
  refine ⟨?_, ?_, ?_⟩
  · have hw : (Int32.ofInt w).toInt = w := Int32.toInt_ofInt_of_le (by omega) (by omega)
    have hconv := conv.int_toInt (Int32.ofInt w)
    rw [hw] at hconv
    rw [hconv, hw]
  · obtain ⟨n, rfl⟩ := Int.eq_ofNat_of_zero_le hnlo
    have hn : (UInt64.ofNat n).toNat = n := UInt64.toNat_ofNat_of_lt' (show n < 18446744073709551616 by omega)
    have hconv := conv.ullong_toNat (UInt64.ofNat n)
    rw [hn] at hconv
    rw [hconv, hn]
  · obtain ⟨q, rfl⟩ := Int.eq_ofNat_of_zero_le hqlo
    have hq : (UInt32.ofNat q).toNat = q := UInt32.toNat_ofNat_of_lt' (show q < 4294967296 by omega)
    have hconv := conv.uint_toNat (UInt32.ofNat q)
    rw [hq] at hconv
    rw [hconv, hq]

/-- A text is parsed as it is written if and only if no character but a digit is taken for one in it and its numbers fit. -/
theorem parsedAsWritten_iff (conv : Conversions) (behind s : List Char) :
    ParsedAsWritten conv behind s ↔ OnlyDigits conv s := by
  constructor
  · rintro ⟨hiff, -, hdenoted⟩
    constructor
    · intro hlen hchars
      obtain ⟨hash, hhash⟩ := Option.isSome_iff_exists.1 (isSome_parseHexHash.2 ⟨hlen, hchars⟩)
      exact ((hiff hash).1 hhash).2.1
    · intro wc shard seqno root file w n q hlen htext hw hn hq hshard hwc hrootlen hroot hfilelen hfile
      obtain ⟨rootHash, hrootHash⟩ := Option.isSome_iff_exists.1 (isSome_parseHexHash.2 ⟨hrootlen, hroot⟩)
      obtain ⟨fileHash, hfileHash⟩ := Option.isSome_iff_exists.1 (isSome_parseHexHash.2 ⟨hfilelen, hfile⟩)
      have hparse := (@parseBlockIdExt_iff conv behind _
        ⟨⟨conv.int w, conv.ullong n, conv.uint q⟩, rootHash, fileHash⟩).2
          ⟨hlen, wc, shard, seqno, root, file, w, n, q, htext, hw, hn, hq, hshard, hwc, rfl, hrootHash, hfileHash⟩
      obtain ⟨wc', shard', seqno', root', file', htext', hw', hn', hq', hroot', hfile'⟩ := hdenoted _ hparse
      obtain ⟨hweq, hneq, hqeq, rfl, rfl⟩ := idText_unique htext hw hn hq htext' hw' hn' hq' (by rw [hrootlen, hroot'.1])
      dsimp only at hweq hneq hqeq
      have hwlo := (conv.int w).le_toInt
      have hwhi := (conv.int w).toInt_lt
      have hnhi := (conv.ullong n).toNat_lt
      have hqhi := (conv.uint q).toNat_lt
      exact ⟨⟨⟨by omega, by omega⟩, ⟨by omega, by omega⟩, by omega, by omega⟩, hroot'.2.1, hfile'.2.1⟩
  · intro h
    refine ⟨fun hash => ⟨fun hparse => ?_, parseHexHash_of_denotesHash⟩, ?_, fun b hparse => ?_⟩
    · obtain ⟨hlen, hchars⟩ := isSome_parseHexHash.1 (Option.isSome_iff_exists.2 ⟨hash, hparse⟩)
      exact denotesHash_of_parseHexHash hparse (h.hash hlen hchars)
    · rintro b hshard hwc rfl
      exact parseBlockIdExt_toStr conv behind hshard hwc
    · obtain ⟨hlen, wc, shard, seqno, root, file, w, n, q, htext, hw, hn, hq, hshard, hwc, hid, hroot, hfile⟩ :=
        parseBlockIdExt_iff.1 hparse
      obtain ⟨hrootlen, hrootchars⟩ := isSome_parseHexHash.1 (Option.isSome_iff_exists.2 ⟨_, hroot⟩)
      obtain ⟨hfilelen, hfilechars⟩ := isSome_parseHexHash.1 (Option.isSome_iff_exists.2 ⟨_, hfile⟩)
      obtain ⟨hfit, hroothex, hfilehex⟩ :=
        h.block hlen htext hw hn hq hshard hwc hrootlen hrootchars hfilelen hfilechars
      obtain ⟨hwexact, hnexact, hqexact⟩ := exact_of_fit conv hfit
      refine ⟨wc, shard, seqno, root, file, htext, ?_, ?_, ?_, denotesHash_of_parseHexHash hroot hroothex,
        denotesHash_of_parseHexHash hfile hfilehex⟩
      · rwa [hid, hwexact]
      · rwa [hid, hnexact]
      · rwa [hid, hqexact]

namespace Sample

/-- Conversions that keep the low bits of a number. -/
def truncating : Conversions where
  int := Int32.ofInt
  ullong := UInt64.ofInt
  uint := UInt32.ofInt
  int_toInt w := Int32.ofInt_toInt w
  ullong_toNat n := by
    have hlt := n.toNat_lt
    have hmod : ((n.toNat : Int) % 2 ^ 64).toNat = n.toNat := by omega
    rw [UInt64.ofInt, hmod, UInt64.ofNat_toNat]
  uint_toNat n := by
    have hlt := n.toNat_lt
    have hmod : ((n.toNat : Int) % 2 ^ 32).toNat = n.toNat := by omega
    rw [UInt32.ofInt, hmod, UInt32.ofNat_toNat]

/-- 64 colons are accepted for a hash, and are no digits. -/
theorem colons_not_parsedAsWritten :
    parseHexHash (List.replicate 64 ':') = some (BitVec.ofNat 256 (hexNumber (List.replicate 64 'a'))) ∧
      ¬ ParsedAsWritten truncating [] (List.replicate 64 ':') := by
  have hparse : parseHexHash (List.replicate 64 ':') = some (BitVec.ofNat 256 (hexNumber (List.replicate 64 'a'))) := by
    decide +kernel
  refine ⟨hparse, fun h => ?_⟩
  have hhex := ((h.hash_iff _).1 hparse).2.1
  revert hhex
  decide +kernel

end Sample

end TonWallet.Block
