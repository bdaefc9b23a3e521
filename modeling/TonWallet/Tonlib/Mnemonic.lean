/-
Recovery phrases, `Mnemonic`: a text is taken apart into words of lower-case letters, whatever the case of its letters
and whatever stands between the words, and the words and a password are hashed to a private key. A new phrase is drawn
until its seed has the form that the import of a key asks for.
-/
import Mathlib.Data.List.Forall2
import TonWallet.Tonlib.KeyEncryption

namespace TonWallet.Tonlib

open TonWallet.Td Crypto KeyCrypto

namespace Mnemonic

/-! ## Words -/

/-- `td::is_alpha`. -/
def isAlpha (c : UInt8) : Bool :=
  let c := c ||| 0x20
  decide (97 ≤ c) && decide (c ≤ 122)

/-- `td::to_lower`. -/
def toLower (c : UInt8) : UInt8 := if 65 ≤ c ∧ c ≤ 90 then c - 65 + 97 else c

/-- `' '`. -/
def space : UInt8 := 32

/-- `td::full_split` without a bound on the number of parts. -/
def fullSplit (s : Bytes) (delimiter : UInt8) : List Bytes := if s = [] then [] else s.splitOn delimiter

def normalizeAndSplit (words : Bytes) : List Bytes :=
  (fullSplit (words.map fun c => if isAlpha c then toLower c else space) space).filter fun s => !s.isEmpty

def join (words : List Bytes) : Bytes := [space].intercalate words

end Mnemonic

/-- `Mnemonic`: `create_from_normalized` is the only way to make one. -/
structure Mnemonic where
  words : List Bytes
  password : Bytes
  normalized : Mnemonic.normalizeAndSplit (Mnemonic.join words) = words
  deriving DecidableEq

namespace Mnemonic

/-! ## Creation -/

def createFromNormalized (words : List Bytes) (password : Bytes) : Result Mnemonic :=
  if h : normalizeAndSplit (join words) = words then .ok ⟨words, password, h⟩
  else fail "Mnemonic string is not normalized"

def create (words password : Bytes) : Result Mnemonic := createFromNormalized (normalizeAndSplit words) password

/-- `create` of a list of words. -/
def createOfList (words : List Bytes) (password : Bytes) : Result Mnemonic := create (join words) password

def getWords (m : Mnemonic) : List Bytes := m.words

/-- `Mnemonic::PBKDF_ITERATIONS`. -/
def pbkdfIterations : Nat := 100000

/-- `Mnemonic::Options`; the entropy goes into the random generator. -/
structure Options where
  wordsCount : Int := 24
  password : Bytes := []

section

variable [KeyCrypto]

def toEntropy (m : Mnemonic) : Bytes := hmacSha512 (join m.words) m.password

def toSeed (m : Mnemonic) : Bytes := pbkdf2Sha512 m.toEntropy "TON default seed".toUTF8.toList pbkdfIterations

/-- `to_private_key`, the octets of the key. -/
def toPrivateKey (m : Mnemonic) : Bytes := m.toSeed.take 32

def isBasicSeed (m : Mnemonic) : Bool :=
  (pbkdf2Sha512 m.toEntropy "TON seed version".toUTF8.toList (max 1 (pbkdfIterations / 256))).head? == some 0

def isPasswordSeed (m : Mnemonic) : Bool :=
  (pbkdf2Sha512 m.toEntropy "TON fast seed version".toUTF8.toList 1).head? == some 1

/-- The key of a phrase. -/
def decryptedKey (m : Mnemonic) : DecryptedKey := ⟨m.getWords, m.toPrivateKey⟩

/-! ## New phrases -/

/-- The index of a word: eleven bits of the random bytes. -/
def wordIndex (rnd : Nat → UInt8) (i : Nat) : Nat :=
  (List.range 11).foldl
    (fun w j =>
      let offset := i * 11 + j
      if (rnd (offset / 8)).toNat &&& (1 <<< (offset &&& 7)) ≠ 0 then w ||| 1 <<< j else w) 0

/-- One iteration of `create_new`; `none` goes on to the next one. -/
def attempt (words : List Bytes) (password : Bytes) : Result (Option Mnemonic) :=
  if password ≠ [] then do
    let withoutPassword ← moveAsOk (createOfList words [])
    if !withoutPassword.isPasswordSeed then pure none
    else do
      let mnemonic ← moveAsOk (createOfList words password)
      if !mnemonic.isBasicSeed then pure none
      else if withoutPassword.isBasicSeed then pure none
      else pure (some mnemonic)
  else do
    let mnemonic ← moveAsOk (createOfList words password)
    if !mnemonic.isBasicSeed then pure none else pure (some mnemonic)

/-- The loop of `create_new`, with the random bytes of every iteration and the number of iterations left. -/
def createLoop (draw : Nat → List Bytes) (password : Bytes) (iteration : Nat) : Nat → Result Mnemonic
  | 0 => fail "Failed to create a mnemonic (should not happen)"
  | left + 1 => do
    match ← attempt (draw iteration) password with
    | some mnemonic => pure mnemonic
    | none => createLoop draw password (iteration + 1) left

/-- `create_new`, with the text of `bip39_english`. -/
def createNew (bip39English : Bytes) (random : Nat → Nat → UInt8) (options : Options) : Result Mnemonic := do
  let wordsCount := if options.wordsCount = 0 then 24 else options.wordsCount
  failIf (wordsCount < 8 ∨ wordsCount > 48)
    ("Invalid words count(" ++ toString wordsCount ++ ") requested for mnemonic creation")
  let maxIterations := if options.password ≠ [] then 256 * 20 * 256 else 256 * 20
  let bipWords := normalizeAndSplit bip39English
  check (bipWords.length = 2048) "bip_words.size() == 2048"
  createLoop
    (fun iteration => (List.range wordsCount.toNat).map fun i => bipWords.getD (wordIndex (random iteration) i) [])
    options.password 0 maxIterations

end

/-! ## Texts that spell words -/

/-- The letters. -/
def IsLetter (c : UInt8) : Prop := (65 ≤ c ∧ c ≤ 90) ∨ (97 ≤ c ∧ c ≤ 122)

/-- A text with these words, in any case, and anything but letters around and between them. -/
inductive Spells : List Bytes → Bytes → Prop
  | empty : Spells [] []
  | word {word : Bytes} (hne : word ≠ []) (hletters : ∀ c ∈ word, IsLetter c) : Spells [word.map toLower] word
  | separated {v w : List Bytes} {s t : Bytes} {c : UInt8} (hs : Spells v s) (hc : ¬ IsLetter c) (ht : Spells w t) :
      Spells (v ++ w) (s ++ c :: t)

/-- A word in its normal form. -/
def IsWord (word : Bytes) : Prop := word ≠ [] ∧ ∀ c ∈ word, 97 ≤ c ∧ c ≤ 122

theorem isAlpha_iff (c : UInt8) : isAlpha c = true ↔ IsLetter c := by
  have hall : ∀ n : Fin 256, isAlpha (UInt8.ofNat n) = true ↔
      (65 ≤ (UInt8.ofNat n) ∧ UInt8.ofNat n ≤ 90) ∨ (97 ≤ UInt8.ofNat n ∧ UInt8.ofNat n ≤ 122) := by
    decide +kernel
  have hc := hall ⟨c.toNat, c.toNat_lt⟩
  rw [UInt8.ofNat_toNat] at hc
  exact hc

theorem toLower_of_isLetter {c : UInt8} (h : IsLetter c) : 97 ≤ toLower c ∧ toLower c ≤ 122 := by
  have hall : ∀ n : Fin 256,
      (65 ≤ (UInt8.ofNat n) ∧ UInt8.ofNat n ≤ 90) ∨ (97 ≤ UInt8.ofNat n ∧ UInt8.ofNat n ≤ 122) →
        97 ≤ toLower (UInt8.ofNat n) ∧ toLower (UInt8.ofNat n) ≤ 122 := by
    decide +kernel
  have hc := hall ⟨c.toNat, c.toNat_lt⟩
  rw [UInt8.ofNat_toNat] at hc
  exact hc h

theorem not_isLetter_space : ¬ IsLetter space := by
  rintro (⟨h, -⟩ | ⟨h, -⟩) <;> revert h <;> decide

theorem IsWord.letters {word : Bytes} (h : IsWord word) : ∀ c ∈ word, IsLetter c := fun c hc => .inr (h.2 c hc)

theorem IsWord.map_toLower {word : Bytes} (h : IsWord word) : word.map toLower = word := by
  have hid : word.map toLower = word.map id := List.map_congr_left fun c hc => if_neg fun hupper => by
    have hlower := (h.2 c hc).1
    have hle := UInt8.le_iff_toNat_le.1 hupper.2
    have hge := UInt8.le_iff_toNat_le.1 hlower
    exact absurd (Nat.le_trans hge hle) (by decide)
  rw [hid, List.map_id]

/-- A word that is spelled. -/
theorem isWord_map_toLower {word : Bytes} (hne : word ≠ []) (hletters : ∀ c ∈ word, IsLetter c) :
    IsWord (word.map toLower) := by
  refine ⟨fun h => hne (List.map_eq_nil_iff.1 h), fun d hd => ?_⟩
  obtain ⟨c, hc, rfl⟩ := List.mem_map.1 hd
  exact toLower_of_isLetter (hletters c hc)

/-- An empty text has no parts to leave out. -/
theorem normalizeAndSplit_eq (s : Bytes) : normalizeAndSplit s =
    ((s.map fun c => if isAlpha c then toLower c else space).splitOn space).filter fun s => !s.isEmpty := by
  unfold normalizeAndSplit fullSplit
  split
  · rename_i h
    rw [h]
    rfl
  · rfl

/-- Anything but a letter separates the words before it from those behind it. -/
theorem normalizeAndSplit_append_cons {c : UInt8} (hc : ¬ IsLetter c) (s t : Bytes) :
    normalizeAndSplit (s ++ c :: t) = normalizeAndSplit s ++ normalizeAndSplit t := by
  have halpha : isAlpha c = false := by
    rw [← Bool.not_eq_true, isAlpha_iff]
    exact hc
  rw [normalizeAndSplit_eq, normalizeAndSplit_eq, normalizeAndSplit_eq, List.map_append, List.map_cons, halpha]
  rw [if_neg Bool.false_ne_true, List.splitOn_append_cons_self, List.filter_append]

theorem normalizeAndSplit_word {word : Bytes} (hne : word ≠ []) (hletters : ∀ c ∈ word, IsLetter c) :
    normalizeAndSplit word = [word.map toLower] := by
  have hmap : (word.map fun c => if isAlpha c then toLower c else space) = word.map toLower :=
    List.map_congr_left fun c hc => if_pos ((isAlpha_iff c).2 (hletters c hc))
  have hspace : space ∉ word.map toLower := fun hmem =>
    absurd ((isWord_map_toLower hne hletters).2 space hmem).1 (by decide)
  rw [normalizeAndSplit_eq, hmap, List.splitOn_eq_singleton hspace]
  obtain ⟨c, cs, rfl⟩ := List.exists_cons_of_ne_nil hne
  rfl

/-- The words of a text are those it spells. -/
theorem Spells.normalizeAndSplit_eq {w : List Bytes} {s : Bytes} (h : Spells w s) : normalizeAndSplit s = w := by
  induction h with
  | empty => rfl
  | word hne hletters => exact normalizeAndSplit_word hne hletters
  | separated _ hc _ ihs iht => rw [normalizeAndSplit_append_cons hc, ihs, iht]

/-- A letter in front of a text begins a word, or goes on with its first one. -/
theorem Spells.exists_cons {c : UInt8} (hc : IsLetter c) {w : List Bytes} {s : Bytes} (h : Spells w s) :
    ∃ w', Spells w' (c :: s) := by
  induction h with
  | empty => exact ⟨_, .word (List.cons_ne_nil c []) (by simpa using hc)⟩
  | @word word hne hletters =>
    exact ⟨_, .word (List.cons_ne_nil c word) (List.forall_mem_cons.2 ⟨hc, hletters⟩)⟩
  | separated _ hd ht ihs _ =>
    obtain ⟨w', hw'⟩ := ihs
    exact ⟨_, hw'.separated hd ht⟩

theorem exists_spells (s : Bytes) : ∃ w, Spells w s := by
  induction s with
  | nil => exact ⟨[], .empty⟩
  | cons c s ih =>
    obtain ⟨w, hw⟩ := ih
    by_cases hc : IsLetter c
    · exact hw.exists_cons hc
    · exact ⟨_, Spells.empty.separated hc hw⟩

/-- Splitting gives exactly the words that the text spells. -/
theorem normalizeAndSplit_eq_iff {w : List Bytes} {s : Bytes} : normalizeAndSplit s = w ↔ Spells w s := by
  constructor
  · rintro rfl
    obtain ⟨w, hw⟩ := exists_spells s
    rwa [hw.normalizeAndSplit_eq]
  · exact Spells.normalizeAndSplit_eq

/-- Texts that each spell one word spell them all when they are joined. -/
theorem spells_join {w ss : List Bytes} (h : List.Forall₂ (fun word s => Spells [word] s) w ss) :
    Spells w (join ss) := by
  induction h with
  | nil => exact .empty
  | @cons word s w ss hs hss ih =>
    cases hss with
    | nil =>
      rw [join, List.intercalate_singleton]
      exact hs
    | cons hs' hss' =>
      rw [join, List.intercalate_cons_cons, List.append_assoc]
      exact hs.separated not_isLetter_space ih

theorem normalizeAndSplit_join {w : List Bytes} (h : ∀ word ∈ w, IsWord word) : normalizeAndSplit (join w) = w := by
  refine (spells_join (List.forall₂_same.2 fun word hword => ?_)).normalizeAndSplit_eq
  have hspells := Spells.word (h word hword).1 (h word hword).letters
  rwa [(h word hword).map_toLower] at hspells

/-- The words of a text are in their normal form. -/
theorem Spells.isWord {w : List Bytes} {s : Bytes} (h : Spells w s) : ∀ word ∈ w, IsWord word := by
  induction h with
  | empty => simp
  | word hne hletters =>
    rintro word hword
    rw [List.mem_singleton.1 hword]
    exact isWord_map_toLower hne hletters
  | separated _ _ _ ihs iht =>
    rintro word hword
    rcases List.mem_append.1 hword with hword | hword
    · exact ihs word hword
    · exact iht word hword

/-! ## What is created -/

/-- A phrase is made of every text, of the words that it spells. -/
theorem create_eq_ok_iff {s password : Bytes} {m : Mnemonic} :
    create s password = .ok m ↔ Spells m.words s ∧ m.password = password := by
  have hnormalized : normalizeAndSplit (join (normalizeAndSplit s)) = normalizeAndSplit s :=
    normalizeAndSplit_join (normalizeAndSplit_eq_iff.1 rfl).isWord
  rw [create, createFromNormalized, dif_pos hnormalized, ← normalizeAndSplit_eq_iff]
  obtain ⟨words, password', h⟩ := m
  simp only [Except.ok.injEq, mk.injEq]
  rw [eq_comm (a := password)]

/-- Texts that spell the same words make the same phrase. -/
theorem create_congr {w : List Bytes} {s t : Bytes} (hs : Spells w s) (ht : Spells w t) (password : Bytes) :
    create s password = create t password := by
  rw [create, create, hs.normalizeAndSplit_eq, ht.normalizeAndSplit_eq]

/-- The words of a phrase make it again. -/
theorem createOfList_getWords (m : Mnemonic) : createOfList m.getWords m.password = .ok m :=
  create_eq_ok_iff.2 ⟨normalizeAndSplit_eq_iff.1 m.normalized, rfl⟩

section

variable [KeyCrypto]

omit [KeyCrypto] in
/-- A phrase made of a list of words has the password. -/
theorem password_of_moveAsOk {words : List Bytes} {password : Bytes} {m : Mnemonic}
    (h : moveAsOk (createOfList words password) = .ok m) : m.password = password := by
  unfold moveAsOk at h
  split at h
  · cases h
  · exact (create_eq_ok_iff.1 h).2

theorem of_attempt {words : List Bytes} {password : Bytes} {m : Mnemonic}
    (h : attempt words password = .ok (some m)) : m.password = password ∧ m.isBasicSeed = true := by
  unfold attempt at h
  split at h
  · obtain ⟨withoutPassword, -, h⟩ := bind_ok h
    split at h
    · cases h
    · obtain ⟨mnemonic, hmnemonic, h⟩ := bind_ok h
      split at h
      · cases h
      · split at h
        · cases h
        · rename_i hbasic _
          cases h
          exact ⟨password_of_moveAsOk hmnemonic, by simpa using hbasic⟩
  · obtain ⟨mnemonic, hmnemonic, h⟩ := bind_ok h
    split at h
    · cases h
    · rename_i hbasic
      cases h
      exact ⟨password_of_moveAsOk hmnemonic, by simpa using hbasic⟩

theorem of_createLoop {draw : Nat → List Bytes} {password : Bytes} {iteration left : Nat} {m : Mnemonic}
    (h : createLoop draw password iteration left = .ok m) : m.password = password ∧ m.isBasicSeed = true := by
  induction left generalizing iteration with
  | zero => cases h
  | succ left ih =>
    obtain ⟨drawn, hattempt, h⟩ := bind_ok h
    cases drawn with
    | some mnemonic =>
      cases h
      exact of_attempt hattempt
    | none => exact ih h

/-- The loop ends with the first phrase that is found. -/
theorem createLoop_of_attempt {draw : Nat → List Bytes} {password : Bytes} {iteration : Nat} {m : Mnemonic}
    (h : attempt (draw iteration) password = .ok (some m)) {left : Nat} (hleft : left ≠ 0) :
    createLoop draw password iteration left = .ok m := by
  obtain ⟨n, rfl⟩ := Nat.exists_eq_succ_of_ne_zero hleft
  rw [createLoop, h]
  rfl

/-- A new phrase has the password, and the seed that an import asks for. -/
theorem of_createNew {bip39English : Bytes} {random : Nat → Nat → UInt8} {options : Options} {m : Mnemonic}
    (h : createNew bip39English random options = .ok m) : m.password = options.password ∧ m.isBasicSeed = true := by
  obtain ⟨_, -, h⟩ := bind_ok h
  obtain ⟨_, -, h⟩ := bind_ok h
  exact of_createLoop h

end

end Mnemonic

end TonWallet.Tonlib
