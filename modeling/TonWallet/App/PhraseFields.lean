/-
The fields for the words of a recovery phrase (`WalletCreateActivity.NumericEditText`). Each edit of a field runs its
watcher, which folds the text to small letters or takes a paste apart into the fields. A paste leaves the flag of its
field set, and then no edit of this field is looked at any more.
-/
import TonWallet.App.ByteLengthFilter
import Mathlib.Data.List.DropRight

namespace TonWallet.App

open Lib

/-! ## A field -/

/-- The types of the screen that have fields: `TYPE_IMPORT` and `TYPE_WORDS_CHECK`. -/
inductive PhraseScreen
  | import
  | wordsCheck
  deriving DecidableEq, Repr

structure NumericEditText where
  text : JavaString := []
  ignoreTextChange : Bool := false
  isPaste : Bool := false

/-- The letters that a word may have. -/
def isWordLetter (ch : UInt16) : Bool := 0x61 ≤ ch ∧ ch ≤ 0x7A

namespace NumericEditText

def beforeTextChanged (f : NumericEditText) (type : PhraseScreen) (count after : Nat) : NumericEditText :=
  if type = .import then { f with isPaste := after > count && after > 40 } else f

/-- A change of the text, but for what `afterTextChanged` does. -/
def replace (f : NumericEditText) (type : PhraseScreen) (start count : Nat) (text : JavaString) : NumericEditText :=
  { f.beforeTextChanged type count text.length with text := f.text.take start ++ text ++ f.text.drop (start + count) }

def setText (f : NumericEditText) (type : PhraseScreen) (text : JavaString) : NumericEditText :=
  f.replace type 0 f.text.length text

theorem text_replace (f : NumericEditText) (type : PhraseScreen) (start count : Nat) (text : JavaString) :
    (f.replace type start count text).text = f.text.take start ++ text ++ f.text.drop (start + count) := rfl

/-- The loop that takes out what is no letter, from the character at `a` on. -/
def strip (f : NumericEditText) (type : PhraseScreen) (a : Nat) : NumericEditText :=
  if h : a < f.text.length then
    if isWordLetter f.text[a] then f.strip type (a + 1) else (f.replace type a 1 []).strip type a
  else f
termination_by f.text.length - a
decreasing_by
  · omega
  · rw [text_replace, List.append_nil, List.length_append, List.length_take, List.length_drop]
    omega

end NumericEditText

/-- `trim`. -/
def trim (s : JavaString) : JavaString := (s.dropWhile (· ≤ 0x20)).rdropWhile (· ≤ 0x20)

/-- `split("\n")`: the empty parts at the end are dropped, but for a text without a line break. -/
def splitLines (s : JavaString) : List JavaString :=
  if 0x0A ∈ s then (s.splitOn 0x0A).rdropWhile (·.isEmpty) else [s]

/-! ## The screen -/

structure WalletCreateActivity where
  currentType : PhraseScreen
  globalIgnoreTextChange : Bool := false
  /-- The fields by their numbers; there are 24 of them, or three. -/
  editTexts : Nat → NumericEditText := fun _ => {}

/-- An edit of a field: a range of its text is replaced. -/
structure FieldEdit where
  field : Nat
  start : Nat
  count : Nat
  text : JavaString
  inRange : field < 24

namespace WalletCreateActivity

def updateField (w : WalletCreateActivity) (i : Nat) (g : NumericEditText → NumericEditText) : WalletCreateActivity :=
  { w with editTexts := fun a => if a = i then g (w.editTexts i) else w.editTexts a }

/-- One word for each field. -/
def distribute (toLowerCase : JavaString → JavaString) (args : List JavaString) (w : WalletCreateActivity) :
    WalletCreateActivity :=
  (List.range 24).foldl (fun w a => w.updateField a fun f => f.setText w.currentType (toLowerCase (args.getD a []))) w

/-- `afterTextChanged`. The texts that it sets run the watchers of their fields as well, which return at once because of
the flags that are set then. -/
def afterTextChanged (toLowerCase : JavaString → JavaString) (w : WalletCreateActivity) (i : Nat) :
    WalletCreateActivity :=
  if (w.editTexts i).ignoreTextChange || w.globalIgnoreTextChange then w
  else
    let w := w.updateField i fun f => { f with ignoreTextChange := true }
    if (w.editTexts i).isPaste then
      let w := { w with globalIgnoreTextChange := true }
      let args := splitLines (w.editTexts i).text
      let w := if args.length = 24 then w.distribute toLowerCase args else w
      { w with globalIgnoreTextChange := false }
    else
      let w := w.updateField i fun f => f.setText w.currentType (trim (toLowerCase f.text))
      let w := w.updateField i fun f => f.strip w.currentType 0
      w.updateField i fun f => { f with ignoreTextChange := false }

/-- An edit by the user. -/
def edit (toLowerCase : JavaString → JavaString) (w : WalletCreateActivity) (e : FieldEdit) : WalletCreateActivity :=
  (w.updateField e.field fun f => f.replace w.currentType e.start e.count e.text).afterTextChanged toLowerCase e.field

/-- The words that `createWallet` passes on. -/
def importWords (w : WalletCreateActivity) : List JavaString := (List.range 24).map fun a => (w.editTexts a).text

/-! ## What the fields are to hold -/

/-- A text of small letters. -/
def Letters (s : JavaString) : Prop := ∀ ch ∈ s, isWordLetter ch = true

/-- The letters of a text that is folded to lower case. -/
def fold (toLowerCase : JavaString → JavaString) (s : JavaString) : JavaString := (toLowerCase s).filter isWordLetter

/-- The text of the field as the user has changed it. -/
def edited (w : WalletCreateActivity) (e : FieldEdit) : JavaString :=
  (w.editTexts e.field).text.take e.start ++ e.text ++ (w.editTexts e.field).text.drop (e.start + e.count)

/-- The edits that are taken for a paste: longer than a word, and longer than what they replace. -/
def Pastes (w : WalletCreateActivity) (e : FieldEdit) : Prop :=
  w.currentType = .import ∧ e.count < e.text.length ∧ 40 < e.text.length

/-- A paste of exactly 24 lines. -/
def PastesPhrase (w : WalletCreateActivity) (e : FieldEdit) : Prop :=
  Pastes w e ∧ (splitLines (w.edited e)).length = 24

/-- What an edit is to do: a phrase goes into the fields, a word to a line, every other text is normalized in its field,
and all fields hold letters only. -/
structure Normalizes (toLowerCase : JavaString → JavaString) (w : WalletCreateActivity) (e : FieldEdit) : Prop where
  phrase : PastesPhrase w e → ∀ a < 24, ((w.edit toLowerCase e).editTexts a).text =
    fold toLowerCase ((splitLines (w.edited e)).getD a [])
  typed : ¬ PastesPhrase w e → ((w.edit toLowerCase e).editTexts e.field).text = fold toLowerCase (w.edited e)
  others : ¬ PastesPhrase w e → ∀ a, a ≠ e.field → ((w.edit toLowerCase e).editTexts a).text = (w.editTexts a).text
  letters : ∀ a, Letters ((w.edit toLowerCase e).editTexts a).text

/-- The edits that are harmless: the field is not ignored and the text is no paste; or it is a phrase of which every line
is folded to letters; or the text, which is left as it is, is a folded one. -/
inductive Harmless (toLowerCase : JavaString → JavaString) (w : WalletCreateActivity) (e : FieldEdit) : Prop
  | typed : (w.editTexts e.field).ignoreTextChange = false → ¬ Pastes w e → Harmless toLowerCase w e
  | phrase : (w.editTexts e.field).ignoreTextChange = false → PastesPhrase w e →
    (∀ a < 24, Letters (toLowerCase ((splitLines (w.edited e)).getD a []))) → Harmless toLowerCase w e
  | untouched : (w.editTexts e.field).ignoreTextChange = true ∨ Pastes w e ∧ ¬ PastesPhrase w e →
    fold toLowerCase (w.edited e) = w.edited e → Harmless toLowerCase w e

/-- Every edit of a run has a property, in the state in which it is made. -/
def EveryEdit (toLowerCase : JavaString → JavaString) (P : WalletCreateActivity → FieldEdit → Prop) :
    WalletCreateActivity → List FieldEdit → Prop
  | _, [] => True
  | w, e :: es => P w e ∧ EveryEdit toLowerCase P (w.edit toLowerCase e) es

/-- The screen when it is opened. -/
def opened (type : PhraseScreen) : WalletCreateActivity := { currentType := type }

/-! ## Texts -/

theorem letters_fold (toLowerCase : JavaString → JavaString) (s : JavaString) : Letters (fold toLowerCase s) :=
  fun _ hch => (List.mem_filter.1 hch).2

theorem fold_eq_of_letters {toLowerCase : JavaString → JavaString} {s : JavaString} (h : Letters (toLowerCase s)) :
    fold toLowerCase s = toLowerCase s := List.filter_eq_self.2 h

/-- What is trimmed are no letters. -/
theorem filter_trim (s : JavaString) : (trim s).filter isWordLetter = s.filter isWordLetter := by
  have hblank (ch : UInt16) (h : ch ≤ 0x20) : isWordLetter ch = false := by
    rw [isWordLetter, decide_eq_false_iff_not, UInt16.le_iff_toNat_le, UInt16.le_iff_toNat_le]
    rw [UInt16.le_iff_toNat_le] at h
    simp only [UInt16.reduceToNat] at h ⊢
    omega
  have hdrop (s : JavaString) : (s.dropWhile (· ≤ 0x20)).filter isWordLetter = s.filter isWordLetter := by
    induction s with
    | nil => rfl
    | cons ch s ih =>
      by_cases h : ch ≤ 0x20
      · rw [List.dropWhile_cons_of_pos (by simpa using h), ih, List.filter_cons_of_neg (by rw [hblank ch h]; decide)]
      · rw [List.dropWhile_cons_of_neg (by simpa using h)]
  unfold trim List.rdropWhile
  rw [List.filter_reverse, hdrop, List.filter_reverse, List.reverse_reverse, hdrop]

/-- The loop leaves the letters. -/
theorem text_strip (f : NumericEditText) (type : PhraseScreen) (a : Nat) :
    (f.strip type a).text = f.text.take a ++ (f.text.drop a).filter isWordLetter := by
  induction f, a using NumericEditText.strip.induct type with
  | case1 f a h hletter ih =>
    rw [NumericEditText.strip, dif_pos h, if_pos hletter, ih, List.drop_eq_getElem_cons h,
      List.filter_cons_of_pos hletter, ← List.take_append_getElem h, List.append_assoc]
    rfl
  | case2 f a h hletter ih =>
    have htake : (f.text.take a).length = a := by
      rw [List.length_take]
      omega
    rw [NumericEditText.strip, dif_pos h, if_neg hletter, ih, NumericEditText.text_replace, List.append_nil,
      List.take_append_of_le_length htake.ge, List.take_of_length_le htake.le, List.drop_append_of_le_length htake.ge,
      List.drop_of_length_le htake.le, List.nil_append, List.drop_eq_getElem_cons h, List.filter_cons_of_neg hletter]
  | case3 f a h =>
    rw [NumericEditText.strip, dif_neg h, List.take_of_length_le (by omega), List.drop_of_length_le (by omega),
      List.filter_nil, List.append_nil]

/-! ## Flags -/

/-- What a change of a text leaves of the flags of its field. -/
structure KeepsFlags (type : PhraseScreen) (f g : NumericEditText) : Prop where
  ignore : g.ignoreTextChange = f.ignoreTextChange
  paste : type ≠ .import → g.isPaste = f.isPaste

theorem KeepsFlags.trans {type : PhraseScreen} {f g h : NumericEditText} (hfg : KeepsFlags type f g)
    (hgh : KeepsFlags type g h) : KeepsFlags type f h :=
  ⟨hgh.ignore.trans hfg.ignore, fun ht => (hgh.paste ht).trans (hfg.paste ht)⟩

theorem keepsFlags_replace (f : NumericEditText) (type : PhraseScreen) (start count : Nat) (text : JavaString) :
    KeepsFlags type f (f.replace type start count text) := by
  unfold NumericEditText.replace NumericEditText.beforeTextChanged
  constructor
  · split <;> rfl
  · intro ht
    rw [if_neg ht]

theorem keepsFlags_strip (f : NumericEditText) (type : PhraseScreen) (a : Nat) : KeepsFlags type f (f.strip type a) := by
  induction f, a using NumericEditText.strip.induct type with
  | case1 f a h hletter ih =>
    rw [NumericEditText.strip, dif_pos h, if_pos hletter]
    exact ih
  | case2 f a h hletter ih =>
    rw [NumericEditText.strip, dif_pos h, if_neg hletter]
    exact (keepsFlags_replace f type a 1 []).trans ih
  | case3 f a h =>
    rw [NumericEditText.strip, dif_neg h]
    exact ⟨rfl, fun _ => rfl⟩

/-! ## Steps -/

variable {toLowerCase : JavaString → JavaString} {w : WalletCreateActivity} {e : FieldEdit}

/-- Between edits the flag of the screen is not set, and only the screen of an import knows of pastes. -/
structure Ready (w : WalletCreateActivity) : Prop where
  screen : w.globalIgnoreTextChange = false
  paste : w.currentType ≠ .import → ∀ a, (w.editTexts a).isPaste = false

theorem ready_opened (type : PhraseScreen) : Ready (opened type) := ⟨rfl, fun _ _ => rfl⟩

/-- A field that is updated. -/
theorem editTexts_updateField (w : WalletCreateActivity) (i a : Nat) (g : NumericEditText → NumericEditText) :
    (w.updateField i g).editTexts a = if a = i then g (w.editTexts i) else w.editTexts a := rfl

theorem Ready.updateField (h : Ready w) {i : Nat} {g : NumericEditText → NumericEditText}
    (hg : w.currentType ≠ .import → (g (w.editTexts i)).isPaste = (w.editTexts i).isPaste) : Ready (w.updateField i g) := by
  refine ⟨h.screen, fun ht a => ?_⟩
  rw [editTexts_updateField]
  split
  · rw [hg ht, h.paste ht]
  · exact h.paste ht a

/-- The words that have been distributed to the first fields. -/
theorem distribute_spec (args : List JavaString) (w : WalletCreateActivity) (n : Nat) :
    let w' := (List.range n).foldl
      (fun w a => w.updateField a fun f => f.setText w.currentType (toLowerCase (args.getD a []))) w
    w'.currentType = w.currentType ∧ w'.globalIgnoreTextChange = w.globalIgnoreTextChange ∧
      (∀ a, KeepsFlags w.currentType (w.editTexts a) (w'.editTexts a)) ∧
      ∀ a, (w'.editTexts a).text = if a < n then toLowerCase (args.getD a []) else (w.editTexts a).text := by
  induction n with
  | zero => exact ⟨rfl, rfl, fun a => ⟨rfl, fun _ => rfl⟩, fun a => rfl⟩
  | succ n ih =>
    dsimp only at ih ⊢
    rw [List.range_succ, List.foldl_append, List.foldl_cons, List.foldl_nil]
    generalize (List.range n).foldl
      (fun w a => w.updateField a fun f => f.setText w.currentType (toLowerCase (args.getD a []))) w = v at ih ⊢
    obtain ⟨htype, hscreen, hflags, htext⟩ := ih
    refine ⟨htype, hscreen, fun a => ?_, fun a => ?_⟩
    · rw [editTexts_updateField]
      split
      · next han =>
        subst han
        exact (hflags a).trans (htype ▸ keepsFlags_replace _ _ _ _ _)
      · exact hflags a
    · rw [editTexts_updateField]
      split
      · next han =>
        subst han
        rw [if_pos (Nat.lt_succ_self a), NumericEditText.setText, NumericEditText.text_replace, List.take_zero,
          List.nil_append, Nat.zero_add, List.drop_length, List.append_nil]
      · next han =>
        rw [htext]
        have hlt : a < n ↔ a < n + 1 := by omega
        simp only [hlt]

/-- The field with what the user has changed, before its watcher looks at it. -/
def changed (w : WalletCreateActivity) (e : FieldEdit) : WalletCreateActivity :=
  w.updateField e.field fun f => f.replace w.currentType e.start e.count e.text

theorem changed_spec (h : Ready w) (e : FieldEdit) : Ready (w.changed e) ∧
    ((w.changed e).editTexts e.field).text = w.edited e ∧
    (∀ a, a ≠ e.field → (w.changed e).editTexts a = w.editTexts a) ∧
    ((w.changed e).editTexts e.field).ignoreTextChange = (w.editTexts e.field).ignoreTextChange ∧
    (((w.changed e).editTexts e.field).isPaste = true ↔ Pastes w e) := by
  have hflags := keepsFlags_replace (w.editTexts e.field) w.currentType e.start e.count e.text
  have hready : Ready (w.changed e) := h.updateField hflags.paste
  have hfield : (w.changed e).editTexts e.field =
      (w.editTexts e.field).replace w.currentType e.start e.count e.text := by
    rw [changed, editTexts_updateField, if_pos rfl]
  refine ⟨hready, ?_, ?_, ?_, ?_⟩
  · rw [hfield]
    rfl
  · intro a ha
    rw [changed, editTexts_updateField, if_neg ha]
  · rw [hfield, hflags.ignore]
  · by_cases ht : w.currentType = .import
    · rw [hfield, NumericEditText.replace, NumericEditText.beforeTextChanged, if_pos ht]
      dsimp only
      rw [Bool.and_eq_true, decide_eq_true_iff, decide_eq_true_iff, Pastes, and_iff_right ht]
    · rw [hready.paste ht e.field, Pastes]
      simp [ht]

/-- A field that is ignored keeps the text as it has been changed. -/
theorem edit_ignored (h : Ready w) (hignore : (w.editTexts e.field).ignoreTextChange = true) :
    w.edit toLowerCase e = w.changed e := by
  obtain ⟨-, -, -, hflag, -⟩ := changed_spec h e
  unfold edit afterTextChanged
  exact if_pos (by rw [Bool.or_eq_true]; exact .inl (hflag.trans hignore))

/-- A text that is no paste is folded. -/
theorem edit_typed (h : Ready w) (hignore : (w.editTexts e.field).ignoreTextChange = false) (hpaste : ¬ Pastes w e) :
    Ready (w.edit toLowerCase e) ∧ ((w.edit toLowerCase e).editTexts e.field).text = fold toLowerCase (w.edited e) ∧
      ((w.edit toLowerCase e).editTexts e.field).ignoreTextChange = false ∧
      ∀ a, a ≠ e.field → (w.edit toLowerCase e).editTexts a = w.editTexts a := by
  obtain ⟨hready, htext, hothers, hflag, hisPaste⟩ := changed_spec h e
  have hrun : ¬ (((w.changed e).editTexts e.field).ignoreTextChange || (w.changed e).globalIgnoreTextChange) = true := by
    rw [hflag, hignore, hready.screen]
    decide
  have hnot : ¬ ((w.changed e).editTexts e.field).isPaste = true := fun hp => hpaste (hisPaste.1 hp)
  let f := (w.changed e).editTexts e.field
  let g := ({ f with ignoreTextChange := true }.setText w.currentType (trim (toLowerCase f.text))).strip w.currentType 0
  have hedit : w.edit toLowerCase e = (w.changed e).updateField e.field fun _ => { g with ignoreTextChange := false } := by
    unfold edit
    show (w.changed e).afterTextChanged toLowerCase e.field = _
    unfold afterTextChanged
    rw [if_neg hrun]
    dsimp only
    rw [editTexts_updateField, if_pos rfl, if_neg hnot]
    unfold updateField
    simp only [if_pos]
    congr 1
    funext a
    split <;> rfl
  have hg : KeepsFlags w.currentType { f with ignoreTextChange := true } g :=
    (keepsFlags_replace _ _ _ _ _).trans (keepsFlags_strip _ _ _)
  rw [hedit]
  refine ⟨hready.updateField fun ht => hg.paste ht, ?_, ?_, ?_⟩
  · rw [editTexts_updateField, if_pos rfl]
    show g.text = _
    rw [text_strip, List.take_zero, List.nil_append, List.drop_zero, NumericEditText.setText, NumericEditText.text_replace,
      List.take_zero, List.nil_append, Nat.zero_add]
    show ((trim (toLowerCase f.text)) ++ f.text.drop f.text.length).filter isWordLetter = _
    rw [List.drop_length, List.append_nil, filter_trim, fold, ← htext]
  · rw [editTexts_updateField, if_pos rfl]
  · intro a ha
    rw [editTexts_updateField, if_neg ha, hothers a ha]

/-- A paste of 24 lines sets the fields, and another one leaves them. -/
theorem edit_pasted (h : Ready w) (hignore : (w.editTexts e.field).ignoreTextChange = false) (hpaste : Pastes w e) :
    Ready (w.edit toLowerCase e) ∧
      (PastesPhrase w e → ∀ a < 24, ((w.edit toLowerCase e).editTexts a).text =
        toLowerCase ((splitLines (w.edited e)).getD a [])) ∧
      (¬ PastesPhrase w e → ((w.edit toLowerCase e).editTexts e.field).text = w.edited e) ∧
      ∀ a, 24 ≤ a ∨ ¬ PastesPhrase w e → a ≠ e.field → ((w.edit toLowerCase e).editTexts a).text = (w.editTexts a).text := by
  obtain ⟨hready, htext, hothers, hflag, hisPaste⟩ := changed_spec h e
  have hrun : ¬ (((w.changed e).editTexts e.field).ignoreTextChange || (w.changed e).globalIgnoreTextChange) = true := by
    rw [hflag, hignore, hready.screen]
    decide
  let v := (w.changed e).updateField e.field fun f => { f with ignoreTextChange := true }
  have hv : ∀ a, (v.editTexts a).text = ((w.changed e).editTexts a).text := by
    intro a
    rw [editTexts_updateField]
    split
    · next ha => rw [ha]
    · rfl
  have hedit : w.edit toLowerCase e =
      { (if (splitLines (w.edited e)).length = 24 then
          ({ v with globalIgnoreTextChange := true }).distribute toLowerCase (splitLines (w.edited e))
        else { v with globalIgnoreTextChange := true }) with globalIgnoreTextChange := false } := by
    unfold edit
    show (w.changed e).afterTextChanged toLowerCase e.field = _
    unfold afterTextChanged
    rw [if_neg hrun]
    dsimp only
    rw [editTexts_updateField, if_pos rfl, if_pos (hisPaste.2 hpaste), htext]
  have hvready : Ready v := hready.updateField fun _ => rfl
  by_cases hphrase : (splitLines (w.edited e)).length = 24
  · rw [hedit, if_pos hphrase]
    obtain ⟨htype, -, hflags, hwords⟩ := @distribute_spec toLowerCase (splitLines (w.edited e))
      { v with globalIgnoreTextChange := true } 24
    refine ⟨⟨rfl, fun ht a => ?_⟩, fun _ a ha => ?_, fun hno => absurd ⟨hpaste, hphrase⟩ hno, fun a ha hne => ?_⟩
    · have ht' : v.currentType ≠ .import := fun hv' => ht (htype.trans hv')
      exact ((hflags a).paste ht').trans (hvready.paste ht' a)
    · exact (hwords a).trans (if_pos ha)
    · have hlarge : ¬ a < 24 := by
        rcases ha with ha | ha
        · omega
        · exact absurd ⟨hpaste, hphrase⟩ ha
      exact (hwords a).trans ((if_neg hlarge).trans ((hv a).trans (by rw [hothers a hne])))
  · rw [hedit, if_neg hphrase]
    refine ⟨⟨rfl, hvready.paste⟩, fun hp => absurd hp.2 hphrase, fun _ => ?_, fun a _ hne => ?_⟩
    · exact (hv e.field).trans htext
    · exact (hv a).trans (by rw [hothers a hne])

/-! ## Runs -/

/-- An edit normalizes the fields if and only if it is harmless. -/
theorem normalizes_iff (hready : Ready w) (hletters : ∀ a, Letters (w.editTexts a).text) :
    Normalizes toLowerCase w e ↔ Harmless toLowerCase w e := by
  by_cases hignore : (w.editTexts e.field).ignoreTextChange = true
  · -- the field keeps what has been typed
    obtain ⟨-, htext, hothers, -, -⟩ := changed_spec hready e
    have hedit := @edit_ignored toLowerCase _ _ hready hignore
    constructor
    · intro h
      refine .untouched (.inl hignore) ?_
      by_cases hphrase : PastesPhrase w e
      · -- the lines of a phrase are no letters
        have hfield := h.phrase hphrase e.field e.inRange
        rw [hedit, htext] at hfield
        have hall : Letters (w.edited e) := by
          rw [hfield]
          exact letters_fold _ _
        have hbreak : (0x0A : UInt16) ∈ w.edited e := by
          by_contra hno
          have hlines := hphrase.2
          rw [splitLines, if_neg hno] at hlines
          cases hlines
        exact absurd (hall _ hbreak) (by decide)
      · have hfield := h.typed hphrase
        rw [hedit, htext] at hfield
        exact hfield.symm
    · intro h
      have hfold : fold toLowerCase (w.edited e) = w.edited e := by
        cases h with
        | typed hno => rw [hno] at hignore; cases hignore
        | phrase hno => rw [hno] at hignore; cases hignore
        | untouched _ hfold => exact hfold
      have hall : Letters (w.edited e) := by
        rw [← hfold]
        exact letters_fold _ _
      have hphrase : ¬ PastesPhrase w e := by
        intro hphrase
        have hlines := hphrase.2
        rw [splitLines, if_neg fun hbreak => absurd (hall _ hbreak) (by decide)] at hlines
        cases hlines
      refine ⟨fun hp => absurd hp hphrase, fun _ => ?_, fun _ a ha => ?_, fun a => ?_⟩
      · rw [hedit, htext, hfold]
      · rw [hedit, hothers a ha]
      · rw [hedit]
        by_cases ha : a = e.field
        · rw [ha, htext]
          exact hall
        · rw [hothers a ha]
          exact hletters a
  · rw [Bool.not_eq_true] at hignore
    by_cases hpaste : Pastes w e
    · obtain ⟨-, hwords, hkept, hothers⟩ := @edit_pasted toLowerCase _ _ hready hignore hpaste
      by_cases hphrase : PastesPhrase w e
      · constructor
        · intro h
          refine .phrase hignore hphrase fun a ha => ?_
          rw [← hwords hphrase a ha]
          exact h.letters a
        · intro h
          have hlines : ∀ a < 24, Letters (toLowerCase ((splitLines (w.edited e)).getD a [])) := by
            cases h with
            | typed _ hno => exact absurd hpaste hno
            | phrase _ _ hlines => exact hlines
            | untouched hno =>
              rcases hno with hno | hno
              · rw [hignore] at hno
                cases hno
              · exact absurd hphrase hno.2
          refine ⟨fun _ a ha => ?_, fun hno => absurd hphrase hno, fun hno => absurd hphrase hno, fun a => ?_⟩
          · rw [hwords hphrase a ha, fold_eq_of_letters (hlines a ha)]
          · by_cases ha : a < 24
            · rw [hwords hphrase a ha]
              exact hlines a ha
            · have hne : a ≠ e.field := by
                rintro rfl
                exact ha e.inRange
              rw [hothers a (.inl (by omega)) hne]
              exact hletters a
      · constructor
        · intro h
          refine .untouched (.inr ⟨hpaste, hphrase⟩) ?_
          rw [← h.typed hphrase, hkept hphrase]
        · intro h
          have hfold : fold toLowerCase (w.edited e) = w.edited e := by
            cases h with
            | typed _ hno => exact absurd hpaste hno
            | phrase _ hno => exact absurd hno hphrase
            | untouched _ hfold => exact hfold
          refine ⟨fun hp => absurd hp hphrase, fun _ => ?_, fun _ a ha => hothers a (.inr hphrase) ha, fun a => ?_⟩
          · rw [hkept hphrase, hfold]
          · by_cases ha : a = e.field
            · rw [ha, hkept hphrase, ← hfold]
              exact letters_fold _ _
            · rw [hothers a (.inr hphrase) ha]
              exact hletters a
    · obtain ⟨-, htext, -, hothers⟩ := @edit_typed toLowerCase _ _ hready hignore hpaste
      refine ⟨fun _ => .typed hignore hpaste, fun _ => ⟨fun hp => absurd hp.1 hpaste, fun _ => htext, fun _ a ha => ?_, ?_⟩⟩
      · rw [hothers a ha]
      · intro a
        by_cases ha : a = e.field
        · rw [ha, htext]
          exact letters_fold _ _
        · rw [hothers a ha]
          exact hletters a

theorem ready_edit (h : Ready w) : Ready (w.edit toLowerCase e) := by
  by_cases hignore : (w.editTexts e.field).ignoreTextChange = true
  · rw [edit_ignored h hignore]
    exact (changed_spec h e).1
  · rw [Bool.not_eq_true] at hignore
    by_cases hpaste : Pastes w e
    · exact (edit_pasted h hignore hpaste).1
    · exact (edit_typed h hignore hpaste).1

theorem everyEdit_normalizes_iff (hready : Ready w) (hletters : ∀ a, Letters (w.editTexts a).text) (edits : List FieldEdit) :
    EveryEdit toLowerCase (Normalizes toLowerCase) w edits ↔ EveryEdit toLowerCase (Harmless toLowerCase) w edits := by
  induction edits generalizing w with
  | nil => exact Iff.rfl
  | cons e es ih =>
    have hstep := @normalizes_iff toLowerCase _ e hready hletters
    constructor
    · rintro ⟨he, hes⟩
      exact ⟨hstep.1 he, (ih (ready_edit hready) he.letters).1 hes⟩
    · rintro ⟨he, hes⟩
      have hnorm := hstep.2 he
      exact ⟨hnorm, (ih (ready_edit hready) hnorm.letters).2 hes⟩

/-- From the time that the screen is opened every edit normalizes the fields if and only if every edit is harmless. -/
theorem opened_normalizes_iff (toLowerCase : JavaString → JavaString) (type : PhraseScreen) (edits : List FieldEdit) :
    EveryEdit toLowerCase (Normalizes toLowerCase) (opened type) edits ↔
      EveryEdit toLowerCase (Harmless toLowerCase) (opened type) edits :=
  everyEdit_normalizes_iff (ready_opened type) (fun _ _ hch => absurd hch List.not_mem_nil) edits

end WalletCreateActivity

namespace Sample

/-- Small letters of ASCII. -/
def asciiLowerCase (s : JavaString) : JavaString := s.map fun ch => if 0x41 ≤ ch ∧ ch ≤ 0x5A then ch + 0x20 else ch

/-- A note of 41 digits is pasted into the first field. -/
def pasteDigits : FieldEdit := ⟨0, 0, 0, List.replicate 41 0x31, by decide⟩

/-- The digits stay in the field. -/
theorem pasteDigits_not_normalizes : ¬ ∀ type edits,
    WalletCreateActivity.EveryEdit asciiLowerCase (WalletCreateActivity.Normalizes asciiLowerCase)
      (WalletCreateActivity.opened type) edits := by
  intro h
  obtain ⟨hnorm, -⟩ := h .import [pasteDigits]
  have hkept : (((WalletCreateActivity.opened .import).edit asciiLowerCase pasteDigits).editTexts 0).text =
      List.replicate 41 0x31 := by
    decide +kernel
  have hletters := hnorm.letters 0
  rw [hkept] at hletters
  exact absurd (hletters 0x31 (List.mem_replicate.2 ⟨by decide, rfl⟩)) (by decide)

end Sample

end TonWallet.App
