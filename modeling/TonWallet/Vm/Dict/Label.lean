/-
Labels of dictionary edges (`HmLabel`, `vm/dict.cpp`): a bit string is stored in one of three ways, the
shortest one, and `LabelParser` reads it back together with what follows it in the cell.
-/
import TonWallet.Vm.CellBuilder
import TonWallet.Lib.PrefixTree

namespace TonWallet.Vm

open Lib TonWallet.Td

namespace Dict

/-! ## Storing labels -/

/-- `32 - count_leading_zeroes32(max_len)`: the bits of a length up to `maxLen`. -/
def lenBits (maxLen : Nat) : Nat := if maxLen = 0 then 0 else Nat.log2 maxLen + 1

/-- `append_dict_label_same`: a label of equal bits. -/
def appendDictLabelSame (same : Bool) (len maxLen : Nat) (cb : CellBuilder) : Result CellBuilder :=
  let k := lenBits maxLen
  if 1 < len ∧ k < 2 * len - 1 then do
    let cb ← cb.storeBits [true, true, same]
    cb.storeBits (natToBits k len)
  else if k < len then do
    let cb ← cb.storeBits [true, false]
    let cb ← cb.storeBits (natToBits k len)
    cb.storeBits (List.replicate len same)
  else do
    let cb ← cb.storeBits [false]
    let cb ← cb.storeBits (List.replicate len true ++ [false])
    cb.storeBits (List.replicate len same)

/-- `append_dict_label`. -/
def appendDictLabel (label : List Bool) (maxLen : Nat) (cb : CellBuilder) : Result CellBuilder :=
  let len := label.length
  if 0 < len ∧ label = List.replicate len (label.headD false) then
    appendDictLabelSame (label.headD false) len maxLen cb
  else do
    let k := lenBits maxLen
    let cb ← (if k < len then cb.storeBits [true, false] >>= CellBuilder.storeBits (natToBits k len)
      else cb.storeBits [false] >>= CellBuilder.storeBits (List.replicate len true ++ [false]))
    if cb.remainingBits < len then .error (.vmError "cannot store a label into a dictionary cell")
    cb.storeBits label

/-- The bits a label is stored as. -/
def labelBits (label : List Bool) (maxLen : Nat) : List Bool :=
  let len := label.length
  let k := lenBits maxLen
  let same := label.headD false
  if label = List.replicate len same ∧ 1 < len ∧ k < 2 * len - 1 then [true, true, same] ++ natToBits k len
  else if k < len then [true, false] ++ (natToBits k len ++ label)
  else [false] ++ ((List.replicate len true ++ [false]) ++ label)

/-! ## Parsing labels -/

/-- What must stand behind the label of a node that is no leaf: two references, and with `chkAll` nothing else. -/
inductive LabelMode
  | chkSize
  | chkAll
  deriving DecidableEq, Repr

/-- `LabelParser`: a label of equal bits (`l_same`) is not part of the remainder, any other one is. -/
structure LabelParser where
  remainder : Slice
  lSame : Option Bool
  lBits : Nat

namespace LabelParser

/-- `parse_label`. -/
def parse (cs : Slice) (maxLabelLen : Nat) : Option LabelParser :=
  let k := lenBits maxLabelLen
  match cs.bits with
  | false :: false :: bits => some ⟨⟨bits, cs.refs⟩, none, 0⟩
  | false :: true :: bits =>
    let lBits := (true :: bits).takeWhile id |>.length
    if maxLabelLen < lBits ∨ (true :: bits).length < 2 * lBits + 1 then none
    else some ⟨⟨(true :: bits).drop (lBits + 1), cs.refs⟩, none, lBits⟩
  | true :: false :: bits =>
    if bits.length < k then none
    else
      let lBits := bitsToNat (bits.take k)
      if maxLabelLen < lBits ∨ (bits.drop k).length < lBits then none
      else some ⟨⟨bits.drop k, cs.refs⟩, none, lBits⟩
  | true :: true :: same :: bits =>
    if bits.length < k then none
    else
      let lBits := bitsToNat (bits.take k)
      if maxLabelLen < lBits then none else some ⟨⟨bits.drop k, cs.refs⟩, some same, lBits⟩
  | _ => none

/-- The bits of the label that are part of the remainder. -/
def sBits (p : LabelParser) : Nat := if p.lSame.isSome then 0 else p.lBits

/-- `validate_ext` and `validate_simple`. -/
def validate (p : LabelParser) (n : Nat) (mode : LabelMode) : Result Unit :=
  let bad : Bool := match mode with
    | .chkSize => p.remainder.bits.length < p.sBits || p.remainder.refs.length < 2
    | .chkAll => p.remainder.bits.length != p.sBits || p.remainder.refs.length != 2
  if n < p.lBits then .error (.vmError "invalid dictionary node")
  else if p.lBits < n ∧ bad then .error (.vmError "invalid dictionary fork node")
  else .ok ()

variable [Digest]

/-- The constructor: the cell is loaded and its label parsed and validated. -/
def ofCell (cell : Option Cell) (maxLabelLen : Nat) (mode : LabelMode) : Result LabelParser :=
  match cell with
  | none => .error (.check "deferencing null Ref")
  | some cell => do
    let cs ← loadCellSlice ⟨cell, .none⟩
    match parse ⟨cs.bits, cs.refs⟩ maxLabelLen with
    | none => .error (.vmError "error while parsing a dictionary node label")
    | some p => do
      p.validate maxLabelLen mode
      return p

/-- The label's bits. -/
def bits (p : LabelParser) : List Bool := match p.lSame with
  | some same => List.replicate p.lBits same
  | none => p.remainder.bits.take p.lBits

/-- `common_prefix_len`. -/
def commonPrefixLen (p : LabelParser) (key : List Bool) : Nat := Lib.commonPrefixLen p.bits key

/-- `is_prefix_of`. -/
def isPrefixOf (p : LabelParser) (key : List Bool) : Bool := p.bits.isPrefixOf key

/-- `skip_label` and `extract_label_to`: what is behind the label. -/
def payload (p : LabelParser) : Slice := ⟨p.remainder.bits.drop p.sBits, p.remainder.refs⟩

end LabelParser

/-! ## What is stored -/

theorem lt_two_pow_lenBits {len maxLen : Nat} (h : len ≤ maxLen) : len < 2 ^ lenBits maxLen := by
  unfold lenBits
  split
  · omega
  · exact Nat.lt_of_le_of_lt h Nat.lt_log2_self

/-- A builder of some bits, if a cell can hold them. -/
def built (bits : List Bool) : Option CellBuilder := if bits.length ≤ maxBits then some ⟨bits, []⟩ else none

theorem toOption_storeBits (bits : List Bool) : (CellBuilder.storeBits bits {}).toOption = built bits := by
  unfold CellBuilder.storeBits built CellBuilder.canExtendBy
  by_cases h : bits.length ≤ maxBits <;> simp [h, Except.toOption]

theorem built_bind (a b : List Bool) : ((built a).bind fun cb => (cb.storeBits b).toOption) = built (a ++ b) := by
  unfold built
  by_cases ha : a.length ≤ maxBits
  · rw [if_pos ha, Option.bind_some]
    unfold CellBuilder.storeBits CellBuilder.canExtendBy
    by_cases hb : a.length + b.length ≤ maxBits
    · have hb' : b.length ≤ maxBits - a.length := by omega
      simp [hb, hb', Except.toOption]
    · have hb' : ¬ b.length ≤ maxBits - a.length := by omega
      simp [hb, hb', Except.toOption]
  · rw [if_neg ha, if_neg (by rw [List.length_append]; omega)]
    rfl

/-- Storing bits after other bits. -/
theorem toOption_storeBits₂ (a b : List Bool) :
    (CellBuilder.storeBits a {} >>= CellBuilder.storeBits b).toOption = built (a ++ b) := by
  rw [toOption_bind, toOption_storeBits]
  exact built_bind a b

theorem toOption_storeBits₃ (a b c : List Bool) :
    (CellBuilder.storeBits a {} >>= fun cb => cb.storeBits b >>= CellBuilder.storeBits c).toOption =
      built (a ++ (b ++ c)) := by
  rw [toOption_bind, toOption_storeBits, ← List.append_assoc, ← built_bind, ← built_bind, Option.bind_assoc]
  congr 1
  funext cb
  exact toOption_bind _ _

theorem toOption_appendDictLabelSame (same : Bool) (len maxLen : Nat) :
    (appendDictLabelSame same len maxLen {}).toOption = built (labelBits (List.replicate len same) maxLen) := by
  have hhead : 0 < len → (List.replicate len same).headD false = same := by
    intro h
    cases len with
    | zero => cases h
    | succ len => rfl
  unfold appendDictLabelSame labelBits
  dsimp only
  rw [List.length_replicate]
  by_cases h : 1 < len ∧ lenBits maxLen < 2 * len - 1
  · rw [hhead (by omega), if_pos h, if_pos ⟨rfl, h⟩]
    exact toOption_storeBits₂ _ _
  · have hno : ¬ (List.replicate len same = List.replicate len ((List.replicate len same).headD false) ∧
        1 < len ∧ lenBits maxLen < 2 * len - 1) := fun hs => h hs.2
    rw [if_neg h, if_neg hno]
    by_cases hk : lenBits maxLen < len
    · rw [if_pos hk, if_pos hk]
      exact toOption_storeBits₃ _ _ _
    · rw [if_neg hk, if_neg hk]
      exact toOption_storeBits₃ _ _ _

theorem toOption_appendDictLabel (label : List Bool) (maxLen : Nat) :
    (appendDictLabel label maxLen {}).toOption = built (labelBits label maxLen) := by
  unfold appendDictLabel
  dsimp only
  by_cases hsame : 0 < label.length ∧ label = List.replicate label.length (label.headD false)
  · rw [if_pos hsame, toOption_appendDictLabelSame, ← hsame.2]
  · rw [if_neg hsame]
    unfold labelBits
    have hno : ¬ (label = List.replicate label.length (label.headD false) ∧ 1 < label.length ∧
        lenBits maxLen < 2 * label.length - 1) := fun h => hsame ⟨by omega, h.1⟩
    dsimp only
    rw [if_neg hno]
    -- a label that does not fit is thrown out by name, or by the builder
    have hcheck : ∀ front : List Bool, ((built front).bind fun cb => Except.toOption (do
        if cb.remainingBits < label.length then
          (.error (.vmError "cannot store a label into a dictionary cell") : Result PUnit)
        cb.storeBits label)) = built (front ++ label) := by
      intro front
      rw [← built_bind]
      unfold built
      by_cases hf : front.length ≤ maxBits
      · rw [if_pos hf, Option.bind_some, Option.bind_some]
        unfold CellBuilder.remainingBits CellBuilder.storeBits CellBuilder.canExtendBy
        by_cases hl : maxBits - front.length < label.length
        · have hl' : ¬ label.length ≤ maxBits - front.length := by omega
          simp [hl, hl', Except.toOption, bind, Except.bind]
        · simp [hl]
      · rw [if_neg hf]
        rfl
    by_cases hk : lenBits maxLen < label.length
    · rw [if_pos hk, if_pos hk, toOption_bind, toOption_storeBits₂, hcheck, List.append_assoc]
    · rw [if_neg hk, if_neg hk, toOption_bind, toOption_storeBits₂, hcheck, List.append_assoc]

/-! ## What is read back -/

/-- A parser that has read a label, with what is behind it. -/
inductive LabelParser.Reads (label : List Bool) (payload : Slice) : LabelParser → Prop
  | same (b : Bool) (h : label = List.replicate label.length b) : Reads label payload ⟨payload, some b, label.length⟩
  | any : Reads label payload ⟨⟨label ++ payload.bits, payload.refs⟩, none, label.length⟩

/-- What may stand behind the label of a fork. -/
def LabelMode.Accepts (mode : LabelMode) (payload : Slice) : Prop := match mode with
  | .chkSize => 2 ≤ payload.refs.length
  | .chkAll => payload.bits = [] ∧ payload.refs.length = 2

namespace LabelParser

section Reads

variable {label : List Bool} {rest : Slice} {p : LabelParser}

theorem Reads.lBits_eq (h : Reads label rest p) : p.lBits = label.length := by
  cases h <;> rfl

theorem Reads.bits_eq (h : Reads label rest p) : p.bits = label := by
  cases h with
  | same b h => exact h.symm
  | any => simp [LabelParser.bits]

theorem Reads.payload_eq (h : Reads label rest p) : p.payload = rest := by
  cases h with
  | same b h => rfl
  | any => simp [LabelParser.payload, LabelParser.sBits]

theorem Reads.refs_eq (h : Reads label rest p) : p.remainder.refs = rest.refs := by
  cases h <;> rfl

/-- A key that starts with the label. -/
theorem Reads.descend (h : Reads label rest p) (key : List Bool) :
    p.commonPrefixLen (label ++ key) = p.lBits ∧ (label ++ key).drop p.lBits = key ∧
      (label ++ key).take p.lBits = label := by
  rw [LabelParser.commonPrefixLen, h.bits_eq, h.lBits_eq]
  exact ⟨commonPrefixLen_self_append label key, List.drop_left, List.take_left⟩

theorem Reads.isPrefixOf_append (h : Reads label rest p) (key : List Bool) : p.isPrefixOf (label ++ key) = true := by
  rw [LabelParser.isPrefixOf, h.bits_eq, List.isPrefixOf_iff_prefix]
  exact List.prefix_append label key

/-- A key that parts from the label. -/
theorem Reads.part {q r s : List Bool} {b : Bool} (h : Reads (q ++ b :: r) rest p) :
    p.commonPrefixLen (q ++ (!b) :: s) = q.length ∧ q.length < p.lBits := by
  rw [LabelParser.commonPrefixLen, h.bits_eq, h.lBits_eq]
  refine ⟨commonPrefixLen_diverge q r s b, ?_⟩
  rw [List.length_append, List.length_cons]
  omega

/-- A length in unary is the ones up to the first zero. -/
theorem parse_unary {len maxLen : Nat} {bits : List Bool} (refs : List Cell) (hlen : len < maxLen)
    (hbits : len < bits.length) :
    parse ⟨false :: (List.replicate (len + 1) true ++ false :: bits), refs⟩ maxLen =
      some ⟨⟨bits, refs⟩, none, len + 1⟩ := by
  have hones : (List.replicate (len + 1) true ++ false :: bits).takeWhile id = List.replicate (len + 1) true := by
    rw [List.takeWhile_append_of_pos (by simp)]
    simp
  have hdrop : (List.replicate (len + 1) true ++ false :: bits).drop (len + 1 + 1) = bits := by
    rw [← List.drop_drop]
    simp
  have hfit : ¬ (maxLen < len + 1 ∨ (List.replicate (len + 1) true ++ false :: bits).length < 2 * (len + 1) + 1) := by
    rw [List.length_append, List.length_replicate, List.length_cons]
    omega
  have hcons : List.replicate (len + 1) true ++ false :: bits = true :: (List.replicate len true ++ false :: bits) := rfl
  rw [hcons] at hones hdrop hfit ⊢
  unfold parse
  dsimp only
  rw [hones, List.length_replicate, hdrop, if_neg hfit]

/-- A stored label is parsed. -/
theorem parse_labelBits {maxLen : Nat} (hlen : label.length ≤ maxLen) :
    ∃ p, parse ⟨labelBits label maxLen ++ rest.bits, rest.refs⟩ maxLen = some p ∧ Reads label rest p := by
  have hlt := lt_two_pow_lenBits hlen
  have hcode : bitsToNat (natToBits (lenBits maxLen) label.length) = label.length := by
    rw [bitsToNat_natToBits, Nat.mod_eq_of_lt hlt]
  unfold labelBits
  dsimp only
  split
  · next h =>
    refine ⟨_, ?_, .same (label.headD false) h.1⟩
    simp [parse, hcode, hlen]
  · split
    · refine ⟨_, ?_, .any⟩
      simp [parse, hcode, hlen]
    · refine ⟨_, ?_, .any⟩
      cases hl : label.length with
      | zero =>
        rw [List.eq_nil_of_length_eq_zero hl]
        simp [parse]
      | succ len =>
        have hfit : len < (label ++ rest.bits).length := by
          rw [List.length_append]
          omega
        have := parse_unary rest.refs (show len < maxLen by omega) hfit
        simpa using this

theorem Reads.validate_eq (h : Reads label rest p) {n : Nat} {mode : LabelMode} (hlen : label.length ≤ n)
    (hfork : label.length < n → mode.Accepts rest) : p.validate n mode = .ok () := by
  unfold LabelParser.validate
  rw [h.lBits_eq, if_neg (by omega)]
  by_cases hn : label.length < n
  · have hok := hfork hn
    have hbits : p.remainder.bits.length = p.sBits + rest.bits.length := by
      cases h with
      | same b h => simp [LabelParser.sBits]
      | any => simp [LabelParser.sBits]
    cases mode with
    | chkSize =>
      simp only [LabelMode.Accepts] at hok
      have hbits' : ¬ p.remainder.bits.length < p.sBits := by omega
      have hrefs : ¬ p.remainder.refs.length < 2 := by
        rw [h.refs_eq]
        omega
      simp only [hbits', hrefs, decide_false, Bool.or_false, Bool.false_eq_true, and_false, if_false]
    | chkAll =>
      obtain ⟨hnil, htwo⟩ := hok
      simp [h.refs_eq, hbits, hnil, htwo]
  · rw [if_neg fun h => hn h.1]

variable [Digest]

/-- The node a cell was made of is read back. -/
theorem ofCell_cellOf {n : Nat} {mode : LabelMode} {c : Cell} (hlen : label.length ≤ n)
    (hfork : label.length < n → mode.Accepts rest)
    (hc : CellBuilder.cellOf (⟨labelBits label n ++ rest.bits, rest.refs⟩ : Slice) = some c) :
    ∃ p, ofCell (some c) n mode = .ok p ∧ Reads label rest p := by
  obtain ⟨rfl, -⟩ := CellBuilder.cellOf_eq_some hc
  obtain ⟨p, hp, hreads⟩ : ∃ p, parse ⟨labelBits label n ++ rest.bits, rest.refs⟩ n = some p ∧ Reads label rest p :=
    parse_labelBits hlen
  refine ⟨p, ?_, hreads⟩
  have hload : loadCellSlice ⟨.mk false (labelBits label n ++ rest.bits) rest.refs, .none⟩ =
      .ok ⟨.none, .mk false (labelBits label n ++ rest.bits) rest.refs, labelBits label n ++ rest.bits, rest.refs⟩ := by
    simp [loadCellSlice, Cell.special, Cell.specialType, CellSlice.ofCell, Cell.data, Cell.refs]
  unfold ofCell
  dsimp only
  rw [hload]
  simp only [bind, Except.bind, hp, hreads.validate_eq hlen hfork, pure, Except.pure]

end Reads

end LabelParser

end Dict

end TonWallet.Vm
