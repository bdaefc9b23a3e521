/-
Dictionaries in proofs: a search that starts from any reference, which is the search of the plain cells where nothing
is virtualized, and which finds in a proof what it finds in the whole tree.
-/
import TonWallet.Vm.ProofReading
import TonWallet.Vm.Dict.Lookup

namespace TonWallet.Vm.CellRef

open Lib TonWallet.Td Dict

/-- The constructor of `LabelParser` for any reference, with the slice that the label was parsed from. -/
def parseLabel (cell : Option CellRef) (maxLabelLen : Nat) (mode : LabelMode) : Result (LabelParser × CellSlice) :=
  match cell with
  | none => .error (.check "deferencing null Ref")
  | some cell => do
    let cs ← loadCellSlice cell
    match LabelParser.parse ⟨cs.bits, cs.refs⟩ maxLabelLen with
    | none => .error (.vmError "error while parsing a dictionary node label")
    | some p => do
      p.validate maxLabelLen mode
      return (p, cs)

variable [Digest]

/-- The loop of `lookup` from any reference: what is under a virtualized cell is virtualized. -/
def dictLookup (mode : LabelMode) (cell : Option CellRef) (key : List Bool) : Result (Option CellSlice) := do
  let (label, cs) ← parseLabel cell key.length mode
  if label.isPrefixOf key then
    match _hkey : key.drop label.lBits with
    | [] => return some { cs with bits := label.payload.bits }
    | sw :: rest => dictLookup mode (cs.prefetchRef sw.toNat) rest
  else return none
termination_by key.length
decreasing_by
  have := congrArg List.length _hkey
  rw [List.length_drop, List.length_cons] at this
  omega

section Step

variable {mode : LabelMode} {cell : Option CellRef} {key : List Bool} {label : LabelParser} {cs : CellSlice}
  (hlabel : parseLabel cell key.length mode = .ok (label, cs))

include hlabel

theorem dictLookup_part (hpfx : label.isPrefixOf key = false) : dictLookup mode cell key = .ok none := by
  rw [dictLookup, hlabel]
  exact if_neg (by rw [hpfx]; exact Bool.false_ne_true)

theorem dictLookup_leaf (hpfx : label.isPrefixOf key = true) (hkey : key.drop label.lBits = []) :
    dictLookup mode cell key = .ok (some { cs with bits := label.payload.bits }) := by
  rw [dictLookup, hlabel]
  refine (if_pos hpfx).trans ?_
  split
  · rfl
  · next h => cases hkey.symm.trans h

theorem dictLookup_fork (hpfx : label.isPrefixOf key = true) {sw : Bool} {rest : List Bool}
    (hkey : key.drop label.lBits = sw :: rest) :
    dictLookup mode cell key = dictLookup mode (cs.prefetchRef sw.toNat) rest := by
  rw [dictLookup, hlabel]
  refine (if_pos hpfx).trans ?_
  split
  · next h => cases hkey.symm.trans h
  · next h =>
    cases hkey.symm.trans h
    rfl

end Step

/-! ## Labels -/

omit [Digest] in
/-- A label keeps the references of the slice it is parsed from, and depends on nothing of them. -/
theorem parse_refs (bits : List Bool) (refs : List Cell) (n : Nat) :
    LabelParser.parse ⟨bits, refs⟩ n =
      (LabelParser.parse ⟨bits, []⟩ n).map fun p => { p with remainder := ⟨p.remainder.bits, refs⟩ } := by
  rcases bits with _ | ⟨_ | _, _ | ⟨_ | _, _ | ⟨_, bits⟩⟩⟩ <;> simp only [LabelParser.parse] <;>
    first
    | rfl
    | split_ifs <;> rfl

omit [Digest] in
/-- What is parsed from a slice keeps its references. -/
theorem refs_of_parse {cs : CellSlice} {n : Nat} {p : LabelParser} (h : LabelParser.parse ⟨cs.bits, cs.refs⟩ n = some p) :
    p.remainder.refs = cs.refs := by
  rw [parse_refs] at h
  obtain ⟨q, -, rfl⟩ := Option.map_eq_some_iff.1 h
  rfl

omit [Digest] in
theorem parseLabel_ok {cell : Option CellRef} {n : Nat} {mode : LabelMode} {label : LabelParser} {cs : CellSlice}
    (h : parseLabel cell n mode = .ok (label, cs)) : ∃ r, cell = some r ∧ loadCellSlice r = .ok cs ∧
      LabelParser.parse ⟨cs.bits, cs.refs⟩ n = some label ∧ label.validate n mode = .ok () := by
  cases cell with
  | none => cases h
  | some r =>
    obtain ⟨cs', hcs, h⟩ := bind_ok h
    cases hp : LabelParser.parse ⟨cs'.bits, cs'.refs⟩ n with
    | none =>
      rw [hp] at h
      cases h
    | some p =>
      rw [hp] at h
      obtain ⟨u, hvalid, h⟩ := bind_ok h
      cases h
      exact ⟨r, rfl, hcs, hp, hvalid⟩

omit [Digest] in
theorem parseLabel_eq {r : CellRef} {n : Nat} {mode : LabelMode} {label : LabelParser} {cs : CellSlice}
    (hcs : loadCellSlice r = .ok cs) (hp : LabelParser.parse ⟨cs.bits, cs.refs⟩ n = some label)
    (hvalid : label.validate n mode = .ok ()) : parseLabel (some r) n mode = .ok (label, cs) := by
  simp only [parseLabel, bind, Except.bind, hcs, hp, hvalid]
  rfl

/-! ## Proofs -/

variable {v : Nat}

/-- The label of a cell of a proof is the label of the cell it stands for. -/
theorem parseLabel_standsFor (hv : v ≠ 0) {cell cell' : Option CellRef} (h : Option.Rel (StandsFor v) cell cell') {n : Nat}
    {mode : LabelMode} {label : LabelParser} {cs : CellSlice} (hlabel : parseLabel cell n mode = .ok (label, cs)) :
    ∃ label' cs', parseLabel cell' n mode = .ok (label', cs') ∧ label'.bits = label.bits ∧ label'.lBits = label.lBits ∧
      label'.payload.bits = label.payload.bits ∧ cs.StandsFor v cs' := by
  obtain ⟨r, rfl, hcs, hp, hvalid⟩ := parseLabel_ok hlabel
  obtain ⟨r', rfl, hr⟩ : ∃ r', cell' = some r' ∧ StandsFor v r r' := by
    cases h with
    | some h => exact ⟨_, rfl, h⟩
  obtain ⟨cs', hcs', hstands⟩ := hr.loadCellSlice hv hcs
  rw [parse_refs] at hp
  obtain ⟨p, hparse, rfl⟩ := Option.map_eq_some_iff.1 hp
  refine ⟨{ p with remainder := ⟨p.remainder.bits, cs'.refs⟩ }, cs', parseLabel_eq hcs' ?_ ?_, rfl, rfl, rfl, hstands⟩
  · rw [parse_refs, ← hstands.bits, hparse]
    rfl
  · rw [← hvalid]
    simp only [LabelParser.validate, LabelParser.sBits, hstands.length_refs]

/-- A search that gets through in a proof finds what it finds in the whole tree, or finds nothing in either. -/
theorem dictLookup_standsFor (hv : v ≠ 0) {mode : LabelMode} {key : List Bool} {cell cell' : Option CellRef}
    (h : Option.Rel (StandsFor v) cell cell') {x : Option CellSlice} (hx : dictLookup mode cell key = .ok x) :
    ∃ y, dictLookup mode cell' key = .ok y ∧ Option.Rel (CellSlice.StandsFor v) x y := by
  -- along the key, which gets shorter by the label and a bit
  induction hlen : key.length using Nat.strong_induction_on generalizing key cell cell' with
  | _ n ih =>
    obtain ⟨⟨label, cs⟩, hlabel, -⟩ := bind_ok (show _ = _ from dictLookup.eq_1 mode cell key ▸ hx)
    obtain ⟨label', cs', hlabel', hbits, hlBits, hpayload, hstands⟩ := parseLabel_standsFor hv h hlabel
    have hpfx' : label'.isPrefixOf key = label.isPrefixOf key := by
      rw [LabelParser.isPrefixOf, LabelParser.isPrefixOf, hbits]
    cases hpfx : label.isPrefixOf key with
    | false =>
      rw [dictLookup_part hlabel hpfx] at hx
      cases hx
      exact ⟨none, dictLookup_part hlabel' (hpfx'.trans hpfx), .none⟩
    | true =>
      cases hkey : key.drop label.lBits with
      | nil =>
        rw [dictLookup_leaf hlabel hpfx hkey] at hx
        cases hx
        refine ⟨_, dictLookup_leaf hlabel' (hpfx'.trans hpfx) (hlBits ▸ hkey), .some ?_⟩
        rw [hpayload]
        exact ⟨hstands.special, rfl, hstands.refs⟩
      | cons sw rest =>
        rw [dictLookup_fork hlabel hpfx hkey] at hx
        rw [dictLookup_fork hlabel' (hpfx'.trans hpfx) (hlBits ▸ hkey)]
        have hshort : rest.length < n := by
          have := congrArg List.length hkey
          rw [List.length_drop, List.length_cons] at this
          omega
        exact ih _ hshort (hstands.prefetchRef sw.toNat) hx rfl

/-! ## Plain cells -/

omit [Digest] in
/-- The label of a plain cell, with the slice of the cell. -/
theorem parseLabel_plain (c : Cell) (n : Nat) (mode : LabelMode) :
    parseLabel (some ⟨c, .none⟩) n mode = (LabelParser.ofCell (some c) n mode).map fun p => (p, .ofCell ⟨c, .none⟩) := by
  cases hcs : loadCellSlice ⟨c, .none⟩ with
  | error e =>
    simp only [parseLabel, LabelParser.ofCell, bind, Except.bind, hcs]
    rfl
  | ok cs =>
    obtain ⟨-, rfl⟩ := loadCellSlice_ok hcs
    simp only [parseLabel, LabelParser.ofCell, bind, Except.bind, hcs]
    cases LabelParser.parse ⟨(CellSlice.ofCell ⟨c, .none⟩).bits, (CellSlice.ofCell ⟨c, .none⟩).refs⟩ n with
    | none => rfl
    | some p =>
      dsimp only
      cases p.validate n mode <;> rfl

/-- Where nothing is virtualized, this is the search of the plain cells. -/
theorem dictLookup_plain {mode : LabelMode} {key : List Bool} {cell : Option Cell} (hv : ∀ c ∈ cell, Cell.Valid c) :
    (dictLookup mode (cell.map fun c => ⟨c, .none⟩) key).map (Option.map fun cs => (⟨cs.bits, cs.refs⟩ : Slice)) =
      Dict.dictLookup mode cell key := by
  induction hlen : key.length using Nat.strong_induction_on generalizing key cell with
  | _ n ih =>
    cases cell with
    | none =>
      rw [dictLookup, Dict.dictLookup]
      rfl
    | some c =>
      have hplain := parseLabel_plain c key.length mode
      rw [Option.map_some]
      cases hlabel' : LabelParser.ofCell (some c) key.length mode with
      | error e =>
        rw [dictLookup, Dict.dictLookup, hplain, hlabel']
        rfl
      | ok label =>
        rw [hlabel'] at hplain
        have hlabel : parseLabel (some ⟨c, .none⟩) key.length mode = .ok (label, .ofCell ⟨c, .none⟩) := hplain
        obtain ⟨r, hr, hcs, hp, -⟩ := parseLabel_ok hlabel
        have hrefs : label.remainder.refs = c.refs := refs_of_parse hp
        cases hpfx : label.isPrefixOf key with
        | false =>
          rw [dictLookup_part hlabel hpfx, Dict.dictLookup_part hlabel' hpfx]
          rfl
        | true =>
          cases hkey : key.drop label.lBits with
          | nil =>
            rw [dictLookup_leaf hlabel hpfx hkey, Dict.dictLookup_leaf hlabel' hpfx hkey, LabelParser.payload, hrefs]
            rfl
          | cons sw rest =>
            have hshort : rest.length < n := by
              have := congrArg List.length hkey
              rw [List.length_drop, List.length_cons] at this
              omega
            have hchild : (CellSlice.ofCell ⟨c, .none⟩).prefetchRef sw.toNat =
                c.refs[sw.toNat]?.map fun c => (⟨c, .none⟩ : CellRef) := by
              rw [CellSlice.prefetchRef_eq, prefetchRefs_plain (hv c rfl), List.getElem?_map]
            rw [dictLookup_fork hlabel hpfx hkey, Dict.dictLookup_fork hlabel' hpfx hkey, hrefs, hchild]
            exact ih _ hshort (fun r hr => (hv c rfl).of_mem_refs (List.mem_of_getElem? hr)) rfl

end TonWallet.Vm.CellRef
