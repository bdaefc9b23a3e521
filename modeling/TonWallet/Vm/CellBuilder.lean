/-
Cell builders (`vm/cells/CellBuilder`): bits and references are put together one after the other and made a
cell of at the end. A builder never holds more than a cell can; what is too much is refused or thrown.
-/
import TonWallet.Vm.CellSlice

namespace TonWallet.Vm

open Lib TonWallet.Td TonWallet.Ton

/-- The bits and references that are left of a loaded cell that is not virtualized. -/
structure Slice where
  bits : List Bool
  refs : List Cell

namespace Slice

def empty : Slice := ⟨[], []⟩
def append (s t : Slice) : Slice := ⟨s.bits ++ t.bits, s.refs ++ t.refs⟩

@[simp] theorem append_bits (s t : Slice) : (s.append t).bits = s.bits ++ t.bits := rfl
@[simp] theorem append_refs (s t : Slice) : (s.append t).refs = s.refs ++ t.refs := rfl

theorem append_assoc (s t u : Slice) : (s.append t).append u = s.append (t.append u) := by
  simp [append]

@[simp] theorem empty_append (s : Slice) : empty.append s = s := rfl

@[simp] theorem append_empty (s : Slice) : s.append empty = s := by
  simp [append, empty]

end Slice

/-- `CellBuilder`, with the bits and references it holds. -/
structure CellBuilder where
  bits : List Bool := []
  refs : List Cell := []

namespace CellBuilder

/-- `can_extend_by`. -/
def canExtendBy (cb : CellBuilder) (newBits newRefs : Nat) : Bool :=
  newBits ≤ maxBits - cb.bits.length && newRefs ≤ maxRefs - cb.refs.length

def remainingBits (cb : CellBuilder) : Nat := maxBits - cb.bits.length

/-- `store_bits`, `store_long` and `store_bytes` of so many bits; too many are thrown out. -/
def storeBits (bits : List Bool) (cb : CellBuilder) : Result CellBuilder :=
  if cb.canExtendBy bits.length 0 then .ok { cb with bits := cb.bits ++ bits } else .error .cellWriteError

/-- `store_ref_bool`: a null reference is refused. -/
def storeRefBool (ref : Option Cell) (cb : CellBuilder) : Option CellBuilder := do
  let c ← ref
  if cb.refs.length < maxRefs then some { cb with refs := cb.refs ++ [c] } else none

/-- `store_ref`. -/
def storeRef (ref : Option Cell) (cb : CellBuilder) : Result CellBuilder := match cb.storeRefBool ref with
  | some cb => .ok cb
  | none => .error .cellWriteError

/-- `append_cellslice_bool` and `cell_builder_add_slice_bool`. -/
def appendSliceBool (cs : Slice) (cb : CellBuilder) : Option CellBuilder :=
  if cb.canExtendBy cs.bits.length cs.refs.length then some ⟨cb.bits ++ cs.bits, cb.refs ++ cs.refs⟩ else none

variable [Digest]

/-- `finalize`: a cell that cannot be is thrown out. -/
def finalize (cb : CellBuilder) (special : Bool := false) : Result Cell :=
  match Cell.create special cb.bits cb.refs with
  | .error (.status _) => .error .cellWriteError
  | r => r

/-- The ordinary cell of some bits and references, if there is one. -/
def cellOf (s : Slice) : Option Cell := (Cell.create false s.bits s.refs).toOption

/-! ## What is built -/

theorem toOption_finalize (cb : CellBuilder) : cb.finalize.toOption = cellOf ⟨cb.bits, cb.refs⟩ := by
  unfold finalize cellOf
  split
  · next h => rw [h]; rfl
  · rfl

theorem cellOf_eq_some {s : Slice} {c : Cell} (h : cellOf s = some c) :
    c = .mk false s.bits s.refs ∧ s.bits.length ≤ maxBits ∧ s.refs.length ≤ maxRefs ∧
      c.levelMask.getLevel ≤ maxLevel ∧ c.info.depths.any (maxDepth < ·) = false := by
  unfold cellOf at h
  cases hc : Cell.create false s.bits s.refs with
  | error e =>
    rw [hc] at h
    cases h
  | ok c' =>
    rw [hc] at h
    cases h
    unfold Cell.create at hc
    simp only [Bool.false_eq_true, if_false] at hc
    obtain ⟨_, hbits, hc⟩ := bind_ok hc
    obtain ⟨_, hrefs, hc⟩ := bind_ok hc
    obtain ⟨_, hlevel, hc⟩ := bind_ok hc
    obtain ⟨_, hdepth, hc⟩ := bind_ok hc
    simp only [failIf_ok_iff, Nat.not_lt] at hbits hrefs
    rw [check_ok_iff] at hlevel
    rw [failIf_ok_iff, Bool.not_eq_true] at hdepth
    cases hc
    exact ⟨rfl, hbits, hrefs, hlevel, hdepth⟩

omit [Digest] in
/-- A slice is appended, or is too much for any cell. -/
theorem appendSliceBool_cases (s : Slice) (cb : CellBuilder) :
    cb.appendSliceBool s = some ⟨cb.bits ++ s.bits, cb.refs ++ s.refs⟩ ∨ cb.appendSliceBool s = none ∧
      (maxBits < cb.bits.length + s.bits.length ∨ maxRefs < cb.refs.length + s.refs.length) := by
  unfold appendSliceBool
  by_cases hfit : cb.canExtendBy s.bits.length s.refs.length
  · exact .inl (if_pos hfit)
  · refine .inr ⟨if_neg hfit, ?_⟩
    simp only [canExtendBy, Bool.and_eq_true, decide_eq_true_eq, not_and_or] at hfit
    omega

omit [Digest] in
/-- Bits for which there is room are appended. -/
theorem appendSliceBool_ok (bits : List Bool) (cb : CellBuilder) (h : cb.bits.length + bits.length ≤ maxBits) :
    cb.appendSliceBool ⟨bits, []⟩ = some ⟨cb.bits ++ bits, cb.refs⟩ := by
  have hfit : cb.canExtendBy bits.length 0 = true := by
    simp only [canExtendBy, Bool.and_eq_true, decide_eq_true_eq]
    omega
  rw [appendSliceBool, List.length_nil, if_pos hfit, List.append_nil]

/-- Too many bits or references make no cell. -/
theorem cellOf_eq_none {s : Slice} (h : maxBits < s.bits.length ∨ maxRefs < s.refs.length) : cellOf s = none := by
  cases hc : cellOf s with
  | none => rfl
  | some c =>
    obtain ⟨-, hbits, hrefs, -⟩ := cellOf_eq_some hc
    omega

end CellBuilder

/-! ## Ordinary cells -/

variable [Digest]

namespace CellInfo

/-- The depths of an ordinary cell are those of its references, and one more. -/
theorem depths_hashLevels (mask : LevelMask) (data : List Bool) (children : List CellInfo) (levels : List Nat)
    (prev : Option Ton.Bits256) :
    (hashLevels false .ordinary mask data children levels prev).map (·.2) = levels.map fun level =>
      if children.isEmpty then 0 else (children.map (·.getDepth level)).foldl max 0 + 1 := by
  induction levels generalizing prev with
  | nil => rfl
  | cons level levels ih =>
    unfold hashLevels
    rw [List.map_cons, List.map_cons, ih]
    rfl

theorem ofNode_ordinary (data data' : List Bool) (children : List CellInfo) :
    (ofNode false data children).levelMask = (ofNode false data' children).levelMask ∧
      (ofNode false data children).depths = (ofNode false data' children).depths := by
  refine ⟨rfl, ?_⟩
  show List.map _ _ = List.map _ _
  exact (depths_hashLevels _ _ _ _ _).trans (depths_hashLevels _ _ _ _ _).symm

end CellInfo

omit [Digest] in
theorem foldl_max_le {l : List Nat} {a b : Nat} (ha : a ≤ b) (hl : ∀ x ∈ l, x ≤ b) : l.foldl max a ≤ b := by
  induction l generalizing a with
  | nil => exact ha
  | cons x l ih => exact ih (max_le ha (hl x (by simp))) fun y hy => hl y (by simp [hy])

/-- An ordinary cell of a level that cells can have, and no deeper than `b`. -/
structure Cell.Within (b : Nat) (c : Cell) : Prop where
  ordinary : c.special = false
  level : c.levelMask.mask < 8
  depths : ∀ d ∈ c.info.depths, d ≤ b

namespace Cell.Within

variable {b : Nat}

theorem mono {b' : Nat} {c : Cell} (h : c.Within b) (hb : b ≤ b') : c.Within b' :=
  ⟨h.ordinary, h.level, fun d hd => (h.depths d hd).trans hb⟩

/-- Its depths do not come from its bits. -/
theorem relabel {bits refs} (h : (Cell.mk false bits refs).Within b) (bits' : List Bool) :
    (Cell.mk false bits' refs).Within b := by
  obtain ⟨hmask, hdepths⟩ := CellInfo.ofNode_ordinary bits bits' (Cell.infos refs)
  refine ⟨rfl, ?_, ?_⟩
  · show (CellInfo.ofNode false bits' (Cell.infos refs)).levelMask.mask < 8
    rw [← hmask]
    exact h.level
  · show ∀ d ∈ (CellInfo.ofNode false bits' (Cell.infos refs)).depths, d ≤ b
    rw [← hdepths]
    exact h.depths

theorem getDepth_le {c : Cell} (h : c.Within b) (level : Nat) : c.info.getDepth level ≤ b := by
  obtain ⟨special, data, refs⟩ := c
  obtain rfl : special = false := h.ordinary
  have htype : (Cell.mk false data refs).info.type = .ordinary := rfl
  rw [CellInfo.getDepth, htype, if_neg (by decide), List.getD_eq_getElem?_getD]
  cases hd : (Cell.mk false data refs).info.depths[((Cell.mk false data refs).info.levelMask.apply level).getHashI]? with
  | none => exact Nat.zero_le b
  | some d => exact h.depths d (List.mem_of_getElem? hd)

omit [Digest] in
/-- The mask of an ordinary cell is put together from those of its references. -/
theorem level_foldl {infos : List CellInfo} (h : ∀ i ∈ infos, i.levelMask.mask < 8) {m : LevelMask} (hm : m.mask < 8) :
    (infos.foldl (fun (m : LevelMask) c => m.applyOr c.levelMask) m).mask < 8 := by
  induction infos generalizing m with
  | nil => exact hm
  | cons i infos ih =>
    rw [List.foldl_cons]
    apply ih
    · exact fun j hj => h j (List.mem_cons_of_mem i hj)
    · exact Nat.or_lt_two_pow (n := 3) hm (h i List.mem_cons_self)

/-- An ordinary cell is one deeper than its references. -/
theorem node {refs : List Cell} (h : ∀ c ∈ refs, c.Within b) (bits : List Bool) :
    (Cell.mk false bits refs).Within (b + 1) := by
  have hinfos : Cell.infos refs = refs.map Cell.info := Cell.infos_eq_map refs
  refine ⟨rfl, ?_, ?_⟩
  · change ((Cell.infos refs).foldl (fun (m : LevelMask) c => m.applyOr c.levelMask) ⟨0⟩).mask < 8
    apply level_foldl
    · intro i hi
      rw [hinfos] at hi
      obtain ⟨c, hc, rfl⟩ := List.mem_map.1 hi
      exact (h c hc).level
    · decide
  · have hdepths : (Cell.mk false bits refs).info.depths = (Cell.mk false bits refs).levelMask.significantLevels.map
        fun level => if (Cell.infos refs).isEmpty then 0
          else ((Cell.infos refs).map (·.getDepth level)).foldl max 0 + 1 :=
      CellInfo.depths_hashLevels _ _ _ _ _
    rw [hdepths, hinfos]
    intro d hd
    obtain ⟨level, -, rfl⟩ := List.mem_map.1 hd
    split
    · exact Nat.zero_le _
    · refine Nat.succ_le_succ (foldl_max_le (Nat.zero_le b) ?_)
      intro x hx
      obtain ⟨i, hi, rfl⟩ := List.mem_map.1 hx
      obtain ⟨c, hc, rfl⟩ := List.mem_map.1 hi
      exact (h c hc).getDepth_le level

/-- The cell of a fork is one deeper than its branches. -/
theorem fork {ca cb : Cell} (ha : ca.Within b) (hb : cb.Within b) (bits : List Bool) :
    (Cell.mk false bits [ca, cb]).Within (b + 1) :=
  node (List.forall_mem_cons.2 ⟨ha, List.forall_mem_singleton.2 hb⟩) bits

end Cell.Within

omit [Digest] in
theorem LevelMask.getLevel_le_iff (m : LevelMask) : m.getLevel ≤ maxLevel ↔ m.mask < 8 := by
  unfold LevelMask.getLevel maxLevel
  split
  · omega
  · next h =>
    show Nat.log2 m.mask < 3 ↔ m.mask < 2 ^ 3
    exact Nat.log2_lt h

namespace CellBuilder

/-- An ordinary cell that is not too large can be made. -/
theorem cellOf_eq {s : Slice} (hbits : s.bits.length ≤ maxBits) (hrefs : s.refs.length ≤ maxRefs)
    (h : (Cell.mk false s.bits s.refs).Within maxDepth) : cellOf s = some (.mk false s.bits s.refs) := by
  have hdepth : (Cell.mk false s.bits s.refs).info.depths.any (maxDepth < ·) = false := by
    rw [List.any_eq_false]
    intro d hd
    simpa using h.depths d hd
  have hlevel := (LevelMask.getLevel_le_iff _).2 h.level
  simp [cellOf, Cell.create, failIf, check, not_lt.2 hbits, not_lt.2 hrefs, hlevel, hdepth, bind, Except.bind, pure,
    Except.pure, Except.toOption]

end CellBuilder

end TonWallet.Vm
