/-
The code's slice is the pair of lists that is left of its cell: what every operation returns is what it returns on the
lists, whatever was done before it, but for `fetch_octet` and three slips in how arguments are read.
-/
import TonWallet.Vm.CellSliceOps

namespace TonWallet.Vm

open Lib TonWallet.Td TonWallet.Ton

namespace CellWindow

/-- What is left: the bits and references between the ends. -/
def view (w : CellWindow) : CellSlice :=
  ⟨w.virt, w.cell, (w.cell.data.drop w.bitsSt).take w.size, (w.cell.refs.drop w.refsSt).take w.sizeRefs⟩

/-- The data of the cell is in memory, and the ends are in the cell. -/
structure Ends (w : CellWindow) : Prop where
  data : ∀ i b, w.cell.data[i]? = some b → ReadAhead.byteBit w.getData i = b
  data_le : w.cell.data.length ≤ maxBits
  bits_le : w.bitsSt ≤ w.bitsEn
  bitsEn_le : w.bitsEn ≤ w.cell.data.length
  refs_le : w.refsSt ≤ w.refsEn
  refsEn_le : w.refsEn ≤ w.cell.refs.length

structure Good (w : CellWindow) : Prop extends Ahead w, Ends w

variable {w w' : CellWindow} {n bits refs : Nat}

@[simp] theorem size_view (h : w.Ends) : w.view.size = w.size := by
  have hle := h.bits_le
  have hen := h.bitsEn_le
  show ((w.cell.data.drop w.bitsSt).take w.size).length = w.size
  rw [List.length_take, List.length_drop]
  unfold size
  omega

@[simp] theorem sizeRefs_view (h : w.Ends) : w.view.sizeRefs = w.sizeRefs := by
  have hle := h.refs_le
  have hen := h.refsEn_le
  show ((w.cell.refs.drop w.refsSt).take w.sizeRefs).length = w.sizeRefs
  rw [List.length_take, List.length_drop]
  unfold sizeRefs
  omega

/-- What the code has is what the lists have. -/
theorem has_iff (h : w.Ends) : w.view.Has bits refs ↔ w.have2 bits refs := by
  unfold CellSlice.Has have2 haveBits haveRefs
  rw [size_view h, sizeRefs_view h]

theorem has_bits_iff (h : w.Ends) : w.view.Has bits 0 ↔ w.haveBits bits := by
  rw [has_iff h]
  exact and_iff_left (Nat.zero_le _)

/-- The bits in memory are those that are left. -/
theorem dataBits_eq (h : w.Ends) (hn : n ≤ w.size) : w.dataBits n = w.view.bits.take n := by
  have hle := h.bits_le
  have hen := h.bitsEn_le
  unfold size at hn
  show (List.range n).map w.stream = ((w.cell.data.drop w.bitsSt).take w.size).take n
  rw [List.take_take, min_eq_left (by unfold size; omega)]
  apply List.ext_getElem
  · rw [List.length_map, List.length_range, List.length_take, List.length_drop]
    omega
  · intro i hi _
    rw [List.length_map, List.length_range] at hi
    rw [List.getElem_map, List.getElem_range, List.getElem_take, List.getElem_drop]
    exact h.data _ _ (List.getElem?_eq_getElem (by omega))

/-! ## What moves -/

/-- A refill changes nothing that is left. -/
theorem Good.refilled (h : w.Good) (hr : Refilled w w' n) : w'.Good ∧ w'.view = w.view := by
  obtain ⟨hsame, hahead, -, -⟩ := hr
  rw [hsame] at hahead ⊢
  exact ⟨⟨hahead, ⟨h.data, h.data_le, h.bits_le, h.bitsEn_le, h.refs_le, h.refsEn_le⟩⟩, rfl⟩

theorem Ends.initPreload (h : w.Ends) : w.initPreload.Good ∧ w.initPreload.view = w.view := by
  have hahead := ahead_initPreload w
  have hsame := same_initPreload w
  rw [hsame] at hahead ⊢
  exact ⟨⟨hahead, ⟨h.data, h.data_le, h.bits_le, h.bitsEn_le, h.refs_le, h.refsEn_le⟩⟩, rfl⟩

/-- Bits and references at the start are passed over. -/
theorem Ends.drop (h : w.Ends) (hbits : bits ≤ w.size) (hrefs : refs ≤ w.sizeRefs) :
    ({ w with bitsSt := w.bitsSt + bits, refsSt := w.refsSt + refs } : CellWindow).Ends ∧
      ({ w with bitsSt := w.bitsSt + bits, refsSt := w.refsSt + refs } : CellWindow).view = w.view.drop bits refs := by
  obtain ⟨hdata, hsmall, hle, hen, hrle, hren⟩ := h
  unfold size at hbits
  unfold sizeRefs at hrefs
  refine ⟨⟨hdata, hsmall, ?_, hen, ?_, hren⟩, ?_⟩
  · show w.bitsSt + bits ≤ w.bitsEn
    omega
  · show w.refsSt + refs ≤ w.refsEn
    omega
  · unfold view CellSlice.drop size sizeRefs
    dsimp only
    rw [List.drop_take, List.drop_drop, List.drop_take, List.drop_drop, Nat.sub_sub, Nat.sub_sub]

/-- The ends are brought nearer. -/
theorem Ends.take (h : w.Ends) (hbits : bits ≤ w.size) (hrefs : refs ≤ w.sizeRefs) :
    ({ w with bitsEn := w.bitsSt + bits, refsEn := w.refsSt + refs } : CellWindow).Ends ∧
      ({ w with bitsEn := w.bitsSt + bits, refsEn := w.refsSt + refs } : CellWindow).view = w.view.take bits refs := by
  obtain ⟨hdata, hsmall, hle, hen, hrle, hren⟩ := h
  unfold size at hbits
  unfold sizeRefs at hrefs
  refine ⟨⟨hdata, hsmall, Nat.le_add_right _ _, ?_, Nat.le_add_right _ _, ?_⟩, ?_⟩
  · show w.bitsSt + bits ≤ w.cell.data.length
    omega
  · show w.refsSt + refs ≤ w.cell.refs.length
    omega
  · unfold view CellSlice.take size sizeRefs
    dsimp only
    rw [List.take_take, List.take_take, min_eq_left hbits, min_eq_left hrefs, Nat.add_sub_cancel_left, Nat.add_sub_cancel_left]

/-- Nothing is read beyond an end that is nearer. -/
theorem Good.take (h : w.Good) (hbits : bits ≤ w.size) (hrefs : refs ≤ w.sizeRefs) :
    ({ w with bitsEn := w.bitsSt + bits, refsEn := w.refsSt + refs } : CellWindow).Good ∧
      ({ w with bitsEn := w.bitsSt + bits, refsEn := w.refsSt + refs } : CellWindow).view = w.view.take bits refs := by
  obtain ⟨hends, hview⟩ := h.toEnds.take hbits hrefs
  have hsize : ({ w with bitsEn := w.bitsSt + bits, refsEn := w.refsSt + refs } : CellWindow).size = bits :=
    Nat.add_sub_cancel_left ..
  refine ⟨⟨⟨h.zd_le, ?_, ?_⟩, hends⟩, hview⟩
  · rw [hsize]
    exact h.shows.mono (min_le_min_left _ hbits)
  · rw [hsize]
    intro hlt
    exact h.next (hlt.trans_le hbits)

/-- References are passed over. -/
theorem Good.dropRefs (h : w.Good) (hrefs : refs ≤ w.sizeRefs) :
    ({ w with refsSt := w.refsSt + refs } : CellWindow).Good ∧
      ({ w with refsSt := w.refsSt + refs } : CellWindow).view = w.view.drop 0 refs := by
  obtain ⟨hends, hview⟩ := h.toEnds.drop (Nat.zero_le _) hrefs
  exact ⟨⟨⟨h.zd_le, h.shows, h.next⟩, hends⟩, hview⟩

/-- Bits that the window counts are taken from it. -/
theorem Good.shiftOut (h : w.Good) (hbits : bits ≤ w.size) (hzd : bits ≤ w.zd) :
    ({ w.shiftOut bits with bitsSt := w.bitsSt + bits } : CellWindow).Good ∧
      ({ w.shiftOut bits with bitsSt := w.bitsSt + bits } : CellWindow).view = w.view.drop bits 0 := by
  obtain ⟨hends, hview⟩ := h.toEnds.drop hbits (Nat.zero_le _)
  have hstream : ({ w.shiftOut bits with bitsSt := w.bitsSt + bits } : CellWindow).stream = fun k => w.stream (bits + k) := by
    funext k
    exact congrArg (ReadAhead.byteBit w.getData) (Nat.add_assoc ..)
  have hsize : ({ w.shiftOut bits with bitsSt := w.bitsSt + bits } : CellWindow).size = w.size - bits := Nat.sub_add_eq ..
  refine ⟨⟨⟨(Nat.sub_le _ _).trans h.zd_le, ?_, ?_⟩,
    ⟨hends.data, hends.data_le, hends.bits_le, hends.bitsEn_le, hends.refs_le, hends.refsEn_le⟩⟩, hview⟩
  · rw [hstream, hsize]
    exact (h.shows.shiftLeft bits).mono (by show min (w.zd - bits) (w.size - bits) ≤ _; omega)
  · rw [hstream, hsize]
    intro hlt
    have hlt : w.zd - bits < w.size - bits := hlt
    obtain ⟨hptr, hbelow⟩ := h.next (by omega)
    refine ⟨?_, hbelow.shiftLeft bits⟩
    show 8 * w.ptr = w.bitsSt + bits + (w.zd - bits)
    omega

/-- `advance`, when there is so much. -/
theorem Good.advance (h : w.Good) (hbits : bits ≤ w.size) :
    ∃ w', w.advance bits = (true, w') ∧ w'.Good ∧ w'.view = w.view.drop bits 0 := by
  unfold CellWindow.advance
  rw [if_pos (show w.haveBits bits from hbits)]
  dsimp only
  by_cases hzd : w.zd ≤ bits
  · rw [if_pos hzd]
    obtain ⟨hends, hview⟩ := h.toEnds.drop hbits (Nat.zero_le _)
    obtain ⟨hgood, hsame⟩ := hends.initPreload
    exact ⟨_, rfl, hgood, hsame.trans hview⟩
  · rw [if_neg hzd]
    obtain ⟨hgood, hview⟩ := h.shiftOut hbits (Nat.le_of_not_le hzd)
    exact ⟨_, rfl, hgood, hview⟩

/-- References and bits are passed over. -/
theorem Good.advanceBoth (h : w.Good) (hbits : bits ≤ w.size) (hrefs : refs ≤ w.sizeRefs) :
    ∃ w', CellWindow.advance { w with refsSt := w.refsSt + refs } bits = (true, w') ∧ w'.Good ∧ w'.view = w.view.drop bits refs := by
  obtain ⟨hgood, hview⟩ := h.dropRefs hrefs
  obtain ⟨w', hw', hgood', hview'⟩ := @Good.advance _ bits hgood hbits
  exact ⟨w', hw', hgood', hview'.trans (by rw [hview]; rfl)⟩

/-- The slice of the first bits and references. -/
theorem Good.first (h : w.Good) (hbits : bits ≤ w.size) (hrefs : refs ≤ w.sizeRefs) :
    (w.first bits refs).Good ∧ (w.first bits refs).view = w.view.take bits refs := by
  obtain ⟨hends, hview⟩ := h.toEnds.take hbits hrefs
  have hends' : ({ w with bitsEn := w.bitsSt + bits, refsEn := w.refsSt + refs, ptr := 0, zd := 0 } : CellWindow).Ends :=
    ⟨hends.data, hends.data_le, hends.bits_le, hends.bitsEn_le, hends.refs_le, hends.refsEn_le⟩
  unfold CellWindow.first
  dsimp only
  by_cases hzero : bits = 0
  · rw [if_neg (not_not.2 hzero)]
    have hsize : ({ w with bitsEn := w.bitsSt + bits, refsEn := w.refsSt + refs, ptr := 0, zd := 0 } : CellWindow).size = bits :=
      Nat.add_sub_cancel_left ..
    refine ⟨⟨⟨Nat.zero_le _, ?_, ?_⟩, hends'⟩, hview⟩
    · rw [hsize, hzero, Nat.min_zero]
      exact ReadAhead.shows_zero
    · rw [hsize, hzero]
      exact fun hlt => absurd hlt (Nat.not_lt_zero _)
  · rw [if_pos hzero]
    obtain ⟨hgood, hsame⟩ := hends'.initPreload
    exact ⟨hgood, hsame.trans hview⟩

/-! ## What is read -/

theorem wordOf_nil (sgnd : Bool) : wordOf sgnd [] = 0 := by cases sgnd <;> rfl

/-- The first bits of the window are the number that they make. -/
theorem topBits_eq {s : Nat → Bool} (h : ReadAhead.Shows s w.z n) (hpos : 0 < n) (hn : n ≤ 64) (sgnd : Bool) :
    w.topBits sgnd n = wordOf sgnd ((List.range n).map s) := by
  have hlen : ((List.range n).map s).length = n := by rw [List.length_map, List.length_range]
  unfold topBits wordOf
  cases sgnd with
  | false =>
    rw [if_neg Bool.false_ne_true, if_neg Bool.false_ne_true, ← h.toNat hn, BitVec.ofNat_toNat, BitVec.setWidth_eq]
  | true => rw [if_pos rfl, if_pos rfl, ReadAhead.sshiftRight_eq w.z hpos hn, h.toNat hn, hlen]

/-- Enough is read ahead, and is what is left. -/
theorem Good.preload (h : w.Good) (hn : n ≤ w.size) (hn64 : n ≤ 64) :
    (w.preloadAtLeast n).Good ∧ (w.preloadAtLeast n).view = w.view ∧ (n ≤ 56 → n ≤ (w.preloadAtLeast n).zd) ∧
      (∀ sgnd, 0 < n → (w.preloadAtLeast n).topBits sgnd n = wordOf sgnd (w.view.bits.take n)) := by
  have hr := refilled_preloadAtLeast h.toAhead hn hn64
  obtain ⟨hgood, hview⟩ := h.refilled hr
  refine ⟨hgood, hview, hr.enough, fun sgnd hpos => ?_⟩
  rw [topBits_eq hr.shows hpos hn64, ← dataBits_eq h.toEnds hn]
  rfl

theorem Good.size_eq (h : w.Good) (h' : w'.Good) (hview : w'.view = w.view) : w'.size = w.size := by
  rw [← size_view h.toEnds, ← size_view h'.toEnds, hview]

theorem prefetchWord_eof {sgnd : Bool} (hno : ¬ w.haveBits bits ∨ 64 < bits) : w.prefetchWord sgnd bits = (fetchEof sgnd, w) :=
  if_pos hno

theorem fetchWord_eof {sgnd : Bool} (hno : ¬ w.haveBits bits ∨ 64 < bits) : w.fetchWord sgnd bits = (fetchEof sgnd, w) :=
  if_pos hno

/-- A number is read. -/
theorem Good.prefetchWord (h : w.Good) (hbits : bits ≤ w.size) (h64 : bits ≤ 64) (sgnd : Bool) :
    ∃ w', w.prefetchWord sgnd bits = (wordOf sgnd (w.view.bits.take bits), w') ∧ w'.Good ∧ w'.view = w.view := by
  have hyes : ¬ (¬ w.haveBits bits ∨ 64 < bits) := not_or.2 ⟨not_not.2 hbits, Nat.not_lt.2 h64⟩
  unfold CellWindow.prefetchWord
  rw [if_neg hyes]
  by_cases hzero : bits = 0
  · rw [if_pos hzero, hzero, List.take_zero, wordOf_nil]
    exact ⟨w, rfl, h, rfl⟩
  · rw [if_neg hzero]
    obtain ⟨hgood, hview, -, htop⟩ := h.preload hbits h64
    dsimp only
    rw [htop sgnd (by omega)]
    exact ⟨_, rfl, hgood, hview⟩

/-- A number is taken. -/
theorem Good.fetchWord (h : w.Good) (hbits : bits ≤ w.size) (h64 : bits ≤ 64) (sgnd : Bool) :
    ∃ w', w.fetchWord sgnd bits = (wordOf sgnd (w.view.bits.take bits), w') ∧ w'.Good ∧ w'.view = w.view.drop bits 0 := by
  have hyes : ¬ (¬ w.haveBits bits ∨ 64 < bits) := not_or.2 ⟨not_not.2 hbits, Nat.not_lt.2 h64⟩
  unfold CellWindow.fetchWord
  rw [if_neg hyes]
  by_cases hzero : bits = 0
  · rw [if_pos hzero, hzero, List.take_zero, wordOf_nil]
    exact ⟨w, rfl, h, rfl⟩
  · rw [if_neg hzero]
    obtain ⟨hgood, hview, henough, htop⟩ := h.preload hbits h64
    have hbits' : bits ≤ (w.preloadAtLeast bits).size := by rwa [h.size_eq hgood hview]
    dsimp only
    rw [htop sgnd (by omega)]
    by_cases hsmall : bits ≤ 56
    · rw [if_pos hsmall]
      obtain ⟨hgood', hview'⟩ := hgood.shiftOut hbits' (henough hsmall)
      exact ⟨_, rfl, hgood', hview'.trans (by rw [hview])⟩
    · rw [if_neg hsmall]
      obtain ⟨w', hw', hgood', hview'⟩ := hgood.advance hbits'
      rw [hw']
      exact ⟨w', rfl, hgood', hview'.trans (by rw [hview])⟩

/-! ## Operations -/

section Refines

variable [Digest]

/-- What the code returns and leaves is what the lists return and leave; a slice that is returned is as good. -/
structure Refines (r : SliceReply CellWindow × CellWindow) (s : SliceReply CellSlice × CellSlice) : Prop where
  reply : r.1.map view = s.1
  slice : ∀ w, r.1 = .slice (some w) → w.Good
  good : r.2.Good
  view : r.2.view = s.2

variable {r : SliceReply CellWindow × CellWindow} {yes no : SliceReply CellSlice} {cs : CellSlice}

omit [Digest] in
/-- An operation that asks whether there is so much. -/
theorem refines_ifHas (h : w.Good) (hyes : bits ≤ w.size → refs ≤ w.sizeRefs → Refines r (yes, cs))
    (hno : ¬ w.have2 bits refs → Refines r (no, w.view)) : Refines r (w.view.ifHas bits refs yes no cs) := by
  unfold CellSlice.ifHas
  by_cases hhas : w.view.Has bits refs
  · rw [if_pos hhas]
    obtain ⟨hbits, hrefs⟩ := (has_iff h.toEnds).1 hhas
    exact hyes hbits hrefs
  · rw [if_neg hhas]
    exact hno fun hhave => hhas ((has_iff h.toEnds).2 hhave)

omit [Digest] in
theorem refines_ifHasBits (h : w.Good) (hyes : bits ≤ w.size → Refines r (yes, cs))
    (hno : ¬ w.haveBits bits → Refines r (no, w.view)) : Refines r (w.view.ifHas bits 0 yes no cs) :=
  refines_ifHas h (fun hbits _ => hyes hbits) fun hno' => hno fun hbits => hno' ⟨hbits, Nat.zero_le _⟩

omit [Digest] in
theorem refines_advance (h : w.Good) : Refines ((w.advance bits).map .flag id)
    (w.view.ifHas bits 0 (.flag true) (.flag false) (w.view.drop bits 0)) := by
  refine refines_ifHasBits h (fun hbits => ?_) fun hno => ?_
  · obtain ⟨w', hw', hgood, hview⟩ := h.advance hbits
    rw [hw']
    exact ⟨rfl, nofun, hgood, hview⟩
  · rw [CellWindow.advance, if_neg hno]
    exact ⟨rfl, nofun, h, rfl⟩

omit [Digest] in
theorem refines_advanceExt (h : w.Good) : Refines ((w.advanceExt bits refs).map .flag id)
    (w.view.ifHas bits refs (.flag true) (.flag false) (w.view.drop bits refs)) := by
  refine refines_ifHas h (fun hbits hrefs => ?_) fun hno => ?_
  · obtain ⟨w', hw', hgood, hview⟩ := h.advanceBoth hbits hrefs
    rw [advanceExt, if_pos (show w.have2 bits refs from ⟨hbits, hrefs⟩), hw']
    exact ⟨rfl, nofun, hgood, hview⟩
  · rw [advanceExt, if_neg hno]
    exact ⟨rfl, nofun, h, rfl⟩

omit [Digest] in
theorem refines_onlyFirst (h : w.Good) : Refines ((w.onlyFirst bits refs).map .flag id)
    (w.view.ifHas bits refs (.flag true) (.flag false) (w.view.take bits refs)) := by
  refine refines_ifHas h (fun hbits hrefs => ?_) fun hno => ?_
  · obtain ⟨hgood, hview⟩ := h.take hbits hrefs
    rw [onlyFirst, if_pos (show w.have2 bits refs from ⟨hbits, hrefs⟩)]
    exact ⟨rfl, nofun, hgood, hview⟩
  · rw [onlyFirst, if_neg hno]
    exact ⟨rfl, nofun, h, rfl⟩

omit [Digest] in
theorem refines_skipLast (h : w.Good) : Refines ((w.skipLast bits refs).map .flag id)
    (w.view.ifHas bits refs (.flag true) (.flag false) (w.view.take (w.view.size - bits) (w.view.sizeRefs - refs))) := by
  refine refines_ifHas h (fun hbits hrefs => ?_) fun hno => ?_
  · obtain ⟨hgood, hview⟩ := @Good.take w (w.size - bits) (w.sizeRefs - refs) h (Nat.sub_le _ _) (Nat.sub_le _ _)
    have hle := h.bits_le
    have hrle := h.refs_le
    have hbitsEn : w.bitsSt + (w.size - bits) = w.bitsEn - bits := by
      unfold size at hbits ⊢
      omega
    have hrefsEn : w.refsSt + (w.sizeRefs - refs) = w.refsEn - refs := by
      unfold sizeRefs at hrefs ⊢
      omega
    rw [hbitsEn, hrefsEn] at hgood hview
    rw [skipLast, if_pos (show w.have2 bits refs from ⟨hbits, hrefs⟩), size_view h.toEnds, sizeRefs_view h.toEnds]
    exact ⟨rfl, nofun, hgood, hview⟩
  · rw [skipLast, if_neg hno]
    exact ⟨rfl, nofun, h, rfl⟩

omit [Digest] in
theorem refines_onlyLast (h : w.Good) : Refines ((w.onlyLast bits refs).map .flag id)
    (w.view.ifHas bits refs (.flag true) (.flag false) (w.view.drop (w.view.size - bits) (w.view.sizeRefs - refs))) := by
  refine refines_ifHas h (fun hbits hrefs => ?_) fun hno => ?_
  · obtain ⟨w', hw', hgood, hview⟩ := @Good.advanceBoth w (w.size - bits) (w.sizeRefs - refs) h
      (Nat.sub_le _ _) (Nat.sub_le _ _)
    have hrle := h.refs_le
    have hrefsSt : w.refsSt + (w.sizeRefs - refs) = w.refsEn - refs := by
      unfold sizeRefs at hrefs ⊢
      omega
    rw [hrefsSt] at hw'
    rw [onlyLast, if_pos (show w.have2 bits refs from ⟨hbits, hrefs⟩), size_view h.toEnds, sizeRefs_view h.toEnds, hw']
    exact ⟨rfl, nofun, hgood, hview⟩
  · rw [onlyLast, if_neg hno]
    exact ⟨rfl, nofun, h, rfl⟩

omit [Digest] in
/-- A number is taken or read where there are so many bits, and no more than a word has. -/
theorem refines_word (h : w.Good) {sgnd : Bool} {run : BitVec 64 × CellWindow}
    (hyes : bits ≤ w.size → bits ≤ 64 → ∃ w', run = (wordOf sgnd (w.view.bits.take bits), w') ∧ w'.Good ∧ w'.view = cs)
    (hno : ¬ w.haveBits bits ∨ 64 < bits → run = (fetchEof sgnd, w)) : Refines (run.map .word id) (w.view.word sgnd bits cs) := by
  unfold CellSlice.word
  by_cases h64 : bits ≤ 64
  · rw [if_pos h64]
    refine refines_ifHasBits h (fun hbits => ?_) fun hno' => ?_
    · obtain ⟨w', hw', hgood, hview⟩ := hyes hbits h64
      rw [hw']
      exact ⟨rfl, nofun, hgood, hview⟩
    · rw [hno (.inl hno')]
      exact ⟨rfl, nofun, h, rfl⟩
  · rw [if_neg h64, hno (.inr (Nat.lt_of_not_le h64))]
    exact ⟨rfl, nofun, h, rfl⟩

omit [Digest] in
theorem refines_wordBool (h : w.Good) {sgnd : Bool} {run : BitVec 64 × CellWindow}
    (hyes : bits ≤ w.size → bits ≤ 64 → ∃ w', run = (wordOf sgnd (w.view.bits.take bits), w') ∧ w'.Good ∧ w'.view = cs) :
    Refines ((if 64 < bits ∨ ¬ w.haveBits bits then (none, w) else (some run.1, run.2)).map .maybeWord id)
      (w.view.wordBool sgnd bits cs) := by
  unfold CellSlice.wordBool
  by_cases h64 : bits ≤ 64
  · rw [if_pos h64]
    refine refines_ifHasBits h (fun hbits => ?_) fun hno => ?_
    · obtain ⟨w', hw', hgood, hview⟩ := hyes hbits h64
      rw [if_neg (not_or.2 ⟨Nat.not_lt.2 h64, not_not.2 (show w.haveBits bits from hbits)⟩), hw']
      exact ⟨rfl, nofun, hgood, hview⟩
    · rw [if_pos (.inr hno)]
      exact ⟨rfl, nofun, h, rfl⟩
  · rw [if_neg h64, if_pos (.inl (Nat.lt_of_not_le h64))]
    exact ⟨rfl, nofun, h, rfl⟩

omit [Digest] in
theorem refines_prefetchUlongTop (h : w.Good) (h64 : bits ≤ 64) :
    Refines ((w.prefetchUlongTop bits).map (fun r : Nat × BitVec 64 => .top r.1 (r.2 >>> (64 - r.1))) id)
      (.top (min bits w.view.size) (wordOf false (w.view.bits.take bits)), w.view) := by
  have hmin : (if w.size < bits then w.size else bits) = min bits w.size := by
    split <;> omega
  have htake : w.view.bits.take bits = w.view.bits.take (min bits w.size) := by
    rw [← size_view h.toEnds, CellSlice.size, ← List.take_eq_take_min]
  unfold prefetchUlongTop
  rw [hmin, htake, size_view h.toEnds]
  by_cases hzero : min bits w.size = 0
  · rw [if_pos hzero, hzero, List.take_zero, wordOf_nil]
    exact ⟨rfl, nofun, h, rfl⟩
  · rw [if_neg hzero]
    obtain ⟨hgood, hview, -, htop⟩ := h.preload (n := min bits w.size) (min_le_right _ _) (by omega)
    refine ⟨?_, nofun, hgood, hview⟩
    rw [← htop false (by omega)]
    rfl

omit [Digest] in
/-- An octet is read. -/
theorem preload_octet (h : w.Good) (hbits : 8 ≤ w.size) :
    (((w.preloadAtLeast 8).z >>> 56).toNat : Int) = bitsToNat (w.view.bits.take 8) := by
  obtain ⟨-, -, -, htop⟩ := h.preload hbits (by decide)
  have hword : (w.preloadAtLeast 8).z >>> 56 = BitVec.ofNat 64 (bitsToNat (w.view.bits.take 8)) := htop false (by decide)
  have hlt := bitsToNat_lt (w.view.bits.take 8)
  have hlen : (w.view.bits.take 8).length ≤ 8 := List.length_take_le ..
  have hsmall : 2 ^ (w.view.bits.take 8).length ≤ 2 ^ 8 := Nat.pow_le_pow_right (by decide) hlen
  rw [hword, BitVec.toNat_ofNat, Nat.mod_eq_of_lt (by omega)]

omit [Digest] in
theorem refines_prefetchOctet (h : w.Good) : Refines (w.prefetchOctet.map .int id)
    (w.view.ifHas 8 0 (.int (bitsToNat (w.view.bits.take 8))) (.int (-1)) w.view) := by
  refine refines_ifHasBits h (fun hbits => ?_) fun hno => ?_
  · obtain ⟨hgood, hview, -, -⟩ := h.preload hbits (by decide)
    rw [prefetchOctet, if_neg (not_not.2 (show w.haveBits 8 from hbits))]
    exact ⟨congrArg SliceReply.int (preload_octet h hbits), nofun, hgood, hview⟩
  · rw [prefetchOctet, if_pos hno]
    exact ⟨rfl, nofun, h, rfl⟩

omit [Digest] in
/-- `fetch_octet` leaves the start where it was. -/
theorem refines_fetchOctet_iff (h : w.Good) : Refines (w.fetchOctet.map .int id)
    (w.view.ifHas 8 0 (.int (bitsToNat (w.view.bits.take 8))) (.int (-1)) (w.view.drop 8 0)) ↔ w.view.size < 8 := by
  rw [size_view h.toEnds]
  constructor
  · intro hrefines
    by_contra hbits
    have hbits : 8 ≤ w.size := Nat.le_of_not_lt hbits
    obtain ⟨hgood, hview, -, -⟩ := h.preload hbits (by decide)
    have hleft := hrefines.view
    rw [CellSlice.ifHas, if_pos ((has_bits_iff h.toEnds).2 hbits), fetchOctet,
      if_neg (not_not.2 (show w.haveBits 8 from hbits))] at hleft
    have hsame : (w.preloadAtLeast 8).view = w.view.drop 8 0 := hleft
    have hlen := congrArg CellSlice.size (hview.symm.trans hsame)
    rw [size_view h.toEnds, CellSlice.drop, CellSlice.size, List.length_drop] at hlen
    have hall : w.view.bits.length = w.size := size_view h.toEnds
    omega
  · intro hsmall
    have hno : ¬ w.haveBits 8 := Nat.not_le.2 hsmall
    rw [CellSlice.ifHas, if_neg fun hhas => hno ((has_bits_iff h.toEnds).1 hhas), fetchOctet, if_pos hno]
    exact ⟨rfl, nofun, h, rfl⟩

omit [Digest] in
theorem prefetchBits_eq (h : w.Good) (hbits : bits ≤ w.size) : w.prefetchBits bits = some (w.view.bits.take bits) := by
  rw [prefetchBits, if_neg (not_not.2 (show w.haveBits bits from hbits)), dataBits_eq h.toEnds hbits]

omit [Digest] in
theorem refines_prefetchBits (h : w.Good) : Refines (.bits (w.prefetchBits bits), w)
    (w.view.ifHas bits 0 (.bits (some (w.view.bits.take bits))) (.bits none) w.view) := by
  refine refines_ifHasBits h (fun hbits => ?_) fun hno => ?_
  · rw [prefetchBits_eq h hbits]
    exact ⟨rfl, nofun, h, rfl⟩
  · rw [prefetchBits, if_pos hno]
    exact ⟨rfl, nofun, h, rfl⟩

omit [Digest] in
theorem refines_fetchBits (h : w.Good) : Refines ((w.fetchBits bits).map .bits id)
    (w.view.ifHas bits 0 (.bits (some (w.view.bits.take bits))) (.bits none) (w.view.drop bits 0)) := by
  refine refines_ifHasBits h (fun hbits => ?_) fun hno => ?_
  · obtain ⟨w', hw', hgood, hview⟩ := h.advance hbits
    rw [fetchBits, if_neg (not_not.2 (show w.haveBits bits from hbits)), hw', dataBits_eq h.toEnds hbits]
    exact ⟨rfl, nofun, hgood, hview⟩
  · rw [fetchBits, if_pos hno]
    exact ⟨rfl, nofun, h, rfl⟩

omit [Digest] in
/-- Bytes are read as bits where their number of bits is not cut off. -/
theorem prefetchBytes_eq (bytes : Nat) : w.prefetchBytes bytes = w.prefetchBits (bytesBits bytes) := by
  unfold prefetchBytes prefetchBits
  split <;> rfl

omit [Digest] in
theorem fetchBytes_eq (bytes : Nat) : w.fetchBytes bytes = w.fetchBits (bytesBits bytes) := by
  unfold fetchBytes prefetchBytes prefetchBits fetchBits
  split
  · next hyes =>
    split at hyes
    · cases hyes
    · next h =>
      cases hyes
      rw [if_neg h]
  · next hno =>
    split at hno
    · next h => rw [if_pos h]
    · cases hno

omit [Digest] in
/-- The number of bits is cut off, or nothing is read. -/
theorem refines_bytes_iff (h : w.Good) {bytes : Nat} {run : Nat → SliceReply CellWindow × CellWindow} {next : Nat → CellSlice}
    (hrun : ∀ n, Refines (run n) (w.view.ifHas n 0 (.bits (some (w.view.bits.take n))) (.bits none) (next n))) :
    Refines (run (bytesBits bytes)) (w.view.ifHas (bytes * 8) 0 (.bits (some (w.view.bits.take (bytes * 8)))) (.bits none)
      (next (bytes * 8))) ↔ bytes * 8 < 2 ^ 32 ∨ w.view.size < bytes * 8 % 2 ^ 32 := by
  have hsize : w.view.size ≤ maxBits := by
    have hle := h.bitsEn_le
    have hdata := h.data_le
    rw [size_view h.toEnds]
    unfold size
    omega
  have hspec := hrun (bytesBits bytes)
  by_cases hsmall : bytes * 8 < 2 ^ 32
  · rw [bytesBits, Nat.mod_eq_of_lt hsmall]
    exact iff_of_true (hrun (bytes * 8)) (.inl hsmall)
  · have hlong : ¬ w.view.Has (bytes * 8) 0 := by
      rintro ⟨hbits, -⟩
      unfold maxBits at hsize
      omega
    rw [CellSlice.ifHas, if_neg hlong, or_iff_right hsmall]
    rw [CellSlice.ifHas] at hspec
    by_cases hhas : w.view.Has (bytesBits bytes) 0
    · rw [if_pos hhas] at hspec
      refine iff_of_false (fun hrefines => ?_) (Nat.not_lt.2 hhas.1)
      have hreply := hspec.reply.symm.trans hrefines.reply
      cases hreply
    · rw [if_neg hhas] at hspec
      exact iff_of_true hspec (Nat.lt_of_not_le fun hle => hhas ⟨hle, Nat.zero_le _⟩)

omit [Digest] in
theorem refines_prefetchSubslice (h : w.Good) : Refines (.slice (w.prefetchSubslice bits refs), w)
    (w.view.ifHas bits refs (.slice (some (w.view.take bits refs))) (.slice none) w.view) := by
  refine refines_ifHas h (fun hbits hrefs => ?_) fun hno => ?_
  · obtain ⟨hfirst, hview⟩ := h.first hbits hrefs
    rw [prefetchSubslice, if_neg (not_not.2 (show w.have2 bits refs from ⟨hbits, hrefs⟩))]
    refine ⟨?_, ?_, h, rfl⟩
    · rw [← hview]
      rfl
    · rintro w' hw'
      cases hw'
      exact hfirst
  · rw [prefetchSubslice, if_pos hno]
    exact ⟨rfl, nofun, h, rfl⟩

omit [Digest] in
theorem refines_fetchSubslice (h : w.Good) : Refines ((w.fetchSubslice bits refs).map .slice id)
    (w.view.ifHas bits refs (.slice (some (w.view.take bits refs))) (.slice none) (w.view.drop bits refs)) := by
  refine refines_ifHas h (fun hbits hrefs => ?_) fun hno => ?_
  · obtain ⟨hfirst, hview⟩ := h.first hbits hrefs
    obtain ⟨w', hw', hgood, hview'⟩ := h.advance hbits
    have hrefs' : refs ≤ w'.sizeRefs := by
      rw [← sizeRefs_view hgood.toEnds, hview', CellSlice.drop, CellSlice.sizeRefs, List.drop_zero]
      exact hrefs.trans (le_of_eq (sizeRefs_view h.toEnds).symm)
    obtain ⟨hgood', hview''⟩ := hgood.dropRefs hrefs'
    rw [fetchSubslice, if_neg (not_not.2 (show w.have2 bits refs from ⟨hbits, hrefs⟩)), hw', advanceRefs,
      if_pos (show w'.haveRefs refs from hrefs')]
    refine ⟨?_, ?_, hgood', hview''.trans (by rw [hview']; rfl)⟩
    · rw [← hview]
      rfl
    · rintro w' hw'
      cases hw'
      exact hfirst
  · rw [fetchSubslice, if_pos hno]
    exact ⟨rfl, nofun, h, rfl⟩

/-- A reference that is left. -/
theorem prefetchRef_eq (h : w.Good) (offset : Nat) : w.prefetchRef offset = w.view.prefetchRef offset := by
  have hren := h.refsEn_le
  unfold CellWindow.prefetchRef CellSlice.prefetchRef getRef
  show _ = ((w.cell.refs.drop w.refsSt).take w.sizeRefs)[offset]?.map _
  rw [List.getElem?_take, List.getElem?_drop]
  split <;> rfl

theorem exists_prefetchRef (h : w.Good) (hrefs : 1 ≤ w.sizeRefs) : ∃ r, w.view.prefetchRef 0 = some r := by
  have hlt : 0 < w.view.refs.length := Nat.lt_of_lt_of_le hrefs (le_of_eq (sizeRefs_view h.toEnds).symm)
  exact ⟨_, by rw [CellSlice.prefetchRef, List.getElem?_eq_getElem hlt, Option.map_some]⟩

theorem refines_fetchRef (h : w.Good) : Refines (w.fetchRef.map .ref id)
    (w.view.ifHas 0 1 (.ref (w.view.prefetchRef 0)) (.ref none) (w.view.drop 0 1)) := by
  refine refines_ifHas h (fun _ hrefs => ?_) fun hno => ?_
  · obtain ⟨hgood, hview⟩ := h.dropRefs hrefs
    have href : w.getRef w.refsSt = w.view.prefetchRef 0 := by
      rw [← prefetchRef_eq h, CellWindow.prefetchRef, if_pos (Nat.lt_of_lt_of_le Nat.zero_lt_one hrefs), Nat.add_zero]
    rw [fetchRef, if_pos (show w.haveRefs 1 from hrefs), href]
    exact ⟨rfl, nofun, hgood, hview⟩
  · rw [fetchRef, if_neg fun hhave => hno ⟨Nat.zero_le _, hhave⟩]
    exact ⟨rfl, nofun, h, rfl⟩

omit [Digest] in
/-- The bit that says whether a reference is there. -/
theorem prefetchUlong_one (h : w.Good) :
    (w.view.bits.head? = none ∧ w.prefetchUlong 1 = (BitVec.allOnes 64, w)) ∨
      ∃ b w', w.view.bits.head? = some b ∧ w.prefetchUlong 1 = (if b then 1 else 0, w') ∧ w'.Good ∧ w'.view = w.view ∧
        1 ≤ w'.size := by
  have hsize : w.view.bits.length = w.size := size_view h.toEnds
  cases hbits : w.view.bits with
  | nil =>
    rw [hbits, List.length_nil] at hsize
    have hno : ¬ w.haveBits 1 := by
      unfold haveBits
      omega
    exact .inl ⟨rfl, prefetchWord_eof (.inl hno)⟩
  | cons b rest =>
    rw [hbits, List.length_cons] at hsize
    obtain ⟨w', hw', hgood, hview⟩ := @Good.prefetchWord w 1 h (by omega) (by decide) false
    refine .inr ⟨b, w', rfl, ?_, hgood, hview, by rw [h.size_eq hgood hview]; omega⟩
    rw [hbits] at hw'
    rw [prefetchUlong, hw']
    cases b <;> rfl

theorem prefetchMaybeRef_zero {w' : CellWindow} (hz : w.prefetchUlong 1 = (0, w')) : w.prefetchMaybeRef = (some none, w') := by
  rw [prefetchMaybeRef, hz]
  rfl

theorem prefetchMaybeRef_one {w' : CellWindow} (hz : w.prefetchUlong 1 = (1, w')) :
    w.prefetchMaybeRef = ((w'.prefetchRef 0).map some, w') := by
  rw [prefetchMaybeRef, hz]
  cases hr : w'.prefetchRef 0 <;> simp only [hr] <;> rfl

theorem refines_prefetchMaybeRef (h : w.Good) :
    Refines (w.prefetchMaybeRef.map .maybeRef id) (w.view.maybeRef fun _ => w.view) := by
  unfold CellSlice.maybeRef
  rcases prefetchUlong_one h with ⟨hhead, hz⟩ | ⟨b, w', hhead, hz, hgood, hview, hone⟩
  · rw [hhead, prefetchMaybeRef, hz]
    exact ⟨rfl, nofun, h, rfl⟩
  · rw [hhead]
    cases b with
    | false =>
      rw [prefetchMaybeRef_zero hz]
      exact ⟨rfl, nofun, hgood, hview⟩
    | true =>
      rw [prefetchMaybeRef_one hz]
      show Refines _ (w.view.ifHas 1 1 _ _ w.view)
      rw [← hview]
      refine refines_ifHas hgood (fun _ hrefs => ?_) fun hno => ?_
      · obtain ⟨r, hr⟩ := exists_prefetchRef hgood hrefs
        rw [prefetchRef_eq hgood, hr]
        exact ⟨rfl, nofun, hgood, rfl⟩
      · have hr : w'.prefetchRef 0 = none := if_neg fun hlt => hno ⟨hone, hlt⟩
        rw [hr]
        exact ⟨rfl, nofun, hgood, rfl⟩

theorem fetchMaybeRef_some {w' : CellWindow} {r : CellRef} (hz : w.prefetchUlong 1 = (1, w')) (hr : w'.prefetchRef 0 = some r) :
    w.fetchMaybeRef = (if (w'.advanceExt 1 1).1 then some (some r) else none, (w'.advanceExt 1 1).2) := by
  rw [fetchMaybeRef, hz]
  simp only [hr]
  rfl

theorem fetchMaybeRef_none {w' : CellWindow} (hz : w.prefetchUlong 1 = (1, w')) (hr : w'.prefetchRef 0 = none) :
    w.fetchMaybeRef = (none, w') := by
  rw [fetchMaybeRef, hz]
  simp only [hr]
  rfl

theorem refines_fetchMaybeRef (h : w.Good) :
    Refines (w.fetchMaybeRef.map .maybeRef id) (w.view.maybeRef (w.view.drop 1)) := by
  unfold CellSlice.maybeRef
  rcases prefetchUlong_one h with ⟨hhead, hz⟩ | ⟨b, w', hhead, hz, hgood, hview, hone⟩
  · rw [hhead, fetchMaybeRef, hz]
    exact ⟨rfl, nofun, h, rfl⟩
  · rw [hhead]
    cases b with
    | false =>
      obtain ⟨w₁, hw₁, hgood₁, hview₁⟩ := hgood.advance hone
      rw [fetchMaybeRef, hz]
      show Refines (Prod.map SliceReply.maybeRef id (if (w'.advance 1).1 then some none else none, (w'.advance 1).2)) _
      rw [hw₁]
      exact ⟨rfl, nofun, hgood₁, hview₁.trans (by rw [hview])⟩
    | true =>
      show Refines _ (w.view.ifHas 1 1 _ _ (w.view.drop 1 1))
      rw [← hview]
      refine refines_ifHas hgood (fun _ hrefs => ?_) fun hno => ?_
      · obtain ⟨r, hr⟩ := exists_prefetchRef hgood hrefs
        obtain ⟨w₁, hw₁, hgood₁, hview₁⟩ := hgood.advanceBoth hone hrefs
        rw [fetchMaybeRef_some hz ((prefetchRef_eq hgood 0).trans hr), advanceExt, if_pos (show w'.have2 1 1 from ⟨hone, hrefs⟩),
          hw₁, hr]
        exact ⟨rfl, nofun, hgood₁, hview₁⟩
      · have hr : w'.prefetchRef 0 = none := if_neg fun hlt => hno ⟨hone, hlt⟩
        rw [fetchMaybeRef_none hz hr]
        exact ⟨rfl, nofun, hgood, rfl⟩

omit [Digest] in
/-- `bit_at` takes the bit behind the last one for one that is there. -/
theorem refines_bitAt_iff (h : w.Good) {i : Nat} : Refines (.int (w.bitAt i), w) (.int (match w.view.bits[i]? with
    | some b => b.toNat
    | none => -1), w.view) ↔ i ≠ w.view.size := by
  have hsize : w.view.bits.length = w.size := size_view h.toEnds
  rw [size_view h.toEnds, bitAt]
  rcases lt_trichotomy i w.size with hlt | rfl | hgt
  · have hbit : w.view.bits[i]? = some (w.stream i) := by
      have hall := dataBits_eq h.toEnds (le_refl w.size)
      rw [← hsize, List.take_length] at hall
      rw [← hall, dataBits, List.getElem?_map, List.getElem?_range (by omega)]
      rfl
    rw [if_pos (show w.haveBits i from hlt.le), hbit]
    exact iff_of_true ⟨rfl, nofun, h, rfl⟩ hlt.ne
  · rw [if_pos (show w.haveBits w.size from le_refl w.size), List.getElem?_eq_none (le_of_eq hsize)]
    refine iff_of_false (fun hrefines => ?_) (not_not.2 rfl)
    have hreply : ((w.stream w.size).toNat : Int) = -1 := SliceReply.int.inj hrefines.reply
    omega
  · rw [if_neg (show ¬ w.haveBits i from Nat.not_le.2 hgt), List.getElem?_eq_none (by omega)]
    exact iff_of_true ⟨rfl, nofun, h, rfl⟩ hgt.ne'

omit [Digest] in
/-- `advance_ext` takes the word's halves the other way round. -/
theorem refines_advanceExtWord_iff (h : w.Good) {size : Nat} : Refines ((w.advanceExtWord size).map .flag id)
    (w.view.ifHas (extBits size) (extRefs size) (.flag true) (.flag false) (w.view.drop (extBits size) (extRefs size))) ↔
      extBits size = extRefs size ∨
        ¬ w.view.Has (extBits size) (extRefs size) ∧ ¬ w.view.Has (extRefs size) (extBits size) := by
  show Refines ((w.advanceExt (extRefs size) (extBits size)).map .flag id) _ ↔ _
  generalize extBits size = b
  generalize extRefs size = r
  have hcode := @refines_advanceExt w r b h
  by_cases heq : b = r
  · rw [heq] at hcode ⊢
    exact iff_of_true hcode (.inl rfl)
  · rw [or_iff_right heq]
    unfold CellSlice.ifHas at hcode ⊢
    by_cases hspec : w.view.Has b r
    · rw [if_pos hspec]
      refine iff_of_false (fun hrefines => ?_) fun hno => hno.1 hspec
      by_cases hswapped : w.view.Has r b
      · -- more of the one and less of the other is passed over
        rw [if_pos hswapped] at hcode
        have hlen := congrArg CellSlice.size (hcode.view.symm.trans hrefines.view)
        obtain ⟨hb, -⟩ := hspec
        obtain ⟨hr, -⟩ := hswapped
        unfold CellSlice.drop CellSlice.size at hlen
        unfold CellSlice.size at hb hr
        rw [List.length_drop, List.length_drop] at hlen
        omega
      · rw [if_neg hswapped] at hcode
        have hreply := hcode.reply.symm.trans hrefines.reply
        cases hreply
    · rw [if_neg hspec]
      by_cases hswapped : w.view.Has r b
      · rw [if_pos hswapped] at hcode
        refine iff_of_false (fun hrefines => ?_) fun hno => hno.2 hswapped
        have hreply := hcode.reply.symm.trans hrefines.reply
        cases hreply
      · rw [if_neg hswapped] at hcode
        exact iff_of_true hcode ⟨hspec, hswapped⟩

/-- An operation does to the code's slice what it does to the lists exactly where it is sound. -/
theorem refines_iff (h : w.Good) (op : SliceOp) : Refines (w.apply op) (w.view.apply op) ↔ op.Sound w.view := by
  cases op with
  | advance bits => exact iff_of_true (refines_advance h) trivial
  | advanceRefs refs =>
    refine iff_of_true (refines_ifHas h (fun _ hrefs => ?_) fun hno => ?_) trivial
    · obtain ⟨hgood, hview⟩ := h.dropRefs hrefs
      rw [CellWindow.apply, CellWindow.advanceRefs, if_pos (show w.haveRefs refs from hrefs)]
      exact ⟨rfl, nofun, hgood, hview⟩
    · rw [CellWindow.apply, CellWindow.advanceRefs, if_neg fun hhave => hno ⟨Nat.zero_le _, hhave⟩]
      exact ⟨rfl, nofun, h, rfl⟩
  | advanceExt bits refs => exact iff_of_true (refines_advanceExt h) trivial
  | advanceExtWord size => exact refines_advanceExtWord_iff h
  | skipFirst bits refs => exact iff_of_true (refines_advanceExt h) trivial
  | skipExt size => exact iff_of_true (refines_advanceExt h) trivial
  | skipLast bits refs => exact iff_of_true (refines_skipLast h) trivial
  | onlyFirst bits refs => exact iff_of_true (refines_onlyFirst h) trivial
  | onlyExt size => exact iff_of_true (refines_onlyFirst h) trivial
  | onlyLast bits refs => exact iff_of_true (refines_onlyLast h) trivial
  | fetchUlong bits => exact iff_of_true (refines_word h (fun hb h64 => h.fetchWord hb h64 false) fetchWord_eof) trivial
  | prefetchUlong bits => exact iff_of_true (refines_word h (fun hb h64 => h.prefetchWord hb h64 false) prefetchWord_eof) trivial
  | fetchLong bits => exact iff_of_true (refines_word h (fun hb h64 => h.fetchWord hb h64 true) fetchWord_eof) trivial
  | prefetchLong bits => exact iff_of_true (refines_word h (fun hb h64 => h.prefetchWord hb h64 true) prefetchWord_eof) trivial
  | fetchUlongBool bits => exact iff_of_true (refines_wordBool h fun hb h64 => h.fetchWord hb h64 false) trivial
  | prefetchUlongBool bits => exact iff_of_true (refines_wordBool h fun hb h64 => h.prefetchWord hb h64 false) trivial
  | fetchLongBool bits => exact iff_of_true (refines_wordBool h fun hb h64 => h.fetchWord hb h64 true) trivial
  | prefetchLongBool bits => exact iff_of_true (refines_wordBool h fun hb h64 => h.prefetchWord hb h64 true) trivial
  | prefetchUlongTop bits h64 => exact iff_of_true (refines_prefetchUlongTop h h64) trivial
  | fetchOctet => exact refines_fetchOctet_iff h
  | prefetchOctet => exact iff_of_true (refines_prefetchOctet h) trivial
  | bitAt i => exact refines_bitAt_iff h
  | fetchBits bits => exact iff_of_true (refines_fetchBits h) trivial
  | prefetchBits bits => exact iff_of_true (refines_prefetchBits h) trivial
  | fetchBytes bytes =>
    rw [CellWindow.apply, fetchBytes_eq]
    exact @refines_bytes_iff w h bytes (fun n => (w.fetchBits n).map .bits id) (fun n => w.view.drop n 0)
      fun n => refines_fetchBits h
  | prefetchBytes bytes =>
    rw [CellWindow.apply, prefetchBytes_eq]
    exact @refines_bytes_iff w h bytes (fun n => (.bits (w.prefetchBits n), w)) (fun _ => w.view)
      fun n => refines_prefetchBits h
  | fetchSubslice bits refs => exact iff_of_true (refines_fetchSubslice h) trivial
  | fetchSubsliceExt size => exact iff_of_true (refines_fetchSubslice h) trivial
  | prefetchSubslice bits refs => exact iff_of_true (refines_prefetchSubslice h) trivial
  | prefetchSubsliceExt size => exact iff_of_true (refines_prefetchSubslice h) trivial
  | fetchRef => exact iff_of_true (refines_fetchRef h) trivial
  | prefetchRef offset =>
    refine iff_of_true ⟨?_, nofun, h, rfl⟩ trivial
    rw [CellWindow.apply, prefetchRef_eq h]
    rfl
  | fetchMaybeRef => exact iff_of_true (refines_fetchMaybeRef h) trivial
  | prefetchMaybeRef => exact iff_of_true (refines_prefetchMaybeRef h) trivial

/-! ## Runs -/

omit [Digest] in
theorem good_ofCell {r : CellRef} {getData : Nat → UInt8} (hdata : ∀ i b, r.cell.data[i]? = some b → ReadAhead.byteBit getData i = b)
    (hsmall : r.cell.data.length ≤ maxBits) (z : BitVec 64) :
    (ofCell r getData z).Good ∧ (ofCell r getData z).view = .ofCell r := by
  have hends : (⟨r.virt, r.cell, getData, 0, 0, r.cell.data.length, r.cell.refs.length, 0, z, 0⟩ : CellWindow).Ends :=
    ⟨hdata, hsmall, Nat.zero_le _, le_refl _, Nat.zero_le _, le_refl _⟩
  have hview : (⟨r.virt, r.cell, getData, 0, 0, r.cell.data.length, r.cell.refs.length, 0, z, 0⟩ : CellWindow).view =
      .ofCell r := by
    unfold view CellSlice.ofCell size sizeRefs
    dsimp only
    rw [List.drop_zero, List.drop_zero, Nat.sub_zero, Nat.sub_zero, List.take_length, List.take_length]
  unfold ofCell
  dsimp only
  by_cases hzero : r.cell.data.length = 0
  · rw [if_neg (not_not.2 hzero)]
    have hsize : (⟨r.virt, r.cell, getData, 0, 0, r.cell.data.length, r.cell.refs.length, 0, z, 0⟩ : CellWindow).size = 0 :=
      hzero
    refine ⟨⟨⟨Nat.zero_le _, ?_, ?_⟩, hends⟩, hview⟩
    · rw [hsize, Nat.min_zero]
      exact ReadAhead.shows_zero
    · rw [hsize]
      exact fun hlt => absurd hlt (Nat.not_lt_zero _)
  · rw [if_pos hzero]
    obtain ⟨hgood, hsame⟩ := hends.initPreload
    exact ⟨hgood, hsame.trans hview⟩

/-- The slices that sound operations lead to from a loaded cell, or return, with the lists that they lead to. -/
inductive Obtained : CellWindow → CellSlice → Prop
  | load {r : CellRef} {getData : Nat → UInt8} (hdata : ∀ i b, r.cell.data[i]? = some b → ReadAhead.byteBit getData i = b)
      (hsmall : r.cell.data.length ≤ maxBits) (z : BitVec 64) : Obtained (ofCell r getData z) (.ofCell r)
  | op {w : CellWindow} {cs : CellSlice} (h : Obtained w cs) {op : SliceOp} (hsound : op.Sound cs) :
      Obtained (w.apply op).2 (cs.apply op).2
  | slice {w w' : CellWindow} {cs cs' : CellSlice} (h : Obtained w cs) {op : SliceOp} (hsound : op.Sound cs)
      (hw : (w.apply op).1 = .slice (some w')) (hcs : (cs.apply op).1 = .slice (some cs')) : Obtained w' cs'

/-- Sound operations keep a slice good, and to the same lists. -/
theorem Obtained.good {w : CellWindow} {cs : CellSlice} (h : Obtained w cs) : w.Good ∧ w.view = cs := by
  induction h with
  | load hdata hsmall z => exact good_ofCell hdata hsmall z
  | @op w cs _ op hsound ih =>
    obtain ⟨hgood, rfl⟩ := ih
    have hrefines := (refines_iff hgood op).2 hsound
    exact ⟨hrefines.good, hrefines.view⟩
  | @slice w w' cs cs' _ op hsound hw hcs ih =>
    obtain ⟨hgood, rfl⟩ := ih
    have hrefines := (refines_iff hgood op).2 hsound
    refine ⟨hrefines.slice w' hw, ?_⟩
    have hreply := hrefines.reply
    rw [hw, hcs] at hreply
    exact Option.some.inj (SliceReply.slice.inj hreply)

omit [Digest] in
/-- The window has the next bits at the top. -/
theorem Good.window (h : w.Good) {k : Nat} (hk : k < min w.zd w.view.size) : some (w.z.getMsbD k) = w.view.bits[k]? := by
  rw [size_view h.toEnds] at hk
  have hall := dataBits_eq h.toEnds (le_refl w.size)
  rw [← size_view h.toEnds, CellSlice.size, List.take_length] at hall
  rw [h.shows k hk, ← hall, dataBits, List.getElem?_map, List.getElem?_range ((lt_min_iff.1 hk).2.trans_le ?_)]
  · rfl
  · exact le_of_eq (size_view h.toEnds).symm

end Refines

namespace Sample

abbrev digest : Digest where
  sha256 _ := 0

/-- A cell of two bytes, with something behind them in memory. -/
def cell : CellRef := ⟨.mk false (natToBits 16 0xabcd) [], .none⟩

def memory : Nat → UInt8
  | 0 => 0xab
  | 1 => 0xcd
  | _ => 0xff

def slice : CellWindow := ofCell cell memory 0

theorem memory_cell : ∀ i b, cell.cell.data[i]? = some b → ReadAhead.byteBit memory i = b := by
  intro i b hb
  have hlt : i < 16 := (List.getElem?_eq_some_iff.1 hb).1
  have hall : ∀ i : Fin 16, cell.cell.data[i.val]? = some (ReadAhead.byteBit memory i.val) := by decide
  exact Option.some.inj ((hall ⟨i, hlt⟩).symm.trans hb)

theorem obtained : @Obtained digest slice (.ofCell cell) := @Obtained.load digest cell memory memory_cell (by decide) 0

end Sample

end CellWindow

end TonWallet.Vm
