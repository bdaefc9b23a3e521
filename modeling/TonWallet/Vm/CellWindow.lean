/-
How a cell slice reads its cell (`vm/cells/CellSlice`): the ends of what is left of it, and a word of bits that are read
ahead, which is refilled byte by byte, or four bytes at once, from a pointer into the data of the cell.
-/
import TonWallet.Lib.ReadAhead
import TonWallet.Vm.CellSlice

namespace TonWallet.Vm

open Lib TonWallet.Td TonWallet.Ton

/-- `CellSlice` with its window. The data of the cell is read as memory, where anything may be behind it. -/
structure CellWindow where
  virt : VirtParams
  cell : Cell
  getData : Nat → UInt8
  bitsSt : Nat
  refsSt : Nat
  bitsEn : Nat
  refsEn : Nat
  ptr : Nat
  z : BitVec 64
  zd : Nat

namespace CellWindow

def size (w : CellWindow) : Nat := w.bitsEn - w.bitsSt
def sizeRefs (w : CellWindow) : Nat := w.refsEn - w.refsSt
def haveBits (w : CellWindow) (bits : Nat) : Prop := bits ≤ w.size
def haveRefs (w : CellWindow) (refs : Nat) : Prop := refs ≤ w.sizeRefs
def have2 (w : CellWindow) (bits refs : Nat) : Prop := w.haveBits bits ∧ w.haveRefs refs

instance (w : CellWindow) (bits : Nat) : Decidable (w.haveBits bits) := inferInstanceAs (Decidable (bits ≤ w.size))
instance (w : CellWindow) (refs : Nat) : Decidable (w.haveRefs refs) := inferInstanceAs (Decidable (refs ≤ w.sizeRefs))
instance (w : CellWindow) (bits refs : Nat) : Decidable (w.have2 bits refs) := inferInstanceAs (Decidable (_ ∧ _))

/-! ## The window -/

/-- `init_preload`: the rest of the byte where the slice starts. -/
def initPreload (w : CellWindow) : CellWindow :=
  if w.bitsEn ≤ w.bitsSt then { w with zd := 0 }
  else
    let t := 8 - w.bitsSt % 8
    { w with ptr := w.bitsSt / 8 + 1, z := BitVec.ofNat 64 (w.getData (w.bitsSt / 8)).toNat <<< (64 - t), zd := min t w.size }

/-- `bswap32` of the four bytes at the pointer. -/
def fourBytes (w : CellWindow) : Nat :=
  (w.getData w.ptr).toNat * 2 ^ 24 + (w.getData (w.ptr + 1)).toNat * 2 ^ 16 + (w.getData (w.ptr + 2)).toNat * 2 ^ 8 +
    (w.getData (w.ptr + 3)).toNat

/-- The loop of `preload_at_least`. -/
def preloadBytes (w : CellWindow) (reqBits : Nat) (remain : Int) : CellWindow :=
  if w.zd < reqBits ∧ 0 < remain then
    if _hzd : 56 < w.zd then { w with z := w.z ||| BitVec.ofNat 64 ((w.getData w.ptr).toNat >>> (w.zd - 56)) }
    else
      let z := w.z ||| BitVec.ofNat 64 (w.getData w.ptr).toNat <<< (56 - w.zd)
      if remain ≤ 8 then { w with z := z, ptr := w.ptr + 1, zd := w.zd + remain.toNat }
      else preloadBytes { w with z := z, ptr := w.ptr + 1, zd := w.zd + 8 } reqBits (remain - 8)
  else w
termination_by 64 - w.zd

/-- `preload_at_least`. -/
def preloadAtLeast (w : CellWindow) (reqBits : Nat) : CellWindow :=
  if reqBits ≤ w.zd then w
  else
    let remain : Int := w.bitsEn - w.bitsSt - w.zd
    if w.zd ≤ 32 ∧ 24 < remain then
      let z := w.z ||| BitVec.ofNat 64 w.fourBytes <<< (32 - w.zd)
      if remain ≤ 32 then { w with z := z, ptr := w.ptr + 4, zd := w.zd + remain.toNat }
      else preloadBytes { w with z := z, ptr := w.ptr + 4, zd := w.zd + 32 } reqBits (remain - 32)
    else preloadBytes w reqBits remain

/-! ## What the window shows -/

/-- The bits of the cell from where the slice starts, and what is behind them in memory. -/
def stream (w : CellWindow) : Nat → Bool := fun k => ReadAhead.byteBit w.getData (w.bitsSt + k)

/-- The window shows what it counts, as far as the slice goes; while there is more of the slice, the pointer is at the
next byte, and what is in the word below the count is right as well. -/
structure Ahead (w : CellWindow) : Prop where
  zd_le : w.zd ≤ 64
  shows : ReadAhead.Shows w.stream w.z (min w.zd w.size)
  next : w.zd < w.size → 8 * w.ptr = w.bitsSt + w.zd ∧ ReadAhead.Below w.stream w.z

/-- The window of a slice is moved ahead, and nothing else. -/
structure Refilled (w w' : CellWindow) (reqBits : Nat) : Prop where
  same : w' = { w with ptr := w'.ptr, z := w'.z, zd := w'.zd }
  ahead : w'.Ahead
  shows : ReadAhead.Shows w.stream w'.z reqBits
  enough : reqBits ≤ 56 → reqBits ≤ w'.zd

variable {w : CellWindow} {reqBits : Nat}

/-- The rest of the byte where a slice starts. -/
theorem ahead_initPreload (w : CellWindow) : w.initPreload.Ahead := by
  unfold initPreload
  split
  · next h =>
    have hsize : w.size = 0 := Nat.sub_eq_zero_of_le h
    refine ⟨Nat.zero_le _, ?_, ?_⟩
    · show ReadAhead.Shows _ _ (min 0 _)
      rw [Nat.zero_min]
      exact ReadAhead.shows_zero
    · intro hlt
      have hlt : 0 < w.size := hlt
      omega
  · next h =>
    have hfills : ReadAhead.Fills w.stream (BitVec.ofNat 64 (w.getData (w.bitsSt / 8)).toNat <<< (64 - (8 - w.bitsSt % 8))) 0
        (8 - w.bitsSt % 8) := by
      refine ReadAhead.fills_ofNat (by omega) (.inl rfl) fun j hj => ?_
      rw [show 8 - w.bitsSt % 8 - 1 - j = 7 - (w.bitsSt % 8 + j) by omega, ReadAhead.testBit_byte w.getData (by omega)]
      exact congrArg (ReadAhead.byteBit w.getData) (by omega)
    refine ⟨?_, hfills.shows.mono ?_, ?_⟩
    · show min (8 - w.bitsSt % 8) w.size ≤ 64
      omega
    · show min (min (8 - w.bitsSt % 8) w.size) w.size ≤ _
      omega
    · intro hlt
      have hlt : min (8 - w.bitsSt % 8) w.size < w.size := hlt
      refine ⟨?_, hfills.below⟩
      show 8 * (w.bitsSt / 8 + 1) = w.bitsSt + min (8 - w.bitsSt % 8) w.size
      omega

theorem same_initPreload (w : CellWindow) :
    w.initPreload = { w with ptr := w.initPreload.ptr, z := w.initPreload.z, zd := w.initPreload.zd } := by
  unfold initPreload
  split <;> rfl

/-- The next byte of the cell, put behind what is counted. -/
theorem fills_byte (hzd : w.zd ≤ 56) (hptr : 8 * w.ptr = w.bitsSt + w.zd) :
    ReadAhead.Fills w.stream (BitVec.ofNat 64 (w.getData w.ptr).toNat <<< (56 - w.zd)) w.zd 8 := by
  refine ReadAhead.fills_ofNat (by omega) (.inr (UInt8.toNat_lt _)) fun j hj => ?_
  rw [ReadAhead.testBit_byte w.getData (by omega), stream, hptr, Nat.add_assoc]

/-- The next four bytes. -/
theorem fills_fourBytes (hzd : w.zd ≤ 32) (hptr : 8 * w.ptr = w.bitsSt + w.zd) :
    ReadAhead.Fills w.stream (BitVec.ofNat 64 w.fourBytes <<< (32 - w.zd)) w.zd 32 := by
  have hbyte (j : Nat) : (w.getData (w.ptr + j)).toNat < 2 ^ 8 := UInt8.toNat_lt _
  refine ReadAhead.fills_ofNat (by omega) (.inr ?_) fun j hj => ?_
  · have h0 := hbyte 0
    have h1 := hbyte 1
    have h2 := hbyte 2
    have h3 := hbyte 3
    rw [Nat.add_zero] at h0
    unfold fourBytes
    omega
  · rw [fourBytes, ReadAhead.testBit_fourBytes w.getData (by omega), stream, hptr, Nat.add_assoc]

/-- A refill with the rest of the slice. -/
theorem refilled_rest {y : BitVec 64} {m : Nat} {remain : Int} (hremain : remain = w.size - w.zd) (hpos : 0 ≤ remain)
    (hreq : reqBits ≤ w.size) (hsize : w.size ≤ 64) (hm : remain ≤ m) (hshows : ReadAhead.Shows w.stream w.z w.zd)
    (hbelow : ReadAhead.Below w.stream w.z) (hy : ReadAhead.Fills w.stream y w.zd m) (p : Nat) :
    Refilled w { w with z := w.z ||| y, ptr := p, zd := w.zd + remain.toNat } reqBits := by
  have hall := hshows.or hbelow hy
  have hzd : w.zd + remain.toNat = w.size := by omega
  rw [hzd]
  refine ⟨rfl, ⟨hsize, hall.mono ?_, fun hlt => absurd hlt (lt_irrefl w.size)⟩, hall.mono (by omega), fun _ => hreq⟩
  show min w.size w.size ≤ w.zd + m
  omega

/-- One after another refill. -/
theorem Refilled.trans {w₁ w' : CellWindow} (h : w₁ = { w with ptr := w₁.ptr, z := w₁.z, zd := w₁.zd })
    (h' : Refilled w₁ w' reqBits) : Refilled w w' reqBits := by
  obtain ⟨hsame, hahead, hshows, henough⟩ := h'
  have hstream : w₁.stream = w.stream := by rw [h]; rfl
  refine ⟨?_, hahead, hstream ▸ hshows, henough⟩
  rw [hsame, h]

/-- Refilling byte by byte. -/
theorem refilled_preloadBytes {remain : Int} (hremain : remain = w.size - w.zd) (hpos : 0 ≤ remain) (hreq : reqBits ≤ w.size)
    (hreq64 : reqBits ≤ 64) (hzd : w.zd ≤ 64) (hshows : ReadAhead.Shows w.stream w.z w.zd)
    (hnext : 0 < remain → 8 * w.ptr = w.bitsSt + w.zd ∧ ReadAhead.Below w.stream w.z) :
    Refilled w (w.preloadBytes reqBits remain) reqBits := by
  fun_induction preloadBytes w reqBits remain with
  | case1 w remain h hlarge =>
    obtain ⟨hptr, hbelow⟩ := hnext h.2
    have hfills : ReadAhead.Fills w.stream (BitVec.ofNat 64 ((w.getData w.ptr).toNat >>> (w.zd - 56)) <<< 0) w.zd (64 - w.zd) := by
      have hbyte : (w.getData w.ptr).toNat < 2 ^ 8 := UInt8.toNat_lt _
      refine ReadAhead.fills_ofNat (by omega) (.inr ?_) fun j hj => ?_
      · rw [Nat.shiftRight_eq_div_pow, Nat.div_lt_iff_lt_mul (Nat.two_pow_pos _), ← Nat.pow_add]
        exact hbyte.trans_le (Nat.pow_le_pow_right (by decide) (by omega))
      · rw [Nat.testBit_shiftRight, show w.zd - 56 + (64 - w.zd - 1 - j) = 7 - j by omega,
          ReadAhead.testBit_byte w.getData (by omega), stream, hptr, Nat.add_assoc]
    rw [BitVec.shiftLeft_zero] at hfills
    have hall := hshows.or hbelow hfills
    rw [Nat.add_sub_cancel' hzd] at hall
    exact ⟨rfl, ⟨hzd, hall.mono ((min_le_left _ _).trans hzd), fun _ => ⟨hptr, hbelow.or hfills.below⟩⟩, hall.mono hreq64,
      fun hsmall => by omega⟩
  | case2 w remain h hsmall z hlast =>
    obtain ⟨hptr, hbelow⟩ := hnext h.2
    exact refilled_rest hremain hpos hreq (by omega) hlast hshows hbelow (fills_byte (by omega) hptr) (w.ptr + 1)
  | case3 w remain h hsmall z hlast ih =>
    obtain ⟨hptr, hbelow⟩ := hnext h.2
    have hfills := fills_byte (by omega) hptr
    refine Refilled.trans rfl (ih ?_ ?_ hreq ?_ (hshows.or hbelow hfills) fun _ => ⟨?_, hbelow.or hfills.below⟩)
    · show remain - 8 = w.size - (w.zd + 8 : Nat)
      omega
    · omega
    · show w.zd + 8 ≤ 64
      omega
    · show 8 * (w.ptr + 1) = w.bitsSt + (w.zd + 8)
      omega
  | case4 w remain h =>
    refine ⟨rfl, ⟨hzd, hshows.mono (min_le_left _ _), ?_⟩, hshows.mono ?_, fun _ => ?_⟩
    · intro hlt
      exact hnext (by omega)
    · by_contra hlt
      exact h ⟨by omega, by omega⟩
    · by_contra hlt
      exact h ⟨by omega, by omega⟩

/-- A window that shows enough, or is refilled until it does. -/
theorem refilled_preloadAtLeast (h : w.Ahead) (hreq : reqBits ≤ w.size) (hreq64 : reqBits ≤ 64) :
    Refilled w (w.preloadAtLeast reqBits) reqBits := by
  obtain ⟨hzd, hshows, hnext⟩ := h
  unfold preloadAtLeast
  by_cases henough : reqBits ≤ w.zd
  · rw [if_pos henough]
    exact ⟨rfl, ⟨hzd, hshows, hnext⟩, hshows.mono (le_min henough hreq), fun _ => henough⟩
  · rw [if_neg henough]
    have hlt : w.zd < w.size := by omega
    obtain ⟨hptr, hbelow⟩ := hnext hlt
    rw [min_eq_left (by omega)] at hshows
    have hends : (w.bitsEn : Int) - w.bitsSt - w.zd = w.size - w.zd := by
      unfold size at hlt ⊢
      omega
    dsimp only
    rw [hends]
    by_cases hfour : w.zd ≤ 32 ∧ 24 < (w.size : Int) - w.zd
    · rw [if_pos hfour]
      have hfills := fills_fourBytes hfour.1 hptr
      by_cases hlast : (w.size : Int) - w.zd ≤ 32
      · rw [if_pos hlast]
        exact refilled_rest rfl (by omega) hreq (by omega) hlast hshows hbelow hfills (w.ptr + 4)
      · rw [if_neg hlast]
        refine Refilled.trans rfl (refilled_preloadBytes ?_ ?_ hreq hreq64 ?_ (hshows.or hbelow hfills)
          fun _ => ⟨?_, hbelow.or hfills.below⟩)
        · show (w.size : Int) - w.zd - 32 = w.size - (w.zd + 32 : Nat)
          omega
        · omega
        · show w.zd + 32 ≤ 64
          omega
        · show 8 * (w.ptr + 4) = w.bitsSt + (w.zd + 32)
          omega
    · rw [if_neg hfour]
      exact refilled_preloadBytes rfl (by omega) hreq hreq64 hzd hshows fun _ => ⟨hptr, hbelow⟩

end CellWindow

end TonWallet.Vm
