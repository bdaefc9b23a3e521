/-
What the operations of a cell slice do: to the bits and references that are left, as lists, and in the code, which keeps
the ends of both and a window of bits that are read ahead.
-/
import TonWallet.Vm.CellWindow

namespace TonWallet.Vm

open Lib TonWallet.Td TonWallet.Ton

/-! ## Operations -/

/-- A number of up to 64 bits, with its sign or without. -/
def wordOf (sgnd : Bool) (bits : List Bool) : BitVec 64 :=
  if sgnd then (BitVec.ofNat bits.length (bitsToNat bits)).signExtend 64 else BitVec.ofNat 64 (bitsToNat bits)

/-- `fetch_ulong_eof` and `fetch_long_eof`. -/
def fetchEof (sgnd : Bool) : BitVec 64 := if sgnd then BitVec.intMin 64 else BitVec.allOnes 64

/-- The operations on a slice. -/
inductive SliceOp
  | advance (bits : Nat)
  | advanceRefs (refs : Nat)
  | advanceExt (bits refs : Nat)
  | advanceExtWord (bitsRefs : Nat)
  | skipFirst (bits refs : Nat)
  | skipExt (size : Nat)
  | skipLast (bits refs : Nat)
  | onlyFirst (bits refs : Nat)
  | onlyExt (size : Nat)
  | onlyLast (bits refs : Nat)
  | fetchUlong (bits : Nat)
  | prefetchUlong (bits : Nat)
  | fetchLong (bits : Nat)
  | prefetchLong (bits : Nat)
  | fetchUlongBool (bits : Nat)
  | prefetchUlongBool (bits : Nat)
  | fetchLongBool (bits : Nat)
  | prefetchLongBool (bits : Nat)
  | prefetchUlongTop (bits : Nat) (h : bits ≤ 64)
  | fetchOctet
  | prefetchOctet
  | bitAt (i : Nat)
  | fetchBits (bits : Nat)
  | prefetchBits (bits : Nat)
  | fetchBytes (bytes : Nat)
  | prefetchBytes (bytes : Nat)
  | fetchSubslice (bits refs : Nat)
  | fetchSubsliceExt (size : Nat)
  | prefetchSubslice (bits refs : Nat)
  | prefetchSubsliceExt (size : Nat)
  | fetchRef
  | prefetchRef (offset : Nat)
  | fetchMaybeRef
  | prefetchMaybeRef

/-- What an operation returns, with slices of the type `σ`. -/
inductive SliceReply (σ : Type)
  | flag (b : Bool)
  | word (v : BitVec 64)
  | maybeWord (v : Option (BitVec 64))
  | top (bits : Nat) (v : BitVec 64)
  | int (v : Int)
  | bits (v : Option (List Bool))
  | slice (s : Option σ)
  | ref (r : Option CellRef)
  | maybeRef (r : Option (Option CellRef))

/-- The slices of a reply, seen otherwise. -/
def SliceReply.map {σ τ : Type} (f : σ → τ) : SliceReply σ → SliceReply τ
  | .flag b => .flag b
  | .word v => .word v
  | .maybeWord v => .maybeWord v
  | .top n v => .top n v
  | .int v => .int v
  | .bits v => .bits v
  | .slice s => .slice (s.map f)
  | .ref r => .ref r
  | .maybeRef r => .maybeRef r

/-- A word with the number of references above that of bits, as `size_ext` makes it. -/
def extBits (size : Nat) : Nat := size % 2 ^ 16
def extRefs (size : Nat) : Nat := size / 2 ^ 16

/-! ## On lists -/

namespace CellSlice

def Has (cs : CellSlice) (bits refs : Nat) : Prop := bits ≤ cs.size ∧ refs ≤ cs.sizeRefs

instance (cs : CellSlice) (bits refs : Nat) : Decidable (cs.Has bits refs) := inferInstanceAs (Decidable (_ ∧ _))

def drop (cs : CellSlice) (bits refs : Nat) : CellSlice := { cs with bits := cs.bits.drop bits, refs := cs.refs.drop refs }
def take (cs : CellSlice) (bits refs : Nat) : CellSlice := { cs with bits := cs.bits.take bits, refs := cs.refs.take refs }

/-- What is done when a slice has so much, and otherwise nothing but to say so. -/
def ifHas (cs : CellSlice) (bits refs : Nat) (yes no : SliceReply CellSlice) (cs' : CellSlice) :
    SliceReply CellSlice × CellSlice :=
  if cs.Has bits refs then (yes, cs') else (no, cs)

/-- A number is taken, or read. -/
def word (cs : CellSlice) (sgnd : Bool) (bits : Nat) (cs' : CellSlice) : SliceReply CellSlice × CellSlice :=
  if bits ≤ 64 then cs.ifHas bits 0 (.word (wordOf sgnd (cs.bits.take bits))) (.word (fetchEof sgnd)) cs'
  else (.word (fetchEof sgnd), cs)

def wordBool (cs : CellSlice) (sgnd : Bool) (bits : Nat) (cs' : CellSlice) : SliceReply CellSlice × CellSlice :=
  if bits ≤ 64 then cs.ifHas bits 0 (.maybeWord (some (wordOf sgnd (cs.bits.take bits)))) (.maybeWord none) cs'
  else (.maybeWord none, cs)

variable [Digest]

/-- A bit that says whether a reference is there, and the reference. -/
def maybeRef (cs : CellSlice) (next : Nat → CellSlice) : SliceReply CellSlice × CellSlice :=
  match cs.bits.head? with
  | none => (.maybeRef none, cs)
  | some false => (.maybeRef (some none), next 0)
  | some true => cs.ifHas 1 1 (.maybeRef (some (cs.prefetchRef 0))) (.maybeRef none) (next 1)

/-- An operation on the bits and references that are left. -/
def apply (cs : CellSlice) : SliceOp → SliceReply CellSlice × CellSlice
  | .advance bits => cs.ifHas bits 0 (.flag true) (.flag false) (cs.drop bits 0)
  | .advanceRefs refs => cs.ifHas 0 refs (.flag true) (.flag false) (cs.drop 0 refs)
  | .advanceExt bits refs | .skipFirst bits refs => cs.ifHas bits refs (.flag true) (.flag false) (cs.drop bits refs)
  | .advanceExtWord size | .skipExt size =>
    cs.ifHas (extBits size) (extRefs size) (.flag true) (.flag false) (cs.drop (extBits size) (extRefs size))
  | .skipLast bits refs =>
    cs.ifHas bits refs (.flag true) (.flag false) (cs.take (cs.size - bits) (cs.sizeRefs - refs))
  | .onlyFirst bits refs => cs.ifHas bits refs (.flag true) (.flag false) (cs.take bits refs)
  | .onlyExt size =>
    cs.ifHas (extBits size) (extRefs size) (.flag true) (.flag false) (cs.take (extBits size) (extRefs size))
  | .onlyLast bits refs =>
    cs.ifHas bits refs (.flag true) (.flag false) (cs.drop (cs.size - bits) (cs.sizeRefs - refs))
  | .fetchUlong bits => cs.word false bits (cs.drop bits 0)
  | .prefetchUlong bits => cs.word false bits cs
  | .fetchLong bits => cs.word true bits (cs.drop bits 0)
  | .prefetchLong bits => cs.word true bits cs
  | .fetchUlongBool bits => cs.wordBool false bits (cs.drop bits 0)
  | .prefetchUlongBool bits => cs.wordBool false bits cs
  | .fetchLongBool bits => cs.wordBool true bits (cs.drop bits 0)
  | .prefetchLongBool bits => cs.wordBool true bits cs
  | .prefetchUlongTop bits _ => (.top (min bits cs.size) (wordOf false (cs.bits.take bits)), cs)
  | .fetchOctet => cs.ifHas 8 0 (.int (bitsToNat (cs.bits.take 8))) (.int (-1)) (cs.drop 8 0)
  | .prefetchOctet => cs.ifHas 8 0 (.int (bitsToNat (cs.bits.take 8))) (.int (-1)) cs
  | .bitAt i => (.int (match cs.bits[i]? with
      | some b => b.toNat
      | none => -1), cs)
  | .fetchBits bits => cs.ifHas bits 0 (.bits (some (cs.bits.take bits))) (.bits none) (cs.drop bits 0)
  | .prefetchBits bits => cs.ifHas bits 0 (.bits (some (cs.bits.take bits))) (.bits none) cs
  | .fetchBytes bytes =>
    cs.ifHas (bytes * 8) 0 (.bits (some (cs.bits.take (bytes * 8)))) (.bits none) (cs.drop (bytes * 8) 0)
  | .prefetchBytes bytes => cs.ifHas (bytes * 8) 0 (.bits (some (cs.bits.take (bytes * 8)))) (.bits none) cs
  | .fetchSubslice bits refs => cs.ifHas bits refs (.slice (some (cs.take bits refs))) (.slice none) (cs.drop bits refs)
  | .fetchSubsliceExt size => cs.ifHas (extBits size) (extRefs size)
      (.slice (some (cs.take (extBits size) (extRefs size)))) (.slice none) (cs.drop (extBits size) (extRefs size))
  | .prefetchSubslice bits refs => cs.ifHas bits refs (.slice (some (cs.take bits refs))) (.slice none) cs
  | .prefetchSubsliceExt size => cs.ifHas (extBits size) (extRefs size)
      (.slice (some (cs.take (extBits size) (extRefs size)))) (.slice none) cs
  | .fetchRef => cs.ifHas 0 1 (.ref (cs.prefetchRef 0)) (.ref none) (cs.drop 0 1)
  | .prefetchRef offset => (.ref (cs.prefetchRef offset), cs)
  | .fetchMaybeRef => cs.maybeRef (cs.drop 1)
  | .prefetchMaybeRef => cs.maybeRef fun _ => cs

end CellSlice

/-! ## In the code -/

namespace CellWindow

/-- A slice of a loaded cell, whose data is somewhere in memory; its word is not set before something is read. -/
def ofCell (r : CellRef) (getData : Nat → UInt8) (z : BitVec 64) : CellWindow :=
  let w : CellWindow := ⟨r.virt, r.cell, getData, 0, 0, r.cell.data.length, r.cell.refs.length, 0, z, 0⟩
  if w.bitsEn ≠ 0 then w.initPreload else w

/-- `advance`. -/
def advance (w : CellWindow) (bits : Nat) : Bool × CellWindow :=
  if w.haveBits bits then
    let w := { w with bitsSt := w.bitsSt + bits }
    if w.zd ≤ bits then (true, w.initPreload) else (true, { w with zd := w.zd - bits, z := w.z <<< bits })
  else (false, w)

/-- `advance_refs`. -/
def advanceRefs (w : CellWindow) (refs : Nat) : Bool × CellWindow :=
  if w.haveRefs refs then (true, { w with refsSt := w.refsSt + refs }) else (false, w)

/-- `advance_ext`. -/
def advanceExt (w : CellWindow) (bits refs : Nat) : Bool × CellWindow :=
  if w.have2 bits refs then advance { w with refsSt := w.refsSt + refs } bits else (false, w)

/-- `advance_ext` of one word. -/
def advanceExtWord (w : CellWindow) (bitsRefs : Nat) : Bool × CellWindow :=
  w.advanceExt (bitsRefs / 2 ^ 16) (bitsRefs % 2 ^ 16)

/-- `skip_first`. -/
def skipFirst (w : CellWindow) (bits refs : Nat) : Bool × CellWindow :=
  if w.have2 bits refs then advance { w with refsSt := w.refsSt + refs } bits else (false, w)

/-- `skip_last`. -/
def skipLast (w : CellWindow) (bits refs : Nat) : Bool × CellWindow :=
  if w.have2 bits refs then (true, { w with bitsEn := w.bitsEn - bits, refsEn := w.refsEn - refs }) else (false, w)

/-- `only_first`. -/
def onlyFirst (w : CellWindow) (bits refs : Nat) : Bool × CellWindow :=
  if w.have2 bits refs then (true, { w with bitsEn := w.bitsSt + bits, refsEn := w.refsSt + refs }) else (false, w)

def skipExt (w : CellWindow) (size : Nat) : Bool × CellWindow := w.skipFirst (extBits size) (extRefs size)
def onlyExt (w : CellWindow) (size : Nat) : Bool × CellWindow := w.onlyFirst (extBits size) (extRefs size)

/-- `only_last`. -/
def onlyLast (w : CellWindow) (bits refs : Nat) : Bool × CellWindow :=
  if w.have2 bits refs then advance { w with refsSt := w.refsEn - refs } (w.size - bits) else (false, w)

/-- The first bits of the window as a number. -/
def topBits (w : CellWindow) (sgnd : Bool) (bits : Nat) : BitVec 64 :=
  if sgnd then w.z.sshiftRight (64 - bits) else w.z >>> (64 - bits)

/-- Bits are taken from the window. -/
def shiftOut (w : CellWindow) (bits : Nat) : CellWindow := { w with z := w.z <<< bits, zd := w.zd - bits }

/-- `fetch_ulong` and `fetch_long`. -/
def fetchWord (w : CellWindow) (sgnd : Bool) (bits : Nat) : BitVec 64 × CellWindow :=
  if ¬ w.haveBits bits ∨ 64 < bits then (fetchEof sgnd, w)
  else if bits = 0 then (0, w)
  else
    let w := w.preloadAtLeast bits
    if bits ≤ 56 then (w.topBits sgnd bits, { w.shiftOut bits with bitsSt := w.bitsSt + bits })
    else (w.topBits sgnd bits, (w.advance bits).2)

/-- `prefetch_ulong` and `prefetch_long`. -/
def prefetchWord (w : CellWindow) (sgnd : Bool) (bits : Nat) : BitVec 64 × CellWindow :=
  if ¬ w.haveBits bits ∨ 64 < bits then (fetchEof sgnd, w)
  else if bits = 0 then (0, w)
  else
    let w := w.preloadAtLeast bits
    (w.topBits sgnd bits, w)

/-- `fetch_ulong_bool` and `fetch_long_bool`. -/
def fetchWordBool (w : CellWindow) (sgnd : Bool) (bits : Nat) : Option (BitVec 64) × CellWindow :=
  if 64 < bits ∨ ¬ w.haveBits bits then (none, w)
  else
    let (v, w) := w.fetchWord sgnd bits
    (some v, w)

/-- `prefetch_ulong_bool` and `prefetch_long_bool`. -/
def prefetchWordBool (w : CellWindow) (sgnd : Bool) (bits : Nat) : Option (BitVec 64) × CellWindow :=
  if 64 < bits ∨ ¬ w.haveBits bits then (none, w)
  else
    let (v, w) := w.prefetchWord sgnd bits
    (some v, w)

def fetchUlong (w : CellWindow) (bits : Nat) : BitVec 64 × CellWindow := w.fetchWord false bits
def fetchLong (w : CellWindow) (bits : Nat) : BitVec 64 × CellWindow := w.fetchWord true bits
def prefetchUlong (w : CellWindow) (bits : Nat) : BitVec 64 × CellWindow := w.prefetchWord false bits
def prefetchLong (w : CellWindow) (bits : Nat) : BitVec 64 × CellWindow := w.prefetchWord true bits
def fetchUlongBool (w : CellWindow) (bits : Nat) : Option (BitVec 64) × CellWindow := w.fetchWordBool false bits
def fetchLongBool (w : CellWindow) (bits : Nat) : Option (BitVec 64) × CellWindow := w.fetchWordBool true bits
def prefetchUlongBool (w : CellWindow) (bits : Nat) : Option (BitVec 64) × CellWindow := w.prefetchWordBool false bits
def prefetchLongBool (w : CellWindow) (bits : Nat) : Option (BitVec 64) × CellWindow := w.prefetchWordBool true bits

/-- `prefetch_ulong_top`: how many bits there are, and the window. -/
def prefetchUlongTop (w : CellWindow) (bits : Nat) : (Nat × BitVec 64) × CellWindow :=
  let bits := if w.size < bits then w.size else bits
  if bits = 0 then ((0, 0), w)
  else
    let w := w.preloadAtLeast bits
    ((bits, w.z), w)

/-- `prefetch_octet`. -/
def prefetchOctet (w : CellWindow) : Int × CellWindow :=
  if ¬ w.haveBits 8 then (-1, w)
  else
    let w := w.preloadAtLeast 8
    ((w.z >>> 56).toNat, w)

/-- `fetch_octet`. -/
def fetchOctet (w : CellWindow) : Int × CellWindow :=
  if ¬ w.haveBits 8 then (-1, w)
  else
    let w := w.preloadAtLeast 8
    ((w.z >>> 56).toNat, w.shiftOut 8)

/-- `bit_at`. -/
def bitAt (w : CellWindow) (i : Nat) : Int := if w.haveBits i then (w.stream i).toNat else -1

/-- The bits of the cell from where the slice starts. -/
def dataBits (w : CellWindow) (bits : Nat) : List Bool := (List.range bits).map w.stream

/-- `prefetch_bits`. -/
def prefetchBits (w : CellWindow) (bits : Nat) : Option (List Bool) := if ¬ w.haveBits bits then none else some (w.dataBits bits)

/-- `fetch_bits`. -/
def fetchBits (w : CellWindow) (bits : Nat) : Option (List Bool) × CellWindow :=
  if ¬ w.haveBits bits then (none, w) else (some (w.dataBits bits), (w.advance bits).2)

/-- The number of bits in so many bytes, as an `unsigned`. -/
def bytesBits (bytes : Nat) : Nat := bytes * 8 % 2 ^ 32

/-- `prefetch_bytes`. -/
def prefetchBytes (w : CellWindow) (bytes : Nat) : Option (List Bool) :=
  if ¬ w.haveBits (bytesBits bytes) then none else w.prefetchBits (bytesBits bytes)

/-- `fetch_bytes`. -/
def fetchBytes (w : CellWindow) (bytes : Nat) : Option (List Bool) × CellWindow :=
  match w.prefetchBytes bytes with
  | some bits => (some bits, (w.advance (bytesBits bytes)).2)
  | none => (none, w)

/-- The slice of the first bits and references. -/
def first (w : CellWindow) (bits refs : Nat) : CellWindow :=
  let w := { w with bitsEn := w.bitsSt + bits, refsEn := w.refsSt + refs, ptr := 0, zd := 0 }
  if bits ≠ 0 then w.initPreload else w

/-- `prefetch_subslice`. -/
def prefetchSubslice (w : CellWindow) (bits refs : Nat) : Option CellWindow :=
  if ¬ w.have2 bits refs then none else some (w.first bits refs)

/-- `fetch_subslice`. -/
def fetchSubslice (w : CellWindow) (bits refs : Nat) : Option CellWindow × CellWindow :=
  if ¬ w.have2 bits refs then (none, w) else (some (w.first bits refs), ((w.advance bits).2.advanceRefs refs).2)

def fetchSubsliceExt (w : CellWindow) (size : Nat) : Option CellWindow × CellWindow :=
  w.fetchSubslice (extBits size) (extRefs size)

def prefetchSubsliceExt (w : CellWindow) (size : Nat) : Option CellWindow := w.prefetchSubslice (extBits size) (extRefs size)

def childVirt (w : CellWindow) : VirtParams := (CellSlice.ofCell ⟨w.cell, w.virt⟩).childVirt

variable [Digest]

/-- A reference of the cell, virtualized as its parent is. -/
def getRef (w : CellWindow) (refId : Nat) : Option CellRef := w.cell.refs[refId]?.map fun c => CellRef.virtualize ⟨c, .none⟩ w.childVirt

/-- `prefetch_ref`. -/
def prefetchRef (w : CellWindow) (offset : Nat) : Option CellRef :=
  if offset < w.sizeRefs then w.getRef (w.refsSt + offset) else none

/-- `fetch_ref`. -/
def fetchRef (w : CellWindow) : Option CellRef × CellWindow :=
  if w.haveRefs 1 then (w.getRef w.refsSt, { w with refsSt := w.refsSt + 1 }) else (none, w)

/-- `prefetch_maybe_ref`. -/
def prefetchMaybeRef (w : CellWindow) : Option (Option CellRef) × CellWindow :=
  let (z, w) := w.prefetchUlong 1
  if z = 0 then (some none, w)
  else if z = 1 then
    match w.prefetchRef 0 with
    | some r => (some (some r), w)
    | none => (none, w)
  else (none, w)

/-- `fetch_maybe_ref`. -/
def fetchMaybeRef (w : CellWindow) : Option (Option CellRef) × CellWindow :=
  let (z, w) := w.prefetchUlong 1
  if z = 0 then
    let (ok, w) := w.advance 1
    (if ok then some none else none, w)
  else if z = 1 then
    match w.prefetchRef 0 with
    | some r =>
      let (ok, w) := w.advanceExt 1 1
      (if ok then some (some r) else none, w)
    | none => (none, w)
  else (none, w)

/-- An operation on the code's slice. -/
def apply (w : CellWindow) : SliceOp → SliceReply CellWindow × CellWindow
  | .advance bits => (w.advance bits).map .flag id
  | .advanceRefs refs => (w.advanceRefs refs).map .flag id
  | .advanceExt bits refs => (w.advanceExt bits refs).map .flag id
  | .advanceExtWord bitsRefs => (w.advanceExtWord bitsRefs).map .flag id
  | .skipFirst bits refs => (w.skipFirst bits refs).map .flag id
  | .skipExt size => (w.skipExt size).map .flag id
  | .skipLast bits refs => (w.skipLast bits refs).map .flag id
  | .onlyFirst bits refs => (w.onlyFirst bits refs).map .flag id
  | .onlyExt size => (w.onlyExt size).map .flag id
  | .onlyLast bits refs => (w.onlyLast bits refs).map .flag id
  | .fetchUlong bits => (w.fetchUlong bits).map .word id
  | .prefetchUlong bits => (w.prefetchUlong bits).map .word id
  | .fetchLong bits => (w.fetchLong bits).map .word id
  | .prefetchLong bits => (w.prefetchLong bits).map .word id
  | .fetchUlongBool bits => (w.fetchUlongBool bits).map .maybeWord id
  | .prefetchUlongBool bits => (w.prefetchUlongBool bits).map .maybeWord id
  | .fetchLongBool bits => (w.fetchLongBool bits).map .maybeWord id
  | .prefetchLongBool bits => (w.prefetchLongBool bits).map .maybeWord id
  -- the caller looks at as many bits of the window as it is told
  | .prefetchUlongTop bits _ => (w.prefetchUlongTop bits).map (fun r : Nat × BitVec 64 => .top r.1 (r.2 >>> (64 - r.1))) id
  | .fetchOctet => w.fetchOctet.map .int id
  | .prefetchOctet => w.prefetchOctet.map .int id
  | .bitAt i => (.int (w.bitAt i), w)
  | .fetchBits bits => (w.fetchBits bits).map .bits id
  | .prefetchBits bits => (.bits (w.prefetchBits bits), w)
  | .fetchBytes bytes => (w.fetchBytes bytes).map .bits id
  | .prefetchBytes bytes => (.bits (w.prefetchBytes bytes), w)
  | .fetchSubslice bits refs => (w.fetchSubslice bits refs).map .slice id
  | .fetchSubsliceExt size => (w.fetchSubsliceExt size).map .slice id
  | .prefetchSubslice bits refs => (.slice (w.prefetchSubslice bits refs), w)
  | .prefetchSubsliceExt size => (.slice (w.prefetchSubsliceExt size), w)
  | .fetchRef => w.fetchRef.map .ref id
  | .prefetchRef offset => (.ref (w.prefetchRef offset), w)
  | .fetchMaybeRef => w.fetchMaybeRef.map .maybeRef id
  | .prefetchMaybeRef => w.prefetchMaybeRef.map .maybeRef id

end CellWindow

/-- Where an operation does to the code's slice what it does to the lists. -/
def SliceOp.Sound (cs : CellSlice) : SliceOp → Prop
  -- the start is not moved
  | .fetchOctet => cs.size < 8
  -- the halves of the word are taken the other way round
  | .advanceExtWord size => extBits size = extRefs size ∨
      ¬ cs.Has (extBits size) (extRefs size) ∧ ¬ cs.Has (extRefs size) (extBits size)
  -- the bit behind the last one is read
  | .bitAt i => i ≠ cs.size
  -- the number of bits is cut off
  | .fetchBytes bytes | .prefetchBytes bytes => bytes * 8 < 2 ^ 32 ∨ cs.size < bytes * 8 % 2 ^ 32
  | _ => True

end TonWallet.Vm
