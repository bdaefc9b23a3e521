/-
Cell slices (`vm/cells/CellSlice`): the unread bits and references of a loaded cell, the two ways a
cell is loaded (a special or pruned cell throws, or the caller asked for it without exceptions), the
fetching operations the generated TL-B code is made of, and `MerkleProof::virtualize`.
-/
import TonWallet.Vm.Cell

namespace TonWallet.Vm

open Lib TonWallet.Td TonWallet.Ton

structure CellSlice where
  virt : VirtParams
  cell : Cell
  bits : List Bool
  refs : List Cell

namespace CellSlice

/-- A slice at the start of a loaded cell. -/
def ofCell (r : CellRef) : CellSlice := ⟨r.virt, r.cell, r.cell.data, r.cell.refs⟩

def isSpecial (cs : CellSlice) : Bool := cs.cell.special
def specialType (cs : CellSlice) : SpecialType := cs.cell.specialType
def size (cs : CellSlice) : Nat := cs.bits.length
def sizeRefs (cs : CellSlice) : Nat := cs.refs.length
def sizeExt (cs : CellSlice) : Nat := cs.size + cs.sizeRefs * 2 ^ 16
def emptyExt (cs : CellSlice) : Bool := cs.bits.isEmpty && cs.refs.isEmpty

def childMerkleDepth (cs : CellSlice) (depth : Nat) : Nat :=
  if depth = maxVirtLevel then depth else if cs.specialType.isMerkle then depth + 1 else depth

def childVirt (cs : CellSlice) : VirtParams := ⟨cs.childMerkleDepth cs.virt.level, cs.virt.virtualization⟩

/-- `prefetch_long(bits) == value` for a non-negative value that fits. -/
def prefetchEq (cs : CellSlice) (bits value : Nat) : Bool :=
  bits ≤ cs.size && bitsToNat (cs.bits.take bits) == value

variable [Digest]

/-- `prefetch_ref(offset)`: the reference, virtualized as its parent is. -/
def prefetchRef (cs : CellSlice) (offset : Nat) : Option CellRef :=
  cs.refs[offset]?.map fun c => CellRef.virtualize ⟨c, .none⟩ cs.childVirt

end CellSlice

/-! ## Loading -/

/-- `load_cell_slice`, run outside of the virtual machine (no library can be looked up). -/
def loadCellSlice (r : CellRef) : Result CellSlice :=
  if r.cell.specialType = .prunnedBranch ∧ r.virt.virtualization ≠ 0 then .error .vmVirtError
  else if r.cell.special then
    match r.cell.specialType with
    | .library => .error (.vmError "failed to load library cell (no vm_state_interface available)")
    | .prunnedBranch => .error (.vmError "trying to load prunned cell")
    | _ => .error (.vmError "unexpected special cell")
  else .ok (.ofCell r)

/-- `CellSlice(NoVm(), cell)`. -/
def loadNoVm (r : CellRef) : Result CellSlice :=
  if r.virt.virtualization ≠ 0 ∧ r.cell.specialType = .prunnedBranch then
    .error (.check "ld.virt.get_virtualization() == 0 || ld.data_cell->special_type() != PrunnedBranch")
  else .ok (.ofCell r)

/-- `CellSlice(NoVmSpec(), cell)`: the null cell of the slice of an ordinary cell is never looked at
with impunity, so every use begins with it. -/
def loadNoVmSpec (r : CellRef) : Result CellSlice := do
  let cs ← loadNoVm r
  if cs.isSpecial then return cs else .error (.check "deferencing null Ref")

theorem loadCellSlice_ok {r : CellRef} {cs : CellSlice} (h : loadCellSlice r = .ok cs) :
    r.cell.special = false ∧ cs = .ofCell r := by
  unfold loadCellSlice at h
  split at h
  · cases h
  · split at h
    · split at h <;> cases h
    · rename_i hs
      cases h
      exact ⟨by simpa using hs, rfl⟩

/-! ## Fetching -/

/-- The operations that take from the front of a slice; `none`: they returned false. -/
abbrev Fetch := StateT CellSlice Option

namespace Fetch

def fetchBits (bits : Nat) : Fetch (List Bool) := fun cs =>
  if bits ≤ cs.size then some (cs.bits.take bits, { cs with bits := cs.bits.drop bits }) else none

/-- `fetch_uint_to` into an unsigned variable. -/
def fetchUint (bits : Nat) : Fetch Nat := do return bitsToNat (← fetchBits bits)

/-- `fetch_uint_to` into an `int`: a number with the sign bit set is refused. -/
def fetchUintInt (bits : Nat) : Fetch Nat := do
  let n ← fetchUint bits
  guard (n < 2 ^ 31)
  return n

/-- `fetch_int_to`: two's complement. -/
def fetchInt (bits : Nat) : Fetch Int := do
  let n ← fetchUint bits
  return (BitVec.ofNat bits n).toInt

/-- `fetch_ulong(bits) == tag`. -/
def fetchTag (bits tag : Nat) : Fetch Unit := do
  let n ← fetchUint bits
  guard (n = tag)

def fetchBool : Fetch Bool := do return (← fetchUint 1) == 1

/-- `fetch_uint_leq`: as many bits as the bound has. -/
def fetchUintLeq (upperBound : Nat) : Fetch Nat := do
  let n ← fetchUint (Nat.log2 upperBound + 1)
  guard (n ≤ upperBound)
  return n

def fetchHash : Fetch Bits256 := do return BitVec.ofNat 256 (← fetchUint 256)

/-- `fetch_subslice(bits)`: no reference is taken along. -/
def fetchSubslice (bits : Nat) : Fetch CellSlice := fun cs => do
  let (bs, cs') ← fetchBits bits cs
  return ({ cs with bits := bs, refs := [] }, cs')

variable [Digest]

def fetchRef : Fetch CellRef := fun cs => do
  let r ← cs.prefetchRef 0
  return (r, { cs with refs := cs.refs.tail })

end Fetch

/-- `csr_unpack`: the whole slice must be used up. -/
def unpackExact {α : Type} (unpack : Fetch α) (cs : CellSlice) : Option α := do
  let (a, cs) ← unpack cs
  guard cs.emptyExt
  return a

/-- `tlb::unpack_cell`; `none`: it returned false. -/
def unpackCell {α : Type} (unpack : Fetch α) (r : CellRef) : Result (Option α) := do
  let cs ← loadCellSlice r
  return unpackExact unpack cs

theorem unpackCell_ok {α : Type} {unpack : Fetch α} {r : CellRef} {a : α} (h : unpackCell unpack r = .ok (some a)) :
    r.cell.special = false ∧ unpackExact unpack (.ofCell r) = some a := by
  obtain ⟨cs, hcs, h⟩ := bind_ok h
  obtain ⟨hs, rfl⟩ := loadCellSlice_ok hcs
  exact ⟨hs, Except.ok.inj h⟩

/-! ## Merkle proofs -/

namespace MerkleProof

variable [Digest]

/-- `MerkleProof::virtualize(cell, 1)` of a plain cell; `none`: the cell is no Merkle proof. -/
def virtualize (c : Cell) : Result (Option CellRef) := do
  if c.levelMask.getLevel ≠ 0 then return none
  let cs ← loadNoVm ⟨c, .none⟩
  if cs.specialType ≠ .merkleProof then return none
  return (cs.prefetchRef 0).map (·.virtualize ⟨0, 1⟩)

/-- The representation hash of a cell virtualized below every level is its lowest hash. -/
theorem reprHash_createVirtual (c : Cell) (n : Nat) : (CellRef.createVirtual ⟨0, n⟩ c).reprHash = c.getHash 0 := by
  unfold CellRef.createVirtual
  split
  · rename_i h
    -- a cell of level zero has one hash
    have hm : c.info.levelMask.mask = 0 := by
      by_contra hne
      simp [Cell.levelMask, LevelMask.getLevel, hne] at h
    simp [CellRef.reprHash, CellRef.getHash, Cell.getHash, CellInfo.getHash, LevelMask.apply, hm, LevelMask.getHashI]
  · have hl : ((c.levelMask.apply 0).apply maxLevel).getLevel = 0 := by
      simp [LevelMask.apply, LevelMask.getLevel, Nat.mod_one]
    simp [CellRef.reprHash, CellRef.getHash, CellRef.getLevelMask, VirtParams.none, maxVirtLevel, hl]

/-- A virtualized proof root hashes to the lowest hash of the cell under the Merkle proof cell. -/
theorem virtualize_ok {c : Cell} {r : CellRef} (h : virtualize c = .ok (some r)) :
    ∃ child, c.refs[0]? = some child ∧ r.reprHash = child.getHash 0 := by
  unfold virtualize at h
  split at h
  · cases h
  · obtain ⟨cs, hcs, h⟩ := bind_ok h
    unfold loadNoVm at hcs
    split at hcs
    · cases hcs
    · cases hcs
      split at h
      · cases h
      · have h := Except.ok.inj h
        obtain ⟨child, hchild, rfl⟩ : ∃ child, c.refs[0]? = some child ∧
            r = (CellRef.virtualize ⟨child, .none⟩ .none).virtualize ⟨0, 1⟩ := by
          simpa [CellSlice.prefetchRef, CellSlice.ofCell, CellSlice.childVirt, CellSlice.childMerkleDepth,
            VirtParams.none, eq_comm] using h
        refine ⟨child, hchild, ?_⟩
        have hplain : CellRef.virtualize ⟨child, .none⟩ .none = ⟨child, .none⟩ := by
          simp [CellRef.virtualize, CellRef.createVirtual]
        rw [hplain, ← reprHash_createVirtual child 1]
        simp [CellRef.virtualize]

end MerkleProof

end TonWallet.Vm
