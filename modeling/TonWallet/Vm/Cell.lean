/-
Cells (`vm/cells`): trees of bit strings with at most four references, the special cell types,
level masks, and the hash and depth of a cell at each level as `DataCell::create` computes them.
A reference to a cell carries the parameters it is virtualized with (`VirtualCell`).
-/
import TonWallet.Ton.BlockId
import TonWallet.Lib.Bits

namespace TonWallet.Vm

open Lib TonWallet.Td TonWallet.Ton

/-- The digest the cells are hashed with (`digest::SHA256`, from the linked cryptographic library). -/
class Digest where
  sha256 : List UInt8 → Bits256

/-! ## Cell traits -/

inductive SpecialType
  | ordinary
  | prunnedBranch
  | library
  | merkleProof
  | merkleUpdate
  deriving DecidableEq, Repr

namespace SpecialType

/-- The type named by the first byte of a special cell. -/
def ofCode : Nat → Option SpecialType
  | 0 => some .ordinary
  | 1 => some .prunnedBranch
  | 2 => some .library
  | 3 => some .merkleProof
  | 4 => some .merkleUpdate
  | _ => none

/-- Whether the references of such a cell are one level deeper. -/
def isMerkle : SpecialType → Bool
  | .merkleProof | .merkleUpdate => true
  | _ => false

end SpecialType

def maxRefs : Nat := 4
def maxBits : Nat := 1023
def maxLevel : Nat := 3
def maxDepth : Nat := 1024
def hashBytes : Nat := 32
def hashBits : Nat := 256
def depthBytes : Nat := 2

/-! ## Level masks -/

structure LevelMask where
  mask : Nat
  deriving DecidableEq, Repr

namespace LevelMask

def getLevel (m : LevelMask) : Nat := if m.mask = 0 then 0 else Nat.log2 m.mask + 1
def getHashI (m : LevelMask) : Nat := (List.range 32).countP m.mask.testBit
def getHashesCount (m : LevelMask) : Nat := m.getHashI + 1
def apply (m : LevelMask) (level : Nat) : LevelMask := ⟨m.mask % 2 ^ level⟩
def applyOr (m n : LevelMask) : LevelMask := ⟨m.mask ||| n.mask⟩
def shiftRight (m : LevelMask) : LevelMask := ⟨m.mask / 2⟩
def isSignificant (m : LevelMask) (level : Nat) : Bool := level == 0 || m.mask.testBit (level - 1)

/-- The levels a cell has a hash of its own for, in order. -/
def significantLevels (m : LevelMask) : List Nat := (List.range (m.getLevel + 1)).filter m.isSignificant

end LevelMask

/-! ## Cells -/

inductive Cell where
  | mk (special : Bool) (data : List Bool) (refs : List Cell)
  deriving Repr

/-- What `DataCell` stores besides its references. -/
structure CellInfo where
  type : SpecialType
  data : List Bool
  levelMask : LevelMask
  hashes : List Bits256
  depths : List Nat

namespace CellInfo

/-- `bits_load_ulong(data + offs, bits)`. -/
def load (data : List Bool) (offs bits : Nat) : Nat := bitsToNat ((data.drop offs).take bits)

/-- `DataCell::do_get_hash`: the lower hashes of a pruned branch are read from its data. -/
def getHash (c : CellInfo) (level : Nat) : Bits256 :=
  let hashI := (c.levelMask.apply level).getHashI
  if c.type = .prunnedBranch then
    if hashI ≠ c.levelMask.getHashI then BitVec.ofNat 256 (load c.data (8 * (2 + hashBytes * hashI)) hashBits)
    else c.hashes.getD 0 0
  else c.hashes.getD hashI 0

/-- `DataCell::do_get_depth`. -/
def getDepth (c : CellInfo) (level : Nat) : Nat :=
  let hashI := (c.levelMask.apply level).getHashI
  if c.type = .prunnedBranch then
    let thisHashI := c.levelMask.getHashI
    if hashI ≠ thisHashI then load c.data (8 * (2 + hashBytes * thisHashI + hashI * depthBytes)) 16
    else c.depths.getD 0 0
  else c.depths.getD hashI 0

/-- `Info::d1`: reference count, special flag and level mask. -/
def d1 (special : Bool) (refsCount : Nat) (m : LevelMask) : UInt8 :=
  UInt8.ofNat (refsCount + 8 * special.toNat + 32 * m.mask)

/-- `Info::d2`: twice the number of full bytes, plus one for an incomplete byte. -/
def d2 (bits : Nat) : UInt8 := UInt8.ofNat (bits / 8 * 2 + if bits % 8 = 0 then 0 else 1)

def hashToBytes (h : Bits256) : List UInt8 := packBits (natToBits 256 h.toNat)

def storeDepth (d : Nat) : List UInt8 := [UInt8.ofNat (d / 256), UInt8.ofNat (d % 256)]

variable [Digest]

/-- The loop of `DataCell::create` over the levels: the hash of a level feeds the data, or the hash
of the level before, and then the depths and hashes of the references. -/
def hashLevels (special : Bool) (type : SpecialType) (mask : LevelMask) (data : List Bool)
    (children : List CellInfo) : List Nat → Option Bits256 → List (Bits256 × Nat)
  | [], _ => []
  | level :: levels, prev =>
    let childLevel := if type.isMerkle then level + 1 else level
    let childDepths := children.map (·.getDepth childLevel)
    let depth := if children.isEmpty then 0 else childDepths.foldl max 0 + 1
    let content := match prev with
      | none => packBits data
      | some h => hashToBytes h
    let hash := Digest.sha256 ([d1 special children.length (mask.apply level), d2 data.length] ++ content ++
      childDepths.flatMap storeDepth ++ children.flatMap fun c => hashToBytes (c.getHash childLevel))
    (hash, depth) :: hashLevels special type mask data children levels (some hash)

/-- The level mask `DataCell::create` gives a cell of a type. -/
def maskOf (type : SpecialType) (data : List Bool) (children : List CellInfo) : LevelMask :=
  match type with
  | .ordinary => children.foldl (fun (m : LevelMask) c => m.applyOr c.levelMask) (⟨0⟩ : LevelMask)
  | .prunnedBranch => ⟨load data 8 8⟩
  | .library => ⟨0⟩
  | .merkleProof | .merkleUpdate => (children.foldl (fun (m : LevelMask) c => m.applyOr c.levelMask) (⟨0⟩ : LevelMask)).shiftRight

/-- The stored part of a cell built from its data and its references. -/
def ofNode (special : Bool) (data : List Bool) (children : List CellInfo) : CellInfo :=
  let type := if special then (SpecialType.ofCode (load data 0 8)).getD .ordinary else .ordinary
  let mask := maskOf type data children
  -- a pruned branch computes only its highest hash
  let levels := if type = .prunnedBranch then [mask.getLevel] else mask.significantLevels
  let hs := hashLevels special type mask data children levels none
  ⟨type, data, mask, hs.map (·.1), hs.map (·.2)⟩

end CellInfo

namespace Cell

def special : Cell → Bool | mk s _ _ => s
def data : Cell → List Bool | mk _ d _ => d
def refs : Cell → List Cell | mk _ _ rs => rs

variable [Digest]

mutual
/-- What is stored with a cell. -/
def info : Cell → CellInfo
  | .mk special data refs => CellInfo.ofNode special data (infos refs)
/-- What is stored with each of a list of cells. -/
def infos : List Cell → List CellInfo
  | [] => []
  | c :: cs => c.info :: infos cs
end

def specialType (c : Cell) : SpecialType :=
  if c.special then (SpecialType.ofCode (CellInfo.load c.data 0 8)).getD .ordinary else .ordinary

def levelMask (c : Cell) : LevelMask := c.info.levelMask
def getHash (c : Cell) (level : Nat) : Bits256 := c.info.getHash level
def getDepth (c : Cell) (level : Nat) : Nat := c.info.getDepth level

theorem infos_eq_map (cs : List Cell) : infos cs = cs.map info := by
  induction cs with
  | nil => rfl
  | cons c cs ih => simp [infos, ih]

/-- The checks of `DataCell::create` on a special cell of each type. -/
def checkSpecial (type : SpecialType) (data : List Bool) (refs : List Cell) : Result Unit :=
  match type with
  | .ordinary => .ok ()
  | .prunnedBranch => do
    failIf (refs.length ≠ 0) "PrunnedBranch special cell has a cell reference"
    failIf (data.length < 16) "Not enough data for a PrunnedBranch special cell"
    let mask : LevelMask := ⟨CellInfo.load data 8 8⟩
    let level := mask.getLevel
    failIf (maxLevel < level ∨ level = 0) "Prunned Branch has an invalid level"
    failIf (data.length ≠ (2 + (mask.apply (level - 1)).getHashesCount * (hashBytes + depthBytes)) * 8)
      "Not enouch data for a PrunnedBranch special cell"
  | .library =>
    failIf (data.length ≠ 8 + hashBytes * 8) "Not enouch data for a Library special cell"
  | .merkleProof => do
    failIf (data.length ≠ 8 + (hashBytes + depthBytes) * 8) "Not enouch data for a MerkleProof special cell"
    match refs with
    | [c] =>
      failIf (CellInfo.load data 8 hashBits ≠ (c.getHash 0).toNat) "Hash mismatch in a MerkleProof special cell"
      failIf (CellInfo.load data (8 + hashBits) 16 ≠ c.getDepth 0) "Depth mismatch in a MerkleProof special cell"
    | _ => fail "Wrong references count for a MerkleProof special cell"
  | .merkleUpdate => do
    failIf (data.length ≠ 8 + (hashBytes + depthBytes) * 8 * 2)
      "Not enouch data for a MerkleUpdate special cell"
    match refs with
    | [a, b] =>
      failIf (CellInfo.load data 8 hashBits ≠ (a.getHash 0).toNat)
        "First hash mismatch in a MerkleProof special cell"
      failIf (CellInfo.load data (8 + hashBits) hashBits ≠ (b.getHash 0).toNat)
        "Second hash mismatch in a MerkleProof special cell"
      failIf (CellInfo.load data (8 + 2 * hashBits) 16 ≠ a.getDepth 0)
        "First depth mismatch in a MerkleProof special cell"
      failIf (CellInfo.load data (8 + 2 * hashBits + 16) 16 ≠ b.getDepth 0)
        "Second depth mismatch in a MerkleProof special cell"
    | _ => fail "Wrong references count for a MerkleUpdate special cell"

/-- `DataCell::create`. -/
def create (special : Bool) (data : List Bool) (refs : List Cell) : Result Cell := do
  if special then
    failIf (data.length < 8) "Not enough data for a special cell"
    match SpecialType.ofCode (CellInfo.load data 0 8) with
    | some .ordinary => fail "Special cell has Ordinary type"
    | some type => checkSpecial type data refs
    | none => fail "Unknown special cell type"
  failIf (maxBits < data.length) "Too many bits"
  failIf (maxRefs < refs.length) "Too many cell references"
  let cell := Cell.mk special data refs
  check (cell.levelMask.getLevel ≤ maxLevel) "level_mask.get_level() <= max_level"
  failIf (cell.info.depths.any (maxDepth < ·)) "Depth is too big"
  return cell

/-- `CellBuilder::create_merkle_proof`. -/
def createMerkleProof (c : Cell) : Cell :=
  .mk true (natToBits 8 3 ++ natToBits hashBits (c.getHash 0).toNat ++ natToBits 16 (c.getDepth 0)) [c]

/-- `CellBuilder::create_merkle_update`. -/
def createMerkleUpdate (a b : Cell) : Cell :=
  .mk true (natToBits 8 4 ++ natToBits hashBits (a.getHash 0).toNat ++ natToBits hashBits (b.getHash 0).toNat ++
    natToBits 16 (a.getDepth 0) ++ natToBits 16 (b.getDepth 0)) [a, b]

/-- A cell every node of which `DataCell::create` built. -/
inductive Valid : Cell → Prop
  | mk {special : Bool} {data : List Bool} {refs : List Cell} :
    (∀ c ∈ refs, Valid c) → create special data refs = .ok (.mk special data refs) → Valid (.mk special data refs)

end Cell

/-! ## Virtualized references -/

/-- `VirtualizationParameters`; `maxVirtLevel` stands for "not virtualized". -/
structure VirtParams where
  level : Nat
  virtualization : Nat
  deriving DecidableEq, Repr

def maxVirtLevel : Nat := 255

namespace VirtParams

def none : VirtParams := ⟨maxVirtLevel, 0⟩

/-- `VirtualizationParameters::apply`: the outer parameters count when they cut deeper. -/
def apply (inner outer : VirtParams) : VirtParams :=
  if inner.level ≤ outer.level then inner else outer

end VirtParams

/-- `Ref<Cell>` to a cell, plain (`VirtParams.none`) or virtualized. -/
structure CellRef where
  cell : Cell
  virt : VirtParams := VirtParams.none
  deriving Repr

namespace CellRef

variable [Digest]

/-- `VirtualCell::create`: a cell of no higher level needs no wrapper. -/
def createVirtual (virt : VirtParams) (c : Cell) : CellRef :=
  if c.levelMask.getLevel ≤ virt.level then ⟨c, .none⟩ else ⟨c, virt⟩

/-- `Cell::virtualize` and `VirtualCell::virtualize`. -/
def virtualize (r : CellRef) (virt : VirtParams) : CellRef :=
  if r.virt = .none then createVirtual virt r.cell
  else
    let newVirt := r.virt.apply virt
    if newVirt = r.virt then r else createVirtual newVirt r.cell

def getLevelMask (r : CellRef) : LevelMask :=
  if r.virt = .none then r.cell.levelMask else r.cell.levelMask.apply r.virt.level

/-- `get_hash(level)`: a virtual cell answers for the level its mask is cut to (`fix_level`). -/
def getHash (r : CellRef) (level : Nat) : Bits256 :=
  if r.virt = .none then r.cell.getHash level
  else r.cell.getHash ((r.getLevelMask.apply level).getLevel)

/-- `get_hash()`, the representation hash. -/
def reprHash (r : CellRef) : Bits256 := r.getHash maxLevel

end CellRef

end TonWallet.Vm
