/-
Proof checking (`block/check-proof.cpp`): state proofs, block proof links with their signatures, and
chains of links. A state proof commits the extracted state to the checked block, an accepted link
commits what it reads to its source block, and an accepted chain is a path of accepted links.
-/
import TonWallet.Block.Header
import Mathlib.Data.List.Sort

namespace TonWallet.Block

open Lib TonWallet.Td TonWallet.Ton TonWallet.Vm

/-- `ton::ValidatorDescr`. -/
structure ValidatorDescr where
  key : Bits256
  weight : UInt64
  addr : Bits256

/-- `ton::BlockSignature`. -/
structure BlockSignature where
  node : Bits256
  signature : List UInt8

/-- What proof checking takes from the rest of the library: bags of cells, the masterchain
configuration (`mc-config`) and Ed25519. -/
class McConfig extends Digest where
  Config : Type
  ConfigInfo : Type
  stdBocDeserialize : List UInt8 → Except Status Cell
  extractFromKeyBlock : CellRef → Result Config
  extractFromState : CellRef → Result Config
  extractConfig : CellRef → Result ConfigInfo
  checkOldMcBlockId : ConfigInfo → BlockIdExt → Result Bool
  computeValidatorSet : Config → ShardIdFull → Nat → Nat → Result (List ValidatorDescr)
  computeValidatorSetHash : Nat → ShardIdFull → List ValidatorDescr → Nat
  verifySignature : Bits256 → List UInt8 → List UInt8 → Except Status Unit

open McConfig

section

variable [McConfig]

/-! ## State proofs -/

def checkStateProof (blkid : BlockIdExt) (proof : List UInt8) : Result Bits256 := do
  let proofRoot ← ofStatus (stdBocDeserialize proof)
  let virtRoot ← orFail (MerkleProof.virtualize proofRoot) "account state proof is invalid"
  let header ← checkBlockHeaderProof virtRoot blkid true
  -- the state hash was asked for, so it is there
  return header.stateHash.getD 0

def checkExtractStateProof (blkid : BlockIdExt) (proof data : List UInt8) : Result CellRef :=
  catchVm "error scanning shard state proof: " "virtualization error scanning shard state proof: " do
    let stateHash ← checkStateProof blkid proof
    let stateRoot ← ofStatus (stdBocDeserialize data)
    let stateVirtRoot ← orFail (MerkleProof.virtualize stateRoot) "account state proof is invalid"
    failIf (stateHash ≠ stateVirtRoot.reprHash) "root hash mismatch in the shardchain state proof"
    return stateVirtRoot

/-- A root whose hash is the one a block's header declares for the state after the block. -/
def CommittedState (blkid : BlockIdExt) (stateRoot : CellRef) : Prop :=
  ∃ header : CellRef, header.reprHash = blkid.rootHash ∧ DeclaresState header stateRoot.reprHash

theorem checkStateProof_ok {blkid : BlockIdExt} {proof : List UInt8} {stateHash : Bits256}
    (h : checkStateProof blkid proof = .ok stateHash) :
    ∃ header : CellRef, header.reprHash = blkid.rootHash ∧ DeclaresState header stateHash := by
  obtain ⟨root, -, h⟩ := bind_ok h
  obtain ⟨header, -, h⟩ := bind_ok h
  obtain ⟨r, hr, h⟩ := bind_ok h
  obtain ⟨hroot, hstate⟩ := checkBlockHeaderProof_ok hr
  obtain ⟨sh, hsh, hdecl⟩ := hstate rfl
  rw [hsh] at h
  cases h
  exact ⟨header, hroot, hdecl⟩

/-- An extracted state is the one committed to by the block the proof was checked for. -/
theorem checkExtractStateProof_ok {blkid : BlockIdExt} {proof data : List UInt8} {stateRoot : CellRef}
    (h : checkExtractStateProof blkid proof data = .ok stateRoot) : CommittedState blkid stateRoot := by
  obtain ⟨stateHash, hs, h⟩ := bind_ok (catchVm_ok_iff.1 h)
  obtain ⟨root, -, h⟩ := bind_ok h
  obtain ⟨virtRoot, -, h⟩ := bind_ok h
  obtain ⟨_, hne, h⟩ := bind_ok h
  cases h
  obtain ⟨header, hroot, hdecl⟩ := checkStateProof_ok hs
  exact ⟨header, hroot, not_not.1 (failIf_ok_iff.1 hne) ▸ hdecl⟩

/-! ## Signatures -/

/-- `compute_node_id_short`: the digest of the TL constructor of an Ed25519 public key. -/
def computeNodeIdShort (pubkey : Bits256) : Bits256 :=
  Digest.sha256 ([0xc6, 0xb4, 0x13, 0x48] ++ CellInfo.hashToBytes pubkey)

/-- The string a validator signs for a block (`ton.blockId`). -/
def blockToSign (blkid : BlockIdExt) : List UInt8 :=
  [0x70, 0x6e, 0x0b, 0xc5] ++ CellInfo.hashToBytes blkid.rootHash ++ CellInfo.hashToBytes blkid.fileHash

/-- The validators by short id, sorted (`node_map`). -/
def nodeMap (nodes : List ValidatorDescr) : List (Bits256 × Nat) :=
  (nodes.mapIdx fun i n => (computeNodeIdShort n.key, i)).insertionSort fun a b => a.1 < b.1 ∨ a.1 = b.1 ∧ a.2 ≤ b.2

/-- The loop over the signatures: the validators seen and the weight they signed with. -/
def checkSignatures (nodes : List ValidatorDescr) (toSign : List UInt8) (totalWeight : UInt64) :
    List BlockSignature → List Nat → UInt64 → Result (List Nat × UInt64)
  | [], seen, signed => .ok (seen, signed)
  | sig :: sigs, seen, signed => do
    let unknown := "signature set contains unknown NodeIdShort " ++ hashHex sig.node
    let some (id, i) := (nodeMap nodes).find? (sig.node ≤ ·.1) | fail unknown
    failIf (id ≠ sig.node) unknown
    let some node := nodes[i]? | .error (.check "i < nodes.size()")
    ofStatus (verifySignature node.key toSign sig.signature)
    let signed := signed + node.weight
    if signed > totalWeight then return (seen ++ [i], signed)
    checkSignatures nodes toSign totalWeight sigs (seen ++ [i]) signed

/-- The first element of a sorted list that equals the one before it. -/
def firstRepeat : List Nat → Option Nat
  | a :: b :: l => if a = b then some a else firstRepeat (b :: l)
  | _ => none

def checkBlockSignatures (nodes : List ValidatorDescr) (signatures : List BlockSignature) (blkid : BlockIdExt) :
    Result Unit := do
  failIf nodes.isEmpty "empty validator public keys set"
  failIf signatures.isEmpty "empty validator signature set"
  let totalWeight := nodes.foldl (fun w n => w + n.weight) (0 : UInt64)
  let (seen, signedWeight) ← checkSignatures nodes (blockToSign blkid) totalWeight signatures [] 0
  match firstRepeat (seen.insertionSort (· ≤ ·)) with
  | some i => fail ("signature set contains duplicate signature for NodeIdShort " ++
      hashHex ((nodes[i]?.map fun n => computeNodeIdShort n.key).getD 0))
  | none =>
    failIf (3 * signedWeight ≤ 2 * totalWeight)
      ("insufficient total signature weight: only " ++ toString signedWeight ++ " out of " ++ toString totalWeight)

/-! ## Links -/

/-- `block::BlockProofLink`, from `fromBlk` to `toBlk`. -/
structure BlockProofLink where
  fromBlk : BlockIdExt
  toBlk : BlockIdExt
  isKey : Bool
  isFwd : Bool
  destProof : Option Cell
  stateProof : Option Cell
  proof : Option Cell
  ccSeqno : Nat
  validatorSetHash : Nat
  signatures : List BlockSignature

namespace BlockProofLink

/-- The virtualized root of a proof, null when there is no proof or no Merkle proof cell. -/
def virtualRoot : Option Cell → Result (Option CellRef)
  | some c => MerkleProof.virtualize c
  | none => .ok none

/-- The checks before the proofs are looked at. -/
def precheck (l : BlockProofLink) : Result Unit := do
  failIf (!(l.fromBlk.isMasterchainExt && l.toBlk.isMasterchainExt))
    "BlockProofLink must have both source and destination blocks in the masterchain"
  failIf (l.fromBlk.seqno = l.toBlk.seqno)
    ("BlockProofLink connects two masterchain blocks " ++ l.fromBlk.toStr ++ " and " ++ l.toBlk.toStr ++
      " of equal height")
  failIf (l.isFwd ≠ decide (l.fromBlk.seqno < l.toBlk.seqno))
    ("BlockProofLink from " ++ l.fromBlk.toStr ++ " to " ++ l.toBlk.toStr ++ " is incorrectly declared as a " ++
      (if l.isFwd then "forward" else "backward") ++ " link")
  failIf (l.destProof.isNone ∧ l.toBlk.seqno ≠ 0)
    ("BlockProofLink contains no proof for destination block " ++ l.toBlk.toStr)
  failIf l.proof.isNone ("BlockProofLink contains no proof for source block " ++ l.fromBlk.toStr)
  failIf (!l.isFwd ∧ l.stateProof.isNone)
    ("a backward BlockProofLink contains no proof for the source state of " ++ l.fromBlk.toStr)
  failIf (l.isFwd ∧ l.signatures.isEmpty)
    ("a forward BlockProofLink from " ++ l.fromBlk.toStr ++ " to " ++ l.toBlk.toStr ++ " contains no signatures")

/-- The source header: nothing is checked for a zero state, and the state hash is needed backwards only. -/
def checkSource (l : BlockProofLink) (vsRoot : CellRef) : Result (Option Bits256) :=
  if l.fromBlk.seqno ≠ 0 then checkBlockHeader vsRoot l.fromBlk (!l.isFwd) else .ok none

/-- The destination header; `none` for a zero state destination, which has no block. -/
def checkDest (l : BlockProofLink) (vdRoot : Option CellRef) : Result (Option BlockInfo) :=
  match vdRoot with
  | some root => if l.toBlk.seqno ≠ 0 then do
      let _ ← checkBlockHeader root l.toBlk false
      let cannot := "cannot unpack header for block " ++ l.fromBlk.toStr
      let blk ← orFail (unpackCell BlockRecord.unpack root) cannot
      let info ← orFail (unpackCell BlockInfo.unpack blk.info) cannot
      failIf (info.keyBlock ≠ l.isKey)
        ("incorrect is_key_block value " ++ (if l.isKey then "1" else "0") ++ " for destination block " ++ l.toBlk.toStr)
      return some info
    else .ok none
  | none => do
    failIf (l.toBlk.seqno ≠ 0)
      ("BlockProofLink contains an invalid Merkle proof for destination block " ++ l.toBlk.toStr)
    return none

/-- A backward link: the destination is in the old blocks table of the source state. -/
def checkBack (l : BlockProofLink) (stateHash : Option Bits256) : Result Unit := do
  let vstateRoot ← orFail (virtualRoot l.stateProof)
    ("backward BlockProofLink contains an invalid Merkle proof for source state " ++ l.fromBlk.toStr)
  -- an unset hash compares equal to no particular one; a backward link always has one, its source is no zero state
  failIf (stateHash ≠ some vstateRoot.reprHash)
    ("BlockProofLink contains a state proof for " ++ l.fromBlk.toStr ++ " with incorrect root hash")
  let config ← extractConfig vstateRoot
  let found ← checkOldMcBlockId config l.toBlk
  failIf (!found)
    ("cannot check that " ++ l.toBlk.toStr ++ " is indeed a previous masterchain block of " ++ l.fromBlk.toStr ++
      " using the presented Merkle proof of masterchain state")

/-- The configuration a forward link takes its validators from. -/
def sourceConfig (l : BlockProofLink) (vsRoot : CellRef) : Result Config :=
  renameStatus (fun s => "cannot extract configuration from source key block " ++ l.fromBlk.toStr ++
      " of a forward BlockProofLink: " ++ s.toStr)
    (if l.fromBlk.seqno ≠ 0 then extractFromKeyBlock vsRoot else extractFromState vsRoot)

/-- A forward link: the destination is signed by the validators of the source configuration. -/
def checkFwd (l : BlockProofLink) (vsRoot : CellRef) (info : BlockInfo) : Result Unit := do
  let config ← l.sourceConfig vsRoot
  let shard : ShardIdFull := ⟨masterchainId, shardIdAll⟩
  let nodes ← computeValidatorSet config shard info.genUtime info.genCatchainSeqno
  failIf nodes.isEmpty
    ("while checking a forward BlockProofLink: cannot compute validator set for block " ++ l.toBlk.toStr ++
      " with utime " ++ toString info.genUtime ++ " and cc_seqno " ++ toString info.genCatchainSeqno ++
      " starting from previous key block " ++ l.fromBlk.toStr)
  let vsetHash := computeValidatorSetHash l.ccSeqno shard nodes
  failIf (vsetHash ≠ info.genValidatorListHashShort)
    ("while checking a forward BlockProofLink: computed validator set for block " ++ l.toBlk.toStr ++ " with utime " ++
      toString info.genUtime ++ " and cc_seqno " ++ toString info.genCatchainSeqno ++
      " starting from previous key block " ++ l.fromBlk.toStr ++ " has hash " ++ toString vsetHash ++
      " different from " ++ toString info.genValidatorListHashShort ++ " stated in block header")
  renameStatus (fun s => "error checking signatures for block " ++ l.toBlk.toStr ++
      " in a forward BlockProofLink: " ++ s.toStr)
    (checkBlockSignatures nodes l.signatures l.toBlk)

/-- The end of `validate`, by the direction of the link. -/
def checkRead (l : BlockProofLink) (vsRoot : CellRef) (stateHash : Option Bits256) (info : Option BlockInfo) :
    Result Unit :=
  match l.isFwd, info with
  | false, _ => l.checkBack stateHash
  | true, some info => l.checkFwd vsRoot info
  -- a forward link does not end at a zero state
  | true, none => .error (.check "info")

/-- The part of `validate` that catches the exceptions of the virtual machine. -/
def checkProofs (l : BlockProofLink) : Result Nat := do
  let vsRoot ← orFail (virtualRoot l.proof)
    ("BlockProofLink contains an invalid Merkle proof for source block " ++ l.fromBlk.toStr)
  let stateHash ← l.checkSource vsRoot
  let vdRoot ← virtualRoot l.destProof
  let info ← l.checkDest vdRoot
  l.checkRead vsRoot stateHash info
  return (info.map (·.genUtime)).getD 0

/-- `BlockProofLink::validate`: the time of the destination block (`save_utime`). -/
def validate (l : BlockProofLink) : Result Nat := do
  l.precheck
  catchVm ("vm error while checking BlockProofLink from " ++ l.fromBlk.toStr ++ " to " ++ l.toBlk.toStr ++ " : ")
    ("virtualization error while checking BlockProofLink from " ++ l.fromBlk.toStr ++ " to " ++ l.toBlk.toStr ++ " : ")
    l.checkProofs

/-! ## What an accepted link is committed to -/

/-- The source id commits to what the link reads: the proof root hashes to it, and the validator
configuration is read from that root (forward), or the old blocks table from a state that root
declares (backward). -/
def SourceCommitted (l : BlockProofLink) : Prop :=
  ∃ vsRoot, virtualRoot l.proof = .ok (some vsRoot) ∧ vsRoot.reprHash = l.fromBlk.rootHash ∧
    (l.isFwd = true → ∃ config, l.sourceConfig vsRoot = .ok config) ∧
    (l.isFwd = false → ∃ stateRoot info, virtualRoot l.stateProof = .ok (some stateRoot) ∧
      DeclaresState vsRoot stateRoot.reprHash ∧ extractConfig stateRoot = .ok info ∧
      checkOldMcBlockId info l.toBlk = .ok true)

/-- The lowest hash of the cell the source proof of a link is a Merkle proof of. -/
def proofHash (l : BlockProofLink) : Option Bits256 := (l.proof.bind (·.refs[0]?)).map (·.getHash 0)

omit [McConfig] in
theorem precheck_ok {l : BlockProofLink} {u : Unit} (h : l.precheck = .ok u) :
    l.fromBlk.isMasterchainExt = true ∧ l.toBlk.isMasterchainExt = true ∧ l.fromBlk.seqno ≠ l.toBlk.seqno ∧
      l.isFwd = decide (l.fromBlk.seqno < l.toBlk.seqno) := by
  obtain ⟨_, hmc, h⟩ := bind_ok h
  obtain ⟨_, hne, h⟩ := bind_ok h
  obtain ⟨_, hfwd, -⟩ := bind_ok h
  have hmc : l.fromBlk.isMasterchainExt = true ∧ l.toBlk.isMasterchainExt = true := by
    simpa using failIf_ok_iff.1 hmc
  exact ⟨hmc.1, hmc.2, failIf_ok_iff.1 hne, not_not.1 (failIf_ok_iff.1 hfwd)⟩

omit [McConfig] in
/-- A backward link does not start at the zero state. -/
theorem fromBlk_seqno_ne_zero_of_back {l : BlockProofLink} {u : Unit} (h : l.precheck = .ok u)
    (hb : l.isFwd = false) : l.fromBlk.seqno ≠ 0 := by
  obtain ⟨-, -, hne, hfwd⟩ := precheck_ok h
  rw [hb] at hfwd
  intro hz
  have hlt : ¬ l.fromBlk.seqno < l.toBlk.seqno := of_decide_eq_false hfwd.symm
  rw [hz] at hlt hne
  exact hlt (UInt32.pos_iff_ne_zero.2 hne.symm)

theorem checkBack_ok {l : BlockProofLink} {stateHash : Option Bits256} {u : Unit}
    (h : l.checkBack stateHash = .ok u) :
    ∃ stateRoot info, virtualRoot l.stateProof = .ok (some stateRoot) ∧ stateHash = some stateRoot.reprHash ∧
      extractConfig stateRoot = .ok info ∧ checkOldMcBlockId info l.toBlk = .ok true := by
  obtain ⟨stateRoot, hroot, h⟩ := bind_ok h
  obtain ⟨_, hhash, h⟩ := bind_ok h
  obtain ⟨info, hinfo, h⟩ := bind_ok h
  obtain ⟨found, hfound, h⟩ := bind_ok h
  have hf : found = true := by simpa using failIf_ok_iff.1 h
  exact ⟨stateRoot, info, orFail_ok_iff.1 hroot, not_not.1 (failIf_ok_iff.1 hhash), hinfo, hf ▸ hfound⟩

/-- What `validate` has looked at when it accepts a link: the source root, hashed to the source id
unless the source is a zero state, and what was read from it. -/
theorem validate_ok {l : BlockProofLink} {utime : Nat} (h : l.validate = .ok utime) :
    ∃ vsRoot, virtualRoot l.proof = .ok (some vsRoot) ∧
      (l.fromBlk.seqno ≠ 0 → vsRoot.reprHash = l.fromBlk.rootHash) ∧
      (l.isFwd = true → ∃ config, l.sourceConfig vsRoot = .ok config) ∧
      (l.isFwd = false → ∃ stateRoot info, virtualRoot l.stateProof = .ok (some stateRoot) ∧
        DeclaresState vsRoot stateRoot.reprHash ∧ extractConfig stateRoot = .ok info ∧
        checkOldMcBlockId info l.toBlk = .ok true) := by
  obtain ⟨_, hpre, h⟩ := bind_ok h
  obtain ⟨vsRoot, hroot, h⟩ := bind_ok (catchVm_ok_iff.1 h)
  obtain ⟨stateHash, hsrc, h⟩ := bind_ok h
  obtain ⟨vdRoot, -, h⟩ := bind_ok h
  obtain ⟨info, -, h⟩ := bind_ok h
  obtain ⟨_, hread, -⟩ := bind_ok h
  unfold checkSource at hsrc
  unfold checkRead at hread
  refine ⟨vsRoot, orFail_ok_iff.1 hroot, fun hz => ?_, fun hf => ?_, fun hb => ?_⟩
  · rw [if_pos hz] at hsrc
    exact (checkBlockHeader_ok hsrc).1
  · cases info with
    | none => simp [hf] at hread
    | some info =>
      simp only [hf] at hread
      obtain ⟨config, hconfig, -⟩ := bind_ok hread
      exact ⟨config, hconfig⟩
  · rw [if_pos (fromBlk_seqno_ne_zero_of_back hpre hb), hb] at hsrc
    obtain ⟨declared, hsome, hdecl⟩ := (checkBlockHeader_ok hsrc).2 rfl
    simp only [hb] at hread
    obtain ⟨stateRoot, cfg, hstate, hhash, hcfg, hold⟩ := checkBack_ok hread
    rw [hsome] at hhash
    cases hhash
    exact ⟨stateRoot, cfg, hstate, hdecl, hcfg, hold⟩

/-- The virtualized source root hashes to what the Merkle proof is a proof of. -/
theorem reprHash_virtualRoot {l : BlockProofLink} {vsRoot : CellRef} (h : virtualRoot l.proof = .ok (some vsRoot)) :
    l.proofHash = some vsRoot.reprHash := by
  unfold virtualRoot at h
  unfold proofHash
  cases hp : l.proof with
  | none => simp [hp] at h
  | some c =>
    rw [hp] at h
    obtain ⟨child, hchild, hhash⟩ := MerkleProof.virtualize_ok h
    simp [hchild, hhash]

theorem SourceCommitted.proofHash_eq {l : BlockProofLink} (h : l.SourceCommitted) :
    l.proofHash = some l.fromBlk.rootHash := by
  obtain ⟨vsRoot, hroot, hhash, -⟩ := h
  rw [reprHash_virtualRoot hroot, hhash]

/-- An accepted link is committed to by its source id exactly when the source is no zero state or the
proof happens to be a proof of the source id's root hash. -/
theorem sourceCommitted_iff_of_validate {l : BlockProofLink} {utime : Nat} (h : l.validate = .ok utime) :
    l.SourceCommitted ↔ (l.fromBlk.seqno ≠ 0 ∨ l.proofHash = some l.fromBlk.rootHash) := by
  refine ⟨fun hc => Or.inr hc.proofHash_eq, fun hc => ?_⟩
  obtain ⟨vsRoot, hroot, hhash, hfwd, hback⟩ := validate_ok h
  refine ⟨vsRoot, hroot, ?_, hfwd, hback⟩
  rcases hc with hz | hp
  · exact hhash hz
  · rw [reprHash_virtualRoot hroot] at hp
    exact Option.some.inj hp

end BlockProofLink

end

/-! ## A link out of the zero state nobody signed for

A small concrete library, with a polynomial for the digest and one validator whose signature always
verifies, and the cells of a short masterchain in it. -/

namespace Sample

abbrev digest : Digest where
  sha256 bytes := BitVec.ofNat 256 (bytes.foldl (fun h b => (h * 257 + b.toNat + 1) % 2 ^ 256) 0)

/-- The info cell of masterchain block `seqno`, generated at time `seqno`. -/
def infoCell (seqno : Nat) (key : Bool) : Cell :=
  .mk false (natToBits 32 0x9bc7a987 ++ natToBits 32 0 ++ [false, false, false, false, false, false, key, false] ++
    natToBits 8 0 ++ natToBits 32 seqno ++ natToBits 32 0 ++
    (natToBits 8 0 ++ natToBits 32 0xffffffff ++ natToBits 64 0) ++
    natToBits 32 seqno ++ natToBits 64 0 ++ natToBits 64 0 ++ natToBits 32 0 ++ natToBits 32 0 ++ natToBits 32 0 ++
    natToBits 32 0)
    [.mk false (natToBits 64 0 ++ natToBits 32 (seqno - 1) ++ natToBits 256 0 ++ natToBits 256 0) []]

def emptyCell : Cell := .mk false [] []

/-- A masterchain state; the byte tells states apart. -/
def stateCell (n : Nat) : Cell := .mk false (natToBits 8 n) []

/-- Masterchain block `seqno`, which ends in state `seqno`. -/
def blockCell (seqno : Nat) (key : Bool) : Cell :=
  .mk false (natToBits 32 0x11ef55aa ++ natToBits 32 0)
    [infoCell seqno key, emptyCell, @Cell.createMerkleUpdate digest emptyCell (stateCell seqno), emptyCell]

def proofOf (c : Cell) : Cell := @Cell.createMerkleProof digest c

/-- A bag of cells is named by a byte for what it holds and one for the number of the block. -/
abbrev mcConfig : McConfig where
  toDigest := digest
  Config := CellRef
  ConfigInfo := CellRef
  stdBocDeserialize
    | [0, n] => .ok (proofOf (stateCell n.toNat))
    | [1, n] => .ok (proofOf (blockCell n.toNat false))
    | _ => .error (.error "not a bag of cells")
  extractFromKeyBlock r := .ok r
  extractFromState r := .ok r
  extractConfig r := .ok r
  checkOldMcBlockId _ _ := .ok true
  computeValidatorSet _ _ _ _ := .ok [⟨0, 1, 0⟩]
  computeValidatorSetHash _ _ _ := 0
  verifySignature _ _ _ := .ok ()

/-- The id of masterchain block `seqno` with a given root. -/
def blockId (seqno : UInt32) (root : Cell) : BlockIdExt :=
  ⟨⟨masterchainId, shardIdAll, seqno⟩, @Cell.getHash digest root 0, 0⟩

/-- A forward link from the zero state `start` to block 1 that takes its validators from the state `n`. -/
def linkFrom (start n : Nat) : BlockProofLink where
  fromBlk := blockId 0 (stateCell start)
  toBlk := blockId 1 (blockCell 1 false)
  isKey := false
  isFwd := true
  destProof := some (proofOf (blockCell 1 false))
  stateProof := none
  proof := some (proofOf (stateCell n))
  ccSeqno := 0
  validatorSetHash := 0
  signatures := [⟨@computeNodeIdShort mcConfig 0, []⟩]

theorem stateCell_hash_ne : @Cell.getHash digest (stateCell 7) 0 ≠ @Cell.getHash digest (stateCell 0) 0 := by
  decide +kernel

/-- Any state will do to take the validators from. -/
theorem linkFrom_zero_valid : @BlockProofLink.validate mcConfig (linkFrom 0 0) = .ok 1 ∧
    @BlockProofLink.validate mcConfig (linkFrom 0 7) = .ok 1 := by
  decide +kernel

theorem linkFrom_zero_zero_valid : @BlockProofLink.validate mcConfig (linkFrom 0 0) = .ok 1 := linkFrom_zero_valid.1

theorem linkFrom_zero_seven_valid : @BlockProofLink.validate mcConfig (linkFrom 0 7) = .ok 1 := linkFrom_zero_valid.2

/-- The honest link out of the zero state is committed to by the zero state id. -/
theorem linkFrom_zero_zero_committed : @BlockProofLink.SourceCommitted mcConfig (linkFrom 0 0) :=
  (@BlockProofLink.sourceCommitted_iff_of_validate mcConfig _ _ linkFrom_zero_zero_valid).2
    (Or.inr rfl)

/-- Acceptance does not mean commitment: the link that reads another state is accepted. -/
theorem validate_not_sourceCommitted :
    ¬ ∀ (E : McConfig) (l : BlockProofLink) (utime : Nat),
      @BlockProofLink.validate E l = .ok utime → @BlockProofLink.SourceCommitted E l := by
  intro h
  have hc := h mcConfig (linkFrom 0 7) 1 linkFrom_zero_seven_valid
  have hne : @BlockProofLink.proofHash mcConfig (linkFrom 0 7) ≠ some (linkFrom 0 7).fromBlk.rootHash :=
    fun heq => stateCell_hash_ne (Option.some.inj heq)
  exact hne (@BlockProofLink.SourceCommitted.proofHash_eq mcConfig _ hc)

end Sample

end TonWallet.Block
