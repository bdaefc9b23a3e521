/-
Proof chains (`lite-client-common`, `block/check-proof.cpp`): the answer to `getBlockProof`, its
deserialization into a chain of links, and the validation of a chain. A validated chain is a path of
accepted links from its first to its last block, and the key block it reports lies on that path.
-/
import TonWallet.Block.CheckProof
import TonWallet.Lib.Run

namespace TonWallet.Block

open Lib TonWallet.Td TonWallet.Ton TonWallet.Vm

/-! ## Answers to `getBlockProof` -/

structure SignatureSet where
  validatorSetHash : Nat
  catchainSeqno : Nat
  signatures : List BlockSignature

/-- `liteServer.BlockLink`. -/
inductive BlockLink
  | back (toKeyBlock : Bool) (fromBlk toBlk : BlockIdExt) (destProof proof stateProof : List UInt8)
  | forward (toKeyBlock : Bool) (fromBlk toBlk : BlockIdExt) (destProof configProof : List UInt8)
    (signatures : SignatureSet)

/-- `liteServer.partialBlockProof`. -/
structure PartialBlockProof where
  complete : Bool
  fromBlk : BlockIdExt
  toBlk : BlockIdExt
  steps : List BlockLink

/-! ## Chains -/

/-- `block::BlockProofChain`. -/
structure BlockProofChain where
  fromBlk : BlockIdExt
  toBlk : BlockIdExt
  lastUtime : Nat := 0
  complete : Bool := false
  hasKeyBlock : Bool := false
  hasUtime : Bool := false
  valid : Bool := false
  keyBlkid : BlockIdExt := .none
  links : List BlockProofLink := []

section

variable [McConfig]

/-- `std_boc_deserialize` of a part of a link, where an error names the part. -/
def deserializePart (part : String) (data : List UInt8) : Result Cell :=
  renameStatus (fun s => "cannot deserialize " ++ part ++ " in a block proof link: " ++ s.toStr)
    (ofStatus (McConfig.stdBocDeserialize data))

/-- An absent destination proof is an empty byte string. -/
def deserializeDest (data : List UInt8) : Result (Option Cell) :=
  if data.isEmpty then .ok none else some <$> deserializePart "dest_proof" data

def BlockLink.deserialize : BlockLink → Result BlockProofLink
  | .back toKeyBlock fromBlk toBlk destProof proof stateProof => do
    let dest ← deserializeDest destProof
    let source ← deserializePart "proof" proof
    let state ← deserializePart "state_proof" stateProof
    return ⟨fromBlk, toBlk, toKeyBlock, false, dest, some state, some source, 0, 0, []⟩
  | .forward toKeyBlock fromBlk toBlk destProof configProof sigs => do
    let dest ← deserializeDest destProof
    let source ← deserializePart "proof" configProof
    return ⟨fromBlk, toBlk, toKeyBlock, true, dest, none, some source, sigs.catchainSeqno, sigs.validatorSetHash,
      sigs.signatures⟩

/-- `liteclient::deserialize_proof_chain`. -/
def deserializeProofChain (f : PartialBlockProof) : Result BlockProofChain := do
  let links ← f.steps.mapM BlockLink.deserialize
  return { fromBlk := f.fromBlk, toBlk := f.toBlk, complete := f.complete, links }

namespace BlockProofChain

/-- What the loop of `validate` keeps of an accepted link: its time, and its block when it is the
highest key block so far. -/
def note (c : BlockProofChain) (link : BlockProofLink) (lastUtime : Nat) : BlockProofChain :=
  if link.isKey ∧ (!c.hasKeyBlock ∨ c.keyBlkid.seqno < link.toBlk.seqno) then
    { c with lastUtime, keyBlkid := link.toBlk, hasKeyBlock := true }
  else { c with lastUtime }

/-- The loop of `validate` over the links, from the block `cur`, where `i` links were before; the
cancellation token is read before each link. -/
def validateLinks (token : Nat → Bool) : List BlockProofLink → Nat → BlockIdExt → BlockProofChain →
    Result (BlockIdExt × BlockProofChain)
  | [], _, cur, chain => .ok (cur, chain)
  | link :: links, i, cur, chain => do
    failIf (link.fromBlk ≠ cur)
      ("link #" ++ toString (i + 1) ++ " in a BlockProofChain begins with block " ++ link.fromBlk.toStr ++
        " but the previous link ends at different block " ++ cur.toStr)
    failIf (token i) "Cancelled"
    let lastUtime ← renameStatus
      (fun s => "link #" ++ toString (i + 1) ++ " in BlockProofChain is invalid: " ++ s.toStr) link.validate
    validateLinks token links (i + 1) link.toBlk (chain.note link lastUtime)

/-- `BlockProofChain::validate`. -/
def validate (token : Nat → Bool) (c : BlockProofChain) : Result BlockProofChain := do
  let c := { c with
    valid := false, hasKeyBlock := false, hasUtime := false, lastUtime := 0, keyBlkid := c.keyBlkid.invalidate }
  failIf (!(c.fromBlk.isMasterchainExt && c.toBlk.isMasterchainExt))
    "BlockProofChain must have both source and destination blocks in the masterchain"
  if c.links.isEmpty then
    failIf (c.fromBlk ≠ c.toBlk)
      ("BlockProofChain has no links, but its source block " ++ c.fromBlk.toStr ++ " and destination block " ++
        c.toBlk.toStr ++ " differ")
    return { c with valid := true }
  else
    let (cur, c) ← validateLinks token c.links 0 c.fromBlk c
    failIf (cur ≠ c.toBlk)
      ("last link of BlockProofChain ends at block " ++ cur.toStr ++
        " different from declared chain destination block " ++ c.toBlk.toStr)
    return { c with hasUtime := decide (0 < c.lastUtime), valid := true }

end BlockProofChain

/-! ## Paths of accepted links -/

/-- An accepted link leads from its source to its destination. -/
def LinkStep (a : BlockIdExt) (l : BlockProofLink) (b : BlockIdExt) : Prop :=
  l.fromBlk = a ∧ l.toBlk = b ∧ ∃ utime, l.validate = .ok utime

/-- Accepted links lead, one after the other, from `a` to `b`. -/
def Connects (a : BlockIdExt) (links : List BlockProofLink) (b : BlockIdExt) : Prop := Run LinkStep a links b

/-- Some accepted links lead from `a` to `b`. -/
def Linked (a b : BlockIdExt) : Prop := ∃ links, Connects a links b

theorem Linked.refl (a : BlockIdExt) : Linked a a := ⟨[], .nil⟩

theorem Linked.trans {a b c : BlockIdExt} : Linked a b → Linked b c → Linked a c
  | ⟨_, h⟩, ⟨_, h'⟩ => ⟨_, Run.append h h'⟩

namespace BlockProofChain

/-- What a prefix of the loop has found: a path to the current block, and the reported key block on it. -/
structure PathTo (c : BlockProofChain) (links : List BlockProofLink) (cur : BlockIdExt) : Prop where
  path : Connects c.fromBlk links cur
  key : c.hasKeyBlock = true → Linked c.fromBlk c.keyBlkid

/-- The fields of a chain the loop only reads. -/
def SameEnds (c c' : BlockProofChain) : Prop :=
  c'.fromBlk = c.fromBlk ∧ c'.toBlk = c.toBlk ∧ c'.links = c.links ∧ c'.complete = c.complete

omit [McConfig] in
theorem SameEnds.trans {a b c : BlockProofChain} : SameEnds a b → SameEnds b c → SameEnds a c
  | ⟨h₁, h₂, h₃, h₄⟩, ⟨g₁, g₂, g₃, g₄⟩ => ⟨g₁.trans h₁, g₂.trans h₂, g₃.trans h₃, g₄.trans h₄⟩

omit [McConfig] in
theorem sameEnds_note (c : BlockProofChain) (link : BlockProofLink) (utime : Nat) : c.SameEnds (c.note link utime) := by
  unfold note; split <;> exact ⟨rfl, rfl, rfl, rfl⟩

theorem PathTo.note {c : BlockProofChain} {done : List BlockProofLink} {cur : BlockIdExt} {link : BlockProofLink}
    (hp : c.PathTo done cur) (hs : LinkStep cur link link.toBlk) (utime : Nat) :
    (c.note link utime).PathTo (done ++ [link]) link.toBlk := by
  have hpath : Connects c.fromBlk (done ++ [link]) link.toBlk := hp.path.snoc hs
  unfold BlockProofChain.note
  split
  · exact ⟨hpath, fun _ => ⟨_, hpath⟩⟩
  · exact ⟨hpath, hp.key⟩

theorem validateLinks_ok {token : Nat → Bool} {links done : List BlockProofLink} {i : Nat} {cur last : BlockIdExt}
    {c c' : BlockProofChain} (h : validateLinks token links i cur c = .ok (last, c')) (hp : c.PathTo done cur) :
    c.SameEnds c' ∧ c'.PathTo (done ++ links) last := by
  induction links generalizing done i cur c with
  | nil =>
    cases h
    rw [List.append_nil]
    exact ⟨⟨rfl, rfl, rfl, rfl⟩, hp⟩
  | cons link links ih =>
    obtain ⟨_, hfrom, h⟩ := bind_ok h
    obtain ⟨_, -, h⟩ := bind_ok h
    obtain ⟨utime, hvalid, h⟩ := bind_ok h
    have hstep : LinkStep cur link link.toBlk :=
      ⟨not_not.1 (failIf_ok_iff.1 hfrom), rfl, utime, renameStatus_ok_iff.1 hvalid⟩
    obtain ⟨hends, hpath⟩ := ih h (hp.note hstep utime)
    refine ⟨(sameEnds_note c link utime).trans hends, ?_⟩
    simpa using hpath

/-- A validated chain: a path of accepted links between masterchain blocks, with its key block on it. -/
theorem validate_ok {token : Nat → Bool} {c c' : BlockProofChain} (h : c.validate token = .ok c') :
    c.SameEnds c' ∧ c'.fromBlk.isMasterchainExt = true ∧ c'.toBlk.isMasterchainExt = true ∧
      Connects c'.fromBlk c'.links c'.toBlk ∧ (c'.hasKeyBlock = true → Linked c'.fromBlk c'.keyBlkid) := by
  obtain ⟨_, hmc, h⟩ := bind_ok h
  have hmc : c.fromBlk.isMasterchainExt = true ∧ c.toBlk.isMasterchainExt = true := by
    simpa using failIf_ok_iff.1 hmc
  split at h
  · rename_i hnil
    obtain ⟨_, heq, h⟩ := bind_ok h
    have heq : c.fromBlk = c.toBlk := not_not.1 (failIf_ok_iff.1 heq)
    cases h
    have hlinks : c.links = [] := List.isEmpty_iff.1 hnil
    refine ⟨⟨rfl, rfl, rfl, rfl⟩, hmc.1, hmc.2, ?_, fun hk => by cases hk⟩
    show Connects c.fromBlk c.links c.toBlk
    rw [hlinks, heq]
    exact .nil
  · obtain ⟨⟨cur, d⟩, hloop, h⟩ := bind_ok h
    obtain ⟨_, hend, h⟩ := bind_ok h
    have hend : cur = d.toBlk := not_not.1 (failIf_ok_iff.1 hend)
    cases h
    obtain ⟨⟨hf, ht, hl, hcomp⟩, hpath⟩ := validateLinks_ok hloop ⟨.nil, fun hk => by cases hk⟩
    refine ⟨⟨hf, ht, hl, hcomp⟩, hf ▸ hmc.1, ht ▸ hmc.2, ?_, hpath.key⟩
    have := hpath.path
    rw [List.nil_append, hend] at this
    simpa only [hl] using this

end BlockProofChain

end

end TonWallet.Block
