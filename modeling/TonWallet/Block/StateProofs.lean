/-
What an accepted state proof is good for (`check_extract_state_proof`): whatever is read from the state it extracts is
in the state of the block, as the header of that block declares it.
-/
import TonWallet.Block.CheckProof
import TonWallet.Vm.ProofReading

namespace TonWallet.Block

open Lib TonWallet.Td TonWallet.Ton TonWallet.Vm McConfig

/-! ## Headers -/

section Header

variable [Digest] {v : Nat}

/-- The record of a block is unpacked from a proof with the state update of the block itself. -/
theorem BlockRecord.unpack_follows :
    Fetch.Follows v (fun a b => a.stateUpdate.StandsFor v b.stateUpdate) BlockRecord.unpack BlockRecord.unpack :=
  (Fetch.Follows.fetchTag 32 0x11ef55aa).bind fun _ _ _ =>
    (Fetch.Follows.fetchInt 32).bind fun _ _ _ =>
    Fetch.Follows.fetchRef.bind fun _ _ _ =>
    Fetch.Follows.fetchRef.bind fun _ _ _ =>
    Fetch.Follows.fetchRef.bind fun _ _ hstateUpdate =>
    Fetch.Follows.fetchRef.bind fun _ _ _ => .pure hstateUpdate

theorem stateUpdateHash_follows (hv : v ≠ 0) {blk blk' : BlockRecord} (h : blk.stateUpdate.StandsFor v blk'.stateUpdate)
    {stateHash : Bits256} (hhash : stateUpdateHash blk = .ok stateHash) : stateUpdateHash blk' = .ok stateHash := by
  obtain ⟨cs, hcs, hhash⟩ := bind_ok hhash
  obtain ⟨_, hcheck, hhash⟩ := bind_ok hhash
  obtain ⟨cs', hcs', hstands⟩ := h.loadNoVmSpec hv hcs
  rw [hstands.special, hstands.prefetchEq, hstands.sizeExt] at hcheck
  simp only [stateUpdateHash, bind, Except.bind, hcs', hcheck]
  have hr := hstands.prefetchRef 1
  generalize cs.prefetchRef 1 = r at hr hhash
  generalize cs'.prefetchRef 1 = r' at hr ⊢
  cases hr with
  | none => cases hhash
  | some hrefs =>
    cases hhash
    exact congrArg Except.ok hrefs.getHash_zero.symm

/-- The header shown by a proof declares the state hash that the header of the block declares. -/
theorem DeclaresState.follows (hv : v ≠ 0) {root root' : CellRef} (h : root.StandsFor v root') {stateHash : Bits256}
    (hdecl : DeclaresState root stateHash) : DeclaresState root' stateHash := by
  obtain ⟨blk, hblk, hhash⟩ := hdecl
  obtain ⟨_, hblk', hrel⟩ := unpackCell_follows BlockRecord.unpack_follows hv h hblk
  cases hrel with
  | some hupdate => exact ⟨_, hblk', stateUpdateHash_follows hv hupdate hhash⟩

/-- A header declares one state. -/
theorem DeclaresState.unique {root : CellRef} {x y : Bits256} (hx : DeclaresState root x) (hy : DeclaresState root y) : x = y := by
  obtain ⟨blk, hblk, hx⟩ := hx
  obtain ⟨blk', hblk', hy⟩ := hy
  rw [hblk] at hblk'
  cases hblk'
  exact Except.ok.inj (hx.symm.trans hy)

/-- A block with an id and the state that its header declares, both of them whole. -/
structure Ends (blkid : BlockIdExt) (block state : Cell) : Prop where
  wholeBlock : Cell.Whole 0 block
  wholeState : Cell.Whole 0 state
  id : (⟨block, .none⟩ : CellRef).reprHash = blkid.rootHash
  declares : DeclaresState ⟨block, .none⟩ (⟨state, .none⟩ : CellRef).reprHash

end Header

/-! ## States -/

section

variable [McConfig] {α : Type}

/-- A bag of cells, if it is one, holds a cell that was created and does not collide with a tree. -/
def Unforged (bytes : List UInt8) (c : Cell) : Prop :=
  ∀ p, stdBocDeserialize bytes = .ok p → Cell.Valid p ∧ Cell.CollisionFree p c

/-- The state hash that is checked is declared in the header of the block itself. -/
theorem checkStateProof_declares {blkid : BlockIdExt} {proof : List UInt8} {stateHash : Bits256} {block : Cell}
    (h : checkStateProof blkid proof = .ok stateHash) (hblock : Cell.Whole 0 block)
    (hid : (⟨block, .none⟩ : CellRef).reprHash = blkid.rootHash) (hproof : Unforged proof block) :
    DeclaresState ⟨block, .none⟩ stateHash := by
  obtain ⟨p, hp, h⟩ := bind_ok h
  obtain ⟨header, hheader, h⟩ := bind_ok h
  obtain ⟨r, hr, h⟩ := bind_ok h
  obtain ⟨hroot, hstate⟩ := checkBlockHeaderProof_ok hr
  obtain ⟨sh, hsh, hdecl⟩ := hstate rfl
  rw [hsh] at h
  cases h
  obtain ⟨hv, hcol⟩ := hproof p (ofStatus_ok_iff.1 hp)
  have hshows := MerkleProof.virtualize_shows hv hblock hcol (orFail_ok_iff.1 hheader) (hroot.trans hid.symm)
  exact hdecl.follows Nat.one_ne_zero ⟨0, block, rfl, hshows⟩

/-- Whatever a program reads from a state that was extracted for a block, it reads from the state that the block
declares: the server that sends the two proofs cannot show anything else. -/
theorem run_extractedState {blkid : BlockIdExt} {proof data : List UInt8} {stateRoot : CellRef} {block state : Cell}
    (h : checkExtractStateProof blkid proof data = .ok stateRoot) (hends : Ends blkid block state)
    (hproof : Unforged proof block) (hdata : Unforged data state) (rd : Reader α) {a : α} (hrun : rd.run [stateRoot] = .ok a) :
    rd.run [⟨state, .none⟩] = .ok a := by
  obtain ⟨stateHash, hs, h⟩ := bind_ok (catchVm_ok_iff.1 h)
  obtain ⟨p, hp, h⟩ := bind_ok h
  obtain ⟨virtRoot, hvirt, h⟩ := bind_ok h
  obtain ⟨_, hne, h⟩ := bind_ok h
  cases h
  have hhash : stateHash = stateRoot.reprHash := not_not.1 (failIf_ok_iff.1 hne)
  -- the hash that was compared is the declared one, so the extracted state shows the one of the block
  have heq := hends.declares.unique (checkStateProof_declares hs hends.wholeBlock hends.id hproof)
  obtain ⟨hv, hcol⟩ := hdata p (ofStatus_ok_iff.1 hp)
  have hshows := MerkleProof.virtualize_shows hv hends.wholeState hcol (orFail_ok_iff.1 hvirt) (hhash.symm.trans heq.symm)
  have hcells : List.Forall₂ (fun r c => ∃ d, CellRef.Shows d 1 r c) [stateRoot] [state] := .cons ⟨0, hshows⟩ .nil
  exact rd.run_of_shows Nat.one_ne_zero hcells hrun

end

namespace Sample

/-- The program that reads the data of a state. -/
def readState : Reader (List Bool) := .load 0 fun v => .done v.bits

theorem run_extractedState_one : @Reader.run _ digest readState [⟨stateCell 1, .none⟩] = .ok (natToBits 8 1) := by
  have hread : (@checkExtractStateProof mcConfig (blockId 1 (blockCell 1 false)) [1, 1] [0, 1]).bind
      (fun r => @Reader.run _ digest readState [r]) = .ok (natToBits 8 1) := by
    decide +kernel
  have hends : @Ends digest (blockId 1 (blockCell 1 false)) (blockCell 1 false) (stateCell 1) :=
    @Ends.mk digest _ _ _ (by decide +kernel) (by decide +kernel) (by decide +kernel) ⟨_, rfl, by decide +kernel⟩
  have hproof : @Unforged mcConfig [1, 1] (blockCell 1 false) := by
    intro p hp
    cases hp
    exact ⟨by decide +kernel, by decide +kernel⟩
  have hdata : @Unforged mcConfig [0, 1] (stateCell 1) := by
    intro p hp
    cases hp
    exact ⟨by decide +kernel, by decide +kernel⟩
  cases h : @checkExtractStateProof mcConfig (blockId 1 (blockCell 1 false)) [1, 1] [0, 1] with
  | error e =>
    rw [h] at hread
    cases hread
  | ok r =>
    rw [h] at hread
    exact @run_extractedState mcConfig _ _ _ _ _ _ _ h hends hproof hdata readState _ hread

end Sample

end TonWallet.Block
