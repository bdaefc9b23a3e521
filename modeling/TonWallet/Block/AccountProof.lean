/-
Account proofs (`check_account_proof`): the state of a shard is unpacked from a proof, and the account is looked up in
it. An accepted proof shows the account, or that there is none, as the state of the shard block has it.
-/
import TonWallet.Block.StateProofs
import TonWallet.Block.StdAddress
import TonWallet.Block.Message
import TonWallet.Vm.ProofDictionary

namespace TonWallet.Block

open Lib TonWallet.Td TonWallet.Ton TonWallet.Vm TonWallet.Vm.Fetch

/-! ## Texts -/

/-- `move_as_error_prefix` of a text. -/
def prefixed {α : Type} (pre : String) : Result α → Result α
  | .error (.status s) => .error (.status ⟨s.code, pre ++ " " ++ s.message⟩)
  | r => r

@[simp] theorem prefixed_ok_iff {α : Type} {pre : String} {r : Result α} {a : α} : prefixed pre r = .ok a ↔ r = .ok a := by
  unfold prefixed
  split <;> simp

/-- How an address is printed. -/
def StdAddress.toStr (a : StdAddress) : String := toString a.workchain.toInt ++ " : " ++ hashHex a.addr

/-! ## Records -/

/-- `block::gen::ShardStateUnsplit_aux::Record`. -/
structure ShardStateUnsplitAux where
  overloadHistory : Nat
  underloadHistory : Nat
  totalBalance : CellSlice
  totalValidatorFees : CellSlice
  libraries : CellSlice
  masterRef : CellSlice

/-- The fields of a state in front of the record in a cell of its own, and that cell. -/
structure ShardStateHead where
  globalId : Int
  shardId : CellSlice
  seqNo : Nat
  vertSeqNo : Nat
  genUtime : Nat
  genLt : Nat
  minRefMcSeqno : Nat
  outMsgQueueInfo : CellRef
  beforeSplit : Bool
  accounts : CellRef
  aux : CellRef

/-- `block::gen::ShardStateUnsplit::Record`. -/
structure ShardStateUnsplit extends ShardStateHead where
  r1 : ShardStateUnsplitAux
  custom : CellSlice

/-- `block::gen::ShardAccount::Record`. -/
structure ShardAccount where
  account : CellRef
  lastTransHash : Bits256
  lastTransLt : Nat

def ShardStateUnsplitAux.unpack : Fetch ShardStateUnsplitAux := do
  let overloadHistory ← fetchUint 64
  let underloadHistory ← fetchUint 64
  let totalBalance ← fetchTo skipCurrencyCollection
  let totalValidatorFees ← fetchTo skipCurrencyCollection
  let libraries ← fetchTo skipHashmapE
  let masterRef ← fetchTo (skipMaybe (advance 608))
  return { overloadHistory, underloadHistory, totalBalance, totalValidatorFees, libraries, masterRef }

/-- `DepthBalanceInfo::skip`. -/
def skipDepthBalanceInfo : Fetch Unit := do
  advance 5
  skipCurrencyCollection

section

variable [Digest]

def ShardStateHead.unpack : Fetch ShardStateHead := do
  fetchTag 32 0x9023afe2
  let globalId ← fetchInt 32
  let shardId ← fetchSubslice 104
  let seqNo ← fetchUint 32
  let vertSeqNo ← fetchUintInt 32
  let genUtime ← fetchUint 32
  let genLt ← fetchUint 64
  let minRefMcSeqno ← fetchUint 32
  let outMsgQueueInfo ← fetchRef
  let beforeSplit ← fetchBool
  let accounts ← fetchRef
  let aux ← fetchRef
  return {
    globalId, shardId, seqNo, vertSeqNo, genUtime, genLt, minRefMcSeqno, outMsgQueueInfo, beforeSplit, accounts, aux }

/-- `ShardStateUnsplit::cell_unpack`; the record in a cell of its own is unpacked before the last field. -/
def ShardStateUnsplit.cellUnpack (r : CellRef) : Result (Option ShardStateUnsplit) := do
  let cs ← loadCellSlice r
  let some (head, cs) := ShardStateHead.unpack cs | return none
  let some r1 ← unpackCell ShardStateUnsplitAux.unpack head.aux | return none
  let some custom := unpackExact (fetchTo (skipMaybe skipRef)) cs | return none
  return some { head with r1, custom }

def ShardAccount.unpack : Fetch ShardAccount := do
  let account ← fetchRef
  let lastTransHash ← fetchHash
  let lastTransLt ← fetchUint 64
  return { account, lastTransHash, lastTransLt }

/-- `AugmentedDictionary::lookup` of an account, in the dictionary under the first reference. -/
def lookupAccount (accounts : CellRef) (addr : Bits256) : Result (Option CellSlice) := do
  let cs ← loadCellSlice accounts
  -- the bit in front of the reference is not looked at
  let some root := cs.prefetchRef 0 | return none
  let valueExtra ← CellRef.dictLookup .chkSize (some root) (natToBits 256 addr.toNat)
  return valueExtra.bind fun cs => (skipDepthBalanceInfo cs).map (·.2)

/-! ## The check -/

/-- `check_block_header_proof`, where the state hash is compared with that of the caller (`check_state_hash`). -/
def checkBlockHeaderState (root : Option CellRef) (blkid : BlockIdExt) (stateHash : Bits256) : Result HeaderProof := do
  let some root := root | .error (.check "deferencing null Ref")
  let header ← checkBlockHeaderProof root blkid true
  let declared := header.stateHash.getD 0
  failIf (stateHash ≠ declared) ("state hash mismatch in block header of " ++ blkid.toStr ++ " : header declares " ++
    hashHex declared ++ " expected " ++ hashHex stateHash)
  return header

/-- What `check_account_proof` stores; where there is no account the hash is set to zero and the time is left. -/
structure AccountProof where
  lastTrans : Option (Bits256 × Nat)
  genUtime : Nat
  endLt : Nat

/-- The part of `check_account_proof` behind the header of the block. -/
def checkAccount (stateRoot : CellRef) (addr : StdAddress) (root : Option CellRef) : Result (Option (Bits256 × Nat)) := do
  let sstate ← orFail (ShardStateUnsplit.cellUnpack stateRoot) "cannot unpack state header"
  let shows := "account state proof shows that account state for " ++ addr.toStr
  match ← lookupAccount sstate.accounts addr.addr, root with
  | some _, none => fail (shows ++ " must be non-empty, but it actually is empty")
  | some accCsr, some root => do
    let some accInfo := unpackExact ShardAccount.unpack accCsr | fail "cannot unpack ShardAccount from proof"
    failIf (accInfo.account.reprHash ≠ root.reprHash) ("account state hash mismatch: Merkle proof expects " ++
      hashHex accInfo.account.reprHash ++ " but received data has " ++ hashHex root.reprHash)
    return some (accInfo.lastTransHash, accInfo.lastTransLt)
  | none, some _ => fail (shows ++ " must be empty, but it is not")
  | none, none => return none

end

/-! ## Reading a state out of a proof -/

section Follows

variable {v : Nat}

theorem skipMaybe_follows [Digest] {x : Fetch Unit} (hx : Follows v Eq x x) : Follows v Eq (skipMaybe x) (skipMaybe x) := by
  refine (Follows.prefetchUint 1).bind fun tag _ htag => ?_
  subst htag
  refine (Follows.advance 1).bind fun _ _ _ => ?_
  split
  · exact hx
  · exact .pure rfl

variable [Digest]

theorem skipHashmapE_follows : Follows v Eq skipHashmapE skipHashmapE := by
  refine (Follows.prefetchUint 1).bind fun tag _ htag => ?_
  subst htag
  split
  · exact .advance 1
  · exact .advanceExt 1 1

theorem skipVarUInteger_follows (m : Nat) : Follows v Eq (skipVarUInteger m) (skipVarUInteger m) := by
  refine (Follows.fetchUintLeq (m - 1)).bind fun len _ hlen => ?_
  subst hlen
  exact .advance (8 * len)

theorem skipCurrencyCollection_follows : Follows v Eq skipCurrencyCollection skipCurrencyCollection :=
  (skipVarUInteger_follows 16).bind fun _ _ _ => skipHashmapE_follows

theorem skipDepthBalanceInfo_follows : Follows v Eq skipDepthBalanceInfo skipDepthBalanceInfo :=
  (Follows.advance 5).bind fun _ _ _ => skipCurrencyCollection_follows

theorem ShardStateUnsplitAux.unpack_follows :
    Follows v (fun _ _ => True) ShardStateUnsplitAux.unpack ShardStateUnsplitAux.unpack :=
  (Follows.fetchUint 64).bind fun _ _ _ =>
    (Follows.fetchUint 64).bind fun _ _ _ =>
    skipCurrencyCollection_follows.fetchTo.bind fun _ _ _ =>
    skipCurrencyCollection_follows.fetchTo.bind fun _ _ _ =>
    skipHashmapE_follows.fetchTo.bind fun _ _ _ =>
    (skipMaybe_follows (.advance 608)).fetchTo.bind fun _ _ _ => .pure trivial

/-- The cells that are read further are those of the state. -/
theorem ShardStateHead.unpack_follows :
    Follows v (fun a b => a.accounts.StandsFor v b.accounts ∧ a.aux.StandsFor v b.aux) ShardStateHead.unpack
      ShardStateHead.unpack :=
  (Follows.fetchTag 32 0x9023afe2).bind fun _ _ _ =>
    (Follows.fetchInt 32).bind fun _ _ _ =>
    (Follows.fetchSubslice 104).bind fun _ _ _ =>
    (Follows.fetchUint 32).bind fun _ _ _ =>
    (Follows.fetchUintInt 32).bind fun _ _ _ =>
    (Follows.fetchUint 32).bind fun _ _ _ =>
    (Follows.fetchUint 64).bind fun _ _ _ =>
    (Follows.fetchUint 32).bind fun _ _ _ =>
    Follows.fetchRef.bind fun _ _ _ =>
    Follows.fetchBool.bind fun _ _ _ =>
    Follows.fetchRef.bind fun _ _ haccounts =>
    Follows.fetchRef.bind fun _ _ haux => .pure ⟨haccounts, haux⟩

theorem ShardAccount.unpack_follows :
    Follows v (fun a b => a.account.StandsFor v b.account ∧ a.lastTransHash = b.lastTransHash ∧ a.lastTransLt = b.lastTransLt)
      ShardAccount.unpack ShardAccount.unpack :=
  Follows.fetchRef.bind fun _ _ haccount =>
    Follows.fetchHash.bind fun _ _ hhash =>
    (Follows.fetchUint 64).bind fun _ _ hlt => .pure ⟨haccount, hhash, hlt⟩

theorem ShardStateUnsplit.cellUnpack_follows (hv : v ≠ 0) {r r' : CellRef} (h : r.StandsFor v r') {s : ShardStateUnsplit}
    (hs : cellUnpack r = .ok (some s)) : ∃ s', cellUnpack r' = .ok (some s') ∧ s.accounts.StandsFor v s'.accounts := by
  obtain ⟨cs, hcs, hs⟩ := bind_ok hs
  obtain ⟨cs', hcs', hstands⟩ := h.loadCellSlice hv hcs
  simp only [cellUnpack, bind, Except.bind, hcs']
  have hhead := ShardStateHead.unpack_follows cs cs' hstands
  generalize ShardStateHead.unpack cs = x at hhead hs
  generalize ShardStateHead.unpack cs' = y at hhead ⊢
  cases hhead with
  | none => cases hs
  | @some x y hxy =>
    obtain ⟨⟨haccounts, haux⟩, htail⟩ := hxy
    obtain ⟨r1, hr1, hs⟩ := bind_ok hs
    obtain ⟨r1', hr1', hrel⟩ := unpackCell_follows ShardStateUnsplitAux.unpack_follows hv haux hr1
    -- the record in a cell of its own may be refused, and then the last field is not looked at
    have hcustom := unpackExact_follows (skipMaybe_follows (.advanceExt 0 1)).fetchTo htail
    dsimp only at hs ⊢
    rw [hr1']
    cases hrel with
    | none => cases hs
    | some _ =>
      dsimp only at hs ⊢
      unfold skipRef at hs ⊢
      generalize unpackExact (fetchTo (skipMaybe (Fetch.advanceExt 0 1))) x.2 = z at hcustom hs
      generalize unpackExact (fetchTo (skipMaybe (Fetch.advanceExt 0 1))) y.2 = z' at hcustom ⊢
      cases hcustom with
      | none => cases hs
      | some _ =>
        cases hs
        exact ⟨_, rfl, haccounts⟩

/-- An account is found in a proof, or is not, as in the whole state. -/
theorem lookupAccount_follows (hv : v ≠ 0) {accounts accounts' : CellRef} (h : accounts.StandsFor v accounts')
    {addr : Bits256} {x : Option CellSlice} (hx : lookupAccount accounts addr = .ok x) :
    ∃ y, lookupAccount accounts' addr = .ok y ∧ Option.Rel (CellSlice.StandsFor v) x y := by
  obtain ⟨cs, hcs, hx⟩ := bind_ok hx
  obtain ⟨cs', hcs', hstands⟩ := h.loadCellSlice hv hcs
  simp only [lookupAccount, bind, Except.bind, hcs']
  have hroot := hstands.prefetchRef 0
  generalize cs.prefetchRef 0 = root at hroot hx
  generalize cs'.prefetchRef 0 = root' at hroot ⊢
  cases hroot with
  | none =>
    cases hx
    exact ⟨none, rfl, .none⟩
  | some hroot =>
    obtain ⟨found, hfound, hx⟩ := bind_ok hx
    obtain ⟨found', hfound', hrel⟩ := CellRef.dictLookup_standsFor hv (.some hroot) hfound
    cases hx
    dsimp only
    rw [hfound']
    refine ⟨_, rfl, ?_⟩
    cases hrel with
    | none => exact .none
    | @some a b hab =>
      have hskip := skipDepthBalanceInfo_follows a b hab
      rw [Option.bind_some, Option.bind_some]
      generalize skipDepthBalanceInfo a = u at hskip ⊢
      generalize skipDepthBalanceInfo b = w at hskip ⊢
      cases hskip with
      | none => exact .none
      | some h => exact .some h.2

end Follows

/-! ## Accounts of a state -/

section

variable [Digest] {v : Nat}

/-- The account at an address of a state. -/
def HasAccount (state : CellRef) (addr : Bits256) (a : ShardAccount) : Prop :=
  ∃ s cs, ShardStateUnsplit.cellUnpack state = .ok (some s) ∧ lookupAccount s.accounts addr = .ok (some cs) ∧
    unpackExact ShardAccount.unpack cs = some a

/-- There is no account at an address of a state. -/
def HasNoAccount (state : CellRef) (addr : Bits256) : Prop :=
  ∃ s, ShardStateUnsplit.cellUnpack state = .ok (some s) ∧ lookupAccount s.accounts addr = .ok none

theorem HasAccount.follows (hv : v ≠ 0) {state state' : CellRef} (h : state.StandsFor v state') {addr : Bits256}
    {a : ShardAccount} (ha : HasAccount state addr a) : ∃ a', HasAccount state' addr a' ∧ a.account.StandsFor v a'.account ∧
      a.lastTransHash = a'.lastTransHash ∧ a.lastTransLt = a'.lastTransLt := by
  obtain ⟨s, cs, hs, hcs, ha⟩ := ha
  obtain ⟨s', hs', haccounts⟩ := ShardStateUnsplit.cellUnpack_follows hv h hs
  obtain ⟨y, hy, hrel⟩ := lookupAccount_follows hv haccounts hcs
  cases hrel with
  | @some _ cs' hstands =>
    have hunpack := unpackExact_follows ShardAccount.unpack_follows hstands
    rw [ha] at hunpack
    generalize hz : unpackExact ShardAccount.unpack cs' = z at hunpack
    cases hunpack with
    | some h => exact ⟨_, ⟨s', cs', hs', hy, hz⟩, h⟩

theorem HasNoAccount.follows (hv : v ≠ 0) {state state' : CellRef} (h : state.StandsFor v state') {addr : Bits256}
    (hn : HasNoAccount state addr) : HasNoAccount state' addr := by
  obtain ⟨s, hs, hcs⟩ := hn
  obtain ⟨s', hs', haccounts⟩ := ShardStateUnsplit.cellUnpack_follows hv h hs
  obtain ⟨y, hy, hrel⟩ := lookupAccount_follows hv haccounts hcs
  cases hrel with
  | none => exact ⟨s', hs', hy⟩

/-- An account that is accepted has the hash that the state shows. -/
theorem checkAccount_some {stateRoot root : CellRef} {addr : StdAddress} {last : Option (Bits256 × Nat)}
    (h : checkAccount stateRoot addr (some root) = .ok last) :
    ∃ a, HasAccount stateRoot addr.addr a ∧ a.account.reprHash = root.reprHash ∧
      last = some (a.lastTransHash, a.lastTransLt) := by
  obtain ⟨s, hs, h⟩ := bind_ok h
  obtain ⟨x, hx, h⟩ := bind_ok h
  cases x with
  | none => cases h
  | some cs =>
    dsimp only at h
    cases ha : unpackExact ShardAccount.unpack cs with
    | none =>
      rw [ha] at h
      cases h
    | some a =>
      rw [ha] at h
      obtain ⟨_, hne, h⟩ := bind_ok h
      cases h
      exact ⟨a, ⟨s, cs, orFail_ok_iff.1 hs, hx, ha⟩, not_not.1 (failIf_ok_iff.1 hne), rfl⟩

/-- No account is accepted where the state shows none. -/
theorem checkAccount_none {stateRoot : CellRef} {addr : StdAddress} {last : Option (Bits256 × Nat)}
    (h : checkAccount stateRoot addr none = .ok last) : HasNoAccount stateRoot addr.addr ∧ last = none := by
  obtain ⟨s, hs, h⟩ := bind_ok h
  obtain ⟨x, hx, h⟩ := bind_ok h
  cases x with
  | none =>
    cases h
    exact ⟨⟨s, orFail_ok_iff.1 hs, hx⟩, rfl⟩
  | some cs => cases h

theorem checkBlockHeaderState_ok {root : Option CellRef} {blkid : BlockIdExt} {stateHash : Bits256} {header : HeaderProof}
    (h : checkBlockHeaderState root blkid stateHash = .ok header) :
    ∃ r, root = some r ∧ r.reprHash = blkid.rootHash ∧ DeclaresState r stateHash := by
  cases root with
  | none => cases h
  | some r =>
    obtain ⟨p, hp, h⟩ := bind_ok h
    obtain ⟨_, hne, -⟩ := bind_ok h
    obtain ⟨hroot, hstate⟩ := checkBlockHeaderProof_ok hp
    obtain ⟨declared, hsome, hdecl⟩ := hstate rfl
    have heq := not_not.1 (failIf_ok_iff.1 hne)
    rw [hsome] at heq
    exact ⟨r, rfl, hroot, heq ▸ hdecl⟩

end

/-! ## Accepted proofs -/

/-- What account proofs take from the rest of the library. -/
class AccountBoc extends Digest where
  stdBocDeserializeMulti : List UInt8 → Except Status (List Cell)

section

variable [AccountBoc]

def checkAccountProof (proof : List UInt8) (shardBlk : BlockIdExt) (addr : StdAddress) (root : Option CellRef) :
    Result AccountProof := do
  let roots ← prefixed "cannot deserialize account proof" (ofStatus (AccountBoc.stdBocDeserializeMulti proof))
  let [headerProof, stateProof] := roots | fail "account state proof must have exactly two roots"
  catchVm "error while traversing account proof : " "virtualization error while traversing account proof : " do
    let stateRoot ← orFail (MerkleProof.virtualize stateProof) "account state proof is invalid"
    let headerRoot ← MerkleProof.virtualize headerProof
    let header ← prefixed "error in account shard block header proof : "
      (checkBlockHeaderState headerRoot shardBlk stateRoot.reprHash)
    let lastTrans ← checkAccount stateRoot addr root
    return ⟨lastTrans, header.genUtime, header.endLt⟩

/-- The two roots of a proof, if there are two, are cells that were created and do not collide with the block and the
state. -/
def UnforgedRoots (bytes : List UInt8) (block state : Cell) : Prop :=
  ∀ header root, AccountBoc.stdBocDeserializeMulti bytes = .ok [header, root] →
    Cell.Valid header ∧ Cell.CollisionFree header block ∧ Cell.Valid root ∧ Cell.CollisionFree root state

/-- What is behind the header is read from a cell that stands for the state of the block. -/
theorem checkAccountProof_ok {proof : List UInt8} {shardBlk : BlockIdExt} {addr : StdAddress} {root : Option CellRef}
    {out : AccountProof} {block state : Cell} (h : checkAccountProof proof shardBlk addr root = .ok out)
    (hends : Ends shardBlk block state) (hproof : UnforgedRoots proof block state) :
    ∃ stateRoot : CellRef, stateRoot.StandsFor 1 ⟨state, .none⟩ ∧ checkAccount stateRoot addr root = .ok out.lastTrans := by
  obtain ⟨roots, hroots, h⟩ := bind_ok h
  have hroots := ofStatus_ok_iff.1 (prefixed_ok_iff.1 hroots)
  obtain ⟨headerProof, stateProof, rfl⟩ : ∃ a b, roots = [a, b] := by
    rcases roots with _ | ⟨a, _ | ⟨b, _ | ⟨c, l⟩⟩⟩
    · cases h
    · cases h
    · exact ⟨a, b, rfl⟩
    · cases h
  obtain ⟨stateRoot, hvirt, h⟩ := bind_ok (catchVm_ok_iff.1 h)
  obtain ⟨headerRoot, hhvirt, h⟩ := bind_ok h
  obtain ⟨header, hheader, h⟩ := bind_ok h
  obtain ⟨last, hlast, h⟩ := bind_ok h
  cases h
  obtain ⟨hr, rfl, hhroot, hdecl'⟩ := checkBlockHeaderState_ok (prefixed_ok_iff.1 hheader)
  obtain ⟨hhv, hhcol, hsv, hscol⟩ := hproof _ _ hroots
  -- the header of the proof declares what that of the block does, so the state of the proof goes by the hash of the state
  have hhshows := MerkleProof.virtualize_shows hhv hends.wholeBlock hhcol hhvirt (hhroot.trans hends.id.symm)
  have heq := hends.declares.unique (hdecl'.follows Nat.one_ne_zero ⟨0, block, rfl, hhshows⟩)
  have hshows := MerkleProof.virtualize_shows hsv hends.wholeState hscol (orFail_ok_iff.1 hvirt) heq.symm
  exact ⟨stateRoot, ⟨0, state, rfl, hshows⟩, hlast⟩

/-- An account that is accepted with a proof is the one that the state of the block has at the address, and so are the
hash and the time of its last transaction. -/
theorem account_of_proof {proof : List UInt8} {shardBlk : BlockIdExt} {addr : StdAddress} {root : CellRef}
    {out : AccountProof} {block state : Cell} (h : checkAccountProof proof shardBlk addr (some root) = .ok out)
    (hends : Ends shardBlk block state) (hproof : UnforgedRoots proof block state) :
    ∃ a, HasAccount ⟨state, .none⟩ addr.addr a ∧ a.account.reprHash = root.reprHash ∧
      out.lastTrans = some (a.lastTransHash, a.lastTransLt) := by
  obtain ⟨stateRoot, hstands, hcheck⟩ := checkAccountProof_ok h hends hproof
  obtain ⟨a, ha, hhash, hlast⟩ := checkAccount_some hcheck
  obtain ⟨a', ha', haccount, htrans, hlt⟩ := ha.follows Nat.one_ne_zero hstands
  exact ⟨a', ha', haccount.reprHash_eq.symm.trans hhash, by rw [hlast, htrans, hlt]⟩

/-- Where a proof is accepted for no account, the state of the block has none at the address. -/
theorem no_account_of_proof {proof : List UInt8} {shardBlk : BlockIdExt} {addr : StdAddress} {out : AccountProof}
    {block state : Cell} (h : checkAccountProof proof shardBlk addr none = .ok out) (hends : Ends shardBlk block state)
    (hproof : UnforgedRoots proof block state) :
    HasNoAccount ⟨state, .none⟩ addr.addr ∧ out.lastTrans = none := by
  obtain ⟨stateRoot, hstands, hcheck⟩ := checkAccountProof_ok h hends hproof
  obtain ⟨hnone, hlast⟩ := checkAccount_none hcheck
  exact ⟨hnone.follows Nat.one_ne_zero hstands, hlast⟩

end

namespace Sample

def account : Cell := .mk false (natToBits 8 3) []

/-- The dictionary of one account, at the address zero. -/
def accountsRoot : Cell :=
  .mk false ([true, true, false] ++ natToBits 9 256 ++ natToBits 10 0 ++ natToBits 256 5 ++ natToBits 64 7) [account]

/-- The state of a shard with one account. -/
def shardState : Cell :=
  .mk false (natToBits 32 0x9023afe2 ++ natToBits 32 0 ++ natToBits 104 0 ++ natToBits 96 1 ++ natToBits 64 0 ++ natToBits 34 0)
    [emptyCell, .mk false (true :: natToBits 10 0) [accountsRoot], .mk false (natToBits 140 0) []]

/-- A block that ends in that state. -/
def shardBlock : Cell :=
  .mk false (natToBits 32 0x11ef55aa ++ natToBits 32 0)
    [infoCell 1 false, emptyCell, @Cell.createMerkleUpdate digest emptyCell shardState, emptyCell]

abbrev accountBoc : AccountBoc where
  toDigest := digest
  stdBocDeserializeMulti
    | [1] => .ok [proofOf shardBlock, proofOf shardState]
    | _ => .error (.error "not a bag of cells")

def addressOf (addr : Bits256) : StdAddress := { workchain := masterchainId, addr }

theorem ends_shardBlock : @Ends digest (blockId 1 shardBlock) shardBlock shardState :=
  @Ends.mk digest _ _ _ (by decide +kernel) (by decide +kernel) (by decide +kernel) ⟨_, rfl, by decide +kernel⟩

theorem unforged : @UnforgedRoots accountBoc [1] shardBlock shardState := by
  intro header root h
  cases h
  exact ⟨by decide +kernel, by decide +kernel, by decide +kernel, by decide +kernel⟩

theorem account_of_proof_one : ∃ a, @HasAccount digest ⟨shardState, .none⟩ 0 a ∧
    @CellRef.reprHash digest a.account = @CellRef.reprHash digest ⟨account, .none⟩ ∧
      some (5, 7) = some (a.lastTransHash, a.lastTransLt) := by
  have hlast : (@checkAccountProof accountBoc [1] (blockId 1 shardBlock) (addressOf 0) (some ⟨account, .none⟩)).map
      (·.lastTrans) = .ok (some (5, 7)) := by
    decide +kernel
  cases h : @checkAccountProof accountBoc [1] (blockId 1 shardBlock) (addressOf 0) (some ⟨account, .none⟩) with
  | error e =>
    rw [h] at hlast
    cases hlast
  | ok out =>
    rw [h] at hlast
    obtain ⟨a, ha, hhash, hout⟩ := @account_of_proof accountBoc _ _ _ _ _ _ _ h ends_shardBlock unforged
    exact ⟨a, ha, hhash, (Except.ok.inj hlast).symm.trans hout⟩

theorem no_account_of_proof_one : @HasNoAccount digest ⟨shardState, .none⟩ 1 := by
  have hok : (@checkAccountProof accountBoc [1] (blockId 1 shardBlock) (addressOf 1) none).map (·.lastTrans) = .ok none := by
    decide +kernel
  cases h : @checkAccountProof accountBoc [1] (blockId 1 shardBlock) (addressOf 1) none with
  | error e =>
    rw [h] at hok
    cases hok
  | ok out =>
    exact (@no_account_of_proof accountBoc _ _ _ _ _ _ h ends_shardBlock unforged).1

end Sample

end TonWallet.Block
