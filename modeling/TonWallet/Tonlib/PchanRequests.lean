/-
The requests for promises of a payment channel (`pchan_signPromise`, `pchan_validatePromise`, `pchan_packPromise`,
`pchan_unpackPromise`). A promise that is packed comes back, and what is signed is what is checked. What the API passes
goes to the packing and the reading of cells as it is, and there the process can end.
-/
import TonWallet.SmcEnvelope.SignedPromise
import TonWallet.Tonlib.CreateSendGrams
import TonWallet.Tonlib.StackEntry

namespace TonWallet.Tonlib.Pchan

open Lib TonWallet.Td TonWallet.Ton TonWallet.Vm TonWallet.Block TonWallet.SmcEnvelope.PaymentChannel SendGrams

def invalidSignature : Status := ⟨400, "INVALID_SIGNATURE"⟩
def invalidBagOfCells (comment : String) : Status := ⟨400, "INVALID_BAG_OF_CELLS: " ++ comment⟩

/-- Bags of cells, and keys: what there is behind an input key (`from_tonlib`, `GetPrivateKey`), and `td::Ed25519`. -/
class PchanKeys extends BagsOfCells where
  InputKey : Type
  getPrivateKey : InputKey → Except Status Bytes
  sign : Bytes → Bits256 → Except Status Bytes
  verifySignature : Bytes → Bits256 → Bytes → Bool

open BagsOfCells PchanKeys

/-- What is relied on: bags are read back, a bag that cannot be read is a status, and keys of 32 bytes sign. -/
structure LawfulPchan [PchanKeys] : Prop where
  bags : LawfulBags
  deserialize : ∀ bytes, Returns (stdBocDeserialize bytes)
  sign_ok : ∀ (key : Bytes) hash, key.length = 32 → ∃ signature, sign key hash = .ok signature
  sign_error : ∀ (key : Bytes) hash, key.length ≠ 32 → ∃ s, sign key hash = .error s

/-- `pchan_promise`. -/
structure PchanPromise where
  signature : Bytes
  promiseA : Int64
  promiseB : Int64
  channelId : Int64

/-- What the builder is given of it. -/
def PchanPromise.promise (p : PchanPromise) : Promise where
  channelId := p.channelId.toUInt64
  promiseA := p.promiseA.toUInt64
  promiseB := p.promiseB.toUInt64

/-! ## Requests -/

section

variable [PchanKeys]

inductive PchanRequest
  | signPromise (inputKey : Option PchanKeys.InputKey) (promise : Option PchanPromise)
  | validatePromise (publicKey : List Char) (promise : Option PchanPromise)
  | packPromise (promise : Option PchanPromise)
  | unpackPromise (data : Bag)

inductive PchanAnswer
  | promise (p : PchanPromise)
  | ok
  | data (bytes : Bag)

/-- `SignedPromise::signature`, of a message that is signed with a key. -/
def signature (key : Bytes) (promise : Cell) : Result Bytes := match sign key (promise.getHash maxLevel) with
  | .ok signature => .ok signature
  | .error s => .error (.check s.toStr)

/-- `do_request(pchan_signPromise)`. -/
def signPromise (inputKey : Option PchanKeys.InputKey) (promise : Option PchanPromise) : Result PchanAnswer :=
  match promise, inputKey with
  | none, _ => .error (.status (emptyField "promise"))
  | some _, none => .error (.status (emptyField "input_key"))
  | some p, some inputKey => match getPrivateKey inputKey with
    | .error s => .error (.status s)
    | .ok key => do
      let signature ← signature key (← p.promise.serialize)
      return .promise { p with signature := signature }

/-- `do_request(pchan_validatePromise)`, with what the buffer of the public key holds before. -/
def validatePromise (memory : Fin 36 → UInt8) (publicKey : List Char) (promise : Option PchanPromise) :
    Result PchanAnswer := match promise with
  | none => .error (.status (emptyField "promise"))
  | some p => do
    let key ← getPublicKeyOf memory publicKey
    let message ← p.promise.serialize
    if verifySignature key.key (message.getHash maxLevel) p.signature then return .ok
    else .error (.status invalidSignature)

/-- `do_request(pchan_packPromise)`. -/
def packPromise (promise : Option PchanPromise) : Result PchanAnswer := match promise with
  | none => .error (.status (emptyField "promise"))
  | some p => do
    let signed ← SignedPromise.createAndSerialize p.signature (← p.promise.serialize)
    return .data (← toBytes signed)

/-- `do_request(pchan_unpackPromise)`. -/
def unpackPromise (data : Bag) : Result PchanAnswer := do
  let body ← tryPrefix (invalidBagOfCells "data") (stdBocDeserialize data)
  match ← SignedPromise.unpack body with
  | none => .error (.status (invalidField "data" "Can't unpack as a promise"))
  | some s => return .promise ⟨s.signature, s.promise.promiseA.toInt64, s.promise.promiseB.toInt64, s.promise.channelId.toInt64⟩

def doRequest (memory : Fin 36 → UInt8) : PchanRequest → Result PchanAnswer
  | .signPromise inputKey promise => signPromise inputKey promise
  | .validatePromise publicKey promise => validatePromise memory publicKey promise
  | .packPromise promise => packPromise promise
  | .unpackPromise data => unpackPromise data

/-! ## Which requests are answered -/

/-- Amounts from 0 to `2 ^ 63 - 1`. -/
structure PchanPromise.Fits (p : PchanPromise) : Prop where
  promiseA : 0 ≤ p.promiseA
  promiseB : 0 ≤ p.promiseB

/-- What a request must not have: negative amounts that are packed, signatures too long for a cell, keys that do not
sign, and cells that are not ordinary or promises without a signature. -/
def Answerable (memory : Fin 36 → UInt8) : PchanRequest → Prop
  | .signPromise inputKey promise => ∀ p k key, promise = some p → inputKey = some k → getPrivateKey k = .ok key →
      key.length = 32 ∧ p.Fits
  | .validatePromise publicKey promise => ∀ p key, promise = some p → getPublicKeyOf memory publicKey = .ok key → p.Fits
  | .packPromise promise => ∀ p, promise = some p → p.signature.length ≤ 127 ∧ p.Fits
  | .unpackPromise data => ∀ c, stdBocDeserialize data = .ok c → Readable c

omit [PchanKeys] in
theorem toNat_toUInt64_lt {amount : Int64} : amount.toUInt64.toNat < 2 ^ 63 ↔ 0 ≤ amount := by
  have hvalue := TonWallet.SmcEnvelope.toInt_toInt64 amount.toUInt64
  have hlt := amount.toUInt64.toNat_lt
  have hzero : (0 : Int64).toInt = 0 := rfl
  rw [Int64.toInt64_toUInt64] at hvalue
  rw [Int64.le_iff_toInt_le, hvalue, hzero]
  split
  · next h => exact iff_of_true h (Int.natCast_nonneg _)
  · next h => exact iff_of_false h (by omega)

omit [PchanKeys] in
theorem PchanPromise.fits_iff {p : PchanPromise} : p.promise.Fits ↔ p.Fits :=
  ⟨fun h => ⟨toNat_toUInt64_lt.1 h.promiseA, toNat_toUInt64_lt.1 h.promiseB⟩,
    fun h => ⟨toNat_toUInt64_lt.2 h.promiseA, toNat_toUInt64_lt.2 h.promiseB⟩⟩

/-- The message of a promise. -/
def messageOf (p : PchanPromise) : Cell := .mk false p.promise.slice.bits []

theorem serialize_ok {p : PchanPromise} (h : p.Fits) : p.promise.serialize = .ok (messageOf p) := by
  have hfits := PchanPromise.fits_iff.2 h
  rw [Promise.serialize_eq, if_pos ⟨hfits.promiseA, hfits.promiseB⟩]
  rfl

theorem serialize_negative {p : PchanPromise} (h : ¬ p.Fits) :
    p.promise.serialize = .error (.check "tlb::pack_cell(res, rec)") := by
  rw [Promise.serialize_eq, if_neg fun hand => h (PchanPromise.fits_iff.1 ⟨hand.1, hand.2⟩)]

omit [PchanKeys] in
theorem returns_getPublicKeyOf (memory : Fin 36 → UInt8) (text : List Char) : Returns (getPublicKeyOf memory text) := by
  refine returns_tryPrefix (returns_bind (returns_failIf _ _) fun _ _ => ?_)
  split
  · exact returns_fail _
  · refine returns_bind (returns_failIf _ _) fun _ _ => returns_bind (returns_failIf _ _) fun _ _ =>
      returns_bind (returns_failIf _ _) fun _ _ => returns_bind (returns_failIf _ _) fun _ _ => returns_ok _

/-! ### Every request -/

theorem returns_signPromise (h : LawfulPchan) (memory : Fin 36 → UInt8) (inputKey : Option PchanKeys.InputKey)
    (promise : Option PchanPromise) :
    Returns (signPromise inputKey promise) ↔ Answerable memory (.signPromise inputKey promise) := by
  cases promise with
  | none => exact iff_of_true (returns_status _) fun _ _ _ hp => by cases hp
  | some p =>
    cases inputKey with
    | none => exact iff_of_true (returns_status _) fun _ _ _ _ hk => by cases hk
    | some k =>
      rw [signPromise]
      cases hkey : getPrivateKey k with
      | error s =>
        refine iff_of_true (returns_status s) ?_
        rintro _ _ key ⟨⟩ ⟨⟩ hget
        rw [hkey] at hget
        cases hget
      | ok key =>
        have hanswerable : Answerable memory (.signPromise (some k) (some p)) ↔ key.length = 32 ∧ p.Fits := by
          constructor
          · exact fun hall => hall p k key rfl rfl hkey
          · rintro hand _ _ key' ⟨⟩ ⟨⟩ hget
            rw [hkey] at hget
            cases hget
            exact hand
        rw [hanswerable]
        dsimp only
        by_cases hfits : p.Fits
        · rw [returns_bind_ok (serialize_ok hfits)]
          by_cases hlen : key.length = 32
          · obtain ⟨signed, hsign⟩ := h.sign_ok key ((messageOf p).getHash maxLevel) hlen
            have hok : signature key (messageOf p) = .ok signed := by rw [signature, hsign]
            rw [returns_bind_ok hok]
            exact iff_of_true (returns_ok _) ⟨hlen, hfits⟩
          · obtain ⟨s, hsign⟩ := h.sign_error key ((messageOf p).getHash maxLevel) hlen
            have herror : signature key (messageOf p) = .error (.check s.toStr) := by rw [signature, hsign]
            exact iff_of_false (not_returns_bind herror rfl _) fun hand => hlen hand.1
        · exact iff_of_false (not_returns_bind (serialize_negative hfits) rfl _) fun hand => hfits hand.2

theorem returns_validatePromise (memory : Fin 36 → UInt8) (publicKey : List Char) (promise : Option PchanPromise) :
    Returns (validatePromise memory publicKey promise) ↔ Answerable memory (.validatePromise publicKey promise) := by
  cases promise with
  | none => exact iff_of_true (returns_status _) fun _ _ hp => by cases hp
  | some p =>
    rw [validatePromise]
    cases hkey : getPublicKeyOf memory publicKey with
    | error e =>
      refine iff_of_true ?_ ?_
      · rintro e' ⟨⟩
        exact returns_getPublicKeyOf memory publicKey e hkey
      · rintro _ key ⟨⟩ hget
        rw [hkey] at hget
        cases hget
    | ok key =>
      have hanswerable : Answerable memory (.validatePromise publicKey (some p)) ↔ p.Fits :=
        ⟨fun hall => hall p key rfl hkey, fun hfits _ _ hp _ => by cases hp; exact hfits⟩
      rw [hanswerable, returns_bind_ok rfl]
      by_cases hfits : p.Fits
      · rw [returns_bind_ok (serialize_ok hfits)]
        refine iff_of_true ?_ hfits
        split
        · exact returns_ok _
        · exact returns_status _
      · exact iff_of_false (not_returns_bind (serialize_negative hfits) rfl _) hfits

/-- A cell that is made of cells that are made. -/
theorem made_of_finalize {cb : CellBuilder} (h : cb.finalize = .ok (.mk false cb.bits cb.refs)) (below : ∀ c ∈ cb.refs, Made c) :
    Made (.mk false cb.bits cb.refs) := by
  refine .node below ?_
  unfold CellBuilder.finalize at h
  split at h
  · cases h
  · exact h

theorem made_signed {p : Promise} (h : p.Fits) {sig : Bytes} (hsig : sig.length ≤ 127) :
    Made (signedPromiseCell (some (signatureCell sig)) p) := by
  have hbits : (bytesToBits sig).length ≤ maxBits := by
    rw [length_bytesToBits, maxBits]
    omega
  have hleaf : Made (signatureCell sig) := @made_of_finalize _ ⟨bytesToBits sig, []⟩
    (Vm.finalize_ok hbits (Nat.zero_le _) ((within_leaf _).mono (by decide))) (List.forall_mem_nil _)
  exact @made_of_finalize _ ⟨true :: p.slice.bits, signatureCell sig :: p.slice.refs⟩
    (finalize_signed h (within_leaf _)) (List.forall_mem_singleton.2 hleaf)

theorem level_signed (p : Promise) (sig : Bytes) :
    (signedPromiseCell (some (signatureCell sig)) p).levelMask.getLevel = 0 := by
  have hleaf : (signatureCell sig).info.levelMask = ⟨0⟩ := by
    change ((Cell.infos []).foldl (fun (m : LevelMask) c => m.applyOr c.levelMask) ⟨0⟩) = _
    rw [Cell.infos_eq_map]
    rfl
  have hmask : (signedPromiseCell (some (signatureCell sig)) p).levelMask = ⟨0⟩ := by
    change ((Cell.infos (signatureCell sig :: [])).foldl (fun (m : LevelMask) c => m.applyOr c.levelMask) ⟨0⟩) = _
    rw [Cell.infos_eq_map, List.map_cons, List.foldl_cons, hleaf]
    rfl
  rw [hmask]
  rfl

/-- A promise is packed to a bag that is read as its cell. -/
theorem packPromise_ok (h : LawfulPchan) {p : PchanPromise} (hfits : p.Fits) (hsig : p.signature.length ≤ 127) :
    ∃ bytes, packPromise (some p) = .ok (.data bytes) ∧
      stdBocDeserialize bytes = .ok (signedPromiseCell (some (signatureCell p.signature)) p.promise) := by
  have hpromise := PchanPromise.fits_iff.2 hfits
  obtain ⟨bytes, hto, hfrom⟩ := h.bags.roundTrip _ (made_signed hpromise hsig) (level_signed p.promise p.signature)
  have hcell : SignedPromise.createAndSerialize p.signature (messageOf p) =
      .ok (signedPromiseCell (some (signatureCell p.signature)) p.promise) := createAndSerialize_ok hpromise hsig
  refine ⟨bytes, ?_, hfrom⟩
  rw [packPromise, serialize_ok hfits]
  change (SignedPromise.createAndSerialize p.signature (messageOf p) >>= fun signed => _) = _
  rw [hcell]
  change (toBytes _ >>= fun bytes => _) = _
  rw [toBytes, hto]
  rfl

theorem returns_packPromise (h : LawfulPchan) (memory : Fin 36 → UInt8) (promise : Option PchanPromise) :
    Returns (packPromise promise) ↔ Answerable memory (.packPromise promise) := by
  cases promise with
  | none => exact iff_of_true (returns_status _) fun _ hp => by cases hp
  | some p =>
    have hanswerable : Answerable memory (.packPromise (some p)) ↔ p.signature.length ≤ 127 ∧ p.Fits :=
      ⟨fun hall => hall p rfl, fun hand _ hp => by cases hp; exact hand⟩
    rw [hanswerable]
    by_cases hfits : p.Fits
    · by_cases hsig : p.signature.length ≤ 127
      · obtain ⟨bytes, hpack, -⟩ := packPromise_ok h hfits hsig
        rw [hpack]
        exact iff_of_true (returns_ok _) ⟨hsig, hfits⟩
      · have hlong : SignedPromise.createAndSerialize p.signature (messageOf p) = .error .cellWriteError :=
          createAndSerialize_long (Nat.not_le.1 hsig) rfl
        refine iff_of_false ?_ fun hand => hsig hand.1
        rw [packPromise, returns_bind_ok (serialize_ok hfits)]
        exact not_returns_bind hlong rfl _
    · exact iff_of_false (not_returns_bind (serialize_negative hfits) rfl _) fun hand => hfits hand.2

theorem returns_unpackPromise (h : LawfulPchan) (memory : Fin 36 → UInt8) (data : Bag) :
    Returns (unpackPromise data) ↔ Answerable memory (.unpackPromise data) := by
  rw [unpackPromise]
  cases hbody : stdBocDeserialize data with
  | error e =>
    refine iff_of_true (returns_bind (returns_tryPrefix (hbody ▸ h.deserialize data)) ?_) ?_
    · intro c hc
      rw [tryPrefix_ok_iff] at hc
      cases hc
    · intro c hc
      rw [hbody] at hc
      cases hc
  | ok c =>
    have hanswerable : Answerable memory (.unpackPromise data) ↔ Readable c := by
      constructor
      · exact fun hall => hall c hbody
      · intro hc c' hc'
        rw [hbody] at hc'
        cases hc'
        exact hc
    rw [hanswerable, returns_bind_ok (show tryPrefix (invalidBagOfCells "data") (.ok c) = .ok c from rfl)]
    by_cases hc : Readable c
    · obtain ⟨r, hr⟩ := hc.unpack_ok
      rw [returns_bind_ok hr]
      refine iff_of_true ?_ hc
      cases r with
      | none => exact returns_status _
      | some s => exact returns_ok _
    · obtain ⟨e, he, haborts⟩ := unpack_of_not_readable hc
      exact iff_of_false (not_returns_bind he haborts _) hc

theorem returns_doRequest (h : LawfulPchan) (memory : Fin 36 → UInt8) (request : PchanRequest) :
    Returns (doRequest memory request) ↔ Answerable memory request := by
  cases request with
  | signPromise inputKey promise => exact returns_signPromise h memory inputKey promise
  | validatePromise publicKey promise => exact returns_validatePromise memory publicKey promise
  | packPromise promise => exact returns_packPromise h memory promise
  | unpackPromise data => exact returns_unpackPromise h memory data

omit [PchanKeys] in
theorem packBits_bytesToBits (bytes : Bytes) : packBits (bytesToBits bytes) = bytes :=
  bytesToBits_inj (bytesToBits_packBits (by rw [length_bytesToBits, Nat.mul_mod_right]))

/-- A packed promise with a whole signature comes back. -/
theorem unpackPromise_packed {p : PchanPromise} (hfits : p.Fits) (hsig : p.signature.length = 64) {bytes : Bag}
    (hread : stdBocDeserialize bytes = .ok (signedPromiseCell (some (signatureCell p.signature)) p.promise)) :
    unpackPromise bytes = .ok (.promise p) := by
  have hlen : 64 * 8 = (bytesToBits p.signature).length := by rw [length_bytesToBits, hsig]
  have hunpack := @SignedPromise.unpack_signed (signatureCell p.signature) rfl _ (PchanPromise.fits_iff.2 hfits)
  have hbits : (signatureCell p.signature).data = bytesToBits p.signature := rfl
  rw [hbits, if_pos (Nat.le_of_eq hlen), List.take_of_length_le (Nat.le_of_eq hlen.symm), packBits_bytesToBits] at hunpack
  rw [unpackPromise, hread]
  change (SignedPromise.unpack _ >>= fun r => _) = _
  rw [hunpack]
  rfl

/-- Packed promises with whole signatures come back, the message that is signed is the one that is checked, and the
requests that are answered are the ones without negative amounts, long signatures, and cells that lack a signature. -/
theorem pchan_requests (h : LawfulPchan) (memory : Fin 36 → UInt8) :
    (∀ p : PchanPromise, p.Fits → p.signature.length = 64 → ∃ bytes,
      doRequest memory (.packPromise (some p)) = .ok (.data bytes) ∧
      doRequest memory (.unpackPromise bytes) = .ok (.promise p)) ∧
    (∀ p : PchanPromise, p.Fits → ∃ message : Bits256,
      (∀ k key signature, getPrivateKey k = .ok key → sign key message = .ok signature →
        doRequest memory (.signPromise (some k) (some p)) = .ok (.promise { p with signature := signature })) ∧
      ∀ text key signature, getPublicKeyOf memory text = .ok key →
        doRequest memory (.validatePromise text (some { p with signature := signature })) =
          if verifySignature key.key message signature then .ok .ok else .error (.status invalidSignature)) ∧
    ∀ request, Returns (doRequest memory request) ↔ Answerable memory request := by
  refine ⟨?_, ?_, returns_doRequest h memory⟩
  · intro p hfits hsig
    obtain ⟨bytes, hpack, hread⟩ := packPromise_ok h hfits (by omega)
    exact ⟨bytes, hpack, unpackPromise_packed hfits hsig hread⟩
  · intro p hfits
    refine ⟨(messageOf p).getHash maxLevel, ?_, ?_⟩
    · intro k key signed hkey hsign
      rw [doRequest, signPromise, hkey]
      change (p.promise.serialize >>= fun c => _) = _
      rw [serialize_ok hfits]
      change (signature key (messageOf p) >>= fun signed => _) = _
      rw [signature, hsign]
      rfl
    · intro text key signed hkey
      rw [doRequest, validatePromise, hkey]
      change (p.promise.serialize >>= fun c => _) = _
      rw [serialize_ok hfits]
      rfl

end

/-! ## A negative amount, and a promise without a signature -/

namespace Sample

/-- Keys that sign with themselves, in front of the message. -/
abbrev keys : PchanKeys where
  toBagsOfCells := StackEntry.Sample.bags
  InputKey := Bytes
  getPrivateKey key := .ok key
  sign key hash := if key.length = 32 then .ok (key ++ packBits (natToBits 256 hash.toNat)) else
    .error (.error "Can't import private key")
  verifySignature key hash signature := signature = key ++ packBits (natToBits 256 hash.toNat)

theorem lawfulPchan : @LawfulPchan keys := by
  refine @LawfulPchan.mk keys StackEntry.Sample.lawfulBags ?_ ?_ ?_
  · intro c
    show Returns (if _ then _ else _)
    split
    · exact returns_ok _
    · exact returns_fail _
  · intro key hash hlen
    exact ⟨_, if_pos hlen⟩
  · intro key hash hlen
    exact ⟨_, if_neg hlen⟩

/-- Of minus one nothing is packed, and the signature that a promise does not have is read. -/
theorem ends_at_negative_and_unsigned :
    ¬ Returns (@doRequest keys (fun _ => 0) (@PchanRequest.packPromise keys (some ⟨List.replicate 64 0, -1, 0, 0⟩))) ∧
    ¬ Returns (@doRequest keys (fun _ => 0) (@PchanRequest.unpackPromise keys (signedPromiseCell none ⟨0, 0, 0⟩))) := by
  refine ⟨?_, ?_⟩
  · rw [@returns_doRequest keys lawfulPchan]
    intro hall
    have hnegative : (0 : Int64) ≤ -1 := (hall _ rfl).2.promiseA
    exact absurd hnegative (by decide)
  · rw [@returns_doRequest keys lawfulPchan]
    intro hall
    have hlevel : (@Cell.levelMask StackEntry.Sample.digest (signedPromiseCell none ⟨0, 0, 0⟩)).getLevel = 0 := by
      change LevelMask.getLevel ((@Cell.infos StackEntry.Sample.digest []).foldl
        (fun (m : LevelMask) c => m.applyOr c.levelMask) ⟨0⟩) = 0
      rw [@Cell.infos_eq_map StackEntry.Sample.digest]
      rfl
    obtain ⟨s, hs, -⟩ := (hall (signedPromiseCell none ⟨0, 0, 0⟩) (if_pos hlevel)).signature none ⟨0, 0, 0⟩
      ⟨by decide, by decide⟩ rfl
    cases hs

/-- With these keys, a promise of one and two grams comes back. -/
theorem pchan_requests_keys : ∃ bytes : Cell,
    @doRequest keys (fun _ => 0) (@PchanRequest.packPromise keys (some ⟨List.replicate 64 7, 1, 2, 3⟩)) =
      .ok (@PchanAnswer.data keys bytes) ∧
    @doRequest keys (fun _ => 0) (@PchanRequest.unpackPromise keys bytes) =
      .ok (@PchanAnswer.promise keys ⟨List.replicate 64 7, 1, 2, 3⟩) :=
  (@pchan_requests keys lawfulPchan fun _ => 0).1 ⟨List.replicate 64 7, 1, 2, 3⟩ ⟨by decide, by decide⟩ rfl

end Sample

end TonWallet.Tonlib.Pchan
