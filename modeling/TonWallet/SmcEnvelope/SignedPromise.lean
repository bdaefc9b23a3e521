/-
Promises of a payment channel and their signatures in cells (`smc::pchan`). A promise of a negative amount is not packed,
and where a cell of a promise holds no signature, the signature is read all the same.
-/
import TonWallet.Block.McShardHash
import TonWallet.SmcEnvelope.PackGrams
import TonWallet.Vm.StoreText

namespace TonWallet.Vm.Slice

open Lib

/-- `fetch_uint_to`. -/
def fetchUintTo (bits : Nat) (cs : Slice) : Option (Nat × Slice) := do
  let rest ← cs.advance bits
  return (bitsToNat (cs.bits.take bits), rest)

/-- `prefetch_maybe_ref`: no bit, or no reference behind the bit, and nothing is read. -/
def prefetchMaybeRef (cs : Slice) : Option (Option Cell) := match cs.bits, cs.refs with
  | false :: _, _ => some none
  | true :: _, c :: _ => some (some c)
  | _, _ => none

/-- `Maybe_Ref_bits512.skip`. -/
def maybeRefSkip (cs : Slice) : Option Slice := match cs.bits with
  | false :: _ => cs.advance 1
  | true :: _ => (cs.advance 1).bind (advanceRefs 1)
  | [] => none

/-- A type that is skipped from the front. -/
def Skips (skip : Slice → Option Slice) : Prop := ∀ ⦃cs rest⦄, skip cs = some rest → ∃ field, cs = append field rest

theorem fetchTo_eq_some {skip : Slice → Option Slice} (h : Skips skip) {cs field rest : Slice} :
    cs.fetchTo skip = some (field, rest) ↔ skip cs = some rest ∧ cs = field.append rest := by
  have htaken (field rest : Slice) : Slice.mk
      ((field.append rest).bits.take ((field.append rest).bits.length - rest.bits.length))
      ((field.append rest).refs.take ((field.append rest).refs.length - rest.refs.length)) = field := by
    simp [append]
  rw [fetchTo, Option.bind_eq_bind, Option.bind_eq_some_iff]
  constructor
  · rintro ⟨rest', hskip, hpair⟩
    obtain ⟨field', rfl⟩ := h hskip
    cases hpair
    rw [htaken]
    exact ⟨hskip, rfl⟩
  · rintro ⟨hskip, rfl⟩
    refine ⟨rest, hskip, ?_⟩
    rw [htaken]
    rfl

theorem advance_append {n : Nat} {bits : List Bool} (hlen : bits.length = n) (rest : Slice) :
    advance n (append ⟨bits, []⟩ rest) = some rest := by
  rw [advance, if_pos (by simp [append, hlen])]
  simp [append, ← hlen]

theorem advance_eq_some {n : Nat} {cs rest : Slice} :
    cs.advance n = some rest ↔ ∃ bits : List Bool, bits.length = n ∧ cs = append ⟨bits, []⟩ rest := by
  constructor
  · intro h
    unfold advance at h
    split at h
    · next hle =>
      cases h
      exact ⟨cs.bits.take n, List.length_take_of_le hle, by simp [append]⟩
    · cases h
  · rintro ⟨bits, hlen, rfl⟩
    exact advance_append hlen rest

theorem fetchUintTo_eq_some {bits x : Nat} {cs rest : Slice} :
    cs.fetchUintTo bits = some (x, rest) ↔ x < 2 ^ bits ∧ cs = append ⟨natToBits bits x, []⟩ rest := by
  rw [fetchUintTo, Option.bind_eq_bind, Option.bind_eq_some_iff]
  constructor
  · rintro ⟨rest', hrest, hpair⟩
    obtain ⟨read, hlen, rfl⟩ := advance_eq_some.1 hrest
    have htake : (append ⟨read, []⟩ rest').bits.take bits = read := by simp [append, ← hlen]
    rw [htake] at hpair
    cases hpair
    have hlt := bitsToNat_lt read
    have hread := natToBits_bitsToNat read
    rw [hlen] at hlt hread
    rw [hread]
    exact ⟨hlt, rfl⟩
  · rintro ⟨hlt, rfl⟩
    refine ⟨rest, advance_append (length_natToBits bits x) rest, ?_⟩
    have htake : (append ⟨natToBits bits x, []⟩ rest).bits.take bits = natToBits bits x := by simp [append]
    rw [htake, bitsToNat_natToBits, Nat.mod_eq_of_lt hlt]
    rfl

/-- A reference that there may be. -/
def maybeRef (c : Option Cell) : Slice := ⟨[c.isSome], c.toList⟩

theorem prefetchMaybeRef_maybeRef (c : Option Cell) : (maybeRef c).prefetchMaybeRef = some c := by
  cases c <;> rfl

theorem maybeRefSkip_eq_some {cs rest : Slice} : maybeRefSkip cs = some rest ↔ ∃ c, cs = (maybeRef c).append rest := by
  constructor
  · intro h
    obtain ⟨bits, refs⟩ := cs
    rcases bits with _ | ⟨_ | _, bits⟩
    · cases h
    · cases h
      exact ⟨none, rfl⟩
    · rcases refs with _ | ⟨c, refs⟩
      · cases h
      · cases h
        exact ⟨some c, rfl⟩
  · rintro ⟨_ | c, rfl⟩
    · rfl
    · rfl

theorem append_right_cancel {s t rest : Slice} (h : s.append rest = t.append rest) : s = t := by
  obtain ⟨hbits, hrefs⟩ := Slice.mk.inj h
  obtain ⟨sBits, sRefs⟩ := s
  obtain ⟨tBits, tRefs⟩ := t
  rw [Slice.mk.injEq]
  exact ⟨List.append_cancel_right hbits, List.append_cancel_right hrefs⟩

theorem fetchTo_maybeRefSkip {cs sig rest : Slice} :
    cs.fetchTo maybeRefSkip = some (sig, rest) ↔ ∃ c, sig = maybeRef c ∧ cs = (maybeRef c).append rest := by
  have hskips : Skips maybeRefSkip := fun cs rest h => (maybeRefSkip_eq_some.1 h).imp' _ fun _ hc => hc
  rw [fetchTo_eq_some hskips]
  constructor
  · rintro ⟨hskip, rfl⟩
    obtain ⟨c, hc⟩ := maybeRefSkip_eq_some.1 hskip
    exact ⟨c, append_right_cancel hc, hc⟩
  · rintro ⟨c, rfl, rfl⟩
    exact ⟨maybeRefSkip_eq_some.2 ⟨c, rfl⟩, rfl⟩

end TonWallet.Vm.Slice

namespace TonWallet.SmcEnvelope.PaymentChannel

open Lib TonWallet.Td TonWallet.Ton TonWallet.Vm TonWallet.Vm.CellBuilder TonWallet.Block

/-! ## Promises -/

/-- `Promise`. -/
structure Promise where
  channelId : UInt64
  promiseA : UInt64
  promiseB : UInt64
  deriving DecidableEq

/-- `ChanPromise.skip`. -/
def chanPromiseSkip (cs : Slice) : Option Slice := do
  let cs ← cs.advance 64
  let cs ← gramsSkip cs
  gramsSkip cs

namespace Promise

/-- `ChanPromise.pack` of what `pack_grams` makes. -/
def pack (p : Promise) (cb : CellBuilder) : Option CellBuilder := do
  let cb ← cb.storeLongBool p.channelId.toNat 64
  let cb ← storeGramsFrom p.promiseA cb
  storeGramsFrom p.promiseB cb

/-- `csr_unpack` of a `ChanPromise`, and `unpack_grams`. -/
def unpack (cs : Slice) : Option Promise := do
  let (channelId, cs) ← cs.fetchUintTo 64
  let (promiseA, cs) ← cs.fetchTo gramsSkip
  let (promiseB, cs) ← cs.fetchTo gramsSkip
  guard (cs.bits = [] ∧ cs.refs = [])
  let promiseA ← unpackGrams promiseA
  let promiseB ← unpackGrams promiseB
  return ⟨UInt64.ofNat channelId, promiseA, promiseB⟩

/-- Amounts that are not negative. -/
structure Fits (p : Promise) : Prop where
  promiseA : p.promiseA.toNat < 2 ^ 63
  promiseB : p.promiseB.toNat < 2 ^ 63

/-- What a promise is packed to. -/
def slice (p : Promise) : Slice :=
  Slice.append ⟨natToBits 64 p.channelId.toNat, []⟩ ((gramsSlice p.promiseA.toNat).append (gramsSlice p.promiseB.toNat))

end Promise

/-! ### Grams in front of something -/

theorem skips_gramsSkip : Slice.Skips gramsSkip := by
  intro cs rest h
  obtain ⟨len, bits, -, -, rfl⟩ := gramsSkip_eq_some.1 h
  exact ⟨⟨natToBits 4 len ++ bits, []⟩, rfl⟩

theorem gramsSkip_append {x : Nat} (h : x < 2 ^ 63) (rest : Slice) : gramsSkip ((gramsSlice x).append rest) = some rest := by
  have hfew : bitLength x ≤ 63 := bitLength_le_iff.2 h
  exact gramsSkip_eq_some.2
    ⟨(bitLength x + 7) / 8, natToBits ((bitLength x + 7) / 8 * 8) x, by omega, by simp, rfl⟩

theorem fetchTo_gramsSkip {x : Nat} (h : x < 2 ^ 63) (rest : Slice) :
    ((gramsSlice x).append rest).fetchTo gramsSkip = some (gramsSlice x, rest) :=
  (Slice.fetchTo_eq_some skips_gramsSkip).2 ⟨gramsSkip_append h rest, rfl⟩

namespace Promise

/-- A promise is packed when its amounts are not negative. -/
theorem pack_eq (p : Promise) : p.pack {} = if p.promiseA.toNat < 2 ^ 63 ∧ p.promiseB.toNat < 2 ^ 63 then
    some ⟨p.slice.bits, p.slice.refs⟩ else none := by
  have hid := storeLongBool_ok p.channelId.toNat 64 {} (by simp [maxBits])
  have hlen (amount : UInt64) (h : amount.toNat < 2 ^ 63) : (gramsSlice amount.toNat).bits.length ≤ 68 := by
    have hfew : bitLength amount.toNat ≤ 63 := bitLength_le_iff.2 h
    rw [length_gramsSlice]
    omega
  rw [pack, hid, Option.bind_eq_bind, Option.bind_some]
  by_cases ha : p.promiseA.toNat < 2 ^ 63
  · have hlenA := hlen p.promiseA ha
    rw [storeGramsFrom_ok ha _ (by simp [maxBits]; omega), Option.bind_some]
    by_cases hb : p.promiseB.toNat < 2 ^ 63
    · have hlenB := hlen p.promiseB hb
      rw [if_pos ⟨ha, hb⟩, storeGramsFrom_ok hb _ (by simp [maxBits]; omega)]
      simp [slice, Slice.append, gramsSlice, bitsSlice]
    · rw [if_neg fun h => hb h.2, storeGramsFrom_eq, if_neg hb]
  · rw [if_neg fun h => ha h.1, storeGramsFrom_eq, if_neg ha]
    rfl

theorem unpack_eq_some {cs : Slice} {p : Promise} : unpack cs = some p ↔ p.Fits ∧ cs = p.slice := by
  simp only [unpack, Option.bind_eq_bind, Option.bind_eq_some_iff, Option.guard_eq_some', Option.pure_def,
    exists_const, Option.some.injEq, Prod.exists]
  constructor
  · rintro ⟨id, cs₁, hid, a, cs₂, ha, b, cs₃, hb, ⟨hbits, hrefs⟩, promiseA, hunpackA, promiseB, hunpackB, rfl⟩
    obtain ⟨hlt, rfl⟩ := Slice.fetchUintTo_eq_some.1 hid
    obtain ⟨-, rfl⟩ := (Slice.fetchTo_eq_some skips_gramsSkip).1 ha
    obtain ⟨-, rfl⟩ := (Slice.fetchTo_eq_some skips_gramsSkip).1 hb
    obtain ⟨hfitA, rfl⟩ := unpackGrams_eq_some.1 hunpackA
    obtain ⟨hfitB, rfl⟩ := unpackGrams_eq_some.1 hunpackB
    obtain rfl : cs₃ = Slice.empty := by
      obtain ⟨bits, refs⟩ := cs₃
      cases hbits
      cases hrefs
      rfl
    refine ⟨⟨hfitA, hfitB⟩, ?_⟩
    rw [slice, Slice.append_empty, UInt64.toNat_ofNat_of_lt' hlt]
  · rintro ⟨hfits, rfl⟩
    have hid : p.channelId.toNat < 2 ^ 64 := p.channelId.toNat_lt
    have hlast := fetchTo_gramsSkip hfits.promiseB Slice.empty
    rw [Slice.append_empty] at hlast
    refine ⟨_, _, Slice.fetchUintTo_eq_some.2 ⟨hid, rfl⟩, _, _, fetchTo_gramsSkip hfits.promiseA _, _, _, hlast,
      ⟨rfl, rfl⟩, _, unpackGrams_eq_some.2 ⟨hfits.promiseA, rfl⟩, _, unpackGrams_eq_some.2 ⟨hfits.promiseB, rfl⟩, ?_⟩
    rw [UInt64.ofNat_toNat]

end Promise

/-! ## Signed promises -/

section

variable [Digest]

/-- `CHECK(tlb::pack_cell(..))`. -/
def packCell : Option CellBuilder → Result Cell
  | some cb => cb.finalize
  | none => .error (.check "tlb::pack_cell(res, rec)")

/-- `load_cell_slice` and `load_cell_slice_ref`. -/
def loadSlice : Option Cell → Result Slice
  | some c => do
    let cs ← loadCellSlice ⟨c, .none⟩
    return ⟨cs.bits, cs.refs⟩
  | none => .error (.check "ptr && deferencing null Ref")

/-- `maybe_ref`. -/
def maybeRef (msg : Option Cell) : Result Slice := match CurrencyCollection.storeMaybeRef msg {} with
  | some cb => do loadSlice (some (← cb.finalize))
  | none => .error (.check "cb.store_maybe_ref(msg)")

/-- `Promise::serialize`. -/
def Promise.serialize (p : Promise) : Result Cell := packCell (p.pack {})

/-- `SignedPromise`, with the signature that is read. -/
structure SignedPromise where
  promise : Promise
  signature : List UInt8

namespace SignedPromise

/-- `create_and_serialize`. -/
def createAndSerialize (signature : List UInt8) (promise : Cell) : Result Cell := do
  let promise ← loadSlice promise
  let cb ← storeBits (bytesToBits signature) {}
  let sig ← maybeRef (← cb.finalize)
  packCell do
    let cb ← sig.storeFrom Slice.maybeRefSkip {}
    promise.storeFrom chanPromiseSkip cb

/-- What `unpack` reads of the cell before the signature: the reference to it, if there is one, and the promise. -/
def read (cs : Slice) : Option (Option Cell × Promise) := do
  let (sig, cs) ← cs.fetchTo Slice.maybeRefSkip
  let (promise, cs) ← cs.fetchTo chanPromiseSkip
  guard (cs.bits = [] ∧ cs.refs = [])
  let promise ← Promise.unpack promise
  let sigCell ← sig.prefetchMaybeRef
  return (sigCell, promise)

/-- `unpack`; `none`: it is not a signed promise. -/
def unpack (cell : Cell) : Result (Option SignedPromise) := do
  let cs ← loadSlice cell
  match read cs with
  | none => return none
  | some (sigCell, promise) =>
    -- also where there is no reference to a signature
    let cs ← loadSlice sigCell
    if 64 * 8 ≤ cs.bits.length then return some ⟨promise, packBits (cs.bits.take (64 * 8))⟩ else return none

end SignedPromise

/-- The cell of a promise with a reference to a signature, or without. -/
def signedPromiseCell (sig : Option Cell) (p : Promise) : Cell :=
  .mk false ((Slice.maybeRef sig).append p.slice).bits ((Slice.maybeRef sig).append p.slice).refs

/-- The cell of a signature. -/
def signatureCell (signature : List UInt8) : Cell := .mk false (bytesToBits signature) []

/-! ### What is made -/

omit [Digest] in
theorem Promise.length_slice {p : Promise} (h : p.Fits) : p.slice.bits.length ≤ 200 := by
  have hlen (amount : UInt64) (h : amount.toNat < 2 ^ 63) : (gramsSlice amount.toNat).bits.length ≤ 68 := by
    have hfew : bitLength amount.toNat ≤ 63 := bitLength_le_iff.2 h
    rw [length_gramsSlice]
    omega
  have hlenA := hlen p.promiseA h.promiseA
  have hlenB := hlen p.promiseB h.promiseB
  simp only [slice, Slice.append, List.length_append, length_natToBits]
  omega

omit [Digest] in
theorem Promise.refs_slice (p : Promise) : p.slice.refs = [] := rfl

theorem within_leaf (bits : List Bool) : (Cell.mk false bits []).Within 1 :=
  @Cell.Within.node _ 0 [] (List.forall_mem_nil _) bits

omit [Digest] in
theorem loadSlice_ordinary {c : Cell} (h : c.special = false) : loadSlice (some c) = .ok ⟨c.data, c.refs⟩ := by
  rw [loadSlice, loadCellSlice_ordinary (r := ⟨c, .none⟩) h]
  rfl

omit [Digest] in
theorem loadSlice_special {c : Cell} (h : c.special = true) : ∃ e, loadSlice (some c) = .error e ∧ e.aborts = true := by
  obtain ⟨e, he, haborts⟩ := loadCellSlice_special (r := ⟨c, .none⟩) h
  exact ⟨e, by rw [loadSlice, he]; rfl, haborts⟩

/-- A promise is serialized when its amounts are not negative, and otherwise a check fails. -/
theorem Promise.serialize_eq (p : Promise) : p.serialize =
    if p.promiseA.toNat < 2 ^ 63 ∧ p.promiseB.toNat < 2 ^ 63 then .ok (.mk false p.slice.bits [])
    else .error (.check "tlb::pack_cell(res, rec)") := by
  rw [serialize, pack_eq]
  split
  · next h =>
    have hlen := length_slice ⟨h.1, h.2⟩
    exact @Vm.finalize_ok _ ⟨p.slice.bits, []⟩ (hlen.trans (by decide)) (Nat.zero_le _)
      ((within_leaf p.slice.bits).mono (by decide))
  · rfl

theorem maybeRef_ok {c : Cell} (h : c.Within 1) : maybeRef (some c) = .ok (Slice.maybeRef (some c)) := by
  have hstore : CurrencyCollection.storeMaybeRef (some c) {} = some ⟨[true], [c]⟩ := rfl
  have hcell : (⟨[true], [c]⟩ : CellBuilder).finalize = .ok (.mk false [true] [c]) :=
    Vm.finalize_ok (by simp [maxBits]) (by simp [maxRefs]) ((Cell.Within.node (List.forall_mem_singleton.2 h) _).mono (by decide))
  rw [maybeRef, hstore]
  change (CellBuilder.finalize ⟨[true], [c]⟩ >>= fun c => loadSlice (some c)) = _
  rw [hcell]
  exact @loadSlice_ordinary (.mk false [true] [c]) rfl

omit [Digest] in
theorem chanPromiseSkip_append {p : Promise} (h : p.Fits) (rest : Slice) :
    chanPromiseSkip (p.slice.append rest) = some rest := by
  rw [Promise.slice, Slice.append_assoc, Slice.append_assoc, chanPromiseSkip,
    Slice.advance_append (length_natToBits 64 _), Option.bind_eq_bind, Option.bind_some, gramsSkip_append h.promiseA,
    Option.bind_some, gramsSkip_append h.promiseB]

omit [Digest] in
theorem storeFrom_ok {skip : Slice → Option Slice} {field : Slice} (h : skip field = some Slice.empty) {cb : CellBuilder}
    (hbits : cb.bits.length + field.bits.length ≤ maxBits) (hrefs : cb.refs.length + field.refs.length ≤ maxRefs) :
    field.storeFrom skip cb = some ⟨cb.bits ++ field.bits, cb.refs ++ field.refs⟩ := by
  have hfit : cb.canExtendBy field.bits.length field.refs.length = true := by
    simp only [canExtendBy, Bool.and_eq_true, decide_eq_true_eq]
    omega
  rw [Slice.storeFrom, h, Option.bind_eq_bind, Option.bind_some]
  exact if_pos hfit

/-- The cell of a promise and a signature can be made. -/
theorem finalize_signed {p : Promise} (h : p.Fits) {sig : Cell} (hsig : sig.Within 1) :
    CellBuilder.finalize ⟨true :: p.slice.bits, sig :: p.slice.refs⟩ = .ok (signedPromiseCell (some sig) p) := by
  have hlen := Promise.length_slice h
  exact Vm.finalize_ok (by simp [maxBits]; omega) (by simp [Promise.refs_slice, maxRefs])
    ((Cell.Within.node (List.forall_mem_singleton.2 hsig) _).mono (by decide))

/-- A signature that fits a cell is put behind the reference. -/
theorem createAndSerialize_ok {p : Promise} (h : p.Fits) {signature : List UInt8} (hsig : signature.length ≤ 127) :
    SignedPromise.createAndSerialize signature (.mk false p.slice.bits []) =
      .ok (signedPromiseCell (some (signatureCell signature)) p) := by
  have hlen := Promise.length_slice h
  have hbits : (bytesToBits signature).length ≤ maxBits := by
    rw [length_bytesToBits, maxBits]
    omega
  have hstore : storeBits (bytesToBits signature) {} = .ok ⟨bytesToBits signature, []⟩ := storeBits_ok _ {} hbits
  have hcell : (⟨bytesToBits signature, []⟩ : CellBuilder).finalize = .ok (signatureCell signature) :=
    Vm.finalize_ok hbits (Nat.zero_le _) ((within_leaf _).mono (by decide))
  have hsigSkip : Slice.maybeRefSkip (Slice.maybeRef (some (signatureCell signature))) = some Slice.empty :=
    Slice.maybeRefSkip_eq_some.2 ⟨_, (Slice.append_empty _).symm⟩
  have hskip := chanPromiseSkip_append h Slice.empty
  rw [Slice.append_empty] at hskip
  have hfirst := @storeFrom_ok _ _ hsigSkip {} (by simp [Slice.maybeRef, maxBits]) (by simp [Slice.maybeRef, maxRefs])
  have hsecond := @storeFrom_ok _ _ hskip ⟨[true], [signatureCell signature]⟩ (by simp [maxBits]; omega)
    (by simp [Promise.refs_slice, maxRefs])
  have hpacked : packCell (some ⟨[true] ++ p.slice.bits, [signatureCell signature] ++ p.slice.refs⟩) =
      .ok (signedPromiseCell (some (signatureCell signature)) p) :=
    finalize_signed h (within_leaf _)
  rw [← hpacked, ← hsecond]
  rw [SignedPromise.createAndSerialize, loadSlice_ordinary rfl, hstore]
  change (CellBuilder.finalize ⟨bytesToBits signature, []⟩ >>= fun c => _) = _
  rw [hcell]
  change (maybeRef (some (signatureCell signature)) >>= fun sig => _) = _
  rw [maybeRef_ok (show (signatureCell signature).Within 1 from within_leaf _)]
  change packCell ((Slice.storeFrom _ (Slice.maybeRef (some (signatureCell signature))) {}).bind _) = _
  rw [hfirst]
  rfl

theorem createAndSerialize_long {signature : List UInt8} (hsig : 127 < signature.length) {promise : Cell}
    (h : promise.special = false) : SignedPromise.createAndSerialize signature promise = .error .cellWriteError := by
  have hstore : storeBits (bytesToBits signature) {} = .error .cellWriteError := by
    rw [storeBits, if_neg]
    simp only [canExtendBy, Bool.and_eq_true, decide_eq_true_eq, length_bytesToBits, maxBits, List.length_nil]
    omega
  rw [SignedPromise.createAndSerialize, loadSlice_ordinary h, hstore]
  rfl

/-! ### What is read -/

omit [Digest] in
theorem skips_chanPromiseSkip : Slice.Skips chanPromiseSkip := by
  intro cs rest h
  obtain ⟨cs₁, hid, h⟩ := Option.bind_eq_some_iff.1 h
  obtain ⟨cs₂, ha, hb⟩ := Option.bind_eq_some_iff.1 h
  obtain ⟨bits, -, rfl⟩ := Slice.advance_eq_some.1 hid
  obtain ⟨fieldA, rfl⟩ := skips_gramsSkip ha
  obtain ⟨fieldB, rfl⟩ := skips_gramsSkip hb
  exact ⟨(Slice.append ⟨bits, []⟩ fieldA).append fieldB, by rw [Slice.append_assoc, Slice.append_assoc]⟩

omit [Digest] in
theorem SignedPromise.read_eq_some {cs : Slice} {sig : Option Cell} {p : Promise} :
    read cs = some (sig, p) ↔ p.Fits ∧ cs = (Slice.maybeRef sig).append p.slice := by
  simp only [read, Option.bind_eq_bind, Option.bind_eq_some_iff, Option.guard_eq_some', Option.pure_def,
    exists_const, Option.some.injEq, Prod.exists, Prod.mk.injEq]
  constructor
  · rintro ⟨sigField, cs₁, hsig, field, cs₂, hfield, ⟨hbits, hrefs⟩, promise, hpromise, sigCell, hcell, rfl, rfl⟩
    obtain ⟨c, rfl, rfl⟩ := Slice.fetchTo_maybeRefSkip.1 hsig
    obtain ⟨-, rfl⟩ := (Slice.fetchTo_eq_some skips_chanPromiseSkip).1 hfield
    obtain ⟨hfits, rfl⟩ := Promise.unpack_eq_some.1 hpromise
    rw [Slice.prefetchMaybeRef_maybeRef] at hcell
    cases hcell
    obtain rfl : cs₂ = Slice.empty := by
      obtain ⟨bits, refs⟩ := cs₂
      cases hbits
      cases hrefs
      rfl
    rw [Slice.append_empty]
    exact ⟨hfits, rfl⟩
  · rintro ⟨hfits, rfl⟩
    have hskip := chanPromiseSkip_append hfits Slice.empty
    have hfield := (Slice.fetchTo_eq_some skips_chanPromiseSkip).2 ⟨hskip, rfl⟩
    rw [Slice.append_empty] at hfield
    exact ⟨_, _, Slice.fetchTo_maybeRefSkip.2 ⟨sig, rfl, rfl⟩, _, _, hfield, ⟨rfl, rfl⟩, _,
      Promise.unpack_eq_some.2 ⟨hfits, rfl⟩, _, Slice.prefetchMaybeRef_maybeRef sig, rfl, rfl⟩

omit [Digest] in
theorem SignedPromise.read_cell {c : Cell} (h : c.special = false) {sig : Option Cell} {p : Promise} :
    read ⟨c.data, c.refs⟩ = some (sig, p) ↔ p.Fits ∧ c = signedPromiseCell sig p := by
  obtain ⟨special, data, refs⟩ := c
  obtain rfl : special = false := h
  rw [read_eq_some, signedPromiseCell, Cell.mk.injEq, Slice.mk.injEq]
  exact and_congr_right fun _ => (and_iff_right rfl).symm

omit [Digest] in
/-- The 64 bytes at the start of the signature's cell are the signature. -/
theorem SignedPromise.unpack_signed {sigCell : Cell} (hsig : sigCell.special = false) {p : Promise} (h : p.Fits) :
    unpack (signedPromiseCell (some sigCell) p) = .ok (if 64 * 8 ≤ sigCell.data.length then
      some ⟨p, packBits (sigCell.data.take (64 * 8))⟩ else none) := by
  have hread := (@read_cell (signedPromiseCell (some sigCell) p) rfl (some sigCell) p).2 ⟨h, rfl⟩
  rw [unpack, loadSlice_ordinary rfl]
  change (match read ⟨_, _⟩ with
    | none => Except.ok none
    | some (sigCell, promise) => _) = _
  rw [hread]
  change (loadSlice (some sigCell) >>= fun cs => _) = _
  rw [loadSlice_ordinary hsig]
  change (if 64 * 8 ≤ sigCell.data.length then _ else _) = _
  split <;> rfl

/-- A cell that reading ends at: what is read of it are ordinary cells, and a promise comes with a signature. -/
structure Readable (c : Cell) : Prop where
  ordinary : c.special = false
  signature : ∀ sig p, Promise.Fits p → c = signedPromiseCell sig p → ∃ s, sig = some s ∧ s.special = false

omit [Digest] in
theorem Readable.unpack_ok {c : Cell} (h : Readable c) : ∃ r, SignedPromise.unpack c = .ok r := by
  cases hread : SignedPromise.read ⟨c.data, c.refs⟩ with
  | none =>
    refine ⟨none, ?_⟩
    rw [SignedPromise.unpack, loadSlice_ordinary h.ordinary]
    change (match SignedPromise.read ⟨c.data, c.refs⟩ with
      | none => Except.ok none
      | some (sigCell, promise) => _) = _
    rw [hread]
  | some got =>
    obtain ⟨hfits, hc⟩ := (SignedPromise.read_cell h.ordinary).1 hread
    obtain ⟨s, hs, hordinary⟩ := h.signature got.1 got.2 hfits hc
    rw [hc, hs]
    exact ⟨_, SignedPromise.unpack_signed hordinary hfits⟩

omit [Digest] in
/-- Otherwise the process ends. -/
theorem unpack_of_not_readable {c : Cell} (h : ¬ Readable c) :
    ∃ e, SignedPromise.unpack c = .error e ∧ e.aborts = true := by
  by_cases hc : c.special = true
  · obtain ⟨e, he, haborts⟩ := loadSlice_special hc
    exact ⟨e, by rw [SignedPromise.unpack, he]; rfl, haborts⟩
  · have hordinary : c.special = false := by simpa using hc
    obtain ⟨sig, p, hfits, hcell, hsig⟩ : ∃ sig p, Promise.Fits p ∧ c = signedPromiseCell sig p ∧
        ¬ ∃ s, sig = some s ∧ s.special = false := by
      by_contra hno
      refine h ⟨hordinary, fun sig p hfits hcell => ?_⟩
      by_contra hsig
      exact hno ⟨sig, p, hfits, hcell, hsig⟩
    have hread := (SignedPromise.read_cell hordinary).2 ⟨hfits, hcell⟩
    have hload : ∃ e, loadSlice sig = .error e ∧ e.aborts = true := by
      cases sig with
      | none => exact ⟨_, rfl, rfl⟩
      | some s => exact loadSlice_special (by simpa using hsig)
    obtain ⟨e, he, haborts⟩ := hload
    refine ⟨e, ?_, haborts⟩
    rw [SignedPromise.unpack, loadSlice_ordinary hordinary]
    change (match SignedPromise.read ⟨c.data, c.refs⟩ with
      | none => Except.ok none
      | some (sigCell, promise) => _) = _
    rw [hread]
    change (loadSlice sig >>= fun cs => _) = _
    rw [he]
    rfl

end

end TonWallet.SmcEnvelope.PaymentChannel
