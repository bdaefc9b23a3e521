/-
Messages as the generated TL-B code (`block-auto`) reads them: the types that are run over, the records that are
unpacked, and what is read of the parts that the wallet writes.
-/
import TonWallet.Vm.Fetches

namespace TonWallet.Block

open Lib TonWallet.Td TonWallet.Ton TonWallet.Vm TonWallet.Vm.Fetch

/-! ## Types that are run over -/

/-- `Maybe::skip`. -/
def skipMaybe (x : Fetch Unit) : Fetch Unit := do
  let tag ← prefetchUint 1
  advance 1
  if tag = 1 then x

/-- `Either::skip`. -/
def skipEither (x y : Fetch Unit) : Fetch Unit := do
  let tag ← prefetchUint 1
  advance 1
  if tag = 0 then x else y

/-- `RefT::skip` and `RefAnything::skip`. -/
def skipRef : Fetch Unit := advanceExt 0 1

/-- `Anything::skip`. -/
def skipAnything : Fetch Unit := fun cs => some ((), { cs with bits := [], refs := [] })

/-- `HashmapE::skip`. -/
def skipHashmapE : Fetch Unit := do
  let tag ← prefetchUint 1
  if tag = 0 then advance 1 else advanceExt 1 1

/-- `Anycast::skip`. -/
def skipAnycast : Fetch Unit := do
  let depth ← fetchUintLeq 30
  guard (1 ≤ depth)
  advance depth

/-- `VarUInteger::skip`. -/
def skipVarUInteger (m : Nat) : Fetch Unit := do
  let len ← fetchUintLeq (m - 1)
  advance (8 * len)

/-- `Grams::skip`. -/
def skipGrams : Fetch Unit := skipVarUInteger 16

/-- `CurrencyCollection::skip`. -/
def skipCurrencyCollection : Fetch Unit := do
  skipGrams
  skipHashmapE

/-- `StateInit::skip`. -/
def skipStateInit : Fetch Unit := do
  skipMaybe (advance 5)
  skipMaybe (advance 2)
  skipMaybe skipRef
  skipMaybe skipRef
  skipHashmapE

/-! ## Addresses -/

namespace MsgAddressExt

/-- `skip`; the second constructor is assumed for three of the four tags. -/
def skip : Fetch Unit := do
  let tag ← bselect 2 3
  if tag = 0 then advance 2
  else
    advance 2
    let len ← fetchUint 9
    advance len

end MsgAddressExt

namespace MsgAddressInt

/-- `get_tag`: `addr_std` is zero and `addr_var` is one. -/
def getTag : Fetch Nat := bselect 2 12

def skip : Fetch Unit := do
  let tag ← getTag
  if tag = 0 then
    advance 2
    skipMaybe skipAnycast
    advance 264
  else
    advance 2
    skipMaybe skipAnycast
    let addrLen ← fetchUint 9
    advance 32
    advance addrLen

/-- `Record_addr_std`. -/
structure AddrStd where
  anycast : CellSlice
  workchainId : Int
  address : Bits256

/-- `unpack_addr_std`. -/
def unpackAddrStd : Fetch AddrStd := do
  fetchTag 2 2
  let anycast ← fetchTo (skipMaybe skipAnycast)
  let workchainId ← fetchInt 8
  let address ← fetchHash
  return { anycast, workchainId, address }

end MsgAddressInt

/-- `MsgAddress::skip`. -/
def skipMsgAddress : Fetch Unit := do
  let tag ← prefetchUint 1
  if tag = 1 then MsgAddressInt.skip else MsgAddressExt.skip

/-! ## Messages -/

/-- `Record_int_msg_info` of `CommonMsgInfo` and of `CommonMsgInfoRelaxed`. -/
structure IntMsgInfo where
  ihrDisabled : Bool
  bounce : Bool
  bounced : Bool
  src : CellSlice
  dest : CellSlice
  value : CellSlice
  ihrFee : CellSlice
  fwdFee : CellSlice
  createdLt : Nat
  createdAt : Nat

/-- `unpack`, with the type of `src`. -/
def IntMsgInfo.unpack (src : Fetch Unit) : Fetch IntMsgInfo := do
  fetchTag 1 0
  let ihrDisabled ← fetchBool
  let bounce ← fetchBool
  let bounced ← fetchBool
  let src ← fetchTo src
  let dest ← fetchTo MsgAddressInt.skip
  let value ← fetchTo skipCurrencyCollection
  let ihrFee ← fetchTo skipGrams
  let fwdFee ← fetchTo skipGrams
  let createdLt ← fetchUint 64
  let createdAt ← fetchUint 32
  return { ihrDisabled, bounce, bounced, src, dest, value, ihrFee, fwdFee, createdLt, createdAt }

/-- What `skip` does for `int_msg_info`, with the type of `src`. -/
def IntMsgInfo.skip (src : Fetch Unit) : Fetch Unit := do
  advance 4
  src
  MsgAddressInt.skip
  skipCurrencyCollection
  skipGrams
  skipGrams
  advance 96

namespace CommonMsgInfo

/-- `get_tag`: `int_msg_info` is zero, `ext_in_msg_info` one and `ext_out_msg_info` two. -/
def getTag : Fetch Nat := bselect 2 13

def skip : Fetch Unit := do
  let tag ← getTag
  if tag = 0 then IntMsgInfo.skip MsgAddressInt.skip
  else if tag = 1 then
    advance 2
    MsgAddressExt.skip
    MsgAddressInt.skip
    skipGrams
  else
    advance 2
    MsgAddressInt.skip
    MsgAddressExt.skip
    advance 96

/-- `unpack` of an `int_msg_info`. -/
def unpackIntMsgInfo : Fetch IntMsgInfo := IntMsgInfo.unpack MsgAddressInt.skip

/-- `Record_ext_in_msg_info`. -/
structure ExtInMsgInfo where
  src : CellSlice
  dest : CellSlice
  importFee : CellSlice

/-- `unpack_ext_in_msg_info`. -/
def unpackExtInMsgInfo : Fetch ExtInMsgInfo := do
  fetchTag 2 2
  let src ← fetchTo MsgAddressExt.skip
  let dest ← fetchTo MsgAddressInt.skip
  let importFee ← fetchTo skipGrams
  return { src, dest, importFee }

/-- `Record_ext_out_msg_info`. -/
structure ExtOutMsgInfo where
  src : CellSlice
  dest : CellSlice
  createdLt : Nat
  createdAt : Nat

/-- `unpack` of an `ext_out_msg_info`. -/
def unpackExtOutMsgInfo : Fetch ExtOutMsgInfo := do
  fetchTag 2 3
  let src ← fetchTo MsgAddressInt.skip
  let dest ← fetchTo MsgAddressExt.skip
  let createdLt ← fetchUint 64
  let createdAt ← fetchUint 32
  return { src, dest, createdLt, createdAt }

end CommonMsgInfo

namespace CommonMsgInfoRelaxed

def skip : Fetch Unit := do
  let tag ← prefetchUint 1
  if tag = 0 then IntMsgInfo.skip skipMsgAddress
  else
    advance 2
    skipMsgAddress
    MsgAddressExt.skip
    advance 96

/-- `unpack` of an `int_msg_info`. -/
def unpackIntMsgInfo : Fetch IntMsgInfo := IntMsgInfo.unpack skipMsgAddress

end CommonMsgInfoRelaxed

/-- `Record` of `Message` and of `MessageRelaxed`. -/
structure MessageRecord where
  info : CellSlice
  init : CellSlice
  body : CellSlice

/-- `unpack`, with the type of `info`. -/
def MessageRecord.unpack (info : Fetch Unit) : Fetch MessageRecord := do
  let info ← fetchTo info
  let init ← fetchTo (skipMaybe (skipEither skipStateInit skipRef))
  let body ← fetchTo (skipEither skipAnything skipRef)
  return { info, init, body }

/-- `Message::unpack`. -/
def Message.unpack : Fetch MessageRecord := MessageRecord.unpack CommonMsgInfo.skip

/-- `MessageRelaxed::unpack`. -/
def MessageRelaxed.unpack : Fetch MessageRecord := MessageRecord.unpack CommonMsgInfoRelaxed.skip

/-! ## What is written -/

/-- A number of bits. -/
def bitsSlice (bits : List Bool) : Slice := ⟨bits, []⟩

/-- `nothing`. -/
def nothingSlice : Slice := bitsSlice [false]

/-- `addr_none`. -/
def addrNoneSlice : Slice := bitsSlice [false, false]

/-- `addr_std`, without anycast. -/
def addrStdSlice (workchain : BitVec 8) (address : Bits256) : Slice :=
  (bitsSlice [true, false]).append <| nothingSlice.append <| (bitsSlice (natToBits 8 workchain.toNat)).append <|
    bitsSlice (natToBits 256 address.toNat)

/-- An amount: the number of its bytes, and the bytes. -/
def gramsSlice (x : Nat) : Slice :=
  (bitsSlice (natToBits 4 ((bitLength x + 7) / 8))).append (bitsSlice (natToBits ((bitLength x + 7) / 8 * 8) x))

/-- Some grams, and no other currency. -/
def currencySlice (x : Nat) : Slice := (gramsSlice x).append (bitsSlice [false])

/-- `int_msg_info` of a message that has not been sent. -/
def intMsgInfoSlice (bounce : Bool) (workchain : BitVec 8) (address : Bits256) (grams : Nat) : Slice :=
  (bitsSlice [false]).append <| (bitsSlice [true]).append <| (bitsSlice [bounce]).append <| (bitsSlice [false]).append <|
    addrNoneSlice.append <| (addrStdSlice workchain address).append <| (currencySlice grams).append <|
      (gramsSlice 0).append <| (gramsSlice 0).append <| (bitsSlice (natToBits 64 0)).append (bitsSlice (natToBits 32 0))

section Read

variable {bounce : Bool} {workchain : BitVec 8} {address : Bits256} {x : Nat}

/-- A slice of which nothing more is read. -/
theorem Fetches.empty_right {α : Type} {f : Fetch α} {s : Slice} {P : α → Prop} (h : Fetches f (s.append .empty) P) :
    Fetches f s P := by
  rwa [Slice.append_empty] at h

theorem fetches_nothing (x : Fetch Unit) : Fetches (skipMaybe x) nothingSlice fun _ => True := by
  refine Fetches.prefetch (Nat.le_refl 1) (Fetches.empty_right ?_)
  exact (Fetches.advance rfl).bind fun _ _ => Fetches.pure trivial

theorem fetches_emptyDict : Fetches skipHashmapE (bitsSlice [false]) fun _ => True :=
  Fetches.prefetch (Nat.le_refl 1) (Fetches.advance rfl)

theorem fetches_addrNone : Fetches skipMsgAddress addrNoneSlice fun _ => True := by
  refine Fetches.prefetch (Nat.le_of_ble_eq_true rfl) ?_
  exact Fetches.bselect (k := 0) (Nat.le_refl 2) (by decide) (Fetches.advance rfl)

/-- A number below a bound, as its bits. -/
theorem Fetches.fetchUintLeq {u v n : Nat} (hn : Nat.log2 u + 1 = n) (h : v ≤ u) :
    Fetches (fetchUintLeq u) (bitsSlice (natToBits n v)) (· = v) := by
  have hlt : v < 2 ^ (Nat.log2 u + 1) := lt_of_le_of_lt h Nat.lt_log2_self
  subst hn
  refine Fetches.empty_right ((Fetches.fetchUint_natToBits hlt).bind fun a ha => ?_)
  rw [ha, show (guard (v ≤ u) : Fetch Unit) = pure () by rw [guard, if_pos h]]
  exact Fetches.pure rfl

theorem fetches_grams (hx : x < 2 ^ 120) : Fetches skipGrams (gramsSlice x) fun _ => True := by
  have hsize : bitLength x ≤ 120 := bitLength_le_iff.2 hx
  refine (Fetches.fetchUintLeq (by decide) (by omega : (bitLength x + 7) / 8 ≤ 15)).bind fun len hlen => ?_
  apply Fetches.advance
  rw [length_natToBits, hlen, Nat.mul_comm]

theorem fetches_currency (hx : x < 2 ^ 120) : Fetches skipCurrencyCollection (currencySlice x) fun _ => True :=
  (fetches_grams hx).bind fun _ _ => fetches_emptyDict

theorem fetches_addrStd : Fetches MsgAddressInt.skip (addrStdSlice workchain address) fun _ => True := by
  have htag : (addrStdSlice workchain address).bits.take 2 = [true, false] := rfl
  refine Fetches.bselect (k := 0) (Nat.le_add_left 2 _) (by rw [htag]; decide) ?_
  refine (Fetches.advance rfl).bind fun _ _ => (fetches_nothing skipAnycast).bind fun _ _ => ?_
  apply Fetches.advance
  rw [List.length_append]
  exact congrArg₂ (· + ·) (length_natToBits 8 _) (length_natToBits 256 _)

/-- The workchain is read from its low eight bits. -/
theorem fetches_unpackAddrStd : Fetches MsgAddressInt.unpackAddrStd (addrStdSlice workchain address) fun a =>
    a.workchainId = workchain.toInt ∧ a.address = address := by
  refine (Fetches.fetchTag rfl rfl).bind fun _ _ => ?_
  refine (Fetches.fetchTo (fetches_nothing skipAnycast)).bind fun anycast _ => ?_
  refine (Fetches.fetchInt workchain).bind fun w hw => ?_
  exact (Fetches.fetchHash address).map fun a ha => ⟨hw, ha⟩

/-- The message's flag and its destination are read. -/
theorem fetches_unpackIntMsgInfo (hx : x < 2 ^ 120) :
    Fetches CommonMsgInfoRelaxed.unpackIntMsgInfo (intMsgInfoSlice bounce workchain address x) fun info =>
      info.bounce = bounce ∧ info.dest.Holds (addrStdSlice workchain address) ∧ info.value.Holds (currencySlice x) := by
  refine (Fetches.fetchTag rfl rfl).bind fun _ _ => ?_
  refine (Fetches.fetchBool true).bind fun _ _ => ?_
  refine (Fetches.fetchBool bounce).bind fun b hb => ?_
  refine (Fetches.fetchBool false).bind fun _ _ => ?_
  refine (Fetches.fetchTo fetches_addrNone).bind fun _ _ => ?_
  refine (Fetches.fetchTo fetches_addrStd).bind fun dest hdest => ?_
  refine (Fetches.fetchTo (fetches_currency hx)).bind fun value hvalue => ?_
  refine (Fetches.fetchTo (fetches_grams (by decide))).bind fun _ _ => ?_
  refine (Fetches.fetchTo (fetches_grams (by decide))).bind fun _ _ => ?_
  refine (Fetches.fetchUint (length_natToBits 64 0)).bind fun _ _ => ?_
  exact (Fetches.fetchUint (length_natToBits 32 0)).map fun _ _ => ⟨hb, hdest, hvalue⟩

theorem fetches_intMsgInfo (hx : x < 2 ^ 120) :
    Fetches CommonMsgInfoRelaxed.skip (intMsgInfoSlice bounce workchain address x) fun _ => True := by
  refine Fetches.prefetch (Nat.le_add_left 1 _) ?_
  have hskip : Fetches (IntMsgInfo.skip skipMsgAddress) ((bitsSlice [false, true, bounce, false]).append <|
      addrNoneSlice.append <| (addrStdSlice workchain address).append <| (currencySlice x).append <|
        (gramsSlice 0).append <| (gramsSlice 0).append <| bitsSlice (natToBits 64 0 ++ natToBits 32 0)) fun _ => True := by
    refine (Fetches.advance rfl).bind fun _ _ => fetches_addrNone.bind fun _ _ => ?_
    refine fetches_addrStd.bind fun _ _ => (fetches_currency hx).bind fun _ _ => ?_
    refine (fetches_grams (by decide)).bind fun _ _ => (fetches_grams (by decide)).bind fun _ _ => ?_
    apply Fetches.advance
    rfl
  exact hskip

/-! ## Whole messages -/

/-- The initial state of a message, if it has one in a cell of its own. -/
def initSlice : Option Cell → Slice
  | none => nothingSlice
  | some c => (bitsSlice [true]).append ((bitsSlice [true]).append ⟨[], [c]⟩)

theorem fetches_init (init : Option Cell) :
    Fetches (skipMaybe (skipEither skipStateInit skipRef)) (initSlice init) fun _ => True := by
  cases init with
  | none => exact fetches_nothing _
  | some c =>
    refine Fetches.prefetch (Nat.le_add_left 1 _) ((Fetches.advance rfl).bind fun _ _ => ?_)
    refine Fetches.prefetch (Nat.le_add_left 1 _) ((Fetches.advance rfl).bind fun _ _ => ?_)
    exact Fetches.advanceExt rfl rfl

/-- A body that stands in the message itself is what is left. -/
theorem unpackExact_body {cs : CellSlice} {body : Slice} (h : cs.Holds ((bitsSlice [false]).append body))
    (info init : CellSlice) :
    unpackExact (do
        let body ← fetchTo (skipEither skipAnything skipRef)
        return ({ info, init, body } : MessageRecord)) cs = some { info, init, body := cs } := by
  obtain ⟨virt, cell, bits, refs⟩ := cs
  obtain ⟨hbits, -⟩ := h
  have hbits : bits = false :: body.bits := hbits
  subst hbits
  show some (MessageRecord.mk info init ⟨virt, cell, (false :: body.bits).take ((false :: body.bits).length - 0),
    refs.take (refs.length - 0)⟩) = _
  rw [Nat.sub_zero, Nat.sub_zero, List.take_length, List.take_length]

/-- A message with its body in itself is unpacked. -/
theorem unpackExact_message {skip : Fetch Unit} {info body : Slice} {init : Option Cell} {cs : CellSlice}
    (hinfo : Fetches skip info fun _ => True)
    (h : cs.Holds (info.append ((initSlice init).append ((bitsSlice [false]).append body)))) :
    ∃ msg, unpackExact (MessageRecord.unpack skip) cs = some msg ∧ msg.info.Holds info ∧ msg.init.Holds (initSlice init) ∧
      msg.body.Holds ((bitsSlice [false]).append body) := by
  refine (Fetches.fetchTo hinfo).unpackExact_bind (fun i hi cs hcs => ?_) h
  refine (Fetches.fetchTo (fetches_init init)).unpackExact_bind (fun j hj cs hcs => ?_) hcs
  exact ⟨_, unpackExact_body hcs i j, hi, hj, hcs⟩

end Read

end TonWallet.Block
