/-
The bodies that wallets sign: a signature of the hash of a cell, and behind it what the cell holds.
-/
import TonWallet.SmcEnvelope.SignedPromise

namespace TonWallet.SmcEnvelope

open Lib TonWallet.Td TonWallet.Ton TonWallet.Vm TonWallet.Vm.CellBuilder TonWallet.Block

variable [Digest] {sign : Bits256 → List UInt8} {cb : CellBuilder} {body : Cell}

/-- How the methods end that make the body of a message: `message_outer`, its signature, and both together. -/
def signedBody (sign : Bits256 → List UInt8) (cb : CellBuilder) : Result Cell := do
  let messageOuter ← cb.finalize
  let signature := sign (messageOuter.getHash maxLevel)
  let cs ← PaymentChannel.loadSlice messageOuter
  let body ← storeBits (bytesToBits signature) {}
  match body.appendSliceBool cs with
  | some body => body.finalize
  | none => .error .cellWriteError

/-- The body is a signature and `rest`, and what is signed is the hash of the cell of `rest`. -/
def SignedOver (sign : Bits256 → List UInt8) (body : Cell) (rest : Slice) : Prop :=
  ∃ outer, cellOf rest = some outer ∧ body = .mk false (bytesToBits (sign (outer.getHash maxLevel)) ++ rest.bits) rest.refs

theorem signedOver_of_signedBody (h : signedBody sign cb = .ok body) : SignedOver sign body ⟨cb.bits, cb.refs⟩ := by
  obtain ⟨outer, houter, h⟩ := bind_ok h
  have hcell : cellOf ⟨cb.bits, cb.refs⟩ = some outer := by
    rw [← toOption_finalize, houter]
    rfl
  obtain ⟨hmk, -⟩ := cellOf_eq_some hcell
  have hload : PaymentChannel.loadSlice (some outer) = .ok ⟨cb.bits, cb.refs⟩ := by
    rw [hmk]
    exact PaymentChannel.loadSlice_ordinary rfl
  rw [hload] at h
  obtain ⟨cs, hcs, h⟩ := bind_ok h
  cases hcs
  obtain ⟨signature, hsignature, h⟩ := bind_ok h
  rw [adds_storeBits hsignature] at h
  refine ⟨outer, hcell, ?_⟩
  rcases appendSliceBool_cases ⟨cb.bits, cb.refs⟩ ⟨[] ++ bytesToBits (sign (outer.getHash maxLevel)), []⟩ with hadd | ⟨hnone, -⟩
  · simp only [hadd] at h
    exact finalize_ok h
  · simp only [hnone] at h
    cases h

omit [Digest] in
/-- A reference that may be missing is stored where there is room. -/
theorem storeMaybeRef_ok (root : Option Cell) {bits : List Bool} (h : bits.length < maxBits) :
    CurrencyCollection.storeMaybeRef root ⟨bits, []⟩ = some ⟨bits ++ (Slice.maybeRef root).bits, (Slice.maybeRef root).refs⟩ := by
  have hroom (b : Nat) : (CellBuilder.mk bits []).storeLongBool b 1 = some ⟨bits ++ natToBits 1 b, []⟩ := by
    rw [storeLongBool]
    exact appendSliceBool_ok (natToBits 1 b) ⟨bits, []⟩ (by rw [length_natToBits]; exact h)
  cases root with
  | none => exact hroom 0
  | some c =>
    rw [CurrencyCollection.storeMaybeRef, hroom 1]
    rfl

omit [Digest] in
theorem storeBits_ok {bits more : List Bool} (h : bits.length + more.length ≤ maxBits) :
    storeBits more ⟨bits, []⟩ = .ok ⟨bits ++ more, []⟩ := by
  rw [storeBits, if_pos]
  simp only [canExtendBy, Bool.and_eq_true, decide_eq_true_eq]
  omega

/-- A body of short contents that are not too deep is made. -/
theorem signedBody_total (hsign : ∀ hash, (sign hash).length = 64) (hbits : cb.bits.length + 512 ≤ maxBits)
    (hrefs : cb.refs.length ≤ maxRefs) (hwithin : ∀ c ∈ cb.refs, c.Within (maxDepth - 1)) :
    ∃ body, signedBody sign cb = .ok body := by
  have hdepth (bits : List Bool) : (Cell.mk false bits cb.refs).Within maxDepth := Cell.Within.node hwithin bits
  have houter : cb.finalize = .ok (.mk false cb.bits cb.refs) := Vm.finalize_ok (by omega) hrefs (hdepth _)
  have hlen : (bytesToBits (sign ((Cell.mk false cb.bits cb.refs).getHash maxLevel))).length = 512 := by
    rw [length_bytesToBits, hsign]
  generalize hbytes : bytesToBits (sign ((Cell.mk false cb.bits cb.refs).getHash maxLevel)) = signature at hlen
  have hstored : storeBits signature {} = .ok ⟨signature, []⟩ := by
    rw [storeBits, if_pos]
    · rfl
    · simp [canExtendBy, maxBits, hlen]
  have happend : (CellBuilder.mk signature []).appendSliceBool ⟨cb.bits, cb.refs⟩ = some ⟨signature ++ cb.bits, cb.refs⟩ := by
    rw [appendSliceBool, if_pos]
    · rfl
    · simp only [canExtendBy, Bool.and_eq_true, decide_eq_true_eq, hlen, List.length_nil]
      omega
  refine ⟨.mk false (signature ++ cb.bits) cb.refs, ?_⟩
  have hload : PaymentChannel.loadSlice (some (.mk false cb.bits cb.refs)) = .ok ⟨cb.bits, cb.refs⟩ :=
    PaymentChannel.loadSlice_ordinary rfl
  rw [signedBody, houter]
  simp only [bind, Except.bind, hload, hbytes, hstored, happend]
  exact Vm.finalize_ok (by simp [hlen]; omega) hrefs (hdepth _)

end TonWallet.SmcEnvelope
