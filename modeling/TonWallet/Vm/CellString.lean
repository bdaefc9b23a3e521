/-
Byte strings in cells (`vm/cells/CellString`): a string begins in the builder it is stored into and goes on in a chain
of cells of its own.
-/
import TonWallet.Vm.Fetches

namespace TonWallet.Vm

open Lib TonWallet.Td TonWallet.Ton

namespace CellString

def maxBytes : Nat := 1024
def maxChainLength : Nat := 16

/-- A builder after a call whose reply is not looked at. -/
def ignoreStatus (cb : CellBuilder) : Result CellBuilder → Result CellBuilder
  | .error (.status _) => .ok cb
  | r => r

variable [Digest]

/-- `store`, with the number of cells that the chain may still have. -/
def storeChain (bytes : List UInt8) (topBits : Nat) (cb : CellBuilder) : Nat → Result CellBuilder
  | 0 => fail "String is too long (2)"
  | cells + 1 => do
    failIf (maxBytes * 8 < bytes.length * 8) "String is too long (1)"
    let head := min (bytes.length * 8) (min cb.remainingBits topBits) / 8
    let maxBits := Vm.maxBits / 8 * 8
    let depth := 1 + (bytes.length * 8 - head * 8 + maxBits - 1) / maxBits
    failIf (maxChainLength < depth) "String is too long (2)"
    let cb ← cb.storeBits (bytesToBits (bytes.take head))
    if bytes.length ≤ head then return cb
    let childCb ← ignoreStatus {} (storeChain (bytes.drop head) Vm.maxBits {} cells)
    cb.storeRef (← childCb.finalize)

/-- `store`. -/
def store (bytes : List UInt8) (topBits : Nat) (cb : CellBuilder) : Result CellBuilder :=
  storeChain bytes topBits cb maxChainLength

/-- The bits of a chain of cells in `for_each`. -/
def chainBits : Cell → Result (List Bool)
  | .mk special data [] => do
    let cs ← loadCellSlice ⟨.mk special data [], .none⟩
    return cs.bits
  | .mk special data (c :: refs) => do
    let cs ← loadCellSlice ⟨.mk special data (c :: refs), .none⟩
    return cs.bits ++ (← chainBits c)

/-- `for_each`, the bits of all that it is called with. -/
def allBits (cs : CellSlice) (topBits : Nat) : Result (List Bool) := do
  let head := cs.bits.take (min cs.size topBits)
  match cs.refs with
  | [] => return head
  | c :: _ => return head ++ (← chainBits c)

/-- `load`, of a slice of a cell that is not virtualized. -/
def load (cs : CellSlice) (topBits : Nat) : Result (List UInt8) := do
  let bits ← allBits cs topBits
  failIf (bits.length % 8 ≠ 0) "Size is not divisible by 8"
  return packBits bits

/-! ## What is stored is loaded -/

/-- The slice that a string is stored as, with the depth of the cells behind it. -/
structure Holds (depth : Nat) (s : Slice) (bytes : List UInt8) : Prop where
  length : s.bits.length ≤ Vm.maxBits
  within : ∀ c ∈ s.refs, c.Within depth
  bits : s.refs = [] ∧ s.bits = bytesToBits bytes ∨
    ∃ c rest, s.refs = [c] ∧ chainBits c = .ok rest ∧ s.bits ++ rest = bytesToBits bytes

omit [Digest] in
theorem chainBits_mk {data : List Bool} {refs : List Cell} {rest : List Bool}
    (h : refs = [] ∧ rest = [] ∨ ∃ c, refs = [c] ∧ chainBits c = .ok rest) :
    chainBits (.mk false data refs) = .ok (data ++ rest) := by
  rcases h with ⟨rfl, rfl⟩ | ⟨c, rfl, hc⟩
  · rw [chainBits, List.append_nil]
    rfl
  · rw [chainBits]
    change chainBits c >>= _ = _
    rw [hc]
    rfl

theorem finalize_ne_status (cb : CellBuilder) (s : Status) : cb.finalize ≠ .error (.status s) := by
  unfold CellBuilder.finalize
  split
  · intro h
    cases h
  · next hno =>
    intro h
    exact hno s h

theorem eq_of_finalize {cb : CellBuilder} {c : Cell} (h : cb.finalize = .ok c) : c = .mk false cb.bits cb.refs := by
  have hcell : CellBuilder.cellOf ⟨cb.bits, cb.refs⟩ = some c := by
    rw [← CellBuilder.toOption_finalize, h]
    rfl
  exact (CellBuilder.cellOf_eq_some hcell).1

omit [Digest] in
theorem storeBits_cases (bits : List Bool) (cb : CellBuilder) :
    cb.storeBits bits = .ok ⟨cb.bits ++ bits, cb.refs⟩ ∧ bits.length ≤ cb.remainingBits ∨
      cb.storeBits bits = .error .cellWriteError := by
  unfold CellBuilder.storeBits CellBuilder.canExtendBy
  split
  · next hfit =>
    simp only [Bool.and_eq_true, decide_eq_true_eq] at hfit
    exact .inl ⟨rfl, hfit.1⟩
  · exact .inr rfl

omit [Digest] in
theorem storeRef_cases (c : Cell) (cb : CellBuilder) :
    cb.storeRef (some c) = .ok ⟨cb.bits, cb.refs ++ [c]⟩ ∨ cb.storeRef (some c) = .error .cellWriteError := by
  unfold CellBuilder.storeRef CellBuilder.storeRefBool
  dsimp only [Option.bind_eq_bind, Option.bind_some]
  by_cases hroom : cb.refs.length < maxRefs
  · rw [if_pos hroom]
    exact .inl rfl
  · rw [if_neg hroom]
    exact .inr rfl

/-- One cell of `storeChain`, with what the cells behind it are stored as. -/
def storeLevel (bytes : List UInt8) (head : Nat) (child : Result CellBuilder) (cb : CellBuilder) : Result CellBuilder := do
  let cb ← cb.storeBits (bytesToBits (bytes.take head))
  if bytes.length ≤ head then return cb
  let childCb ← ignoreStatus {} child
  cb.storeRef (← childCb.finalize)

/-- The number of bytes that go into the first cell. -/
def headBytes (bytes : List UInt8) (topBits : Nat) (cb : CellBuilder) : Nat :=
  min (bytes.length * 8) (min cb.remainingBits topBits) / 8

theorem storeChain_succ (bytes : List UInt8) (topBits : Nat) (cb : CellBuilder) (cells : Nat) :
    storeChain bytes topBits cb (cells + 1) = (do
      failIf (maxBytes * 8 < bytes.length * 8) "String is too long (1)"
      failIf (maxChainLength < 1 + (bytes.length * 8 - headBytes bytes topBits cb * 8 + 1016 - 1) / 1016)
        "String is too long (2)"
      storeLevel bytes (headBytes bytes topBits cb)
        (storeChain (bytes.drop (headBytes bytes topBits cb)) Vm.maxBits {} cells) cb) := rfl

/-- The outcome of storing a string: no status is returned, and what is stored had room and holds the string. -/
structure Stores (depth : Nat) (bytes : List UInt8) (cb : CellBuilder) (r : Result CellBuilder) : Prop where
  noStatus : ∀ s, r ≠ .error (.status s)
  holds : ∀ cb', r = .ok cb' → ∃ s : Slice, cb' = ⟨cb.bits ++ s.bits, cb.refs ++ s.refs⟩ ∧
    s.bits.length ≤ cb.remainingBits ∧ Holds depth s bytes

omit [Digest] in
theorem remainingBits_le (cb : CellBuilder) : cb.remainingBits ≤ Vm.maxBits := Nat.sub_le _ _

theorem ignoreStatus_of_stores {depth : Nat} {bytes : List UInt8} {cb : CellBuilder} {r : Result CellBuilder}
    (h : Stores depth bytes cb r) :
    ignoreStatus {} r = r := by
  rcases r with (s | _ | _ | _ | _) | _
  · exact absurd rfl (h.noStatus s)
  all_goals rfl

/-- The cells behind the first one. -/
theorem stores_child {depth : Nat} {bytes rest : List UInt8} {child : Result CellBuilder} {cb : CellBuilder}
    {bits : List Bool} (hbytes : bits ++ bytesToBits rest = bytesToBits bytes) (hbits : bits.length ≤ cb.remainingBits)
    (hchild : Stores depth rest {} child) :
    Stores (depth + 1) bytes cb (do
      let childCb ← ignoreStatus {} child
      CellBuilder.storeRef (← childCb.finalize) ⟨cb.bits ++ bits, cb.refs⟩) := by
  rw [ignoreStatus_of_stores hchild]
  constructor
  · intro s h
    rcases bind_error h with h | ⟨childCb, -, h⟩
    · exact hchild.noStatus s h
    · rcases bind_error h with h | ⟨c, -, h⟩
      · exact finalize_ne_status childCb s h
      · rcases storeRef_cases c ⟨cb.bits ++ bits, cb.refs⟩ with hok | herror
        · rw [hok] at h
          cases h
        · rw [herror] at h
          cases h
  · intro cb' h
    obtain ⟨childCb, hchildCb, h⟩ := bind_ok h
    obtain ⟨s, rfl, -, hholds⟩ := hchild.holds childCb hchildCb
    obtain ⟨c, hc, h⟩ := bind_ok h
    have hc : c = .mk false s.bits s.refs := eq_of_finalize hc
    have hwithin : c.Within (depth + 1) := by
      rw [hc]
      exact Cell.Within.node hholds.within s.bits
    rcases storeRef_cases c ⟨cb.bits ++ bits, cb.refs⟩ with hok | herror
    · rw [hok] at h
      cases h
      refine ⟨⟨bits, [c]⟩, rfl, hbits, hbits.trans (remainingBits_le cb), ?_, .inr ⟨c, bytesToBits rest, rfl, ?_, hbytes⟩⟩
      · exact List.forall_mem_singleton.2 hwithin
      rw [hc]
      obtain ⟨-, -, ⟨hrefs, hall⟩ | ⟨c', tail, hrefs, htail, hall⟩⟩ := hholds
      · have hchain : chainBits (.mk false s.bits s.refs) = .ok (s.bits ++ []) := chainBits_mk (.inl ⟨hrefs, rfl⟩)
        rw [List.append_nil] at hchain
        rw [← hall]
        exact hchain
      · rw [← hall]
        exact chainBits_mk (.inr ⟨c', hrefs, htail⟩)
    · rw [herror] at h
      cases h

/-- One cell more in front. -/
theorem stores_storeLevel {depth : Nat} {bytes : List UInt8} {head : Nat} {child : Result CellBuilder}
    {cb : CellBuilder} (hchild : head < bytes.length → Stores depth (bytes.drop head) {} child) :
    Stores (depth + 1) bytes cb (storeLevel bytes head child cb) := by
  unfold storeLevel
  rcases storeBits_cases (bytesToBits (bytes.take head)) cb with ⟨hok, hroom⟩ | herror
  · rw [hok]
    by_cases hlast : bytes.length ≤ head
    · have htake : bytes.take head = bytes := List.take_of_length_le hlast
      rw [htake] at hroom ⊢
      change Stores _ bytes cb (if bytes.length ≤ head then _ else _)
      rw [if_pos hlast]
      constructor
      · intro s h
        cases h
      · intro cb' h
        cases h
        refine ⟨⟨bytesToBits bytes, []⟩, ?_, hroom, hroom.trans (remainingBits_le cb), ?_, .inl ⟨rfl, rfl⟩⟩
        · rw [List.append_nil]
        · exact List.forall_mem_nil _
    · change Stores _ bytes cb (if bytes.length ≤ head then _ else _)
      rw [if_neg hlast]
      refine stores_child ?_ hroom (hchild (Nat.lt_of_not_le hlast))
      rw [← bytesToBits_append, List.take_append_drop]
  · rw [herror]
    constructor
    · intro s h
      cases h
    · intro cb' h
      cases h

/-- A string that the chain has room for is stored. -/
theorem stores_storeChain {bytes : List UInt8} {cells : Nat} (hpos : 0 < bytes.length)
    (hlength : bytes.length ≤ 127 * cells) (hmax : bytes.length ≤ maxBytes) (hcells : cells ≤ maxChainLength) :
    Stores cells bytes {} (storeChain bytes Vm.maxBits {} cells) := by
  induction cells generalizing bytes with
  | zero => omega
  | succ cells ih =>
    have hhead : headBytes bytes Vm.maxBits {} = min bytes.length 127 := by
      change min (bytes.length * 8) (min (1023 - 0) 1023) / 8 = _
      omega
    have hlong : failIf (maxBytes * 8 < bytes.length * 8) "String is too long (1)" = .ok () :=
      failIf_ok_iff.2 (by omega)
    have hdepth : failIf (maxChainLength < 1 + (bytes.length * 8 - min bytes.length 127 * 8 + 1016 - 1) / 1016)
        "String is too long (2)" = .ok () := by
      refine failIf_ok_iff.2 ?_
      unfold maxChainLength at hcells ⊢
      omega
    rw [storeChain_succ, hhead, hlong, hdepth]
    change Stores _ bytes {} (storeLevel bytes (min bytes.length 127) _ {})
    apply stores_storeLevel
    intro hmore
    apply ih
    · rw [List.length_drop]
      omega
    · rw [List.length_drop]
      omega
    · rw [List.length_drop]
      omega
    · omega

/-- What `store` stores holds the string. -/
theorem holds_of_store {bytes : List UInt8} {topBits : Nat} {cb cb' : CellBuilder} (h : store bytes topBits cb = .ok cb') :
    ∃ s : Slice, cb' = ⟨cb.bits ++ s.bits, cb.refs ++ s.refs⟩ ∧ s.bits.length ≤ cb.remainingBits ∧
      Holds maxChainLength s bytes := by
  unfold store maxChainLength at h
  rw [storeChain_succ] at h
  obtain ⟨_, hlong, h⟩ := bind_ok h
  obtain ⟨_, hdepth, h⟩ := bind_ok h
  rw [failIf_ok_iff] at hlong hdepth
  have hstores : Stores 16 bytes cb (storeLevel bytes (headBytes bytes topBits cb)
      (storeChain (bytes.drop (headBytes bytes topBits cb)) Vm.maxBits {} 15) cb) := by
    apply stores_storeLevel
    intro hmore
    unfold maxChainLength at hdepth
    apply stores_storeChain
    · rw [List.length_drop]
      omega
    · rw [List.length_drop]
      omega
    · rw [List.length_drop]
      omega
    · exact Nat.le_of_ble_eq_true rfl
  exact hstores.holds cb' h

/-- What is stored is loaded again. -/
theorem load_of_holds {depth : Nat} {s : Slice} {bytes : List UInt8} {cs : CellSlice} (h : Holds depth s bytes) (hcs : cs.Holds s) :
    load cs Vm.maxBits = .ok bytes := by
  have hbits : allBits cs Vm.maxBits = .ok (bytesToBits bytes) := by
    have hhead : cs.bits.take (min cs.size Vm.maxBits) = s.bits := by
      rw [← hcs.bits]
      apply List.take_of_length_le
      have hlength := h.length
      rw [← hcs.bits] at hlength
      exact Nat.le_min.2 ⟨Nat.le_refl _, hlength⟩
    unfold allBits
    rw [hhead, hcs.refs]
    rcases h.bits with ⟨hrefs, hall⟩ | ⟨c, rest, hrefs, hrest, hall⟩
    · rw [hrefs, hall]
      rfl
    · rw [hrefs]
      change chainBits c >>= _ = _
      rw [hrest, ← hall]
      rfl
  unfold load
  rw [hbits]
  have hwhole : (bytesToBits bytes).length % 8 = 0 := by
    rw [length_bytesToBits]
    exact Nat.mul_mod_right 8 _
  change failIf ((bytesToBits bytes).length % 8 ≠ 0) _ >>= _ = _
  rw [(failIf_ok_iff (u := ())).2 (not_not.2 hwhole)]
  exact congrArg Except.ok (bytesToBits_inj (bytesToBits_packBits hwhole))

end CellString

end TonWallet.Vm
