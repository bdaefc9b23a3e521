/-
Storing byte strings in chains of cells (`vm/cells/CellString`), with the builder as the calls leave it: a string that
goes on in a cell of its own needs a free reference of the builder, which is not asked for beforehand.
-/
import TonWallet.Vm.CellText

namespace TonWallet.Vm

open Lib TonWallet.Td TonWallet.Ton

/-! ## Methods of a builder -/

/-- A method of a builder: it may throw, after it has changed the builder or before. -/
abbrev BuilderMethod (α : Type) := ExceptT Fail (StateM CellBuilder) α

namespace BuilderMethod

/-- A call that does not touch the builder. -/
def call {α : Type} (r : Result α) : BuilderMethod α := ExceptT.mk (pure r)

/-- A call that changes the builder unless it throws. -/
def build (f : CellBuilder → Result CellBuilder) : BuilderMethod Unit := do
  let cb ← call (f (← get))
  set cb

/-- What a method returns or throws, and the builder after it. -/
def run {α : Type} (m : BuilderMethod α) (cb : CellBuilder) : Result α × CellBuilder := StateT.run (ExceptT.run m) cb

@[simp] theorem run_pure {α : Type} (a : α) (cb : CellBuilder) : run (pure a) cb = (.ok a, cb) := rfl
@[simp] theorem run_get (cb : CellBuilder) : run get cb = (.ok cb, cb) := rfl
@[simp] theorem run_call {α : Type} (r : Result α) (cb : CellBuilder) : run (call r) cb = (r, cb) := rfl

theorem run_bind {α β : Type} (m : BuilderMethod α) (f : α → BuilderMethod β) (cb : CellBuilder) :
    run (m >>= f) cb = match run m cb with
      | (.ok a, cb) => run (f a) cb
      | (.error e, cb) => (.error e, cb) := by
  unfold run
  rw [ExceptT.run_bind, StateT.run_bind]
  rcases StateT.run (ExceptT.run m) cb with ⟨_ | _, _⟩ <;> rfl

theorem run_bind_ok {α β : Type} {m : BuilderMethod α} {a : α} {cb cb' : CellBuilder} (h : run m cb = (.ok a, cb'))
    (f : α → BuilderMethod β) : run (m >>= f) cb = run (f a) cb' := by
  rw [run_bind, h]

theorem run_bind_error {α β : Type} {m : BuilderMethod α} {e : Fail} {cb cb' : CellBuilder}
    (h : run m cb = (.error e, cb')) (f : α → BuilderMethod β) : run (m >>= f) cb = (.error e, cb') := by
  rw [run_bind, h]

theorem run_build_ok {f : CellBuilder → Result CellBuilder} {cb cb' : CellBuilder} (h : f cb = .ok cb') :
    run (build f) cb = (.ok (), cb') := by
  rw [build, run_bind_ok (run_get cb), h]
  rfl

theorem run_build_error {f : CellBuilder → Result CellBuilder} {cb : CellBuilder} {e : Fail} (h : f cb = .error e) :
    run (build f) cb = (.error e, cb) := by
  rw [build, run_bind_ok (run_get cb), h]
  rfl

end BuilderMethod

open BuilderMethod

section

variable [Digest]

/-! ## Strings -/

namespace CellString

/-- The cell behind the first one: `store` into a builder of its own, and `finalize`. -/
def childCell (bytes : List UInt8) : Result Cell := do
  let childCb ← ignoreStatus {} (storeChain bytes Vm.maxBits {} (maxChainLength - 1))
  childCb.finalize

/-- `store`, on a builder. -/
def storeTo (bytes : List UInt8) (topBits : Nat) : BuilderMethod Unit := do
  call (check (bytes.length * 8 < 2 ^ 32) "narrow_cast")
  call (failIf (maxBytes * 8 < bytes.length * 8) "String is too long (1)")
  let head := headBytes bytes topBits (← get)
  let maxBits := Vm.maxBits / 8 * 8
  let depth := 1 + (bytes.length * 8 - head * 8 + maxBits - 1) / maxBits
  call (failIf (maxChainLength < depth) "String is too long (2)")
  build (CellBuilder.storeBits (bytesToBits (bytes.take head)))
  if bytes.length ≤ head then return
  let child ← call (childCell (bytes.drop head))
  build (CellBuilder.storeRef (some child))

end CellString

/-! ## Texts -/

namespace CellText

def maxBytes : Nat := 1024
def maxChainLength : Nat := 16

/-- `do_store`. -/
def doStore (bytes : List UInt8) : Result Cell := do
  let cb : CellBuilder := {}
  let head := min (bytes.length * 8) (cb.remainingBits - 8) / 8
  let cb ← cb.storeBits (natToBits 8 head)
  let cb ← cb.storeBits (bytesToBits (bytes.take head))
  if _h : head < bytes.length then
    let child ← doStore (bytes.drop head)
    let cb ← cb.storeRef (some child)
    cb.finalize
  else cb.finalize
termination_by bytes.length
decreasing_by
  have hroom : ({} : CellBuilder).remainingBits = 1023 := rfl
  rw [List.length_drop]
  omega

/-- The number of bytes that go into the first cell. -/
def headBytes (bytes : List UInt8) (topBits : Nat) (cb : CellBuilder) : Nat :=
  min (bytes.length * 8) (min cb.remainingBits topBits - 16) / 8

/-- `store`. -/
def storeTo (bytes : List UInt8) (topBits : Nat) : BuilderMethod Unit := do
  call (check (bytes.length * 8 < 2 ^ 32) "narrow_cast")
  call (failIf (maxBytes * 8 < bytes.length * 8) "String is too long (1)")
  call (failIf ((← get).remainingBits < 16) "Not enough space in a builder")
  call (failIf (topBits < 16) "Need at least 16 top bits")
  if bytes.length = 0 then
    build (CellBuilder.storeBits (natToBits 8 0))
    return
  let head := headBytes bytes topBits (← get)
  let maxBits := Vm.maxBits / 8 * 8
  let depth := 1 + (bytes.length * 8 - head * 8 + maxBits - 8 - 1) / (maxBits - 8)
  call (failIf (maxChainLength < depth) "String is too long (2)")
  build (CellBuilder.storeBits (natToBits 8 depth))
  build (CellBuilder.storeBits (natToBits 8 head))
  build (CellBuilder.storeBits (bytesToBits (bytes.take head)))
  if bytes.length ≤ head then return
  let child ← call (doStore (bytes.drop head))
  build (CellBuilder.storeRef (some child))

end CellText

/-! ## What a store may do -/

/-- How a store may end: with a status and the builder as it was, or with something stored that meets `P`. -/
def StoreSound (cb : CellBuilder) (P : Slice → Prop) (outcome : Result Unit × CellBuilder) : Prop :=
  (∃ s, outcome = (.error (.status s), cb)) ∨
    ∃ stored : Slice, outcome = (.ok (), ⟨cb.bits ++ stored.bits, cb.refs ++ stored.refs⟩) ∧ P stored

omit [Digest] in
theorem storeBits_ok (bits : List Bool) (cb : CellBuilder) (h : bits.length ≤ cb.remainingBits) :
    cb.storeBits bits = .ok ⟨cb.bits ++ bits, cb.refs⟩ := by
  have hfit : cb.canExtendBy bits.length 0 = true := by
    simpa [CellBuilder.canExtendBy, CellBuilder.remainingBits] using h
  rw [CellBuilder.storeBits, if_pos hfit]

omit [Digest] in
theorem remainingBits_append (cb : CellBuilder) (bits : List Bool) (refs : List Cell) :
    (⟨cb.bits ++ bits, refs⟩ : CellBuilder).remainingBits = cb.remainingBits - bits.length := by
  unfold CellBuilder.remainingBits
  rw [List.length_append]
  omega

omit [Digest] in
theorem storeRef_ok (c : Cell) (cb : CellBuilder) (h : cb.refs.length < maxRefs) :
    cb.storeRef (some c) = .ok ⟨cb.bits, cb.refs ++ [c]⟩ := by
  simp [CellBuilder.storeRef, CellBuilder.storeRefBool, h]

omit [Digest] in
theorem storeRef_fresh (c : Cell) (bits : List Bool) :
    CellBuilder.storeRef (some c) ⟨bits, []⟩ = .ok ⟨bits, [c]⟩ :=
  storeRef_ok c ⟨bits, []⟩ (Nat.zero_lt_succ 3)

omit [Digest] in
theorem storeRef_full (c : Cell) (cb : CellBuilder) (h : ¬ cb.refs.length < maxRefs) :
    cb.storeRef (some c) = .error .cellWriteError := by
  simp [CellBuilder.storeRef, CellBuilder.storeRefBool, h]

theorem finalize_ok {cb : CellBuilder} (hbits : cb.bits.length ≤ maxBits) (hrefs : cb.refs.length ≤ maxRefs)
    (h : (Cell.mk false cb.bits cb.refs).Within maxDepth) : cb.finalize = .ok (.mk false cb.bits cb.refs) := by
  have hcell := CellBuilder.cellOf_eq (s := ⟨cb.bits, cb.refs⟩) hbits hrefs h
  rw [← CellBuilder.toOption_finalize] at hcell
  cases hfin : cb.finalize with
  | error e =>
    rw [hfin] at hcell
    cases hcell
  | ok c =>
    rw [hfin] at hcell
    exact congrArg Except.ok (Option.some.inj hcell)

/-! ## Strings -/

namespace CellString

/-- The pieces of a chain of ordinary cells, however virtualized, are its bits. -/
theorem chainPieces_of_chainBits {c : Cell} {bits : List Bool} (h : chainBits c = .ok bits) (virt : VirtParams) :
    ∃ pieces, chainPieces virt c = .ok pieces ∧ pieces.flatten = bits := by
  induction virt, c using chainPieces.induct generalizing bits with
  | case1 virt special data =>
    rw [chainBits] at h
    obtain ⟨cs, hcs, h⟩ := bind_ok h
    obtain ⟨hordinary, rfl⟩ := loadCellSlice_ok hcs
    cases h
    have hload := loadCellSlice_ordinary (r := ⟨.mk special data [], virt⟩) hordinary
    refine ⟨[data], ?_, List.flatten_singleton⟩
    rw [chainPieces, hload]
    rfl
  | case2 virt special data next refs ih =>
    rw [chainBits] at h
    obtain ⟨cs, hcs, h⟩ := bind_ok h
    obtain ⟨hordinary, rfl⟩ := loadCellSlice_ok hcs
    obtain ⟨rest, hrest, h⟩ := bind_ok h
    cases h
    have hload := loadCellSlice_ordinary (r := ⟨.mk special data (next :: refs), virt⟩) hordinary
    obtain ⟨pieces, hpieces, hflat⟩ := ih (.ofCell ⟨.mk special data (next :: refs), virt⟩) hrest
    refine ⟨data :: pieces, ?_, by rw [List.flatten_cons, hflat]; rfl⟩
    rw [chainPieces, hload]
    change (do let rest ← chainPieces _ next; return data :: rest) = _
    rw [hpieces]
    rfl

/-- What holds a string is loaded as it, with as many top bits as its first bits are or more. -/
theorem loadSlice_of_holds {depth topBits : Nat} {s : Slice} {bytes : List UInt8} {cs : CellSlice} (h : Holds depth s bytes)
    (hcs : cs.Holds s) (htop : s.bits.length ≤ topBits) (hmax : bytes.length ≤ maxBytes) :
    loadSlice cs topBits = .ok bytes := by
  have hhead : cs.bits.take (min cs.size topBits) = s.bits := by
    rw [← hcs.bits] at htop ⊢
    exact List.take_of_length_le (Nat.le_min.2 ⟨Nat.le_refl _, htop⟩)
  obtain ⟨pieces, hpieces, hflat⟩ : ∃ pieces, forEach cs topBits = .ok pieces ∧ pieces.flatten = bytesToBits bytes := by
    unfold forEach
    rw [hhead, hcs.refs]
    rcases h.bits with ⟨hrefs, hall⟩ | ⟨c, rest, hrefs, hrest, hall⟩
    · rw [hrefs]
      exact ⟨[s.bits], rfl, by rw [List.flatten_singleton, hall]⟩
    · obtain ⟨pieces, hpieces, hflat⟩ := chainPieces_of_chainBits hrest (CellRef.virtualize ⟨c, .none⟩ cs.childVirt).virt
      rw [hrefs]
      refine ⟨s.bits :: pieces, ?_, by rw [List.flatten_cons, hflat, hall]⟩
      change (do let rest ← chainPieces _ c; return s.bits :: rest) = _
      rw [hpieces]
      rfl
  have hlen : pieces.flatten.length = 8 * bytes.length := by rw [hflat, length_bytesToBits]
  unfold maxBytes at hmax
  have hmod : 8 * bytes.length % 8 = 0 := Nat.mul_mod_right 8 _
  rw [loadSlice, hpieces, loadPieces_ok (by omega), if_pos (by rw [hlen]; exact hmod), hflat]
  exact congrArg Except.ok (bytesToBits_inj (bytesToBits_packBits (by rw [length_bytesToBits]; exact hmod)))

theorem finalize_of_holds {depth : Nat} {s : Slice} {bytes : List UInt8} (h : Holds depth s bytes) (hdepth : depth < maxDepth) :
    (⟨s.bits, s.refs⟩ : CellBuilder).finalize = .ok (.mk false s.bits s.refs) := by
  have hrefs : s.refs.length ≤ maxRefs := by
    rcases h.bits with ⟨hrefs, -⟩ | ⟨c, rest, hrefs, -⟩
    · rw [hrefs]
      exact Nat.zero_le _
    · rw [hrefs]
      exact Nat.le_of_ble_eq_true rfl
  exact finalize_ok h.length hrefs ((Cell.Within.node h.within s.bits).mono hdepth)

/-- The chain behind the first cell is stored into builders of its own, so nothing can be missing. -/
theorem storeChain_ok {bytes : List UInt8} {cells : Nat} (hpos : 0 < bytes.length)
    (hlength : bytes.length ≤ 127 * cells) (hmax : bytes.length ≤ maxBytes) (hcells : cells ≤ maxChainLength) :
    ∃ s : Slice, storeChain bytes Vm.maxBits {} cells = .ok ⟨s.bits, s.refs⟩ ∧ Holds cells s bytes := by
  obtain ⟨cb, hcb⟩ : ∃ cb, storeChain bytes Vm.maxBits {} cells = .ok cb := by
    induction cells generalizing bytes with
    | zero => omega
    | succ cells ih =>
      have hhead : headBytes bytes Vm.maxBits {} = min bytes.length 127 := by
        change min (bytes.length * 8) (min (1023 - 0) 1023) / 8 = _
        omega
      have hlong : failIf (maxBytes * 8 < bytes.length * 8) "String is too long (1)" = .ok () :=
        failIf_ok_iff.2 (by omega)
      have hdepth : failIf (maxChainLength < 1 + (bytes.length * 8 - min bytes.length 127 * 8 + 1016 - 1) / 1016)
          "String is too long (2)" = .ok () := by
        refine failIf_ok_iff.2 ?_
        unfold maxChainLength at hcells ⊢
        omega
      have hroom : (bytesToBits (bytes.take (min bytes.length 127))).length ≤ ({} : CellBuilder).remainingBits := by
        change _ ≤ 1023 - 0
        rw [length_bytesToBits, List.length_take]
        omega
      rw [storeChain_succ, hhead, hlong, hdepth]
      change ∃ cb, storeLevel bytes (min bytes.length 127) _ {} = .ok cb
      rw [storeLevel, storeBits_ok _ _ hroom]
      by_cases hlast : bytes.length ≤ min bytes.length 127
      · exact ⟨⟨_, []⟩, if_pos hlast⟩
      · have hrest : (bytes.drop (min bytes.length 127)).length = bytes.length - 127 := by
          rw [List.length_drop]
          omega
        obtain ⟨cb, hcb⟩ := @ih (bytes.drop (min bytes.length 127)) (by omega) (by omega) (by omega) (by omega)
        have hstores := @stores_storeChain _ (bytes.drop (min bytes.length 127)) cells (by omega)
          (by omega) (by omega) (by omega)
        obtain ⟨s, rfl, -, hholds⟩ := hstores.holds cb hcb
        have hfin := finalize_of_holds hholds (by unfold maxChainLength at hcells; unfold maxDepth; omega)
        refine ⟨⟨bytesToBits (bytes.take (min bytes.length 127)), [.mk false s.bits s.refs]⟩, (if_neg hlast).trans ?_⟩
        rw [hcb]
        change ((⟨s.bits, s.refs⟩ : CellBuilder).finalize >>= fun child =>
          CellBuilder.storeRef (some child) ⟨bytesToBits (bytes.take (min bytes.length 127)), []⟩) = _
        rw [hfin]
        exact storeRef_fresh _ _
  obtain ⟨s, rfl, -, hholds⟩ := (stores_storeChain hpos hlength hmax hcells).holds cb hcb
  exact ⟨s, hcb, hholds⟩

/-- The cell of what did not fit into the first one. -/
theorem childCell_ok {bytes : List UInt8} (hpos : 0 < bytes.length) (hmax : bytes.length ≤ maxBytes) :
    ∃ c, childCell bytes = .ok c ∧ c.Within maxChainLength ∧ chainBits c = .ok (bytesToBits bytes) := by
  have hcells : 127 * (maxChainLength - 1) = 1905 := rfl
  have hshort : bytes.length ≤ 127 * (maxChainLength - 1) := by
    unfold maxBytes at hmax
    omega
  obtain ⟨s, hstore, hholds⟩ := storeChain_ok hpos hshort hmax (Nat.sub_le _ _)
  refine ⟨.mk false s.bits s.refs, ?_, Cell.Within.node hholds.within s.bits, ?_⟩
  · rw [childCell, hstore]
    exact finalize_of_holds hholds (by decide)
  · rcases hholds.bits with ⟨hrefs, hall⟩ | ⟨c, rest, hrefs, hrest, hall⟩
    · have hchain := @chainBits_mk s.bits s.refs [] (.inl ⟨hrefs, rfl⟩)
      rw [List.append_nil] at hchain
      rw [← hall]
      exact hchain
    · rw [← hall]
      exact chainBits_mk (.inr ⟨c, hrefs, hrest⟩)

/-- What a stored string is loaded as. -/
def Loads (bytes : List UInt8) (topBits : Nat) (stored : Slice) : Prop :=
  ∀ cs : CellSlice, cs.Holds stored → loadSlice cs topBits = .ok bytes ∧ loadSlice cs Vm.maxBits = .ok bytes

omit [Digest] in
theorem eight_mul_headBytes_le (bytes : List UInt8) (topBits : Nat) (cb : CellBuilder) :
    8 * headBytes bytes topBits cb ≤ cb.remainingBits ∧ 8 * headBytes bytes topBits cb ≤ topBits ∧
      headBytes bytes topBits cb ≤ bytes.length := by
  unfold headBytes
  omega

/-- A string that is not too long: it is stored if it fits into the first cell or there is a free reference, and
otherwise the call throws with the first bytes left in the builder. -/
theorem storeTo_short {bytes : List UInt8} (hmax : bytes.length ≤ maxBytes) (topBits : Nat) (cb : CellBuilder) :
    (bytes.length ≤ headBytes bytes topBits cb ∨ cb.refs.length < maxRefs →
      ∃ stored : Slice, run (storeTo bytes topBits) cb = (.ok (), ⟨cb.bits ++ stored.bits, cb.refs ++ stored.refs⟩) ∧
        Loads bytes topBits stored) ∧
    (¬ (bytes.length ≤ headBytes bytes topBits cb ∨ cb.refs.length < maxRefs) → ∃ cb',
      run (storeTo bytes topBits) cb = (.error .cellWriteError, cb')) := by
  have hcast : check (bytes.length * 8 < 2 ^ 32) "narrow_cast" = .ok () :=
    check_ok_iff.2 (by unfold maxBytes at hmax; omega)
  have hlong : failIf (maxBytes * 8 < bytes.length * 8) "String is too long (1)" = .ok () :=
    failIf_ok_iff.2 (by omega)
  have hdepth : failIf (maxChainLength < 1 + (bytes.length * 8 - headBytes bytes topBits cb * 8 + Vm.maxBits / 8 * 8 - 1) /
      (Vm.maxBits / 8 * 8)) "String is too long (2)" = .ok () := by
    refine failIf_ok_iff.2 ?_
    unfold maxChainLength Vm.maxBits
    unfold maxBytes at hmax
    omega
  obtain ⟨hroom, htop, hle⟩ := eight_mul_headBytes_le bytes topBits cb
  have hhead : (bytesToBits (bytes.take (headBytes bytes topBits cb))).length = 8 * headBytes bytes topBits cb := by
    rw [length_bytesToBits, List.length_take_of_le hle]
  have hbits := storeBits_ok (bytesToBits (bytes.take (headBytes bytes topBits cb))) cb (by omega)
  have hlevel : run (storeTo bytes topBits) cb = run (if bytes.length ≤ headBytes bytes topBits cb then pure () else do
      let child ← call (childCell (bytes.drop (headBytes bytes topBits cb)))
      build (CellBuilder.storeRef (some child))) ⟨cb.bits ++ bytesToBits (bytes.take (headBytes bytes topBits cb)), cb.refs⟩ := by
    simp only [storeTo, run_bind, run_call, run_get, hcast, hlong, hdepth, run_build_ok hbits]
  have hbytes : bytesToBits (bytes.take (headBytes bytes topBits cb)) ++
      bytesToBits (bytes.drop (headBytes bytes topBits cb)) = bytesToBits bytes := by
    rw [← bytesToBits_append, List.take_append_drop]
  have hloads : ∀ stored : Slice, stored.bits = bytesToBits (bytes.take (headBytes bytes topBits cb)) →
      Holds maxDepth stored bytes → Loads bytes topBits stored := by
    rintro stored hstored hholds cs hcs
    have hlen : stored.bits.length = 8 * headBytes bytes topBits cb := by rw [hstored, hhead]
    exact ⟨loadSlice_of_holds hholds hcs (by omega) hmax,
      loadSlice_of_holds hholds hcs (by have := remainingBits_le cb; omega) hmax⟩
  have hlimit : (bytesToBits (bytes.take (headBytes bytes topBits cb))).length ≤ Vm.maxBits := by
    have := remainingBits_le cb
    omega
  rw [hlevel]
  by_cases hlast : bytes.length ≤ headBytes bytes topBits cb
  · -- nothing is left for a cell of its own
    rw [if_pos hlast, run_pure]
    have htake : bytes.take (headBytes bytes topBits cb) = bytes := List.take_of_length_le hlast
    constructor
    · intro _
      refine ⟨⟨bytesToBits (bytes.take (headBytes bytes topBits cb)), []⟩, by rw [List.append_nil],
        hloads _ rfl ⟨hlimit, List.forall_mem_nil _, .inl ⟨rfl, by rw [htake]⟩⟩⟩
    · intro h
      exact absurd (.inl hlast) h
  · have hrest : (bytes.drop (headBytes bytes topBits cb)).length = bytes.length - headBytes bytes topBits cb :=
      List.length_drop
    obtain ⟨c, hchild, hwithin, hchain⟩ := @childCell_ok _ (bytes.drop (headBytes bytes topBits cb)) (by omega)
      (by omega)
    have hcall := run_call (childCell (bytes.drop (headBytes bytes topBits cb)))
      ⟨cb.bits ++ bytesToBits (bytes.take (headBytes bytes topBits cb)), cb.refs⟩
    rw [hchild] at hcall
    rw [if_neg hlast, hchild, run_bind_ok hcall]
    constructor
    · intro h
      refine ⟨⟨bytesToBits (bytes.take (headBytes bytes topBits cb)), [c]⟩,
        run_build_ok (storeRef_ok c _ (h.resolve_left hlast)), hloads _ rfl ⟨hlimit, ?_, .inr ⟨c, _, rfl, hchain, hbytes⟩⟩⟩
      rintro c' hc'
      cases List.mem_singleton.1 hc'
      exact hwithin.mono (by decide)
    · intro h
      exact ⟨_, run_build_error (storeRef_full c _ fun hroom => h (.inr hroom))⟩

/-- When a store of a string ends as it should. -/
theorem storeSound_storeTo_iff (bytes : List UInt8) (topBits : Nat) (cb : CellBuilder) :
    StoreSound cb (Loads bytes topBits) (run (storeTo bytes topBits) cb) ↔ bytes.length * 8 < 2 ^ 32 ∧
      (maxBytes < bytes.length ∨ bytes.length ≤ headBytes bytes topBits cb ∨ cb.refs.length < maxRefs) := by
  by_cases hcast : bytes.length * 8 < 2 ^ 32
  · rw [and_iff_right hcast]
    by_cases hmax : bytes.length ≤ maxBytes
    · rw [or_iff_right (not_lt.2 hmax)]
      obtain ⟨hstored, hthrown⟩ := storeTo_short hmax topBits cb
      by_cases hfits : bytes.length ≤ headBytes bytes topBits cb ∨ cb.refs.length < maxRefs
      · exact iff_of_true (.inr (hstored hfits)) hfits
      · obtain ⟨cb', hrun⟩ := hthrown hfits
        rw [hrun]
        refine iff_of_false ?_ hfits
        rintro (⟨s, h⟩ | ⟨stored, h, -⟩) <;> cases h
    · have hok : check (bytes.length * 8 < 2 ^ 32) "narrow_cast" = .ok () := check_ok_iff.2 hcast
      have hlong : failIf (maxBytes * 8 < bytes.length * 8) "String is too long (1)" = fail "String is too long (1)" :=
        if_pos (by omega)
      refine iff_of_true (.inl ⟨.error "String is too long (1)", ?_⟩) (.inl (not_le.1 hmax))
      rw [storeTo, hok, run_bind_ok (run_call _ cb), hlong]
      exact run_bind_error (run_call _ cb) _
  · refine iff_of_false ?_ fun h => hcast h.1
    have hcheck : check (bytes.length * 8 < 2 ^ 32) "narrow_cast" = .error (.check "narrow_cast") := if_neg hcast
    rw [storeTo, hcheck, run_bind_error (run_call _ cb)]
    rintro (⟨s, h⟩ | ⟨stored, h, -⟩) <;> cases h

end CellString

/-! ## Texts -/

namespace CellText

/-- The number of cells from one on along the first references. -/
def cellCount : Cell → Nat
  | .mk _ _ [] => 1
  | .mk _ _ (c :: _) => cellCount c + 1

/-- The number of pieces that are stored. -/
def chunkCount (stored : Slice) : Nat :=
  if stored.bits.length ≤ 8 then 0 else cellCount (.mk false stored.bits stored.refs)

/-- A cell that begins with a piece of a text, the number of pieces from it on, and the text. -/
inductive Holds : Nat → Cell → List UInt8 → Prop
  | last {bytes : List UInt8} (length : bytes.length ≤ 255) :
    Holds 1 (.mk false (natToBits 8 bytes.length ++ bytesToBits bytes) []) bytes
  | more {n : Nat} {next : Cell} {head rest : List UInt8} (length : head.length ≤ 255) (below : Holds n next rest) :
    Holds (n + 1) (.mk false (natToBits 8 head.length ++ bytesToBits head) [next]) (head ++ rest)

omit [Digest] in
theorem Holds.pos {n : Nat} {c : Cell} {bytes : List UInt8} (h : Holds n c bytes) : 0 < n := by
  cases h <;> exact Nat.succ_pos _

omit [Digest] in
theorem Holds.ordinary {n : Nat} {c : Cell} {bytes : List UInt8} (h : Holds n c bytes) : c.special = false := by
  cases h <;> rfl

omit [Digest] in
theorem Holds.cellCount_eq {n : Nat} {c : Cell} {bytes : List UInt8} (h : Holds n c bytes) : cellCount c = n := by
  induction h with
  | last => rfl
  | more _ _ ih => rw [cellCount, ih]

omit [Digest] in
/-- A number of a byte at the front. -/
theorem fetchUlong_eight {n : Nat} {rest : List Bool} (hn : n ≤ 255) {cs : CellSlice} (hcs : cs.bits = natToBits 8 n ++ rest) :
    fetchUlong 8 cs = (n, { cs with bits := rest }) := by
  have hlen : 8 ≤ cs.size := by
    rw [CellSlice.size, hcs, List.length_append, length_natToBits]
    omega
  have htake : cs.bits.take 8 = natToBits 8 n := by
    rw [hcs, List.take_left' (length_natToBits 8 n)]
  have hdrop : cs.bits.drop 8 = rest := by
    rw [hcs, List.drop_left' (length_natToBits 8 n)]
  have hvalue : bitsToNat (natToBits 8 n) = n := by
    rw [bitsToNat_natToBits]
    omega
  rw [fetchUlong, if_pos hlen, htake, hdrop, hvalue]

omit [Digest] in
theorem nextPiece_of_bits {bytes : List UInt8} (h : bytes.length ≤ 255) {cs : CellSlice}
    (hcs : cs.bits = natToBits 8 bytes.length ++ bytesToBits bytes) :
    nextPiece cs = .ok (bytesToBits bytes, { cs with bits := [] }) := by
  have hcast : narrowCast bytes.length = .ok bytes.length := by
    rw [narrowCast, (check_ok_iff (u := ())).2 (by omega)]
    rfl
  have hlen : bytes.length * 8 = (bytesToBits bytes).length := by rw [length_bytesToBits, Nat.mul_comm]
  have hfetch : fetchBits (bytes.length * 8) { cs with bits := bytesToBits bytes } =
      (bytesToBits bytes, { cs with bits := [] }) := by
    have hle : bytes.length * 8 ≤ CellSlice.size { cs with bits := bytesToBits bytes } := Nat.le_of_eq hlen
    rw [fetchBits, if_pos hle]
    change ((bytesToBits bytes).take _, { cs with bits := (bytesToBits bytes).drop _ }) = _
    rw [hlen, List.take_length, List.drop_length]
  rw [nextPiece, fetchUlong_eight h hcs, hcast]
  exact congrArg Except.ok hfetch

theorem pieces_of_holds {n : Nat} {c : Cell} {bytes : List UInt8} (h : Holds n c bytes) {cs : CellSlice}
    (hbits : cs.bits = c.data) (hrefs : cs.refs = c.refs) :
    ∃ l, pieces n cs = .ok l ∧ l.flatten = bytesToBits bytes := by
  induction h generalizing cs with
  | @last bytes length =>
    refine ⟨[bytesToBits bytes], ?_, List.flatten_singleton⟩
    rw [pieces, nextPiece_of_bits length hbits]
    rfl
  | @more n next head rest length below ih =>
    have hn : n ≠ 0 := Nat.ne_of_gt below.pos
    rcases loadNext_cases { cs with bits := [] } with ⟨next', virt, hnext, -, hload⟩ | ⟨hspecial, -⟩
    · rw [hrefs] at hnext
      cases hnext
      obtain ⟨l, hl, hflat⟩ := @ih (.ofCell ⟨next, virt⟩) rfl rfl
      refine ⟨bytesToBits head :: l, ?_, by rw [List.flatten_cons, hflat, bytesToBits_append]⟩
      rw [pieces, nextPiece_of_bits length hbits]
      change (if n = 0 then _ else do
        let cs ← CellSlice.loadNext { cs with bits := [] }
        let l ← pieces n cs
        return bytesToBits head :: l) = _
      rw [if_neg hn, hload]
      change (do let l ← pieces n _; return bytesToBits head :: l) = _
      rw [hl]
      rfl
    · have htrue := hspecial next (by rw [hrefs]; rfl)
      exact absurd (below.ordinary.symm.trans htrue) Bool.false_ne_true

/-- One cell of `do_store`. -/
theorem doStore_eq (bytes : List UInt8) :
    doStore bytes = if min bytes.length 126 < bytes.length then do
        let child ← doStore (bytes.drop (min bytes.length 126))
        let cb ← CellBuilder.storeRef (some child)
          ⟨natToBits 8 (min bytes.length 126) ++ bytesToBits (bytes.take (min bytes.length 126)), []⟩
        cb.finalize
      else CellBuilder.finalize
        ⟨natToBits 8 (min bytes.length 126) ++ bytesToBits (bytes.take (min bytes.length 126)), []⟩ := by
  have hhead : min (bytes.length * 8) (({} : CellBuilder).remainingBits - 8) / 8 = min bytes.length 126 := by
    change min (bytes.length * 8) (1023 - 0 - 8) / 8 = _
    omega
  have hsize := storeBits_ok (natToBits 8 (min bytes.length 126)) {} (by rw [length_natToBits]; decide)
  have hdata := storeBits_ok (bytesToBits (bytes.take (min bytes.length 126)))
    ⟨[] ++ natToBits 8 (min bytes.length 126), []⟩ (by
      change _ ≤ 1023 - ([] ++ natToBits 8 _).length
      rw [List.nil_append, length_natToBits, length_bytesToBits, List.length_take]
      omega)
  rw [doStore, hhead, hsize]
  change (CellBuilder.storeBits _ ⟨[] ++ natToBits 8 (min bytes.length 126), []⟩ >>= _) = _
  rw [hdata]
  by_cases hmore : min bytes.length 126 < bytes.length
  · rw [if_pos hmore]
    exact dif_pos hmore
  · rw [if_neg hmore]
    exact dif_neg hmore

theorem finalize_piece {bytes : List UInt8} {refs : List Cell} {n : Nat} (hbytes : bytes.length ≤ 126)
    (hrefs : refs.length ≤ 1) (hwithin : ∀ c ∈ refs, c.Within n) (hn : n < maxDepth) :
    CellBuilder.finalize ⟨natToBits 8 bytes.length ++ bytesToBits bytes, refs⟩ =
        .ok (.mk false (natToBits 8 bytes.length ++ bytesToBits bytes) refs) ∧
      (Cell.mk false (natToBits 8 bytes.length ++ bytesToBits bytes) refs).Within (n + 1) := by
  have hcell := Cell.Within.node hwithin (natToBits 8 bytes.length ++ bytesToBits bytes)
  refine ⟨finalize_ok ?_ ?_ (hcell.mono hn), hcell⟩
  · change _ ≤ 1023
    rw [List.length_append, length_natToBits, length_bytesToBits]
    omega
  · exact hrefs.trans (by decide)

/-- The cells behind the first one. -/
theorem doStore_ok {n : Nat} {bytes : List UInt8} (hpos : 0 < bytes.length) (hlength : bytes.length ≤ 126 * n)
    (hn : n ≤ maxChainLength) :
    ∃ c, doStore bytes = .ok c ∧ Holds ((bytes.length + 125) / 126) c bytes ∧ c.Within n := by
  induction n generalizing bytes with
  | zero => omega
  | succ n ih =>
    have hdepth : n < maxDepth := by
      unfold maxChainLength at hn
      unfold maxDepth
      omega
    have htake : (bytes.take (min bytes.length 126)).length = min bytes.length 126 :=
      List.length_take_of_le (Nat.min_le_left _ _)
    rw [doStore_eq]
    by_cases hmore : min bytes.length 126 < bytes.length
    · have hrest : (bytes.drop (min bytes.length 126)).length = bytes.length - 126 := by
        rw [List.length_drop]
        omega
      obtain ⟨child, hchild, hholds, hwithin⟩ := @ih (bytes.drop (min bytes.length 126)) (by omega) (by omega) (by omega)
      have hchunks : (bytes.length + 125) / 126 = ((bytes.drop (min bytes.length 126)).length + 125) / 126 + 1 := by
        rw [hrest]
        omega
      have hpiece := @finalize_piece _ (bytes.take (min bytes.length 126)) [child] n (by omega) (Nat.le_refl 1)
        (List.forall_mem_singleton.2 hwithin) hdepth
      rw [htake] at hpiece
      rw [if_pos hmore, hchild, hchunks]
      refine ⟨_, ?_, ?_, hpiece.2⟩
      · change (CellBuilder.storeRef (some child)
          ⟨natToBits 8 (min bytes.length 126) ++ bytesToBits (bytes.take (min bytes.length 126)), []⟩ >>=
            fun cb => cb.finalize) = _
        rw [storeRef_fresh]
        exact hpiece.1
      · have hholds := @Holds.more _ child (bytes.take (min bytes.length 126)) _ (by omega) hholds
        rwa [htake, List.take_append_drop] at hholds
    · have hall : min bytes.length 126 = bytes.length := by omega
      have hpiece := @finalize_piece _ bytes [] n (by omega) (Nat.zero_le 1) (List.forall_mem_nil _) hdepth
      have hone : (bytes.length + 125) / 126 = 1 := by omega
      rw [if_neg hmore, hall, List.take_length, hone]
      exact ⟨_, hpiece.1, .last (by omega), hpiece.2⟩

/-- What a stored text is loaded as, and that its first byte is the number of its pieces. -/
def Loads (bytes : List UInt8) (stored : Slice) : Prop :=
  bitsToNat (stored.bits.take 8) = chunkCount stored ∧ ∀ cs : CellSlice, cs.Holds stored → load cs = .ok bytes

omit [Digest] in
theorem eight_mul_headBytes_le (bytes : List UInt8) (topBits : Nat) {cb : CellBuilder} (hroom : 16 ≤ cb.remainingBits) :
    8 * headBytes bytes topBits cb + 16 ≤ cb.remainingBits ∧ headBytes bytes topBits cb ≤ bytes.length := by
  unfold headBytes
  omega

/-- The first piece, and what is behind it. -/
theorem loads_of_holds {n : Nat} {bytes : List UInt8} {bits : List Bool} {refs : List Cell} (hn : n ≤ 255)
    (hmax : bytes.length ≤ maxBytes) (h : Holds n (.mk false bits refs) bytes) (hbits : 8 ≤ bits.length) :
    Loads bytes ⟨natToBits 8 n ++ bits, refs⟩ := by
  constructor
  · have hlong : ¬ (natToBits 8 n ++ bits).length ≤ 8 := by
      rw [List.length_append, length_natToBits]
      omega
    have hcount : cellCount (.mk false (natToBits 8 n ++ bits) refs) = n := by
      rw [← h.cellCount_eq]
      cases refs <;> rw [cellCount, cellCount]
    rw [chunkCount, if_neg hlong, hcount, List.take_left' (length_natToBits 8 n), bitsToNat_natToBits]
    omega
  · rintro cs hcs
    obtain ⟨l, hl, hflat⟩ := @pieces_of_holds _ _ _ _ h { cs with bits := bits } rfl hcs.refs
    have hlen : l.flatten.length = 8 * bytes.length := by rw [hflat, length_bytesToBits]
    have hmod : 8 * bytes.length % 8 = 0 := Nat.mul_mod_right 8 _
    unfold maxBytes at hmax
    rw [load, forEach, fetchUlong_eight hn hcs.bits, hl, loadPieces_ok (by omega), if_pos (by rw [hlen]; exact hmod), hflat]
    exact congrArg Except.ok (bytesToBits_inj (bytesToBits_packBits (by rw [length_bytesToBits]; exact hmod)))

/-- What is stored of a text with at least one byte before the cell of its rest. -/
theorem run_storeTo {bytes : List UInt8} (hmax : bytes.length ≤ maxBytes) {topBits : Nat} {cb : CellBuilder}
    (hroom : 16 ≤ cb.remainingBits) (htop : 16 ≤ topBits) (hpos : bytes.length ≠ 0) {head : Nat}
    (hh : headBytes bytes topBits cb = head) :
    run (storeTo bytes topBits) cb = run (if bytes.length ≤ head then pure () else do
        let child ← call (doStore (bytes.drop head))
        build (CellBuilder.storeRef (some child)))
      ⟨cb.bits ++ (natToBits 8 ((bytes.length - head + 125) / 126 + 1) ++ (natToBits 8 head ++ bytesToBits (bytes.take head))),
        cb.refs⟩ := by
  have hcast : check (bytes.length * 8 < 2 ^ 32) "narrow_cast" = .ok () :=
    check_ok_iff.2 (by unfold maxBytes at hmax; omega)
  have hlong : failIf (maxBytes * 8 < bytes.length * 8) "String is too long (1)" = .ok () :=
    failIf_ok_iff.2 (by omega)
  have hspace : failIf (cb.remainingBits < 16) "Not enough space in a builder" = .ok () :=
    failIf_ok_iff.2 (not_lt.2 hroom)
  have htopBits : failIf (topBits < 16) "Need at least 16 top bits" = .ok () := failIf_ok_iff.2 (not_lt.2 htop)
  obtain ⟨hhead, hle⟩ := eight_mul_headBytes_le bytes topBits hroom
  rw [hh] at hhead hle
  obtain ⟨depth, hdepth⟩ : ∃ depth, depth = 1 + (bytes.length * 8 - head * 8 + Vm.maxBits / 8 * 8 - 8 - 1) /
    (Vm.maxBits / 8 * 8 - 8) := ⟨_, rfl⟩
  have hchunks : (bytes.length - head + 125) / 126 + 1 = depth := by
    rw [hdepth]
    unfold Vm.maxBits
    omega
  have hlimit : failIf (maxChainLength < depth) "String is too long (2)" = .ok () := by
    refine failIf_ok_iff.2 ?_
    unfold maxChainLength
    unfold maxBytes at hmax
    omega
  have htake : (bytes.take head).length = head := List.length_take_of_le hle
  have hfirst := storeBits_ok (natToBits 8 depth) cb (by rw [length_natToBits]; omega)
  have hsecond := storeBits_ok (natToBits 8 head) ⟨cb.bits ++ natToBits 8 depth, cb.refs⟩ (by
    rw [remainingBits_append, length_natToBits, length_natToBits]
    omega)
  have hthird := storeBits_ok (bytesToBits (bytes.take head))
    ⟨cb.bits ++ natToBits 8 depth ++ natToBits 8 head, cb.refs⟩ (by
      rw [List.append_assoc, remainingBits_append, List.length_append, length_natToBits, length_natToBits,
        length_bytesToBits, htake]
      omega)
  rw [hchunks, ← List.append_assoc, ← List.append_assoc]
  simp only [storeTo, run_bind, run_call, run_get, hcast, hlong, hspace, htopBits, if_neg hpos, hh, ← hdepth, hlimit,
    run_build_ok hfirst, run_build_ok hsecond, run_build_ok hthird]

/-- A text that is not too long, in a builder with some room. -/
theorem storeTo_short {bytes : List UInt8} (hmax : bytes.length ≤ maxBytes) {topBits : Nat} {cb : CellBuilder}
    (hroom : 16 ≤ cb.remainingBits) (htop : 16 ≤ topBits) :
    (bytes.length ≤ headBytes bytes topBits cb ∨ cb.refs.length < maxRefs →
      ∃ stored : Slice, run (storeTo bytes topBits) cb = (.ok (), ⟨cb.bits ++ stored.bits, cb.refs ++ stored.refs⟩) ∧
        Loads bytes stored) ∧
    (¬ (bytes.length ≤ headBytes bytes topBits cb ∨ cb.refs.length < maxRefs) → ∃ cb',
      run (storeTo bytes topBits) cb = (.error .cellWriteError, cb')) := by
  have hcast : check (bytes.length * 8 < 2 ^ 32) "narrow_cast" = .ok () :=
    check_ok_iff.2 (by unfold maxBytes at hmax; omega)
  have hlong : failIf (maxBytes * 8 < bytes.length * 8) "String is too long (1)" = .ok () :=
    failIf_ok_iff.2 (by omega)
  have hspace : failIf (cb.remainingBits < 16) "Not enough space in a builder" = .ok () :=
    failIf_ok_iff.2 (not_lt.2 hroom)
  have htopBits : failIf (topBits < 16) "Need at least 16 top bits" = .ok () := failIf_ok_iff.2 (not_lt.2 htop)
  by_cases hempty : bytes.length = 0
  · -- only the depth is stored
    have hbits := storeBits_ok (natToBits 8 0) cb (by rw [length_natToBits]; omega)
    have hrun : run (storeTo bytes topBits) cb = (.ok (), ⟨cb.bits ++ natToBits 8 0, cb.refs⟩) := by
      simp only [storeTo, run_bind, run_call, run_get, hcast, hlong, hspace, htopBits, if_pos hempty, run_build_ok hbits]
      rfl
    obtain rfl := List.length_eq_zero_iff.1 hempty
    constructor
    · intro _
      refine ⟨⟨natToBits 8 0, []⟩, by rw [hrun, List.append_nil], rfl, ?_⟩
      rintro cs hcs
      have hfetch := @fetchUlong_eight 0 [] (Nat.zero_le _) cs (by rw [hcs.bits, List.append_nil])
      rw [load, forEach, hfetch]
      rfl
    · intro h
      exact absurd (.inl (Nat.zero_le _)) h
  · obtain ⟨hhead, hle⟩ := eight_mul_headBytes_le bytes topBits hroom
    generalize hh : headBytes bytes topBits cb = head at hhead hle ⊢
    obtain ⟨depth, hchunks⟩ : ∃ depth, depth = (bytes.length - head + 125) / 126 + 1 := ⟨_, rfl⟩
    have hhead255 : head ≤ 255 := by
      have := CellString.remainingBits_le cb
      unfold Vm.maxBits at this
      omega
    have htake : (bytes.take head).length = head := List.length_take_of_le hle
    have hlevel := run_storeTo hmax hroom htop hempty hh
    rw [← hchunks] at hlevel
    have hbits : 8 ≤ (natToBits 8 head ++ bytesToBits (bytes.take head)).length := by
      rw [List.length_append, length_natToBits]
      omega
    have hdepth255 : depth ≤ 255 := by
      unfold maxBytes at hmax
      omega
    rw [hlevel]
    by_cases hlast : bytes.length ≤ head
    · -- the first piece is the only one
      have hone : depth = 1 := by omega
      have hall : head = bytes.length := by omega
      rw [if_pos hlast, run_pure]
      constructor
      · intro _
        refine ⟨⟨natToBits 8 depth ++ (natToBits 8 head ++ bytesToBits (bytes.take head)), []⟩,
          by rw [List.append_nil], loads_of_holds hdepth255 hmax ?_ hbits⟩
        rw [hone, hall, List.take_length]
        exact .last (by omega)
      · intro h
        exact absurd (.inl hlast) h
    · have hrest : (bytes.drop head).length = bytes.length - head := List.length_drop
      have hcells : bytes.length - head ≤ 126 * maxChainLength := by
        unfold maxChainLength
        unfold maxBytes at hmax
        omega
      obtain ⟨c, hchild, hholds, -⟩ := @doStore_ok _ maxChainLength (bytes.drop head) (by omega) (by omega) (Nat.le_refl _)
      rw [hrest] at hholds
      have hcall := run_call (doStore (bytes.drop head))
        ⟨cb.bits ++ (natToBits 8 depth ++ (natToBits 8 head ++ bytesToBits (bytes.take head))), cb.refs⟩
      rw [hchild] at hcall
      have htext := @Holds.more _ c (bytes.take head) _ (by omega) hholds
      rw [htake, List.take_append_drop, ← hchunks] at htext
      rw [if_neg hlast, hchild, run_bind_ok hcall]
      constructor
      · intro h
        exact ⟨⟨natToBits 8 depth ++ (natToBits 8 head ++ bytesToBits (bytes.take head)), [c]⟩,
          run_build_ok (storeRef_ok c _ (h.resolve_left hlast)), loads_of_holds hdepth255 hmax htext hbits⟩
      · intro h
        exact ⟨_, run_build_error (storeRef_full c _ fun hfree => h (.inr hfree))⟩

/-- When a store of a text ends as it should. -/
theorem storeSound_storeTo_iff (bytes : List UInt8) (topBits : Nat) (cb : CellBuilder) :
    StoreSound cb (Loads bytes) (run (storeTo bytes topBits) cb) ↔ bytes.length * 8 < 2 ^ 32 ∧
      (maxBytes < bytes.length ∨ cb.remainingBits < 16 ∨ topBits < 16 ∨
        bytes.length ≤ headBytes bytes topBits cb ∨ cb.refs.length < maxRefs) := by
  by_cases hcast : bytes.length * 8 < 2 ^ 32
  · rw [and_iff_right hcast]
    have hcheck : check (bytes.length * 8 < 2 ^ 32) "narrow_cast" = .ok () := check_ok_iff.2 hcast
    by_cases hmax : bytes.length ≤ maxBytes
    · rw [or_iff_right (not_lt.2 hmax)]
      have hlong : failIf (maxBytes * 8 < bytes.length * 8) "String is too long (1)" = .ok () :=
        failIf_ok_iff.2 (by omega)
      by_cases hroom : 16 ≤ cb.remainingBits
      · rw [or_iff_right (not_lt.2 hroom)]
        by_cases htop : 16 ≤ topBits
        · rw [or_iff_right (not_lt.2 htop)]
          obtain ⟨hstored, hthrown⟩ := storeTo_short hmax hroom htop
          by_cases hfits : bytes.length ≤ headBytes bytes topBits cb ∨ cb.refs.length < maxRefs
          · exact iff_of_true (.inr (hstored hfits)) hfits
          · obtain ⟨cb', hrun⟩ := hthrown hfits
            rw [hrun]
            refine iff_of_false ?_ hfits
            rintro (⟨s, h⟩ | ⟨stored, h, -⟩) <;> cases h
        · have hspace : failIf (cb.remainingBits < 16) "Not enough space in a builder" = .ok () :=
            failIf_ok_iff.2 (not_lt.2 hroom)
          have htopBits : failIf (topBits < 16) "Need at least 16 top bits" = fail "Need at least 16 top bits" :=
            if_pos (not_le.1 htop)
          refine iff_of_true (.inl ⟨.error "Need at least 16 top bits", ?_⟩) (.inl (not_le.1 htop))
          simp only [storeTo, run_bind, run_call, run_get, hcheck, hlong, hspace, htopBits]
          rfl
      · have hspace : failIf (cb.remainingBits < 16) "Not enough space in a builder" =
            fail "Not enough space in a builder" := if_pos (not_le.1 hroom)
        refine iff_of_true (.inl ⟨.error "Not enough space in a builder", ?_⟩) (.inl (not_le.1 hroom))
        simp only [storeTo, run_bind, run_call, run_get, hcheck, hlong, hspace]
        rfl
    · have hlong : failIf (maxBytes * 8 < bytes.length * 8) "String is too long (1)" = fail "String is too long (1)" :=
        if_pos (by omega)
      refine iff_of_true (.inl ⟨.error "String is too long (1)", ?_⟩) (.inl (not_le.1 hmax))
      simp only [storeTo, run_bind, run_call, run_get, hcheck, hlong]
      rfl
  · refine iff_of_false ?_ fun h => hcast h.1
    have hcheck : check (bytes.length * 8 < 2 ^ 32) "narrow_cast" = .error (.check "narrow_cast") := if_neg hcast
    rw [storeTo, hcheck, run_bind_error (run_call _ cb)]
    rintro (⟨s, h⟩ | ⟨stored, h, -⟩) <;> cases h

/-- A store of a string or of a text ends with a status and the builder as it was, or with what is loaded again as the
bytes (and, of a text, begins with the number of its pieces), exactly when the bytes are fewer than an `unsigned int`
has bits for eighth of and, unless a status is returned, fit into the builder or there is a free reference. Bytes that
are not too many are stored when there is a free reference and, for a text, room for the two bytes in front. -/
theorem stores_and_loads (bytes : List UInt8) (topBits : Nat) (cb : CellBuilder) :
    (StoreSound cb (CellString.Loads bytes topBits) (run (CellString.storeTo bytes topBits) cb) ↔
      bytes.length * 8 < 2 ^ 32 ∧ (CellString.maxBytes < bytes.length ∨
        bytes.length ≤ CellString.headBytes bytes topBits cb ∨ cb.refs.length < maxRefs)) ∧
    (StoreSound cb (Loads bytes) (run (storeTo bytes topBits) cb) ↔
      bytes.length * 8 < 2 ^ 32 ∧ (maxBytes < bytes.length ∨ cb.remainingBits < 16 ∨ topBits < 16 ∨
        bytes.length ≤ headBytes bytes topBits cb ∨ cb.refs.length < maxRefs)) ∧
    (bytes.length ≤ 1024 → cb.refs.length < maxRefs →
      (run (CellString.storeTo bytes topBits) cb).1 = .ok () ∧
      (16 ≤ cb.remainingBits → 16 ≤ topBits → (run (storeTo bytes topBits) cb).1 = .ok ())) := by
  refine ⟨CellString.storeSound_storeTo_iff bytes topBits cb, storeSound_storeTo_iff bytes topBits cb, ?_⟩
  intro hmax hfree
  constructor
  · obtain ⟨stored, hrun, -⟩ := (CellString.storeTo_short hmax topBits cb).1 (.inr hfree)
    rw [hrun]
  · intro hroom htop
    obtain ⟨stored, hrun, -⟩ := (storeTo_short hmax hroom htop).1 (.inr hfree)
    rw [hrun]

end CellText

end

namespace CellText.Sample

/-- A builder without a free reference. -/
def full : CellBuilder := ⟨[], List.replicate 4 (.mk false [] [])⟩

/-- A byte that has no room behind the two in front of a text is thrown out with those two stored. -/
theorem not_storeSound_full :
    ¬ ∀ (_ : Digest) (bytes : List UInt8) (topBits : Nat) (cb : CellBuilder), cb.bits.length ≤ maxBits →
      cb.refs.length ≤ maxRefs → StoreSound cb (Loads bytes) (run (storeTo bytes topBits) cb) := by
  intro h
  have hsound := h digest [97] 16 full (by decide) (by decide)
  obtain ⟨-, hfits⟩ := (@storeSound_storeTo_iff digest [97] 16 full).1 hsound
  exact absurd hfits (by decide)

/-- Two bytes into an empty builder. -/
theorem stores_short :
    (StoreSound {} (@CellString.Loads digest [104, 105] 1023) (run (@CellString.storeTo digest [104, 105] 1023) {}) ↔
      [104, 105].length * 8 < 2 ^ 32 ∧ (CellString.maxBytes < [104, 105].length ∨
        [104, 105].length ≤ CellString.headBytes [104, 105] 1023 {} ∨ ({} : CellBuilder).refs.length < maxRefs)) ∧
    (StoreSound {} (@Loads digest [104, 105]) (run (@storeTo digest [104, 105] 1023) {}) ↔
      [104, 105].length * 8 < 2 ^ 32 ∧ (maxBytes < [104, 105].length ∨ ({} : CellBuilder).remainingBits < 16 ∨
        1023 < 16 ∨ [104, 105].length ≤ headBytes [104, 105] 1023 {} ∨ ({} : CellBuilder).refs.length < maxRefs)) ∧
    (run (@CellString.storeTo digest [104, 105] 1023) {}).1 = .ok () ∧
      (run (@storeTo digest [104, 105] 1023) {}).1 = .ok () := by
  obtain ⟨hstring, htext, hshort⟩ := @stores_and_loads digest [104, 105] 1023 {}
  obtain ⟨hstored, hstored'⟩ := hshort (by decide) (by decide)
  exact ⟨hstring, htext, hstored, hstored' (by decide) (by decide)⟩

end CellText.Sample

end TonWallet.Vm
