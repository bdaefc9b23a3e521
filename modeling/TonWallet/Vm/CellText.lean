/-
Loading byte strings from chains of cells (`vm/cells/CellString`, both `CellString::load` and `CellText::load`), from
any slice, also one of a virtualized cell: `for_each` walks the chain twice, once to add the sizes up and once to fill
the buffer. `CellText` believes the depth and the length of each chunk that it finds in the cells.
-/
import TonWallet.Vm.CellString

namespace TonWallet.Vm

open Lib TonWallet.Td TonWallet.Ton

/-! ## The two passes -/

/-- Whether a call ends with a value or a status, not with an exception or the end of the process. -/
def Returns {α : Type} (r : Result α) : Prop := ∀ e, r = .error e → e.aborts = false

theorem returns_ok {α : Type} (a : α) : Returns (.ok a : Result α) := by
  rintro e ⟨⟩

theorem returns_fail {α : Type} (message : String) : Returns (fail message : Result α) := by
  rintro e ⟨⟩
  rfl

theorem returns_status {α : Type} (s : Status) : Returns (.error (.status s) : Result α) := by
  rintro e ⟨⟩
  rfl

theorem returns_failIf (c : Prop) [Decidable c] (message : String) : Returns (failIf c message) := by
  unfold failIf
  split
  · exact returns_fail message
  · exact returns_ok ()

theorem returns_tryPrefix {α : Type} {pre : Status} {r : Result α} (h : Returns r) : Returns (tryPrefix pre r) := by
  intro e he
  unfold tryPrefix at he
  split at he
  · cases he
    rfl
  · exact h e he

theorem returns_bind {α β : Type} {r : Result α} {f : α → Result β} (h : Returns r) (hf : ∀ a, r = .ok a → Returns (f a)) :
    Returns (r >>= f) := by
  cases r with
  | ok a => exact hf a rfl
  | error e =>
    rintro e' ⟨⟩
    exact h e rfl

/-- A call behind one that gave a value. -/
theorem returns_bind_ok {α β : Type} {r : Result α} {a : α} (h : r = .ok a) (f : α → Result β) :
    Returns (r >>= f) ↔ Returns (f a) := by
  rw [h]
  rfl

/-- An exception ends the calls behind it. -/
theorem not_returns_bind {α β : Type} {r : Result α} {e : Fail} (h : r = .error e) (he : e.aborts = true)
    (f : α → Result β) : ¬ Returns (r >>= f) := by
  rw [h]
  intro hreturns
  exact Bool.false_ne_true ((hreturns e rfl).symm.trans he)

theorem returns_bind_pure_iff {α β : Type} {r : Result α} (f : α → β) :
    Returns (r >>= fun a => (.ok (f a) : Result β)) ↔ Returns r := by
  cases r with
  | ok a => exact iff_of_true (returns_ok _) (returns_ok _)
  | error e => exact ⟨fun h e' he => by cases he; exact h e rfl, fun h e' he => by cases he; exact h e rfl⟩

/-- `BitPtr::concat` of one piece after the other, into a buffer with room for so many bits. -/
def concatAll (room : Nat) : List (List Bool) → List Bool → Result (List Bool)
  | [], written => .ok written
  | piece :: pieces, written =>
    if room < written.length + piece.length then .error (.check "write out of range")
    else concatAll room pieces (written ++ piece)

/-- The pieces together, in an `unsigned int`. -/
def sumSizes (pieces : List (List Bool)) : Nat :=
  pieces.foldl (fun size piece => (size + piece.length) % 2 ^ 32) 0

/-- `load`, with what `for_each` calls its argument with. -/
def loadPieces (forEach : Result (List (List Bool))) : Result (List UInt8) := do
  let size := sumSizes (← forEach)
  failIf (size % 8 ≠ 0) "Size is not divisible by 8"
  let bits ← concatAll (size / 8 * 8) (← forEach) []
  check (bits.length = size) "to.offs == (int)size"
  return packBits bits

/-- So many bits as a chain of cells can have at most. -/
theorem sumSizes_eq {pieces : List (List Bool)} (h : pieces.flatten.length < 2 ^ 32) :
    sumSizes pieces = pieces.flatten.length := by
  have hfold : ∀ (pieces : List (List Bool)) (size : Nat), size + pieces.flatten.length < 2 ^ 32 →
      pieces.foldl (fun size piece => (size + piece.length) % 2 ^ 32) size = size + pieces.flatten.length := by
    intro pieces
    induction pieces with
    | nil =>
      intro size _
      rfl
    | cons piece pieces ih =>
      intro size hsize
      rw [List.flatten_cons, List.length_append] at hsize ⊢
      rw [List.foldl_cons, Nat.mod_eq_of_lt (by omega), ih _ (by omega), Nat.add_assoc]
  rw [sumSizes, hfold pieces 0 (by rwa [Nat.zero_add]), Nat.zero_add]

theorem concatAll_eq {room : Nat} {pieces : List (List Bool)} {written : List Bool}
    (h : written.length + pieces.flatten.length ≤ room) :
    concatAll room pieces written = .ok (written ++ pieces.flatten) := by
  induction pieces generalizing written with
  | nil => simp [concatAll]
  | cons piece pieces ih =>
    rw [List.flatten_cons, List.length_append] at h
    rw [concatAll, if_neg (by omega), ih (by rw [List.length_append]; omega)]
    simp

/-- Both passes see the same pieces, so what is written fits the buffer. -/
theorem loadPieces_ok {pieces : List (List Bool)} (h : pieces.flatten.length < 2 ^ 32) :
    loadPieces (.ok pieces) = if pieces.flatten.length % 8 = 0 then .ok (packBits pieces.flatten)
      else fail "Size is not divisible by 8" := by
  have hbind : loadPieces (.ok pieces) = (do
      failIf (pieces.flatten.length % 8 ≠ 0) "Size is not divisible by 8"
      let bits ← concatAll (pieces.flatten.length / 8 * 8) pieces []
      check (bits.length = pieces.flatten.length) "to.offs == (int)size"
      return packBits bits) := by
    rw [← sumSizes_eq h]
    rfl
  rw [hbind]
  by_cases hmod : pieces.flatten.length % 8 = 0
  · have hroom : pieces.flatten.length / 8 * 8 = pieces.flatten.length := by omega
    rw [(failIf_ok_iff (u := ())).2 (not_not.2 hmod), hroom, concatAll_eq (by simp), if_pos hmod]
    change check (pieces.flatten.length = pieces.flatten.length) _ >>= _ = _
    rw [(check_ok_iff (u := ())).2 rfl]
    rfl
  · rw [if_neg hmod, failIf, if_pos hmod]
    rfl

theorem loadPieces_error (e : Fail) : loadPieces (.error e) = .error e := rfl

/-- A load ends as it should exactly when its walk over the chain does. -/
theorem returns_loadPieces_iff {r : Result (List (List Bool))} (hsize : ∀ pieces, r = .ok pieces → pieces.flatten.length < 2 ^ 32) :
    Returns (loadPieces r) ↔ Returns r := by
  cases r with
  | error e =>
    rw [loadPieces_error]
    exact ⟨fun h e' he => by cases he; exact h e rfl, fun h e' he => by cases he; exact h e rfl⟩
  | ok pieces =>
    refine iff_of_true ?_ (returns_ok pieces)
    rw [loadPieces_ok (hsize pieces rfl)]
    split
    · exact returns_ok _
    · exact returns_fail _

/-! ## The next cell -/

/-- The cell behind a slice: `load_cell_slice(prefetch_ref())`. -/
def CellSlice.loadNext [Digest] (cs : CellSlice) : Result CellSlice :=
  match cs.prefetchRef 0 with
  | none => .error (.check "deferencing null Ref")
  | some r => loadCellSlice r

theorem CellRef.cell_virtualize [Digest] (r : CellRef) (virt : VirtParams) : (r.virtualize virt).cell = r.cell := by
  unfold CellRef.virtualize CellRef.createVirtual
  dsimp only
  split_ifs <;> rfl

/-- Only ordinary cells are loaded, and how they are virtualized does not matter. -/
theorem loadCellSlice_ordinary {r : CellRef} (h : r.cell.special = false) : loadCellSlice r = .ok (.ofCell r) := by
  have htype : r.cell.specialType ≠ .prunnedBranch := by
    rw [Cell.specialType, h]
    exact fun htype => by cases htype
  rw [loadCellSlice, if_neg (fun hand => htype hand.1), h]
  rfl

theorem loadCellSlice_special {r : CellRef} (h : r.cell.special = true) :
    ∃ e, loadCellSlice r = .error e ∧ e.aborts = true := by
  unfold loadCellSlice
  rw [if_pos h]
  split
  · exact ⟨_, rfl, rfl⟩
  · split
    all_goals exact ⟨_, rfl, rfl⟩

section

variable [Digest]

/-! ## Strings -/

namespace CellString

/-- The pieces of a cell behind the first one and of the cells behind it. -/
def chainPieces : VirtParams → Cell → Result (List (List Bool))
  | virt, .mk special data [] => do
    let cs ← loadCellSlice ⟨.mk special data [], virt⟩
    return [cs.bits]
  | virt, .mk special data (c :: refs) => do
    let cs ← loadCellSlice ⟨.mk special data (c :: refs), virt⟩
    return cs.bits :: (← chainPieces (CellRef.virtualize ⟨c, .none⟩ cs.childVirt).virt c)

/-- `for_each`. -/
def forEach (cs : CellSlice) (topBits : Nat) : Result (List (List Bool)) := do
  let head := cs.bits.take (min cs.size topBits)
  match cs.refs with
  | [] => return [head]
  | c :: _ => return head :: (← chainPieces (CellRef.virtualize ⟨c, .none⟩ cs.childVirt).virt c)

/-- `load`, of any slice. -/
def loadSlice (cs : CellSlice) (topBits : Nat) : Result (List UInt8) := loadPieces (forEach cs topBits)

end CellString

/-! ## Texts -/

namespace CellText

/-- `fetch_ulong`: all ones when there are too few bits. -/
def fetchUlong (bits : Nat) (cs : CellSlice) : Nat × CellSlice :=
  if bits ≤ cs.size then (bitsToNat (cs.bits.take bits), { cs with bits := cs.bits.drop bits }) else (2 ^ 64 - 1, cs)

/-- `CellSlice::fetch_bits`: nothing when there are too few bits. -/
def fetchBits (bits : Nat) (cs : CellSlice) : List Bool × CellSlice :=
  if bits ≤ cs.size then (cs.bits.take bits, { cs with bits := cs.bits.drop bits }) else ([], cs)

/-- `narrow_cast<int>` of an `unsigned long long`. -/
def narrowCast (n : Nat) : Result Nat := do
  check (n < 2 ^ 31) "narrow_cast"
  return n

/-- One turn of the loop of `for_each`: a piece and the slice behind it. -/
def nextPiece (cs : CellSlice) : Result (List Bool × CellSlice) := do
  let size ← narrowCast (fetchUlong 8 cs).1
  return fetchBits (size * 8) (fetchUlong 8 cs).2

/-- The loop of `for_each`, with so many turns to go. -/
def pieces : Nat → CellSlice → Result (List (List Bool))
  | 0, _ => .ok []
  | n + 1, cs => do
    let piece ← nextPiece cs
    if n = 0 then return [piece.1]
    else return piece.1 :: (← pieces n (← piece.2.loadNext))

/-- `for_each`. -/
def forEach (cs : CellSlice) : Result (List (List Bool)) := pieces (fetchUlong 8 cs).1 (fetchUlong 8 cs).2

/-- `load`. -/
def load (cs : CellSlice) : Result (List UInt8) := loadPieces (forEach cs)

end CellText

/-! ## Which chains are read -/

/-- A tree of cells no deeper than so many cells, none of them larger than a cell can be. -/
inductive Cell.Bounded : Nat → Cell → Prop
  | node {depth : Nat} {special : Bool} {data : List Bool} {refs : List Cell} (bits : data.length ≤ maxBits)
    (below : ∀ c ∈ refs, Cell.Bounded depth c) : Cell.Bounded (depth + 1) (.mk special data refs)

/-- A slice as there can be one: of a cell that is no larger and no deeper than cells can be. -/
structure CellSlice.Bounded (cs : CellSlice) : Prop where
  bits : cs.size ≤ maxBits
  refs : ∀ c ∈ cs.refs, c.Bounded (maxDepth + 1)

namespace CellString

/-- Whether the cells on the way along the first references are all ordinary. -/
def Ordinary : Cell → Prop
  | .mk special _ [] => special = false
  | .mk special _ (c :: _) => special = false ∧ Ordinary c

/-- Whether the cells behind a slice are ordinary. -/
def Readable (cs : CellSlice) : Prop := ∀ c, cs.refs.head? = some c → Ordinary c

theorem chainPieces_ok {depth : Nat} {c : Cell} {virt : VirtParams} {pieces : List (List Bool)} (hc : c.Bounded depth)
    (h : chainPieces virt c = .ok pieces) : pieces.flatten.length ≤ maxBits * depth := by
  induction depth generalizing c virt pieces with
  | zero => cases hc
  | succ depth ih =>
    cases hc with
    | @node _ special data refs bits below =>
      cases refs with
      | nil =>
        rw [chainPieces] at h
        obtain ⟨cs, hcs, h⟩ := bind_ok h
        obtain ⟨-, rfl⟩ := loadCellSlice_ok hcs
        cases h
        simp only [List.flatten_cons, List.flatten_nil, List.append_nil]
        exact bits.trans (Nat.le_mul_of_pos_right _ (Nat.succ_pos _))
      | cons next refs =>
        rw [chainPieces] at h
        obtain ⟨cs, hcs, h⟩ := bind_ok h
        obtain ⟨-, rfl⟩ := loadCellSlice_ok hcs
        obtain ⟨rest, hrest, h⟩ := bind_ok h
        cases h
        have hbelow := ih (below next List.mem_cons_self) hrest
        rw [List.flatten_cons, List.length_append, Nat.mul_succ, Nat.add_comm]
        exact Nat.add_le_add hbelow bits

theorem returns_chainPieces_iff (virt : VirtParams) (c : Cell) : Returns (chainPieces virt c) ↔ Ordinary c := by
  induction virt, c using chainPieces.induct with
  | case1 virt special data =>
    rw [chainPieces, Ordinary]
    cases special with
    | false =>
      have hload := loadCellSlice_ordinary (r := ⟨.mk false data [], virt⟩) rfl
      exact iff_of_true ((returns_bind_ok hload _).2 (returns_ok _)) rfl
    | true =>
      obtain ⟨e, hload, he⟩ := loadCellSlice_special (r := ⟨.mk true data [], virt⟩) rfl
      exact iff_of_false (not_returns_bind hload he _) Bool.noConfusion
  | case2 virt special data next refs ih =>
    rw [chainPieces, Ordinary]
    cases special with
    | false =>
      have hload := loadCellSlice_ordinary (r := ⟨.mk false data (next :: refs), virt⟩) rfl
      rw [returns_bind_ok hload, and_iff_right rfl, ← ih]
      exact returns_bind_pure_iff _
    | true =>
      obtain ⟨e, hload, he⟩ := loadCellSlice_special (r := ⟨.mk true data (next :: refs), virt⟩) rfl
      exact iff_of_false (not_returns_bind hload he _) fun h => Bool.noConfusion h.1

theorem returns_loadSlice_iff {cs : CellSlice} (hcs : cs.Bounded) (topBits : Nat) :
    Returns (loadSlice cs topBits) ↔ Readable cs := by
  have hbound : maxBits + maxBits * (maxDepth + 1) < 2 ^ 32 := by decide
  rw [loadSlice, returns_loadPieces_iff, forEach, Readable]
  · cases cs.refs with
    | nil => exact iff_of_true (returns_ok _) (fun c hc => by cases hc)
    | cons c refs =>
      refine (returns_bind_pure_iff _).trans ((returns_chainPieces_iff _ c).trans ?_)
      constructor
      · rintro h c' hc'
        cases hc'
        exact h
      · intro h
        exact h c rfl
  · rintro pieces hpieces
    have hhead : (cs.bits.take (min cs.size topBits)).length ≤ maxBits := (List.length_take_le' _ _).trans hcs.bits
    rw [forEach] at hpieces
    cases hrefs : cs.refs with
    | nil =>
      rw [hrefs] at hpieces
      cases hpieces
      simp only [List.flatten_cons, List.flatten_nil, List.append_nil]
      omega
    | cons c refs =>
      rw [hrefs] at hpieces
      obtain ⟨rest, hrest, hpieces⟩ := bind_ok hpieces
      cases hpieces
      have hc := hcs.refs c (by rw [hrefs]; exact List.mem_cons_self)
      have hlen := chainPieces_ok hc hrest
      rw [List.flatten_cons, List.length_append]
      omega

end CellString

namespace CellText

/-- Whether so many pieces can be read: each has the byte of its length, and another one is in an ordinary cell. -/
def PiecesReadable : Nat → List Bool → List Cell → Prop
  | 0, _, _ => True
  | n + 1, bits, refs => 8 ≤ bits.length ∧
    (n = 0 ∨ ∃ next, refs.head? = some next ∧ next.special = false ∧ PiecesReadable n next.data next.refs)

/-- Whether a slice has the byte of the depth and as many pieces as it says can be read. -/
def Readable (cs : CellSlice) : Prop :=
  8 ≤ cs.size ∧ PiecesReadable (bitsToNat (cs.bits.take 8)) (cs.bits.drop 8) cs.refs

omit [Digest] in
theorem nextPiece_short {cs : CellSlice} (h : cs.size < 8) :
    nextPiece cs = .error (.check "narrow_cast") := by
  have hfetch : fetchUlong 8 cs = (2 ^ 64 - 1, cs) := if_neg (not_le.2 h)
  rw [nextPiece, hfetch]
  rfl

omit [Digest] in
/-- A piece that is there; the references stay. -/
theorem nextPiece_ok {cs : CellSlice} (h : 8 ≤ cs.size) :
    ∃ piece rest, nextPiece cs = .ok (piece, { cs with bits := rest }) ∧ piece.length ≤ 2040 := by
  have hfetch : fetchUlong 8 cs = (bitsToNat (cs.bits.take 8), { cs with bits := cs.bits.drop 8 }) := if_pos h
  have hlt : bitsToNat (cs.bits.take 8) < 2 ^ 8 := by
    have hlt := bitsToNat_lt (cs.bits.take 8)
    rwa [List.length_take_of_le h] at hlt
  have hcast : narrowCast (bitsToNat (cs.bits.take 8)) = .ok (bitsToNat (cs.bits.take 8)) := by
    rw [narrowCast, (check_ok_iff (u := ())).2 (by omega)]
    rfl
  rw [nextPiece, hfetch, hcast]
  change ∃ piece rest, (.ok (fetchBits _ _) : Result (List Bool × CellSlice)) = _ ∧ _
  unfold fetchBits
  split
  · refine ⟨_, _, rfl, ?_⟩
    have hlen := List.length_take_le (bitsToNat (cs.bits.take 8) * 8) (cs.bits.drop 8)
    exact hlen.trans (by omega)
  · exact ⟨[], cs.bits.drop 8, rfl, Nat.zero_le _⟩

/-- The next cell is there and ordinary, or the process ends. -/
theorem loadNext_cases (cs : CellSlice) :
    (∃ next virt, cs.refs.head? = some next ∧ next.special = false ∧ cs.loadNext = .ok (.ofCell ⟨next, virt⟩)) ∨
      (∀ next, cs.refs.head? = some next → next.special = true) ∧ ∃ e, cs.loadNext = .error e ∧ e.aborts = true := by
  unfold CellSlice.loadNext CellSlice.prefetchRef
  cases hrefs : cs.refs with
  | nil => exact .inr ⟨(fun next hnext => by cases hnext), _, rfl, rfl⟩
  | cons next refs =>
    have hcell : (CellRef.virtualize ⟨next, .none⟩ cs.childVirt).cell = next := CellRef.cell_virtualize _ _
    cases hspecial : next.special with
    | false =>
      refine .inl ⟨next, (CellRef.virtualize ⟨next, .none⟩ cs.childVirt).virt, rfl, hspecial, ?_⟩
      have hload := loadCellSlice_ordinary (r := CellRef.virtualize ⟨next, .none⟩ cs.childVirt) (by rw [hcell]; exact hspecial)
      refine hload.trans ?_
      rw [CellSlice.ofCell, CellSlice.ofCell, hcell]
    | true =>
      have hload := loadCellSlice_special (r := CellRef.virtualize ⟨next, .none⟩ cs.childVirt) (by rw [hcell]; exact hspecial)
      refine .inr ⟨?_, hload⟩
      rintro next' hnext'
      cases hnext'
      exact hspecial

theorem returns_pieces_iff (n : Nat) (cs : CellSlice) : Returns (pieces n cs) ↔ PiecesReadable n cs.bits cs.refs := by
  induction n generalizing cs with
  | zero => exact iff_of_true (returns_ok _) trivial
  | succ n ih =>
    rw [pieces, PiecesReadable]
    by_cases hsize : 8 ≤ cs.size
    · obtain ⟨piece, rest, hpiece, -⟩ := nextPiece_ok hsize
      have hbits : 8 ≤ cs.bits.length := hsize
      rw [returns_bind_ok hpiece, and_iff_right hbits]
      by_cases hn : n = 0
      · rw [if_pos hn]
        exact iff_of_true (returns_ok _) (.inl hn)
      · rw [if_neg hn, or_iff_right hn]
        rcases loadNext_cases { cs with bits := rest } with ⟨next, virt, hnext, hspecial, hload⟩ | ⟨hspecial, e, hload, he⟩
        · refine (returns_bind_ok hload _).trans ((returns_bind_pure_iff _).trans ((ih _).trans ?_))
          constructor
          · intro h
            exact ⟨next, hnext, hspecial, h⟩
          · rintro ⟨next', hnext', -, h⟩
            cases hnext.symm.trans hnext'
            exact h
        · refine iff_of_false (not_returns_bind hload he _) ?_
          rintro ⟨next, hnext, hordinary, -⟩
          exact Bool.false_ne_true (hordinary.symm.trans (hspecial next hnext))
    · refine iff_of_false ?_ fun h => hsize h.1
      exact not_returns_bind (nextPiece_short (not_le.1 hsize)) rfl _

theorem pieces_ok {n : Nat} {cs : CellSlice} {l : List (List Bool)} (h : pieces n cs = .ok l) :
    l.flatten.length ≤ 2040 * n := by
  induction n generalizing cs l with
  | zero =>
    cases h
    exact Nat.zero_le _
  | succ n ih =>
    obtain ⟨piece, hpiece, h⟩ := bind_ok h
    have hlen : piece.1.length ≤ 2040 := by
      by_cases hsize : 8 ≤ cs.size
      · obtain ⟨piece', rest, hpiece', hlen⟩ := nextPiece_ok hsize
        rw [hpiece] at hpiece'
        cases hpiece'
        exact hlen
      · rw [nextPiece_short (not_le.1 hsize)] at hpiece
        cases hpiece
    split at h
    · cases h
      simp only [List.flatten_cons, List.flatten_nil, List.append_nil]
      omega
    · obtain ⟨next, -, h⟩ := bind_ok h
      obtain ⟨rest, hrest, h⟩ := bind_ok h
      cases h
      have hbelow := ih hrest
      rw [List.flatten_cons, List.length_append]
      omega

theorem returns_load_iff (cs : CellSlice) : Returns (load cs) ↔ Readable cs := by
  rw [load, forEach, Readable]
  by_cases hsize : 8 ≤ cs.size
  · have hfetch : fetchUlong 8 cs = (bitsToNat (cs.bits.take 8), { cs with bits := cs.bits.drop 8 }) := if_pos hsize
    have hlt : bitsToNat (cs.bits.take 8) < 2 ^ 8 := by
      have hlt := bitsToNat_lt (cs.bits.take 8)
      rwa [List.length_take_of_le hsize] at hlt
    rw [hfetch, and_iff_right hsize, returns_loadPieces_iff, returns_pieces_iff]
    rintro l hl
    have hlen := pieces_ok hl
    omega
  · have hfetch : fetchUlong 8 cs = (2 ^ 64 - 1, cs) := if_neg hsize
    have hturns : 2 ^ 64 - 1 = (2 ^ 64 - 2) + 1 := by norm_num
    refine iff_of_false ?_ fun h => hsize h.1
    rw [hfetch, hturns, pieces, nextPiece_short (not_le.1 hsize)]
    intro h
    exact Bool.noConfusion (h _ rfl)

/-- Both loads end with a string or a status exactly when the cells that they walk over are there as they are
declared: for a string all cells along the first references are ordinary; for a text each piece, up to the depth in
its first byte, has the byte of its length and each but the first is in an ordinary cell behind the one before. -/
theorem loads_return (cs : CellSlice) (topBits : Nat) (hcs : cs.Bounded) :
    (Returns (load cs) ↔ Readable cs) ∧
      (Returns (CellString.loadSlice cs topBits) ↔ CellString.Readable cs) :=
  ⟨returns_load_iff cs, CellString.returns_loadSlice_iff hcs topBits⟩

end CellText

end

namespace CellText.Sample

abbrev digest : Digest where
  sha256 _ := 0

/-- A text of so many pieces, the first one without a byte, with one cell behind it. -/
def slice (pieces : Nat) (next : Cell) : CellSlice :=
  .ofCell ⟨.mk false (natToBits 8 pieces ++ natToBits 8 0) [next], .none⟩

/-- A text of two pieces where the second one has no byte for its length. -/
theorem not_returns_truncated : ¬ ∀ (_ : Digest) (cs : CellSlice), cs.Bounded → Returns (load cs) := by
  intro h
  have hbounded : (slice 2 (.mk false [] [])).Bounded := by
    constructor
    · decide
    · rintro c hc
      cases List.mem_singleton.1 hc
      exact .node (by decide) (fun c hc => by cases hc)
  have hload : @load digest (slice 2 (.mk false [] [])) = .error (.check "narrow_cast") := by
    rfl
  exact Bool.noConfusion (h digest _ hbounded _ hload)

/-- A text of one piece is loaded whatever is behind it. -/
theorem returns_single : (Returns (@load digest (slice 1 (.mk true [] []))) ↔ Readable (slice 1 (.mk true [] []))) ∧
    (Returns (@CellString.loadSlice digest (slice 1 (.mk true [] [])) 1023) ↔
      CellString.Readable (slice 1 (.mk true [] []))) := by
  apply @loads_return digest
  constructor
  · decide
  · rintro c hc
    cases List.mem_singleton.1 hc
    exact .node (by decide) (fun c hc => by cases hc)

end CellText.Sample

end TonWallet.Vm
