/-
Entries of the stack in the API (`is_list`, `to_tonlib_api`, `from_tonlib_api`): pairs that end in null are lists there,
numbers are decimal texts, cells and slices are bags of cells. A slice comes back as a cell.
-/
import TonWallet.Td.DecString

namespace TonWallet.Tonlib

open Lib TonWallet.Td TonWallet.Ton TonWallet.Vm

/-! ## Entries -/

/-- The types of `vm::StackEntry` that the API has nothing for. -/
inductive OtherEntry
  | builder
  | vmcont
  | stack
  | string
  | bytes
  | bitstring
  | box
  | atom
  | object
  deriving DecidableEq, Repr

/-- `vm::StackEntry`. -/
inductive StackEntry
  | null
  | int (x : BigInt256)
  | cell (c : Cell)
  | slice (s : Slice)
  | tuple (elements : List StackEntry)
  | other (type : OtherEntry)

/-- Bags of cells (`vm/boc`), as what they are serialized to. -/
class BagsOfCells extends Digest where
  Bag : Type
  stdBocSerialize : Cell → Result Bag
  stdBocDeserialize : Bag → Result Cell

open BagsOfCells

/-- `tvm_StackEntry`. -/
inductive ApiEntry (Bag : Type)
  | unsupported
  | slice (bytes : Bag)
  | cell (bytes : Bag)
  | number (decimal : List Char)
  | tuple (elements : List (ApiEntry Bag))
  | list (elements : List (ApiEntry Bag))

/-- `is_list`. -/
def isList : StackEntry → Bool
  | .null => true
  | .tuple [_, tail] => isList tail
  | _ => false

section

variable [BagsOfCells]

/-- `to_bytes`: a cell that cannot be serialized ends the process. -/
def toBytes (c : Cell) : Result Bag := match stdBocSerialize c with
  | .error (.status s) => .error (.check s.toStr)
  | r => r

mutual

/-- `to_tonlib_api`. -/
def toTonlibApi : StackEntry → Result (ApiEntry Bag)
  | .int x => .ok (.number (decString x))
  | .slice s => do
    match CellBuilder.appendSliceBool s {} with
    | some cb => return .cell (← toBytes (← cb.finalize))
    | none => .error .cellWriteError
  | .cell c => do return .cell (← toBytes c)
  | .null => .ok (.list [])
  | .tuple elements =>
    if isList (.tuple elements) then do return .list (← listToTonlibApi elements)
    else do return .tuple (← elementsToTonlibApi elements)
  | .other _ => .ok .unsupported

/-- The loop over the nodes of a list, from one that is a pair. -/
def listToTonlibApi : List StackEntry → Result (List (ApiEntry Bag))
  | [element, .tuple node] => do
    let element ← toTonlibApi element
    let elements ← listToTonlibApi node
    return element :: elements
  | [element, _] => do
    let element ← toTonlibApi element
    return [element]
  | _ => .ok []

/-- The loop over the elements of a tuple. -/
def elementsToTonlibApi : List StackEntry → Result (List (ApiEntry Bag))
  | [] => .ok []
  | element :: elements => do
    let element ← toTonlibApi element
    let elements ← elementsToTonlibApi elements
    return element :: elements

end

mutual

/-- `from_tonlib_api`. -/
def fromTonlibApi : ApiEntry Bag → Result StackEntry
  | .unsupported => fail "Unsuppored stack entry"
  | .slice bytes => do return .cell (← stdBocDeserialize bytes)
  | .cell bytes => do return .cell (← stdBocDeserialize bytes)
  | .tuple elements => do return .tuple (← elementsFromTonlibApi elements)
  | .list elements => listFromTonlibApi elements
  | .number decimal => match decStringToInt256 decimal with
    | some num => .ok (.int num)
    | none => fail "Failed to parse dec string to int256"

/-- The loop over the elements of a tuple. -/
def elementsFromTonlibApi : List (ApiEntry Bag) → Result (List StackEntry)
  | [] => .ok []
  | element :: elements => do
    let element ← fromTonlibApi element
    let elements ← elementsFromTonlibApi elements
    return element :: elements

/-- The loop over the elements of a list, from the last one. -/
def listFromTonlibApi : List (ApiEntry Bag) → Result StackEntry
  | [] => .ok .null
  | element :: elements => do
    let tail ← listFromTonlibApi elements
    let element ← fromTonlibApi element
    return .tuple [element, tail]

end

/-! ## What comes back -/

/-- A cell that `DataCell::create` makes of such cells. -/
inductive Made : Cell → Prop
  | node {special : Bool} {data : List Bool} {refs : List Cell} (below : ∀ c ∈ refs, Made c)
    (made : Cell.create special data refs = .ok (.mk special data refs)) : Made (.mk special data refs)

/-- What is relied on of bags of cells: cells of level 0 are read back, and no others are read. -/
structure LawfulBags : Prop where
  roundTrip : ∀ c, Made c → c.levelMask.getLevel = 0 → ∃ bytes, stdBocSerialize c = .ok bytes ∧ stdBocDeserialize bytes = .ok c
  level : ∀ bytes c, stdBocDeserialize bytes = .ok c → c.levelMask.getLevel = 0

/-- Entries built from integers of 257 bits, cells, slices, tuples and nulls; lists are pairs of pairs. -/
inductive Built : StackEntry → Prop
  | null : Built .null
  | int {x : Int} (lo : -2 ^ 256 ≤ x) (hi : x < 2 ^ 256) : Built (.int (some x))
  | cell {c : Cell} (made : Made c) : Built (.cell c)
  | slice (s : Slice) : Built (.slice s)
  | tuple {elements : List StackEntry} (built : ∀ e ∈ elements, Built e) : Built (.tuple elements)

/-- Entries without slices, whose cells are of level 0. -/
inductive Kept : StackEntry → Prop
  | null : Kept .null
  | int (x : BigInt256) : Kept (.int x)
  | cell {c : Cell} (level : c.levelMask.getLevel = 0) : Kept (.cell c)
  | tuple {elements : List StackEntry} (kept : ∀ e ∈ elements, Kept e) : Kept (.tuple elements)

/-- An entry comes back as it was. -/
def RoundTrips (e : StackEntry) : Prop := ∃ api, toTonlibApi e = .ok api ∧ fromTonlibApi api = .ok e

mutual

/-- What the API gives has no slices. -/
theorem kept_of_fromTonlibApi (h : LawfulBags) : ∀ {api : ApiEntry Bag} {e : StackEntry}, fromTonlibApi api = .ok e → Kept e
  | .unsupported, _, he => absurd he (by rw [fromTonlibApi]; exact fail_ne_ok)
  | .slice bytes, _, he => by
    rw [fromTonlibApi] at he
    obtain ⟨c, hc, he⟩ := bind_ok he
    cases he
    exact .cell (h.level bytes c hc)
  | .cell bytes, _, he => by
    rw [fromTonlibApi] at he
    obtain ⟨c, hc, he⟩ := bind_ok he
    cases he
    exact .cell (h.level bytes c hc)
  | .tuple elements, _, he => by
    rw [fromTonlibApi] at he
    obtain ⟨es, hes, he⟩ := bind_ok he
    cases he
    exact .tuple (kept_of_elementsFromTonlibApi h hes)
  | .list elements, _, he => by
    rw [fromTonlibApi] at he
    exact kept_of_listFromTonlibApi h he
  | .number decimal, _, he => by
    rw [fromTonlibApi] at he
    split at he
    · cases he
      exact .int _
    · exact absurd he fail_ne_ok

theorem kept_of_elementsFromTonlibApi (h : LawfulBags) : ∀ {apis : List (ApiEntry Bag)} {es : List StackEntry},
    elementsFromTonlibApi apis = .ok es → ∀ e ∈ es, Kept e
  | [], _, hes => by
    cases hes
    exact List.forall_mem_nil _
  | api :: apis, _, hes => by
    rw [elementsFromTonlibApi] at hes
    obtain ⟨e, he, hes⟩ := bind_ok hes
    obtain ⟨es, hrest, hes⟩ := bind_ok hes
    cases hes
    exact List.forall_mem_cons.2 ⟨kept_of_fromTonlibApi h he, kept_of_elementsFromTonlibApi h hrest⟩

theorem kept_of_listFromTonlibApi (h : LawfulBags) : ∀ {apis : List (ApiEntry Bag)} {e : StackEntry},
    listFromTonlibApi apis = .ok e → Kept e
  | [], _, he => by
    cases he
    exact .null
  | api :: apis, _, he => by
    rw [listFromTonlibApi] at he
    obtain ⟨tail, htail, he⟩ := bind_ok he
    obtain ⟨head, hhead, he⟩ := bind_ok he
    cases he
    refine .tuple (List.forall_mem_cons.2 ⟨kept_of_fromTonlibApi h hhead, List.forall_mem_singleton.2 ?_⟩)
    exact kept_of_listFromTonlibApi h htail

end

theorem elements_roundTrip {elements : List StackEntry} (h : ∀ e ∈ elements, RoundTrips e) :
    ∃ apis, elementsToTonlibApi elements = .ok apis ∧ elementsFromTonlibApi apis = .ok elements := by
  induction elements with
  | nil => exact ⟨[], rfl, rfl⟩
  | cons e elements ih =>
    obtain ⟨⟨api, hto, hfrom⟩, hrest⟩ := List.forall_mem_cons.1 h
    obtain ⟨apis, hto', hfrom'⟩ := ih hrest
    refine ⟨api :: apis, ?_, ?_⟩
    · rw [elementsToTonlibApi, hto, hto']
      rfl
    · rw [elementsFromTonlibApi, hfrom, hfrom']
      rfl

/-- A pair before a list is a longer list. -/
theorem pair_roundTrip {element tail : StackEntry} (helement : RoundTrips element) (htail : RoundTrips tail)
    (hlist : isList tail = true) : RoundTrips (.tuple [element, tail]) := by
  obtain ⟨api, hto, hfrom⟩ := helement
  have hlist' : isList (.tuple [element, tail]) = true := by
    rw [isList]
    exact hlist
  -- the list of the tail is what the loop gives for its nodes
  have hnodes : ∃ apis, listToTonlibApi [element, tail] = .ok (api :: apis) ∧ listFromTonlibApi apis = .ok tail := by
    obtain ⟨apiTail, htoTail, hfromTail⟩ := htail
    cases tail with
    | null =>
      refine ⟨[], ?_, rfl⟩
      rw [listToTonlibApi, hto]
      · rfl
      · rintro node h
        cases h
    | tuple node =>
      rw [toTonlibApi, if_pos hlist] at htoTail
      obtain ⟨apis, hapis, htoTail⟩ := bind_ok htoTail
      cases htoTail
      rw [fromTonlibApi] at hfromTail
      refine ⟨apis, ?_, hfromTail⟩
      rw [listToTonlibApi, hto, hapis]
      rfl
    | int x => cases hlist
    | cell c => cases hlist
    | slice s => cases hlist
    | other type => cases hlist
  obtain ⟨apis, hlistTo, hlistFrom⟩ := hnodes
  refine ⟨.list (api :: apis), ?_, ?_⟩
  · rw [toTonlibApi, if_pos hlist', hlistTo]
    rfl
  · rw [fromTonlibApi, listFromTonlibApi, hlistFrom, hfrom]
    rfl

/-- Without slices, everything comes back. -/
theorem roundTrips_of_kept (h : LawfulBags) {e : StackEntry} (hbuilt : Built e) (hkept : Kept e) : RoundTrips e := by
  induction hbuilt with
  | null => exact ⟨.list [], rfl, rfl⟩
  | @int x lo hi =>
    refine ⟨.number (decString (some x)), by rw [toTonlibApi], ?_⟩
    rw [fromTonlibApi, decStringToInt256_decString lo hi]
  | @cell c made =>
    cases hkept with
    | cell level =>
      obtain ⟨bytes, hto, hfrom⟩ := h.roundTrip c made level
      refine ⟨.cell bytes, ?_, ?_⟩
      · rw [toTonlibApi, toBytes, hto]
        rfl
      · rw [fromTonlibApi, hfrom]
        rfl
  | slice s => cases hkept
  | @tuple elements built ih =>
    cases hkept with
    | tuple kept =>
      have hall : ∀ e ∈ elements, RoundTrips e := fun e he => ih e he (kept e he)
      by_cases hlist : isList (.tuple elements) = true
      · match elements, hlist, hall with
        | [element, tail], hlist, hall =>
          rw [isList] at hlist
          exact pair_roundTrip (hall element List.mem_cons_self) (hall tail (List.mem_cons_of_mem _ List.mem_cons_self)) hlist
      · obtain ⟨apis, hto, hfrom⟩ := elements_roundTrip hall
        refine ⟨.tuple apis, ?_, ?_⟩
        · rw [toTonlibApi, if_neg hlist, hto]
          rfl
        · rw [fromTonlibApi, hfrom]
          rfl

/-- An entry comes back from the API as it was exactly when there is no slice in it and its cells are of level 0. -/
theorem roundTrips_iff_kept (h : LawfulBags) {e : StackEntry} (hbuilt : Built e) : RoundTrips e ↔ Kept e := by
  refine ⟨?_, roundTrips_of_kept h hbuilt⟩
  rintro ⟨api, -, hfrom⟩
  exact kept_of_fromTonlibApi h hfrom

end

/-! ## A slice that comes back as a cell -/

namespace StackEntry.Sample

abbrev digest : Digest where
  sha256 bytes := BitVec.ofNat 256 (bytes.foldl (fun h b => (h * 257 + b.toNat + 1) % 2 ^ 256) 0)

/-- Bags that hold their cell. -/
abbrev bags : BagsOfCells where
  toDigest := digest
  Bag := Cell
  stdBocSerialize c := .ok c
  stdBocDeserialize c :=
    if (@Cell.levelMask digest c).getLevel = 0 then .ok c else fail "bag of cells has a root with non-zero level"

theorem lawfulBags : @LawfulBags bags := by
  refine @LawfulBags.mk bags ?_ ?_
  · intro c _ hlevel
    have hread : @stdBocDeserialize bags c = .ok c := if_pos hlevel
    exact ⟨c, rfl, hread⟩
  · intro bytes c h
    by_cases hlevel : (@Cell.levelMask digest bytes).getLevel = 0
    · cases (if_pos hlevel).symm.trans h
      exact hlevel
    · exact absurd ((if_neg hlevel).symm.trans h) fail_ne_ok

/-- The list of minus one and an empty tuple. -/
def list : StackEntry := .tuple [.int (some (-1)), .tuple [.tuple [], .null]]

theorem built_list : @Built bags list := by
  have hinner : @Built bags (.tuple [.tuple [], .null]) := by
    refine @Built.tuple bags _ (List.forall_mem_cons.2 ⟨?_, List.forall_mem_singleton.2 (@Built.null bags)⟩)
    exact @Built.tuple bags _ (List.forall_mem_nil _)
  have hone : @Built bags (.int (some (-1))) := @Built.int bags _ (by decide) (by decide)
  exact @Built.tuple bags _ (List.forall_mem_cons.2 ⟨hone, List.forall_mem_singleton.2 hinner⟩)

theorem roundTrips_list_iff : @RoundTrips bags list ↔ @Kept bags list :=
  @roundTrips_iff_kept bags lawfulBags list built_list

/-- A slice of nothing does not come back. -/
theorem slice_not_roundTrips :
    ¬ ∀ (E : BagsOfCells), @LawfulBags E → ∀ e : StackEntry, @Built E e → @RoundTrips E e := by
  intro h
  obtain ⟨api, -, hfrom⟩ := h bags lawfulBags (.slice .empty) (@Built.slice bags _)
  cases @kept_of_fromTonlibApi bags lawfulBags _ _ hfrom

end StackEntry.Sample

end TonWallet.Tonlib
