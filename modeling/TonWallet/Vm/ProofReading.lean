/-
Reading records out of proofs. A slice of a proof stands for the slice of the whole tree: it has the same bits, and
its references stand for those of the tree. What is fetched from the one is fetched from the other.
-/
import TonWallet.Vm.CellReader
import TonWallet.Vm.Fetches

namespace TonWallet.Vm

open Lib TonWallet.Td TonWallet.Ton

variable [Digest] {v : Nat}

/-! ## References and slices -/

/-- A reference into a proof and the plain reference to the cell it shows. -/
def CellRef.StandsFor (v : Nat) (r r' : CellRef) : Prop := ∃ d c, r' = ⟨c, .none⟩ ∧ CellRef.Shows d v r c

/-- A slice of a proof and the slice of the whole tree it is like. -/
structure CellSlice.StandsFor (v : Nat) (cs cs' : CellSlice) : Prop where
  special : cs.isSpecial = cs'.isSpecial
  bits : cs.bits = cs'.bits
  refs : List.Forall₂ (CellRef.StandsFor v) cs.prefetchRefs cs'.prefetchRefs

theorem CellSlice.prefetchRef_eq (cs : CellSlice) (i : Nat) : cs.prefetchRef i = cs.prefetchRefs[i]? := by
  rw [prefetchRefs_eq, List.getElem?_map]
  rfl

namespace CellRef

theorem getHash_zero (r : CellRef) : r.getHash 0 = r.cell.getHash 0 := by
  unfold getHash
  split
  · rfl
  · have h0 : (r.getLevelMask.apply 0).getLevel = 0 := Nat.le_zero.1 (r.getLevelMask.getLevel_apply_le 0)
    rw [h0]

namespace StandsFor

variable {r r' : CellRef}

/-- The lowest hash of a cell is that of the cell it stands for. -/
theorem getHash_zero (h : r.StandsFor v r') : r.getHash 0 = r'.getHash 0 := by
  obtain ⟨d, c, rfl, hshows⟩ := h
  rw [CellRef.getHash_zero, CellRef.getHash_zero]
  exact hshows.agree 0 (Nat.zero_le d)

/-- So is the hash it goes by. -/
theorem reprHash_eq (h : r.StandsFor v r') : r.reprHash = r'.reprHash := by
  obtain ⟨d, c, rfl, hshows⟩ := h
  exact hshows.reprHash_eq

theorem ofCell {d : Nat} {c : Cell} (h : CellRef.Shows d v r c) (hopen : r.cell.Answers d) :
    (CellSlice.ofCell r).StandsFor v (.ofCell ⟨c, .none⟩) := by
  obtain ⟨hview, hrefs⟩ := h.slice hopen
  refine ⟨congrArg CellView.special hview, congrArg CellView.bits hview, ?_⟩
  rw [CellRef.prefetchRefs_plain h.whole.valid, List.forall₂_map_right_iff]
  exact hrefs.imp fun _ b ⟨e, he⟩ => ⟨e, b, rfl, he⟩

theorem loadCellSlice (h : r.StandsFor v r') (hv : v ≠ 0) {cs : CellSlice} (hload : Vm.loadCellSlice r = .ok cs) :
    ∃ cs', Vm.loadCellSlice r' = .ok cs' ∧ cs.StandsFor v cs' := by
  obtain ⟨d, c, rfl, hshows⟩ := h
  obtain ⟨hload', rfl, hopen⟩ := hshows.loadCellSlice hv hload
  exact ⟨_, hload', ofCell hshows hopen⟩

theorem loadNoVm (h : r.StandsFor v r') (hv : v ≠ 0) {cs : CellSlice} (hload : Vm.loadNoVm r = .ok cs) :
    ∃ cs', Vm.loadNoVm r' = .ok cs' ∧ cs.StandsFor v cs' := by
  obtain ⟨d, c, rfl, hshows⟩ := h
  obtain ⟨hload', rfl, hopen⟩ := hshows.loadNoVm hv hload
  exact ⟨_, hload', ofCell hshows hopen⟩

theorem loadNoVmSpec (h : r.StandsFor v r') (hv : v ≠ 0) {cs : CellSlice} (hload : Vm.loadNoVmSpec r = .ok cs) :
    ∃ cs', Vm.loadNoVmSpec r' = .ok cs' ∧ cs.StandsFor v cs' := by
  obtain ⟨cs₀, hcs, hload⟩ := bind_ok hload
  obtain ⟨cs', hcs', hstands⟩ := h.loadNoVm hv hcs
  split at hload
  · next hs =>
    cases hload
    refine ⟨cs', ?_, hstands⟩
    rw [hstands.special] at hs
    simp only [Vm.loadNoVmSpec, bind, Except.bind, hcs', hs, if_true]
    rfl
  · cases hload

end StandsFor

end CellRef

namespace CellSlice.StandsFor

variable {cs cs' : CellSlice}

theorem length_refs (h : cs.StandsFor v cs') : cs.refs.length = cs'.refs.length := by
  have hlen := h.refs.length_eq
  rwa [prefetchRefs_eq, prefetchRefs_eq, List.length_map, List.length_map] at hlen

theorem size (h : cs.StandsFor v cs') : cs.size = cs'.size := by rw [CellSlice.size, CellSlice.size, h.bits]

theorem sizeExt (h : cs.StandsFor v cs') : cs.sizeExt = cs'.sizeExt := by
  rw [CellSlice.sizeExt, CellSlice.sizeExt, h.size, sizeRefs, sizeRefs, h.length_refs]

theorem emptyExt (h : cs.StandsFor v cs') : cs.emptyExt = cs'.emptyExt := by
  have hrefs : cs.refs.isEmpty = cs'.refs.isEmpty := by
    rw [Bool.eq_iff_iff, List.isEmpty_iff_length_eq_zero, List.isEmpty_iff_length_eq_zero, h.length_refs]
  rw [CellSlice.emptyExt, CellSlice.emptyExt, h.bits, hrefs]

theorem prefetchEq (h : cs.StandsFor v cs') (bits value : Nat) : cs.prefetchEq bits value = cs'.prefetchEq bits value := by
  rw [CellSlice.prefetchEq, CellSlice.prefetchEq, h.size, h.bits]

theorem prefetchRef (h : cs.StandsFor v cs') (i : Nat) :
    Option.Rel (CellRef.StandsFor v) (cs.prefetchRef i) (cs'.prefetchRef i) := by
  rw [prefetchRef_eq, prefetchRef_eq]
  by_cases hi : i < cs.prefetchRefs.length
  · have hi' : i < cs'.prefetchRefs.length := h.refs.length_eq ▸ hi
    rw [List.getElem?_eq_getElem hi, List.getElem?_eq_getElem hi']
    exact .some ((List.forall₂_iff_get.1 h.refs).2 i hi hi')
  · have hi' : ¬ i < cs'.prefetchRefs.length := h.refs.length_eq ▸ hi
    rw [List.getElem?_eq_none (Nat.le_of_not_lt hi), List.getElem?_eq_none (Nat.le_of_not_lt hi')]
    exact .none

theorem drop (h : cs.StandsFor v cs') (n k : Nat) :
    StandsFor v { cs with bits := cs.bits.drop n, refs := cs.refs.drop k }
      { cs' with bits := cs'.bits.drop n, refs := cs'.refs.drop k } := by
  have hrefs := List.forall₂_drop k h.refs
  rw [prefetchRefs_eq, prefetchRefs_eq, ← List.map_drop, ← List.map_drop] at hrefs
  refine ⟨h.special, by rw [h.bits], ?_⟩
  rw [prefetchRefs_eq, prefetchRefs_eq]
  exact hrefs

theorem take (h : cs.StandsFor v cs') (n k : Nat) :
    StandsFor v { cs with bits := cs.bits.take n, refs := cs.refs.take k }
      { cs' with bits := cs'.bits.take n, refs := cs'.refs.take k } := by
  have hrefs := List.forall₂_take k h.refs
  rw [prefetchRefs_eq, prefetchRefs_eq, ← List.map_take, ← List.map_take] at hrefs
  refine ⟨h.special, by rw [h.bits], ?_⟩
  rw [prefetchRefs_eq, prefetchRefs_eq]
  exact hrefs

end CellSlice.StandsFor

/-! ## Fetching -/

namespace Fetch

/-- Two ways to fetch do the same on a slice of a proof and on the slice it stands for: they take as much, or both
refuse. -/
def Follows {α β : Type} (v : Nat) (R : α → β → Prop) (f : Fetch α) (g : Fetch β) : Prop :=
  ∀ cs cs' : CellSlice, cs.StandsFor v cs' → Option.Rel (fun x y => R x.1 y.1 ∧ x.2.StandsFor v y.2) (f cs) (g cs')

namespace Follows

variable {α β γ δ : Type} {R : α → β → Prop} {S : γ → δ → Prop}

theorem pure {a : α} {b : β} (h : R a b) : Follows v R (Pure.pure a) (Pure.pure b) := fun _ _ hcs => .some ⟨h, hcs⟩

theorem bind {f : Fetch α} {f' : Fetch β} {g : α → Fetch γ} {g' : β → Fetch δ} (hf : Follows v R f f')
    (hg : ∀ a b, R a b → Follows v S (g a) (g' b)) : Follows v S (f >>= g) (f' >>= g') := by
  intro cs cs' hcs
  have hx := hf cs cs' hcs
  change Option.Rel _ ((f cs).bind fun x => g x.1 x.2) ((f' cs').bind fun y => g' y.1 y.2)
  generalize f cs = x at hx ⊢
  generalize f' cs' = y at hx ⊢
  cases hx with
  | none => exact .none
  | some h => exact hg _ _ h.1 _ _ h.2

theorem map {f f' : Fetch α} (hf : Follows v Eq f f') (g : α → γ) : Follows v Eq (do return g (← f)) (do return g (← f')) :=
  hf.bind fun _ _ h => h ▸ .pure rfl

theorem guarded (p : Prop) [Decidable p] : Follows v Eq (guard p : Fetch Unit) (guard p) := by
  by_cases hp : p
  · rw [guard, if_pos hp]
    exact .pure rfl
  · intro cs cs' _
    rw [guard, if_neg hp]
    exact .none

theorem fetchBits (n : Nat) : Follows v Eq (Fetch.fetchBits n) (Fetch.fetchBits n) := by
  intro cs cs' hcs
  unfold Fetch.fetchBits
  rw [hcs.size]
  split
  · exact .some ⟨by rw [hcs.bits], hcs.drop n 0⟩
  · exact .none

theorem fetchUint (n : Nat) : Follows v Eq (Fetch.fetchUint n) (Fetch.fetchUint n) := (fetchBits n).map bitsToNat

theorem fetchInt (n : Nat) : Follows v Eq (Fetch.fetchInt n) (Fetch.fetchInt n) :=
  (fetchUint n).map fun m => (BitVec.ofNat n m).toInt

theorem fetchBool : Follows v Eq Fetch.fetchBool Fetch.fetchBool := (fetchUint 1).map (· == 1)

theorem fetchHash : Follows v Eq Fetch.fetchHash Fetch.fetchHash := (fetchUint 256).map (BitVec.ofNat 256)

theorem fetchTag (n tag : Nat) : Follows v Eq (Fetch.fetchTag n tag) (Fetch.fetchTag n tag) :=
  (fetchUint n).bind fun _ _ h => h ▸ guarded _

/-- A number that a test may refuse. -/
theorem fetchTested (n : Nat) (p : Nat → Prop) [DecidablePred p] :
    Follows v Eq (do let m ← Fetch.fetchUint n; guard (p m); return m)
      (do let m ← Fetch.fetchUint n; guard (p m); return m) :=
  (fetchUint n).bind fun m _ h => h ▸ (guarded (p m)).bind fun _ _ _ => .pure rfl

theorem fetchUintInt (n : Nat) : Follows v Eq (Fetch.fetchUintInt n) (Fetch.fetchUintInt n) := fetchTested n (· < 2 ^ 31)

theorem fetchUintLeq (n : Nat) : Follows v Eq (Fetch.fetchUintLeq n) (Fetch.fetchUintLeq n) :=
  fetchTested (Nat.log2 n + 1) (· ≤ n)

theorem prefetchUint (n : Nat) : Follows v Eq (Fetch.prefetchUint n) (Fetch.prefetchUint n) := by
  intro cs cs' hcs
  unfold Fetch.prefetchUint
  rw [hcs.size, hcs.bits]
  split
  · exact .some ⟨rfl, hcs⟩
  · exact .none

theorem advance (n : Nat) : Follows v Eq (Fetch.advance n) (Fetch.advance n) := (fetchBits n).bind fun _ _ _ => .pure rfl

theorem advanceExt (n k : Nat) : Follows v Eq (Fetch.advanceExt n k) (Fetch.advanceExt n k) := by
  intro cs cs' hcs
  unfold Fetch.advanceExt
  rw [hcs.size, CellSlice.sizeRefs, CellSlice.sizeRefs, hcs.length_refs]
  split
  · exact .some ⟨rfl, hcs.drop n k⟩
  · exact .none

/-- A part that is run over stands for the part that is run over. -/
theorem fetchTo {f g : Fetch Unit} (h : Follows v Eq f g) : Follows v (CellSlice.StandsFor v) (Fetch.fetchTo f) (Fetch.fetchTo g) := by
  intro cs cs' hcs
  have hx := h cs cs' hcs
  unfold Fetch.fetchTo
  generalize f cs = x at hx ⊢
  generalize g cs' = y at hx ⊢
  cases hx with
  | none => exact .none
  | @some a b hab =>
    refine .some ⟨?_, hab.2⟩
    have hsize : cs.size - a.2.size = cs'.size - b.2.size := by rw [hcs.size, hab.2.size]
    have hrefs : cs.sizeRefs - a.2.sizeRefs = cs'.sizeRefs - b.2.sizeRefs := by
      rw [CellSlice.sizeRefs, CellSlice.sizeRefs, CellSlice.sizeRefs, CellSlice.sizeRefs, hcs.length_refs, hab.2.length_refs]
    dsimp only
    rw [hsize, hrefs]
    exact hcs.take _ _

theorem fetchSubslice (n : Nat) : Follows v (CellSlice.StandsFor v) (Fetch.fetchSubslice n) (Fetch.fetchSubslice n) := by
  intro cs cs' hcs
  unfold Fetch.fetchSubslice Fetch.fetchBits
  rw [hcs.size]
  split
  · exact .some ⟨hcs.take n 0, hcs.drop n 0⟩
  · exact .none

theorem fetchRef : Follows v (CellRef.StandsFor v) Fetch.fetchRef Fetch.fetchRef := by
  intro cs cs' hcs
  have hr := hcs.prefetchRef 0
  unfold Fetch.fetchRef
  generalize cs.prefetchRef 0 = r at hr ⊢
  generalize cs'.prefetchRef 0 = r' at hr ⊢
  cases hr with
  | none => exact .none
  | some h =>
    have hrest := hcs.drop 0 1
    rw [List.drop_one, List.drop_one, List.drop_zero, List.drop_zero] at hrest
    exact .some ⟨h, hrest⟩

end Follows

end Fetch

/-- A record that is unpacked from a slice of a proof is unpacked from the slice it stands for. -/
theorem unpackExact_follows {α β : Type} {R : α → β → Prop} {f : Fetch α} {g : Fetch β} (hf : Fetch.Follows v R f g)
    {cs cs' : CellSlice} (h : cs.StandsFor v cs') : Option.Rel R (unpackExact f cs) (unpackExact g cs') := by
  have hx := hf cs cs' h
  unfold unpackExact
  generalize f cs = x at hx ⊢
  generalize g cs' = y at hx ⊢
  cases hx with
  | none => exact .none
  | @some a b hab =>
    change Option.Rel R ((guard (a.2.emptyExt = true) : Option Unit).bind fun _ => some a.1)
      ((guard (b.2.emptyExt = true) : Option Unit).bind fun _ => some b.1)
    rw [hab.2.emptyExt]
    by_cases hempty : b.2.emptyExt = true
    · rw [guard, if_pos hempty]
      exact .some hab.1
    · rw [guard, if_neg hempty]
      exact .none

/-- A record that is unpacked from a cell of a proof is unpacked from the cell it stands for. -/
theorem unpackCell_follows {α β : Type} {R : α → β → Prop} {f : Fetch α} {g : Fetch β} (hf : Fetch.Follows v R f g) (hv : v ≠ 0)
    {r r' : CellRef} (h : r.StandsFor v r') {x : Option α} (hr : unpackCell f r = .ok x) :
    ∃ y, unpackCell g r' = .ok y ∧ Option.Rel R x y := by
  obtain ⟨cs, hcs, hr⟩ := bind_ok hr
  obtain ⟨cs', hcs', hstands⟩ := h.loadCellSlice hv hcs
  cases hr
  refine ⟨unpackExact g cs', ?_, unpackExact_follows hf hstands⟩
  rw [unpackCell, hcs']
  rfl

end TonWallet.Vm
