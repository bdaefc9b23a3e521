/-
Programs that read cells. Such a program loads cells by the references it has and goes on by what it finds, and a
load that throws ends it. Whatever it reads from an accepted Merkle proof, it reads from the whole tree with the
hash of the proof: by induction on the program, each reference it holds into the proof shows the tree it stands for.
-/
import TonWallet.Vm.Pruning

namespace TonWallet.Vm

open Lib TonWallet.Td TonWallet.Ton

/-! ## Programs -/

/-- What a program sees of a cell it has loaded, besides the references. -/
structure CellView where
  special : Bool
  bits : List Bool
  refsCount : Nat

namespace CellSlice

def view (cs : CellSlice) : CellView := ⟨cs.isSpecial, cs.bits, cs.sizeRefs⟩

variable [Digest]

/-- The references of a slice, each fetched with `prefetch_ref`. -/
def prefetchRefs (cs : CellSlice) : List CellRef := (List.range cs.sizeRefs).filterMap cs.prefetchRef

theorem prefetchRefs_eq (cs : CellSlice) :
    cs.prefetchRefs = cs.refs.map fun c => CellRef.virtualize ⟨c, .none⟩ cs.childVirt := by
  have h : ∀ (l : List Cell) (f : Cell → CellRef),
      (List.range l.length).filterMap (fun i => l[i]?.map f) = l.map f := by
    intro l f
    induction l with
    | nil => rfl
    | cons c l ih =>
      rw [List.length_cons, List.range_succ_eq_map, List.filterMap_cons]
      simp only [List.getElem?_cons_zero, Option.map_some, List.map_cons, List.filterMap_map, List.cons.injEq, true_and]
      exact ih
  exact h cs.refs _

end CellSlice

theorem loadNoVm_ok {r : CellRef} {cs : CellSlice} (h : loadNoVm r = .ok cs) : cs = .ofCell r := by
  unfold loadNoVm at h
  split at h
  · cases h
  · exact (Except.ok.inj h).symm

/-- A deterministic program that reads cells; it names its references by number, in the order it got them. -/
inductive Reader (α : Type) where
  | done (a : α)
  | error (e : Fail)
  /-- `load_cell_slice`: special cells are refused. -/
  | load (ref : Nat) (next : CellView → Reader α)
  /-- `CellSlice(NoVm(), ..)` -/
  | loadNoVm (ref : Nat) (next : CellView → Reader α)
  /-- `get_hash()` -/
  | hash (ref : Nat) (next : Bits256 → Reader α)

namespace Reader

variable {α : Type} [Digest]

/-- A reference the program does not have is a null reference. -/
def ref (refs : List CellRef) (i : Nat) : Result CellRef := match refs[i]? with
  | some r => .ok r
  | none => .error (.check "deferencing null Ref")

/-- Run a program that has some references. -/
def run : Reader α → List CellRef → Result α
  | done a, _ => .ok a
  | error e, _ => .error e
  | load i next, refs => do
    let cs ← loadCellSlice (← ref refs i)
    run (next cs.view) (refs ++ cs.prefetchRefs)
  | loadNoVm i next, refs => do
    let cs ← Vm.loadNoVm (← ref refs i)
    run (next cs.view) (refs ++ cs.prefetchRefs)
  | hash i next, refs => do
    let r ← ref refs i
    run (next r.reprHash) refs

/-- Every cell the program loads is of a kind. -/
def Within (P : Cell → Prop) : Reader α → List CellRef → Prop
  | done _, _ => True
  | error _, _ => True
  | load i next, refs => ∀ r cs, ref refs i = .ok r → loadCellSlice r = .ok cs →
    P r.cell ∧ Within P (next cs.view) (refs ++ cs.prefetchRefs)
  | loadNoVm i next, refs => ∀ r cs, ref refs i = .ok r → Vm.loadNoVm r = .ok cs →
    P r.cell ∧ Within P (next cs.view) (refs ++ cs.prefetchRefs)
  | hash i next, refs => ∀ r, ref refs i = .ok r → Within P (next r.reprHash) refs

theorem Within.imp {P Q : Cell → Prop} (hPQ : ∀ c, P c → Q c) {rd : Reader α} {refs : List CellRef}
    (h : rd.Within P refs) : rd.Within Q refs := by
  induction rd generalizing refs with
  | done a => trivial
  | error e => trivial
  | load i next ih | loadNoVm i next ih => exact fun r cs hr hcs => ⟨hPQ _ (h r cs hr hcs).1, ih _ (h r cs hr hcs).2⟩
  | hash i next ih => exact fun r hr => ih _ (h r hr)

end Reader

/-! ## References into a proof -/

namespace CellRef

variable [Digest] {d v : Nat} {r : CellRef} {c : Cell}

/-- A reference into a proof stands for a cell of the whole tree: it is cut off at the Merkle depth it is at, or
there is nothing to cut off. -/
structure Shows (d v : Nat) (r : CellRef) (c : Cell) : Prop where
  valid : Cell.Valid r.cell
  whole : Cell.Whole d c
  collisionFree : Cell.CollisionFree r.cell c
  agree : Cell.Agree d r.cell c
  virt : r.virt = ⟨d, v⟩ ∧ d < maxLevel ∨ r.virt = .none ∧ r.cell.levelMask.getLevel ≤ d

/-- A plain reference to a whole cell. -/
theorem virtualize_none (c : Cell) (hc : c.Created) : CellRef.virtualize ⟨c, .none⟩ .none = ⟨c, .none⟩ := by
  have hlevel : c.levelMask.getLevel ≤ maxVirtLevel :=
    ((LevelMask.getLevel_le_iff _).2 hc.mask).trans (by decide)
  simp [virtualize, createVirtual, VirtParams.none, hlevel]

/-- Above its level a cell has one hash. -/
theorem getHash_maxLevel {c : Cell} (hc : c.Created) {d : Nat} (hd : c.levelMask.getLevel ≤ d) :
    c.getHash maxLevel = c.getHash d := by
  have h3 := (LevelMask.getLevel_le_iff _).2 hc.mask
  apply Cell.getHash_congr
  rw [LevelMask.apply_of_getLevel_le h3, LevelMask.apply_of_getLevel_le hd]

/-- A cell cut off at a Merkle depth goes by the hash it has from there. -/
theorem reprHash_eq_of_agree (hv : Cell.Valid r.cell) (hc : Cell.Whole d c) (h : Cell.Agree d r.cell c)
    (hvirt : r.virt = ⟨d, v⟩ ∧ d < maxLevel ∨ r.virt = .none ∧ r.cell.levelMask.getLevel ≤ d) :
    r.reprHash = (⟨c, .none⟩ : CellRef).reprHash := by
  have hplain : (⟨c, .none⟩ : CellRef).reprHash = c.getHash d := getHash_maxLevel hc.valid.created hc.level
  rw [hplain, ← h d le_rfl]
  rcases hvirt with ⟨hvirt, hd⟩ | ⟨hvirt, hlevel⟩
  · have hne : ¬ (⟨d, v⟩ : VirtParams) = .none := by
      unfold maxLevel at hd
      rw [VirtParams.none, VirtParams.mk.injEq]
      rintro ⟨rfl, -⟩
      revert hd
      decide
    rw [reprHash, getHash, hvirt, if_neg hne, getLevelMask, hvirt, if_neg hne]
    apply Cell.getHash_congr
    rw [LevelMask.apply_of_getLevel_le ((r.cell.levelMask.getLevel_apply_le d).trans hd.le), LevelMask.apply_getLevel_apply]
  · rw [reprHash, getHash, hvirt, if_pos rfl]
    exact getHash_maxLevel hv.created hlevel

/-- The references of a cell that is cut off at a Merkle depth are cut off at theirs, where there is anything to cut. -/
theorem virtualize_child {t : SpecialType} {a : Cell} (hv : Cell.Valid r.cell) (htype : r.cell.specialType = t)
    (hbare : t = .library → r.cell.refs = [])
    (hvirt : r.virt = ⟨d, v⟩ ∧ d < maxLevel ∨ r.virt = .none ∧ r.cell.levelMask.getLevel ≤ d) (ha : a ∈ r.cell.refs) :
    virtualize ⟨a, .none⟩ (CellSlice.ofCell r).childVirt = ⟨a, ⟨t.childLevel d, v⟩⟩ ∧
        t.childLevel d < maxLevel ∧ t.childLevel d < a.levelMask.getLevel ∨
      virtualize ⟨a, .none⟩ (CellSlice.ofCell r).childVirt = ⟨a, .none⟩ ∧ a.levelMask.getLevel ≤ t.childLevel d := by
  have hva := hv.of_mem_refs ha
  have ha3 : a.levelMask.getLevel ≤ maxLevel := (LevelMask.getLevel_le_iff _).2 hva.created.mask
  rcases hvirt with ⟨hvirt, hd⟩ | ⟨hvirt, hlevel⟩
  · have hchild : (CellSlice.ofCell r).childVirt = ⟨t.childLevel d, v⟩ := by
      have hne : d ≠ maxVirtLevel := by
        unfold maxLevel at hd
        unfold maxVirtLevel
        omega
      simp only [CellSlice.childVirt, CellSlice.childMerkleDepth, CellSlice.ofCell, CellSlice.specialType, hvirt, if_neg hne,
        htype, SpecialType.childLevel]
    rw [hchild]
    by_cases hcut : a.levelMask.getLevel ≤ t.childLevel d
    · exact .inr ⟨by simp [virtualize, createVirtual, hcut], hcut⟩
    · exact .inl ⟨by simp [virtualize, createVirtual, hcut], by omega, by omega⟩
  · have hchild : (CellSlice.ofCell r).childVirt = .none := by
      simp [CellSlice.childVirt, CellSlice.childMerkleDepth, CellSlice.ofCell, hvirt, VirtParams.none]
    refine .inr ⟨by rw [hchild, virtualize_none _ hva.created], ?_⟩
    by_cases hlib : t = .library
    · rw [hbare hlib] at ha
      cases ha
    · rw [← htype]
      exact hv.created.level_of_mem_refs (htype ▸ hlib) hlevel ha

/-- A slice with the bits and as many references looks the same. -/
theorem view_eq {R : CellRef → Cell → Prop} (hspecial : r.cell.special = c.special) (hdata : r.cell.data = c.data)
    (hrefs : List.Forall₂ R (CellSlice.ofCell r).prefetchRefs c.refs) :
    (CellSlice.ofCell r).view = (CellSlice.ofCell ⟨c, .none⟩).view := by
  have hlen : r.cell.refs.length = c.refs.length := by
    have := hrefs.length_eq
    rwa [CellSlice.prefetchRefs_eq, List.length_map] at this
  simp only [CellSlice.view, CellSlice.isSpecial, CellSlice.ofCell, CellSlice.sizeRefs, hspecial, hdata, hlen]

namespace Shows

/-- A virtualized cell goes by the hash of the cell it stands for. -/
theorem reprHash_eq (h : Shows d v r c) : r.reprHash = (⟨c, .none⟩ : CellRef).reprHash :=
  reprHash_eq_of_agree h.valid h.whole h.agree h.virt

/-- What is under a cell that can be seen is shown by the references of the proof, one by one. -/
theorem refs (h : Shows d v r c) (hopen : r.cell.Answers d) :
    r.cell.special = c.special ∧ r.cell.data = c.data ∧
      List.Forall₂ (Shows (c.specialType.childLevel d) v) (CellSlice.ofCell r).prefetchRefs c.refs := by
  have hdata := Cell.data_eq_of_agree h.valid h.whole h.collisionFree h.agree hopen
  obtain ⟨hspecial, hforall⟩ := Cell.refs_agree h.valid h.whole h.collisionFree h.agree hopen
  have htype := Cell.specialType_congr hspecial hdata
  refine ⟨hspecial, hdata, ?_⟩
  rw [CellSlice.prefetchRefs_eq, List.forall₂_map_left_iff]
  change List.Forall₂ _ r.cell.refs c.refs
  have hlen := hforall.length_eq
  rw [List.forall₂_iff_get] at hforall ⊢
  refine ⟨hlen, fun k hk hk' => ?_⟩
  have hmem : r.cell.refs.get ⟨k, hk⟩ ∈ r.cell.refs := List.get_mem ..
  have hmem' : c.refs.get ⟨k, hk'⟩ ∈ c.refs := List.get_mem ..
  have hchild := (hforall.2 k hk hk').1
  have hbare : c.specialType = .library → r.cell.refs = [] := fun hl =>
    List.length_eq_zero_iff.1 (hlen.trans (by rw [h.whole.bare.root hl]; rfl))
  generalize r.cell.refs.get ⟨k, hk⟩ = a at hmem hchild ⊢
  generalize c.refs.get ⟨k, hk'⟩ = b at hmem' hchild ⊢
  have ha := h.valid.of_mem_refs hmem
  have hfree := h.collisionFree.of_mem_refs hmem hmem'
  rcases virtualize_child h.valid htype hbare h.virt hmem with ⟨hvirt, hcut⟩ | ⟨hvirt, hlevel⟩
  · rw [hvirt]
    exact ⟨ha, h.whole.of_mem_refs hmem', hfree, hchild, .inl ⟨rfl, hcut.1⟩⟩
  · rw [hvirt]
    exact ⟨ha, h.whole.of_mem_refs hmem', hfree, hchild, .inr ⟨rfl, hlevel⟩⟩

/-- A slice of the proof and the slice of the whole tree it stands for. -/
theorem slice (h : Shows d v r c) (hopen : r.cell.Answers d) :
    (CellSlice.ofCell r).view = (CellSlice.ofCell ⟨c, .none⟩).view ∧
      List.Forall₂ (fun r' c' => ∃ e, Shows e v r' c') (CellSlice.ofCell r).prefetchRefs c.refs := by
  obtain ⟨hspecial, hdata, hrefs⟩ := h.refs hopen
  exact ⟨view_eq hspecial hdata hrefs, hrefs.imp fun _ _ h => ⟨_, h⟩⟩

/-- A cell of the proof that can be loaded is not pruned there, and loads as that of the whole tree does. -/
theorem loadCellSlice (h : Shows d v r c) (hv : v ≠ 0) {cs : CellSlice} (hload : Vm.loadCellSlice r = .ok cs) :
    Vm.loadCellSlice ⟨c, .none⟩ = .ok (.ofCell ⟨c, .none⟩) ∧ cs = .ofCell r ∧ r.cell.Answers d := by
  obtain ⟨hplain, rfl⟩ := loadCellSlice_ok hload
  have hopen : r.cell.Answers d := fun hp => by
    rw [h.valid.created.ordinary.1 hplain] at hp
    cases hp
  refine ⟨?_, rfl, hopen⟩
  have hspecial : c.special = false := by rw [← (h.refs hopen).1, hplain]
  simp [Vm.loadCellSlice, hspecial, VirtParams.none]

theorem loadNoVm (h : Shows d v r c) (hv : v ≠ 0) {cs : CellSlice} (hload : Vm.loadNoVm r = .ok cs) :
    Vm.loadNoVm ⟨c, .none⟩ = .ok (.ofCell ⟨c, .none⟩) ∧ cs = .ofCell r ∧ r.cell.Answers d := by
  unfold Vm.loadNoVm at hload
  split at hload
  · cases hload
  · next hnot =>
    cases hload
    refine ⟨by simp [Vm.loadNoVm, VirtParams.none], rfl, fun hp => ?_⟩
    rcases h.virt with ⟨hvirt, -⟩ | ⟨-, hlevel⟩
    · exact absurd ⟨by rwa [hvirt], hp⟩ hnot
    · exact hlevel

end Shows

/-- The references of a plain slice are plain. -/
theorem prefetchRefs_plain {c : Cell} (hc : Cell.Valid c) :
    (CellSlice.ofCell ⟨c, .none⟩).prefetchRefs = c.refs.map fun b => ⟨b, .none⟩ := by
  rw [CellSlice.prefetchRefs_eq]
  apply List.map_congr_left
  intro b hb
  have hvirt : (CellSlice.ofCell ⟨c, .none⟩).childVirt = .none := by
    simp [CellSlice.childVirt, CellSlice.childMerkleDepth, CellSlice.ofCell, VirtParams.none]
  rw [hvirt, virtualize_none b (hc.of_mem_refs hb).created]

end CellRef

/-! ## What a proof shows is true -/

namespace Reader

variable {α : Type} [Digest] {v : Nat}

/-- What a program is told by its `i`-th reference. -/
theorem ref_of_forall₂ {P : CellRef → Cell → Prop} {rs : List CellRef} {cs : List Cell} (h : List.Forall₂ P rs cs) {i : Nat}
    {r : CellRef} (hr : ref rs i = .ok r) : ∃ c, ref (cs.map fun c => ⟨c, .none⟩) i = .ok ⟨c, .none⟩ ∧ P r c := by
  unfold ref at hr
  split at hr
  · next r' hr' =>
    cases hr
    obtain ⟨hi, rfl⟩ := List.getElem?_eq_some_iff.1 hr'
    have hi' : i < cs.length := h.length_eq ▸ hi
    refine ⟨cs[i], ?_, (List.forall₂_iff_get.1 h).2 i hi hi'⟩
    simp [ref, hi']
  · cases hr

/-- A program that gets through on references into a proof gets the same on the cells they stand for. -/
theorem run_of_shows (hv : v ≠ 0) (rd : Reader α) {rs : List CellRef} {cs : List Cell}
    (h : List.Forall₂ (fun r c => ∃ d, CellRef.Shows d v r c) rs cs) {a : α} (hrun : rd.run rs = .ok a) :
    rd.run (cs.map fun c => ⟨c, .none⟩) = .ok a := by
  induction rd generalizing rs cs with
  | done b => exact hrun
  | error e => cases hrun
  -- a special cell is seen by one of the two ways to load only
  | load i next ih | loadNoVm i next ih =>
    obtain ⟨r, hr, hrun⟩ := bind_ok hrun
    obtain ⟨cs', hload, hrun⟩ := bind_ok hrun
    obtain ⟨c, hc, d, hshows⟩ := ref_of_forall₂ h hr
    obtain ⟨hload', rfl, hopen⟩ := by
      first
      | exact hshows.loadCellSlice hv hload
      | exact hshows.loadNoVm hv hload
    obtain ⟨hview, hrefs⟩ := hshows.slice hopen
    have hnext := ih _ (List.rel_append h hrefs) hrun
    rw [hview, List.map_append, ← CellRef.prefetchRefs_plain hshows.whole.valid] at hnext
    rw [run, hc]
    simpa only [bind, Except.bind, hload'] using hnext
  | hash i next ih =>
    obtain ⟨r, hr, hrun⟩ := bind_ok hrun
    obtain ⟨c, hc, d, hshows⟩ := ref_of_forall₂ h hr
    rw [hshows.reprHash_eq] at hrun
    rw [run, hc]
    exact ih _ h hrun

end Reader

namespace MerkleProof

variable {α : Type} [Digest]

/-- A Merkle proof cell of level zero can be virtualized. -/
theorem virtualize_of_level {raw proof : Cell} (hlevel : proof.levelMask.getLevel = 0) (hrefs : proof.refs = [raw])
    (htype : proof.specialType = .merkleProof) : virtualize proof = .ok (some (CellRef.createVirtual ⟨0, 1⟩ raw)) := by
  have hload : Vm.loadNoVm ⟨proof, .none⟩ = .ok (.ofCell ⟨proof, .none⟩) := by
    simp [Vm.loadNoVm, VirtParams.none]
  rw [virtualize, hlevel, hload]
  simp [bind, Except.bind, pure, Except.pure, CellSlice.specialType, CellSlice.ofCell, htype, CellSlice.prefetchRef, hrefs,
    CellSlice.childVirt, CellSlice.childMerkleDepth, CellRef.virtualize, CellRef.createVirtual, VirtParams.none]

/-- What `virtualize` returns is the cell under the Merkle proof cell, cut off below every level. -/
theorem virtualize_root {proof : Cell} {root : CellRef} (h : virtualize proof = .ok (some root)) :
    ∃ child, proof.refs[0]? = some child ∧ root = CellRef.createVirtual ⟨0, 1⟩ child := by
  unfold virtualize at h
  split at h
  · cases h
  · obtain ⟨cs, hcs, h⟩ := bind_ok h
    unfold Vm.loadNoVm at hcs
    split at hcs
    · cases hcs
    · cases hcs
      split at h
      · cases h
      · have h := Except.ok.inj h
        obtain ⟨child, hchild, rfl⟩ : ∃ child, proof.refs[0]? = some child ∧
            root = (CellRef.virtualize ⟨child, .none⟩ .none).virtualize ⟨0, 1⟩ := by
          simpa [CellSlice.prefetchRef, CellSlice.ofCell, CellSlice.childVirt, CellSlice.childMerkleDepth,
            VirtParams.none, eq_comm] using h
        refine ⟨child, hchild, ?_⟩
        have hplain : CellRef.virtualize ⟨child, .none⟩ .none = ⟨child, .none⟩ := by
          simp [CellRef.virtualize, CellRef.createVirtual]
        rw [hplain]
        simp [CellRef.virtualize]

/-- The virtualized root of a proof with the hash of a whole tree shows that tree. -/
theorem virtualize_shows {proof c : Cell} {root : CellRef} (hproof : Cell.Valid proof) (hc : Cell.Whole 0 c)
    (hcol : Cell.CollisionFree proof c) (hvirt : virtualize proof = .ok (some root))
    (hhash : root.reprHash = (⟨c, .none⟩ : CellRef).reprHash) : CellRef.Shows 0 1 root c := by
  obtain ⟨child, hchild, hroot⟩ := virtualize_root hvirt
  have hmem : child ∈ proof.refs := List.mem_of_getElem? hchild
  have hv := hproof.of_mem_refs hmem
  have hfree : Cell.CollisionFree child c :=
    fun x hx y hy => hcol x (Cell.mem_hashedIn_of_mem_refs hmem hx) y hy
  have hagree : Cell.Agree 0 child c := by
    intro i hi
    obtain rfl := Nat.le_zero.1 hi
    rw [← reprHash_createVirtual child 1, ← hroot, hhash]
    exact CellRef.getHash_maxLevel hc.valid.created hc.level
  rw [hroot, CellRef.createVirtual]
  split
  · next hlevel => exact ⟨hv, hc, hfree, hagree, .inr ⟨rfl, hlevel⟩⟩
  · exact ⟨hv, hc, hfree, hagree, .inl ⟨rfl, by decide⟩⟩

end MerkleProof

namespace MerkleProof.Sample

open Cell.Sample

/-- The pruned branch for the branch of the sample tree. -/
def pruned : Cell :=
  .mk true (natToBits 8 1 ++ natToBits 8 1 ++ natToBits hashBits (@Cell.getHash digest branch 0).toNat ++ natToBits 16 1) []

def raw : Cell := .mk false [true] [pruned, leaf]

/-- The program that reads the data of the second reference of the root. -/
def readSecond : Reader (List Bool) := .load 0 fun _ => .load 2 fun v => .done v.bits

end MerkleProof.Sample

end TonWallet.Vm
