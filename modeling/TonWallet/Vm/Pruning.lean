/-
Trees of cells with branches left out. A tree whose lowest hashes are those of a whole tree shows nothing that is
not in the whole tree, unless the digest collides on the byte strings hashed in the two: node by node, either the
branch is pruned at that Merkle depth or it has the same data and as many references, which agree again. Two whole
trees with one hash are the same.
-/
import TonWallet.Vm.CellHash

namespace TonWallet.Vm

open Lib TonWallet.Td TonWallet.Ton

namespace Cell

/-- What holds of a cell once it holds of its references holds of every cell. -/
@[elab_as_elim] theorem induction_on_refs {motive : Cell → Prop}
    (mk : ∀ special data refs, (∀ r ∈ refs, motive r) → motive (.mk special data refs)) (c : Cell) : motive c := by
  refine @Cell.rec motive (fun refs => ∀ r ∈ refs, motive r) mk ?_ ?_ c
  · intro r hr
    cases hr
  · intro head tail hhead htail
    exact List.forall_mem_cons.2 ⟨hhead, htail⟩

/-- A cell of a tree. -/
inductive In (c : Cell) : Cell → Prop
  | root : In c c
  | ref {r t : Cell} : r ∈ t.refs → In c r → In c t

theorem In.trans {x y z : Cell} (hxy : In x y) (hyz : In y z) : In x z := by
  induction hyz with
  | root => exact hxy
  | ref hr _ ih => exact .ref hr ih

/-- Every cell of a tree. -/
inductive All (P : Cell → Prop) : Cell → Prop
  | mk {c : Cell} : P c → (∀ r ∈ c.refs, All P r) → All P c

namespace All

variable {P Q : Cell → Prop} {c r : Cell}

theorem root (h : All P c) : P c := by
  obtain ⟨h, -⟩ := h
  exact h

theorem of_mem_refs (h : All P c) (hr : r ∈ c.refs) : All P r := by
  obtain ⟨-, h⟩ := h
  exact h r hr

theorem of_in {x : Cell} (h : All P c) (hx : In x c) : All P x := by
  induction hx with
  | root => exact h
  | ref hr _ ih => exact ih (h.of_mem_refs hr)

end All

mutual
/-- The test for `All`. -/
def all (p : Cell → Bool) : Cell → Bool
  | .mk special data refs => p (.mk special data refs) && allIn p refs
/-- Its loop over the references. -/
def allIn (p : Cell → Bool) : List Cell → Bool
  | [] => true
  | c :: cs => c.all p && allIn p cs
end

theorem allIn_iff {p : Cell → Bool} {cs : List Cell} : allIn p cs = true ↔ ∀ c ∈ cs, c.all p = true := by
  induction cs with
  | nil => simp [allIn]
  | cons c cs ih => simp [allIn, ih]

theorem all_iff {p : Cell → Bool} {c : Cell} : c.all p = true ↔ All (fun x => p x = true) c := by
  induction c using induction_on_refs with
  | mk special data refs ih =>
    rw [all, Bool.and_eq_true, allIn_iff]
    constructor
    · rintro ⟨h, hrefs⟩
      exact .mk h fun r hr => (ih r hr).1 (hrefs r hr)
    · intro h
      exact ⟨h.root, fun r hr => (ih r hr).2 (h.of_mem_refs hr)⟩

instance (P : Cell → Prop) [DecidablePred P] (c : Cell) : Decidable (All P c) :=
  decidable_of_iff (c.all fun x => decide (P x)) (by simp only [all_iff, decide_eq_true_eq])

/-- The library cells of a tree have no references, which `DataCell::create` does not ask of them. -/
def BareLibraries : Cell → Prop := All fun c => c.specialType = .library → c.refs = []

instance (c : Cell) : Decidable (BareLibraries c) :=
  inferInstanceAs (Decidable (All (fun c => c.specialType = .library → c.refs = []) c))

variable [Digest]

/-! ## Whole trees -/

/-- A cell is valid if every node of it can be created. -/
theorem valid_iff {c : Cell} : Valid c ↔ All (fun c => (create c.special c.data c.refs).isOk = true) c := by
  constructor
  · intro h
    induction h with
    | mk _ hcreate ih => exact .mk (by simp only [Cell.special, Cell.data, Cell.refs, hcreate]; rfl) ih
  · intro h
    induction c using induction_on_refs with
    | mk special data refs ih =>
      have hok : (create special data refs).isOk = true := h.root
      refine .mk (fun r hr => ih r hr (h.of_mem_refs hr)) ?_
      cases hcreate : create special data refs with
      | error e =>
        rw [hcreate] at hok
        cases hok
      | ok c => rw [(create_ok hcreate).1]

instance (c : Cell) : Decidable (Valid c) := decidable_of_iff _ valid_iff.symm

theorem Valid.of_in {c x : Cell} (h : Valid c) (hx : In x c) : Valid x := by
  induction hx with
  | root => exact h
  | ref hr _ ih => exact ih (h.of_mem_refs hr)

/-- References have levels up to that of the cell, under a Merkle cell up to one more. -/
theorem Created.level_of_mem_refs {c r : Cell} (h : c.Created) (hlib : c.specialType ≠ .library) {d : Nat}
    (hd : c.levelMask.getLevel ≤ d) (hr : r ∈ c.refs) : r.levelMask.getLevel ≤ c.specialType.childLevel d := by
  rw [LevelMask.getLevel_le_iff_lt]
  apply Nat.lt_pow_two_of_testBit
  intro k hk
  by_contra hbit
  obtain ⟨j, rfl, hj⟩ : ∃ j, k = c.specialType.childLevel j ∧ d ≤ j := by
    unfold SpecialType.childLevel at hk ⊢
    split at hk
    · exact ⟨k - 1, by rw [if_pos (by assumption)]; omega, by omega⟩
    · exact ⟨k, by rw [if_neg (by assumption)], hk⟩
  have hm := h.covers hlib hr j (by simpa using hbit)
  rw [Nat.testBit_lt_two_pow ((LevelMask.getLevel_le_iff_lt.1 hd).trans_le (Nat.pow_le_pow_right Nat.two_pos hj))] at hm
  cases hm

/-- A tree of cells in which nothing is pruned that can be seen at a Merkle depth. -/
structure Whole (depth : Nat) (c : Cell) : Prop where
  valid : Valid c
  bare : BareLibraries c
  level : c.levelMask.getLevel ≤ depth

instance (d : Nat) (c : Cell) : Decidable (Whole d c) :=
  decidable_of_iff (Valid c ∧ BareLibraries c ∧ c.levelMask.getLevel ≤ d)
    ⟨fun h => ⟨h.1, h.2.1, h.2.2⟩, fun h => ⟨h.valid, h.bare, h.level⟩⟩

namespace Whole

variable {d : Nat} {c r : Cell}

theorem answers (h : Whole d c) : c.Answers d := fun _ => h.level

/-- References are whole at the depth they are at. -/
theorem of_mem_refs (h : Whole d c) (hr : r ∈ c.refs) : Whole (c.specialType.childLevel d) r := by
  refine ⟨h.valid.of_mem_refs hr, h.bare.of_mem_refs hr, ?_⟩
  by_cases hlib : c.specialType = .library
  · rw [h.bare.root hlib] at hr
    cases hr
  · exact h.valid.created.level_of_mem_refs hlib h.level hr

end Whole

/-! ## Collisions -/

/-- The byte strings that were hashed to make one cell. -/
def ownHashed (c : Cell) : List (List UInt8) :=
  ((List.range (maxLevel + 1)).filter fun i => c.specialType ≠ .prunnedBranch ∨ c.levelMask.getLevel ≤ i).map c.hashed

mutual
/-- The byte strings that were hashed to make the cells of a tree. -/
def hashedIn : Cell → List (List UInt8)
  | .mk special data refs => (Cell.mk special data refs).ownHashed ++ hashedInAll refs
/-- The byte strings that were hashed to make the cells of some trees. -/
def hashedInAll : List Cell → List (List UInt8)
  | [] => []
  | c :: cs => c.hashedIn ++ hashedInAll cs
end

/-- The digest tells the byte strings hashed in two trees apart. -/
def CollisionFree (p c : Cell) : Prop :=
  ∀ x ∈ p.hashedIn, ∀ y ∈ c.hashedIn, Digest.sha256 x = Digest.sha256 y → x = y

instance (p c : Cell) : Decidable (CollisionFree p c) :=
  inferInstanceAs (Decidable (∀ x ∈ p.hashedIn, ∀ y ∈ c.hashedIn, Digest.sha256 x = Digest.sha256 y → x = y))

theorem hashedInAll_eq (cs : List Cell) : hashedInAll cs = cs.flatMap hashedIn := by
  induction cs with
  | nil => rfl
  | cons c cs ih => rw [hashedInAll, ih, List.flatMap_cons]

theorem hashedIn_eq (c : Cell) : c.hashedIn = c.ownHashed ++ c.refs.flatMap hashedIn := by
  obtain ⟨special, data, refs⟩ := c
  rw [hashedIn, hashedInAll_eq]
  rfl

theorem mem_hashedIn_of_mem_refs {c r : Cell} (hr : r ∈ c.refs) {x : List UInt8} (hx : x ∈ r.hashedIn) : x ∈ c.hashedIn := by
  rw [hashedIn_eq]
  exact List.mem_append_right _ (List.mem_flatMap_of_mem hr hx)

/-- The byte strings answered for are among those that were hashed. -/
theorem hashed_mem_hashedIn {c : Cell} (h : c.Created) {i : Nat} (hi : c.Answers i) : c.hashed i ∈ c.hashedIn := by
  rw [hashedIn_eq]
  apply List.mem_append_left
  have h3 : c.levelMask.getLevel ≤ maxLevel := (LevelMask.getLevel_le_iff _).2 h.mask
  have hmin : c.levelMask.apply (min i maxLevel) = c.levelMask.apply i := by
    rcases Nat.le_total i maxLevel with hle | hle
    · rw [min_eq_left hle]
    · rw [min_eq_right hle, LevelMask.apply_of_getLevel_le h3, LevelMask.apply_of_getLevel_le (h3.trans hle)]
  have heq : c.hashed i = c.hashed (min i maxLevel) := by
    rw [hashed, hashed, hmin]
  rw [heq]
  apply List.mem_map_of_mem
  rw [List.mem_filter, List.mem_range, decide_eq_true_eq]
  refine ⟨by omega, ?_⟩
  by_cases hp : c.specialType = .prunnedBranch
  · exact .inr (le_min (hi hp) h3)
  · exact .inl hp

namespace CollisionFree

variable {p c q r : Cell}

theorem of_mem_refs (h : CollisionFree p c) (hq : q ∈ p.refs) (hr : r ∈ c.refs) : CollisionFree q r :=
  fun x hx y hy => h x (mem_hashedIn_of_mem_refs hq hx) y (mem_hashedIn_of_mem_refs hr hy)

theorem of_in {x y : Cell} (h : CollisionFree p c) (hx : In x p) (hy : In y c) : CollisionFree x y := by
  have hleft : CollisionFree x c := by
    clear hy
    induction hx with
    | root => exact h
    | ref hr _ ih => exact ih fun a ha b hb => h a (mem_hashedIn_of_mem_refs hr ha) b hb
  induction hy with
  | root => exact hleft
  | ref hr _ ih =>
    exact ih (fun a ha b hb => h a ha b (mem_hashedIn_of_mem_refs hr hb))
      (fun a ha b hb => hleft a ha b (mem_hashedIn_of_mem_refs hr hb))

/-- Cells that answer with one hash have one byte string. -/
theorem hashed_eq (h : CollisionFree p c) (hp : p.Created) (hc : c.Created) {i j : Nat} (hpi : p.Answers i) (hcj : c.Answers j)
    (heq : p.getHash i = c.getHash j) : p.hashed i = c.hashed j := by
  rw [getHash_eq hp.mask hpi, getHash_eq hc.mask hcj] at heq
  exact h _ (hashed_mem_hashedIn hp hpi) _ (hashed_mem_hashedIn hc hcj) heq

end CollisionFree

/-! ## What agrees with a whole tree -/

/-- Two cells answer with the same hash for every level up to a Merkle depth. -/
def Agree (depth : Nat) (p c : Cell) : Prop := ∀ i ≤ depth, p.getHash i = c.getHash i

omit [Digest] in
theorem specialType_congr {p c : Cell} (hs : p.special = c.special) (hd : p.data = c.data) : p.specialType = c.specialType := by
  rw [specialType, specialType, hs, hd]

/-- A special cell with a level and without references is a pruned branch. -/
theorem Created.pruned_of_bare {c : Cell} (h : c.Created) (hs : c.special = true) (hr : c.refs = [])
    {i : Nat} (hm : (c.levelMask.apply i).mask ≠ 0) : c.specialType = .prunnedBranch := by
  have hmask : c.levelMask.mask ≠ 0 := fun h0 => hm (by simp [LevelMask.apply, h0])
  cases ht : c.specialType with
  | prunnedBranch => rfl
  | ordinary =>
    rw [h.ordinary.2 ht] at hs
    cases hs
  | library =>
    rw [levelMask_eq, ht] at hmask
    exact absurd rfl hmask
  | merkleProof | merkleUpdate => exact absurd hr (h.merkle (by rw [ht]; rfl)).1

/-- Byte strings of pruned branches are those of pruned branches only. -/
theorem pruned_of_hashed_eq {p c : Cell} (hp : p.Created) (hc : c.Created) {i : Nat} (hpi : p.Answers i)
    (h : p.hashed i = c.hashed i) (hpruned : p.specialType = .prunnedBranch) : c.specialType = .prunnedBranch := by
  obtain ⟨hs, hr, hm, -⟩ := hashed_head hp hc h
  obtain ⟨hnil, hmask⟩ := hp.pruned hpruned
  apply hc.pruned_of_bare
  · rw [← hs]
    by_contra hplain
    rw [hp.ordinary.1 (by simpa using hplain)] at hpruned
    cases hpruned
  · exact List.length_eq_zero_iff.1 (by rw [← hr, hnil]; rfl)
  · rw [← hm, LevelMask.apply_of_getLevel_le (hpi hpruned)]
    exact hmask

/-- Cells with the same byte string are both pruned branches or neither is. -/
theorem pruned_iff_of_hashed_eq {p c : Cell} (hp : p.Created) (hc : c.Created) {i : Nat} (hpi : p.Answers i)
    (hci : c.Answers i) (h : p.hashed i = c.hashed i) :
    p.specialType = .prunnedBranch ↔ c.specialType = .prunnedBranch :=
  ⟨pruned_of_hashed_eq hp hc hpi h, pruned_of_hashed_eq hc hp hci h.symm⟩

/-- The data of a node that can be seen is that of the whole tree. -/
theorem data_eq_of_agree {d : Nat} {p c : Cell} (hp : Valid p) (hc : Whole d c) (hcol : CollisionFree p c)
    (h : Agree d p c) (hopen : p.Answers d) : p.data = c.data := by
  have hpc := hp.created
  have hcc := hc.valid.created
  have heq := hcol.hashed_eq hpc hcc hopen hc.answers (h d le_rfl)
  have hiff := pruned_iff_of_hashed_eq hpc hcc hopen hc.answers heq
  by_cases hpruned : p.specialType = .prunnedBranch
  · obtain ⟨-, -, -, -, hmod⟩ := hashed_head hpc hcc heq
    have hcontent := (hashed_inj hpc hcc (fun r hr => (hp.of_mem_refs hr).created)
      (fun r hr => (hc.valid.of_mem_refs hr).created) hiff heq).1
    rw [content, content, if_pos (.inr hpruned), if_pos (.inr (hiff.1 hpruned))] at hcontent
    exact packBits_inj hmod hcontent
  · -- the lowest hash of any other cell is taken of its data
    have heq := hcol.hashed_eq hpc hcc (i := 0) (j := 0) (fun hp => absurd hp hpruned)
      (fun hc => absurd (hiff.2 hc) hpruned) (h 0 (Nat.zero_le d))
    obtain ⟨-, -, -, -, hmod⟩ := hashed_head hpc hcc heq
    have hcontent := (hashed_inj hpc hcc (fun r hr => (hp.of_mem_refs hr).created)
      (fun r hr => (hc.valid.of_mem_refs hr).created) hiff heq).1
    have h0 : ∀ x : Cell, (x.levelMask.apply 0).getLevel = 0 := fun x =>
      Nat.le_zero.1 (x.levelMask.getLevel_apply_le 0)
    rw [content, content, if_pos (.inl (h0 p)), if_pos (.inl (h0 c))] at hcontent
    exact packBits_inj hmod hcontent

/-- The references of a node that can be seen agree with those of the whole tree, one by one. -/
theorem refs_agree {d : Nat} {p c : Cell} (hp : Valid p) (hc : Whole d c) (hcol : CollisionFree p c)
    (h : Agree d p c) (hopen : p.Answers d) :
    p.special = c.special ∧ List.Forall₂ (fun a b => Agree (c.specialType.childLevel d) a b ∧
      ∀ i ≤ c.specialType.childLevel d, a.getDepth i = b.getDepth i) p.refs c.refs := by
  have hpc := hp.created
  have hcc := hc.valid.created
  have hdata := data_eq_of_agree hp hc hcol h hopen
  have heq := hcol.hashed_eq hpc hcc hopen hc.answers (h d le_rfl)
  have hiff := pruned_iff_of_hashed_eq hpc hcc hopen hc.answers heq
  obtain ⟨hspecial, hlen, hmask, -⟩ := hashed_head hpc hcc heq
  have htype := specialType_congr hspecial hdata
  refine ⟨hspecial, ?_⟩
  by_cases hpruned : p.specialType = .prunnedBranch
  · rw [(hpc.pruned hpruned).1, (hcc.pruned (hiff.1 hpruned)).1]
    exact .nil
  by_cases hlib : c.specialType = .library
  · have hnil := hc.bare.root hlib
    rw [hnil] at hlen ⊢
    rw [List.length_eq_zero_iff.1 hlen]
    exact .nil
  -- every other cell answers for every level, by the hashes of its references at the level below
  have hround : ∀ i ≤ d, List.Forall₂ (fun a b =>
      a.getHash (c.specialType.childLevel i) = b.getHash (c.specialType.childLevel i) ∧
        a.getDepth (c.specialType.childLevel i) = b.getDepth (c.specialType.childLevel i)) p.refs c.refs := by
    intro i hi
    have heq := hcol.hashed_eq hpc hcc (i := i) (j := i) (fun hp => absurd hp hpruned)
      (fun hc => absurd (hiff.2 hc) hpruned) (h i hi)
    have hrefs := (hashed_inj hpc hcc (fun r hr => (hp.of_mem_refs hr).created)
      (fun r hr => (hc.valid.of_mem_refs hr).created) hiff heq).2
    rw [List.forall₂_iff_get] at hrefs ⊢
    refine ⟨hlen, fun k hk hk' => ?_⟩
    have hcoversp := LevelMask.apply_childLevel (hpc.covers (htype ▸ hlib) (List.get_mem p.refs ⟨k, hk⟩)) i
    have hcoversc := LevelMask.apply_childLevel (hcc.covers hlib (List.get_mem c.refs ⟨k, hk'⟩)) i
    rw [← htype, getHash_congr hcoversp, getDepth_congr hcoversp, htype, getHash_congr hcoversc, getDepth_congr hcoversc,
      ← htype]
    have hk := hrefs.2 k hk hk'
    rw [← htype] at hk
    exact hk
  rw [List.forall₂_iff_get]
  refine ⟨hlen, fun k hk hk' => ?_⟩
  have hchild : ∀ j ≤ c.specialType.childLevel d, (p.refs.get ⟨k, hk⟩).getHash j = (c.refs.get ⟨k, hk'⟩).getHash j ∧
      (p.refs.get ⟨k, hk⟩).getDepth j = (c.refs.get ⟨k, hk'⟩).getDepth j := by
    intro j hj
    by_cases hm : c.specialType.isMerkle = true ∧ j = 0
    · -- the lowest hashes and depths are stated in the data of a Merkle cell
      obtain ⟨hm, rfl⟩ := hm
      have hstated := (hpc.merkle (htype ▸ hm)).2.trans ((congrArg₂ SpecialType.stated htype hdata).trans
        (hcc.merkle hm).2.symm)
      have hk' := List.getElem_of_eq hstated (i := k) (by simpa using hk)
      simp only [List.getElem_map, Prod.mk.injEq] at hk'
      exact ⟨BitVec.eq_of_toNat_eq hk'.1, hk'.2⟩
    · obtain ⟨i, rfl, hi⟩ : ∃ i, j = c.specialType.childLevel i ∧ i ≤ d := by
        unfold SpecialType.childLevel at hj ⊢
        split at hj
        · next hm' =>
          have hj0 : j ≠ 0 := fun h0 => hm ⟨hm', h0⟩
          exact ⟨j - 1, by rw [if_pos hm']; omega, by omega⟩
        · next hm' => exact ⟨j, by rw [if_neg hm'], hj⟩
      exact (List.forall₂_iff_get.1 (hround i hi)).2 k hk hk'
  exact ⟨fun j hj => (hchild j hj).1, fun j hj => (hchild j hj).2⟩

/-- Two whole trees that agree are the same. -/
theorem eq_of_agree {p : Cell} (hv : Valid p) : ∀ {d : Nat} {c : Cell}, Whole d p → Whole d c → CollisionFree p c →
    Agree d p c → p = c := by
  induction hv with
  | @mk special data refs hrefs hcreate ih =>
    intro d c hp hc hcol h
    have hdata := data_eq_of_agree hp.valid hc hcol h hp.answers
    obtain ⟨hspecial, hforall⟩ := refs_agree hp.valid hc hcol h hp.answers
    have htype := specialType_congr hspecial hdata
    have heq : refs = c.refs := by
      apply List.forall₂_eq_eq_eq ▸ (?_ : List.Forall₂ Eq refs c.refs)
      rw [List.forall₂_iff_get] at hforall ⊢
      refine ⟨hforall.1, fun k hk hk' => ?_⟩
      have hmem : refs.get ⟨k, hk⟩ ∈ refs := List.get_mem ..
      have hmem' : c.refs.get ⟨k, hk'⟩ ∈ c.refs := List.get_mem ..
      have hwp := hp.of_mem_refs hmem
      rw [htype] at hwp
      exact ih _ hmem hwp (hc.of_mem_refs hmem') (hcol.of_mem_refs hmem hmem') (hforall.2 k hk hk').1
    obtain ⟨special', data', refs'⟩ := c
    obtain rfl : special = special' := hspecial
    obtain rfl : data = data' := hdata
    obtain rfl : refs = refs' := heq
    rfl

/-- The hash for a level determines the hashes for all lower ones. -/
theorem agree_of_getHash_eq {p c : Cell} (hp : Valid p) (hc : Valid c) (hcol : CollisionFree p c)
    (hpp : p.specialType ≠ .prunnedBranch) (hcp : c.specialType ≠ .prunnedBranch) (d : Nat)
    (h : p.getHash d = c.getHash d) : Agree d p c := by
  induction d using Nat.strong_induction_on with
  | _ d ih =>
    have hiff : p.specialType = .prunnedBranch ↔ c.specialType = .prunnedBranch := iff_of_false hpp hcp
    have heq := hcol.hashed_eq hp.created hc.created (i := d) (j := d) (fun h => absurd h hpp) (fun h => absurd h hcp) h
    obtain ⟨-, -, hmask, -⟩ := hashed_head hp.created hc.created heq
    have hcontent := (hashed_inj hp.created hc.created (fun r hr => (hp.of_mem_refs hr).created)
      (fun r hr => (hc.of_mem_refs hr).created) hiff heq).1
    intro i hi
    by_cases hil : (p.levelMask.apply d).getLevel ≤ i
    · -- no hash of its own between the two levels
      have hpi : p.levelMask.apply i = p.levelMask.apply d := by
        rw [← LevelMask.apply_apply_of_le _ hi, LevelMask.apply_of_getLevel_le hil]
      have hci : c.levelMask.apply i = c.levelMask.apply d := by
        rw [hmask] at hil
        rw [← LevelMask.apply_apply_of_le _ hi, LevelMask.apply_of_getLevel_le hil]
      rw [getHash_congr hpi, getHash_congr hci, h]
    · have hpos : (p.levelMask.apply d).getLevel ≠ 0 := by omega
      have hle := p.levelMask.getLevel_apply_le d
      rw [← hmask, content, content, if_neg (by simp [hpos, hpp]), if_neg (by simp [hpos, hcp])] at hcontent
      exact ih _ (by omega) (CellInfo.hashToBytes_inj hcontent) i (by omega)

/-- The representation hash determines a whole cell. -/
theorem eq_of_getHash_eq {p c : Cell} {d : Nat} (hp : Whole d p) (hc : Whole d c) (hcol : CollisionFree p c)
    (h : p.getHash d = c.getHash d) : p = c := by
  have heq := hcol.hashed_eq hp.valid.created hc.valid.created hp.answers hc.answers h
  have hiff := pruned_iff_of_hashed_eq hp.valid.created hc.valid.created hp.answers hc.answers heq
  by_cases hpruned : p.specialType = .prunnedBranch
  · obtain ⟨hspecial, -, -, -, hmod⟩ := hashed_head hp.valid.created hc.valid.created heq
    have hcontent := (hashed_inj hp.valid.created hc.valid.created (fun r hr => (hp.valid.of_mem_refs hr).created)
      (fun r hr => (hc.valid.of_mem_refs hr).created) hiff heq).1
    rw [content, content, if_pos (.inr hpruned), if_pos (.inr (hiff.1 hpruned))] at hcontent
    have hdata := packBits_inj hmod hcontent
    have hrefs := (hp.valid.created.pruned hpruned).1.trans (hc.valid.created.pruned (hiff.1 hpruned)).1.symm
    obtain ⟨s, data, refs⟩ := p
    obtain ⟨s', data', refs'⟩ := c
    obtain rfl : s = s' := hspecial
    obtain rfl : data = data' := hdata
    obtain rfl : refs = refs' := hrefs
    rfl
  · exact eq_of_agree hp.valid hp hc hcol (agree_of_getHash_eq hp.valid hc.valid hcol hpruned
      (fun hc => hpruned (hiff.2 hc)) d h)

/-- Above its level a cell is whole in any case. -/
theorem whole_maxLevel {c : Cell} (hv : Valid c) (hb : BareLibraries c) : Whole maxLevel c :=
  ⟨hv, hb, (LevelMask.getLevel_le_iff _).2 hv.created.mask⟩

/-- The cells of a tree are told apart by their representation hashes. -/
theorem In.eq_of_getHash_eq {root x y : Cell} (hv : Valid root) (hb : BareLibraries root) (hcol : CollisionFree root root)
    (hx : In x root) (hy : In y root) (h : x.getHash maxLevel = y.getHash maxLevel) : x = y :=
  Cell.eq_of_getHash_eq (whole_maxLevel (hv.of_in hx) (hb.of_in hx)) (whole_maxLevel (hv.of_in hy) (hb.of_in hy))
    (hcol.of_in hx hy) h

/-- A whole tree is determined by the representation hash of its root. -/
theorem reprHash_injective {p c : Cell} (hp : Whole 0 p) (hc : Whole 0 c) (hcol : CollisionFree p c)
    (h : (⟨p, .none⟩ : CellRef).reprHash = (⟨c, .none⟩ : CellRef).reprHash) : p = c :=
  eq_of_getHash_eq (whole_maxLevel hp.valid hp.bare) (whole_maxLevel hc.valid hc.bare) hcol h

end Cell

namespace Cell.Sample

/-- A polynomial for the digest. -/
abbrev digest : Digest where
  sha256 bytes := BitVec.ofNat 256 (bytes.foldl (fun h b => (h * 257 + b.toNat + 1) % 2 ^ 256) 0)

def leaf : Cell := .mk false [true, false, true] []
def branch : Cell := .mk false [false, true] [leaf]

/-- A small tree, in which one cell is met twice. -/
def tree : Cell := .mk false [true] [branch, leaf]

theorem whole_tree : @Whole digest 0 tree := by decide +kernel

theorem collisionFree_tree : @CollisionFree digest tree tree := by decide +kernel

theorem reprHash_injective_tree : tree = .mk false [true] [.mk false [false, true] [leaf], leaf] :=
  @reprHash_injective digest tree (.mk false [true] [.mk false [false, true] [leaf], leaf]) whole_tree whole_tree
    collisionFree_tree rfl

end Cell.Sample

end TonWallet.Vm
