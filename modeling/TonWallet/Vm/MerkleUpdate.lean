/-
Merkle updates (`vm/cells/MerkleUpdate`): two proofs in one cell, of the tree before and the tree after. What is
pruned in the second is taken from the old tree, as far as the first shows it. Applied to the tree it is for, an
update gives exactly the new tree if it is valid, and nothing otherwise.
-/
import TonWallet.Vm.MerkleProof
import TonWallet.Lib.Visits

namespace TonWallet.Vm

open Lib TonWallet.Td TonWallet.Ton

namespace MerkleUpdate

variable [Digest]

/-! ## Applying an update -/

/-- `MerkleUpdateApply::known_cells_` -/
abbrev KnownCells := List (Bits256 × Cell)

mutual
/-- `MerkleUpdateApply::dfs_both` -/
def dfsBoth : Cell → Cell → Nat → KnownCells → Result KnownCells
  | .mk special data refs, updateFrom, merkleDepth, known => do
    let csUpdateFrom ← loadNoVm ⟨updateFrom, .none⟩
    let known := Memo.emplace ((Cell.mk special data refs).getHash merkleDepth) (Cell.mk special data refs) known
    if csUpdateFrom.specialType = .prunnedBranch then return known
    else dfsBothRefs refs csUpdateFrom 0 (csUpdateFrom.childMerkleDepth merkleDepth) known
/-- Its loop over the references of the original, from one on; there must be as many in the update. -/
def dfsBothRefs : List Cell → CellSlice → Nat → Nat → KnownCells → Result KnownCells
  | [], _, _, _, known => .ok known
  | r :: rs, csUpdateFrom, i, merkleDepth, known => match csUpdateFrom.prefetchRef i with
    | none => .error (.check "deferencing null Ref")
    | some p => do
      let known ← dfsBoth r p.cell merkleDepth known
      dfsBothRefs rs csUpdateFrom (i + 1) merkleDepth known
end

mutual
/-- `MerkleUpdateApply::dfs`; `none`: a null reference. -/
def dfs (known : KnownCells) : Cell → Nat → MerkleProof.Cells → Result (Option Cell × MerkleProof.Cells)
  | .mk special data refs, merkleDepth, ready =>
    let cell := Cell.mk special data refs
    let cs := CellSlice.ofCell ⟨cell, .none⟩
    if cs.specialType = .prunnedBranch then
      if cell.levelMask.getLevel = merkleDepth + 1 then .ok (known.lookup (cell.getHash merkleDepth), ready)
      else .ok (some cell, ready)
    else
      match ready.lookup (MerkleProof.key (cell, merkleDepth)) with
      | some res => .ok (some res, ready)
      | none => do
        let (refs', ready) ← dfsRefs known refs (cs.childMerkleDepth merkleDepth) ready
        match refs' with
        | none => return (none, ready)
        | some refs' =>
          let res ← CellBuilder.finalize ⟨cs.bits, refs'⟩ cs.isSpecial
          return (some res, Memo.emplace (MerkleProof.key (cell, merkleDepth)) res ready)
/-- Its loop over the references, which stops at a null reference. -/
def dfsRefs (known : KnownCells) : List Cell → Nat → MerkleProof.Cells → Result (Option (List Cell) × MerkleProof.Cells)
  | [], _, ready => .ok (some [], ready)
  | r :: rs, merkleDepth, ready => do
    let (r', ready) ← dfs known r merkleDepth ready
    match r' with
    | none => return (none, ready)
    | some r' =>
      let (rs', ready) ← dfsRefs known rs merkleDepth ready
      return (rs'.map (r' :: ·), ready)
end

/-- `MerkleUpdate::apply_raw` with `MerkleUpdateApply::apply` -/
def applyRaw (frm updateFrom updateTo : Cell) (fromLevel toLevel : Nat) : Result (Option Cell) :=
  if frm.getHash fromLevel ≠ updateFrom.getHash fromLevel then .ok none
  else if fromLevel ≠ frm.levelMask.getLevel then .ok none
  else do
    let known ← dfsBoth frm updateFrom fromLevel []
    let (res, _) ← dfs known updateTo toLevel []
    return res

/-- The two references of an update, fetched one after the other. -/
def fetchRefs (update : Cell) : Result (Cell × Cell) := do
  let cs ← loadNoVm ⟨update, .none⟩
  match cs.prefetchRef 0, cs.prefetchRef 1 with
  | some a, some b => return (a.cell, b.cell)
  | _, _ => .error (.check "deferencing null Ref")

/-- `MerkleUpdate::apply`; `none`: a null reference. -/
def apply (frm update : Cell) : Result (Option Cell) :=
  if update.levelMask.getLevel ≠ 0 ∨ frm.levelMask.getLevel ≠ 0 then .ok none
  else if update.specialType ≠ .merkleUpdate then .ok none
  else do
    let (updateFrom, updateTo) ← fetchRefs update
    applyRaw frm updateFrom updateTo 0 0

/-! ## Validating an update -/

/-- `visited_from_` and `visited_to_` -/
abbrev Visited := List (Bits256 × Nat)

mutual
/-- `MerkleUpdateValidator::dfs_from`: the visited cells and `known_cells_`. -/
def dfsFrom : Cell → Nat → Visited × List Bits256 → Visited × List Bits256
  | .mk special data refs, merkleDepth, (visited, known) =>
    let cell := Cell.mk special data refs
    if visited.contains (MerkleProof.key (cell, merkleDepth)) then (visited, known)
    else
      let visited := MerkleProof.key (cell, merkleDepth) :: visited
      let cs := CellSlice.ofCell ⟨cell, .none⟩
      let known := cell.getHash merkleDepth :: known
      if cs.specialType = .prunnedBranch then (visited, known)
      else dfsFromRefs refs (cs.childMerkleDepth merkleDepth) (visited, known)
def dfsFromRefs : List Cell → Nat → Visited × List Bits256 → Visited × List Bits256
  | [], _, st => st
  | r :: rs, merkleDepth, st => dfsFromRefs rs merkleDepth (dfsFrom r merkleDepth st)
end

mutual
/-- `MerkleUpdateValidator::dfs_to` -/
def dfsTo (known : List Bits256) : Cell → Nat → Visited → Result Visited
  | .mk special data refs, merkleDepth, visited =>
    let cell := Cell.mk special data refs
    if visited.contains (MerkleProof.key (cell, merkleDepth)) then .ok visited
    else
      let visited := MerkleProof.key (cell, merkleDepth) :: visited
      let cs := CellSlice.ofCell ⟨cell, .none⟩
      if cs.specialType = .prunnedBranch then
        if cell.levelMask.getLevel = merkleDepth + 1 ∧ cell.getHash merkleDepth ∉ known then
          fail ("Unknown prunned cell (validate): " ++ hashHex (cell.getHash merkleDepth))
        else .ok visited
      else dfsToRefs known refs (cs.childMerkleDepth merkleDepth) visited
def dfsToRefs (known : List Bits256) : List Cell → Nat → Visited → Result Visited
  | [], _, visited => .ok visited
  | r :: rs, merkleDepth, visited => do
    let visited ← dfsTo known r merkleDepth visited
    dfsToRefs known rs merkleDepth visited
end

/-- `MerkleUpdate::validate_raw` -/
def validateRaw (updateFrom updateTo : Cell) (fromLevel toLevel : Nat) : Result Unit := do
  let _ ← dfsTo (dfsFrom updateFrom fromLevel ([], [])).2 updateTo toLevel []

/-- `MerkleUpdate::validate` -/
def validate (update : Cell) : Result Unit := do
  failIf (update.levelMask.getLevel ≠ 0) "nonzero level"
  failIf (update.specialType ≠ .merkleUpdate) "not a MerkleUpdate cell"
  let (updateFrom, updateTo) ← fetchRefs update
  validateRaw updateFrom updateTo 0 0

/-- `MerkleUpdate::may_apply` -/
def mayApply (frm update : Cell) : Result Unit := do
  failIf (update.levelMask.getLevel ≠ 0 ∨ frm.levelMask.getLevel ≠ 0) "Level of update of from is not zero"
  failIf (update.specialType ≠ .merkleUpdate) "Update cell is not a MerkeUpdate"
  let (updateFrom, _) ← fetchRefs update
  failIf (frm.getHash 0 ≠ updateFrom.getHash 0) "Hash mismatch"

/-! ## Proofs of whole trees -/

/-- A tree that proves a whole tree: the hashes are the same, and what is pruned is pruned right above its depth. -/
structure Proves (d : Nat) (p c : Cell) : Prop where
  valid : Cell.Valid p
  level : p.levelMask.getLevel ≤ d + 1
  whole : Cell.Whole d c
  collisionFree : Cell.CollisionFree p c
  agree : Cell.Agree d p c

namespace Proves

variable {d : Nat} {p c : Cell}

/-- A cell that can be seen is the cell of the whole tree over proofs of its references. -/
theorem refs (h : Proves d p c) (hopen : p.Answers d) :
    p.special = c.special ∧ p.data = c.data ∧ List.Forall₂ (Proves (p.specialType.childLevel d)) p.refs c.refs := by
  have hdata := Cell.data_eq_of_agree h.valid h.whole h.collisionFree h.agree hopen
  obtain ⟨hspecial, hforall⟩ := Cell.refs_agree h.valid h.whole h.collisionFree h.agree hopen
  have htype := Cell.specialType_congr hspecial hdata
  refine ⟨hspecial, hdata, ?_⟩
  have hlen := hforall.length_eq
  rw [List.forall₂_iff_get] at hforall ⊢
  refine ⟨hlen, fun k hk hk' => ?_⟩
  have hmem : p.refs.get ⟨k, hk⟩ ∈ p.refs := List.get_mem ..
  have hmem' : c.refs.get ⟨k, hk'⟩ ∈ c.refs := List.get_mem ..
  have hlib : p.specialType ≠ .library := by
    intro hl
    have hnil := h.whole.bare.root (htype ▸ hl)
    rw [hnil, List.length_nil] at hk'
    exact Nat.not_lt_zero k hk'
  have hlevel := h.valid.created.level_of_mem_refs hlib h.level hmem
  have hchild : p.specialType.childLevel (d + 1) = p.specialType.childLevel d + 1 := by
    unfold SpecialType.childLevel
    split <;> rfl
  have hwhole := h.whole.of_mem_refs hmem'
  have hagree := (hforall.2 k hk hk').1
  rw [← htype] at hwhole hagree
  exact ⟨h.valid.of_mem_refs hmem, hchild ▸ hlevel, hwhole, h.collisionFree.of_mem_refs hmem hmem', hagree⟩

/-- A pruned branch that is not cut off at its depth is part of the whole tree. -/
theorem eq_of_pruned (h : Proves d p c) (hp : p.specialType = .prunnedBranch) (hlevel : p.levelMask.getLevel ≤ d) : p = c := by
  obtain ⟨hspecial, hdata, hforall⟩ := h.refs fun _ => hlevel
  have hnil := (h.valid.created.pruned hp).1
  have hcnil : c.refs = [] := List.length_eq_zero_iff.1 (hforall.length_eq.symm.trans (by rw [hnil]; rfl))
  obtain ⟨s, data, refs⟩ := p
  obtain ⟨s', data', refs'⟩ := c
  obtain rfl : s = s' := hspecial
  obtain rfl : data = data' := hdata
  obtain rfl : refs = refs' := hnil.trans hcnil.symm
  rfl

theorem refs_of_not_pruned (h : Proves d p c) (hp : p.specialType ≠ .prunnedBranch) :
    p.special = c.special ∧ p.data = c.data ∧ List.Forall₂ (Proves (p.specialType.childLevel d)) p.refs c.refs :=
  h.refs fun hpp => absurd hpp hp

/-- The library cells of a proof have no references either. -/
theorem bare (h : Proves d p c) : Cell.BareLibraries p := by
  induction p using Cell.induction_on_refs generalizing d c with
  | mk special data refs ih =>
    by_cases hp : (Cell.mk special data refs).specialType = .prunnedBranch
    · have hnil : refs = [] := (h.valid.created.pruned hp).1
      refine .mk (fun _ => hnil) fun r hr => ?_
      change r ∈ refs at hr
      rw [hnil] at hr
      cases hr
    · obtain ⟨hspecial, hdata, hforall⟩ := h.refs_of_not_pruned hp
      refine .mk (fun hl => ?_) fun r hr => ?_
      · have hnil := h.whole.bare.root (Cell.specialType_congr hspecial hdata ▸ hl)
        exact List.length_eq_zero_iff.1 (hforall.length_eq.trans (by rw [hnil]; rfl))
      · obtain ⟨x, -, hx⟩ := exists_mem_right_of_forall₂ hforall hr
        exact ih r hr hx

/-- The cell of the whole tree that is proved is determined. -/
theorem unique {x root : Cell} (h : Proves d p c) (h' : Proves d p x) (hc : Cell.In c root) (hx : Cell.In x root)
    (hcol : Cell.CollisionFree root root) : c = x :=
  Cell.eq_of_getHash_eq h.whole h'.whole (hcol.of_in hc hx) ((h.agree d le_rfl).symm.trans (h'.agree d le_rfl))

end Proves

/-! ## The cells that can be seen in a proof -/

/-- Where a walk through a proof goes on from a cell at a Merkle depth: not into a pruned branch. -/
def next (x : Cell × Nat) : List (Cell × Nat) :=
  if x.1.specialType = .prunnedBranch then []
  else x.1.refs.map fun r => (r, (CellSlice.ofCell ⟨x.1, .none⟩).childMerkleDepth x.2)

/-- The cells that are met on a walk, each at its Merkle depth. -/
abbrev Seen (root : Cell) (d : Nat) (q : Cell) (e : Nat) : Prop := Visits.Reach next (root, d) (q, e)

omit [Digest] in
theorem mem_next {q r : Cell} {e e' : Nat} (h : (r, e') ∈ next (q, e)) :
    q.specialType ≠ .prunnedBranch ∧ r ∈ q.refs ∧ e' = (CellSlice.ofCell ⟨q, .none⟩).childMerkleDepth e := by
  unfold next at h
  split at h
  · cases h
  · next hp =>
    obtain ⟨r', hr, heq⟩ := List.mem_map.1 h
    cases heq
    exact ⟨hp, hr, rfl⟩

omit [Digest] in
theorem mem_next_of_mem_refs {q r : Cell} {e : Nat} (hp : q.specialType ≠ .prunnedBranch) (hr : r ∈ q.refs) :
    (r, (CellSlice.ofCell ⟨q, .none⟩).childMerkleDepth e) ∈ next (q, e) := by
  rw [next, if_neg hp]
  exact List.mem_map_of_mem hr

/-- Every cell that is seen proves a cell of the whole tree. -/
theorem Seen.proves {p c : Cell} {d : Nat} (h : Proves d p c) (hn : MerkleProof.Nested 254 d c) :
    ∀ {x : Cell × Nat}, Visits.Reach next (p, d) x →
      Cell.In x.1 p ∧ ∃ y, Proves x.2 x.1 y ∧ MerkleProof.Nested 254 x.2 y ∧ Cell.In y c := by
  intro x hx
  induction hx with
  | root => exact ⟨.root, c, h, hn, .root⟩
  | @step t u _ hu ih =>
    obtain ⟨q, e⟩ := t
    obtain ⟨r, e'⟩ := u
    obtain ⟨hin, y, hy, hny, hyin⟩ := ih
    obtain ⟨hp, hr, rfl⟩ := mem_next hu
    obtain ⟨hspecial, hdata, hforall⟩ := hy.refs_of_not_pruned hp
    obtain ⟨z, hz, hrz⟩ := exists_mem_right_of_forall₂ hforall hr
    have hnz := hny.of_mem_refs hz
    rw [← Cell.specialType_congr hspecial hdata] at hnz
    rw [MerkleProof.childMerkleDepth_eq q (hny.le.trans_lt (by decide))]
    exact ⟨.trans (.ref hr .root) hin, z, hrz, hnz, .trans (.ref hz .root) hyin⟩

/-- Every branch that is cut off is known. -/
def AllKnown (K : Bits256 → Prop) (p : Cell) (d : Nat) : Prop :=
  ∀ x, Visits.Reach next (p, d) x → x.1.specialType = .prunnedBranch → x.1.levelMask.getLevel = x.2 + 1 →
    K (x.1.getHash x.2)

omit [Digest] in
theorem reach_pruned {p : Cell} {d : Nat} (hp : p.specialType = .prunnedBranch) {x : Cell × Nat}
    (hx : Visits.Reach next (p, d) x) : x = (p, d) := by
  induction hx with
  | root => rfl
  | @step t u _ hu ih =>
    subst ih
    rw [next, if_pos hp] at hu
    cases hu

omit [Digest] in
/-- What is seen from a cell that is not pruned is the cell, and what is seen from its references. -/
theorem reach_iff {p : Cell} {d : Nat} (hp : p.specialType ≠ .prunnedBranch) (x : Cell × Nat) :
    Visits.Reach next (p, d) x ↔
      x = (p, d) ∨ ∃ r ∈ p.refs, Visits.Reach next (r, (CellSlice.ofCell ⟨p, .none⟩).childMerkleDepth d) x := by
  constructor
  · intro hx
    induction hx with
    | root => exact .inl rfl
    | @step t u _ hu ih =>
      rcases ih with rfl | ⟨r, hr, htr⟩
      · obtain ⟨r, e⟩ := u
        obtain ⟨-, hr, rfl⟩ := mem_next hu
        exact .inr ⟨r, hr, .root⟩
      · exact .inr ⟨r, hr, .step htr hu⟩
  · rintro (rfl | ⟨r, hr, hrx⟩)
    · exact .root
    · exact hrx.head next (mem_next_of_mem_refs hp hr)

theorem allKnown_iff {K : Bits256 → Prop} {p : Cell} {d : Nat} (hp : p.specialType ≠ .prunnedBranch) :
    AllKnown K p d ↔ ∀ r ∈ p.refs, AllKnown K r ((CellSlice.ofCell ⟨p, .none⟩).childMerkleDepth d) := by
  constructor
  · intro h r hr x hx
    exact h x (hx.head next (mem_next_of_mem_refs hp hr))
  · intro h x hx hxp hxl
    rcases (reach_iff hp x).1 hx with rfl | ⟨r, hr, hrx⟩
    · exact absurd hxp hp
    · exact h r hr x hrx hxp hxl

/-! ## What is collected from the old tree -/

/-- A known cell is a cell of the old tree under its hash. -/
def FromTree (root : Cell) (h : Bits256) (x : Cell) : Prop := ∃ e, Cell.Whole e x ∧ x.getHash e = h ∧ Cell.In x root

/-- What became of the known cells when some cells of a proof were gone through. -/
structure Collected (S : Cell × Nat → Prop) (root : Cell) (known known' : KnownCells) : Prop where
  kept : ∀ h x, known.lookup h = some x → known'.lookup h = some x
  seen : ∀ x, S x → (known'.lookup (x.1.getHash x.2)).isSome
  sound : ∀ h x, known'.lookup h = some x →
    known.lookup h = some x ∨ (∃ y, S y ∧ h = y.1.getHash y.2) ∧ FromTree root h x

namespace Collected

variable {S S' : Cell × Nat → Prop} {root : Cell} {known known' known'' : KnownCells}

theorem trans (h : Collected S root known known') (h' : Collected S' root known' known'') :
    Collected (fun x => S x ∨ S' x) root known known'' := by
  refine ⟨fun k x hk => h'.kept k x (h.kept k x hk), fun x hx => ?_, fun k x hk => ?_⟩
  · rcases hx with hx | hx
    · obtain ⟨y, hy⟩ := Option.isSome_iff_exists.1 (h.seen x hx)
      rw [h'.kept _ y hy]
      rfl
    · exact h'.seen x hx
  · rcases h'.sound k x hk with hk | ⟨⟨y, hy, heq⟩, htree⟩
    · rcases h.sound k x hk with hk | ⟨⟨y, hy, heq⟩, htree⟩
      · exact .inl hk
      · exact .inr ⟨⟨y, .inl hy, heq⟩, htree⟩
    · exact .inr ⟨⟨y, .inr hy, heq⟩, htree⟩

theorem congr (h : Collected S root known known') (hS : ∀ x, S x ↔ S' x) : Collected S' root known known' :=
  ⟨h.kept, fun x hx => h.seen x ((hS x).2 hx), fun k x hk => (h.sound k x hk).imp_right fun h =>
    ⟨h.1.imp fun y hy => ⟨(hS y).1 hy.1, hy.2⟩, h.2⟩⟩

/-- One cell is put under its hash. -/
theorem emplace {q c : Cell} {e : Nat} (hc : Cell.Whole e c) (hin : Cell.In c root) (heq : q.getHash e = c.getHash e)
    (known : KnownCells) : Collected (· = (q, e)) root known (Memo.emplace (c.getHash e) c known) := by
  refine ⟨fun k x hk => ?_, fun x hx => ?_, fun k x hk => ?_⟩
  · by_cases hkc : k = c.getHash e
    · subst hkc
      rw [Memo.lookup_emplace_self, hk]
      rfl
    · rw [Memo.lookup_emplace_of_ne hkc, hk]
  · subst hx
    dsimp only
    rw [heq, Memo.lookup_emplace_self]
    rfl
  · by_cases hkc : k = c.getHash e
    · subst hkc
      rw [Memo.lookup_emplace_self, Option.some_inj] at hk
      cases hold : known.lookup (c.getHash e) with
      | some y =>
        rw [hold] at hk
        exact .inl (congrArg some hk)
      | none =>
        rw [hold] at hk
        cases hk
        exact .inr ⟨⟨(q, e), rfl, heq.symm⟩, e, hc, rfl, hin⟩
    · rw [Memo.lookup_emplace_of_ne hkc] at hk
      exact .inl hk

end Collected

omit [Digest] in
theorem loadNoVm_plain (c : Cell) : loadNoVm ⟨c, .none⟩ = .ok (.ofCell ⟨c, .none⟩) := by
  simp [loadNoVm, VirtParams.none]

/-- The cell of a fetched reference is the reference. -/
theorem prefetchRef_cell {cs : CellSlice} {i : Nat} {c : Cell} (h : cs.refs[i]? = some c) :
    ∃ r, cs.prefetchRef i = some r ∧ r.cell = c := by
  refine ⟨CellRef.virtualize ⟨c, .none⟩ cs.childVirt, by rw [CellSlice.prefetchRef, h]; rfl, ?_⟩
  simp only [CellRef.virtualize, if_true, CellRef.createVirtual]
  split <;> rfl

/-- All that the proof of the old tree shows is collected, each cell as the old tree has it. -/
theorem dfsBoth_ok {root : Cell} (c : Cell) : ∀ {p : Cell} {d : Nat} (known : KnownCells), Proves d p c →
    MerkleProof.Nested 254 d c → Cell.In c root →
      ∃ known', dfsBoth c p d known = .ok known' ∧ Collected (Visits.Reach next (p, d)) root known known' := by
  induction c using Cell.induction_on_refs with
  | mk special data refs ih =>
    intro p d known h hn hin
    have hone := Collected.emplace (q := p) h.whole hin (h.agree d le_rfl) known
    rw [dfsBoth, loadNoVm_plain]
    simp only [bind, Except.bind]
    by_cases hp : p.specialType = .prunnedBranch
    · rw [if_pos (show (CellSlice.ofCell ⟨p, .none⟩).specialType = .prunnedBranch from hp)]
      refine ⟨_, rfl, hone.congr fun x => ⟨?_, reach_pruned hp⟩⟩
      rintro rfl
      exact .root
    · rw [if_neg (show ¬ (CellSlice.ofCell ⟨p, .none⟩).specialType = .prunnedBranch from hp)]
      obtain ⟨hspecial, hdata, hforall⟩ := h.refs_of_not_pruned hp
      have hdepth := MerkleProof.childMerkleDepth_eq p (hn.le.trans_lt (by decide : 254 < maxVirtLevel))
      have hloop : ∀ (rs : List Cell) (i : Nat) (known : KnownCells), (∀ r ∈ rs, r ∈ refs) →
          List.Forall₂ (Proves (p.specialType.childLevel d)) (p.refs.drop i) rs →
            ∃ known', dfsBothRefs rs (.ofCell ⟨p, .none⟩) i (p.specialType.childLevel d) known = .ok known' ∧
              Collected (fun x => ∃ q ∈ p.refs.drop i, Visits.Reach next (q, p.specialType.childLevel d) x) root known known' := by
        intro rs
        induction rs with
        | nil =>
          intro i known _ hdrop
          have hnil := List.length_eq_zero_iff.1 hdrop.length_eq
          refine ⟨known, by rw [dfsBothRefs], fun _ _ h => h, ?_, fun _ _ h => .inl h⟩
          rintro x ⟨q, hq, -⟩
          rw [hnil] at hq
          cases hq
        | cons r rs ihrs =>
          intro i known hmem hdrop
          cases hq : p.refs.drop i with
          | nil =>
            rw [hq] at hdrop
            cases hdrop
          | cons q qs =>
            rw [hq] at hdrop
            obtain ⟨hqr, hrest⟩ := List.forall₂_cons.1 hdrop
            have hget : (CellSlice.ofCell ⟨p, .none⟩).refs[i]? = some q := by
              change p.refs[i]? = some q
              rw [← List.head?_drop, hq]
              rfl
            have hdrop' : p.refs.drop (i + 1) = qs := by
              rw [← List.drop_drop, hq]
              rfl
            obtain ⟨x, hx, hxq⟩ := prefetchRef_cell hget
            have hr := hmem r List.mem_cons_self
            have hnr := hn.of_mem_refs hr
            rw [← Cell.specialType_congr hspecial hdata] at hnr
            obtain ⟨known1, h1, hcol1⟩ := ih r hr known hqr hnr (.trans (.ref hr .root) hin)
            obtain ⟨known2, h2, hcol2⟩ := ihrs (i + 1) known1 (fun x hx => hmem x (List.mem_cons_of_mem r hx)) (hdrop' ▸ hrest)
            refine ⟨known2, ?_, (hcol1.trans hcol2).congr fun x => ?_⟩
            · rw [dfsBothRefs, hx]
              simp only [hxq, bind, Except.bind, h1]
              exact h2
            · rw [hdrop']
              simp only [List.mem_cons, exists_eq_or_imp]
      obtain ⟨known', hknown, hcol⟩ := hloop refs 0 _ (fun r hr => hr) (by rw [List.drop_zero]; exact hforall)
      rw [← hdepth] at hknown
      refine ⟨known', hknown, (hone.trans hcol).congr fun x => ?_⟩
      rw [reach_iff hp, List.drop_zero, hdepth]

/-! ## The new tree -/

/-- The table of a run holds the cells of the new tree that were proved, where all that was cut off is known. -/
abbrev Ready (known : KnownCells) (updateTo dest : Cell) (ready : MerkleProof.Cells) : Prop :=
  Memo.Sound (fun (x : Cell × Nat) r => Cell.In x.1 updateTo ∧ Proves x.2 x.1 r ∧ Cell.In r dest ∧
    AllKnown (fun h => (known.lookup h).isSome) x.1 x.2) MerkleProof.key ready

section Dfs

variable {frm dest updateTo : Cell} {known : KnownCells}

/-- A cut off branch is found in the old tree as the new tree has it, or is not known. -/
theorem lookup_known (hknown : ∀ h x, known.lookup h = some x → FromTree frm h x) (hcol : Cell.CollisionFree frm dest)
    {p c : Cell} {d : Nat} (h : Proves d p c) (hin : Cell.In c dest) {x : Cell} (hx : known.lookup (p.getHash d) = some x) :
    x = c := by
  obtain ⟨e, hwhole, hhash, hxin⟩ := hknown _ x hx
  apply Cell.eq_of_getHash_eq (d := maxLevel) (Cell.whole_maxLevel hwhole.valid hwhole.bare)
    (Cell.whole_maxLevel h.whole.valid h.whole.bare) (hcol.of_in hxin hin)
  rw [CellRef.getHash_maxLevel hwhole.valid.created hwhole.level, CellRef.getHash_maxLevel h.whole.valid.created h.whole.level,
    hhash, h.agree d le_rfl]

/-- The new tree is put together again if all that was cut off is known; otherwise a null reference comes out. -/
theorem dfs_ok (hknown : ∀ h x, known.lookup h = some x → FromTree frm h x) (hut : Proves 0 updateTo dest)
    (hfree : Cell.CollisionFree updateTo updateTo) (hdest : Cell.CollisionFree dest dest) (hcol : Cell.CollisionFree frm dest)
    (p : Cell) : ∀ {d : Nat} {c : Cell} (ready : MerkleProof.Cells), Proves d p c → MerkleProof.Nested 254 d c →
      Cell.In p updateTo → Cell.In c dest → Ready known updateTo dest ready →
        ∃ res ready', dfs known p d ready = .ok (res, ready') ∧ Ready known updateTo dest ready' ∧
          (AllKnown (fun h => (known.lookup h).isSome) p d → res = some c) ∧
          (¬ AllKnown (fun h => (known.lookup h).isSome) p d → res = none) := by
  induction p using Cell.induction_on_refs with
  | mk special data refs ih =>
    intro d c ready h hn hpin hcin hready
    rw [dfs]
    by_cases hp : (Cell.mk special data refs).specialType = .prunnedBranch
    · have hall : AllKnown (fun h => (known.lookup h).isSome) (.mk special data refs) d ↔
          ((Cell.mk special data refs).levelMask.getLevel = d + 1 →
            (known.lookup ((Cell.mk special data refs).getHash d)).isSome) := by
        constructor
        · exact fun hall => hall _ .root hp
        · rintro hone x hx - hlevel
          obtain rfl := reach_pruned hp hx
          exact hone hlevel
      rw [if_pos (show (CellSlice.ofCell ⟨.mk special data refs, .none⟩).specialType = .prunnedBranch from hp)]
      by_cases hlevel : (Cell.mk special data refs).levelMask.getLevel = d + 1
      · rw [if_pos hlevel]
        refine ⟨_, ready, rfl, hready, fun hk => ?_, fun hk => ?_⟩
        · obtain ⟨x, hx⟩ := Option.isSome_iff_exists.1 (hall.1 hk hlevel)
          rw [hx, lookup_known hknown hcol h hcin hx]
        · rw [hall, Classical.not_imp] at hk
          exact Option.not_isSome_iff_eq_none.1 hk.2
      · rw [if_neg hlevel]
        have hle : (Cell.mk special data refs).levelMask.getLevel ≤ d := by
          have := h.level
          omega
        refine ⟨_, ready, rfl, hready, fun _ => ?_, fun hk => absurd (hall.2 fun h => absurd h hlevel) hk⟩
        rw [h.eq_of_pruned hp hle]
    · rw [if_neg (show ¬ (CellSlice.ofCell ⟨.mk special data refs, .none⟩).specialType = .prunnedBranch from hp)]
      have hdepth := MerkleProof.childMerkleDepth_eq (.mk special data refs) (hn.le.trans_lt (by decide : 254 < maxVirtLevel))
      have hiff := allKnown_iff (K := fun h => (known.lookup h).isSome) (d := d) hp
      rw [hdepth] at hiff
      cases hlookup : ready.lookup (MerkleProof.key (.mk special data refs, d)) with
      | some r =>
        -- the entry was made for this cell at this depth
        obtain ⟨⟨q, e⟩, hkey, hqin, hqr, hrin, hqall⟩ := hready _ _ hlookup
        rw [MerkleProof.key, MerkleProof.key, Prod.mk.injEq] at hkey
        dsimp only at hkey hqin hqr hqall
        obtain ⟨hhash, rfl⟩ := hkey
        obtain rfl := Cell.In.eq_of_getHash_eq hut.valid hut.bare hfree hqin hpin hhash
        obtain rfl := h.unique hqr hcin hrin hdest
        exact ⟨some c, ready, rfl, hready, fun _ => rfl, fun hk => absurd hqall hk⟩
      | none =>
        obtain ⟨hspecial, hdata, hforall⟩ := h.refs_of_not_pruned hp
        have htype := Cell.specialType_congr hspecial hdata
        have hloop : ∀ (ps rs : List Cell) (ready : MerkleProof.Cells), (∀ p ∈ ps, p ∈ refs) → (∀ r ∈ rs, r ∈ c.refs) →
            List.Forall₂ (Proves ((Cell.mk special data refs).specialType.childLevel d)) ps rs → Ready known updateTo dest ready →
              ∃ res ready', dfsRefs known ps ((Cell.mk special data refs).specialType.childLevel d) ready = .ok (res, ready') ∧
                Ready known updateTo dest ready' ∧
                ((∀ p ∈ ps, AllKnown (fun h => (known.lookup h).isSome) p
                  ((Cell.mk special data refs).specialType.childLevel d)) → res = some rs) ∧
                ((¬ ∀ p ∈ ps, AllKnown (fun h => (known.lookup h).isSome) p
                  ((Cell.mk special data refs).specialType.childLevel d)) → res = none) := by
          intro ps
          induction ps with
          | nil =>
            intro rs ready _ _ hfa hready
            cases hfa
            exact ⟨some [], ready, by rw [dfsRefs], hready, fun _ => rfl, fun hk => absurd (fun p hp => absurd hp List.not_mem_nil) hk⟩
          | cons p ps ihps =>
            intro rs ready hps hrs hfa hready
            cases rs with
            | nil => cases hfa
            | cons r rs =>
              obtain ⟨hpr, hrest⟩ := List.forall₂_cons.1 hfa
              have hpm := hps p List.mem_cons_self
              have hrm := hrs r List.mem_cons_self
              have hnr := hn.of_mem_refs hrm
              rw [← htype] at hnr
              obtain ⟨res1, ready1, h1, hready1, hsome1, hnone1⟩ := ih p hpm ready hpr hnr (.trans (.ref hpm .root) hpin)
                (.trans (.ref hrm .root) hcin) hready
              rw [dfsRefs, h1]
              simp only [bind, Except.bind, List.forall_mem_cons]
              by_cases hk1 : AllKnown (fun h => (known.lookup h).isSome) p ((Cell.mk special data refs).specialType.childLevel d)
              · obtain rfl := hsome1 hk1
                obtain ⟨res2, ready2, h2, hready2, hsome2, hnone2⟩ := ihps rs ready1
                  (fun x hx => hps x (List.mem_cons_of_mem p hx)) (fun x hx => hrs x (List.mem_cons_of_mem r hx)) hrest hready1
                refine ⟨_, ready2, by rw [h2]; rfl, hready2, fun hk => by rw [hsome2 hk.2]; rfl, fun hk => ?_⟩
                rw [hnone2 fun hk2 => hk ⟨hk1, hk2⟩]
                rfl
              · obtain rfl := hnone1 hk1
                exact ⟨none, ready1, rfl, hready1, fun hk => absurd hk.1 hk1, fun _ => rfl⟩
        obtain ⟨res, ready1, h1, hready1, hsome, hnone⟩ := hloop refs c.refs ready (fun p hp => hp) (fun r hr => hr) hforall hready
        rw [← hdepth] at h1
        simp only [bind, Except.bind, h1]
        by_cases hk : AllKnown (fun h => (known.lookup h).isSome) (.mk special data refs) d
        · obtain rfl := hsome (hiff.1 hk)
          have hcreate : CellBuilder.finalize ⟨(CellSlice.ofCell ⟨.mk special data refs, .none⟩).bits, c.refs⟩
              (CellSlice.ofCell ⟨.mk special data refs, .none⟩).isSpecial = .ok c := by
            apply CellBuilder.finalize_eq
            change Cell.create special data c.refs = .ok c
            obtain ⟨-, hcreate⟩ := h.whole.valid
            change special = _ at hspecial
            change data = _ at hdata
            rw [hspecial, hdata]
            exact hcreate
          simp only [hcreate]
          exact ⟨some c, _, rfl, hready1.emplace (a := (Cell.mk special data refs, d)) ⟨hpin, h, hcin, hk⟩, fun _ => rfl,
            fun hk' => absurd hk hk'⟩
        · obtain rfl := hnone fun h => hk (hiff.2 h)
          exact ⟨none, ready1, rfl, hready1, fun hk' => absurd hk' hk, fun _ => rfl⟩

end Dfs

/-! ## What the validator sees -/

/-- The validator visits the proof of the old tree, and knows the hashes of what it visited. -/
theorem dfsFrom_visit (p : Cell) : ∀ (d : Nat) (visited : Visited) (known : List Bits256),
    ∃ L, Visits.Visit next MerkleProof.key [(p, d)] visited (dfsFrom p d (visited, known)).1 L ∧
      ∀ h, h ∈ (dfsFrom p d (visited, known)).2 ↔ h ∈ known ∨ ∃ x ∈ L, h = x.1.getHash x.2 := by
  induction p using Cell.induction_on_refs with
  | mk special data refs ih =>
    intro d visited known
    have hloop : ∀ (rs : List Cell) (e : Nat) (st : Visited × List Bits256), (∀ r ∈ rs, r ∈ refs) →
        ∃ L, Visits.Visit next MerkleProof.key (rs.map fun r => (r, e)) st.1 (dfsFromRefs rs e st).1 L ∧
          ∀ h, h ∈ (dfsFromRefs rs e st).2 ↔ h ∈ st.2 ∨ ∃ x ∈ L, h = x.1.getHash x.2 := by
      intro rs
      induction rs with
      | nil => exact fun e st _ => ⟨[], by rw [dfsFromRefs]; exact .nil, by simp [dfsFromRefs]⟩
      | cons r rs ihrs =>
        intro e st hmem
        obtain ⟨L1, hvisit1, hknown1⟩ := ih r (hmem r List.mem_cons_self) e st.1 st.2
        obtain ⟨L2, hvisit2, hknown2⟩ := ihrs e (dfsFrom r e st) fun x hx => hmem x (List.mem_cons_of_mem r hx)
        rw [dfsFromRefs, List.map_cons]
        refine ⟨L1 ++ L2, hvisit1.append hvisit2, fun h => ?_⟩
        rw [hknown2, hknown1, or_assoc]
        simp only [List.mem_append, or_and_right, exists_or]
    rw [dfsFrom]
    by_cases hmem : MerkleProof.key (.mk special data refs, d) ∈ visited
    · rw [if_pos (List.contains_iff_mem.2 hmem)]
      exact ⟨[], .old hmem .nil, by simp⟩
    rw [if_neg (fun h => hmem (List.contains_iff_mem.1 h))]
    by_cases hp : (Cell.mk special data refs).specialType = .prunnedBranch
    · rw [if_pos (show (CellSlice.ofCell ⟨.mk special data refs, .none⟩).specialType = .prunnedBranch from hp)]
      refine ⟨[(.mk special data refs, d)], .leaf hmem (if_pos hp), fun h => ?_⟩
      simp [or_comm]
    · rw [if_neg (show ¬ (CellSlice.ofCell ⟨.mk special data refs, .none⟩).specialType = .prunnedBranch from hp)]
      obtain ⟨L, hvisit, hknown⟩ := hloop refs ((CellSlice.ofCell ⟨.mk special data refs, .none⟩).childMerkleDepth d)
        (MerkleProof.key (.mk special data refs, d) :: visited, (Cell.mk special data refs).getHash d :: known) fun r hr => hr
      refine ⟨(.mk special data refs, d) :: L ++ [], .new hmem ?_ .nil, fun h => ?_⟩
      · rw [next, if_neg hp]
        exact hvisit
      · rw [hknown, List.append_nil]
        simp only [List.mem_cons, exists_eq_or_imp, or_assoc, or_left_comm]

/-- A branch that is cut off and not among the known hashes. -/
def Missing (known : List Bits256) (x : Cell × Nat) : Prop :=
  x.1.specialType = .prunnedBranch ∧ x.1.levelMask.getLevel = x.2 + 1 ∧ x.1.getHash x.2 ∉ known

/-- The validator visits the proof of the new tree without a missing branch, or stops at one. -/
theorem dfsTo_visit (known : List Bits256) (p : Cell) : ∀ (d : Nat) (visited : Visited),
    (∃ visited' L, dfsTo known p d visited = .ok visited' ∧ Visits.Visit next MerkleProof.key [(p, d)] visited visited' L ∧
        ∀ x ∈ L, ¬ Missing known x) ∨
      ∃ x, Visits.Reach next (p, d) x ∧ Missing known x ∧
        dfsTo known p d visited = fail ("Unknown prunned cell (validate): " ++ hashHex (x.1.getHash x.2)) := by
  induction p using Cell.induction_on_refs with
  | mk special data refs ih =>
    intro d visited
    have hloop : ∀ (rs : List Cell) (e : Nat) (visited : Visited), (∀ r ∈ rs, r ∈ refs) →
        (∃ visited' L, dfsToRefs known rs e visited = .ok visited' ∧
          Visits.Visit next MerkleProof.key (rs.map fun r => (r, e)) visited visited' L ∧ ∀ x ∈ L, ¬ Missing known x) ∨
        ∃ r ∈ rs, ∃ x, Visits.Reach next (r, e) x ∧ Missing known x ∧
          dfsToRefs known rs e visited = fail ("Unknown prunned cell (validate): " ++ hashHex (x.1.getHash x.2)) := by
      intro rs
      induction rs with
      | nil => exact fun e visited _ => .inl ⟨visited, [], by rw [dfsToRefs], .nil, fun x hx => nomatch hx⟩
      | cons r rs ihrs =>
        intro e visited hmem
        rw [dfsToRefs]
        rcases ih r (hmem r List.mem_cons_self) e visited with ⟨visited1, L1, h1, hvisit1, hgood1⟩ | ⟨x, hx, hmiss, h1⟩
        · rw [h1]
          simp only [bind, Except.bind]
          rcases ihrs e visited1 fun x hx => hmem x (List.mem_cons_of_mem r hx) with
            ⟨visited2, L2, h2, hvisit2, hgood2⟩ | ⟨r', hr', x, hx, hmiss, h2⟩
          · refine .inl ⟨visited2, L1 ++ L2, h2, hvisit1.append hvisit2, fun x hx => ?_⟩
            exact (List.mem_append.1 hx).elim (hgood1 x) (hgood2 x)
          · exact .inr ⟨r', List.mem_cons_of_mem r hr', x, hx, hmiss, h2⟩
        · rw [h1]
          exact .inr ⟨r, List.mem_cons_self, x, hx, hmiss, rfl⟩
    rw [dfsTo]
    by_cases hmem : MerkleProof.key (.mk special data refs, d) ∈ visited
    · rw [if_pos (List.contains_iff_mem.2 hmem)]
      exact .inl ⟨visited, [], rfl, .old hmem .nil, fun x hx => nomatch hx⟩
    rw [if_neg (fun h => hmem (List.contains_iff_mem.1 h))]
    by_cases hp : (Cell.mk special data refs).specialType = .prunnedBranch
    · rw [if_pos (show (CellSlice.ofCell ⟨.mk special data refs, .none⟩).specialType = .prunnedBranch from hp)]
      by_cases hmiss : (Cell.mk special data refs).levelMask.getLevel = d + 1 ∧ (Cell.mk special data refs).getHash d ∉ known
      · rw [if_pos hmiss]
        exact .inr ⟨(.mk special data refs, d), .root, ⟨hp, hmiss⟩, rfl⟩
      · rw [if_neg hmiss]
        refine .inl ⟨_, [(.mk special data refs, d)], rfl, .leaf hmem (if_pos hp), fun x hx => ?_⟩
        obtain rfl := List.mem_singleton.1 hx
        exact fun h => hmiss h.2
    · rw [if_neg (show ¬ (CellSlice.ofCell ⟨.mk special data refs, .none⟩).specialType = .prunnedBranch from hp)]
      have hnot : ¬ Missing known (.mk special data refs, d) := fun h => hp h.1
      rcases hloop refs ((CellSlice.ofCell ⟨.mk special data refs, .none⟩).childMerkleDepth d)
        (MerkleProof.key (.mk special data refs, d) :: visited) fun r hr => hr with
        ⟨visited', L, h, hvisit, hgood⟩ | ⟨r, hr, x, hx, hmiss, h⟩
      · refine .inl ⟨visited', (.mk special data refs, d) :: L ++ [], h, .new hmem ?_ .nil, ?_⟩
        · rw [next, if_neg hp]
          exact hvisit
        · rw [List.append_nil]
          exact List.forall_mem_cons.2 ⟨hnot, hgood⟩
      · exact .inr ⟨x, hx.head next (mem_next_of_mem_refs hp hr), hmiss, h⟩

/-! ## Valid updates -/

/-- Cells of a proof at the same depth with the same representation hash are one. -/
theorem Seen.key_inj {p c : Cell} {d : Nat} (h : Proves d p c) (hn : MerkleProof.Nested 254 d c) (hcol : Cell.CollisionFree p p)
    (x y : Cell × Nat) (hx : Visits.Reach next (p, d) x) (hy : Visits.Reach next (p, d) y)
    (hkey : MerkleProof.key x = MerkleProof.key y) : x = y := by
  obtain ⟨hhash, hdepth⟩ := Prod.mk.injEq .. ▸ hkey
  exact Prod.ext (Cell.In.eq_of_getHash_eq h.valid h.bare hcol (Seen.proves h hn hx).1 (Seen.proves h hn hy).1 hhash) hdepth

/-- The validator knows the hashes of all that the proof of the old tree shows. -/
theorem mem_known_iff {p c : Cell} {d : Nat} (h : Proves d p c) (hn : MerkleProof.Nested 254 d c) (hcol : Cell.CollisionFree p p)
    (k : Bits256) : k ∈ (dfsFrom p d ([], [])).2 ↔ ∃ x, Visits.Reach next (p, d) x ∧ k = x.1.getHash x.2 := by
  obtain ⟨L, hvisit, hknown⟩ := dfsFrom_visit p d [] []
  have hL : ∀ x, x ∈ L ↔ Visits.Reach next (p, d) x := by
    refine fun x => ⟨fun hx => ?_, hvisit.mem_of_reach (Seen.key_inj h hn hcol)⟩
    obtain ⟨y, hy, hyx⟩ := hvisit.reach x hx
    obtain rfl := List.mem_singleton.1 hy
    exact hyx
  simp only [hknown, List.not_mem_nil, false_or, hL]

/-- An update of two proofs that the validator accepts makes the new tree out of the old one; of any other update
nothing comes out. -/
theorem applyRaw_eq {frm dest updateFrom updateTo : Cell} (huf : Proves 0 updateFrom frm) (hut : Proves 0 updateTo dest)
    (hfrm : MerkleProof.Nested 254 0 frm) (hdest : MerkleProof.Nested 254 0 dest) (hfree : Cell.CollisionFree updateFrom updateFrom)
    (hfree' : Cell.CollisionFree updateTo updateTo) (hnew : Cell.CollisionFree dest dest) (hcol : Cell.CollisionFree frm dest) :
    validateRaw updateFrom updateTo 0 0 = .ok () ∧ applyRaw frm updateFrom updateTo 0 0 = .ok (some dest) ∨
      (∃ h, validateRaw updateFrom updateTo 0 0 = fail ("Unknown prunned cell (validate): " ++ hashHex h)) ∧
        applyRaw frm updateFrom updateTo 0 0 = .ok none := by
  obtain ⟨known, hboth, hcoll⟩ := @dfsBoth_ok _ frm frm _ _ [] huf hfrm .root
  have hknown : ∀ h x, known.lookup h = some x → FromTree frm h x := by
    intro h x hx
    rcases hcoll.sound h x hx with hx | ⟨-, hx⟩
    · cases hx
    · exact hx
  -- the two runs know the same hashes
  have hsame : ∀ h, (known.lookup h).isSome ↔ h ∈ (dfsFrom updateFrom 0 ([], [])).2 := by
    intro h
    rw [mem_known_iff huf hfrm hfree]
    constructor
    · intro hsome
      obtain ⟨x, hx⟩ := Option.isSome_iff_exists.1 hsome
      rcases hcoll.sound h x hx with hx | ⟨hx, -⟩
      · cases hx
      · exact hx
    · rintro ⟨x, hx, rfl⟩
      exact hcoll.seen x hx
  obtain ⟨res, ready, hdfs, -, hsome, hnone⟩ := dfs_ok hknown hut hfree' hnew hcol updateTo [] hut hdest .root .root .nil
  have happly : applyRaw frm updateFrom updateTo 0 0 = .ok res := by
    rw [applyRaw, if_neg (not_not.2 (huf.agree 0 le_rfl).symm), if_neg (not_not.2 (Nat.le_zero.1 huf.whole.level).symm), hboth]
    simp only [bind, Except.bind, hdfs]
    rfl
  rw [happly, validateRaw]
  rcases dfsTo_visit (dfsFrom updateFrom 0 ([], [])).2 updateTo 0 [] with ⟨visited, L, hto, hvisit, hgood⟩ | ⟨x, hx, hmiss, hto⟩
  · refine .inl ⟨by rw [hto]; rfl, congrArg Except.ok (hsome fun x hx hp hlevel => ?_)⟩
    refine (hsame _).2 ?_
    by_contra hmem
    exact hgood x (hvisit.mem_of_reach (Seen.key_inj hut hdest hfree') hx) ⟨hp, hlevel, hmem⟩
  · refine .inr ⟨⟨x.1.getHash x.2, by rw [hto]; rfl⟩, congrArg Except.ok (hnone fun hall => ?_)⟩
    exact hmiss.2.2 ((hsame _).1 (hall x hx hmiss.1 hmiss.2.1))

/-- What `may_apply` asks of an update. -/
theorem mayApply_ok {frm update : Cell} (h : mayApply frm update = .ok ()) :
    update.levelMask.getLevel = 0 ∧ frm.levelMask.getLevel = 0 ∧ update.specialType = .merkleUpdate ∧
      ∃ updateFrom updateTo, fetchRefs update = .ok (updateFrom, updateTo) ∧ frm.getHash 0 = updateFrom.getHash 0 := by
  obtain ⟨_, hlevels, h⟩ := bind_ok h
  obtain ⟨_, htype, h⟩ := bind_ok h
  obtain ⟨⟨updateFrom, updateTo⟩, hrefs, h⟩ := bind_ok h
  simp only [failIf_ok_iff, not_or, not_not] at hlevels htype h
  exact ⟨hlevels.1, hlevels.2, htype, updateFrom, updateTo, hrefs, h⟩

/-- The references of an update that was created. -/
theorem fetchRefs_ok {update updateFrom updateTo : Cell} (h : fetchRefs update = .ok (updateFrom, updateTo)) :
    updateFrom ∈ update.refs ∧ updateTo ∈ update.refs := by
  have hfetch : ∀ (i : Nat) (x : CellRef), (CellSlice.ofCell ⟨update, .none⟩).prefetchRef i = some x → x.cell ∈ update.refs := by
    intro i x hx
    obtain ⟨c, hc, -⟩ := Option.map_eq_some_iff.1 hx
    obtain ⟨y, hy, hcell⟩ := prefetchRef_cell hc
    obtain rfl := Option.some_inj.1 (hy.symm.trans hx)
    exact hcell ▸ List.mem_of_getElem? hc
  rw [fetchRefs, loadNoVm_plain] at h
  simp only [bind, Except.bind] at h
  cases h0 : (CellSlice.ofCell ⟨update, .none⟩).prefetchRef 0 with
  | none =>
    rw [h0] at h
    cases h
  | some a =>
    cases h1 : (CellSlice.ofCell ⟨update, .none⟩).prefetchRef 1 with
    | none =>
      rw [h0, h1] at h
      cases h
    | some b =>
      rw [h0, h1] at h
      cases h
      exact ⟨hfetch 0 a h0, hfetch 1 b h1⟩

theorem fetchRefs_eq {update updateFrom updateTo : Cell} (h : update.refs = [updateFrom, updateTo]) :
    fetchRefs update = .ok (updateFrom, updateTo) := by
  have href : ∀ (i : Nat) (c : Cell), update.refs[i]? = some c →
      ∃ r, (CellSlice.ofCell ⟨update, .none⟩).prefetchRef i = some r ∧ r.cell = c := fun i c hc => prefetchRef_cell hc
  obtain ⟨a, ha, hacell⟩ := href 0 updateFrom (by rw [h]; rfl)
  obtain ⟨b, hb, hbcell⟩ := href 1 updateTo (by rw [h]; rfl)
  rw [fetchRefs, loadNoVm_plain]
  simp only [bind, Except.bind, ha, hb, hacell, hbcell]
  rfl

/-- Applied to the tree it is for, an update gives exactly the new tree it was made for if it is valid, and nothing
if it is not. -/
theorem apply_eq {frm dest update updateFrom updateTo : Cell} (hupdate : Cell.Valid update)
    (hrefs : fetchRefs update = .ok (updateFrom, updateTo)) (hmay : mayApply frm update = .ok ())
    (hto : updateTo.getHash 0 = dest.getHash 0) (hfrm : Cell.Whole 0 frm) (hdest : Cell.Whole 0 dest)
    (hnfrm : MerkleProof.Nested 254 0 frm) (hndest : MerkleProof.Nested 254 0 dest)
    (hcol : ∀ x ∈ [frm, dest, update], ∀ y ∈ [frm, dest, update], Cell.CollisionFree x y) :
    validate update = .ok () ∧ apply frm update = .ok (some dest) ∨
      (∃ h, validate update = fail ("Unknown prunned cell (validate): " ++ hashHex h)) ∧ apply frm update = .ok none := by
  obtain ⟨hlevel, hflevel, htype, uf, ut, hrefs', hhash⟩ := mayApply_ok hmay
  obtain ⟨rfl, rfl⟩ := Prod.mk.injEq .. ▸ Except.ok.inj (hrefs.symm.trans hrefs')
  obtain ⟨hmem, hmem'⟩ := fetchRefs_ok hrefs
  have hself : Cell.CollisionFree update update := hcol _ (by simp) _ (by simp)
  have hproves : ∀ {p c : Cell}, p ∈ update.refs → Cell.Whole 0 c → Cell.CollisionFree update c → p.getHash 0 = c.getHash 0 →
      Proves 0 p c := by
    intro p c hp hc hfree heq
    have hbound := hupdate.created.level_of_mem_refs (by rw [htype]; decide) hlevel.le hp
    rw [htype] at hbound
    refine ⟨hupdate.of_mem_refs hp, hbound, hc, hfree.of_in (.ref hp .root) .root, fun i hi => ?_⟩
    rw [Nat.le_zero.1 hi, heq]
  have hfree : ∀ {p : Cell}, p ∈ update.refs → Cell.CollisionFree p p := fun hp => hself.of_in (.ref hp .root) (.ref hp .root)
  have happly : apply frm update = applyRaw frm updateFrom updateTo 0 0 := by
    rw [apply, if_neg (by simp [hlevel, hflevel]), if_neg (not_not.2 htype), hrefs]
    rfl
  have hvalidate : validate update = validateRaw updateFrom updateTo 0 0 := by
    rw [validate, hrefs]
    simp [hlevel, htype, failIf, bind, Except.bind]
  rw [happly, hvalidate]
  exact applyRaw_eq (hproves hmem hfrm (hcol _ (by simp) _ (by simp)) hhash.symm)
    (hproves hmem' hdest (hcol _ (by simp) _ (by simp)) hto) hnfrm hndest (hfree hmem) (hfree hmem')
    (hcol _ (by simp) _ (by simp)) (hcol _ (by simp) _ (by simp))

end MerkleUpdate

namespace MerkleUpdate.Sample

open Cell.Sample MerkleProof.Sample

/-- The tree that has only the branch of the sample tree. -/
def newTree : Cell := .mk false [false] [branch]

/-- The update from the sample tree to the new one, in which the branch is pruned. -/
def update : Cell := @Cell.createMerkleUpdate digest tree (.mk false [false] [pruned])

theorem apply_update : @apply digest tree update = .ok (some newTree) := by
  have hvalid : @validate digest update = .ok () := by decide +kernel
  have hordinary : Cell.All (fun x => x.special = false) newTree := by decide
  rcases @apply_eq digest tree newTree update tree (.mk false [false] [pruned]) (by decide +kernel)
      (@fetchRefs_eq digest _ _ _ rfl) (by decide +kernel) (by decide +kernel) whole_tree (by decide +kernel)
      (.of_ordinary MerkleProof.Sample.ordinary_tree (by decide)) (.of_ordinary hordinary (by decide)) (by decide +kernel) with
    ⟨-, happly⟩ | ⟨⟨h, herror⟩, -⟩
  · exact happly
  · rw [hvalid] at herror
    cases herror

end MerkleUpdate.Sample

end TonWallet.Vm
