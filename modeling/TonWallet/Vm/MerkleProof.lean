/-
Making Merkle proofs (`vm/cells/MerkleProof`): the tree is copied with the cells pruned that are not wanted, each
cell once for each Merkle depth it is met at. What comes out looks like the whole tree from outside, and a program
that keeps to the cells that were left in runs on the proof as it does on the tree.
-/
import TonWallet.Vm.CellReader
import TonWallet.Vm.PrunedBranch
import TonWallet.Lib.Memo

namespace TonWallet.Vm

open Lib TonWallet.Td TonWallet.Ton

namespace MerkleProof

variable [Digest]

/-- `MerkleProofImpl::cells_`: what became of a cell at a Merkle depth. -/
abbrev Cells := List ((Bits256 × Nat) × Cell)

def key (x : Cell × Nat) : Bits256 × Nat := (x.1.getHash maxLevel, x.2)

mutual
/-- `MerkleProofImpl::dfs` -/
def dfs (isPrunned : Cell → Bool) : Cell → Nat → Cells → Result (Cell × Cells)
  | .mk special data refs, merkleDepth, cells =>
    match cells.lookup (key (.mk special data refs, merkleDepth)) with
    | some res => .ok (res, cells)
    | none =>
      if isPrunned (.mk special data refs) then do
        let res ← CellBuilder.createPrunedBranch (.mk special data refs) (merkleDepth + 1) maxLevel
        return (res, Memo.emplace (key (.mk special data refs, merkleDepth)) res cells)
      else do
        let cs := CellSlice.ofCell ⟨.mk special data refs, .none⟩
        let (refs', cells) ← dfsRefs isPrunned refs (cs.childMerkleDepth merkleDepth) cells
        let res ← CellBuilder.finalize ⟨cs.bits, refs'⟩ cs.isSpecial
        return (res, Memo.emplace (key (.mk special data refs, merkleDepth)) res cells)
/-- The loop over the references. -/
def dfsRefs (isPrunned : Cell → Bool) : List Cell → Nat → Cells → Result (List Cell × Cells)
  | [], _, cells => .ok ([], cells)
  | r :: rs, merkleDepth, cells => do
    let (r', cells) ← dfs isPrunned r merkleDepth cells
    let (rs', cells) ← dfsRefs isPrunned rs merkleDepth cells
    return (r' :: rs', cells)
end

/-- `generate_raw` -/
def generateRaw (isPrunned : Cell → Bool) (c : Cell) : Result Cell := do
  let (res, _) ← dfs isPrunned c c.levelMask.getLevel []
  return res

/-- `CellBuilder::create_merkle_proof`, with the throw of `finalize`. -/
def createMerkleProof (c : Cell) : Result Cell :=
  CellBuilder.finalize ⟨(Cell.createMerkleProof c).data, [c]⟩ true

/-- `MerkleProof::generate`; `none`: the cell is no proof for itself. -/
def generate (isPrunned : Cell → Bool) (c : Cell) : Result (Option Cell) :=
  if c.levelMask.getLevel ≠ 0 then .ok none
  else do
    let raw ← generateRaw isPrunned c
    return some (← createMerkleProof raw)

/-! ## Without the table -/

mutual
/-- The same copy without a table of results. -/
def prune (isPrunned : Cell → Bool) : Cell → Nat → Result Cell
  | .mk special data refs, merkleDepth =>
    if isPrunned (.mk special data refs) then CellBuilder.createPrunedBranch (.mk special data refs) (merkleDepth + 1) maxLevel
    else do
      let cs := CellSlice.ofCell ⟨.mk special data refs, .none⟩
      let refs' ← pruneRefs isPrunned refs (cs.childMerkleDepth merkleDepth)
      CellBuilder.finalize ⟨cs.bits, refs'⟩ cs.isSpecial
def pruneRefs (isPrunned : Cell → Bool) : List Cell → Nat → Result (List Cell)
  | [], _ => .ok []
  | r :: rs, merkleDepth => do
    let r' ← prune isPrunned r merkleDepth
    let rs' ← pruneRefs isPrunned rs merkleDepth
    return r' :: rs'
end

/-- The table holds what the copy without it makes of the cells of a tree. -/
abbrev Kept (isPrunned : Cell → Bool) (root : Cell) (cells : Cells) : Prop :=
  Memo.Sound (fun x res => Cell.In x.1 root ∧ prune isPrunned x.1 x.2 = .ok res) key cells

/-- With the table comes out what comes out without it, as long as no two cells of the tree share a hash. -/
theorem dfs_eq {isPrunned : Cell → Bool} {root : Cell}
    (hinj : ∀ x y, Cell.In x root → Cell.In y root → x.getHash maxLevel = y.getHash maxLevel → x = y) (c : Cell) :
    ∀ (d : Nat) (cells : Cells), Cell.In c root → Kept isPrunned root cells →
      ∃ cells', Kept isPrunned root cells' ∧ dfs isPrunned c d cells = (prune isPrunned c d).map fun res => (res, cells') := by
  induction c using Cell.induction_on_refs with
  | mk special data refs ih =>
    intro d cells hin hkept
    have hrefs : ∀ (rs : List Cell), (∀ r ∈ rs, r ∈ refs) → ∀ (d : Nat) (cells : Cells), Kept isPrunned root cells →
        ∃ cells', Kept isPrunned root cells' ∧
          dfsRefs isPrunned rs d cells = (pruneRefs isPrunned rs d).map fun res => (res, cells') := by
      intro rs
      induction rs with
      | nil => exact fun _ d cells hkept => ⟨cells, hkept, by rw [dfsRefs, pruneRefs]; rfl⟩
      | cons r rs ihrs =>
        intro hmem d cells hkept
        have hr := hmem r List.mem_cons_self
        obtain ⟨cells1, hkept1, h1⟩ := ih r hr d cells (.trans (.ref hr .root) hin) hkept
        obtain ⟨cells2, hkept2, h2⟩ := ihrs (fun x hx => hmem x (List.mem_cons_of_mem r hx)) d cells1 hkept1
        refine ⟨cells2, hkept2, ?_⟩
        rw [dfsRefs, pruneRefs, h1]
        cases prune isPrunned r d with
        | error e => rfl
        | ok r' =>
          simp only [Except.map, bind, Except.bind, h2]
          cases pruneRefs isPrunned rs d with
          | error e => rfl
          | ok rs' => rfl
    rw [dfs]
    cases hlookup : cells.lookup (key (.mk special data refs, d)) with
    | some res =>
      -- the entry was made for this cell
      obtain ⟨⟨x, e⟩, hkey, hx, hres⟩ := hkept _ _ hlookup
      rw [key, key, Prod.mk.injEq] at hkey
      dsimp only at hkey hx hres
      obtain ⟨hhash, rfl⟩ := hkey
      rw [hinj x _ hx hin hhash] at hres
      exact ⟨cells, hkept, by rw [hres]; rfl⟩
    | none =>
      have hstep : ∀ res, prune isPrunned (.mk special data refs) d = .ok res → ∀ cells1, Kept isPrunned root cells1 →
          Kept isPrunned root (Memo.emplace (key (.mk special data refs, d)) res cells1) :=
        fun res hres cells1 hkept1 => hkept1.emplace (a := (Cell.mk special data refs, d)) ⟨hin, hres⟩
      rw [prune] at hstep ⊢
      cases hpruned : isPrunned (.mk special data refs) with
      | true =>
        simp only [hpruned, if_true] at hstep ⊢
        cases hres : CellBuilder.createPrunedBranch (.mk special data refs) (d + 1) maxLevel with
        | error e => exact ⟨cells, hkept, rfl⟩
        | ok res => exact ⟨_, hstep res hres cells hkept, rfl⟩
      | false =>
        obtain ⟨cells1, hkept1, h1⟩ := hrefs refs (fun r hr => hr) _ cells hkept
        simp only [hpruned, Bool.false_eq_true, if_false, bind, Except.bind] at hstep ⊢
        rw [h1]
        cases hrs : pruneRefs isPrunned refs ((CellSlice.ofCell ⟨.mk special data refs, .none⟩).childMerkleDepth d) with
        | error e => exact ⟨cells, hkept, rfl⟩
        | ok rs =>
          rw [hrs] at hstep
          dsimp only [Except.map] at hstep ⊢
          cases hres : CellBuilder.finalize ⟨(CellSlice.ofCell ⟨.mk special data refs, .none⟩).bits, rs⟩
              (CellSlice.ofCell ⟨.mk special data refs, .none⟩).isSpecial with
          | error e => exact ⟨cells, hkept, rfl⟩
          | ok res => exact ⟨_, hstep res hres cells1 hkept1, rfl⟩

/-- `generate_raw` copies the tree. -/
theorem generateRaw_eq {isPrunned : Cell → Bool} {c : Cell} (hv : Cell.Valid c) (hb : Cell.BareLibraries c)
    (hcol : Cell.CollisionFree c c) : generateRaw isPrunned c = prune isPrunned c c.levelMask.getLevel := by
  obtain ⟨cells, -, h⟩ := @dfs_eq _ isPrunned _ (fun x y hx hy => Cell.In.eq_of_getHash_eq hv hb hcol hx hy) c
    c.levelMask.getLevel [] .root Memo.Sound.nil
  rw [generateRaw, h]
  cases prune isPrunned c c.levelMask.getLevel with
  | error e => rfl
  | ok res => rfl

/-! ## What the copy looks like -/

omit [Digest] in
theorem childMerkleDepth_eq (c : Cell) {d : Nat} (hd : d < maxVirtLevel) :
    (CellSlice.ofCell ⟨c, .none⟩).childMerkleDepth d = c.specialType.childLevel d := by
  have hne : d ≠ maxVirtLevel := hd.ne
  rw [CellSlice.childMerkleDepth, if_neg hne]
  rfl

theorem pruneRefs_ok {isPrunned : Cell → Bool} {d : Nat} {rs ps : List Cell} (h : pruneRefs isPrunned rs d = .ok ps) :
    List.Forall₂ (fun p r => prune isPrunned r d = .ok p) ps rs := by
  induction rs generalizing ps with
  | nil =>
    cases h
    exact .nil
  | cons r rs ih =>
    rw [pruneRefs] at h
    obtain ⟨p, hp, h⟩ := bind_ok h
    obtain ⟨ps', hps, h⟩ := bind_ok h
    cases h
    exact .cons hp (ih hps)

/-- A cell that is not pruned keeps its data, over the copies of its references. -/
theorem prune_kept {isPrunned : Cell → Bool} {c p : Cell} {d : Nat} (hd : d ≤ 7) (hkept : isPrunned c = false)
    (h : prune isPrunned c d = .ok p) :
    p.special = c.special ∧ p.data = c.data ∧ Cell.create p.special p.data p.refs = .ok p ∧
      List.Forall₂ (fun p r => prune isPrunned r (c.specialType.childLevel d) = .ok p) p.refs c.refs := by
  obtain ⟨special, data, refs⟩ := c
  rw [prune, hkept, if_neg (by decide)] at h
  obtain ⟨ps, hps, h⟩ := bind_ok h
  have hcreate : Cell.create special data ps = .ok p := CellBuilder.finalize_ok h
  obtain ⟨rfl, -⟩ := Cell.create_ok hcreate
  rw [childMerkleDepth_eq _ (hd.trans_lt (by decide))] at hps
  exact ⟨rfl, rfl, hcreate, pruneRefs_ok hps⟩

/-- The level of a node whose references have levels one above their Merkle depth. -/
theorem level_node {p : Cell} {d : Nat} (hown : p.specialType = .prunnedBranch → p.levelMask.getLevel ≤ d)
    (hrefs : ∀ r ∈ p.refs, r.levelMask.getLevel ≤ p.specialType.childLevel d) : p.levelMask.getLevel ≤ d := by
  by_cases hpruned : p.specialType = .prunnedBranch
  · exact hown hpruned
  by_cases hlib : p.specialType = .library
  · have hmask : p.levelMask.mask = 0 := by
      rw [Cell.levelMask_eq, hlib]
      rfl
    rw [LevelMask.getLevel_eq_zero_iff.2 hmask]
    exact Nat.zero_le d
  · rw [LevelMask.getLevel_le_iff_lt]
    apply Nat.lt_pow_two_of_testBit
    intro k hk
    by_contra hbit
    obtain ⟨r, hr, hrbit⟩ := (Cell.levelMask_testBit hlib hpruned k).1 (by simpa using hbit)
    have hlt := LevelMask.getLevel_le_iff_lt.1 ((hrefs r hr).trans (SpecialType.childLevel_le_childLevel.2 hk))
    rw [Nat.testBit_lt_two_pow hlt] at hrbit
    cases hrbit

/-- No cell of a tree is under more Merkle cells than a bound. -/
inductive Nested (bound : Nat) : Nat → Cell → Prop
  | mk {d : Nat} {c : Cell} : d ≤ bound → (∀ r ∈ c.refs, Nested bound (c.specialType.childLevel d) r) → Nested bound d c

namespace Nested

variable {bound d : Nat} {c : Cell}

omit [Digest] in
theorem le (h : Nested bound d c) : d ≤ bound := by
  obtain ⟨h, -⟩ := h
  exact h

omit [Digest] in
theorem mono {bound' : Nat} (h : Nested bound d c) (hb : bound ≤ bound') : Nested bound' d c := by
  induction h with
  | mk hd _ ih => exact .mk (hd.trans hb) ih

omit [Digest] in
theorem of_mem_refs (h : Nested bound d c) {r : Cell} (hr : r ∈ c.refs) : Nested bound (c.specialType.childLevel d) r := by
  obtain ⟨-, h⟩ := h
  exact h r hr

omit [Digest] in
/-- Ordinary cells are under no Merkle cell. -/
theorem of_ordinary (h : Cell.All (fun x => x.special = false) c) (hd : d ≤ bound) : Nested bound d c := by
  induction c using Cell.induction_on_refs with
  | mk special data refs ih =>
    have hs : special = false := h.root
    have htype : (Cell.mk special data refs).specialType = .ordinary := by
      rw [hs]
      rfl
    refine .mk hd fun r hr => ?_
    rw [htype]
    exact ih r hr (h.of_mem_refs hr)

end Nested

/-- The copy looks like the tree, with branches pruned right above their Merkle depths. -/
theorem prune_ok {isPrunned : Cell → Bool} (c : Cell) : ∀ {d : Nat} {p : Cell}, Cell.Whole d c → Nested 7 d c →
    prune isPrunned c d = .ok p → Cell.Valid p ∧ Cell.SameView d p c ∧ p.levelMask.getLevel ≤ d + 1 := by
  induction c using Cell.induction_on_refs with
  | mk special data refs ih =>
    intro d p hc hn h
    have hcc := hc.valid.created
    cases hpruned : isPrunned (.mk special data refs) with
    | true =>
      rw [prune, hpruned, if_pos rfl, CellBuilder.createPrunedBranch] at h
      split at h
      · cases h
        exact ⟨hc.valid, .refl d _, hc.level.trans (Nat.le_succ d)⟩
      · have hd7 := hn.le
        obtain ⟨hv, htype, hlevel, hview⟩ := Cell.doCreatePrunedBranch_ok hcc (by omega) h
        have hd3 : d ≤ maxLevel := by
          have := (LevelMask.getLevel_le_iff _).2 hv.created.mask
          omega
        exact ⟨hv, hview d (Nat.lt_succ_self d) hd3, hlevel.le⟩
    | false =>
      obtain ⟨hs, hd, hcreate, hforall⟩ := prune_kept hn.le hpruned h
      have hrefs : List.Forall₂ (fun p r => Cell.Valid p ∧ Cell.SameView ((Cell.mk special data refs).specialType.childLevel d) p r ∧
          p.levelMask.getLevel ≤ (Cell.mk special data refs).specialType.childLevel d + 1) p.refs refs := by
        rw [List.forall₂_iff_get] at hforall ⊢
        refine ⟨hforall.1, fun k hk hk' => ?_⟩
        have hmem : refs.get ⟨k, hk'⟩ ∈ refs := List.get_mem ..
        exact ih _ hmem (hc.of_mem_refs hmem) (hn.of_mem_refs hmem) (hforall.2 k hk hk')
      have hvalid : Cell.Valid p := by
        obtain ⟨special', data', ps⟩ := p
        refine .mk (fun x hx => ?_) hcreate
        obtain ⟨y, -, hy⟩ := exists_mem_right_of_forall₂ hrefs hx
        exact hy.1
      have hview := Cell.sameView_node hvalid.created hcc hc.bare.root hs hd (hrefs.imp fun _ _ h => h.2.1)
      refine ⟨hvalid, hview, ?_⟩
      have htype := Cell.specialType_congr hs hd
      apply level_node
      · intro hpp
        have hnil := (hvalid.created.pruned hpp).1
        have hcnil : refs = [] := List.length_eq_zero_iff.1 (hforall.length_eq.symm.trans (by rw [hnil]; rfl))
        have hpc : p = Cell.mk special data refs := by
          obtain ⟨special', data', ps⟩ := p
          obtain rfl : special' = special := hs
          obtain rfl : data' = data := hd
          obtain rfl : ps = refs := hnil.trans hcnil.symm
          rfl
        rw [hpc]
        exact hc.level.trans (Nat.le_succ d)
      · intro x hx
        obtain ⟨y, -, -, -, hlevel⟩ := exists_mem_right_of_forall₂ hrefs hx
        rw [htype]
        refine hlevel.trans ?_
        unfold SpecialType.childLevel
        split <;> omega

/-! ## Copies can be made -/

theorem le_foldl_max {l : List Nat} {a x : Nat} (hx : x ∈ l) : x ≤ l.foldl max a := by
  induction l generalizing a with
  | nil => cases hx
  | cons y l ih =>
    rw [List.foldl_cons]
    rcases List.mem_cons.1 hx with rfl | hx
    · have hmono : ∀ (l : List Nat) (a : Nat), a ≤ l.foldl max a := by
        intro l
        induction l with
        | nil => exact fun a => le_rfl
        | cons z l ih => exact fun a => (le_max_left a z).trans (ih (max a z))
      exact (le_max_right a x).trans (hmono l _)
    · exact ih hx

/-- The depth of a node does not grow if none of its references gets deeper. -/
theorem nodeDepth_le {ps rs : List Cell} {i : Nat} (h : List.Forall₂ (fun p r : Cell => p.getDepth i ≤ r.getDepth i) ps rs) :
    (if ps.isEmpty then 0 else (ps.map fun p => p.getDepth i).foldl max 0 + 1) ≤
      if rs.isEmpty then 0 else (rs.map fun r => r.getDepth i).foldl max 0 + 1 := by
  have hempty : ps.isEmpty = rs.isEmpty := by
    rw [Bool.eq_iff_iff, List.isEmpty_iff_length_eq_zero, List.isEmpty_iff_length_eq_zero, h.length_eq]
  rw [hempty]
  split
  · exact le_rfl
  · refine Nat.succ_le_succ (foldl_max_le (Nat.zero_le _) ?_)
    intro x hx
    obtain ⟨y, hy, rfl⟩ := List.mem_map.1 hx
    obtain ⟨z, hz, hyz⟩ := exists_mem_right_of_forall₂ h hy
    exact hyz.trans (le_foldl_max (List.mem_map_of_mem hz))

/-- The depths of a node, level by level. -/
theorem mem_depths {c : Cell} {d : Nat} (hd : d ∈ c.info.depths) :
    ∃ i, d = if c.refs.isEmpty then 0 else (c.refs.map fun r => r.getDepth (c.specialType.childLevel i)).foldl max 0 + 1 := by
  have hrounds : ∀ (levels : List Nat) (prev : Option Bits256),
      ∀ x ∈ CellInfo.hashLevels c.special c.specialType c.levelMask c.data (c.refs.map Cell.info) levels prev,
        ∃ i, x.2 = CellInfo.levelDepth c.specialType (c.refs.map Cell.info) i := by
    intro levels
    induction levels with
    | nil => exact fun _ x hx => nomatch hx
    | cons level levels ih =>
      intro prev x hx
      rw [CellInfo.hashLevels_cons] at hx
      rcases List.mem_cons.1 hx with rfl | hx
      · exact ⟨level, rfl⟩
      · exact ih _ x hx
  rw [Cell.depths_eq, Cell.rounds] at hd
  obtain ⟨x, hx, rfl⟩ := List.mem_map.1 hd
  obtain ⟨i, hi⟩ := hrounds _ _ x hx
  refine ⟨i, ?_⟩
  rw [hi, CellInfo.levelDepth, List.isEmpty_map, List.map_map]
  rfl

/-- A node can be made again over references that look like those it has and are no deeper. -/
theorem create_node {c : Cell} (hc : c.Created) (hcreate : Cell.create c.special c.data c.refs = .ok c)
    (hbare : c.specialType = .library → c.refs = []) {ps : List Cell} (hnil : c.specialType = .prunnedBranch → c.refs = [])
    (hview : List.Forall₂ (fun p r => p.getHash 0 = r.getHash 0 ∧ p.getDepth 0 = r.getDepth 0) ps c.refs)
    (hdepth : List.Forall₂ (fun p r : Cell => ∀ i, p.getDepth i ≤ r.getDepth i) ps c.refs)
    (hlevel : ∀ p ∈ ps, p.levelMask.getLevel ≤ c.specialType.childLevel maxLevel) :
    Cell.create c.special c.data ps = .ok (.mk c.special c.data ps) := by
  by_cases hempty : c.refs = []
  · have hps : ps = [] := List.length_eq_zero_iff.1 (hview.length_eq.trans (by rw [hempty]; rfl))
    rw [hempty] at hcreate
    obtain ⟨special, data, refs⟩ := c
    obtain rfl : refs = [] := hempty
    rw [hps]
    exact hcreate
  obtain ⟨-, hbits, hrefs, -, -, hspecial⟩ := Cell.create_ok hcreate
  have hpruned : c.specialType ≠ .prunnedBranch := fun hp => hempty (hnil hp)
  apply Cell.create_eq
  · intro hs
    obtain ⟨hlen, t, ht, hne, hcheck⟩ := hspecial hs
    exact ⟨hlen, t, ht, hne, (Cell.checkSpecial_congr hview).trans hcheck⟩
  · exact hbits
  · rw [hview.length_eq]
    exact hrefs
  · rw [← LevelMask.getLevel_le_iff]
    exact level_node (fun hp => absurd hp hpruned) hlevel
  · intro d hd
    obtain ⟨i, rfl⟩ := mem_depths hd
    refine (nodeDepth_le (hdepth.imp fun p r h => h _)).trans ?_
    have heq := hc.getDepth_eq hpruned hbare i
    exact heq.symm.trans_le (hc.getDepth_le fun hp => absurd hp hpruned)

theorem pruneRefs_eq {isPrunned : Cell → Bool} {d : Nat} {rs : List Cell} (h : ∀ r ∈ rs, ∃ p, prune isPrunned r d = .ok p) :
    ∃ ps, pruneRefs isPrunned rs d = .ok ps := by
  induction rs with
  | nil => exact ⟨[], rfl⟩
  | cons r rs ih =>
    obtain ⟨p, hp⟩ := h r List.mem_cons_self
    obtain ⟨ps, hps⟩ := ih fun x hx => h x (List.mem_cons_of_mem r hx)
    exact ⟨p :: ps, by rw [pruneRefs, hp, hps]; rfl⟩

/-- Where at most two Merkle cells are above any cell, every copy can be made, and it is nowhere deeper. -/
theorem prune_total (isPrunned : Cell → Bool) (c : Cell) : ∀ {d : Nat}, Cell.Whole d c → Nested 2 d c →
    ∃ p, prune isPrunned c d = .ok p ∧ ∀ i, p.getDepth i ≤ c.getDepth i := by
  induction c using Cell.induction_on_refs with
  | mk special data refs ih =>
    intro d hc hn
    have hcc := hc.valid.created
    have hd2 := hn.le
    cases hpruned : isPrunned (.mk special data refs) with
    | true =>
      rw [prune, hpruned, if_pos rfl, CellBuilder.createPrunedBranch]
      split
      · exact ⟨_, rfl, fun i => le_rfl⟩
      · have hn3 : d + 1 ≤ maxLevel := by
          unfold maxLevel
          omega
        have hcreate := Cell.doCreatePrunedBranch_eq (Nat.lt_succ_of_le hc.level) hn3
        refine ⟨_, hcreate, fun i => ?_⟩
        obtain ⟨hv, htype, hlevel, hview⟩ := Cell.doCreatePrunedBranch_ok hcc (by omega) hcreate
        by_cases hi : i ≤ d
        · exact ((hview d (Nat.lt_succ_self d) (by omega)).depths i hi).le
        · -- from its own level on, a pruned branch has no depth
          rw [Cell.getDepth_eq hv.created.mask (fun _ => by omega), (hv.created.pruned htype).1]
          exact Nat.zero_le _
    | false =>
      have hrefs : ∀ r ∈ refs, ∃ p, prune isPrunned r ((Cell.mk special data refs).specialType.childLevel d) = .ok p ∧
          ∀ i, p.getDepth i ≤ r.getDepth i := fun r hr => ih r hr (hc.of_mem_refs hr) (hn.of_mem_refs hr)
      obtain ⟨ps, hps⟩ := pruneRefs_eq fun r hr => (hrefs r hr).imp fun p h => h.1
      have hforall := pruneRefs_ok hps
      have hmem : ∀ {p r : Cell}, r ∈ refs → prune isPrunned r ((Cell.mk special data refs).specialType.childLevel d) = .ok p →
          Cell.SameView ((Cell.mk special data refs).specialType.childLevel d) p r ∧ (∀ i, p.getDepth i ≤ r.getDepth i) ∧
            p.levelMask.getLevel ≤ (Cell.mk special data refs).specialType.childLevel d + 1 := by
        intro p r hr hp
        have hn7 : Nested 7 ((Cell.mk special data refs).specialType.childLevel d) r := (hn.of_mem_refs hr).mono (by decide)
        obtain ⟨-, hview, hlevel⟩ := prune_ok r (hc.of_mem_refs hr) hn7 hp
        obtain ⟨p', hp', hdepth⟩ := hrefs r hr
        rw [hp'] at hp
        cases hp
        exact ⟨hview, hdepth, hlevel⟩
      have hall : List.Forall₂ (fun p r =>
          Cell.SameView ((Cell.mk special data refs).specialType.childLevel d) p r ∧ (∀ i, p.getDepth i ≤ r.getDepth i) ∧
            p.levelMask.getLevel ≤ (Cell.mk special data refs).specialType.childLevel d + 1) ps refs := by
        rw [List.forall₂_iff_get] at hforall ⊢
        exact ⟨hforall.1, fun k hk hk' => hmem (List.get_mem ..) (hforall.2 k hk hk')⟩
      have hcreate : Cell.create special data ps = .ok (.mk special data ps) := by
        obtain ⟨-, hcreate⟩ := hc.valid
        refine create_node (c := .mk special data refs) hcc hcreate hc.bare.root (fun hp => (hcc.pruned hp).1)
          (hall.imp fun p r h => ⟨h.1.hash 0 (Nat.zero_le _), h.1.depths 0 (Nat.zero_le _)⟩) (hall.imp fun p r h => h.2.1) ?_
        intro p hp
        obtain ⟨r, -, h⟩ := exists_mem_right_of_forall₂ hall hp
        refine h.2.2.trans ?_
        unfold SpecialType.childLevel maxLevel
        split <;> omega
      refine ⟨.mk special data ps, ?_, fun i => ?_⟩
      · rw [prune, hpruned, if_neg (by decide)]
        simp only [childMerkleDepth_eq (.mk special data refs) (hd2.trans_lt (by decide : 2 < maxVirtLevel)), hps, bind, Except.bind]
        exact CellBuilder.finalize_eq hcreate
      · have hpc := Cell.created_of_create hcreate
        by_cases hempty : refs = []
        · subst hempty
          cases hall
          exact le_rfl
        have hne : ∀ t, (t = SpecialType.prunnedBranch ∨ t = .library) → (Cell.mk special data refs).specialType ≠ t := by
          rintro t (rfl | rfl) ht
          · exact hempty (hcc.pruned ht).1
          · exact hempty (hc.bare.root ht)
        rw [hpc.getDepth_eq (hne _ (.inl rfl)) (fun hl => absurd hl (hne _ (.inr rfl))),
          hcc.getDepth_eq (hne _ (.inl rfl)) (fun hl => absurd hl (hne _ (.inr rfl)))]
        exact nodeDepth_le (hall.imp fun p r h => h.2.1 _)

/-! ## Proofs -/

/-- The data of a proof cell: its type, and the lowest hash and depth of what is proved. -/
theorem load_createMerkleProof (raw : Cell) (hdepth : raw.getDepth 0 < 2 ^ 16) :
    CellInfo.load (Cell.createMerkleProof raw).data 0 8 = 3 ∧
      CellInfo.load (Cell.createMerkleProof raw).data 8 hashBits = (raw.getHash 0).toNat ∧
      CellInfo.load (Cell.createMerkleProof raw).data (8 + hashBits) 16 = raw.getDepth 0 := by
  have hdata : (Cell.createMerkleProof raw).data =
      natToBits 8 3 ++ (natToBits hashBits (raw.getHash 0).toNat ++ natToBits 16 (raw.getDepth 0)) := List.append_assoc ..
  rw [hdata]
  refine ⟨?_, ?_, ?_⟩
  · rw [CellInfo.load, List.drop_zero, List.take_append_of_le_length (by simp), List.take_of_length_le (by simp),
      bitsToNat_natToBits]
    rfl
  · rw [CellInfo.load, List.drop_append_of_le_length (by simp), List.drop_of_length_le (by simp), List.nil_append,
      List.take_append_of_le_length (by simp), List.take_of_length_le (by simp), bitsToNat_natToBits]
    exact Nat.mod_eq_of_lt (raw.getHash 0).isLt
  · rw [CellInfo.load, ← List.append_assoc, List.drop_append_of_le_length (by simp), List.drop_of_length_le (by simp),
      List.nil_append, List.take_of_length_le (by simp), bitsToNat_natToBits]
    exact Nat.mod_eq_of_lt hdepth

/-- The proof cell over a copy. -/
theorem createMerkleProof_ok {raw proof : Cell} (hraw : Cell.Valid raw) (h : createMerkleProof raw = .ok proof) :
    Cell.Valid proof ∧ proof.refs = [raw] ∧ proof.specialType = .merkleProof := by
  have hcreate : Cell.create true (Cell.createMerkleProof raw).data [raw] = .ok proof := CellBuilder.finalize_ok h
  obtain ⟨rfl, -⟩ := Cell.create_ok hcreate
  refine ⟨.mk (by simpa using hraw) hcreate, rfl, ?_⟩
  change (if true = true then (SpecialType.ofCode (CellInfo.load (Cell.createMerkleProof raw).data 0 8)).getD .ordinary
    else .ordinary) = _
  rw [(load_createMerkleProof raw (hraw.created.getDepth_lt 0)).1]
  rfl

/-- A proof cell can be made over what is not too deep. -/
theorem createMerkleProof_eq {raw : Cell} (hraw : Cell.Valid raw) (hlevel : raw.levelMask.getLevel ≤ 1)
    (hdepth : ∀ i, raw.getDepth i < maxDepth) : ∃ proof, createMerkleProof raw = .ok proof := by
  obtain ⟨htype, hhash, hdepth0⟩ := load_createMerkleProof raw (hraw.created.getDepth_lt 0)
  have hlen : (Cell.createMerkleProof raw).data.length = 280 := by
    change (natToBits 8 3 ++ natToBits hashBits (raw.getHash 0).toNat ++ natToBits 16 (raw.getDepth 0)).length = 280
    simp [hashBits]
  have hmerkle : (Cell.mk true (Cell.createMerkleProof raw).data [raw]).specialType = .merkleProof := by
    change (if true = true then (SpecialType.ofCode (CellInfo.load (Cell.createMerkleProof raw).data 0 8)).getD .ordinary
      else .ordinary) = _
    rw [htype]
    rfl
  refine ⟨_, CellBuilder.finalize_eq (Cell.create_eq (fun _ => ⟨?_, .merkleProof, ?_, by decide, ?_⟩) ?_ ?_ ?_ ?_)⟩
  · exact (by decide : 8 ≤ 280).trans hlen.ge
  · rw [htype]
    rfl
  · simp only [Cell.checkSpecial, hlen, hhash, hdepth0, failIf, ne_eq, not_true, if_false]
    rfl
  · exact hlen.le.trans (by decide)
  · exact Nat.succ_le_succ (Nat.zero_le 3)
  · rw [← LevelMask.getLevel_le_iff]
    refine (level_node (d := 0) (fun hp => ?_) ?_).trans (Nat.zero_le _)
    · rw [hmerkle] at hp
      cases hp
    · intro r hr
      obtain rfl := List.mem_singleton.1 hr
      rw [hmerkle]
      exact hlevel
  · intro d hd
    obtain ⟨i, rfl⟩ := mem_depths hd
    exact hdepth _

/-- A proof over a copy of level at most one can be virtualized. -/
theorem virtualize_eq {raw proof : Cell} (hraw : raw.levelMask.getLevel ≤ 1)
    (hrefs : proof.refs = [raw]) (htype : proof.specialType = .merkleProof) :
    virtualize proof = .ok (some (CellRef.createVirtual ⟨0, 1⟩ raw)) := by
  have hlevel : proof.levelMask.getLevel = 0 := by
    apply Nat.le_zero.1
    apply level_node
    · intro hp
      rw [htype] at hp
      cases hp
    · intro r hr
      rw [hrefs, List.mem_singleton] at hr
      rw [hr, htype]
      exact hraw
  exact virtualize_of_level hlevel hrefs htype

/-- A proof that was generated is valid and shows a cell with the hash of the tree. -/
theorem generate_ok {isPrunned : Cell → Bool} {c proof : Cell} (hc : Cell.Whole 0 c) (hn : Nested 7 0 c)
    (hcol : Cell.CollisionFree c c) (h : generate isPrunned c = .ok (some proof)) :
    Cell.Valid proof ∧ ∃ raw, prune isPrunned c 0 = .ok raw ∧ Cell.Valid raw ∧ Cell.SameView 0 raw c ∧
      virtualize proof = .ok (some (CellRef.createVirtual ⟨0, 1⟩ raw)) := by
  have hlevel : c.levelMask.getLevel = 0 := Nat.le_zero.1 hc.level
  rw [generate, hlevel, if_neg (by simp)] at h
  obtain ⟨raw, hraw, h⟩ := bind_ok h
  obtain ⟨proof', hproof, h⟩ := bind_ok h
  cases h
  rw [generateRaw_eq hc.valid hc.bare hcol, hlevel] at hraw
  obtain ⟨hv, hview, hrawlevel⟩ := prune_ok c hc hn hraw
  obtain ⟨hpv, hrefs, htype⟩ := createMerkleProof_ok hv hproof
  exact ⟨hpv, raw, hraw, hv, hview, virtualize_eq hrawlevel hrefs htype⟩

/-- A proof can be generated of every tree with at most two Merkle cells above any cell, if there is room for one
cell more. -/
theorem generate_total (isPrunned : Cell → Bool) {c : Cell} (hc : Cell.Whole 0 c) (hn : Nested 2 0 c)
    (hcol : Cell.CollisionFree c c) (hdepth : c.getDepth 0 < maxDepth) :
    ∃ proof, generate isPrunned c = .ok (some proof) := by
  have hlevel : c.levelMask.getLevel = 0 := Nat.le_zero.1 hc.level
  obtain ⟨raw, hraw, hrawdepth⟩ := prune_total isPrunned c hc hn
  obtain ⟨hv, -, hrawlevel⟩ := prune_ok c hc (hn.mono (by decide)) hraw
  have hflat : ∀ i, c.getDepth i = c.getDepth 0 := by
    intro i
    apply Cell.getDepth_congr
    rw [LevelMask.apply_of_getLevel_le (hlevel.le.trans (Nat.zero_le i)), LevelMask.apply_of_getLevel_le hlevel.le]
  obtain ⟨proof, hproof⟩ := createMerkleProof_eq hv hrawlevel fun i => (hrawdepth i).trans_lt (hflat i ▸ hdepth)
  refine ⟨proof, ?_⟩
  rw [generate, if_neg (by simpa using hlevel), generateRaw_eq hc.valid hc.bare hcol, hlevel, hraw]
  simp only [bind, Except.bind, hproof]
  rfl

/-- The virtualized root of a generated proof goes by the hash of the tree. -/
theorem reprHash_of_generate {isPrunned : Cell → Bool} {c proof : Cell} {root : CellRef} (hc : Cell.Whole 0 c)
    (hn : Nested 7 0 c) (hcol : Cell.CollisionFree c c) (h : generate isPrunned c = .ok (some proof))
    (hroot : virtualize proof = .ok (some root)) : root.reprHash = (⟨c, .none⟩ : CellRef).reprHash := by
  obtain ⟨-, raw, -, -, hview, hvirt⟩ := generate_ok hc hn hcol h
  rw [hvirt] at hroot
  cases hroot
  rw [reprHash_createVirtual, hview.hash 0 le_rfl]
  exact (CellRef.getHash_maxLevel hc.valid.created hc.level).symm

/-! ## What a generated proof shows -/

/-- A reference into a proof that was generated: to the copy of a cell of the tree. -/
structure Copies (isPrunned : Cell → Bool) (d v : Nat) (r : CellRef) (c : Cell) : Prop where
  whole : Cell.Whole d c
  nested : Nested 7 d c
  copy : prune isPrunned c d = .ok r.cell
  virt : r.virt = ⟨d, v⟩ ∧ d < maxLevel ∧ d < r.cell.levelMask.getLevel ∨
    r.virt = .none ∧ r.cell.levelMask.getLevel ≤ d

namespace Copies

variable {isPrunned : Cell → Bool} {d v : Nat} {r : CellRef} {c : Cell}

theorem valid (h : Copies isPrunned d v r c) : Cell.Valid r.cell := (prune_ok c h.whole h.nested h.copy).1

theorem view (h : Copies isPrunned d v r c) : Cell.SameView d r.cell c := (prune_ok c h.whole h.nested h.copy).2.1

theorem reprHash_eq (h : Copies isPrunned d v r c) : r.reprHash = (⟨c, .none⟩ : CellRef).reprHash :=
  CellRef.reprHash_eq_of_agree h.valid h.whole h.view.hash (h.virt.imp_left fun h => ⟨h.1, h.2.1⟩)

/-- A cell that was not pruned is the cell of the tree over references into the proof. -/
theorem refs (h : Copies isPrunned d v r c) (hkept : isPrunned c = false) :
    r.cell.special = c.special ∧ r.cell.data = c.data ∧
      List.Forall₂ (Copies isPrunned (c.specialType.childLevel d) v) (CellSlice.ofCell r).prefetchRefs c.refs := by
  obtain ⟨hspecial, hdata, -, hforall⟩ := prune_kept h.nested.le hkept h.copy
  have htype := Cell.specialType_congr hspecial hdata
  refine ⟨hspecial, hdata, ?_⟩
  rw [CellSlice.prefetchRefs_eq, List.forall₂_map_left_iff]
  change List.Forall₂ _ r.cell.refs c.refs
  rw [List.forall₂_iff_get] at hforall ⊢
  refine ⟨hforall.1, fun k hk hk' => ?_⟩
  have hmem : r.cell.refs.get ⟨k, hk⟩ ∈ r.cell.refs := List.get_mem ..
  have hmem' : c.refs.get ⟨k, hk'⟩ ∈ c.refs := List.get_mem ..
  have hcopy := hforall.2 k hk hk'
  generalize r.cell.refs.get ⟨k, hk⟩ = a at hmem hcopy ⊢
  generalize c.refs.get ⟨k, hk'⟩ = b at hmem' hcopy ⊢
  rcases CellRef.virtualize_child h.valid htype
    (fun hl => List.length_eq_zero_iff.1 (hforall.1.trans (by rw [h.whole.bare.root hl]; rfl)))
    (h.virt.imp_left fun h => ⟨h.1, h.2.1⟩) hmem with ⟨hvirt, hcut⟩ | ⟨hvirt, hlevel⟩
  · rw [hvirt]
    exact ⟨h.whole.of_mem_refs hmem', h.nested.of_mem_refs hmem', hcopy, .inl ⟨rfl, hcut.1, hcut.2⟩⟩
  · rw [hvirt]
    exact ⟨h.whole.of_mem_refs hmem', h.nested.of_mem_refs hmem', hcopy, .inr ⟨rfl, hlevel⟩⟩

/-- Both slices of a cell that was not pruned. -/
theorem slice (h : Copies isPrunned d v r c) (hkept : isPrunned c = false) :
    (CellSlice.ofCell r).view = (CellSlice.ofCell ⟨c, .none⟩).view ∧
      List.Forall₂ (fun r' c' => ∃ e, Copies isPrunned e v r' c') (CellSlice.ofCell r).prefetchRefs c.refs := by
  obtain ⟨hspecial, hdata, hrefs⟩ := h.refs hkept
  exact ⟨CellRef.view_eq hspecial hdata hrefs, hrefs.imp fun _ _ h => ⟨_, h⟩⟩

theorem loadCellSlice_eq (h : Copies isPrunned d v r c) (hkept : isPrunned c = false) {cs : CellSlice}
    (hload : loadCellSlice ⟨c, .none⟩ = .ok cs) : loadCellSlice r = .ok (.ofCell r) := by
  obtain ⟨hplain, -⟩ := loadCellSlice_ok hload
  have hspecial : r.cell.special = false := (h.refs hkept).1.trans hplain
  simp [loadCellSlice, hspecial, h.valid.created.ordinary.1 hspecial]

theorem loadNoVm_eq (h : Copies isPrunned d v r c) (hkept : isPrunned c = false) : loadNoVm r = .ok (.ofCell r) := by
  obtain ⟨hspecial, hdata, hrefs⟩ := h.refs hkept
  have htype := Cell.specialType_congr hspecial hdata
  unfold loadNoVm
  split
  · next hp =>
    exfalso
    rcases h.virt with ⟨-, -, hcut⟩ | ⟨hvirt, -⟩
    · -- a pruned branch of the tree has no higher level than its depth, and stays what it is
      have hnil := (h.valid.created.pruned hp.2).1
      have hcnil := (h.whole.valid.created.pruned (htype ▸ hp.2)).1
      have hcell : r.cell = c := by
        generalize r.cell = a at *
        obtain ⟨s, data, refs⟩ := a
        obtain ⟨s', data', refs'⟩ := c
        obtain rfl : s = s' := hspecial
        obtain rfl : data = data' := hdata
        obtain rfl : refs = refs' := hnil.trans hcnil.symm
        rfl
      rw [hcell] at hcut
      exact absurd h.whole.level (not_le.2 hcut)
    · rw [hvirt] at hp
      exact hp.1 rfl
  · rfl

end Copies

section Run

variable {α : Type} {isPrunned : Cell → Bool} {v : Nat}

omit [Digest] in
/-- Where a plain reference is, there is one into the proof. -/
theorem ref_of_copies {P : CellRef → Cell → Prop} {rs : List CellRef} {cs : List Cell} (h : List.Forall₂ P rs cs) {i : Nat}
    {x : CellRef} (hx : Reader.ref (cs.map fun c => ⟨c, .none⟩) i = .ok x) :
    ∃ r c, Reader.ref rs i = .ok r ∧ x = ⟨c, .none⟩ ∧ P r c := by
  unfold Reader.ref at hx
  split at hx
  · next x' hx' =>
    cases hx
    obtain ⟨hi, rfl⟩ := List.getElem?_eq_some_iff.1 hx'
    rw [List.length_map] at hi
    have hi' : i < rs.length := h.length_eq ▸ hi
    refine ⟨rs[i], cs[i], by simp [Reader.ref, hi'], by simp, (List.forall₂_iff_get.1 h).2 i hi' hi⟩
  · cases hx

/-- A program that keeps to the cells that were not pruned runs on their copies as it does on them. -/
theorem run_of_copies (rd : Reader α) {rs : List CellRef} {cs : List Cell}
    (h : List.Forall₂ (fun r c => ∃ d, Copies isPrunned d v r c) rs cs) {a : α}
    (hrun : rd.run (cs.map fun c => ⟨c, .none⟩) = .ok a)
    (hwithin : rd.Within (fun c => isPrunned c = false) (cs.map fun c => ⟨c, .none⟩)) : rd.run rs = .ok a := by
  induction rd generalizing rs cs with
  | done b => exact hrun
  | error e => cases hrun
  | load i next ih | loadNoVm i next ih =>
    obtain ⟨x, hx, hrun⟩ := bind_ok hrun
    obtain ⟨slice, hload, hrun⟩ := bind_ok hrun
    obtain ⟨r, c, hr, rfl, d, hcopies⟩ := ref_of_copies h hx
    obtain ⟨hkept, hwithin⟩ := hwithin _ _ hx hload
    obtain rfl : slice = .ofCell ⟨c, .none⟩ := by
      first
      | exact (loadCellSlice_ok hload).2
      | exact loadNoVm_ok hload
    obtain ⟨hview, hrefs⟩ := hcopies.slice hkept
    rw [CellRef.prefetchRefs_plain hcopies.whole.valid, ← List.map_append] at hrun hwithin
    have hnext := ih _ (List.rel_append h hrefs) hrun hwithin
    rw [← hview] at hnext
    rw [Reader.run, hr]
    first
    | simpa only [bind, Except.bind, hcopies.loadCellSlice_eq hkept hload] using hnext
    | simpa only [bind, Except.bind, hcopies.loadNoVm_eq hkept] using hnext
  | hash i next ih =>
    obtain ⟨x, hx, hrun⟩ := bind_ok hrun
    obtain ⟨r, c, hr, rfl, d, hcopies⟩ := ref_of_copies h hx
    have hnext := ih _ h hrun (hwithin _ hx)
    rw [← hcopies.reprHash_eq] at hnext
    rw [Reader.run, hr]
    exact hnext

/-- What a program reads from a tree it reads from a proof that was generated of it, if it loads no cell that was
pruned. -/
theorem run_generated {c proof : Cell} {root : CellRef} (hc : Cell.Whole 0 c) (hn : Nested 7 0 c)
    (hcol : Cell.CollisionFree c c) (hproof : generate isPrunned c = .ok (some proof))
    (hroot : virtualize proof = .ok (some root)) (rd : Reader α) {a : α} (hrun : rd.run [⟨c, .none⟩] = .ok a)
    (hwithin : rd.Within (fun c => isPrunned c = false) [⟨c, .none⟩]) : rd.run [root] = .ok a := by
  obtain ⟨-, raw, hraw, -, -, hvirt⟩ := generate_ok hc hn hcol hproof
  rw [hvirt] at hroot
  cases hroot
  have hcopies : List.Forall₂ (fun r c => ∃ d, Copies isPrunned d 1 r c) [CellRef.createVirtual ⟨0, 1⟩ raw] [c] := by
    refine .cons ⟨0, hc, hn, ?_, ?_⟩ .nil
    · unfold CellRef.createVirtual
      split <;> exact hraw
    · unfold CellRef.createVirtual
      split
      · next hlevel => exact .inr ⟨rfl, hlevel⟩
      · next hlevel => exact .inl ⟨rfl, by decide, Nat.lt_of_not_le hlevel⟩
  exact run_of_copies rd hcopies hrun hwithin

/-- Whatever is to be pruned, a proof is generated; it is valid, shows a cell with the hash of the tree, and a program
that keeps to the cells that were not pruned reads from it what it reads from the tree. -/
theorem generate_exposes (isPrunned : Cell → Bool) {c : Cell} (hc : Cell.Whole 0 c) (hn : Nested 2 0 c)
    (hcol : Cell.CollisionFree c c) (hdepth : c.getDepth 0 < maxDepth) :
    ∃ proof root, generate isPrunned c = .ok (some proof) ∧ Cell.Valid proof ∧ virtualize proof = .ok (some root) ∧
      root.reprHash = (⟨c, .none⟩ : CellRef).reprHash ∧
      ∀ (β : Type) (rd : Reader β) (a : β), rd.run [⟨c, .none⟩] = .ok a →
        rd.Within (fun x => isPrunned x = false) [⟨c, .none⟩] → rd.run [root] = .ok a := by
  have hn7 : Nested 7 0 c := hn.mono (by decide)
  obtain ⟨proof, hproof⟩ := generate_total isPrunned hc hn hcol hdepth
  obtain ⟨hv, raw, -, -, -, hvirt⟩ := generate_ok hc hn7 hcol hproof
  exact ⟨proof, _, hproof, hv, hvirt, reprHash_of_generate hc hn7 hcol hproof hvirt,
    fun _ rd _ hrun hwithin => run_generated hc hn7 hcol hproof hvirt rd hrun hwithin⟩

end Run

end MerkleProof

namespace MerkleProof.Sample

open Cell.Sample

/-- The branch of the sample tree is pruned. -/
def prunesBranch (c : Cell) : Bool := c.data == branch.data

theorem ordinary_tree : Cell.All (fun x => x.special = false) tree := by decide

theorem generate_exposes_tree : ∃ proof root, @generate digest prunesBranch tree = .ok (some proof) ∧
    @Cell.Valid digest proof ∧ @virtualize digest proof = .ok (some root) ∧
      @CellRef.reprHash digest root = @CellRef.reprHash digest ⟨tree, .none⟩ ∧
      ∀ (β : Type) (rd : Reader β) (a : β), @Reader.run _ digest rd [⟨tree, .none⟩] = .ok a →
        @Reader.Within _ digest (fun x => prunesBranch x = false) rd [⟨tree, .none⟩] → @Reader.run _ digest rd [root] = .ok a :=
  @generate_exposes digest prunesBranch tree whole_tree (.of_ordinary ordinary_tree (by decide)) collisionFree_tree
    (by decide +kernel)

end MerkleProof.Sample

end TonWallet.Vm
