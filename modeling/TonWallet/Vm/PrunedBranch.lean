/-
Pruned branches (`CellBuilder::create_pruned_branch`): a cell that stands for another one below its own level, with
the hashes and depths of that cell in its data.
-/
import TonWallet.Vm.Pruning

namespace TonWallet.Vm

open Lib TonWallet.Td TonWallet.Ton

/-! ## Related lists -/

theorem exists_mem_right_of_forall₂ {α β : Type*} {R : α → β → Prop} {xs : List α} {ys : List β} (h : List.Forall₂ R xs ys)
    {x : α} (hx : x ∈ xs) : ∃ y ∈ ys, R x y := by
  induction h with
  | nil => cases hx
  | cons hab _ ih =>
    rcases List.mem_cons.1 hx with rfl | hx
    · exact ⟨_, List.mem_cons_self, hab⟩
    · obtain ⟨y, hy, hxy⟩ := ih hx
      exact ⟨y, List.mem_cons_of_mem _ hy, hxy⟩

theorem map_eq_map_of_forall₂ {α β γ : Type*} {f : α → γ} {g : β → γ} {xs : List α} {ys : List β}
    (h : List.Forall₂ (fun x y => f x = g y) xs ys) : xs.map f = ys.map g := by
  induction h with
  | nil => rfl
  | cons hab _ ih => rw [List.map_cons, List.map_cons, hab, ih]

/-! ## Masks of pruned branches -/

namespace LevelMask

def oneLevel (level : Nat) : LevelMask := if level = 0 then ⟨0⟩ else ⟨2 ^ (level - 1)⟩

variable {m : LevelMask} {n : Nat}

theorem mask_applyOr_oneLevel (hn : 0 < n) (hm : m.getLevel < n) :
    (m.applyOr (oneLevel n)).mask = m.mask + 2 ^ (n - 1) := by
  rw [applyOr, oneLevel, if_neg hn.ne', Nat.or_comm]
  have hlt : m.mask < 2 ^ (n - 1) := getLevel_le_iff_lt.1 (by omega)
  have h := Nat.two_pow_add_eq_or_of_lt hlt 1
  rw [mul_one] at h
  rw [← h, Nat.add_comm]

/-- The level put into a mask is its highest. -/
theorem getLevel_applyOr_oneLevel (hn : 0 < n) (hm : m.getLevel < n) : (m.applyOr (oneLevel n)).getLevel = n := by
  have hlt : m.mask < 2 ^ (n - 1) := getLevel_le_iff_lt.1 (by omega)
  have hpow : 2 ^ n = 2 * 2 ^ (n - 1) := by rw [← Nat.pow_succ', Nat.succ_eq_add_one, Nat.sub_add_cancel hn]
  apply Nat.le_antisymm
  · rw [getLevel_le_iff_lt, mask_applyOr_oneLevel hn hm]
    omega
  · by_contra hlow
    have := getLevel_le_iff_lt.1 (Nat.le_sub_one_of_lt (Nat.lt_of_not_le hlow))
    rw [mask_applyOr_oneLevel hn hm] at this
    omega

/-- Below that level it is the mask it was. -/
theorem apply_applyOr_oneLevel (hn : 0 < n) (hm : m.getLevel < n) {i : Nat} (hi : i < n) :
    (m.applyOr (oneLevel n)).apply i = m.apply i := by
  rw [apply, apply, mask_applyOr_oneLevel hn hm]
  have hdvd : 2 ^ i ∣ 2 ^ (n - 1) := Nat.pow_dvd_pow 2 (by omega)
  rw [Nat.add_mod, Nat.mod_eq_zero_of_dvd hdvd, Nat.add_zero, Nat.mod_mod]

/-- A hash is stored for every level below the one put into the mask. -/
theorem getHashI_applyOr_oneLevel (hn : 0 < n) (hn3 : n ≤ 3) (hm : m.getLevel < n) :
    (m.applyOr (oneLevel n)).getHashI = m.significantLevels.length := by
  have hsmall : ∀ n < 4, ∀ k < 4, n < 2 ^ (k - 1) → 0 < k →
      ((LevelMask.mk n).applyOr (oneLevel k)).getHashI = (LevelMask.mk n).significantLevels.length := by
    decide +kernel
  have hlt : m.mask < 2 ^ (n - 1) := getLevel_le_iff_lt.1 (by omega)
  have hpow : 2 ^ (n - 1) ≤ 2 ^ 2 := Nat.pow_le_pow_right Nat.two_pos (by omega)
  exact hsmall m.mask (hlt.trans_le hpow) n (by omega) hlt hn

end LevelMask

/-! ## Pruning a cell -/

namespace CellBuilder

variable [Digest]

/-- One of the two loops of `do_create_pruned_branch`: something of each level of the mask. -/
def storeLevels (f : Nat → List Bool) (levels : List Nat) (cb : CellBuilder) : Result CellBuilder :=
  levels.foldlM (fun cb level => cb.storeBits (f level)) cb

/-- `do_create_pruned_branch` -/
def doCreatePrunedBranch (c : Cell) (newLevel virtLevel : Nat) : Result Cell := do
  let levelMask := c.levelMask.apply virtLevel
  if newLevel < levelMask.getLevel + 1 then .error .cellWriteError
  else
    let cb ← CellBuilder.storeBits (natToBits 8 1) {}
    let cb ← cb.storeBits (natToBits 8 (levelMask.applyOr (LevelMask.oneLevel newLevel)).mask)
    let cb ← cb.storeLevels (fun i => natToBits hashBits (c.getHash i).toNat) levelMask.significantLevels
    let cb ← cb.storeLevels (fun i => natToBits 16 (c.getDepth i)) levelMask.significantLevels
    cb.finalize true

/-- `create_pruned_branch` of a plain cell: a cell without references is kept as it is. -/
def createPrunedBranch (c : Cell) (newLevel virtLevel : Nat) : Result Cell :=
  if c.levelMask.getLevel ≤ virtLevel ∧ c.refs = [] then .ok c else doCreatePrunedBranch c newLevel virtLevel

/-! ## What is stored -/

omit [Digest] in
theorem storeBits_ok {bits : List Bool} {cb cb' : CellBuilder} (h : cb.storeBits bits = .ok cb') :
    cb' = ⟨cb.bits ++ bits, cb.refs⟩ := by
  unfold storeBits at h
  split at h
  · cases h
    rfl
  · cases h

omit [Digest] in
theorem storeLevels_ok {f : Nat → List Bool} {levels : List Nat} {cb cb' : CellBuilder}
    (h : cb.storeLevels f levels = .ok cb') : cb' = ⟨cb.bits ++ levels.flatMap f, cb.refs⟩ := by
  induction levels generalizing cb with
  | nil =>
    cases h
    simp
  | cons level levels ih =>
    rw [storeLevels, List.foldlM_cons] at h
    obtain ⟨cb1, h1, h⟩ := bind_ok h
    rw [ih h, storeBits_ok h1]
    simp

omit [Digest] in
/-- Bits for which there is room are stored. -/
theorem storeBits_eq {bits : List Bool} {cb : CellBuilder} (hfit : cb.bits.length + bits.length ≤ maxBits)
    (hrefs : cb.refs.length ≤ maxRefs) : cb.storeBits bits = .ok ⟨cb.bits ++ bits, cb.refs⟩ := by
  rw [storeBits, if_pos]
  simp only [canExtendBy, Bool.and_eq_true, decide_eq_true_eq]
  omega

omit [Digest] in
theorem storeLevels_eq {f : Nat → List Bool} {k : Nat} (hf : ∀ i, (f i).length = k) {levels : List Nat} {cb : CellBuilder}
    (hfit : cb.bits.length + k * levels.length ≤ maxBits) (hrefs : cb.refs.length ≤ maxRefs) :
    cb.storeLevels f levels = .ok ⟨cb.bits ++ levels.flatMap f, cb.refs⟩ := by
  induction levels generalizing cb with
  | nil => simp [storeLevels, pure, Except.pure]
  | cons level levels ih =>
    rw [List.length_cons, Nat.mul_succ] at hfit
    rw [storeLevels, List.foldlM_cons, storeBits_eq (by rw [hf]; omega) hrefs]
    have hnext := @ih ⟨cb.bits ++ f level, cb.refs⟩ (by simp only [List.length_append, hf]; omega) hrefs
    rw [storeLevels] at hnext
    simpa [bind, Except.bind] using hnext

theorem finalize_ok {cb : CellBuilder} {special : Bool} {c : Cell} (h : cb.finalize special = .ok c) :
    Cell.create special cb.bits cb.refs = .ok c := by
  unfold finalize at h
  split at h
  · cases h
  · exact h

theorem finalize_eq {cb : CellBuilder} {special : Bool} {c : Cell} (h : Cell.create special cb.bits cb.refs = .ok c) :
    cb.finalize special = .ok c := by
  unfold finalize
  rw [h]

end CellBuilder

namespace Cell

variable [Digest]

/-- The data of the pruned branch of a level that stands for a cell as it is at a level. -/
def prunedData (c : Cell) (newLevel virtLevel : Nat) : List Bool :=
  natToBits 8 1 ++ natToBits 8 ((c.levelMask.apply virtLevel).applyOr (LevelMask.oneLevel newLevel)).mask ++
    (c.levelMask.apply virtLevel).significantLevels.flatMap (fun i => natToBits hashBits (c.getHash i).toNat) ++
    (c.levelMask.apply virtLevel).significantLevels.flatMap (fun i => natToBits 16 (c.getDepth i))

/-- Two cells look alike from a Merkle depth: they have the same mask, hashes and depths up to it. -/
structure SameView (depth : Nat) (p c : Cell) : Prop where
  mask : p.levelMask.apply depth = c.levelMask.apply depth
  hash : Agree depth p c
  depths : ∀ i ≤ depth, p.getDepth i = c.getDepth i

theorem SameView.refl (d : Nat) (c : Cell) : SameView d c c := ⟨rfl, fun _ _ => rfl, fun _ _ => rfl⟩

section PrunedData

variable (c : Cell) (n v : Nat)

theorem load_prunedData_type : CellInfo.load (c.prunedData n v) 0 8 = 1 := by
  rw [CellInfo.load, List.drop_zero, prunedData, List.append_assoc, List.append_assoc,
    List.take_append_of_le_length (by simp), List.take_of_length_le (by simp), bitsToNat_natToBits]
  rfl

theorem load_prunedData_mask (hn : 0 < n) (hn8 : n ≤ 8) (hlevel : (c.levelMask.apply v).getLevel < n) :
    CellInfo.load (c.prunedData n v) 8 8 = ((c.levelMask.apply v).applyOr (LevelMask.oneLevel n)).mask := by
  have hlt : ((c.levelMask.apply v).applyOr (LevelMask.oneLevel n)).mask < 2 ^ 8 :=
    LevelMask.getLevel_le_iff_lt.1 ((LevelMask.getLevel_applyOr_oneLevel hn hlevel).trans_le hn8)
  rw [CellInfo.load, prunedData, List.append_assoc, List.append_assoc, List.drop_append_of_le_length (by simp),
    List.drop_of_length_le (by simp), List.nil_append, List.take_append_of_le_length (by simp),
    List.take_of_length_le (by simp), bitsToNat_natToBits, Nat.mod_eq_of_lt hlt]

/-- The hash of the `k`-th level is where `do_get_hash` reads it. -/
theorem load_prunedData_hash {k i : Nat} (hk : (c.levelMask.apply v).significantLevels[k]? = some i) :
    CellInfo.load (c.prunedData n v) (8 * (2 + hashBytes * k)) hashBits = (c.getHash i).toNat := by
  have hoff : 8 * (2 + hashBytes * k) = (natToBits 8 1 ++
      natToBits 8 ((c.levelMask.apply v).applyOr (LevelMask.oneLevel n)).mask).length + hashBits * k := by
    simp only [List.length_append, length_natToBits, hashBytes, hashBits]
    ring
  rw [CellInfo.load, prunedData, hoff, List.append_assoc (natToBits 8 1 ++ _), ← List.drop_drop, List.drop_left,
    take_drop_flatMap (fun i => length_natToBits _ _) hk, bitsToNat_natToBits]
  exact Nat.mod_eq_of_lt (c.getHash i).isLt

/-- The depth of the `k`-th level is where `do_get_depth` reads it, behind all hashes. -/
theorem load_prunedData_depth {k i : Nat} (hk : (c.levelMask.apply v).significantLevels[k]? = some i)
    (hi : c.getDepth i < 2 ^ 16) :
    CellInfo.load (c.prunedData n v)
      (8 * (2 + hashBytes * (c.levelMask.apply v).significantLevels.length + k * depthBytes)) 16 = c.getDepth i := by
  have hoff : 8 * (2 + hashBytes * (c.levelMask.apply v).significantLevels.length + k * depthBytes) =
      (natToBits 8 1 ++ natToBits 8 ((c.levelMask.apply v).applyOr (LevelMask.oneLevel n)).mask ++
        (c.levelMask.apply v).significantLevels.flatMap fun i => natToBits hashBits (c.getHash i).toNat).length + 16 * k := by
    rw [List.length_append, length_flatMap_const fun i => length_natToBits _ _]
    simp only [List.length_append, length_natToBits, hashBytes, hashBits, depthBytes]
    ring
  rw [CellInfo.load, prunedData, hoff, ← List.drop_drop, List.drop_left]
  have htake := take_drop_flatMap (f := fun i => natToBits 16 (c.getDepth i)) (fun i => length_natToBits 16 _) hk []
  rw [List.append_nil] at htake
  rw [htake, bitsToNat_natToBits, Nat.mod_eq_of_lt hi]

end PrunedData

/-- A pruned branch of level `n` looks like the cell it stands for from every depth below. -/
theorem doCreatePrunedBranch_ok {c p : Cell} (hc : c.Created) {n v : Nat} (hn8 : n ≤ 8)
    (h : CellBuilder.doCreatePrunedBranch c n v = .ok p) :
    Valid p ∧ p.specialType = .prunnedBranch ∧ p.levelMask.getLevel = n ∧
      ∀ d, d < n → d ≤ v → SameView d p c := by
  unfold CellBuilder.doCreatePrunedBranch at h
  dsimp only at h
  split at h
  · cases h
  next hlevel =>
  obtain ⟨cb1, h1, h⟩ := bind_ok h
  obtain ⟨cb2, h2, h⟩ := bind_ok h
  obtain ⟨cb3, h3, h⟩ := bind_ok h
  obtain ⟨cb4, h4, h⟩ := bind_ok h
  rw [CellBuilder.storeBits_ok h1] at h2
  rw [CellBuilder.storeBits_ok h2] at h3
  rw [CellBuilder.storeLevels_ok h3] at h4
  rw [CellBuilder.storeLevels_ok h4] at h
  have hcreate : create true (c.prunedData n v) [] = .ok p := CellBuilder.finalize_ok h
  obtain ⟨rfl, -⟩ := create_ok hcreate
  have hcreated := created_of_create hcreate
  have hn : 0 < n := by omega
  have hlow : (c.levelMask.apply v).getLevel < n := by omega
  have htype : (Cell.mk true (c.prunedData n v) []).specialType = .prunnedBranch := by
    simp [specialType, special, data, load_prunedData_type, SpecialType.ofCode]
  have hmask : (Cell.mk true (c.prunedData n v) []).levelMask = (c.levelMask.apply v).applyOr (LevelMask.oneLevel n) := by
    rw [levelMask_eq, htype]
    exact congrArg LevelMask.mk (load_prunedData_mask c n v hn hn8 hlow)
  have hlevel' : (Cell.mk true (c.prunedData n v) []).levelMask.getLevel = n := by
    rw [hmask, LevelMask.getLevel_applyOr_oneLevel hn hlow]
  have hn3 : n ≤ 3 := hlevel' ▸ (LevelMask.getLevel_le_iff _).2 hcreated.mask
  refine ⟨.mk (by simp) hcreate, htype, hlevel', ?_⟩
  · intro d hd hdv
    have hview : ∀ i ≤ d, (Cell.mk true (c.prunedData n v) []).levelMask.apply i = c.levelMask.apply i := by
      intro i hi
      rw [hmask, LevelMask.apply_applyOr_oneLevel hn hlow (hi.trans_lt hd), LevelMask.apply_apply_of_le _ (hi.trans hdv)]
    have hread : ∀ i ≤ d, ((Cell.mk true (c.prunedData n v) []).levelMask.apply i).getHashI ≠
        (Cell.mk true (c.prunedData n v) []).levelMask.getHashI := by
      intro i hi heq
      have := (LevelMask.getHashI_apply_eq_iff hcreated.mask i).1 heq
      rw [hlevel'] at this
      omega
    have hk : ∀ i ≤ d, (c.levelMask.apply v).significantLevels[((Cell.mk true (c.prunedData n v) []).levelMask.apply i).getHashI]? =
        some (c.levelMask.apply i).getLevel := by
      intro i hi
      rw [hview i hi, ← LevelMask.apply_apply_of_le _ (hi.trans hdv)]
      exact LevelMask.getElem?_significantLevels ((Nat.mod_le _ _).trans_lt hc.mask) i
    refine ⟨hview d le_rfl, fun i hi => ?_, fun i hi => ?_⟩
    · have hown : c.getHash (c.levelMask.apply i).getLevel = c.getHash i :=
        getHash_congr (LevelMask.apply_getLevel_apply _ _)
      rw [getHash, CellInfo.getHash, info_type, if_pos htype]
      refine (if_pos (hread i hi)).trans ?_
      rw [info_data, ← levelMask, data, load_prunedData_hash c n v (hk i hi), hown, BitVec.ofNat_toNat, BitVec.setWidth_eq]
    · have hown : c.getDepth (c.levelMask.apply i).getLevel = c.getDepth i :=
        getDepth_congr (LevelMask.apply_getLevel_apply _ _)
      rw [getDepth, CellInfo.getDepth, info_type, if_pos htype]
      refine (if_pos (hread i hi)).trans ?_
      have hcount : (Cell.mk true (c.prunedData n v) []).levelMask.getHashI = (c.levelMask.apply v).significantLevels.length := by
        rw [hmask]
        exact LevelMask.getHashI_applyOr_oneLevel hn hn3 hlow
      rw [info_data, ← levelMask, data, hcount, load_prunedData_depth c n v (hk i hi) (hc.getDepth_lt _), hown]

/-- A pruned branch has no references, so no depth of its own. -/
theorem depths_of_refs_nil {c : Cell} (h : c.refs = []) : ∀ d ∈ c.info.depths, d = 0 := by
  have hrounds : ∀ (levels : List Nat) (prev : Option Bits256),
      ∀ x ∈ CellInfo.hashLevels c.special c.specialType c.levelMask c.data [] levels prev, x.2 = 0 := by
    intro levels
    induction levels with
    | nil => exact fun _ x hx => nomatch hx
    | cons level levels ih =>
      intro prev x hx
      rw [CellInfo.hashLevels_cons] at hx
      rcases List.mem_cons.1 hx with rfl | hx
      · rfl
      · exact ih _ x hx
  intro d hd
  rw [depths_eq, rounds, h] at hd
  obtain ⟨x, hx, rfl⟩ := List.mem_map.1 hd
  exact hrounds _ _ x hx

section Prunable

variable {c : Cell} {n : Nat}

/-- Below level three there are at most three hashes to store. -/
theorem length_significantLevels (hlevel : c.levelMask.getLevel ≤ 2) :
    c.levelMask.significantLevels.length ≤ 3 ∧ c.levelMask.getHashesCount = c.levelMask.significantLevels.length := by
  have hsmall : ∀ m < 4, (LevelMask.mk m).significantLevels.length ≤ 3 ∧
      (LevelMask.mk m).getHashesCount = (LevelMask.mk m).significantLevels.length := by decide +kernel
  exact hsmall _ (LevelMask.getLevel_le_iff_lt.1 hlevel)

theorem length_prunedData (hmask : c.levelMask.apply maxLevel = c.levelMask) :
    (c.prunedData n maxLevel).length = 16 + 272 * c.levelMask.significantLevels.length := by
  have hhashes : (c.levelMask.significantLevels.flatMap fun i => natToBits hashBits (c.getHash i).toNat).length =
      256 * c.levelMask.significantLevels.length := length_flatMap_const (fun i => length_natToBits _ _) _
  have hdepths : (c.levelMask.significantLevels.flatMap fun i => natToBits 16 (c.getDepth i)).length =
      16 * c.levelMask.significantLevels.length := length_flatMap_const (fun i => length_natToBits _ _) _
  simp only [prunedData, hmask, List.length_append, length_natToBits, hhashes, hdepths]
  omega

/-- The data of a pruned branch passes the checks of `DataCell::create`, up to the highest level. -/
theorem create_prunedData (hlevel : c.levelMask.getLevel < n) (hn3 : n ≤ maxLevel) :
    create true (c.prunedData n maxLevel) [] = .ok (.mk true (c.prunedData n maxLevel) []) := by
  have hn : 0 < n := by omega
  have hmask : c.levelMask.apply maxLevel = c.levelMask := LevelMask.apply_of_getLevel_le (hlevel.le.trans hn3)
  have hlow : (c.levelMask.apply maxLevel).getLevel < n := by rwa [hmask]
  have hlow2 : c.levelMask.getLevel ≤ 2 := by
    unfold maxLevel at hn3
    omega
  obtain ⟨hcount, hhashes⟩ := length_significantLevels hlow2
  have hlen := length_prunedData (n := n) hmask
  have htype : (Cell.mk true (c.prunedData n maxLevel) []).specialType = .prunnedBranch := by
    simp [specialType, special, data, load_prunedData_type, SpecialType.ofCode]
  have hload := load_prunedData_mask c n maxLevel hn (hn3.trans (by decide)) hlow
  have hlevel' : LevelMask.getLevel ⟨CellInfo.load (c.prunedData n maxLevel) 8 8⟩ = n := by
    rw [hload]
    exact LevelMask.getLevel_applyOr_oneLevel hn hlow
  have happly : (LevelMask.mk (CellInfo.load (c.prunedData n maxLevel) 8 8)).apply (n - 1) = c.levelMask := by
    rw [hload]
    exact (LevelMask.apply_applyOr_oneLevel hn hlow (by omega)).trans (by
      rw [hmask, LevelMask.apply_of_getLevel_le (by omega)])
  apply create_eq
  · refine fun _ => ⟨by omega, .prunnedBranch, by rw [load_prunedData_type]; rfl, by decide, ?_⟩
    have h16 : ¬ (c.prunedData n maxLevel).length < 16 := by omega
    have hbits : ¬ (c.prunedData n maxLevel).length ≠ (2 + c.levelMask.getHashesCount * (hashBytes + depthBytes)) * 8 := by
      rw [hlen, hhashes, hashBytes, depthBytes]
      omega
    simp only [checkSpecial, List.length_nil, ne_eq, not_true, failIf, if_false, h16, hlevel', happly, hbits,
      not_lt.2 hn3, hn.ne', or_self, bind, Except.bind]
  · unfold maxBits
    omega
  · exact Nat.zero_le _
  · rw [← LevelMask.getLevel_le_iff, levelMask_eq, htype]
    exact hlevel'.trans_le hn3
  · intro d hd
    rw [depths_of_refs_nil rfl d hd]
    exact Nat.zero_le _

/-- A cell can be pruned to any level above its own, up to the highest. -/
theorem doCreatePrunedBranch_eq (hlevel : c.levelMask.getLevel < n) (hn3 : n ≤ maxLevel) :
    CellBuilder.doCreatePrunedBranch c n maxLevel = .ok (.mk true (c.prunedData n maxLevel) []) := by
  have hmask : c.levelMask.apply maxLevel = c.levelMask := LevelMask.apply_of_getLevel_le (hlevel.le.trans hn3)
  have hlow2 : c.levelMask.getLevel ≤ 2 := by
    unfold maxLevel at hn3
    omega
  obtain ⟨hcount, -⟩ := length_significantLevels hlow2
  have hlen := length_prunedData (n := n) hmask
  have hhashes : (c.levelMask.significantLevels.flatMap fun i => natToBits hashBits (c.getHash i).toNat).length =
      256 * c.levelMask.significantLevels.length := length_flatMap_const (fun i => length_natToBits _ _) _
  have hnot : ¬ n < c.levelMask.getLevel + 1 := by omega
  unfold CellBuilder.doCreatePrunedBranch
  simp only [hmask, if_neg hnot, bind, Except.bind]
  rw [CellBuilder.storeBits_eq (by simp [maxBits]) (by simp)]
  dsimp only
  rw [CellBuilder.storeBits_eq (by simp [maxBits]) (by simp)]
  dsimp only
  rw [CellBuilder.storeLevels_eq (k := hashBits) (fun i => length_natToBits _ _) (by simp [maxBits, hashBits]; omega) (by simp)]
  dsimp only
  rw [CellBuilder.storeLevels_eq (k := 16) (fun i => length_natToBits _ _) (by simp [maxBits, hhashes]; omega) (by simp)]
  apply CellBuilder.finalize_eq
  rw [← create_prunedData hlevel hn3, prunedData, hmask]
  rfl

/-- A cell can be pruned to any level above its own, up to the highest, and the pruned branch answers with the mask,
the hashes and the depths of the cell for every level below. -/
theorem doCreatePrunedBranch_shows {c : Cell} {n : Nat} (hc : c.Created) (hlevel : c.levelMask.getLevel < n) (hn : n ≤ maxLevel) :
    ∃ p, CellBuilder.doCreatePrunedBranch c n maxLevel = .ok p ∧ Valid p ∧ p.refs = [] ∧ p.levelMask.getLevel = n ∧
      ∀ i < n, p.levelMask.apply i = c.levelMask.apply i ∧ p.getHash i = c.getHash i ∧ p.getDepth i = c.getDepth i := by
  have hcreate := doCreatePrunedBranch_eq hlevel hn
  obtain ⟨hv, -, hn', hview⟩ := doCreatePrunedBranch_ok hc (hn.trans (by decide)) hcreate
  refine ⟨_, hcreate, hv, rfl, hn', fun i hi => ?_⟩
  have hsame := hview i hi (hi.le.trans hn)
  exact ⟨hsame.mask, hsame.hash i le_rfl, hsame.depths i le_rfl⟩

end Prunable

/-! ## Nodes over pruned branches -/

theorem levelMask_testBit {c : Cell} (hlib : c.specialType ≠ .library)
    (hp : c.specialType ≠ .prunnedBranch) (k : Nat) :
    c.levelMask.mask.testBit k = true ↔ ∃ r ∈ c.refs, r.levelMask.mask.testBit (c.specialType.childLevel k) = true := by
  have hfold : ∀ j, ((c.refs.map info).foldl (fun (m : LevelMask) c => m.applyOr c.levelMask) (⟨0⟩ : LevelMask)).mask.testBit j =
      true ↔ ∃ r ∈ c.refs, r.levelMask.mask.testBit j = true := by
    intro j
    rw [testBit_foldl_applyOr]
    simp [levelMask]
  rw [levelMask_eq]
  cases ht : c.specialType with
  | library => exact absurd ht hlib
  | prunnedBranch => exact absurd ht hp
  | ordinary => exact hfold k
  | merkleProof | merkleUpdate =>
    simpa [CellInfo.maskOf, LevelMask.shiftRight, Nat.testBit_div_two, SpecialType.childLevel, SpecialType.isMerkle] using
      hfold (k + 1)

section Node

variable {p c : Cell} {d : Nat}

/-- A bit of a mask below the depth from which two cells look alike. -/
theorem SameView.testBit (h : SameView d p c) {k : Nat} (hk : k < d) :
    p.levelMask.mask.testBit k = c.levelMask.mask.testBit k := by
  have hmask := congrArg (fun m => m.mask.testBit k) h.mask
  simpa [LevelMask.apply, Nat.testBit_mod_two_pow, hk] using hmask

/-- Nodes with the same data look alike if their references do. -/
theorem sameView_node (hp : p.Created) (hc : c.Created) (hbare : c.specialType = .library → c.refs = [])
    (hs : p.special = c.special) (hd : p.data = c.data)
    (h : List.Forall₂ (SameView (c.specialType.childLevel d)) p.refs c.refs) : SameView d p c := by
  have htype := specialType_congr hs hd
  have hlen := h.length_eq
  by_cases hnil : c.refs = []
  · -- a leaf stays what it is
    have hpnil : p.refs = [] := List.length_eq_zero_iff.1 (by rw [hlen, hnil]; rfl)
    obtain ⟨s, data, refs⟩ := p
    obtain ⟨s', data', refs'⟩ := c
    obtain rfl : s = s' := hs
    obtain rfl : data = data' := hd
    obtain rfl : refs = refs' := hpnil.trans hnil.symm
    exact SameView.refl d _
  have hlib : c.specialType ≠ .library := fun hl => hnil (hbare hl)
  have hpruned : c.specialType ≠ .prunnedBranch := fun hp => hnil (hc.pruned hp).1
  have hpa : ∀ i, p.Answers i := fun i hpp => absurd (htype ▸ hpp) hpruned
  have hca : ∀ i, c.Answers i := fun i hpp => absurd hpp hpruned
  have hmask : p.levelMask.apply d = c.levelMask.apply d := by
    rw [LevelMask.apply, LevelMask.apply, LevelMask.mk.injEq]
    apply Nat.eq_of_testBit_eq
    intro k
    rw [Nat.testBit_mod_two_pow, Nat.testBit_mod_two_pow]
    by_cases hk : k < d
    · congr 1
      rw [Bool.eq_iff_iff, levelMask_testBit (htype ▸ hlib) (htype ▸ hpruned), levelMask_testBit hlib hpruned, htype]
      have hbit : List.Forall₂ (fun a b : Cell => a.levelMask.mask.testBit (c.specialType.childLevel k) =
          b.levelMask.mask.testBit (c.specialType.childLevel k)) p.refs c.refs :=
        h.imp fun a b hab => hab.testBit (SpecialType.childLevel_lt_childLevel.2 hk)
      constructor
      · rintro ⟨a, ha, habit⟩
        obtain ⟨b, hb, hab⟩ := exists_mem_right_of_forall₂ hbit ha
        exact ⟨b, hb, hab ▸ habit⟩
      · rintro ⟨b, hb, hbbit⟩
        obtain ⟨a, ha, hab⟩ := exists_mem_right_of_forall₂ hbit.flip hb
        exact ⟨a, ha, hab.trans hbbit⟩
    · simp [hk]
  have hmaski : ∀ i ≤ d, p.levelMask.apply i = c.levelMask.apply i := by
    intro i hi
    rw [← LevelMask.apply_apply_of_le _ hi, hmask, LevelMask.apply_apply_of_le _ hi]
  have hle : ∀ i ≤ d, c.specialType.childLevel (c.levelMask.apply i).getLevel ≤ c.specialType.childLevel d := fun i hi =>
    SpecialType.childLevel_le_childLevel.2 ((LevelMask.getLevel_apply_le _ _).trans hi)
  have hdepths : ∀ i ≤ d, p.refs.map (fun r => r.getDepth (c.specialType.childLevel (c.levelMask.apply i).getLevel)) =
      c.refs.map fun r => r.getDepth (c.specialType.childLevel (c.levelMask.apply i).getLevel) := by
    intro i hi
    exact map_eq_map_of_forall₂ (h.imp fun a b hab => hab.depths _ (hle i hi))
  refine ⟨hmask, ?_, ?_⟩
  · intro i
    induction i using Nat.strong_induction_on with
    | _ i ih =>
      intro hi
      have hcontent : p.content (p.levelMask.apply i).getLevel = c.content (c.levelMask.apply i).getLevel := by
        rw [hmaski i hi, content, content, htype, hd]
        split
        · rfl
        · next hne =>
          have hlow := c.levelMask.getLevel_apply_le i
          rw [ih _ (by omega) (by omega)]
      have hhashes : p.refs.map (fun r => r.getHash (c.specialType.childLevel (c.levelMask.apply i).getLevel)) =
          c.refs.map fun r => r.getHash (c.specialType.childLevel (c.levelMask.apply i).getLevel) :=
        map_eq_map_of_forall₂ (h.imp fun a b hab => hab.hash _ (hle i hi))
      have hdflat := congrArg (List.flatMap CellInfo.storeDepth) (hdepths i hi)
      have hhflat := congrArg (List.flatMap CellInfo.hashToBytes) hhashes
      rw [List.flatMap_map, List.flatMap_map] at hdflat hhflat
      rw [getHash_eq hp.mask (hpa i), getHash_eq hc.mask (hca i)]
      congr 1
      rw [hashed, hashed, hcontent, hs, hd, hlen, hmaski i hi, htype]
      exact congrArg₂ (· ++ ·) (congrArg₂ (· ++ ·) rfl hdflat) hhflat
  · intro i hi
    have hempty : p.refs.isEmpty = c.refs.isEmpty := by
      rw [Bool.eq_iff_iff, List.isEmpty_iff_length_eq_zero, List.isEmpty_iff_length_eq_zero, hlen]
    rw [getDepth_eq hp.mask (hpa i), getDepth_eq hc.mask (hca i), hempty, hmaski i hi, htype, hdepths i hi]

end Node

end Cell

namespace Cell.Sample

theorem doCreatePrunedBranch_shows_branch : ∃ p,
    @CellBuilder.doCreatePrunedBranch digest branch 1 maxLevel = .ok p ∧ @Valid digest p ∧ p.refs = [] ∧
      (@levelMask digest p).getLevel = 1 ∧ ∀ i < 1,
        (@levelMask digest p).apply i = (@levelMask digest branch).apply i ∧
          @getHash digest p i = @getHash digest branch i ∧
          @getDepth digest p i = @getDepth digest branch i :=
  @doCreatePrunedBranch_shows digest branch 1 (@Valid.created digest _ (by decide +kernel))
    (by decide +kernel) (by decide)

end Cell.Sample

end TonWallet.Vm
