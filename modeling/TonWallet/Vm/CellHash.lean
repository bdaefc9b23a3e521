/-
The hashes of a cell (`vm/cells/DataCell`): the byte string each of them is taken of, what these byte strings say
about the cell, and what `DataCell::create` guarantees of the cells it makes. A hash at a level commits to the data,
to the mask up to that level and to the hashes and depths of the references one level deeper under a Merkle cell.
-/
import TonWallet.Vm.CellBuilder
import TonWallet.Lib.PackBits

namespace TonWallet.Vm

open Lib TonWallet.Td TonWallet.Ton

/-! ## Level masks -/

/-- The level the references of a cell of this type are looked at from a level of the cell. -/
def SpecialType.childLevel (t : SpecialType) (level : Nat) : Nat := if t.isMerkle then level + 1 else level

namespace SpecialType

theorem childLevel_lt_childLevel {t : SpecialType} {i j : Nat} : t.childLevel i < t.childLevel j ↔ i < j := by
  unfold childLevel
  split <;> omega

theorem childLevel_le_childLevel {t : SpecialType} {i j : Nat} : t.childLevel i ≤ t.childLevel j ↔ i ≤ j := by
  unfold childLevel
  split <;> omega

end SpecialType

namespace LevelMask

theorem lt_two_pow_getLevel (m : LevelMask) : m.mask < 2 ^ m.getLevel := by
  unfold getLevel
  split
  · simp [*]
  · exact Nat.lt_log2_self

theorem getLevel_le_iff_lt {m : LevelMask} {i : Nat} : m.getLevel ≤ i ↔ m.mask < 2 ^ i := by
  constructor
  · intro h
    exact m.lt_two_pow_getLevel.trans_le (Nat.pow_le_pow_right Nat.two_pos h)
  · intro h
    unfold getLevel
    split
    · exact Nat.zero_le i
    · next hne => exact (Nat.log2_lt hne).2 h

theorem getLevel_eq_zero_iff {m : LevelMask} : m.getLevel = 0 ↔ m.mask = 0 := by
  rw [← Nat.le_zero, getLevel_le_iff_lt, pow_zero, Nat.lt_one_iff]

theorem apply_of_getLevel_le {m : LevelMask} {i : Nat} (h : m.getLevel ≤ i) : m.apply i = m := by
  rw [apply, Nat.mod_eq_of_lt (getLevel_le_iff_lt.1 h)]

theorem getLevel_apply_le (m : LevelMask) (i : Nat) : (m.apply i).getLevel ≤ i :=
  getLevel_le_iff_lt.2 (Nat.mod_lt _ (Nat.two_pow_pos i))

theorem apply_apply_of_le (m : LevelMask) {i j : Nat} (h : j ≤ i) : (m.apply i).apply j = m.apply j := by
  simp only [apply, Nat.mod_mod_of_dvd _ (Nat.pow_dvd_pow 2 h)]

theorem apply_getLevel_apply (m : LevelMask) (i : Nat) : m.apply (m.apply i).getLevel = m.apply i := by
  rw [← m.apply_apply_of_le (m.getLevel_apply_le i), apply_of_getLevel_le le_rfl]

/-- No cell has a hash of its own above the highest level. -/
theorem apply_eq_apply_three {m : LevelMask} (hm : m.mask < 8) {i : Nat} (hi : 3 ≤ i) : m.apply i = m.apply 3 := by
  have h3 : m.getLevel ≤ 3 := getLevel_le_iff_lt.2 hm
  rw [apply_of_getLevel_le h3, apply_of_getLevel_le (h3.trans hi)]

/-- Where the hash answered for a level is among the hashes of a cell. -/
theorem getElem?_significantLevels {m : LevelMask} (hm : m.mask < 8) (i : Nat) :
    m.significantLevels[(m.apply i).getHashI]? = some (m.apply i).getLevel := by
  have hsmall : ∀ n < 8, ∀ i < 4,
      (LevelMask.mk n).significantLevels[((LevelMask.mk n).apply i).getHashI]? = some ((LevelMask.mk n).apply i).getLevel := by
    decide +kernel
  rcases lt_or_ge i 4 with hi | hi
  · exact hsmall m.mask hm i hi
  · rw [apply_eq_apply_three hm (by omega)]
    exact hsmall m.mask hm 3 (by decide)

/-- The hash before the one answered for a level is that of the level below. -/
theorem getHashI_apply {m : LevelMask} (hm : m.mask < 8) (i : Nat) :
    (m.apply i).getHashI =
      if (m.apply i).getLevel = 0 then 0 else (m.apply ((m.apply i).getLevel - 1)).getHashI + 1 := by
  have hsmall : ∀ n < 8, ∀ i < 4, ((LevelMask.mk n).apply i).getHashI = if ((LevelMask.mk n).apply i).getLevel = 0 then 0
      else ((LevelMask.mk n).apply (((LevelMask.mk n).apply i).getLevel - 1)).getHashI + 1 := by
    decide +kernel
  rcases lt_or_ge i 4 with hi | hi
  · exact hsmall m.mask hm i hi
  · rw [apply_eq_apply_three hm (by omega)]
    exact hsmall m.mask hm 3 (by decide)

/-- Fewer hashes are below a level the mask reaches than there are. -/
theorem getHashI_apply_eq_iff {m : LevelMask} (hm : m.mask < 8) (i : Nat) :
    (m.apply i).getHashI = m.getHashI ↔ m.getLevel ≤ i := by
  have hsmall : ∀ n < 8, ∀ i < 4,
      ((LevelMask.mk n).apply i).getHashI = (LevelMask.mk n).getHashI ↔ (LevelMask.mk n).getLevel ≤ i := by
    decide +kernel
  rcases lt_or_ge i 4 with hi | hi
  · exact hsmall m.mask hm i hi
  · have h3 : m.getLevel ≤ 3 := getLevel_le_iff_lt.2 hm
    rw [apply_of_getLevel_le (h3.trans (by omega))]
    exact iff_of_true rfl (h3.trans (by omega))

/-- Every level a reference has a hash of its own for is one of the cell it is a reference of. -/
def Covers (t : SpecialType) (m n : LevelMask) : Prop :=
  ∀ k, n.mask.testBit (t.childLevel k) = true → m.mask.testBit k = true

/-- Between two levels of a cell its references have no hashes either. -/
theorem apply_childLevel {t : SpecialType} {m n : LevelMask} (h : Covers t m n) (i : Nat) :
    n.apply (t.childLevel i) = n.apply (t.childLevel (m.apply i).getLevel) := by
  have hle := m.getLevel_apply_le i
  rw [← n.apply_apply_of_le (i := t.childLevel i) (j := t.childLevel (m.apply i).getLevel)
    (by unfold SpecialType.childLevel; split <;> omega)]
  apply Eq.symm
  apply apply_of_getLevel_le
  rw [getLevel_le_iff_lt]
  apply Nat.lt_pow_two_of_testBit
  intro k hk
  simp only [apply, Nat.testBit_mod_two_pow, Bool.and_eq_false_iff, decide_eq_false_iff_not]
  by_contra hcon
  push Not at hcon
  obtain ⟨hlt, hbit⟩ := hcon
  -- the bit of the reference comes from a bit of the cell below the level, but there is none from there on
  obtain ⟨j, rfl, hj⟩ : ∃ j, k = t.childLevel j ∧ j < i ∧ (m.apply i).getLevel ≤ j := by
    unfold SpecialType.childLevel at hk hlt ⊢
    split at hk
    · exact ⟨k - 1, by rw [if_pos (by assumption)]; omega, by rw [if_pos (by assumption)] at hlt; omega, by omega⟩
    · exact ⟨k, by rw [if_neg (by assumption)], by rwa [if_neg (by assumption)] at hlt, hk⟩
  have hm : (m.apply i).mask.testBit j = true := by
    simp only [apply, Nat.testBit_mod_two_pow, hj.1, decide_true, Bool.true_and]
    exact h j (by simpa using hbit)
  rw [Nat.testBit_lt_two_pow (getLevel_le_iff_lt.1 hj.2)] at hm
  cases hm

end LevelMask

/-! ## The loop over the levels -/

variable [Digest]

namespace CellInfo

/-- The data is fed to the first round, the hash of the round before to the others. -/
def fed (data : List Bool) : Option Bits256 → List UInt8
  | none => packBits data
  | some h => hashToBytes h

/-- What one round of the loop of `DataCell::create` hashes. -/
def levelBytes (special : Bool) (type : SpecialType) (mask : LevelMask) (data : List Bool) (children : List CellInfo)
    (prev : Option Bits256) (level : Nat) : List UInt8 :=
  [d1 special children.length (mask.apply level), d2 data.length] ++
    fed data prev ++
    (children.map (·.getDepth (type.childLevel level))).flatMap storeDepth ++
    children.flatMap fun c => hashToBytes (c.getHash (type.childLevel level))

def levelDepth (type : SpecialType) (children : List CellInfo) (level : Nat) : Nat :=
  if children.isEmpty then 0 else (children.map (·.getDepth (type.childLevel level))).foldl max 0 + 1

theorem hashLevels_cons (special : Bool) (type : SpecialType) (mask : LevelMask) (data : List Bool)
    (children : List CellInfo) (level : Nat) (levels : List Nat) (prev : Option Bits256) :
    hashLevels special type mask data children (level :: levels) prev =
      (Digest.sha256 (levelBytes special type mask data children prev level), levelDepth type children level) ::
        hashLevels special type mask data children levels
          (some (Digest.sha256 (levelBytes special type mask data children prev level))) := rfl

/-- Each round after the first feeds the hash of the round before. -/
theorem getElem?_hashLevels (special : Bool) (type : SpecialType) (mask : LevelMask) (data : List Bool)
    (children : List CellInfo) (levels : List Nat) (prev : Option Bits256) (k : Nat) :
    (hashLevels special type mask data children levels prev)[k]? = levels[k]?.map fun level =>
      (Digest.sha256 (levelBytes special type mask data children
        (if k = 0 then prev else (hashLevels special type mask data children levels prev)[k - 1]?.map (·.1)) level),
        levelDepth type children level) := by
  induction levels generalizing prev k with
  | nil => simp [hashLevels]
  | cons level levels ih =>
    rw [hashLevels_cons]
    cases k with
    | zero => simp
    | succ k =>
      rw [List.getElem?_cons_succ, ih, List.getElem?_cons_succ]
      cases k with
      | zero => simp
      | succ k => simp

end CellInfo

/-! ## The hashes of a cell -/

namespace Cell

/-- What stands for the data in the byte string of a level: the data, or the hash of the level below. -/
def content (c : Cell) (level : Nat) : List UInt8 :=
  if level = 0 ∨ c.specialType = .prunnedBranch then packBits c.data else CellInfo.hashToBytes (c.getHash (level - 1))

/-- The byte string the hash answered for a level is taken of. -/
def hashed (c : Cell) (i : Nat) : List UInt8 :=
  [CellInfo.d1 c.special c.refs.length (c.levelMask.apply i), CellInfo.d2 c.data.length] ++
    c.content (c.levelMask.apply i).getLevel ++
    (c.refs.flatMap fun r => CellInfo.storeDepth (r.getDepth (c.specialType.childLevel (c.levelMask.apply i).getLevel))) ++
    c.refs.flatMap fun r => CellInfo.hashToBytes (r.getHash (c.specialType.childLevel (c.levelMask.apply i).getLevel))

theorem info_eq (c : Cell) : c.info = CellInfo.ofNode c.special c.data (c.refs.map info) := by
  obtain ⟨special, data, refs⟩ := c
  rw [info, infos_eq_map]
  rfl

theorem info_type (c : Cell) : c.info.type = c.specialType := by
  rw [info_eq]
  rfl

theorem info_data (c : Cell) : c.info.data = c.data := by
  rw [info_eq]
  rfl

theorem levelMask_eq (c : Cell) : c.levelMask = CellInfo.maskOf c.specialType c.data (c.refs.map info) := by
  rw [levelMask, info_eq]
  rfl

/-- The rounds that make up the hashes and depths of a cell. -/
def rounds (c : Cell) : List (Bits256 × Nat) :=
  CellInfo.hashLevels c.special c.specialType c.levelMask c.data (c.refs.map info)
    (if c.specialType = .prunnedBranch then [c.levelMask.getLevel] else c.levelMask.significantLevels) none

theorem hashes_eq (c : Cell) : c.info.hashes = c.rounds.map (·.1) := by
  rw [rounds, levelMask_eq, info_eq]
  rfl

theorem depths_eq (c : Cell) : c.info.depths = c.rounds.map (·.2) := by
  rw [rounds, levelMask_eq, info_eq]
  rfl

/-- Which round answers for a level. -/
def roundOf (c : Cell) (i : Nat) : Nat :=
  if c.specialType = .prunnedBranch then 0 else (c.levelMask.apply i).getHashI

/-- A pruned branch answers for its own level and above; other cells for every level. -/
def Answers (c : Cell) (i : Nat) : Prop := c.specialType = .prunnedBranch → c.levelMask.getLevel ≤ i

theorem getHash_eq_rounds {c : Cell} (hmask : c.levelMask.mask < 8) {i : Nat} (h : c.Answers i) :
    c.getHash i = (c.rounds.map (·.1)).getD (c.roundOf i) 0 := by
  rw [getHash, CellInfo.getHash, info_type, hashes_eq, roundOf]
  by_cases hp : c.specialType = .prunnedBranch
  · have hi : (c.info.levelMask.apply i).getHashI = c.info.levelMask.getHashI :=
      (LevelMask.getHashI_apply_eq_iff hmask i).2 (h hp)
    simp only [hp, if_true, hi, ne_eq, not_true, if_false]
  · simp only [hp, if_false, levelMask]

theorem getDepth_eq_rounds {c : Cell} (hmask : c.levelMask.mask < 8) {i : Nat} (h : c.Answers i) :
    c.getDepth i = (c.rounds.map (·.2)).getD (c.roundOf i) 0 := by
  rw [getDepth, CellInfo.getDepth, info_type, depths_eq, roundOf]
  by_cases hp : c.specialType = .prunnedBranch
  · have hi : (c.info.levelMask.apply i).getHashI = c.info.levelMask.getHashI :=
      (LevelMask.getHashI_apply_eq_iff hmask i).2 (h hp)
    simp only [hp, if_true, hi, ne_eq, not_true, if_false]
  · simp only [hp, if_false, levelMask]

/-- The round that answers for a level. -/
theorem getElem?_rounds {c : Cell} (hmask : c.levelMask.mask < 8) {i : Nat} (h : c.Answers i) :
    c.rounds[c.roundOf i]? = some (Digest.sha256 (c.hashed i),
      if c.refs.isEmpty then 0
      else (c.refs.map fun r => r.getDepth (c.specialType.childLevel (c.levelMask.apply i).getLevel)).foldl max 0 + 1) := by
  have hlevel : (if c.specialType = .prunnedBranch then [c.levelMask.getLevel] else c.levelMask.significantLevels)[c.roundOf i]? =
      some (c.levelMask.apply i).getLevel := by
    rw [roundOf]
    by_cases hp : c.specialType = .prunnedBranch
    · simp only [hp, if_true, List.getElem?_cons_zero, LevelMask.apply_of_getLevel_le (h hp)]
    · simp only [hp, if_false, LevelMask.getElem?_significantLevels hmask]
  have hcontent : CellInfo.fed c.data (if c.roundOf i = 0 then none else c.rounds[c.roundOf i - 1]?.map (·.1)) =
      c.content (c.levelMask.apply i).getLevel := by
    rw [content, roundOf]
    by_cases hp : c.specialType = .prunnedBranch
    · simp only [hp, if_true, or_true, CellInfo.fed]
    · simp only [hp, if_false, or_false]
      rw [LevelMask.getHashI_apply hmask i]
      by_cases h0 : (c.levelMask.apply i).getLevel = 0
      · simp only [h0, if_true, CellInfo.fed]
      · have hprev : c.rounds[(c.levelMask.apply ((c.levelMask.apply i).getLevel - 1)).getHashI]?.isSome := by
          rw [rounds, CellInfo.getElem?_hashLevels, if_neg hp, LevelMask.getElem?_significantLevels hmask]
          rfl
        obtain ⟨round, hround⟩ := Option.isSome_iff_exists.1 hprev
        rw [getHash_eq_rounds hmask (fun h => absurd h hp), roundOf, if_neg hp]
        simp [h0, hround, CellInfo.fed]
  have hround : c.rounds[c.roundOf i]? = (if c.specialType = .prunnedBranch then [c.levelMask.getLevel]
        else c.levelMask.significantLevels)[c.roundOf i]?.map fun level =>
      (Digest.sha256 (CellInfo.levelBytes c.special c.specialType c.levelMask c.data (c.refs.map info)
        (if c.roundOf i = 0 then none else c.rounds[c.roundOf i - 1]?.map (·.1)) level),
        CellInfo.levelDepth c.specialType (c.refs.map info) level) :=
    CellInfo.getElem?_hashLevels ..
  rw [hround, hlevel, Option.map_some, Option.some_inj, Prod.mk.injEq]
  constructor
  · rw [CellInfo.levelBytes, hcontent, hashed, LevelMask.apply_getLevel_apply, List.length_map, List.map_map,
      List.flatMap_map, List.flatMap_map]
    rfl
  · rw [CellInfo.levelDepth, List.isEmpty_map, List.map_map]
    rfl

/-- A hash is taken of its byte string. -/
theorem getHash_eq {c : Cell} (hmask : c.levelMask.mask < 8) {i : Nat} (h : c.Answers i) :
    c.getHash i = Digest.sha256 (c.hashed i) := by
  rw [getHash_eq_rounds hmask h, List.getD_eq_getElem?_getD, List.getElem?_map, getElem?_rounds hmask h]
  rfl

/-- A cell is one deeper than its references. -/
theorem getDepth_eq {c : Cell} (hmask : c.levelMask.mask < 8) {i : Nat} (h : c.Answers i) :
    c.getDepth i = if c.refs.isEmpty then 0
      else (c.refs.map fun r => r.getDepth (c.specialType.childLevel (c.levelMask.apply i).getLevel)).foldl max 0 + 1 := by
  rw [getDepth_eq_rounds hmask h, List.getD_eq_getElem?_getD, List.getElem?_map, getElem?_rounds hmask h]
  rfl

/-- Hashes are answered by the mask up to a level alone. -/
theorem getHash_congr {c : Cell} {i j : Nat} (h : c.levelMask.apply i = c.levelMask.apply j) : c.getHash i = c.getHash j := by
  simp only [getHash, CellInfo.getHash]
  rw [show c.info.levelMask.apply i = c.info.levelMask.apply j from h]

theorem getDepth_congr {c : Cell} {i j : Nat} (h : c.levelMask.apply i = c.levelMask.apply j) :
    c.getDepth i = c.getDepth j := by
  simp only [getDepth, CellInfo.getDepth]
  rw [show c.info.levelMask.apply i = c.info.levelMask.apply j from h]

end Cell

/-! ## What `create` guarantees -/

omit [Digest] in
/-- A mask put together from others has the bits of each of them. -/
theorem testBit_foldl_applyOr (infos : List CellInfo) (m : LevelMask) (k : Nat) :
    (infos.foldl (fun (m : LevelMask) c => m.applyOr c.levelMask) m).mask.testBit k = true ↔
      m.mask.testBit k = true ∨ ∃ i ∈ infos, i.levelMask.mask.testBit k = true := by
  induction infos generalizing m with
  | nil => simp
  | cons i infos ih =>
    rw [List.foldl_cons, ih, LevelMask.applyOr]
    simp [Nat.testBit_or, or_assoc]

/-- What the data of a Merkle cell says about its references: the lowest hash and depth of each. -/
def SpecialType.stated (t : SpecialType) (data : List Bool) : List (Nat × Nat) :=
  match t with
  | .merkleProof => [(CellInfo.load data 8 hashBits, CellInfo.load data (8 + hashBits) 16)]
  | .merkleUpdate =>
    [(CellInfo.load data 8 hashBits, CellInfo.load data (8 + 2 * hashBits) 16),
      (CellInfo.load data (8 + hashBits) hashBits, CellInfo.load data (8 + 2 * hashBits + 16) 16)]
  | _ => []

namespace Cell

/-- What holds of every cell that `DataCell::create` makes. -/
structure Created (c : Cell) : Prop where
  mask : c.levelMask.mask < 8
  bits : c.data.length ≤ maxBits
  refs : c.refs.length ≤ maxRefs
  ordinary : c.special = false ↔ c.specialType = .ordinary
  pruned : c.specialType = .prunnedBranch → c.refs = [] ∧ c.levelMask.mask ≠ 0
  merkle : c.specialType.isMerkle = true →
    c.refs ≠ [] ∧ c.refs.map (fun r => ((r.getHash 0).toNat, r.getDepth 0)) = c.specialType.stated c.data
  depths : ∀ d ∈ c.info.depths, d ≤ maxDepth

/-- The part of `DataCell::create` that does not depend on the type. -/
theorem create_rest_ok {data : List Bool} {refs : List Cell} {cell c : Cell}
    (h : (do
      failIf (maxBits < data.length) "Too many bits"
      failIf (maxRefs < refs.length) "Too many cell references"
      check (cell.levelMask.getLevel ≤ maxLevel) "level_mask.get_level() <= max_level"
      failIf (cell.info.depths.any (maxDepth < ·)) "Depth is too big"
      return cell : Result Cell) = .ok c) :
    c = cell ∧ data.length ≤ maxBits ∧ refs.length ≤ maxRefs ∧ cell.levelMask.mask < 8 ∧
      ∀ d ∈ cell.info.depths, d ≤ maxDepth := by
  obtain ⟨_, hbits, h⟩ := bind_ok h
  obtain ⟨_, hrefs, h⟩ := bind_ok h
  obtain ⟨_, hlevel, h⟩ := bind_ok h
  obtain ⟨_, hdepth, h⟩ := bind_ok h
  simp only [failIf_ok_iff, Nat.not_lt] at hbits hrefs
  rw [check_ok_iff] at hlevel
  rw [failIf_ok_iff, Bool.not_eq_true, List.any_eq_false] at hdepth
  cases h
  exact ⟨rfl, hbits, hrefs, (LevelMask.getLevel_le_iff _).1 hlevel, fun d hd => by simpa using hdepth d hd⟩

/-- A cell that was made has the data and references asked for, within the bounds; a special one passed the checks
of its type. -/
theorem create_ok {special : Bool} {data : List Bool} {refs : List Cell} {c : Cell} (h : create special data refs = .ok c) :
    c = .mk special data refs ∧ data.length ≤ maxBits ∧ refs.length ≤ maxRefs ∧ c.levelMask.mask < 8 ∧
      (∀ d ∈ c.info.depths, d ≤ maxDepth) ∧
      (special = true → 8 ≤ data.length ∧ ∃ t, SpecialType.ofCode (CellInfo.load data 0 8) = some t ∧ t ≠ .ordinary ∧
        checkSpecial t data refs = .ok ()) := by
  unfold create at h
  cases special with
  | false =>
    obtain ⟨rfl, hbits, hrefs, hmask, hdepths⟩ := create_rest_ok h
    exact ⟨rfl, hbits, hrefs, hmask, hdepths, fun h => nomatch h⟩
  | true =>
    rw [if_pos rfl] at h
    obtain ⟨_, hlen, h⟩ := bind_ok h
    rw [failIf_ok_iff, Nat.not_lt] at hlen
    split at h
    · cases h
    · next t hne ht =>
      obtain ⟨_, hcheck, h⟩ := bind_ok h
      obtain ⟨rfl, hbits, hrefs, hmask, hdepths⟩ := create_rest_ok h
      exact ⟨rfl, hbits, hrefs, hmask, hdepths, fun _ => ⟨hlen, t, ht, fun heq => hne (heq ▸ rfl), hcheck⟩⟩
    · cases h

/-- What passes all checks is made. -/
theorem create_eq {special : Bool} {data : List Bool} {refs : List Cell}
    (hspecial : special = true → 8 ≤ data.length ∧ ∃ t, SpecialType.ofCode (CellInfo.load data 0 8) = some t ∧
      t ≠ .ordinary ∧ checkSpecial t data refs = .ok ())
    (hbits : data.length ≤ maxBits) (hrefs : refs.length ≤ maxRefs) (hmask : (Cell.mk special data refs).levelMask.mask < 8)
    (hdepths : ∀ d ∈ (Cell.mk special data refs).info.depths, d ≤ maxDepth) :
    create special data refs = .ok (.mk special data refs) := by
  have hlevel := (LevelMask.getLevel_le_iff _).2 hmask
  have hany : (Cell.mk special data refs).info.depths.any (maxDepth < ·) = false := by
    rw [List.any_eq_false]
    intro d hd
    simpa using hdepths d hd
  have hrest : (do
      failIf (maxBits < data.length) "Too many bits"
      failIf (maxRefs < refs.length) "Too many cell references"
      check ((Cell.mk special data refs).levelMask.getLevel ≤ maxLevel) "level_mask.get_level() <= max_level"
      failIf ((Cell.mk special data refs).info.depths.any (maxDepth < ·)) "Depth is too big"
      return Cell.mk special data refs : Result Cell) = .ok (.mk special data refs) := by
    simp [failIf, check, not_lt.2 hbits, not_lt.2 hrefs, hlevel, hany, bind, Except.bind, pure, Except.pure]
  unfold create
  cases special with
  | false => exact hrest
  | true =>
    obtain ⟨hlen, t, ht, hne, hcheck⟩ := hspecial rfl
    rw [if_pos rfl, ht]
    have hlen' : failIf (data.length < 8) "Not enough data for a special cell" = .ok () := by
      simp [failIf, not_lt.2 hlen]
    rw [hlen']
    cases t with
    | ordinary => exact absurd rfl hne
    | prunnedBranch | library | merkleProof | merkleUpdate =>
      simp only [bind, Except.bind, hcheck]
      exact hrest

/-- A pruned branch has a level and no references. -/
theorem checkSpecial_prunnedBranch {data : List Bool} {refs : List Cell} (h : checkSpecial .prunnedBranch data refs = .ok ()) :
    refs = [] ∧ CellInfo.load data 8 8 ≠ 0 := by
  unfold checkSpecial at h
  obtain ⟨_, hrefs, h⟩ := bind_ok h
  obtain ⟨_, -, h⟩ := bind_ok h
  obtain ⟨_, hlevel, -⟩ := bind_ok h
  simp only [failIf_ok_iff, ne_eq, not_not, not_or] at hrefs hlevel
  exact ⟨List.length_eq_zero_iff.1 hrefs, fun h0 => hlevel.2 (LevelMask.getLevel_eq_zero_iff.2 h0)⟩

/-- A Merkle cell states the lowest hashes and depths of its references. -/
theorem checkSpecial_merkle {t : SpecialType} (hm : t.isMerkle = true) {data : List Bool} {refs : List Cell}
    (h : checkSpecial t data refs = .ok ()) :
    refs ≠ [] ∧ refs.map (fun r => ((r.getHash 0).toNat, r.getDepth 0)) = t.stated data := by
  cases t with
  | ordinary | prunnedBranch | library => cases hm
  | merkleProof =>
    unfold checkSpecial at h
    obtain ⟨_, -, h⟩ := bind_ok h
    split at h
    · obtain ⟨_, hhash, h⟩ := bind_ok h
      simp only [failIf_ok_iff, ne_eq, not_not] at hhash h
      simp [SpecialType.stated, hhash, h]
    · cases h
  | merkleUpdate =>
    unfold checkSpecial at h
    obtain ⟨_, -, h⟩ := bind_ok h
    split at h
    · obtain ⟨_, hhash, h⟩ := bind_ok h
      obtain ⟨_, hhash', h⟩ := bind_ok h
      obtain ⟨_, hdepth, h⟩ := bind_ok h
      simp only [failIf_ok_iff, ne_eq, not_not] at hhash hhash' hdepth h
      simp [SpecialType.stated, hhash, hhash', hdepth, h]
    · cases h

/-- The checks only look at the lowest hashes and depths of the references. -/
theorem checkSpecial_congr {t : SpecialType} {data : List Bool} {ps rs : List Cell}
    (h : List.Forall₂ (fun p r => p.getHash 0 = r.getHash 0 ∧ p.getDepth 0 = r.getDepth 0) ps rs) :
    checkSpecial t data ps = checkSpecial t data rs := by
  cases t with
  | ordinary | library => rfl
  | prunnedBranch =>
    unfold checkSpecial
    rw [h.length_eq]
  | merkleProof =>
    unfold checkSpecial
    cases h with
    | nil => rfl
    | cons hp h =>
      cases h with
      | nil => simp only [hp.1, hp.2]
      | cons _ _ => rfl
  | merkleUpdate =>
    unfold checkSpecial
    cases h with
    | nil => rfl
    | cons hp h =>
      cases h with
      | nil => rfl
      | cons hq h =>
        cases h with
        | nil => simp only [hp.1, hp.2, hq.1, hq.2]
        | cons _ _ => rfl

theorem created_of_create {special : Bool} {data : List Bool} {refs : List Cell} {c : Cell}
    (h : create special data refs = .ok c) : c.Created := by
  obtain ⟨rfl, hbits, hrefs, hmask, hdepths, hspecial⟩ := create_ok h
  have htype : special = true → ∃ t, (Cell.mk special data refs).specialType = t ∧ t ≠ .ordinary ∧
      checkSpecial t data refs = .ok () := by
    rintro rfl
    obtain ⟨-, t, ht, hne, hcheck⟩ := hspecial rfl
    refine ⟨t, ?_, hne, hcheck⟩
    simp [specialType, Cell.special, Cell.data, ht]
  refine ⟨hmask, hbits, hrefs, ?_, ?_, ?_, hdepths⟩
  · cases special with
    | false => exact iff_of_true rfl rfl
    | true =>
      obtain ⟨t, ht, hne, -⟩ := htype rfl
      exact iff_of_false (by simp [Cell.special]) (ht ▸ hne)
  · intro hp
    cases special with
    | false => cases hp
    | true =>
      obtain ⟨t, rfl, -, hcheck⟩ := htype rfl
      rw [hp] at hcheck
      obtain ⟨hnil, hload⟩ := checkSpecial_prunnedBranch hcheck
      refine ⟨hnil, ?_⟩
      rw [levelMask_eq, hp]
      exact hload
  · intro hm
    cases special with
    | false => cases hm
    | true =>
      obtain ⟨t, rfl, -, hcheck⟩ := htype rfl
      exact checkSpecial_merkle hm hcheck

namespace Valid

theorem created {c : Cell} (h : Valid c) : c.Created := by
  obtain ⟨-, h⟩ := h
  exact created_of_create h

theorem of_mem_refs {c r : Cell} (h : Valid c) (hr : r ∈ c.refs) : Valid r := by
  obtain ⟨h, -⟩ := h
  exact h r hr

end Valid

/-- Every level a reference has a hash of its own for is one of the cell's, except for a library cell. -/
theorem Created.covers {c : Cell} (h : c.Created) (hlib : c.specialType ≠ .library) {r : Cell} (hr : r ∈ c.refs) :
    LevelMask.Covers c.specialType c.levelMask r.levelMask := by
  intro k hk
  have hbit : ∀ j, r.levelMask.mask.testBit j = true →
      ((c.refs.map info).foldl (fun (m : LevelMask) c => m.applyOr c.levelMask) (⟨0⟩ : LevelMask)).mask.testBit j = true := by
    intro j hj
    exact (testBit_foldl_applyOr _ _ _).2 (.inr ⟨r.info, List.mem_map_of_mem hr, hj⟩)
  rw [levelMask_eq]
  cases ht : c.specialType with
  | library => exact absurd ht hlib
  | prunnedBranch =>
    rw [(h.pruned ht).1] at hr
    cases hr
  | ordinary =>
    rw [ht] at hk
    exact hbit k hk
  | merkleProof | merkleUpdate =>
    rw [ht] at hk
    simpa [CellInfo.maskOf, LevelMask.shiftRight, Nat.testBit_div_two] using hbit (k + 1) hk

/-- The depths of a cell fit two bytes, also those a pruned branch states. -/
theorem Created.getDepth_lt {c : Cell} (h : c.Created) (i : Nat) : c.getDepth i < 2 ^ 16 := by
  have hround : ∀ k, c.info.depths.getD k 0 < 2 ^ 16 := by
    intro k
    rw [List.getD_eq_getElem?_getD]
    cases hk : c.info.depths[k]? with
    | none => exact Nat.two_pow_pos 16
    | some d => exact (h.depths d (List.mem_of_getElem? hk)).trans_lt (by decide)
  rw [getDepth, CellInfo.getDepth]
  split
  · dsimp only
    split
    · apply (bitsToNat_lt _).trans_le
      apply Nat.pow_le_pow_right Nat.two_pos
      rw [List.length_take]
      exact Nat.min_le_left _ _
    · exact hround 0
  · exact hround _

/-- Between its levels a cell is one deeper than its references too, if it is no pruned branch. -/
theorem Created.getDepth_eq {c : Cell} (h : c.Created) (hp : c.specialType ≠ .prunnedBranch)
    (hlib : c.specialType = .library → c.refs = []) (i : Nat) :
    c.getDepth i = if c.refs.isEmpty then 0
      else (c.refs.map fun r => r.getDepth (c.specialType.childLevel i)).foldl max 0 + 1 := by
  rw [Cell.getDepth_eq h.mask (fun hpp => absurd hpp hp)]
  split
  · rfl
  · next hne =>
    have hlib' : c.specialType ≠ .library := fun hl => hne (by rw [hlib hl]; rfl)
    congr 2
    apply List.map_congr_left
    intro r hr
    exact (getDepth_congr (LevelMask.apply_childLevel (h.covers hlib' hr) i)).symm

/-- No cell is deeper than a cell may be, at the levels it answers for. -/
theorem Created.getDepth_le {c : Cell} (h : c.Created) {i : Nat} (hi : c.Answers i) : c.getDepth i ≤ maxDepth := by
  rw [getDepth_eq_rounds h.mask hi, ← depths_eq, List.getD_eq_getElem?_getD]
  cases hk : c.info.depths[c.roundOf i]? with
  | none => exact Nat.zero_le _
  | some d => exact h.depths d (List.mem_of_getElem? hk)

end Cell

/-! ## What a hashed byte string says -/

namespace CellInfo

omit [Digest]

/-- The first descriptor byte: the number of references, the special flag and the mask. -/
theorem d1_inj {s t : Bool} {a b : Nat} {m n : LevelMask} (ha : a ≤ maxRefs) (hb : b ≤ maxRefs) (hm : m.mask < 8)
    (hn : n.mask < 8) (h : d1 s a m = d1 t b n) : s = t ∧ a = b ∧ m = n := by
  unfold maxRefs at ha hb
  have hs := Bool.toNat_le s
  have ht := Bool.toNat_le t
  have hnat := congrArg UInt8.toNat h
  rw [d1, d1, UInt8.toNat_ofNat', UInt8.toNat_ofNat', Nat.mod_eq_of_lt (by omega), Nat.mod_eq_of_lt (by omega)] at hnat
  have hflag : s.toNat = t.toNat := by omega
  have hst : s = t := by cases s <;> cases t <;> first | rfl | cases hflag
  refine ⟨hst, by omega, ?_⟩
  obtain ⟨m⟩ := m
  obtain ⟨n⟩ := n
  rw [LevelMask.mk.injEq]
  dsimp only at hnat hm hn
  omega

/-- The second descriptor byte: the number of whole bytes, and whether there is another one. -/
theorem d2_inj {a b : Nat} (ha : a ≤ maxBits) (hb : b ≤ maxBits) (h : d2 a = d2 b) :
    (a + 7) / 8 = (b + 7) / 8 ∧ (a % 8 = 0 ↔ b % 8 = 0) := by
  have hlt : ∀ n ≤ maxBits, (n / 8 * 2 + if n % 8 = 0 then 0 else 1) < 2 ^ 8 := by
    intro n hn
    unfold maxBits at hn
    split <;> omega
  have hnat := congrArg UInt8.toNat h
  rw [d2, d2, UInt8.toNat_ofNat', UInt8.toNat_ofNat', Nat.mod_eq_of_lt (hlt a ha), Nat.mod_eq_of_lt (hlt b hb)] at hnat
  split at hnat <;> split at hnat <;> omega

theorem storeDepth_inj {a b : Nat} (ha : a < 2 ^ 16) (hb : b < 2 ^ 16) (h : storeDepth a = storeDepth b) : a = b := by
  simp only [storeDepth, List.cons.injEq, and_true] at h
  have hhigh := congrArg UInt8.toNat h.1
  have hlow := congrArg UInt8.toNat h.2
  rw [UInt8.toNat_ofNat', UInt8.toNat_ofNat'] at hhigh hlow
  omega

@[simp] theorem length_hashToBytes (h : Bits256) : (hashToBytes h).length = hashBytes := by
  rw [hashToBytes, length_packBits_eq, length_natToBits]
  rfl

theorem hashToBytes_inj {a b : Bits256} (h : hashToBytes a = hashToBytes b) : a = b := by
  have hbits := congrArg bitsToNat (packBits_inj (by simp) h)
  rw [bitsToNat_natToBits, bitsToNat_natToBits, Nat.mod_eq_of_lt a.isLt, Nat.mod_eq_of_lt b.isLt] at hbits
  exact BitVec.eq_of_toNat_eq hbits

end CellInfo

namespace Cell

/-- The descriptor bytes of two cells. -/
theorem hashed_head {p c : Cell} (hp : p.Created) (hc : c.Created) {i : Nat} (h : p.hashed i = c.hashed i) :
    p.special = c.special ∧ p.refs.length = c.refs.length ∧ p.levelMask.apply i = c.levelMask.apply i ∧
      (p.data.length + 7) / 8 = (c.data.length + 7) / 8 ∧ (p.data.length % 8 = 0 ↔ c.data.length % 8 = 0) := by
  simp only [hashed, List.append_assoc, List.cons_append, List.nil_append, List.cons.injEq] at h
  obtain ⟨hspecial, hrefs, hmask⟩ := CellInfo.d1_inj hp.refs hc.refs ((Nat.mod_le _ _).trans_lt hp.mask)
    ((Nat.mod_le _ _).trans_lt hc.mask) h.1
  exact ⟨hspecial, hrefs, hmask, CellInfo.d2_inj hp.bits hc.bits h.2.1⟩

theorem length_content {p c : Cell} (hlen : (p.data.length + 7) / 8 = (c.data.length + 7) / 8)
    (hpruned : p.specialType = .prunnedBranch ↔ c.specialType = .prunnedBranch) (level : Nat) :
    (p.content level).length = (c.content level).length := by
  unfold content
  by_cases h : level = 0 ∨ p.specialType = .prunnedBranch
  · rw [if_pos h, if_pos (by rwa [← hpruned]), length_packBits_eq, length_packBits_eq, hlen]
  · rw [if_neg h, if_neg (by rwa [← hpruned]), CellInfo.length_hashToBytes, CellInfo.length_hashToBytes]

/-- The byte string of a level commits to the content and to the hashes and depths of the references. -/
theorem hashed_inj {p c : Cell} (hp : p.Created) (hc : c.Created) (hvp : ∀ r ∈ p.refs, r.Created)
    (hvc : ∀ r ∈ c.refs, r.Created) (hpruned : p.specialType = .prunnedBranch ↔ c.specialType = .prunnedBranch) {i : Nat}
    (h : p.hashed i = c.hashed i) :
    p.content (p.levelMask.apply i).getLevel = c.content (c.levelMask.apply i).getLevel ∧
      List.Forall₂ (fun a b =>
        a.getHash (p.specialType.childLevel (p.levelMask.apply i).getLevel) =
            b.getHash (c.specialType.childLevel (c.levelMask.apply i).getLevel) ∧
          a.getDepth (p.specialType.childLevel (p.levelMask.apply i).getLevel) =
            b.getDepth (c.specialType.childLevel (c.levelMask.apply i).getLevel)) p.refs c.refs := by
  obtain ⟨-, hrefs, hmask, hlen, -⟩ := hashed_head hp hc h
  simp only [hashed, List.append_assoc, List.cons_append, List.nil_append, List.cons.injEq] at h
  have hstored : ∀ d, (CellInfo.storeDepth d).length = 2 := fun d => rfl
  obtain ⟨hcontent, hrest⟩ := List.append_inj h.2.2 (by rw [hmask]; exact length_content hlen hpruned _)
  obtain ⟨hdepths, hhashes⟩ := List.append_inj hrest (by
    rw [length_flatMap_const fun r => hstored _, length_flatMap_const fun r => hstored _, hrefs])
  refine ⟨hcontent, ?_⟩
  have hdepths := flatMap_inj (fun r => hstored _) (fun r => hstored _) hrefs hdepths
  have hhashes := flatMap_inj (fun r => CellInfo.length_hashToBytes _) (fun r => CellInfo.length_hashToBytes _) hrefs hhashes
  rw [List.forall₂_iff_get] at hdepths hhashes ⊢
  refine ⟨hrefs, fun k hk hk' => ⟨CellInfo.hashToBytes_inj (hhashes.2 k hk hk'), ?_⟩⟩
  exact CellInfo.storeDepth_inj ((hvp _ (List.get_mem ..)).getDepth_lt _) ((hvc _ (List.get_mem ..)).getDepth_lt _)
    (hdepths.2 k hk hk')

end Cell

end TonWallet.Vm
