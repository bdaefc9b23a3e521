/-
Shards as a tree (`ton/ton-shard.h`): ancestors, intersections, parents and siblings. A word that is no shard, zero, is
the longest path of the tree.
-/
import TonWallet.Block.ShardPrefix

namespace TonWallet.Block

open Lib TonWallet.Td TonWallet.Ton ShardId

def shardIntersects (x y : UInt64) : Bool :=
  let z := max (lowerBit64 x) (lowerBit64 y)
  ((x ^^^ y) &&& (bitsNegate64 z <<< 1)) == 0

def shardIntersection (x y : UInt64) : UInt64 := if lowerBit64 x < lowerBit64 y then x else y

def shardIsSibling (x y : UInt64) : Bool := (x ^^^ y) != 0 && (x ^^^ y) == (x &&& bitsNegate64 x) <<< 1

/-- The path of a word. -/
def shardPath (shard : UInt64) : List Bool := if shard = 0 then natToBits 64 0 else prefixOf shard

/-! ## Words and paths -/

variable {x y z : UInt64} {p q : List Bool}

theorem prefixOf_shardOf (h : p.length ≤ 63) : prefixOf (shardOf p) = p := by
  rw [prefixOf, shardPfxLen_shardOf h]
  exact (List.prefix_iff_eq_take.1 (prefix_shardOf h)).symm

@[simp] theorem shardPath_shardOf (h : p.length ≤ 63) : shardPath (shardOf p) = p := by
  rw [shardPath, if_neg (shardOf_ne_zero h), prefixOf_shardOf h]

theorem shardContains_path (hx : x ≠ 0) (child : UInt64) :
    shardContains x child = true ↔ shardPath x <+: natToBits 64 child.toNat := by
  obtain ⟨p, hp, rfl⟩ := exists_shardOf hx
  rw [shardContains_iff hp, shardPath_shardOf hp]

theorem shardIsAncestor_path (x y : UInt64) : shardIsAncestor x y = true ↔ shardPath x <+: shardPath y := by
  by_cases hx : x = 0 <;> by_cases hy : y = 0
  · subst hx hy
    exact iff_of_true (by decide) (List.prefix_refl _)
  · subst hx
    obtain ⟨q, hq, rfl⟩ := exists_shardOf hy
    refine iff_of_false ?_ ?_
    · intro h
      have hle : lowerBit64 0 ≥ lowerBit64 (shardOf q) := by
        rw [shardIsAncestor, Bool.and_eq_true, decide_eq_true_eq] at h
        exact h.1
      rw [ge_iff_le, UInt64.le_iff_toNat_le, toNat_lowerBit64 hq] at hle
      exact absurd hle (Nat.not_le.2 (Nat.two_pow_pos _))
    · intro h
      have hlen : (natToBits 64 0).length ≤ (shardPath (shardOf q)).length := h.length_le
      rw [length_natToBits, shardPath_shardOf hq] at hlen
      omega
  · subst hy
    obtain ⟨p, hp, rfl⟩ := exists_shardOf hx
    have hzero : shardPath 0 = natToBits 64 (0 : UInt64).toNat := rfl
    rw [hzero, shardPath_shardOf hp, ← shardContains_iff hp, shardIsAncestor, Bool.and_eq_true]
    refine and_iff_right ?_
    rw [decide_eq_true_eq]
    exact UInt64.zero_le
  · obtain ⟨p, hp, rfl⟩ := exists_shardOf hx
    obtain ⟨q, hq, rfl⟩ := exists_shardOf hy
    rw [shardIsAncestor_iff hp hq, shardPath_shardOf hp, shardPath_shardOf hq]

/-! ## The tree -/

theorem shardIsAncestor_refl (x : UInt64) : shardIsAncestor x x = true :=
  (shardIsAncestor_path x x).2 (List.prefix_refl _)

theorem shardIsAncestor_trans (hxy : shardIsAncestor x y = true) (hyz : shardIsAncestor y z = true) :
    shardIsAncestor x z = true := by
  rw [shardIsAncestor_path] at hxy hyz ⊢
  exact hxy.trans hyz

/-- Ancestors of one shard are ancestors of each other. -/
theorem shardIsAncestor_or (hx : shardIsAncestor x z = true) (hy : shardIsAncestor y z = true) :
    shardIsAncestor x y = true ∨ shardIsAncestor y x = true := by
  simp only [shardIsAncestor_path] at hx hy ⊢
  exact List.prefix_or_prefix_of_prefix hx hy

theorem shardIsAncestor_ne_zero (h : shardIsAncestor x y = true) (hy : y ≠ 0) : x ≠ 0 := by
  rintro rfl
  obtain ⟨q, hq, rfl⟩ := exists_shardOf hy
  have hlen := ((shardIsAncestor_path 0 (shardOf q)).1 h).length_le
  rw [shardPath_shardOf hq, show shardPath 0 = natToBits 64 0 from rfl, length_natToBits] at hlen
  omega

/-- What is in a shard is in its ancestors. -/
theorem shardContains_of_ancestor (h : shardIsAncestor x y = true) (hy : y ≠ 0) {child : UInt64}
    (hchild : shardContains y child = true) : shardContains x child = true := by
  rw [shardContains_path hy] at hchild
  rw [shardContains_path (shardIsAncestor_ne_zero h hy)]
  exact ((shardIsAncestor_path x y).1 h).trans hchild

/-- An ancestor as a word contains the word. -/
theorem shardContains_of_isAncestor (h : shardIsAncestor x y = true) : shardContains x y = true := by
  rw [shardIsAncestor, Bool.and_eq_true] at h
  exact h.2

/-- Two shards intersect when one is in the other. -/
theorem shardIntersects_iff (x y : UInt64) :
    shardIntersects x y = true ↔ shardIsAncestor x y = true ∨ shardIsAncestor y x = true := by
  have hanc (x y : UInt64) : shardIsAncestor x y = true ↔ lowerBit64 y ≤ lowerBit64 x ∧ shardContains x y = true := by
    rw [shardIsAncestor, Bool.and_eq_true, decide_eq_true_eq]
    exact Iff.rfl
  have hmax : shardIntersects x y = if lowerBit64 x ≤ lowerBit64 y then shardContains y x else shardContains x y := by
    unfold shardIntersects shardContains
    rw [UInt64.xor_comm y x, UInt64.max_def]
    split <;> rfl
  have hsame : lowerBit64 x = lowerBit64 y → shardContains x y = shardContains y x := by
    intro heq
    unfold shardContains
    rw [heq, UInt64.xor_comm]
  rw [hmax, hanc, hanc]
  split
  · next hle =>
    rw [and_iff_right hle, iff_or_self]
    rintro ⟨hge, hxy⟩
    rwa [← hsame (UInt64.le_antisymm hle hge)]
  · next hnot =>
    rw [and_iff_right (UInt64.le_of_lt (UInt64.not_le.1 hnot)), iff_self_or]
    rintro ⟨hle, -⟩
    exact absurd hle hnot

/-- What is below the intersection of two shards is below both. -/
theorem shardIsAncestor_intersection (h : shardIntersects x y = true) (z : UInt64) :
    shardIsAncestor (shardIntersection x y) z = true ↔ shardIsAncestor x z = true ∧ shardIsAncestor y z = true := by
  have hle {x y : UInt64} (h : shardIsAncestor x y = true) : lowerBit64 y ≤ lowerBit64 x := by
    rw [shardIsAncestor, Bool.and_eq_true, decide_eq_true_eq] at h
    exact h.1
  have hbelow {x y : UInt64} (h : shardIsAncestor x y = true) :
      shardIsAncestor y z = true ↔ shardIsAncestor x z = true ∧ shardIsAncestor y z = true :=
    ⟨fun hz => ⟨shardIsAncestor_trans h hz, hz⟩, And.right⟩
  rcases (shardIntersects_iff x y).1 h with hxy | hyx
  · rw [shardIntersection, if_neg (UInt64.not_lt.2 (hle hxy))]
    exact hbelow hxy
  · unfold shardIntersection
    split
    · rw [and_comm]
      exact hbelow hyx
    · next hnot =>
      -- of one length, they are one shard
      have hxy : shardIsAncestor x y = true := by
        have heq := UInt64.le_antisymm (hle hyx) (UInt64.not_lt.1 hnot)
        unfold shardIsAncestor at hyx ⊢
        rw [heq, UInt64.xor_comm y x] at hyx
        rwa [heq]
      exact hbelow hxy

/-- The intersection of a shard and another one that it contains or is in. -/
theorem shardIntersection_eq (h : shardIntersects x y = true) :
    (shardIntersection x y = y ∧ shardIsAncestor x y = true) ∨ (shardIntersection x y = x ∧ shardIsAncestor y x = true) := by
  have hself := (shardIsAncestor_intersection h (shardIntersection x y)).1 (shardIsAncestor_refl _)
  unfold shardIntersection at hself ⊢
  split at hself
  · next hlt => exact .inr ⟨if_pos hlt, hself.2⟩
  · next hlt => exact .inl ⟨if_neg hlt, hself.1⟩

/-- What is in the intersection of two shards is in both. -/
theorem shardContains_intersection (hx : x ≠ 0) (hy : y ≠ 0) (h : shardIntersects x y = true) (child : UInt64) :
    shardContains (shardIntersection x y) child = true ↔ shardContains x child = true ∧ shardContains y child = true := by
  rcases shardIntersection_eq h with ⟨heq, hanc⟩ | ⟨heq, hanc⟩
  · rw [heq, iff_and_self]
    exact shardContains_of_ancestor hanc hy
  · rw [heq, iff_self_and]
    exact shardContains_of_ancestor hanc hx

/-- Two shards with something in common intersect. -/
theorem shardIntersects_of_contains (hx : x ≠ 0) (hy : y ≠ 0) {child : UInt64} (hxc : shardContains x child = true)
    (hyc : shardContains y child = true) : shardIntersects x y = true := by
  rw [shardContains_path hx] at hxc
  rw [shardContains_path hy] at hyc
  rw [shardIntersects_iff, shardIsAncestor_path, shardIsAncestor_path]
  exact List.prefix_or_prefix_of_prefix hxc hyc

/-! ## Siblings -/

theorem toNat_shardOf_snoc_eq (b : Bool) (h : p.length ≤ 62) :
    (shardOf (p ++ [b])).toNat = (4 * bitsToNat p + 2 * b.toNat + 1) * 2 ^ (62 - p.length) := by
  rw [toNat_shardOf (by rw [List.length_append, List.length_singleton]; omega), bitsToNat_snoc, List.length_append,
    List.length_singleton, show 63 - (p.length + 1) = 62 - p.length by omega]
  congr 1
  ring

/-- The bit in front of the lowest one, as the source computes it. -/
theorem toNat_lowerBit64_shiftLeft (b : Bool) (h : p.length ≤ 62) :
    (lowerBit64 (shardOf (p ++ [b])) <<< 1).toNat = 2 ^ (63 - p.length) := by
  rw [UInt64.toNat_shiftLeft, toNat_lowerBit64 (by rw [List.length_append, List.length_singleton]; omega),
    List.length_append, List.length_singleton]
  show 2 ^ (63 - (p.length + 1)) <<< 1 % 2 ^ 64 = _
  rw [Nat.shiftLeft_eq, pow_one, ← pow_succ, show 63 - (p.length + 1) + 1 = 63 - p.length by omega]
  exact Nat.mod_eq_of_lt (Nat.pow_lt_pow_right (by decide) (by omega))

theorem shardOf_xor_sibling (b : Bool) (h : p.length ≤ 62) :
    shardOf (p ++ [b]) ^^^ shardOf (p ++ [!b]) = lowerBit64 (shardOf (p ++ [b])) <<< 1 := by
  have hxor (a : Nat) : (4 * a + 2 * b.toNat + 1) ^^^ (4 * a + 2 * (!b).toNat + 1) = 2 := by
    have hbits (c : Bool) : 4 * a + 2 * c.toNat + 1 = Nat.bit true (Nat.bit c a) := by
      rw [Nat.bit_val, Nat.bit_val, Bool.toNat_true]
      omega
    rw [hbits, hbits, Nat.xor_bit, Nat.xor_bit, Nat.xor_self]
    cases b <;> rfl
  rw [← UInt64.toNat_inj, UInt64.toNat_xor, toNat_lowerBit64_shiftLeft b h, toNat_shardOf_snoc_eq b h,
    toNat_shardOf_snoc_eq (!b) h, ← Nat.shiftLeft_eq, ← Nat.shiftLeft_eq, ← Nat.shiftLeft_xor_distrib, hxor,
    Nat.shiftLeft_eq, ← pow_succ', show 62 - p.length + 1 = 63 - p.length by omega]

/-- Siblings are the two halves of a shard. -/
theorem exists_of_shardIsSibling (h : shardIsSibling x y = true) :
    ∃ (p : List Bool) (b : Bool), p.length ≤ 62 ∧ x = shardOf (p ++ [b]) ∧ y = shardOf (p ++ [!b]) := by
  rw [shardIsSibling, Bool.and_eq_true, bne_iff_ne, beq_iff_eq] at h
  obtain ⟨hne, heq⟩ := h
  have hx : x ≠ 0 := by
    rintro rfl
    rw [UInt64.zero_and] at heq
    exact hne heq
  obtain ⟨q, hq, rfl⟩ := exists_shardOf hx
  rcases List.eq_nil_or_concat q with rfl | ⟨p, b, rfl⟩
  · exact absurd (heq.trans (by decide)) hne
  · rw [List.concat_eq_append] at hq heq hne ⊢
    rw [List.length_append, List.length_singleton] at hq
    refine ⟨p, b, by omega, rfl, ?_⟩
    have hsame : shardOf (p ++ [b]) ^^^ y = shardOf (p ++ [b]) ^^^ shardOf (p ++ [!b]) :=
      heq.trans (shardOf_xor_sibling b (by omega)).symm
    exact (UInt64.xor_right_inj _).1 hsame

theorem shardParent_shardOf (b : Bool) (h : p.length ≤ 62) : shardParent (shardOf (p ++ [b])) = .ok (shardOf p) := by
  have hlow : (lowerBit64 (shardOf (p ++ [b]))).toNat = 2 ^ (62 - p.length) := by
    rw [toNat_lowerBit64 (by rw [List.length_append, List.length_singleton]; omega), List.length_append,
      List.length_singleton, show 63 - (p.length + 1) = 62 - p.length by omega]
  have hne : lowerBit64 (shardOf (p ++ [b])) ≠ 0 := by
    intro hzero
    rw [hzero, UInt64.toNat_zero] at hlow
    exact absurd hlow (Nat.two_pow_pos _).ne
  have hle : lowerBit64 (shardOf (p ++ [b])) ≤ shardOf (p ++ [b]) := by
    rw [UInt64.le_iff_toNat_le, hlow, toNat_shardOf_snoc_eq b h]
    exact Nat.le_mul_of_pos_left _ (by omega)
  have hor (a : Nat) : (4 * a + 2 * b.toNat) ||| 2 = 2 * (2 * a + 1) := by
    have hbits (c : Bool) : 4 * a + 2 * c.toNat = Nat.bit false (Nat.bit c a) := by
      rw [Nat.bit_val, Nat.bit_val, Bool.toNat_false]
      omega
    have htwo : 2 = Nat.bit false (Nat.bit true 0) := rfl
    rw [hbits, htwo, Nat.lor_bit, Nat.lor_bit, Nat.or_zero, Nat.bit_val, Nat.bit_val]
    cases b <;> simp [Bool.toNat]
  rw [shardParent, if_neg hne]
  congr 1
  have hpow : 2 ^ (63 - p.length) = 2 <<< (62 - p.length) := by
    rw [Nat.shiftLeft_eq, ← pow_succ', show 62 - p.length + 1 = 63 - p.length by omega]
  rw [← UInt64.toNat_inj, UInt64.toNat_or, UInt64.toNat_sub_of_le _ _ hle, toNat_lowerBit64_shiftLeft b h, hlow,
    toNat_shardOf_snoc_eq b h, toNat_shardOf (by omega), Nat.add_mul, Nat.one_mul, Nat.add_sub_cancel, hpow]
  calc (4 * bitsToNat p + 2 * b.toNat) * 2 ^ (62 - p.length) ||| 2 <<< (62 - p.length)
      = (2 * (2 * bitsToNat p + 1)) <<< (62 - p.length) := by
        rw [← Nat.shiftLeft_eq, ← Nat.shiftLeft_or_distrib, hor]
    _ = (2 * bitsToNat p + 1) * 2 <<< (62 - p.length) := by
        rw [Nat.shiftLeft_eq, Nat.shiftLeft_eq]
        ring

end TonWallet.Block
