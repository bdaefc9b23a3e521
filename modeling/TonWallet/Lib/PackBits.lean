/-
Packed bit strings: what the completion tag adds to the last byte, and that the packed bytes give the bit string
back once it is known whether its last byte is complete.
-/
import TonWallet.Lib.Bits
import TonWallet.Lib.Terminated

namespace Lib

/-- What `packBits` puts behind a bit string of a length: nothing, or a one and then zeroes. -/
def completion (n : Nat) : List Bool := if n % 8 = 0 then [] else true :: List.replicate (7 - n % 8) false

theorem completion_add_eight (n : Nat) : completion (n + 8) = completion n := by
  simp [completion, Nat.add_mod_right]

/-- The packed bytes are the bits and their completion. -/
theorem bytesToBits_packBits_eq (bs : List Bool) : bytesToBits (packBits bs) = bs ++ completion bs.length := by
  fun_induction packBits bs with
  | case1 a b c d e f g h bs ih =>
    have hlen : (a :: b :: c :: d :: e :: f :: g :: h :: bs).length = bs.length + 8 := rfl
    rw [bytesToBits_cons, ih, natToBits_ofNat_bitsToNat rfl, hlen, completion_add_eight]
    rfl
  | case2 => rfl
  | case3 bs hne hshort =>
    rw [bytesToBits_cons, natToBits_ofNat_bitsToNat (by simp)]
    rcases bs with _ | ⟨a, _ | ⟨b, _ | ⟨c, _ | ⟨d, _ | ⟨e, _ | ⟨f, _ | ⟨g, _ | ⟨h', bs⟩⟩⟩⟩⟩⟩⟩⟩
    · exact absurd rfl hshort
    iterate 7 rfl
    · exact absurd rfl (hne a b c d e f g h' bs)

theorem length_packBits_eq (bs : List Bool) : (packBits bs).length = (bs.length + 7) / 8 := by
  have hlen := congrArg List.length (bytesToBits_packBits_eq bs)
  rw [length_bytesToBits, List.length_append, completion] at hlen
  split at hlen
  · rw [List.length_nil] at hlen
    omega
  · rw [List.length_cons, List.length_replicate] at hlen
    omega

/-- A one and zeroes behind it end a bit string in one way only. -/
theorem append_tag_inj {x y : List Bool} {m n : Nat}
    (h : x ++ true :: List.replicate m false = y ++ true :: List.replicate n false) : x = y := by
  have hrev := congrArg List.reverse h
  simp only [List.reverse_append, List.reverse_cons, List.reverse_replicate, List.append_assoc,
    List.singleton_append] at hrev
  have hnot : ∀ k, true ∉ List.replicate k false := fun k => by simp [List.mem_replicate]
  exact List.reverse_inj.1 (append_sep_inj (hnot m) (hnot n) hrev).2

/-- Packed bytes tell bit strings apart that both do, or both do not, end with a whole byte. -/
theorem packBits_inj {x y : List Bool} (hmod : x.length % 8 = 0 ↔ y.length % 8 = 0) (h : packBits x = packBits y) : x = y := by
  have hbits := congrArg bytesToBits h
  rw [bytesToBits_packBits_eq, bytesToBits_packBits_eq, completion, completion] at hbits
  by_cases hx : x.length % 8 = 0
  · rw [if_pos hx, if_pos (hmod.1 hx), List.append_nil, List.append_nil] at hbits
    exact hbits
  · rw [if_neg hx, if_neg (fun hy => hx (hmod.2 hy))] at hbits
    exact append_tag_inj hbits

/-- Records of one length behind each other are told apart. -/
theorem flatMap_inj {α β γ : Type*} {f : α → List γ} {g : β → List γ} {k : Nat} (hf : ∀ a, (f a).length = k)
    (hg : ∀ b, (g b).length = k) {xs : List α} {ys : List β} (hlen : xs.length = ys.length)
    (h : xs.flatMap f = ys.flatMap g) : List.Forall₂ (fun a b => f a = g b) xs ys := by
  induction xs generalizing ys with
  | nil =>
    rw [List.length_eq_zero_iff.1 hlen.symm]
    exact .nil
  | cons x xs ih =>
    cases ys with
    | nil => cases hlen
    | cons y ys =>
      rw [List.flatMap_cons, List.flatMap_cons] at h
      obtain ⟨hhead, htail⟩ := List.append_inj h ((hf x).trans (hg y).symm)
      exact .cons hhead (ih (Nat.succ.inj hlen) htail)

/-- One of several records of one length. -/
theorem take_drop_flatMap {α γ : Type*} {f : α → List γ} {n : Nat} (hf : ∀ a, (f a).length = n) {xs : List α} {k : Nat}
    {x : α} (hk : xs[k]? = some x) (rest : List γ) : ((xs.flatMap f ++ rest).drop (n * k)).take n = f x := by
  induction xs generalizing k with
  | nil => cases hk
  | cons y ys ih =>
    rw [List.flatMap_cons, List.append_assoc]
    cases k with
    | zero =>
      obtain rfl : y = x := by simpa using hk
      rw [Nat.mul_zero, List.drop_zero, List.take_append_of_le_length (hf y).ge, List.take_of_length_le (hf y).le]
    | succ k =>
      rw [List.getElem?_cons_succ] at hk
      rw [Nat.mul_succ, Nat.add_comm, ← List.drop_drop, List.drop_append_of_le_length (hf y).ge,
        List.drop_of_length_le (hf y).le, List.nil_append]
      exact ih hk

theorem length_flatMap_const {α γ : Type*} {f : α → List γ} {k : Nat} (hf : ∀ a, (f a).length = k) (xs : List α) :
    (xs.flatMap f).length = k * xs.length := by
  induction xs with
  | nil => rfl
  | cons x xs ih => rw [List.flatMap_cons, List.length_append, hf, ih, List.length_cons]; ring

end Lib
