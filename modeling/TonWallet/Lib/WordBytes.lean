/-
The bytes of a word, the lowest first, and the word of some bytes.
-/
import Mathlib.Data.Nat.ModEq
import Mathlib.Tactic.Ring

namespace Lib

/-- The low `k` bytes of `n`. -/
def wordBytes : Nat → Nat → List UInt8
  | 0, _ => []
  | k + 1, n => UInt8.ofNat n :: wordBytes k (n / 256)

/-- The word of some bytes. -/
def ofWordBytes (bs : List UInt8) : Nat := bs.foldr (fun b n => b.toNat + 256 * n) 0

@[simp] theorem ofWordBytes_nil : ofWordBytes [] = 0 := rfl

@[simp] theorem ofWordBytes_cons (b : UInt8) (bs : List UInt8) :
    ofWordBytes (b :: bs) = b.toNat + 256 * ofWordBytes bs := rfl

@[simp] theorem length_wordBytes (k n : Nat) : (wordBytes k n).length = k := by
  induction k generalizing n with
  | zero => rfl
  | succ k ih => rw [wordBytes, List.length_cons, ih]

/-- Reading what was written gives the word, as far as the bytes hold it. -/
@[simp] theorem ofWordBytes_wordBytes (k n : Nat) : ofWordBytes (wordBytes k n) = n % 256 ^ k := by
  induction k generalizing n with
  | zero => simp [wordBytes, Nat.mod_one]
  | succ k ih =>
    have hbyte : (UInt8.ofNat n).toNat = n % 256 := by simp
    rw [wordBytes, ofWordBytes_cons, ih, hbyte, Nat.pow_succ', Nat.mod_mul]

end Lib
