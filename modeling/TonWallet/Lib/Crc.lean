/-
Cyclic checksums: a register that bits are fed into, the most significant one of it first. The register is linear in
what it holds and in what is fed, a message is followed by its checksum exactly if both together leave nothing, and no
burst that is not longer than the register leaves nothing.
-/
import TonWallet.Lib.Bits

namespace Lib.Crc

variable {n : Nat}

/-- One bit fed into the register, for the generator `poly`. -/
def feed (poly r : BitVec n) (b : Bool) : BitVec n := (r <<< 1) ^^^ (if r.msb ^^ b then poly else 0)

/-- What is in the register after some bits. -/
def feedAll (poly r : BitVec n) (bits : List Bool) : BitVec n := bits.foldl (feed poly) r

variable {poly r r' : BitVec n} {b : Bool} {bits bits' : List Bool}

@[simp] theorem feedAll_nil : feedAll poly r [] = r := rfl

theorem feedAll_cons : feedAll poly r (b :: bits) = feedAll poly (feed poly r b) bits := rfl

theorem feedAll_append : feedAll poly r (bits ++ bits') = feedAll poly (feedAll poly r bits) bits' := List.foldl_append

/-! ## Linearity -/

theorem feed_xor (b' : Bool) : feed poly (r ^^^ r') (b ^^ b') = feed poly r b ^^^ feed poly r' b' := by
  have hmask (x y : Bool) : (if x ^^ y then poly else 0) = (if x then poly else 0) ^^^ (if y then poly else 0) := by
    cases x <;> cases y <;> simp
  unfold feed
  rw [BitVec.shiftLeft_xor_distrib, BitVec.msb_xor, show ((r.msb ^^ r'.msb) ^^ (b ^^ b')) = ((r.msb ^^ b) ^^ (r'.msb ^^ b')) by
    cases r.msb <;> cases r'.msb <;> cases b <;> cases b' <;> rfl, hmask]
  ac_rfl

theorem feedAll_xor (poly r r' : BitVec n) (h : bits.length = bits'.length) :
    feedAll poly (r ^^^ r') (List.zipWith xor bits bits') = feedAll poly r bits ^^^ feedAll poly r' bits' := by
  induction bits generalizing r r' bits' with
  | nil =>
    cases bits' with
    | nil => rfl
    | cons => cases h
  | cons b bits ih =>
    cases bits' with
    | nil => cases h
    | cons b' bits' =>
      rw [List.zipWith_cons_cons, feedAll_cons, feed_xor, ih _ _ (Nat.succ.inj h)]
      rfl

theorem feedAll_zeros (k : Nat) : feedAll poly 0 (List.replicate k false) = 0 := by
  induction k with
  | zero => rfl
  | succ k ih =>
    have hfeed : feed poly 0 false = 0 := by simp [feed]
    rw [List.replicate_succ, feedAll_cons, hfeed, ih]

/-! ## Bursts -/

/-- The register has no bit below the `k`-th one. -/
def Clear (k : Nat) (r : BitVec n) : Prop := ∀ i < k, r.getLsbD i = false

theorem clear_zero (k : Nat) : Clear k (0 : BitVec n) := fun i _ => by simp

/-- The generator has its lowest bit. -/
def Odd (poly : BitVec n) : Prop := poly.getLsbD 0 = true

/-- What leaves the low bits clear did not have many of them. -/
theorem clear_of_feed (hodd : Odd poly) {k : Nat} (hk : k < n) (h : Clear (k + 1) (feed poly r b)) : Clear k r := by
  have hn : 0 < n := by omega
  -- the lowest bit tells whether the generator was added
  have hlow : (feed poly r b).getLsbD 0 = (r.msb ^^ b) := by
    unfold feed
    rw [BitVec.getLsbD_xor, BitVec.getLsbD_shiftLeft]
    cases r.msb ^^ b
    · simp
    · have hpoly : poly.getLsbD 0 = true := hodd
      simp [hpoly]
  have hnone : (r.msb ^^ b) = false := by
    rw [← hlow]
    exact h 0 (Nat.succ_pos k)
  have hshift : feed poly r b = r <<< 1 := by
    rw [feed, hnone]
    simp
  intro i hi
  have hbit := h (i + 1) (by omega)
  rw [hshift, BitVec.getLsbD_shiftLeft] at hbit
  simpa [show i + 1 < n by omega] using hbit

theorem clear_of_feedAll (hodd : Odd poly) {k : Nat} (hk : k + bits.length ≤ n)
    (h : Clear (k + bits.length) (feedAll poly r bits)) : Clear k r := by
  induction bits generalizing r k with
  | nil => exact h
  | cons b bits ih =>
    rw [List.length_cons] at hk h
    apply clear_of_feed (b := b) hodd (by omega)
    exact ih (by omega) (by rwa [show k + 1 + bits.length = k + (bits.length + 1) by omega])

/-- No burst that is not longer than the register leaves nothing. -/
theorem eq_zeros_of_feedAll_eq_zero (hodd : Odd poly) (hlen : bits.length ≤ n) (h : feedAll poly 0 bits = 0) :
    bits = List.replicate bits.length false := by
  induction bits with
  | nil => rfl
  | cons b bits ih =>
    rw [List.length_cons] at hlen
    cases b with
    | false =>
      have hfeed : feed poly 0 false = 0 := by simp [feed]
      rw [feedAll_cons, hfeed] at h
      rw [List.length_cons, List.replicate_succ, ← ih (by omega) h]
    | true =>
      -- the generator is in the register, with its lowest bit
      have hfeed : feed poly 0 true = poly := by simp [feed]
      rw [feedAll_cons, hfeed] at h
      have hclear : Clear 1 poly :=
        clear_of_feedAll hodd (by omega) (h ▸ clear_zero _)
      have hpoly : poly.getLsbD 0 = true := hodd
      rw [hclear 0 Nat.one_pos] at hpoly
      cases hpoly

/-- A zero does not clear the register. -/
theorem eq_zero_of_feed_false (hodd : Odd poly) (h : feed poly r false = 0) : r = 0 := by
  by_cases hn : n = 0
  · subst hn
    exact BitVec.eq_of_zero_length rfl
  · have hclear : Clear (n - 1) r := clear_of_feed (b := false) hodd (by omega) (h ▸ clear_zero _)
    have hmsb : r.msb = false := by
      have hlow : (feed poly r false).getLsbD 0 = false := by simp [h]
      unfold feed at hlow
      rw [BitVec.getLsbD_xor, BitVec.getLsbD_shiftLeft] at hlow
      have hpoly : poly.getLsbD 0 = true := hodd
      cases hm : r.msb
      · rfl
      · simp [hm, hpoly] at hlow
    apply BitVec.eq_of_getLsbD_eq
    intro i hi
    rw [show (0 : BitVec n).getLsbD i = false by simp]
    by_cases hlast : i = n - 1
    · subst hlast
      rwa [BitVec.msb_eq_getLsbD_last] at hmsb
    · exact hclear i (by omega)

theorem eq_zero_of_feedAll_zeros (hodd : Odd poly) (j : Nat) (h : feedAll poly r (List.replicate j false) = 0) : r = 0 := by
  induction j generalizing r with
  | zero => exact h
  | succ j ih =>
    rw [List.replicate_succ, feedAll_cons] at h
    exact eq_zero_of_feed_false hodd (ih h)

theorem zipWith_xor_self (bits : List Bool) : List.zipWith xor bits bits = List.replicate bits.length false := by
  induction bits with
  | nil => rfl
  | cons b bits ih => rw [List.zipWith_cons_cons, Bool.xor_self, ih, List.length_cons, List.replicate_succ]

theorem eq_of_zipWith_xor_eq_zeros {k : Nat} (hlen : bits.length = bits'.length)
    (h : List.zipWith xor bits bits' = List.replicate k false) : bits = bits' := by
  induction bits generalizing bits' k with
  | nil => exact (List.length_eq_zero_iff.1 hlen.symm).symm
  | cons b bits ih =>
    cases bits' with
    | nil => cases hlen
    | cons b' bits' =>
      cases k with
      | zero => cases h
      | succ k =>
        rw [List.zipWith_cons_cons, List.replicate_succ] at h
        obtain ⟨hb, h⟩ := List.cons.inj h
        rw [ih (Nat.succ.inj hlen) h]
        cases b <;> cases b' <;> first | rfl | cases hb

/-- Two messages that leave nothing and differ in no more bits in a row than the register has are the same. -/
theorem eq_of_burst (hodd : Odd poly) {pre post : List Bool} (hlen : bits.length = bits'.length) (hn : bits.length ≤ n)
    (h : feedAll poly 0 (pre ++ (bits ++ post)) = 0) (h' : feedAll poly 0 (pre ++ (bits' ++ post)) = 0) :
    bits = bits' := by
  have hxor := feedAll_xor poly 0 0
    (show (pre ++ (bits ++ post)).length = (pre ++ (bits' ++ post)).length by simp [hlen])
  rw [h, h', show (0 : BitVec n) ^^^ 0 = 0 from BitVec.xor_self, List.zipWith_append rfl, List.zipWith_append hlen, zipWith_xor_self, zipWith_xor_self,
    feedAll_append, feedAll_zeros, feedAll_append] at hxor
  have hburst := eq_zero_of_feedAll_zeros hodd _ hxor
  have hzip : (List.zipWith xor bits bits').length = bits.length := by simp [hlen]
  exact eq_of_zipWith_xor_eq_zeros hlen (eq_zeros_of_feedAll_eq_zero hodd (hzip ▸ hn) hburst)

/-! ## Checksums -/

theorem natToBits_eq_map (k v : Nat) : natToBits k v = (List.range k).map fun i => v.testBit (k - 1 - i) := by
  induction k with
  | zero => rfl
  | succ k ih =>
    rw [natToBits, ih, List.range_succ_eq_map, List.map_cons, List.map_map]
    congr 1
    apply List.map_congr_left
    intro i _
    show _ = v.testBit (k + 1 - 1 - (i + 1))
    rw [show k + 1 - 1 - (i + 1) = k - 1 - i by omega]

/-- A register is emptied by what it holds. -/
theorem feedAll_self (poly r : BitVec n) : feedAll poly r (natToBits n r.toNat) = 0 := by
  have hbits : natToBits n r.toNat = (List.range n).map r.getMsbD := by
    rw [natToBits_eq_map]
    apply List.map_congr_left
    intro i hi
    rw [List.mem_range] at hi
    rw [BitVec.getMsbD, BitVec.getLsbD, decide_eq_true hi, Bool.true_and]
  have hshift : ∀ k ≤ n, feedAll poly r ((List.range k).map r.getMsbD) = r <<< k := by
    intro k
    induction k with
    | zero => simp
    | succ k ih =>
      intro hk
      have hmsb : (r <<< k).msb = r.getMsbD k := by
        rw [BitVec.msb, BitVec.getMsbD_shiftLeft]
        simp
      rw [List.range_succ, List.map_append, feedAll_append, ih (by omega), List.map_singleton, feedAll_cons, feedAll_nil,
        feed, hmsb, Bool.xor_self, BitVec.shiftLeft_add]
      simp
  rw [hbits, hshift n (Nat.le_refl n)]
  exact BitVec.shiftLeft_eq_zero (Nat.le_refl n)

end Lib.Crc
