/-
Runs of equal bits at either end of a range (`bits_memscan`, `bits_memscan_rev`). Both go through the range by bytes and words
and stop at the first one that holds another bit.
-/
import TonWallet.Lib.LeadingRun
import TonWallet.Td.BitsCopy

namespace TonWallet.Td.Bitstring

open Lib.BitMemory Lib.LeadingRun

/-! ## Scans -/

/-- `xor_val`, as a word of any width. -/
def xorVal (w : Nat) (cmpTo : Bool) : BitVec w := if cmpTo then BitVec.allOnes w else 0

/-- Bytes as long as the address is not one to stop at; `.error` is the result of the whole scan. -/
def scanBytes (stop : Int → Bool) (m : Memory) (ptr : Int) (rem bitCount : Nat) (cmpTo : Bool) : Except Nat (Int × Nat) :=
  if 8 ≤ rem ∧ !stop ptr then
    let v := ((m ptr).setWidth 32 ^^^ xorVal 32 cmpTo) <<< 24
    if v ≠ 0 then .error (bitCount - rem + leadingZeroes v) else scanBytes stop m (ptr + 1) (rem - 8) bitCount cmpTo
  else .ok (ptr, rem)
termination_by rem

/-- Words of eight bytes. -/
def scanWords (m : Memory) (ptr : Int) (rem bitCount : Nat) (cmpTo : Bool) : Except Nat (Int × Nat) :=
  if 64 ≤ rem then
    let z := load 64 m ptr 8 ^^^ xorVal 64 cmpTo
    if z ≠ 0 then .error (bitCount - rem + leadingZeroes z) else scanWords m (ptr + 8) (rem - 64) bitCount cmpTo
  else .ok (ptr, rem)
termination_by rem

/-- The bits up to the end of the first byte. -/
def scanHead (m : Memory) (ptr : Int) (offs bitCount : Nat) (cmpTo : Bool) : Except Nat (Int × Nat) :=
  if offs ≠ 0 then
    let v := ((m ptr).setWidth 32 ^^^ xorVal 32 cmpTo) <<< (24 + offs)
    let c := leadingZeroes v
    let l := 8 - offs
    if c < l ∨ bitCount ≤ l then .error (min c bitCount) else .ok (ptr + 1, bitCount - l)
  else .ok (ptr, bitCount)

/-- The bits of the last byte. -/
def scanTail (m : Memory) (ptr : Int) (rem bitCount : Nat) (cmpTo : Bool) : Nat :=
  if 0 < rem then
    let v := ((m ptr).setWidth 32 ^^^ xorVal 32 cmpTo) <<< 24
    let c := leadingZeroes v
    if c < rem then bitCount - rem + c else bitCount
  else bitCount

/-- `bits_memscan`; a word is loaded where the address is divisible by eight. -/
def bitsMemscan (m : Memory) (ptr offs : Int) (bitCount : Nat) (cmpTo : Bool) : Nat :=
  if bitCount = 0 then 0
  else
    let result := do
      let (ptr, rem) ← scanHead m (ptr + offs / 8) (offs % 8).toNat bitCount cmpTo
      let (ptr, rem) ← scanBytes (fun p => p % 8 = 0) m ptr rem bitCount cmpTo
      let (ptr, rem) ← scanWords m ptr rem bitCount cmpTo
      let (ptr, rem) ← scanBytes (fun _ => false) m ptr rem bitCount cmpTo
      return scanTail m ptr rem bitCount cmpTo
    match result with
    | .error found => found
    | .ok found => found

/-- Words and bytes below an address, the last one first. -/
def scanRevWords (m : Memory) (ptr : Int) (res bitCount : Nat) (cmpTo : Bool) : Except Nat (Int × Nat × Nat) :=
  if 32 ≤ bitCount then
    let v := load 32 m (ptr - 4) 4 ^^^ xorVal 32 cmpTo
    if v ≠ 0 then .error (trailingZeroes v + res) else scanRevWords m (ptr - 4) (res + 32) (bitCount - 32) cmpTo
  else .ok (ptr, res, bitCount)
termination_by bitCount

def scanRevBytes (m : Memory) (ptr : Int) (res bitCount : Nat) (cmpTo : Bool) : Except Nat (Int × Nat × Nat) :=
  if 8 ≤ bitCount then
    let v := (m (ptr - 1)).setWidth 32 ^^^ (xorVal 8 cmpTo).setWidth 32
    if v ≠ 0 then .error (trailingZeroes v + res) else scanRevBytes m (ptr - 1) (res + 8) (bitCount - 8) cmpTo
  else .ok (ptr, res, bitCount)
termination_by bitCount

/-- The bits of the byte that the range ends in. -/
def scanRevHead (m : Memory) (ptr : Int) (offs bitCount : Nat) (cmpTo : Bool) : Except Nat (Nat × Nat) :=
  if offs ≠ 0 then
    let v := (m ptr >>> (8 - offs)).setWidth 32 ^^^ xorVal 32 cmpTo
    let c := trailingZeroes v
    if c < offs ∨ bitCount ≤ offs then .error (min c bitCount) else .ok (offs, bitCount - offs)
  else .ok (0, bitCount)

def scanRevTail (m : Memory) (ptr : Int) (res bitCount : Nat) (cmpTo : Bool) : Nat :=
  if 0 < bitCount then
    let v := (m (ptr - 1)).setWidth 32 ^^^ (xorVal 8 cmpTo).setWidth 32
    min (trailingZeroes v) bitCount + res
  else res

/-- An `int` and a size are added as sizes. -/
def sizeSum (offs : Int) (bitCount : Nat) : Int := if offs + bitCount < 0 then offs + bitCount + 18446744073709551616 else offs + bitCount

/-- `bits_memscan_rev`. -/
def bitsMemscanRev (m : Memory) (ptr offs : Int) (bitCount : Nat) (cmpTo : Bool) : Nat :=
  if bitCount = 0 then 0
  else
    let ptr := ptr + sizeSum offs bitCount / 8
    let offs := (sizeSum offs bitCount % 8).toNat
    let result := do
      let (res, bitCount) ← scanRevHead m ptr offs bitCount cmpTo
      let (ptr, res, bitCount) ← scanRevWords m ptr res bitCount cmpTo
      let (ptr, res, bitCount) ← scanRevBytes m ptr res bitCount cmpTo
      return scanRevTail m ptr res bitCount cmpTo
    match result with
    | .error found => found
    | .ok found => found

/-! ## What a word shows -/

/-- The bits of a range that are `cmpTo`. -/
def agrees (m : Memory) (S : Int) (cmpTo : Bool) (k : Nat) : Bool := bit m (S + k) == cmpTo

theorem getLsbD_xorVal (w : Nat) (cmpTo : Bool) (k : Nat) : (xorVal w cmpTo).getLsbD k = (decide (k < w) && cmpTo) := by
  cases cmpTo with
  | true => rw [xorVal, if_pos rfl, BitVec.getLsbD_allOnes, Bool.and_true]
  | false => exact BitVec.getLsbD_zero.trans (Bool.and_false _).symm

theorem not_xor_eq_beq (x y : Bool) : (!(x ^^ y)) = (x == y) := by cases x <;> cases y <;> rfl

/-- A word of which the top `n` bits are those from place `a` of the range on, where they are not `cmpTo`. -/
def Shows {w : Nat} (v : BitVec w) (m : Memory) (S : Int) (cmpTo : Bool) (a n : Nat) : Prop :=
  ∀ k, v.getMsbD k = (decide (k < n) && (bit m (S + (a + k : Nat)) ^^ cmpTo))

section

variable {w : Nat} {v : BitVec w} {m : Memory} {S : Int} {cmpTo : Bool} {a n N : Nat}

theorem Shows.leading (h : Shows v m S cmpTo a n) (hw : n ≤ w) (hc : leadingZeroes v < n) :
    Leading (fun k => agrees m S cmpTo (a + k)) n (leadingZeroes v) := by
  refine (leading_leadingZeroes v).congr hc hw fun k hk => ?_
  rw [h k, decide_eq_true hk, Bool.true_and, not_xor_eq_beq, agrees]

/-- A word that is not zero ends the scan. -/
theorem Shows.found (h : Shows v m S cmpTo a n) (hw : n ≤ w) (hne : v ≠ 0) (ha : ∀ k < a, agrees m S cmpTo k = true)
    (hN : a + n ≤ N) : Leading (agrees m S cmpTo) N (a + leadingZeroes v) := by
  have hlt := leadingZeroes_lt hne
  have hc : leadingZeroes v < n := by
    by_contra hge
    have hstop := (leading_leadingZeroes v).stops hlt
    rw [h, decide_eq_false hge, Bool.false_and] at hstop
    cases hstop
  exact ((h.leading hw hc).add ha).extend (by omega) hN

/-- And one that has no bit set in so many does not. -/
theorem Shows.goes_on (h : Shows v m S cmpTo a n) (hzero : n ≤ leadingZeroes v) (ha : ∀ k < a, agrees m S cmpTo k = true) :
    ∀ k < a + n, agrees m S cmpTo k = true := by
  intro k hk
  by_cases hlow : k < a
  · exact ha k hlow
  · have hbit := (leading_leadingZeroes v).all hzero (show k - a < n by omega)
    rwa [h, decide_eq_true (show k - a < n by omega), Bool.true_and, not_xor_eq_beq, Nat.add_sub_of_le (not_lt.1 hlow)] at hbit

theorem leadingZeroes_zero : leadingZeroes (0 : BitVec w) = w := by
  refine (leading_leadingZeroes _).unique (leading_of_all fun k _ => ?_)
  rw [Bool.not_eq_true']
  exact BitVec.getMsbD_zero

end

theorem shows_byte (m : Memory) {S ptr : Int} (cmpTo : Bool) {a offs : Nat} (hoffs : offs ≤ 8) (hplace : 8 * ptr + offs = S + a) :
    Shows (((m ptr).setWidth 32 ^^^ xorVal 32 cmpTo) <<< (24 + offs)) m S cmpTo a (8 - offs) := by
  intro k
  rw [BitVec.getMsbD_shiftLeft, BitVec.getMsbD_eq_getLsbD, BitVec.getLsbD_xor, BitVec.getLsbD_setWidth, getLsbD_xorVal]
  by_cases hk : k < 8 - offs
  · rw [decide_eq_true hk, decide_eq_true (by omega : k + (24 + offs) < 32), decide_eq_true (by omega : 32 - 1 - (k + (24 + offs)) < 32),
      getLsbD_byte m ptr (by omega), Bool.true_and, Bool.true_and, Bool.true_and, Bool.true_and]
    congr 2
    omega
  · rw [decide_eq_false hk, decide_eq_false (by omega : ¬k + (24 + offs) < 32), Bool.false_and, Bool.false_and]

theorem shows_word (m : Memory) {S ptr : Int} (cmpTo : Bool) {a : Nat} (hplace : 8 * ptr = S + a) :
    Shows (load 64 m ptr 8 ^^^ xorVal 64 cmpTo) m S cmpTo a 64 := by
  intro k
  rw [BitVec.getMsbD_eq_getLsbD, BitVec.getLsbD_xor, getLsbD_load, getLsbD_xorVal]
  by_cases hk : k < 64
  · rw [decide_eq_true hk, decide_eq_true (by omega : 64 - 1 - k < 64), Bool.true_and, Bool.true_and, Bool.true_and, Bool.true_and,
      Bool.true_and]
    congr 2
    omega
  · rw [decide_eq_false hk, Bool.false_and, Bool.false_and]

/-! ## Forward -/

/-- A scan that has found its result, or has all bits before its address behind it. -/
def ScanAt (m : Memory) (S : Int) (N : Nat) (cmpTo : Bool) : Except Nat (Int × Nat) → Prop
  | .error found => Leading (agrees m S cmpTo) N found
  | .ok (ptr, rem) => rem ≤ N ∧ 8 * ptr = S + (N - rem : Nat) ∧ ∀ k < N - rem, agrees m S cmpTo k = true

section

variable {m : Memory} {S ptr : Int} {N rem : Nat} {cmpTo : Bool}

theorem scanBytes_at (stop : Int → Bool) (h : ScanAt m S N cmpTo (.ok (ptr, rem))) :
    ScanAt m S N cmpTo (scanBytes stop m ptr rem N cmpTo) := by
  fun_induction scanBytes stop m ptr rem N cmpTo with
  | case1 ptr rem hrem v hv =>
    obtain ⟨hle, hplace, hall⟩ := h
    have hshow := shows_byte m cmpTo (Nat.zero_le 8) (show 8 * ptr + (0 : Nat) = S + (N - rem : Nat) by omega)
    exact hshow.found (by decide) hv hall (by omega)
  | case2 ptr rem hrem v hv ih =>
    obtain ⟨hle, hplace, hall⟩ := h
    have hshow := shows_byte m cmpTo (Nat.zero_le 8) (show 8 * ptr + (0 : Nat) = S + (N - rem : Nat) by omega)
    have hzero : leadingZeroes v = 32 := by rw [not_not.1 hv, leadingZeroes_zero]
    refine ih ⟨by omega, by omega, fun k hk => hshow.goes_on ?_ hall k (by omega)⟩
    exact (show 8 - 0 ≤ 32 by decide).trans hzero.ge
  | case3 ptr rem hrem => exact h

theorem scanWords_at (h : ScanAt m S N cmpTo (.ok (ptr, rem))) : ScanAt m S N cmpTo (scanWords m ptr rem N cmpTo) := by
  fun_induction scanWords m ptr rem N cmpTo with
  | case1 ptr rem hrem z hz =>
    obtain ⟨hle, hplace, hall⟩ := h
    exact (shows_word m cmpTo hplace).found (by decide) hz hall (by omega)
  | case2 ptr rem hrem z hz ih =>
    obtain ⟨hle, hplace, hall⟩ := h
    have hzero : leadingZeroes z = 64 := by rw [not_not.1 hz, leadingZeroes_zero]
    exact ih ⟨by omega, by omega, fun k hk => (shows_word m cmpTo hplace).goes_on hzero.ge hall k (by omega)⟩
  | case3 ptr rem hrem => exact h

theorem scanHead_at {offs : Nat} (hoffs : offs < 8) (hS : S = 8 * ptr + offs) :
    ScanAt m S N cmpTo (scanHead m ptr offs N cmpTo) := by
  unfold scanHead
  dsimp only
  split_ifs with hzero hstop
  · have hshow := shows_byte m cmpTo hoffs.le (show 8 * ptr + (offs : Int) = S + (0 : Nat) by omega)
    generalize ((m ptr).setWidth 32 ^^^ xorVal 32 cmpTo) <<< (24 + offs) = v at hshow hstop ⊢
    by_cases hc : leadingZeroes v < 8 - offs
    · have hfirst := (hshow.leading (by omega) hc)
      simp only [Nat.zero_add] at hfirst
      by_cases hin : leadingZeroes v < N
      · rw [min_eq_left hin.le]
        exact ⟨hin.le, hfirst.holds, fun _ => hfirst.stops hc⟩
      · rw [min_eq_right (not_lt.1 hin)]
        exact leading_of_all fun k hk => hfirst.holds k (by omega)
    · rw [min_eq_right (by omega)]
      exact leading_of_all fun k hk => hshow.goes_on (not_lt.1 hc) (fun k hk => absurd hk (Nat.not_lt_zero k)) k (by omega)
  · have hshow := shows_byte m cmpTo hoffs.le (show 8 * ptr + (offs : Int) = S + (0 : Nat) by omega)
    exact ⟨by omega, by omega, fun k hk =>
      hshow.goes_on (by omega) (fun k hk => absurd hk (Nat.not_lt_zero k)) k (by omega)⟩
  · exact ⟨le_refl N, by omega, fun k hk => absurd hk (by omega)⟩

theorem scanTail_at (h : ScanAt m S N cmpTo (.ok (ptr, rem))) (hrem : rem < 8) :
    Leading (agrees m S cmpTo) N (scanTail m ptr rem N cmpTo) := by
  obtain ⟨hle, hplace, hall⟩ := h
  have hshow := shows_byte m cmpTo (Nat.zero_le 8) (show 8 * ptr + (0 : Nat) = S + (N - rem : Nat) by omega)
  unfold scanTail
  dsimp only
  rw [Nat.add_zero] at hshow
  generalize ((m ptr).setWidth 32 ^^^ xorVal 32 cmpTo) <<< 24 = v at hshow ⊢
  split_ifs with hpos hc
  · have hfirst := (hshow.leading (by decide) (by omega)).add hall
    exact ⟨by omega, hfirst.holds, fun _ => hfirst.stops (by omega)⟩
  · refine leading_of_all fun k hk => ?_
    by_cases hlow : k < N - rem
    · exact hall k hlow
    · have hbit := (leading_leadingZeroes v).all (not_lt.1 hc) (show k - (N - rem) < rem by omega)
      rwa [hshow, decide_eq_true (by omega), Bool.true_and, not_xor_eq_beq, Nat.add_sub_of_le (not_lt.1 hlow)] at hbit
  · exact leading_of_all fun k hk => hall k (by omega)

theorem scanBytes_rem {r : Int × Nat} (h : scanBytes (fun _ => false) m ptr rem N cmpTo = .ok r) : r.2 < 8 := by
  fun_induction scanBytes (fun _ => false) m ptr rem N cmpTo with
  | case1 ptr rem hrem v hv => cases h
  | case2 ptr rem hrem v hv ih => exact ih h
  | case3 ptr rem hrem =>
    cases h
    exact not_le.1 fun hle => hrem ⟨hle, rfl⟩

end

/-- `bits_memscan` gives the length of the run of equal bits at the front. -/
theorem bitsMemscan_leading (m : Memory) (ptr offs : Int) (N : Nat) (cmpTo : Bool) :
    Leading (agrees m (8 * ptr + offs) cmpTo) N (bitsMemscan m ptr offs N cmpTo) := by
  unfold bitsMemscan
  obtain rfl | hpos := Nat.eq_zero_or_pos N
  · rw [if_pos rfl]
    exact leading_of_all fun k hk => absurd hk (Nat.not_lt_zero k)
  rw [if_neg hpos.ne']
  have hhead := @scanHead_at m (8 * ptr + offs) (ptr + offs / 8) N cmpTo (offs % 8).toNat (by omega) (by omega)
  generalize scanHead m (ptr + offs / 8) (offs % 8).toNat N cmpTo = head at hhead ⊢
  rcases head with found | ⟨ptr1, rem1⟩
  · exact hhead
  have hbytes := scanBytes_at (fun p => p % 8 = 0) hhead
  dsimp only [bind, Except.bind]
  generalize scanBytes (fun p => p % 8 = 0) m ptr1 rem1 N cmpTo = bytes at hbytes ⊢
  rcases bytes with found | ⟨ptr2, rem2⟩
  · exact hbytes
  have hwords := scanWords_at hbytes
  dsimp only
  generalize scanWords m ptr2 rem2 N cmpTo = words at hwords ⊢
  rcases words with found | ⟨ptr3, rem3⟩
  · exact hwords
  have hlast := scanBytes_at (fun _ => false) hwords
  have hfew := @scanBytes_rem m ptr3 N rem3 cmpTo
  dsimp only
  generalize scanBytes (fun _ => false) m ptr3 rem3 N cmpTo = last at hlast hfew ⊢
  rcases last with found | ⟨ptr4, rem4⟩
  · exact hlast
  · exact scanTail_at hlast (hfew rfl)

/-! ## Backward -/

/-- The bits of a range that are `cmpTo`, from its end on. -/
def agreesRev (m : Memory) (hi : Int) (cmpTo : Bool) (k : Nat) : Bool := bit m (hi - 1 - k) == cmpTo

/-- A word of which the low `n` bits are those from place `a` before the end on, where they are not `cmpTo`. -/
def ShowsRev {w : Nat} (v : BitVec w) (m : Memory) (hi : Int) (cmpTo : Bool) (a n : Nat) : Prop :=
  ∀ k < n, v.getLsbD k = (bit m (hi - 1 - (a + k : Nat)) ^^ cmpTo)

section

variable {w : Nat} {v : BitVec w} {m : Memory} {hi : Int} {cmpTo : Bool} {a n N : Nat}

theorem ShowsRev.leading (h : ShowsRev v m hi cmpTo a n) (hw : n ≤ w) (hc : trailingZeroes v < n) :
    Leading (fun k => agreesRev m hi cmpTo (a + k)) n (trailingZeroes v) := by
  refine (leading_trailingZeroes v).congr hc hw fun k hk => ?_
  rw [h k hk, not_xor_eq_beq, agreesRev]

theorem ShowsRev.goes_on (h : ShowsRev v m hi cmpTo a n) (hzero : n ≤ trailingZeroes v)
    (ha : ∀ k < a, agreesRev m hi cmpTo k = true) : ∀ k < a + n, agreesRev m hi cmpTo k = true := by
  intro k hk
  by_cases hlow : k < a
  · exact ha k hlow
  · have hbit := (leading_trailingZeroes v).all hzero (show k - a < n by omega)
    rwa [h _ (by omega), not_xor_eq_beq, Nat.add_sub_of_le (not_lt.1 hlow)] at hbit

theorem trailingZeroes_zero : trailingZeroes (0 : BitVec w) = w := by
  refine (leading_trailingZeroes _).unique (leading_of_all fun k _ => ?_)
  rw [Bool.not_eq_true']
  exact BitVec.getLsbD_zero

end

/-- A scan from the end: `res` bits are behind it and `bitCount` before it. -/
def ScanRevAt (m : Memory) (hi : Int) (N : Nat) (cmpTo : Bool) : Except Nat (Int × Nat × Nat) → Prop
  | .error found => Leading (agreesRev m hi cmpTo) N found
  | .ok (ptr, res, bitCount) => res + bitCount = N ∧ 8 * ptr = hi - res ∧ ∀ k < res, agreesRev m hi cmpTo k = true

section

variable {m : Memory} {hi ptr : Int} {N res bitCount : Nat} {cmpTo : Bool}

theorem showsRev_word (hplace : 8 * ptr = hi - res) : ShowsRev (load 32 m (ptr - 4) 4 ^^^ xorVal 32 cmpTo) m hi cmpTo res 32 := by
  intro k hk
  rw [BitVec.getLsbD_xor, getLsbD_load, getLsbD_xorVal, decide_eq_true hk, Bool.true_and, Bool.true_and, Bool.true_and]
  congr 2
  omega

theorem showsRev_byte (hplace : 8 * ptr = hi - res) :
    ShowsRev ((m (ptr - 1)).setWidth 32 ^^^ (xorVal 8 cmpTo).setWidth 32) m hi cmpTo res 8 := by
  intro k hk
  rw [BitVec.getLsbD_xor, BitVec.getLsbD_setWidth, BitVec.getLsbD_setWidth, getLsbD_xorVal, decide_eq_true hk,
    decide_eq_true (by omega : k < 32), Bool.true_and, Bool.true_and, Bool.true_and, getLsbD_byte m _ hk]
  congr 2
  omega

theorem trailingZeroes_byte_lt {x y : BitVec 8} (h : x.setWidth 32 ^^^ y.setWidth 32 ≠ 0) :
    trailingZeroes (x.setWidth 32 ^^^ y.setWidth 32) < 8 := by
  have hlt := trailingZeroes_lt h
  by_contra hge
  have hstop := (leading_trailingZeroes (x.setWidth 32 ^^^ y.setWidth 32)).stops hlt
  rw [BitVec.getLsbD_xor, BitVec.getLsbD_setWidth, BitVec.getLsbD_setWidth, BitVec.getLsbD_of_ge x _ (not_lt.1 hge),
    BitVec.getLsbD_of_ge y _ (not_lt.1 hge)] at hstop
  simp at hstop

/-- A bit of another kind ends the scan. -/
theorem ScanRevAt.found {w n : Nat} {v : BitVec w} (h : ScanRevAt m hi N cmpTo (.ok (ptr, res, bitCount)))
    (hshow : ShowsRev v m hi cmpTo res n) (hw : n ≤ w) (hc : trailingZeroes v < n) (hn : n ≤ bitCount) :
    ScanRevAt m hi N cmpTo (.error (trailingZeroes v + res)) := by
  obtain ⟨hsum, hplace, hall⟩ := h
  rw [Nat.add_comm]
  exact ((hshow.leading hw hc).add hall).extend (by omega) (by omega)

theorem scanRevWords_at (h : ScanRevAt m hi N cmpTo (.ok (ptr, res, bitCount))) :
    ScanRevAt m hi N cmpTo (scanRevWords m ptr res bitCount cmpTo) := by
  fun_induction scanRevWords m ptr res bitCount cmpTo with
  | case1 ptr res bitCount hcount v hv =>
    exact h.found (showsRev_word h.2.1) (by decide) (trailingZeroes_lt hv) hcount
  | case2 ptr res bitCount hcount v hv ih =>
    obtain ⟨hsum, hplace, hall⟩ := h
    have hzero : trailingZeroes v = 32 := by rw [not_not.1 hv, trailingZeroes_zero]
    exact ih ⟨by omega, by omega, (showsRev_word hplace).goes_on hzero.ge hall⟩
  | case3 ptr res bitCount hcount => exact h

theorem scanRevBytes_at (h : ScanRevAt m hi N cmpTo (.ok (ptr, res, bitCount))) :
    ScanRevAt m hi N cmpTo (scanRevBytes m ptr res bitCount cmpTo) := by
  fun_induction scanRevBytes m ptr res bitCount cmpTo with
  | case1 ptr res bitCount hcount v hv =>
    exact h.found (showsRev_byte h.2.1) (by decide) (trailingZeroes_byte_lt hv) hcount
  | case2 ptr res bitCount hcount v hv ih =>
    obtain ⟨hsum, hplace, hall⟩ := h
    have hzero : trailingZeroes v = 32 := by rw [not_not.1 hv, trailingZeroes_zero]
    exact ih ⟨by omega, by omega, (showsRev_byte hplace).goes_on ((show 8 ≤ 32 by decide).trans hzero.ge) hall⟩
  | case3 ptr res bitCount hcount => exact h

theorem scanRevBytes_rem {r : Int × Nat × Nat} (h : scanRevBytes m ptr res bitCount cmpTo = .ok r) : r.2.2 < 8 := by
  fun_induction scanRevBytes m ptr res bitCount cmpTo with
  | case1 ptr res bitCount hcount v hv => cases h
  | case2 ptr res bitCount hcount v hv ih => exact ih h
  | case3 ptr res bitCount hcount =>
    cases h
    exact not_le.1 hcount

/-- The smaller of a run and what is left. -/
theorem leading_min {w n : Nat} {v : BitVec w} {a b : Nat} (hshow : ShowsRev v m hi cmpTo a n) (hw : n ≤ w) (hb : b ≤ n)
    (ha : ∀ k < a, agreesRev m hi cmpTo k = true) : Leading (agreesRev m hi cmpTo) (a + b) (a + min (trailingZeroes v) b) := by
  by_cases hc : trailingZeroes v < b
  · rw [min_eq_left hc.le]
    have hfirst := (hshow.leading hw (by omega)).add ha
    exact ⟨by omega, hfirst.holds, fun _ => hfirst.stops (by omega)⟩
  · rw [min_eq_right (not_lt.1 hc)]
    refine leading_of_all ?_
    have hless : ShowsRev v m hi cmpTo a b := fun k hk => hshow k (by omega)
    exact hless.goes_on (not_lt.1 hc) ha

theorem scanRevTail_at (h : ScanRevAt m hi N cmpTo (.ok (ptr, res, bitCount))) (hrem : bitCount < 8) :
    Leading (agreesRev m hi cmpTo) N (scanRevTail m ptr res bitCount cmpTo) := by
  obtain ⟨hsum, hplace, hall⟩ := h
  unfold scanRevTail
  dsimp only
  split_ifs with hpos
  · rw [← hsum, Nat.add_comm (min _ _)]
    exact leading_min (showsRev_byte hplace) (by decide) hrem.le hall
  · rw [← hsum, show res + bitCount = res by omega]
    exact leading_of_all hall

theorem scanRevHead_at {offs : Nat} (hoffs : offs < 8) (hhi : hi = 8 * ptr + offs) :
    ScanRevAt m hi N cmpTo ((scanRevHead m ptr offs N cmpTo).map fun r => (ptr, r.1, r.2)) := by
  unfold scanRevHead
  dsimp only
  have hshow : ShowsRev ((m ptr >>> (8 - offs)).setWidth 32 ^^^ xorVal 32 cmpTo) m hi cmpTo 0 offs := by
    intro k hk
    rw [BitVec.getLsbD_xor, BitVec.getLsbD_setWidth, BitVec.getLsbD_ushiftRight, getLsbD_xorVal, decide_eq_true (by omega : k < 32),
      Bool.true_and, Bool.true_and, getLsbD_byte m _ (by omega)]
    congr 2
    omega
  have hnone : ∀ k < 0, agreesRev m hi cmpTo k = true := fun k hk => absurd hk (Nat.not_lt_zero k)
  generalize (m ptr >>> (8 - offs)).setWidth 32 ^^^ xorVal 32 cmpTo = v at hshow ⊢
  split_ifs with hzero hstop
  · show Leading _ _ _
    by_cases hN : N ≤ offs
    · have hmin := leading_min hshow (by omega) hN hnone
      rwa [Nat.zero_add, Nat.zero_add] at hmin
    · rw [min_eq_left (by omega)]
      have hfirst := hshow.leading (by omega) (hstop.resolve_right hN)
      simp only [Nat.zero_add] at hfirst
      exact hfirst.extend (hstop.resolve_right hN) (by omega)
  · refine ⟨by omega, by omega, ?_⟩
    have hall := hshow.goes_on (by omega) hnone
    rwa [Nat.zero_add] at hall
  · exact ⟨Nat.zero_add N, by omega, hnone⟩

end

/-- `bits_memscan_rev` gives the length of the run of equal bits at the end, where the end has no address below zero. -/
theorem bitsMemscanRev_leading (m : Memory) (ptr : Int) {offs : Int} {N : Nat} (cmpTo : Bool) (hend : N = 0 ∨ 0 ≤ offs + N) :
    Leading (agreesRev m (8 * ptr + offs + N) cmpTo) N (bitsMemscanRev m ptr offs N cmpTo) := by
  unfold bitsMemscanRev
  obtain rfl | hpos := Nat.eq_zero_or_pos N
  · rw [if_pos rfl]
    exact leading_of_all fun k hk => absurd hk (Nat.not_lt_zero k)
  rw [if_neg hpos.ne']
  have hsum : sizeSum offs N = offs + N := if_neg (by omega)
  dsimp only
  rw [hsum]
  have hhead := @scanRevHead_at m (8 * ptr + offs + N) (ptr + (offs + N) / 8) N cmpTo ((offs + N) % 8).toNat (by omega) (by omega)
  generalize scanRevHead m (ptr + (offs + N) / 8) ((offs + N) % 8).toNat N cmpTo = head at hhead ⊢
  rcases head with found | ⟨res1, rem1⟩
  · exact hhead
  have hwords := scanRevWords_at hhead
  dsimp only [bind, Except.bind]
  generalize scanRevWords m (ptr + (offs + N) / 8) res1 rem1 cmpTo = words at hwords ⊢
  rcases words with found | ⟨ptr2, res2, rem2⟩
  · exact hwords
  have hbytes := scanRevBytes_at hwords
  have hfew := @scanRevBytes_rem m ptr2 res2 rem2 cmpTo
  dsimp only
  generalize scanRevBytes m ptr2 res2 rem2 cmpTo = bytes at hbytes hfew ⊢
  rcases bytes with found | ⟨ptr3, res3, rem3⟩
  · exact hbytes
  · exact scanRevTail_at hbytes (hfew rfl)

/-- A range that ends below address zero is looked for at the other end of the addresses. -/
theorem bitsMemscanRev_wrap (m : Memory) (ptr : Int) {offs : Int} {N : Nat} (cmpTo : Bool) (h0 : -18446744073709551616 ≤ offs + N)
    (h1 : offs + N < 0) : bitsMemscanRev m ptr offs N cmpTo = bitsMemscanRev m ptr (offs + 18446744073709551616) N cmpTo := by
  have hsum : sizeSum offs N = sizeSum (offs + 18446744073709551616) N := by
    unfold sizeSum
    rw [if_pos h1, if_neg (by omega)]
    omega
  unfold bitsMemscanRev
  rw [hsum]

/-- There the result is wrong for some contents. -/
theorem bitsMemscanRev_below (ptr : Int) {offs : Int} {N : Nat} (hint : -2147483648 ≤ offs) (hN : N ≠ 0) (h1 : offs + N < 0) :
    ∃ m, ¬Leading (agreesRev m (8 * ptr + offs + N) false) N (bitsMemscanRev m ptr offs N false) := by
  refine ⟨fun a => if a < ptr then 0#8 else 0xff#8, fun hleading => ?_⟩
  generalize hm : (fun a : Int => if a < ptr then 0#8 else 0xff#8) = m at hleading
  have hlow : ∀ i < 8 * ptr, bit m i = false := by
    intro i hi
    rw [← hm]
    unfold bit
    dsimp only
    rw [if_pos (by omega)]
    exact BitVec.getLsbD_zero
  have hhigh : ∀ i, 8 * ptr ≤ i → bit m i = true := by
    intro i hi
    rw [← hm]
    unfold bit
    dsimp only
    rw [if_neg (by omega), show (0xff#8) = BitVec.allOnes 8 from rfl, BitVec.getLsbD_allOnes, decide_eq_true (by omega)]
  have hall : Leading (agreesRev m (8 * ptr + offs + N) false) N N := leading_of_all fun k hk => by
    rw [agreesRev, hlow _ (by omega)]
    rfl
  have hreal := @bitsMemscanRev_leading m ptr (offs + 18446744073709551616) N false (.inr (by omega))
  rw [← bitsMemscanRev_wrap m ptr false (by omega) h1, hleading.unique hall] at hreal
  have hfirst := hreal.holds 0 (by omega)
  rw [agreesRev, hhigh _ (by omega)] at hfirst
  cases hfirst

end TonWallet.Td.Bitstring
