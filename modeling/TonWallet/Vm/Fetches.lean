/-
What is stored is read back: the bits and references a builder puts into a cell one after the other are those that
fetches take out of it in the same order, whatever comes behind them.
-/
import TonWallet.Vm.CellBuilder

namespace TonWallet.Vm

open Lib TonWallet.Td TonWallet.Ton

/-! ## More operations on slices -/

namespace Fetch

/-- `advance`. -/
def advance (bits : Nat) : Fetch Unit := do
  let _ ← fetchBits bits

/-- `advance_ext` and `skip_first`. -/
def advanceExt (bits refs : Nat) : Fetch Unit := fun cs =>
  if bits ≤ cs.size ∧ refs ≤ cs.sizeRefs then some ((), { cs with bits := cs.bits.drop bits, refs := cs.refs.drop refs })
  else none

/-- `prefetch_ulong`, where too few bits end in false. -/
def prefetchUint (bits : Nat) : Fetch Nat := fun cs =>
  if bits ≤ cs.size then some (bitsToNat (cs.bits.take bits), cs) else none

/-- `bselect`, which numbers the constructors whose tags begin with the next bits. -/
def bselect (bits mask : Nat) : Fetch Nat := do
  let n ← prefetchUint bits
  let k := (List.range (n + 1)).countP mask.testBit
  guard (0 < k)
  return k - 1

/-- `fetch_to` of a type that `skip` runs over: the part that it runs over. -/
def fetchTo (skip : Fetch Unit) : Fetch CellSlice := fun cs => do
  let ((), rest) ← skip cs
  return ({ cs with
    bits := cs.bits.take (cs.size - rest.size), refs := cs.refs.take (cs.sizeRefs - rest.sizeRefs) }, rest)

variable {α β : Type}

/-- One fetch and then another. -/
theorem bind_eq_some {f : Fetch α} {g : α → Fetch β} {cs : CellSlice} {r : β × CellSlice} :
    (f >>= g) cs = some r ↔ ∃ a cs', f cs = some (a, cs') ∧ g a cs' = some r := by
  constructor
  · intro h
    obtain ⟨⟨a, cs'⟩, hf, hg⟩ := Option.bind_eq_some_iff.1 h
    exact ⟨a, cs', hf, hg⟩
  · rintro ⟨a, cs', hf, hg⟩
    exact Option.bind_eq_some_iff.2 ⟨(a, cs'), hf, hg⟩

theorem fetchUint_eq_some {n v : Nat} {cs cs' : CellSlice} :
    fetchUint n cs = some (v, cs') ↔
      n ≤ cs.bits.length ∧ v = bitsToNat (cs.bits.take n) ∧ cs' = { cs with bits := cs.bits.drop n } := by
  by_cases hfit : n ≤ cs.size
  · have heq : fetchUint n cs = some (bitsToNat (cs.bits.take n), { cs with bits := cs.bits.drop n }) := by
      show (fetchBits n cs).bind _ = _
      rw [fetchBits, if_pos hfit]
      rfl
    rw [heq, Option.some.injEq, Prod.mk.injEq]
    exact ⟨fun h => ⟨hfit, h.1.symm, h.2.symm⟩, fun h => ⟨h.2.1.symm, h.2.2.symm⟩⟩
  · have heq : fetchUint n cs = none := by
      show (fetchBits n cs).bind _ = _
      rw [fetchBits, if_neg hfit]
      rfl
    rw [heq]
    constructor
    · rintro ⟨⟩
    · rintro ⟨h, -⟩
      exact absurd h hfit

/-- A condition that is tested between two fetches. -/
theorem guard_bind_eq_some {p : Prop} [Decidable p] {g : Unit → Fetch β} {cs : CellSlice} {r : β × CellSlice} :
    ((guard p : Fetch Unit) >>= g) cs = some r ↔ p ∧ g () cs = some r := by
  by_cases hp : p
  · have heq : ((guard p : Fetch Unit) >>= g) cs = g () cs := by
      rw [guard, if_pos hp]
      rfl
    rw [heq]
    exact ⟨fun h => ⟨hp, h⟩, fun h => h.2⟩
  · have heq : ((guard p : Fetch Unit) >>= g) cs = none := by
      rw [guard, if_neg hp]
      rfl
    rw [heq]
    constructor
    · rintro ⟨⟩
    · rintro ⟨h, -⟩
      exact absurd h hp

end Fetch

/-! ## Reading back -/

/-- The bits and references of a slice. -/
structure CellSlice.Holds (cs : CellSlice) (s : Slice) : Prop where
  bits : cs.bits = s.bits
  refs : cs.refs = s.refs

/-- A fetch takes `s` from the front of a slice and gives what meets `P`. -/
def Fetches {α : Type} (f : Fetch α) (s : Slice) (P : α → Prop) : Prop :=
  ∀ (cs : CellSlice) (rest : Slice), cs.Holds (s.append rest) →
    ∃ a, f cs = some (a, { cs with bits := rest.bits, refs := rest.refs }) ∧ P a

namespace Fetches

variable {α β : Type} {f : Fetch α} {g : α → Fetch β} {s t : Slice} {P : α → Prop} {Q : β → Prop}

theorem pure {a : α} (h : P a) : Fetches (Pure.pure a) Slice.empty P := by
  intro cs rest hcs
  refine ⟨a, ?_, h⟩
  rw [← show cs.bits = rest.bits from hcs.bits, ← show cs.refs = rest.refs from hcs.refs]
  rfl

/-- One fetch after the other. -/
theorem bind (hf : Fetches f s P) (hg : ∀ a, P a → Fetches (g a) t Q) : Fetches (f >>= g) (s.append t) Q := by
  intro cs rest hcs
  rw [Slice.append_assoc] at hcs
  obtain ⟨a, ha, hP⟩ := hf cs (t.append rest) hcs
  obtain ⟨b, hb, hQ⟩ := hg a hP { cs with bits := (t.append rest).bits, refs := (t.append rest).refs } rest ⟨rfl, rfl⟩
  refine ⟨b, ?_, hQ⟩
  show (f cs).bind _ = _
  rw [ha]
  exact hb

/-- The last fetch. -/
theorem map {h : α → β} (hf : Fetches f s P) (hQ : ∀ a, P a → Q (h a)) :
    Fetches (f >>= fun a => Pure.pure (h a)) s Q := by
  rw [← Slice.append_empty s]
  exact hf.bind fun a ha => Fetches.pure (hQ a ha)

theorem imp {R : α → Prop} (hf : Fetches f s P) (h : ∀ a, P a → R a) : Fetches f s R := by
  intro cs rest hcs
  obtain ⟨a, ha, hP⟩ := hf cs rest hcs
  exact ⟨a, ha, h a hP⟩

/-- What is looked at is not taken. -/
theorem prefetch {g : Nat → Fetch β} {bits : Nat} (hlen : bits ≤ s.bits.length)
    (h : Fetches (g (bitsToNat (s.bits.take bits))) s Q) : Fetches (Fetch.prefetchUint bits >>= g) s Q := by
  intro cs rest hcs
  have hsize : bits ≤ cs.size := by
    show bits ≤ cs.bits.length
    rw [hcs.bits, Slice.append_bits, List.length_append]
    omega
  have htake : cs.bits.take bits = s.bits.take bits := by
    rw [hcs.bits, Slice.append_bits, List.take_append_of_le_length hlen]
  obtain ⟨b, hb, hQ⟩ := h cs rest hcs
  refine ⟨b, ?_, hQ⟩
  show (Fetch.prefetchUint bits cs).bind _ = _
  rw [Fetch.prefetchUint, if_pos hsize, htake]
  exact hb

/-- A tag that is looked at. -/
theorem bselect {g : Nat → Fetch β} {bits mask k : Nat} (hlen : bits ≤ s.bits.length)
    (hk : (List.range (bitsToNat (s.bits.take bits) + 1)).countP mask.testBit = k + 1) (h : Fetches (g k) s Q) :
    Fetches (Fetch.bselect bits mask >>= g) s Q := by
  have hprefetch : Fetches (Fetch.prefetchUint bits >>= fun n => (do
      let k := (List.range (n + 1)).countP mask.testBit
      guard (0 < k)
      return k - 1 : Fetch Nat) >>= g) s Q := by
    refine prefetch hlen ?_
    simp only [hk, Nat.zero_lt_succ, guard_true, Nat.add_sub_cancel, pure_bind]
    exact h
  simpa only [Fetch.bselect, bind_assoc] using hprefetch

theorem fetchBits {n : Nat} {bits : List Bool} (h : bits.length = n) : Fetches (Fetch.fetchBits n) ⟨bits, []⟩ (· = bits) := by
  intro cs rest hcs
  have hbits : cs.bits = bits ++ rest.bits := hcs.bits
  have hrefs : cs.refs = rest.refs := hcs.refs
  have hsize : n ≤ cs.size := by
    show n ≤ cs.bits.length
    rw [hbits, List.length_append]
    omega
  refine ⟨bits, ?_, rfl⟩
  rw [Fetch.fetchBits, if_pos hsize, hbits, List.take_left' h, List.drop_left' h, ← hrefs]

theorem fetchUint {n : Nat} {bits : List Bool} (h : bits.length = n) :
    Fetches (Fetch.fetchUint n) ⟨bits, []⟩ (· = bitsToNat bits) :=
  (fetchBits h).map fun _ ha => by rw [ha]

theorem fetchUint_natToBits {n v : Nat} (hv : v < 2 ^ n) : Fetches (Fetch.fetchUint n) ⟨natToBits n v, []⟩ (· = v) :=
  (fetchUint (length_natToBits n v)).imp fun _ ha => by rw [ha, bitsToNat_natToBits, Nat.mod_eq_of_lt hv]

/-- A condition that holds is passed. -/
theorem guard_bind {p : Prop} [Decidable p] {g : Unit → Fetch β} (hp : p) (h : Fetches (g ()) s Q) :
    Fetches ((guard p : Fetch Unit) >>= g) s Q := by
  intro cs rest hcs
  obtain ⟨b, hb, hQ⟩ := h cs rest hcs
  exact ⟨b, Fetch.guard_bind_eq_some.2 ⟨hp, hb⟩, hQ⟩

theorem fetchUintInt {n v : Nat} (hv : v < 2 ^ n) (hint : v < 2 ^ 31) :
    Fetches (Fetch.fetchUintInt n) ⟨natToBits n v, []⟩ (· = v) := by
  rw [← Slice.append_empty ⟨natToBits n v, []⟩]
  refine (fetchUint_natToBits hv).bind fun a ha => ?_
  subst ha
  exact guard_bind hint (Fetches.pure rfl)

theorem fetchTag {n tag : Nat} {bits : List Bool} (h : bits.length = n) (htag : bitsToNat bits = tag) :
    Fetches (Fetch.fetchTag n tag) ⟨bits, []⟩ fun _ => True := by
  rw [← Slice.append_empty ⟨bits, []⟩]
  refine (fetchUint h).bind fun a ha => ?_
  rw [ha, htag]
  simp only [guard_true]
  exact Fetches.pure trivial

theorem fetchBool (b : Bool) : Fetches Fetch.fetchBool ⟨[b], []⟩ (· = b) :=
  (fetchUint (n := 1) rfl).map fun _ ha => by
    rw [ha]
    cases b <;> rfl

/-- A signed number, as its low bits. -/
theorem fetchInt {n : Nat} (x : BitVec n) : Fetches (Fetch.fetchInt n) ⟨natToBits n x.toNat, []⟩ (· = x.toInt) :=
  (fetchUint_natToBits x.isLt).map fun _ ha => by rw [ha, BitVec.ofNat_toNat, BitVec.setWidth_eq]

theorem fetchHash (h : Bits256) : Fetches Fetch.fetchHash ⟨natToBits 256 h.toNat, []⟩ (· = h) :=
  (fetchUint_natToBits h.isLt).map fun _ ha => by rw [ha, BitVec.ofNat_toNat, BitVec.setWidth_eq]

theorem advance {n : Nat} {bits : List Bool} (h : bits.length = n) : Fetches (Fetch.advance n) ⟨bits, []⟩ fun _ => True :=
  (fetchBits h).map fun _ _ => trivial

theorem advanceExt {n m : Nat} (hbits : s.bits.length = n) (hrefs : s.refs.length = m) :
    Fetches (Fetch.advanceExt n m) s fun _ => True := by
  intro cs rest hcs
  have hfit : n ≤ cs.size ∧ m ≤ cs.sizeRefs := by
    constructor
    · show n ≤ cs.bits.length
      rw [hcs.bits, Slice.append_bits, List.length_append]
      omega
    · show m ≤ cs.refs.length
      rw [hcs.refs, Slice.append_refs, List.length_append]
      omega
  refine ⟨(), ?_, trivial⟩
  rw [Fetch.advanceExt, if_pos hfit, hcs.bits, hcs.refs, Slice.append_bits, Slice.append_refs, List.drop_left' hbits,
    List.drop_left' hrefs]

/-- The part that is run over is cut out. -/
theorem fetchTo {skip : Fetch Unit} (h : Fetches skip s fun _ => True) : Fetches (Fetch.fetchTo skip) s (·.Holds s) := by
  intro cs rest hcs
  obtain ⟨⟨⟩, hskip, -⟩ := h cs rest hcs
  have hbits : cs.size - rest.bits.length = s.bits.length := by
    show cs.bits.length - rest.bits.length = _
    rw [hcs.bits, Slice.append_bits, List.length_append, Nat.add_sub_cancel]
  have hrefs : cs.sizeRefs - rest.refs.length = s.refs.length := by
    show cs.refs.length - rest.refs.length = _
    rw [hcs.refs, Slice.append_refs, List.length_append, Nat.add_sub_cancel]
  refine ⟨{ cs with bits := s.bits, refs := s.refs }, ?_, ⟨rfl, rfl⟩⟩
  show (skip cs).bind _ = _
  rw [hskip]
  show some ({ cs with
    bits := cs.bits.take (cs.size - rest.bits.length), refs := cs.refs.take (cs.sizeRefs - rest.refs.length) }, _) = _
  rw [hbits, hrefs, hcs.bits, hcs.refs, Slice.append_bits, Slice.append_refs, List.take_left, List.take_left]

/-- A slice that holds nothing else is unpacked. -/
theorem unpackExact {cs : CellSlice} (h : Fetches f s P) (hcs : cs.Holds s) : ∃ a, unpackExact f cs = some a ∧ P a := by
  obtain ⟨a, ha, hP⟩ := h cs Slice.empty (by rwa [Slice.append_empty])
  refine ⟨a, ?_, hP⟩
  show (f cs).bind _ = _
  rw [ha]
  rfl

/-- The last fetch takes what is left. -/
theorem unpackExact_bind {cs : CellSlice} (hf : Fetches f s P)
    (hg : ∀ a, P a → ∀ cs : CellSlice, cs.Holds t → ∃ b, Vm.unpackExact (g a) cs = some b ∧ Q b)
    (hcs : cs.Holds (s.append t)) : ∃ b, Vm.unpackExact (f >>= g) cs = some b ∧ Q b := by
  obtain ⟨a, ha, hP⟩ := hf cs t hcs
  obtain ⟨b, hb, hQ⟩ := hg a hP { cs with bits := t.bits, refs := t.refs } ⟨rfl, rfl⟩
  refine ⟨b, ?_, hQ⟩
  rw [← hb]
  show ((f cs).bind _ : Option (β × CellSlice)).bind _ = _
  rw [ha]
  rfl

end Fetches

/-! ## Storing -/

/-- A store adds `s` to a builder that has room for it. -/
def Stores (f : CellBuilder → Result CellBuilder) (s : Slice) : Prop :=
  ∀ cb : CellBuilder, cb.bits.length + s.bits.length ≤ maxBits → cb.refs.length + s.refs.length ≤ maxRefs →
    f cb = .ok ⟨cb.bits ++ s.bits, cb.refs ++ s.refs⟩

namespace Stores

variable {f g : CellBuilder → Result CellBuilder} {s t : Slice}

theorem bind (hf : Stores f s) (hg : Stores g t) : Stores (fun cb => f cb >>= g) (s.append t) := by
  intro cb hbits hrefs
  rw [Slice.append_bits, List.length_append] at hbits
  rw [Slice.append_refs, List.length_append] at hrefs
  have hfirst := hf cb (by omega) (by omega)
  have hsecond := hg ⟨cb.bits ++ s.bits, cb.refs ++ s.refs⟩ (by rw [List.length_append]; omega)
    (by rw [List.length_append]; omega)
  show f cb >>= g = _
  rw [hfirst]
  show g _ = _
  rw [hsecond, Slice.append_bits, Slice.append_refs, List.append_assoc, List.append_assoc]

theorem storeBits (bits : List Bool) : Stores (CellBuilder.storeBits bits) ⟨bits, []⟩ := by
  intro cb hbits hrefs
  have hfit : cb.canExtendBy bits.length 0 = true := by
    simp only [CellBuilder.canExtendBy, Bool.and_eq_true, decide_eq_true_eq, Nat.zero_le, and_true]
    exact Nat.le_sub_of_add_le (by rw [Nat.add_comm]; exact hbits)
  rw [CellBuilder.storeBits, if_pos hfit, List.append_nil]

end Stores

end TonWallet.Vm
