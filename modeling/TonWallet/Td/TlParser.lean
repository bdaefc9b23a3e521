/-
`td::TlParser`, a reader of words of fixed sizes. The bytes are copied without a test where they stand, so the reader is
modelled with the memory behind its pointer, and a copy from beyond it has no result. A reader that has failed is moved to a
buffer of zeros of its own, at every further read.
-/
import TonWallet.Lib.WordBytes
import TonWallet.Td.Status

namespace TonWallet.Td

open Lib

/-- `sizeof(empty_data)`. -/
def emptySize : Nat := 32

/-- `TlParser`: `data` is the memory from its pointer on. -/
structure TlParser where
  data : List UInt8
  dataLen : Nat
  leftLen : Nat
  error : Option (String × Nat)
  deriving DecidableEq

/-- A step of a reader, without a result where it leaves the memory. -/
abbrev TlParse := StateT TlParser Option

namespace TlParser

/-- `TlParser(slice)`. -/
def ofSlice (slice : List UInt8) : TlParser := ⟨slice, slice.length, slice.length, none⟩

/-- `set_error`; the position is that of the first error. -/
def setError (message : String) (p : TlParser) : TlParser where
  data := List.replicate emptySize 0
  dataLen := 0
  leftLen := 0
  error := some (p.error.getD (message, p.dataLen - p.leftLen))

/-- `get_status`. -/
def getStatus (p : TlParser) : Except Status Unit :=
  match p.error with
  | none => .ok ()
  | some (message, pos) => .error (.error (message ++ " at " ++ toString pos))

/-- `check_len`. -/
def checkLen (len : Nat) (p : TlParser) : TlParser :=
  if p.leftLen < len then p.setError "Not enough data to read" else { p with leftLen := p.leftLen - len }

/-- `memcpy` of some bytes from the pointer. -/
def copy (len : Nat) (p : TlParser) : Option (List UInt8) := if len ≤ p.data.length then some (p.data.take len) else none

/-- `can_prefetch_int`. -/
def canPrefetchInt (p : TlParser) : Bool := 4 ≤ p.leftLen

/-- `fetch_binary_unsafe`. -/
def fetchUnsafe (len : Nat) : TlParse (List UInt8) := fun p =>
  (p.copy len).map fun bs => (bs, { p with data := p.data.drop len })

/-- `fetch_binary`. -/
def fetchBinary (len : Nat) : TlParse (List UInt8) := fun p => fetchUnsafe len (p.checkLen len)

/-- `prefetch_int_unsafe`. -/
def prefetchIntUnsafe (p : TlParser) : Option Int32 := (p.copy 4).map fun bs => .ofBitVec (.ofNat 32 (ofWordBytes bs))

/-- `fetch_int`. -/
def fetchInt : TlParse Int32 := (fun bs => .ofBitVec (.ofNat 32 (ofWordBytes bs))) <$> fetchBinary 4

/-- `fetch_long`, as the bits of the word. -/
def fetchLong : TlParse (BitVec 64) := (fun bs => .ofNat 64 (ofWordBytes bs)) <$> fetchBinary 8

/-- `fetch_end`. -/
def fetchEnd (p : TlParser) : TlParser := if p.leftLen ≠ 0 then p.setError "Too much data to fetch" else p

/-! ## What a reader stands in -/

/-- A reader that has not failed has as much memory as bytes to read; one that has stands in the buffer of zeros or behind. -/
structure Inv (p : TlParser) : Prop where
  live : p.error = none → p.data.length = p.leftLen
  failed : p.error ≠ none → p.leftLen = 0

theorem inv_ofSlice (slice : List UInt8) : (ofSlice slice).Inv := ⟨fun _ => rfl, fun h => absurd rfl h⟩

@[simp] theorem error_setError (message : String) (p : TlParser) : (p.setError message).error ≠ none := by
  simp [setError]

/-! ## Reads of a fixed number of bytes -/

/-- The reader `n` bytes further. -/
def skip (n : Nat) (p : TlParser) : TlParser := { p with data := p.data.drop n, leftLen := p.leftLen - n }

@[simp] theorem error_skip (n : Nat) (p : TlParser) : (p.skip n).error = p.error := rfl
@[simp] theorem leftLen_skip (n : Nat) (p : TlParser) : (p.skip n).leftLen = p.leftLen - n := rfl
@[simp] theorem data_skip (n : Nat) (p : TlParser) : (p.skip n).data = p.data.drop n := rfl

@[simp] theorem skip_skip (n l : Nat) (p : TlParser) : (p.skip n).skip l = p.skip (n + l) := by
  simp [skip, Nat.sub_sub]

theorem Inv.skip {p : TlParser} (h : p.Inv) (herr : p.error = none) (n : Nat) : (p.skip n).Inv :=
  ⟨fun _ => by rw [data_skip, leftLen_skip, List.length_drop, h.live herr], fun hne => absurd herr hne⟩

variable {α β : Type} {m : TlParse α} {k : α → TlParse β} {n l : Nat} {bs cs : List UInt8} {a : α} {b : β}

/-- `m` reads `n` bytes; when they are not there, it ends with a failed reader. It never leaves the memory. -/
structure Sized (m : TlParse α) (n : Nat) : Prop where
  read : ∀ {p : TlParser}, p.Inv → p.error = none → n ≤ p.leftLen → ∃ a, m p = some (a, p.skip n)
  short : ∀ {p : TlParser}, p.Inv → p.error ≠ none ∨ p.leftLen < n →
    ∃ a p', m p = some (a, p') ∧ p'.Inv ∧ p'.error ≠ none

/-- From the bytes `bs` the result of `m` is `a`. -/
def Reads (m : TlParse α) (bs : List UInt8) (a : α) : Prop :=
  ∀ p : TlParser, p.Inv → p.error = none → bs <+: p.data → m p = some (a, p.skip bs.length)

theorem bind_apply {m : TlParse α} {k : α → TlParse β} (p : TlParser) : (m >>= k) p = (m p).bind fun x => k x.1 x.2 := rfl

theorem map_apply {m : TlParse α} (e : α → β) (p : TlParser) : (e <$> m) p = (m p).bind fun x => some (e x.1, x.2) := rfl

namespace Sized

protected theorem pure (a : α) : Sized (pure a) 0 := by
  constructor
  · intro p _ _ _
    exact ⟨a, rfl⟩
  · intro p hp hshort
    exact ⟨a, p, rfl, hp, hshort.resolve_right (Nat.not_lt_zero _)⟩

theorem map (h : Sized m n) (e : α → β) : Sized (e <$> m) n := by
  constructor
  · intro p hp herr hn
    obtain ⟨a, ha⟩ := h.read hp herr hn
    exact ⟨e a, by rw [map_apply, ha]; rfl⟩
  · intro p hp hshort
    obtain ⟨a, p', hm, hp', herr⟩ := h.short hp hshort
    exact ⟨e a, p', by rw [map_apply, hm]; rfl, hp', herr⟩

/-- A read and then one that may depend on it, of known sizes. -/
theorem bind (h : Sized m n) (hk : ∀ a, Sized (k a) l) : Sized (m >>= k) (n + l) := by
  constructor
  · intro p hp herr hn
    obtain ⟨a, ha⟩ := h.read hp herr (by omega)
    obtain ⟨b, hb⟩ := (hk a).read (hp.skip herr n) herr (by rw [leftLen_skip]; omega)
    exact ⟨b, by rw [bind_apply, ha, Option.bind_some, hb, skip_skip]⟩
  · intro p hp hshort
    by_cases hn : p.error ≠ none ∨ p.leftLen < n
    · obtain ⟨a, p', hm, hp', herr⟩ := h.short hp hn
      obtain ⟨b, q, hkq, hq, hqerr⟩ := (hk a).short hp' (.inl herr)
      exact ⟨b, q, by rw [bind_apply, hm, Option.bind_some, hkq], hq, hqerr⟩
    · -- the first read succeeds, and the bytes end within the second
      rw [not_or, not_not] at hn
      obtain ⟨herr, hle⟩ := hn
      obtain ⟨a, ha⟩ := h.read hp herr (by omega)
      have hlt : (p.skip n).leftLen < l := by
        rw [leftLen_skip]
        have := hshort.resolve_left (not_not.2 herr)
        omega
      obtain ⟨b, q, hkq, hq, hqerr⟩ := (hk a).short (hp.skip herr n) (.inr hlt)
      exact ⟨b, q, by rw [bind_apply, ha, Option.bind_some, hkq], hq, hqerr⟩

/-- A read of known size has a result wherever the reader stands. -/
theorem total (h : Sized m n) {p : TlParser} (hp : p.Inv) : ∃ a p', m p = some (a, p') ∧ p'.Inv := by
  by_cases hn : p.error ≠ none ∨ p.leftLen < n
  · obtain ⟨a, p', hm, hp', -⟩ := h.short hp hn
    exact ⟨a, p', hm, hp'⟩
  · rw [not_or, not_not] at hn
    obtain ⟨a, ha⟩ := h.read hp hn.1 (not_lt.1 hn.2)
    exact ⟨a, p.skip n, ha, hp.skip hn.1 n⟩

end Sized

namespace Reads

protected theorem pure (a : α) : Reads (pure a) [] a := by
  intro p _ _ _
  rfl

theorem map (h : Reads m bs a) (e : α → β) : Reads (e <$> m) bs (e a) := by
  intro p hp herr hbs
  rw [map_apply, h p hp herr hbs]
  rfl

theorem bind (h : Reads m bs a) (hk : Reads (k a) cs b) : Reads (m >>= k) (bs ++ cs) b := by
  intro p hp herr hbs
  obtain ⟨rest, hrest⟩ := hbs
  have hcs : cs <+: (p.skip bs.length).data := by
    rw [data_skip, ← hrest, List.append_assoc, List.drop_left]
    exact List.prefix_append _ _
  rw [bind_apply, h p hp herr ⟨cs ++ rest, by rw [← hrest, List.append_assoc]⟩, Option.bind_some,
    hk _ (hp.skip herr _) herr hcs, skip_skip, List.length_append]

end Reads

/-- A read fits the buffer of zeros, so it leaves no memory. -/
theorem sized_fetchBinary (hpos : 0 < n) (hn : n ≤ emptySize) : Sized (fetchBinary n) n := by
  constructor
  · intro p hp herr hle
    have hlen := hp.live herr
    refine ⟨p.data.take n, ?_⟩
    simp only [fetchBinary, fetchUnsafe, checkLen, if_neg (not_lt.2 hle), copy, hlen, if_pos hle]
    rfl
  · intro p hp hshort
    have hlt : p.leftLen < n := by
      rcases hshort with herr | hlt
      · rw [hp.failed herr]
        exact hpos
      · exact hlt
    refine ⟨List.take n (List.replicate emptySize 0),
      { p.setError "Not enough data to read" with data := (List.replicate emptySize 0).drop n }, ?_, ?_, ?_⟩
    · simp only [fetchBinary, fetchUnsafe, checkLen, if_pos hlt, copy, setError, List.length_replicate, if_pos hn]
      rfl
    · exact ⟨nofun, fun _ => rfl⟩
    · exact error_setError _ _

theorem reads_fetchBinary (bs : List UInt8) : Reads (fetchBinary bs.length) bs bs := by
  intro p hp herr hbs
  have hlen := hp.live herr
  have hle : bs.length ≤ p.leftLen := hlen ▸ hbs.length_le
  simp only [fetchBinary, fetchUnsafe, checkLen, if_neg (not_lt.2 hle), copy, hlen, if_pos hle, Option.map_some,
    ← List.prefix_iff_eq_take.1 hbs]
  rfl

theorem sized_fetchInt : Sized fetchInt 4 := (sized_fetchBinary (by decide) (by decide)).map _

theorem sized_fetchLong : Sized fetchLong 8 := (sized_fetchBinary (by decide) (by decide)).map _

/-! ## The bytes of words -/

/-- `store_binary` of an `int32`. -/
def storeInt (x : Int32) : List UInt8 := wordBytes 4 x.toBitVec.toNat

/-- `store_binary` of an `int64` or `uint64`. -/
def storeLong (x : BitVec 64) : List UInt8 := wordBytes 8 x.toNat

@[simp] theorem length_storeInt (x : Int32) : (storeInt x).length = 4 := length_wordBytes _ _

@[simp] theorem length_storeLong (x : BitVec 64) : (storeLong x).length = 8 := length_wordBytes _ _

theorem ofWordBytes_storeInt (x : Int32) : Int32.ofBitVec (.ofNat 32 (ofWordBytes (storeInt x))) = x := by
  rw [storeInt, ofWordBytes_wordBytes, show 256 ^ 4 = 2 ^ 32 from rfl, Nat.mod_eq_of_lt x.toBitVec.isLt, BitVec.ofNat_toNat,
    BitVec.setWidth_eq, Int32.ofBitVec_toBitVec]

theorem reads_fetchInt (x : Int32) : Reads fetchInt (storeInt x) x := by
  have h := Reads.map (reads_fetchBinary (storeInt x)) fun bs => Int32.ofBitVec (.ofNat 32 (ofWordBytes bs))
  rwa [ofWordBytes_storeInt, length_storeInt] at h

theorem reads_fetchLong (x : BitVec 64) : Reads fetchLong (storeLong x) x := by
  have hx : BitVec.ofNat 64 (ofWordBytes (storeLong x)) = x := by
    rw [storeLong, ofWordBytes_wordBytes, show 256 ^ 8 = 2 ^ 64 from rfl, Nat.mod_eq_of_lt x.isLt, BitVec.ofNat_toNat,
      BitVec.setWidth_eq]
  have h := Reads.map (reads_fetchBinary (storeLong x)) fun bs => BitVec.ofNat 64 (ofWordBytes bs)
  rwa [hx, length_storeLong] at h

/-! ## Whole values -/

/-- `unserialize`. -/
def unserialize (m : TlParse α) (data : List UInt8) : Option (Except Status α) :=
  (m (ofSlice data)).map fun x => x.2.fetchEnd.getStatus.map fun _ => x.1

theorem unserialize_of_reads (h : Reads m bs a) : unserialize m bs = some (.ok a) := by
  rw [unserialize, h _ (inv_ofSlice bs) rfl List.prefix_rfl]
  simp [ofSlice, TlParser.skip, fetchEnd, getStatus, Except.map]

/-- A failed reader stays so to the end. -/
theorem getStatus_fetchEnd {p : TlParser} (h : p.error ≠ none) : ∃ status, p.fetchEnd.getStatus = .error status := by
  obtain ⟨e, he⟩ := Option.ne_none_iff_exists'.1 h
  unfold fetchEnd
  split <;> simp [getStatus, setError, he]

end TlParser

end TonWallet.Td
