/-
Which DNS entries there are records of, and that a record is read as the entry it was made of and shown as a request for
that entry (`as_cell`, `from_cellslice`, `to_tonlib_api`).
-/
import TonWallet.Tonlib.DnsRecord

namespace TonWallet.Tonlib

open Lib TonWallet.Td TonWallet.Ton TonWallet.Vm TonWallet.Vm.Fetch TonWallet.Vm.CellBuilder TonWallet.Block
  TonWallet.SmcEnvelope

namespace DnsEntryData

/-! ## Records -/

/-- What is left of an entry in a record: an address without its flags. -/
def plain : DnsEntryData → DnsEntryData
  | .nextResolver a => .nextResolver { workchain := a.workchain, addr := a.addr }
  | .smcAddress a => .smcAddress { workchain := a.workchain, addr := a.addr }
  | d => d

/-- An entry that there is a record of. The record of a contract is packed when nothing is in its flags. -/
def Fits (uninitialized : Int32) : DnsEntryData → Prop
  | .text bytes => bytes.length ≤ 123
  | .smcAddress _ => uninitialized = 0
  | _ => True

/-- An entry that has a text: an address in it is of a workchain that a packed address has room for. -/
def HasPackedForm : DnsEntryData → Prop
  | .nextResolver a => StdAddress.FitsByte a.workchain
  | .smcAddress a => StdAddress.FitsByte a.workchain
  | _ => True

/-- The bits of a record; all of it is in one cell. -/
def recordBits : DnsEntryData → List Bool
  | .text bytes => natToBits 16 0x1eda ++ (shortText bytes).bits
  | .nextResolver a => natToBits 16 0xba93 ++ addressBits a
  | .adnlAddress addr => natToBits 16 0xad01 ++ natToBits 256 addr.toNat ++ natToBits 8 0
  | .smcAddress a => natToBits 16 0x9fd3 ++ addressBits a ++ natToBits 8 0

theorem length_recordBits {flags : Int32} {d : DnsEntryData} (h : d.Fits flags) : (recordBits d).length ≤ maxBits := by
  cases d with
  | text bytes =>
    have hlen := length_shortText bytes
    have hfits : bytes.length ≤ 123 := h
    rw [recordBits, List.length_append, length_natToBits, maxBits]
    omega
  | nextResolver a =>
    have hlen := length_addressBits a
    rw [recordBits, List.length_append, length_natToBits, maxBits]
    omega
  | adnlAddress addr => simp [recordBits, maxBits]
  | smcAddress a =>
    have hlen := length_addressBits a
    rw [recordBits, List.length_append, List.length_append, length_natToBits, length_natToBits, maxBits]
    omega

theorem storeFlags_zero {bits : List Bool} (h : bits.length + 8 ≤ maxBits) :
    storeFlags 0 ⟨bits, []⟩ = some ⟨bits ++ natToBits 8 0, []⟩ := by
  have hstore : CellBuilder.storeLongBool 0 8 ⟨bits, []⟩ = some ⟨bits ++ natToBits 8 0, []⟩ := by
    rw [storeLongBool]
    exact appendSliceBool_ok (natToBits 8 0) ⟨bits, []⟩ (by rw [length_natToBits]; exact h)
  have hvalue : (0 : Int32).toInt64.toUInt64.toNat = 0 := by decide
  unfold storeFlags
  rw [hvalue]
  show (CellBuilder.storeLongBool 0 8 ⟨bits, []⟩ >>= _) = _
  rw [hstore]
  rfl

/-- Flags that are not zero are refused, or call for a list. -/
theorem storeFlags_of_ne {flags : Int32} (h : flags ≠ 0) (cb : CellBuilder) : storeFlags flags cb = none := by
  have hone : ¬ (flags ≤ 1 ∧ flags &&& 1 = 0 ∧ flags.toInt64.toUInt64.toNat < 2 ^ 8) := by
    rintro ⟨hle, hand, hbyte⟩
    apply h
    have hle' : flags.toInt ≤ 1 := Int32.le_iff_toInt_le.1 hle
    have hwide : (flags.toInt64.toUInt64.toNat : Int) = flags.toInt % 2 ^ 64 := by
      rw [← Int32.toInt_toInt64 flags]
      exact (toInt_emod flags.toInt64.toBitVec).symm
    have hlo := flags.le_toInt
    have hnonneg : 0 ≤ flags.toInt := by
      by_contra hneg
      omega
    have hcases : flags.toInt = 0 ∨ flags.toInt = 1 := by omega
    rcases hcases with hzero | hone
    · exact Int32.toInt_inj.1 hzero
    · have hflags : flags = 1 := Int32.toInt_inj.1 hone
      rw [hflags] at hand
      exact absurd hand (by decide)
  unfold storeFlags
  dsimp only
  by_cases hbyte : flags.toInt64.toUInt64.toNat < 2 ^ 8
  · rw [guard, if_pos hbyte]
    show (CellBuilder.storeLongBool _ 8 cb >>= _) = _
    cases CellBuilder.storeLongBool flags.toInt64.toUInt64.toNat 8 cb with
    | none => rfl
    | some cb' =>
      show ((guard (flags ≤ 1 ∧ flags &&& 1 = 0) : Option Unit) >>= _) = _
      rw [guard, if_neg fun h => hone ⟨h.1, h.2, hbyte⟩]
      rfl
  · rw [guard, if_neg hbyte]
    rfl

section

variable [Digest] {flags : Int32}

theorem packCell_ok {bits : List Bool} (h : bits.length ≤ maxBits) :
    packCell (some ⟨bits, []⟩) = .ok (some (.mk false bits [])) := by
  have hwithin : (Cell.mk false bits []).Within maxDepth :=
    (Cell.Within.node (b := 0) (fun c hc => (List.not_mem_nil hc).elim) bits).mono (Nat.le_of_ble_eq_true rfl)
  have hcell : CellBuilder.finalize ⟨bits, []⟩ = .ok (.mk false bits []) := Vm.finalize_ok h (Nat.zero_le _) hwithin
  rw [packCell, hcell]
  rfl

theorem addressSlice_ok (a : StdAddress) : addressSlice a = .ok ⟨addressBits a, []⟩ := by
  have hlen := length_addressBits a
  unfold addressSlice
  rw [storeStdAddress_ok]
  exact loadSlice_finalize (by rw [maxBits]; omega) (Nat.zero_le _) fun c hc => (List.not_mem_nil hc).elim

/-- The field of an address behind its tag. -/
theorem storeFrom_address (a : StdAddress) (tag : Nat) :
    Slice.storeFrom (skipSlice MsgAddressInt.skip) ⟨addressBits a, []⟩ ⟨natToBits 16 tag, []⟩ =
      some ⟨natToBits 16 tag ++ addressBits a, []⟩ := by
  have hlen := length_addressBits a
  refine storeFrom_of_fetches (fetches_address a) ?_ (Nat.zero_le _)
  rw [length_natToBits, maxBits]
  show 16 + (addressBits a).length ≤ 1023
  omega

/-- An entry that fits is packed. -/
theorem toRecord_ok {d : DnsEntryData} (h : d.Fits flags) :
    toRecord flags (some d) = .ok (some (.mk false (recordBits d) [])) := by
  have hlen := length_recordBits h
  cases d with
  | text bytes =>
    have hfits : bytes.length ≤ 123 := h
    obtain ⟨s, hrun, hbits, hrefs, hwithin, -, hshort, -⟩ := @run_storeText _ bytes (by omega)
    obtain rfl := hshort hfits
    have hslice : textSlice bytes = .ok (shortText bytes) := by
      rw [textSlice, hrun]
      exact loadSlice_finalize hbits hrefs hwithin
    have hpack : packText (shortText bytes) = some ⟨recordBits (.text bytes), []⟩ := by
      rw [packText, storeTag]
      refine storeFrom_of_fetches (fetches_shortText hfits) ?_ (Nat.zero_le _)
      rw [recordBits, List.length_append] at hlen
      exact hlen
    show (textSlice bytes >>= fun x => packCell (packText x)) = _
    rw [hslice]
    show packCell (packText (shortText bytes)) = _
    rw [hpack]
    exact packCell_ok hlen
  | nextResolver a =>
    show (addressSlice a >>= fun x => packCell (packNextResolver x)) = _
    rw [addressSlice_ok]
    show packCell (packNextResolver _) = _
    rw [packNextResolver, storeTag]
    show packCell (Slice.storeFrom _ _ _) = _
    rw [storeFrom_address]
    exact packCell_ok hlen
  | adnlAddress addr =>
    have hpack : packAdnlAddress addr 0 = some ⟨recordBits (.adnlAddress addr), []⟩ := by
      unfold packAdnlAddress
      rw [storeTag, Option.bind_eq_bind, Option.bind_some,
        appendSliceBool_ok (natToBits 256 addr.toNat) ⟨natToBits 16 0xad01, []⟩ (by simp [maxBits]),
        Option.bind_some]
      exact storeFlags_zero (by simp [maxBits])
    show packCell (packAdnlAddress addr 0) = _
    rw [hpack]
    exact packCell_ok hlen
  | smcAddress a =>
    have hzero : flags = 0 := h
    have ha := length_addressBits a
    show (addressSlice a >>= fun x => packCell (packSmcAddress x flags)) = _
    rw [addressSlice_ok]
    show packCell (packSmcAddress _ flags) = _
    rw [packSmcAddress, storeTag]
    show packCell (Slice.storeFrom _ _ _ >>= _) = _
    rw [storeFrom_address, hzero]
    show packCell (storeFlags 0 _) = _
    rw [storeFlags_zero (by rw [List.length_append, length_natToBits, maxBits]; omega)]
    exact packCell_ok hlen

/-- An entry that does not fit is not packed, unless its text is so long that the cast of its size fails. -/
theorem toRecord_none {d : DnsEntryData} (h : ¬ d.Fits flags) :
    toRecord flags (some d) = .ok none ∨ ∃ bytes, d = .text bytes ∧ 2 ^ 29 ≤ bytes.length ∧
      toRecord flags (some d) = .error (.check "narrow_cast") := by
  cases d with
  | text bytes =>
    have hlong : 123 < bytes.length := not_le.1 h
    by_cases hmax : bytes.length ≤ 1024
    · -- the text is stored, but there is no room for it behind the tag
      obtain ⟨s, hrun, hbits, hrefs, hwithin, -, -, hsize⟩ := run_storeText hmax
      have hslice : textSlice bytes = .ok s := by
        rw [textSlice, hrun]
        exact loadSlice_finalize hbits hrefs hwithin
      left
      show (textSlice bytes >>= fun x => packCell (packText x)) = _
      rw [hslice]
      show packCell (packText s) = _
      rw [packText, storeTag]
      show packCell (Slice.storeFrom _ _ _) = _
      have hfull := hsize hlong
      rw [storeFrom_of_long _ (by simp [maxBits]) (by rw [length_natToBits, maxBits]; omega)]
      rfl
    · by_cases hcast : bytes.length * 8 < 2 ^ 32
      · -- the text is not stored, and its slice is empty
        have hcheck : check (bytes.length * 8 < 2 ^ 32) "narrow_cast" = .ok () := check_ok_iff.2 hcast
        have htoo : failIf (CellText.maxBytes * 8 < bytes.length * 8) "String is too long (1)" =
            fail "String is too long (1)" := if_pos (by unfold CellText.maxBytes; omega)
        have hrun : BuilderMethod.run (CellText.storeTo bytes maxBits) {} =
            (.error (.status (.error "String is too long (1)")), ⟨[], []⟩) := by
          simp only [CellText.storeTo, BuilderMethod.run_bind, BuilderMethod.run_call, hcheck, htoo]
          rfl
        have hslice : textSlice bytes = .ok ⟨[], []⟩ := by
          rw [textSlice, hrun]
          exact loadSlice_finalize (Nat.zero_le _) (Nat.zero_le _) fun c hc => (List.not_mem_nil hc).elim
        left
        show (textSlice bytes >>= fun x => packCell (packText x)) = _
        rw [hslice]
        show packCell (packText ⟨[], []⟩) = _
        rw [packText, storeTag]
        rfl
      · right
        have hcheck : check (bytes.length * 8 < 2 ^ 32) "narrow_cast" = .error (.check "narrow_cast") := if_neg hcast
        have hrun : BuilderMethod.run (CellText.storeTo bytes maxBits) {} = (.error (.check "narrow_cast"), {}) := by
          rw [CellText.storeTo, hcheck, BuilderMethod.run_bind_error (BuilderMethod.run_call _ {})]
        refine ⟨bytes, rfl, by omega, ?_⟩
        show (textSlice bytes >>= fun x => packCell (packText x)) = _
        rw [textSlice, hrun]
        rfl
  | nextResolver a => exact absurd trivial h
  | adnlAddress addr => exact absurd trivial h
  | smcAddress a =>
    have hne : flags ≠ 0 := h
    left
    show (addressSlice a >>= fun x => packCell (packSmcAddress x flags)) = _
    rw [addressSlice_ok]
    show packCell (packSmcAddress _ flags) = _
    rw [packSmcAddress, storeTag]
    show packCell (Slice.storeFrom _ _ _ >>= _) = _
    rw [storeFrom_address]
    show packCell (storeFlags flags _) = _
    rw [storeFlags_of_ne hne]
    rfl

/-- A field of a record of the cell `recordBits`. -/
theorem holds_record (bits : List Bool) : (CellSlice.ofCell ⟨.mk false bits [], .none⟩).Holds (Slice.append ⟨bits, []⟩ .empty) := by
  rw [Slice.append_empty]
  exact ⟨rfl, rfl⟩

omit [Digest] in
/-- An address is read back without its flags. -/
theorem readAddress_ok {tag : Nat} (htag : tag < 2 ^ 16) (a : StdAddress) {cs : CellSlice} {rest : Slice}
    (hcs : cs.Holds ((Slice.append ⟨natToBits 16 tag, []⟩ ⟨addressBits a, []⟩).append rest)) :
    readAddress ((do fetchTag 16 tag; fetchTo MsgAddressInt.skip : Fetch CellSlice) cs) =
      .ok { workchain := a.workchain, addr := a.addr } := by
  obtain ⟨field, hfield, hheld⟩ := fetches_field htag (fetches_address a) cs rest hcs
  obtain ⟨read, hread, rfl⟩ := fetches_extractStdAddress a field .empty (by rw [Slice.append_empty]; exact hheld)
  rw [readAddress, hfield, Option.bind_some, hread]

/-- A record is read back. -/
theorem fromCellslice_ok {d : DnsEntryData} (h : d.Fits flags) (uninitialized : Bits256) :
    fromCellslice uninitialized (.ofCell ⟨.mk false (recordBits d) [], .none⟩) = .ok d.plain := by
  have hcs := holds_record (recordBits d)
  generalize CellSlice.ofCell ⟨.mk false (recordBits d) [], .none⟩ = cs at hcs ⊢
  cases d with
  | text bytes =>
    have hfits : bytes.length ≤ 123 := h
    obtain ⟨s, -, -, -, -, hload, hshort, -⟩ := @run_storeText _ bytes (by omega)
    obtain rfl := hshort hfits
    have hparts : cs.Holds ((Slice.append ⟨natToBits 16 0x1eda, []⟩ (shortText bytes)).append .empty) := hcs
    obtain ⟨x, hx, hheld⟩ := fetches_field (show 0x1eda < 2 ^ 16 by decide) (fetches_shortText hfits) cs .empty hparts
    have hselect : bselect 4 0xe02 cs = some (0, cs) := by
      rw [Slice.append_assoc] at hparts
      exact bselect_of_tag (by decide) hparts
    unfold fromCellslice
    rw [hselect, hx]
    show (CellText.load x >>= fun bytes => Pure.pure (DnsEntryData.text bytes)) = _
    rw [hload x hheld]
    rfl
  | nextResolver a =>
    have hparts : cs.Holds ((Slice.append ⟨natToBits 16 0xba93, []⟩ ⟨addressBits a, []⟩).append .empty) := hcs
    have hread := readAddress_ok (by decide) a hparts
    have hselect : bselect 4 0xe02 cs = some (3, cs) := by
      rw [Slice.append_assoc] at hparts
      exact bselect_of_tag (by decide) hparts
    unfold fromCellslice
    rw [hselect]
    show (readAddress _ >>= fun a => Pure.pure (DnsEntryData.nextResolver a)) = _
    rw [hread]
    rfl
  | adnlAddress addr =>
    have hparts : cs.Holds ((Slice.append ⟨natToBits 16 0xad01, []⟩ ⟨natToBits 256 addr.toNat, []⟩).append
        ⟨natToBits 8 0, []⟩) := by
      rw [recordBits, Slice.append_empty] at hcs
      exact hcs
    have hfetch : Fetches (do fetchTag 16 0xad01; fetchHash : Fetch Bits256)
        (Slice.append ⟨natToBits 16 0xad01, []⟩ ⟨natToBits 256 addr.toNat, []⟩) (· = addr) :=
      (Fetches.fetchTag (length_natToBits 16 _) (by rw [bitsToNat_natToBits]; rfl)).bind fun _ _ => Fetches.fetchHash addr
    obtain ⟨read, hread, rfl⟩ := hfetch cs _ hparts
    have hselect : bselect 4 0xe02 cs = some (2, cs) := by
      rw [Slice.append_assoc] at hparts
      exact bselect_of_tag (by decide) hparts
    unfold fromCellslice
    rw [hselect, hread]
    rfl
  | smcAddress a =>
    have hparts : cs.Holds ((Slice.append ⟨natToBits 16 0x9fd3, []⟩ ⟨addressBits a, []⟩).append ⟨natToBits 8 0, []⟩) := by
      rw [recordBits, Slice.append_empty] at hcs
      exact hcs
    have hread := readAddress_ok (by decide) a hparts
    have hselect : bselect 4 0xe02 cs = some (1, cs) := by
      rw [Slice.append_assoc] at hparts
      exact bselect_of_tag (by decide) hparts
    unfold fromCellslice
    rw [hselect]
    show (readAddress _ >>= fun a => Pure.pure (DnsEntryData.smcAddress a)) = _
    rw [hread]
    rfl

theorem load_record {d : DnsEntryData} (h : d.Fits flags) (uninitialized : Bits256) :
    (do fromCellslice uninitialized (← loadCellSlice ⟨.mk false (recordBits d) [], .none⟩)) = .ok d.plain := by
  rw [@loadCellSlice_ordinary ⟨.mk false (recordBits d) [], .none⟩ rfl]
  exact fromCellslice_ok h uninitialized

/-! ## Entries and their records -/

/-- A cell is made of the entries that fit, and is their record. -/
theorem asCell_ok_iff {data : Option DnsEntryData} {c : Cell} :
    asCell flags data = .ok c ↔ ∃ d, data = some d ∧ d.Fits flags ∧ c = .mk false (recordBits d) [] := by
  cases data with
  | none =>
    constructor
    · intro h
      exact absurd h fail_ne_ok
    · rintro ⟨d, hd, -⟩
      cases hd
  | some d =>
    by_cases h : d.Fits flags
    · have hmade : asCell flags (some d) = .ok (.mk false (recordBits d) []) := by
        unfold asCell
        rw [toRecord_ok h]
        rfl
      rw [hmade]
      constructor
      · intro heq
        exact ⟨d, rfl, h, (Except.ok.inj heq).symm⟩
      · rintro ⟨d', hd, -, rfl⟩
        cases hd
        rfl
    · constructor
      · intro hmade
        unfold asCell at hmade
        rcases toRecord_none h with hnone | ⟨_, -, -, hcheck⟩
        · rw [hnone] at hmade
          exact absurd hmade fail_ne_ok
        · rw [hcheck] at hmade
          cases hmade
      · rintro ⟨d', hd, hfits, -⟩
        cases hd
        exact absurd hfits h

/-- What is not made a cell of is an error, if not a text whose size is cut off. -/
theorem asCell_error {data : Option DnsEntryData} {e : Fail} (h : asCell flags data = .error e) :
    e = .status (.error "Entry data is emtpy") ∨
      ∃ bytes, data = some (.text bytes) ∧ 2 ^ 29 ≤ bytes.length ∧ e = .check "narrow_cast" := by
  cases data with
  | none =>
    left
    exact (Except.error.inj h).symm
  | some d =>
    by_cases hfits : d.Fits flags
    · rw [asCell_ok_iff.2 ⟨d, rfl, hfits, rfl⟩] at h
      cases h
    · unfold asCell at h
      rcases toRecord_none hfits with hnone | ⟨bytes, rfl, hlong, hcheck⟩
      · rw [hnone] at h
        left
        exact (Except.error.inj h).symm
      · rw [hcheck] at h
        right
        exact ⟨bytes, rfl, hlong, (Except.error.inj h).symm⟩

/-- What `to_tonlib_api` shows of an entry is a request for it. -/
theorem toDnsEntryData_toTonlibApi {d : DnsEntryData} (h : d.HasPackedForm) (buffer : Fin 36 → UInt8) :
    ∃ api, toTonlibApi (some d) = .ok api ∧ toDnsEntryData buffer api = .ok (some d) := by
  cases d with
  | text bytes => exact ⟨_, rfl, rfl⟩
  | nextResolver a =>
    refine ⟨_, rfl, ?_⟩
    show (getAccountAddress buffer (a.rserialize true) >>= fun a => Pure.pure (some (DnsEntryData.nextResolver a))) = _
    rw [((agrees_of_fitsByte h).packed true buffer).2]
    rfl
  | adnlAddress addr =>
    refine ⟨_, rfl, ?_⟩
    show (getAdnlAddress (adnlIdEncode addr) >>= fun a => Pure.pure (some (DnsEntryData.adnlAddress a))) = _
    rw [getAdnlAddress, adnlIdDecode_encode]
    rfl
  | smcAddress a =>
    refine ⟨_, rfl, ?_⟩
    show (getAccountAddress buffer (a.rserialize true) >>= fun a => Pure.pure (some (DnsEntryData.smcAddress a))) = _
    rw [((agrees_of_fitsByte h).packed true buffer).2]
    rfl

omit [Digest] in
theorem HasPackedForm.plain {d : DnsEntryData} (h : d.HasPackedForm) : d.plain.HasPackedForm := by
  cases d with
  | nextResolver a => exact h
  | smcAddress a => exact h
  | text bytes => exact trivial
  | adnlAddress addr => exact trivial

omit [Digest] in
theorem plain_plain (d : DnsEntryData) : d.plain.plain = d.plain := by
  cases d <;> rfl

end

end DnsEntryData

/-! ## Requests and the records that are published for them -/

/-- Requests for the same entry; the flags of an address are no part of it. -/
def DnsApiEntryData.SameData (buffer : Fin 36 → UInt8) (x y : DnsApiEntryData) : Prop :=
  ∃ d d', toDnsEntryData buffer x = .ok (some d) ∧ toDnsEntryData buffer y = .ok (some d') ∧ d.plain = d'.plain

/-- What becomes of a request: an error, or a record that is read as the entry and shown as a request for it. -/
structure Represented [Digest] (flags : Int32) (buffer : Fin 36 → UInt8) (entry : DnsApiEntryData)
    (data : Option DnsEntryData) : Prop where
  made : (∃ c, DnsEntryData.asCell flags data = .ok c) ↔ ∃ d, data = some d ∧ d.Fits flags
  refused : ∀ e, DnsEntryData.asCell flags data = .error e → e = .status (.error "Entry data is emtpy") ∨
    ∃ bytes, entry = .text bytes ∧ 2 ^ 29 ≤ bytes.length ∧ e = .check "narrow_cast"
  read : ∀ c, DnsEntryData.asCell flags data = .ok c → ∃ d, data = some d ∧
    ∀ uninitialized, (do DnsEntryData.fromCellslice uninitialized (← loadCellSlice ⟨c, .none⟩)) = .ok d.plain
  shown : ∀ c d, DnsEntryData.asCell flags data = .ok c → data = some d → d.HasPackedForm →
    ∃ api, DnsEntryData.toTonlibApi (some d.plain) = .ok api ∧ entry.SameData buffer api

/-- A request that is accepted as a text is one. -/
theorem text_of_toDnsEntryData {buffer : Fin 36 → UInt8} {entry : DnsApiEntryData} {bytes : List UInt8}
    (h : toDnsEntryData buffer entry = .ok (some (.text bytes))) : entry = .text bytes := by
  cases entry with
  | unknown _ => cases h
  | text text =>
    cases h
    rfl
  | nextResolver resolver =>
    cases resolver with
    | none => cases h
    | some resolver =>
      obtain ⟨a, -, ha⟩ := bind_ok h
      cases ha
  | smcAddress address =>
    cases address with
    | none => cases h
    | some address =>
      obtain ⟨a, -, ha⟩ := bind_ok h
      cases ha
  | adnlAddress address =>
    cases address with
    | none => cases h
    | some address =>
      obtain ⟨a, -, ha⟩ := bind_ok h
      cases ha

/-- Every request that is accepted is represented. -/
theorem entries_represented [Digest] {buffer : Fin 36 → UInt8} {entry : DnsApiEntryData} {data : Option DnsEntryData}
    (h : toDnsEntryData buffer entry = .ok data) (flags : Int32) : Represented flags buffer entry data := by
  constructor
  · constructor
    · rintro ⟨c, hc⟩
      obtain ⟨d, hd, hfits, -⟩ := DnsEntryData.asCell_ok_iff.1 hc
      exact ⟨d, hd, hfits⟩
    · rintro ⟨d, hd, hfits⟩
      exact ⟨_, DnsEntryData.asCell_ok_iff.2 ⟨d, hd, hfits, rfl⟩⟩
  · intro e he
    rcases DnsEntryData.asCell_error he with hempty | ⟨bytes, rfl, hlong, hcheck⟩
    · exact .inl hempty
    · exact .inr ⟨bytes, text_of_toDnsEntryData h, hlong, hcheck⟩
  · intro c hc
    obtain ⟨d, rfl, hfits, rfl⟩ := DnsEntryData.asCell_ok_iff.1 hc
    refine ⟨d, rfl, fun uninitialized => ?_⟩
    exact DnsEntryData.load_record hfits uninitialized
  · rintro c d - rfl hpacked
    obtain ⟨api, hshown, hread⟩ := DnsEntryData.toDnsEntryData_toTonlibApi hpacked.plain buffer
    exact ⟨api, hshown, d, d.plain, h, hread, d.plain_plain.symm⟩

namespace DnsRecordSample

open TonWallet.SmcEnvelope.Sample (threes elector agrees_elector)

theorem request_elector : toDnsEntryData (fun _ => 0) (.nextResolver (some elector)) =
    .ok (some (.nextResolver (threes (-1)))) := by
  have haddress : getAccountAddress (fun _ => 0) elector = .ok (threes (-1)) := by decide +kernel
  show (getAccountAddress (fun _ => 0) elector >>= fun a => Pure.pure (some (DnsEntryData.nextResolver a))) = _
  rw [haddress]
  rfl

/-- A resolver of the masterchain. -/
theorem elector_represented : @Represented TonWallet.SmcEnvelope.Sample.digest 0 (fun _ => 0) (.nextResolver (some elector))
    (some (.nextResolver (threes (-1)))) :=
  @entries_represented TonWallet.SmcEnvelope.Sample.digest _ _ _ request_elector 0

/-- The address of the same account with the flag that messages to it do not bounce. -/
def quiet : StdAddress := { threes (-1) with bounceable := false }

/-- The record does not tell that messages to the resolver do not bounce. -/
theorem quiet_not_kept :
    ¬ ∀ (_ : Digest) (flags : Int32) (buffer : Fin 36 → UInt8) (uninitialized : Bits256) (entry : DnsApiEntryData)
      (d : DnsEntryData) (c : Cell), toDnsEntryData buffer entry = .ok (some d) → DnsEntryData.asCell flags (some d) = .ok c →
      (do DnsEntryData.fromCellslice uninitialized (← loadCellSlice ⟨c, .none⟩)) = .ok d := by
  intro h
  have hrequest : toDnsEntryData (fun _ => 0) (.nextResolver (some (quiet.rserialize true))) =
      .ok (some (.nextResolver quiet)) := by
    have haddress : getAccountAddress (fun _ => 0) (quiet.rserialize true) = .ok quiet := by decide +kernel
    show (getAccountAddress (fun _ => 0) _ >>= fun a => Pure.pure (some (DnsEntryData.nextResolver a))) = _
    rw [haddress]
    rfl
  have hmade := (@DnsEntryData.asCell_ok_iff TonWallet.SmcEnvelope.Sample.digest 0 _ _).2
    ⟨.nextResolver quiet, rfl, trivial, rfl⟩
  have hread := @DnsEntryData.load_record TonWallet.SmcEnvelope.Sample.digest 0 (.nextResolver quiet) trivial 0
  have hkept := h TonWallet.SmcEnvelope.Sample.digest 0 _ 0 _ _ _ hrequest hmade
  rw [hread] at hkept
  have heq : (DnsEntryData.nextResolver quiet).plain = .nextResolver quiet := Except.ok.inj hkept
  exact absurd (congrArg StdAddress.bounceable (DnsEntryData.nextResolver.inj heq)) (by decide)

end DnsRecordSample

end TonWallet.Tonlib
