/-
The messages by which wallets send gifts (`make_a_gift_message`), and what their contracts read of them. The simple wallets
and WalletV3 have a mode and a message for each gift, the highload wallets a dictionary of such pairs under the numbers of
the gifts.
-/
import TonWallet.SmcEnvelope.SignedBody
import TonWallet.Vm.Dict.CheckForEach
import TonWallet.Vm.DictionaryFill

namespace TonWallet.SmcEnvelope

open Lib TonWallet.Td TonWallet.Ton TonWallet.Vm TonWallet.Vm.CellBuilder TonWallet.Vm.Dict TonWallet.Vm.DictionaryBase
  TonWallet.Vm.Dictionary TonWallet.Block WalletInterface

/-! ## What the wallets share -/

/-- `send_mode`. -/
def sendMode (gift : Gift) : Nat := if gift.gramms = -1 then 3 + 128 else 3

/-- `CHECK(gifts.size() <= max_gifts_size)`. -/
def checkGifts (maxGiftsSize : Nat) (gifts : List Gift) : Result Unit :=
  if gifts.length ≤ maxGiftsSize then .ok () else .error (.check "gifts.size() <= max_gifts_size")

/-- The words in front of the gifts. -/
def storeWords (words : List UInt32) (cb : CellBuilder) : Result CellBuilder :=
  words.foldlM (fun cb word => cb.storeBits (natToBits 32 word.toNat)) cb

theorem giftKeyBits_le : 16 ≤ maxKeyBits := by decide

section

variable [Digest]

/-- The mode of a gift, and its message. -/
def storeGift (gift : Gift) (cb : CellBuilder) : Result CellBuilder := do
  let cb ← cb.storeBits (natToBits 8 (sendMode gift))
  cb.storeRef (← createIntMessage gift)

/-- The loop over the gifts. -/
def storeGifts (gifts : List Gift) (cb : CellBuilder) : Result CellBuilder :=
  gifts.foldlM (fun cb gift => storeGift gift cb) cb

/-- The body with its gifts one behind the other. -/
def flatBody (sign : Bits256 → List UInt8) (words : List UInt32) (gifts : List Gift) : Result Cell := do
  let cb ← storeWords words {}
  let cb ← storeGifts gifts cb
  signedBody sign cb

/-- What is set for a gift in `messages`. -/
def giftEntry (gift : Gift × Nat) : Result (List Bool × CellBuilder) := do
  let cb ← storeGift gift.1 {}
  return (natToBits 16 gift.2, cb)

/-- The dictionary `messages`. -/
def messagesDict (gifts : List Gift) : Result DictionaryBase :=
  match run (fillWith giftEntry gifts.zipIdx) ⟨16, none, giftKeyBits_le⟩ with
  | (.ok (), dict) => .ok dict
  | (.error e, _) => .error e

/-- `CHECK(cb.store_maybe_ref(messages.get_root_cell()))`. -/
def storeMessages (messages : DictionaryBase) (cb : CellBuilder) : Result CellBuilder :=
  match CurrencyCollection.storeMaybeRef messages.rootCell cb with
  | some cb => .ok cb
  | none => .error (.check "cb.store_maybe_ref(messages.get_root_cell())")

/-! ## The wallets -/

namespace TestWallet

def maxGiftsSize : Nat := 1

/-- `make_a_gift_message_static`. -/
def makeAGiftMessage (sign : Bits256 → List UInt8) (seqno : UInt32) (gifts : List Gift) : Result Cell := do
  checkGifts maxGiftsSize gifts
  flatBody sign [seqno] gifts

end TestWallet

namespace Wallet

def maxGiftsSize : Nat := 4

/-- `make_a_gift_message`. -/
def makeAGiftMessage (sign : Bits256 → List UInt8) (seqno validUntil : UInt32) (gifts : List Gift) : Result Cell := do
  checkGifts maxGiftsSize gifts
  flatBody sign [seqno, validUntil] gifts

end Wallet

namespace WalletV3

def maxGiftsSize : Nat := 4

/-- `make_a_gift_message`. -/
def makeAGiftMessage (sign : Bits256 → List UInt8) (walletId seqno validUntil : UInt32) (gifts : List Gift) :
    Result Cell := do
  checkGifts maxGiftsSize gifts
  flatBody sign [walletId, validUntil, seqno] gifts

end WalletV3

namespace RestrictedWallet

def maxGiftsSize : Nat := 4

/-- `make_a_gift_message`, with what the get methods of the contract answer. -/
def makeAGiftMessage (sign : Bits256 → List UInt8) (getSeqno getWalletId : Result UInt32) (validUntil : UInt32)
    (gifts : List Gift) : Result Cell := do
  checkGifts maxGiftsSize gifts
  let seqno ← getSeqno
  let walletId ← getWalletId
  if seqno = 0 then fail "Wallet is not inited yet"
  else flatBody sign [walletId, validUntil, seqno] gifts

end RestrictedWallet

namespace HighloadWallet

def maxGiftsSize : Nat := 254

/-- `make_a_gift_message`. -/
def makeAGiftMessage (sign : Bits256 → List UInt8) (walletId seqno validUntil : UInt32) (gifts : List Gift) :
    Result Cell := do
  checkGifts maxGiftsSize gifts
  let messages ← messagesDict gifts
  let cb ← storeWords [walletId, validUntil, seqno] {}
  let cb ← storeMessages messages cb
  signedBody sign cb

end HighloadWallet

namespace HighloadWalletV2

def maxGiftsSize : Nat := 254

/-- The low half of the query id: the last bytes of the hash of the messages. -/
def messagesHash (messages : DictionaryBase) : Result (List Bool) := do
  let cb ← storeMessages messages {}
  let c ← cb.finalize
  return ((natToBits 256 (c.getHash maxLevel).toNat).drop (28 * 8)).take (4 * 8)

/-- `make_a_gift_message`. -/
def makeAGiftMessage (sign : Bits256 → List UInt8) (walletId validUntil : UInt32) (gifts : List Gift) : Result Cell := do
  checkGifts maxGiftsSize gifts
  let messages ← messagesDict gifts
  let hash ← messagesHash messages
  let cb ← storeWords [walletId, validUntil] {}
  let cb ← cb.storeBits hash
  let cb ← storeMessages messages cb
  signedBody sign cb

end HighloadWalletV2

end

/-! ## The contracts -/

/-- A message that a contract sends, with its mode. -/
structure Sent where
  mode : Nat
  message : Cell

/-- As long as there are references: a mode and a message. -/
def readFlat : List Cell → List Bool → Option (List Sent)
  | [], _ => some []
  | m :: ms, bits =>
    if 8 ≤ bits.length then (readFlat ms (bits.drop 8)).map (⟨bitsToNat (bits.take 8), m⟩ :: ·) else none

/-- A mode and a message under each key, in the order of the keys from zero on; the negative ones are not reached. -/
def readMessage (key : List Bool) (cs : Slice) (sent : List Sent) : Bool × List Sent :=
  if key.head? = some true then (true, sent)
  else match cs.refs with
  | [] => (false, sent)
  | m :: _ => if 8 ≤ cs.bits.length then (true, sent ++ [⟨bitsToNat (cs.bits.take 8), m⟩]) else (false, sent)

/-- A dictionary of messages. -/
def readMessages [Digest] (cs : Slice) : Option (List Sent) := do
  let root ← cs.prefetchMaybeRef
  match checkForEach readMessage [] ⟨16, root, giftKeyBits_le⟩ with
  | .ok (true, sent) => some sent
  | _ => none

/-- The wallets that send gifts. -/
inductive Family
  | testWallet | wallet | walletV3 | restrictedWallet | highloadWallet | highloadWalletV2
  deriving DecidableEq

namespace Family

/-- `get_max_gifts_size`. -/
def maxGiftsSize : Family → Nat
  | testWallet => TestWallet.maxGiftsSize
  | wallet => Wallet.maxGiftsSize
  | walletV3 => WalletV3.maxGiftsSize
  | restrictedWallet => RestrictedWallet.maxGiftsSize
  | highloadWallet => HighloadWallet.maxGiftsSize
  | highloadWalletV2 => HighloadWalletV2.maxGiftsSize

/-- The words that the contract checks. -/
def words (family : Family) (walletId seqno validUntil : UInt32) : List UInt32 := match family with
  | testWallet => [seqno]
  | wallet => [seqno, validUntil]
  | walletV3 | restrictedWallet | highloadWallet => [walletId, validUntil, seqno]
  | highloadWalletV2 => [walletId, validUntil]

/-- The number of bits in front of the gifts, and of the signature. -/
def headBits : Family → Nat
  | testWallet => 512 + 32
  | wallet => 512 + 2 * 32
  | _ => 512 + 3 * 32

/-- What the contract of a wallet makes of the gifts in a body. -/
def readGifts [Digest] (family : Family) (cs : Slice) : Option (List Sent) := match family with
  | highloadWallet | highloadWalletV2 => readMessages cs
  | _ => readFlat cs.refs cs.bits

/-- What the contract sends when it gets a message with some body. -/
def read [Digest] (family : Family) (body : Cell) : Option (List Sent) := do
  family.readGifts (← Slice.advance family.headBits ⟨body.data, body.refs⟩)

/-- `make_a_gift_message` of each wallet. -/
def makeAGiftMessage [Digest] (family : Family) (sign : Bits256 → List UInt8) (walletId seqno validUntil : UInt32)
    (gifts : List Gift) : Result Cell := match family with
  | testWallet => TestWallet.makeAGiftMessage sign seqno gifts
  | wallet => Wallet.makeAGiftMessage sign seqno validUntil gifts
  | walletV3 => WalletV3.makeAGiftMessage sign walletId seqno validUntil gifts
  | restrictedWallet => RestrictedWallet.makeAGiftMessage sign (.ok seqno) (.ok walletId) validUntil gifts
  | highloadWallet => HighloadWallet.makeAGiftMessage sign walletId seqno validUntil gifts
  | highloadWalletV2 => HighloadWalletV2.makeAGiftMessage sign walletId validUntil gifts

end Family


/-! ## What the bodies hold -/

section

variable [Digest] {gifts : List Gift} {ms : List Cell}

/-- The messages of some gifts. -/
def Made (gifts : List Gift) (ms : List Cell) : Prop := List.Forall₂ (fun gift m => createIntMessage gift = .ok m) gifts ms

/-- What the contract should send. -/
def sentOf (gifts : List Gift) (ms : List Cell) : List Sent := List.zipWith (fun gift m => ⟨sendMode gift, m⟩) gifts ms

/-- The bits of the modes. -/
def modeBits (gifts : List Gift) : List Bool := gifts.flatMap fun gift => natToBits 8 (sendMode gift)

/-- The bits of the words. -/
def wordBits (words : List UInt32) : List Bool := words.flatMap fun word => natToBits 32 word.toNat

omit [Digest] in
theorem length_wordBits (words : List UInt32) : (wordBits words).length = 32 * words.length := by
  induction words with
  | nil => rfl
  | cons word words ih =>
    rw [wordBits, List.flatMap_cons, List.length_append, length_natToBits, List.length_cons]
    rw [wordBits] at ih
    omega

omit [Digest] in
theorem modeBits_cons (gift : Gift) (gifts : List Gift) :
    modeBits (gift :: gifts) = natToBits 8 (sendMode gift) ++ modeBits gifts := by
  rw [modeBits, List.flatMap_cons, modeBits]

omit [Digest] in
theorem length_modeBits (gifts : List Gift) : (modeBits gifts).length = 8 * gifts.length := by
  induction gifts with
  | nil => rfl
  | cons gift gifts ih =>
    rw [modeBits_cons, List.length_append, length_natToBits, List.length_cons]
    omega

omit [Digest] in
theorem sendMode_lt (gift : Gift) : sendMode gift < 2 ^ 8 := by
  unfold sendMode
  split <;> decide

omit [Digest] in
theorem storeWords_ok {words : List UInt32} {bits : List Bool} (h : bits.length + 32 * words.length ≤ maxBits) :
    storeWords words ⟨bits, []⟩ = .ok ⟨bits ++ wordBits words, []⟩ := by
  induction words generalizing bits with
  | nil =>
    rw [wordBits, List.flatMap_nil, List.append_nil]
    rfl
  | cons word words ih =>
    rw [List.length_cons] at h
    have hstore : storeBits (natToBits 32 word.toNat) ⟨bits, []⟩ = .ok ⟨bits ++ natToBits 32 word.toNat, []⟩ := by
      apply storeBits_ok
      rw [length_natToBits]
      omega
    have hrest := @ih (bits ++ natToBits 32 word.toNat) (by rw [List.length_append, length_natToBits]; omega)
    rw [storeWords, List.foldlM_cons, hstore]
    rw [wordBits, List.flatMap_cons, ← List.append_assoc]
    exact hrest

theorem storeGift_ok {gift : Gift} {cb cb' : CellBuilder} (h : storeGift gift cb = .ok cb') :
    ∃ m, createIntMessage gift = .ok m ∧ cb' = ⟨cb.bits ++ natToBits 8 (sendMode gift), cb.refs ++ [m]⟩ := by
  obtain ⟨mode, hmode, h⟩ := bind_ok h
  obtain ⟨m, hm, h⟩ := bind_ok h
  rw [adds_storeBits hmode] at h
  exact ⟨m, hm, adds_storeRef h⟩

theorem storeGifts_ok {cb cb' : CellBuilder} (h : storeGifts gifts cb = .ok cb') :
    ∃ ms, Made gifts ms ∧ cb' = ⟨cb.bits ++ modeBits gifts, cb.refs ++ ms⟩ := by
  induction gifts generalizing cb with
  | nil =>
    cases h
    exact ⟨[], .nil, by rw [modeBits, List.flatMap_nil, List.append_nil, List.append_nil]⟩
  | cons gift gifts ih =>
    rw [storeGifts, List.foldlM_cons] at h
    obtain ⟨cb₁, hgift, h⟩ := bind_ok h
    obtain ⟨m, hm, rfl⟩ := storeGift_ok hgift
    obtain ⟨ms, hms, rfl⟩ := ih h
    refine ⟨m :: ms, .cons hm hms, ?_⟩
    rw [modeBits_cons, List.append_assoc, List.append_assoc, List.singleton_append]

/-- The modes and messages are read as they stand. -/
theorem readFlat_made (h : Made gifts ms) : readFlat ms (modeBits gifts) = some (sentOf gifts ms) := by
  induction h with
  | nil => rfl
  | @cons gift m gifts ms _ _ ih =>
    have hlen : (natToBits 8 (sendMode gift)).length = 8 := length_natToBits 8 _
    have hmode : bitsToNat (natToBits 8 (sendMode gift)) = sendMode gift := by
      rw [bitsToNat_natToBits, Nat.mod_eq_of_lt (sendMode_lt gift)]
    rw [modeBits_cons, readFlat, if_pos (by rw [List.length_append]; omega), List.drop_left' hlen, List.take_left' hlen, ih, hmode]
    rfl

/-! ## The dictionary of messages -/

/-- What the dictionary holds of the gifts from number `i` on. -/
def giftItems : Nat → List Gift → List Cell → List (List Bool × Slice)
  | i, gift :: gifts, m :: ms => (natToBits 16 i, ⟨natToBits 8 (sendMode gift), [m]⟩) :: giftItems (i + 1) gifts ms
  | _, _, _ => []

theorem mapM_giftEntry {i : Nat} {es : List (List Bool × CellBuilder)} (h : (gifts.zipIdx i).mapM giftEntry = .ok es) :
    ∃ ms, Made gifts ms ∧ es.map asEntry = giftItems i gifts ms := by
  induction gifts generalizing i es with
  | nil =>
    cases h
    exact ⟨[], .nil, rfl⟩
  | cons gift gifts ih =>
    rw [List.zipIdx_cons, List.mapM_cons] at h
    obtain ⟨e, he, h⟩ := bind_ok h
    obtain ⟨es', hes, h⟩ := bind_ok h
    cases h
    obtain ⟨cb, hcb, he⟩ := bind_ok he
    cases he
    obtain ⟨m, hm, rfl⟩ := storeGift_ok hcb
    obtain ⟨ms, hms, hitems⟩ := ih hes
    refine ⟨m :: ms, .cons hm hms, ?_⟩
    rw [List.map_cons, hitems]
    rfl

omit [Digest] in
theorem mem_giftItems {i : Nat} {e : List Bool × Slice} (h : e ∈ giftItems i gifts ms) :
    ∃ j gift m, i ≤ j ∧ j < i + gifts.length ∧ gift ∈ gifts ∧ m ∈ ms ∧
      e = (natToBits 16 j, ⟨natToBits 8 (sendMode gift), [m]⟩) := by
  induction gifts generalizing i ms with
  | nil => cases h
  | cons gift gifts ih =>
    cases ms with
    | nil => cases h
    | cons m ms =>
      rw [List.length_cons]
      rcases List.mem_cons.1 h with rfl | h
      · exact ⟨i, gift, m, le_refl i, by omega, List.mem_cons_self, List.mem_cons_self, rfl⟩
      · obtain ⟨j, gift', m', hle, hlt, hgift, hm, rfl⟩ := ih h
        exact ⟨j, gift', m', by omega, by omega, List.mem_cons_of_mem _ hgift, List.mem_cons_of_mem _ hm, rfl⟩

omit [Digest] in
theorem before_natToBits {i j : Nat} (h : i < j) (hj : j < 2 ^ 16) : Before (natToBits 16 i) (natToBits 16 j) := by
  apply before_of_bitsToNat_lt
  · rw [length_natToBits, length_natToBits]
  · rw [bitsToNat_natToBits, bitsToNat_natToBits, Nat.mod_eq_of_lt hj, Nat.mod_eq_of_lt (h.trans hj)]
    exact h

omit [Digest] in
/-- The gifts stand in the order of their numbers. -/
theorem sorted_giftItems {i : Nat} (h : i + gifts.length ≤ 2 ^ 16) :
    (giftItems i gifts ms).Pairwise fun a b => Before a.1 b.1 := by
  induction gifts generalizing i ms with
  | nil => exact .nil
  | cons gift gifts ih =>
    cases ms with
    | nil => exact .nil
    | cons m ms =>
      rw [List.length_cons] at h
      refine .cons ?_ (ih (by omega))
      intro e he
      obtain ⟨j, gift', m', hle, hlt, -, -, rfl⟩ := mem_giftItems he
      exact before_natToBits (by omega) (by omega)

omit [Digest] in
/-- A number below the middle has no sign. -/
theorem head_natToBits {i : Nat} (h : i < 2 ^ 15) : ∃ k, natToBits 16 i = false :: k := by
  refine ⟨natToBits 15 i, ?_⟩
  rw [natToBits, Nat.testBit_lt_two_pow h]

/-- The walk over the dictionary reads the gifts. -/
theorem checkEntries_giftItems {i : Nat} (h : Made gifts ms) (hi : i + gifts.length ≤ 2 ^ 15) (sent : List Sent) :
    checkEntries readMessage (giftItems i gifts ms) sent = (true, sent ++ sentOf gifts ms) := by
  induction h generalizing i sent with
  | nil =>
    show (true, sent) = (true, sent ++ [])
    rw [List.append_nil]
  | @cons gift m gifts ms _ _ ih =>
    rw [List.length_cons] at hi
    obtain ⟨k, hk⟩ := head_natToBits (i := i) (by omega)
    have hlen : (natToBits 8 (sendMode gift)).length = 8 := length_natToBits 8 _
    have hread : readMessage (natToBits 16 i) ⟨natToBits 8 (sendMode gift), [m]⟩ sent =
        (true, sent ++ [⟨sendMode gift, m⟩]) := by
      rw [hk, readMessage, if_neg (by rw [List.head?_cons]; decide)]
      dsimp only
      rw [if_pos (by omega), List.take_of_length_le (by omega), bitsToNat_natToBits, Nat.mod_eq_of_lt (sendMode_lt gift)]
    rw [giftItems, checkEntries, hread]
    exact (ih (by omega) _).trans (by rw [List.append_assoc]; rfl)

theorem messagesDict_ok {d : DictionaryBase} (h : messagesDict gifts = .ok d) : ∃ ms, Made gifts ms ∧
    d.keyBits = 16 ∧ d.Stands .plain (KeyMap.empty.putAll (giftItems 0 gifts ms)) := by
  unfold messagesDict at h
  split at h
  · next dict hrun =>
    cases h
    have hkey : ∀ x ∈ gifts.zipIdx, ∀ e, giftEntry x = .ok e → e.1.length = 16 := by
      intro x _ e he
      obtain ⟨cb, -, he⟩ := bind_ok he
      cases he
      exact length_natToBits _ _
    obtain ⟨hbits, es, hes, hstands⟩ := fillWith_ok (stands_empty giftKeyBits_le) hkey hrun
    obtain ⟨ms, hms, hitems⟩ := mapM_giftEntry hes
    rw [hitems] at hstands
    exact ⟨ms, hms, hbits, hstands⟩
  · cases h

/-- The contract reads the gifts from their dictionary. -/
theorem readMessages_made {d : DictionaryBase} (hms : Made gifts ms) (hlen : gifts.length ≤ 2 ^ 15) (hbits : d.keyBits = 16)
    (hstands : d.Stands .plain (KeyMap.empty.putAll (giftItems 0 gifts ms))) :
    readMessages (Slice.maybeRef d.rootCell) = some (sentOf gifts ms) := by
  have hd : (⟨16, d.rootCell, giftKeyBits_le⟩ : DictionaryBase) = d := by
    obtain ⟨keyBits, rootCell, hle⟩ := d
    cases hbits
    rfl
  have hentries := KeyMap.entriesOf_putAll (@sorted_giftItems gifts ms 0 (by omega))
  rw [readMessages, Slice.prefetchMaybeRef_maybeRef]
  simp only [Option.bind_eq_bind, Option.bind_some, hd, hstands.checkForEach hentries,
    checkEntries_giftItems hms (i := 0) (by omega), List.nil_append]

end


/-! ## The bodies of the wallets -/

section

variable [Digest] {sign : Bits256 → List UInt8} {gifts : List Gift} {body : Cell} {walletId seqno validUntil : UInt32}

/-- A body: the words, what may stand behind them, and the gifts as the contract of the family reads them. -/
def Layout (family : Family) (sign : Bits256 → List UInt8) (words : List UInt32) (gifts : List Gift) (body : Cell) : Prop :=
  ∃ (ms : List Cell) (more : List Bool) (rest : Slice), Made gifts ms ∧
    512 + (wordBits words ++ more).length = family.headBits ∧
    SignedOver sign body (Slice.append ⟨wordBits words ++ more, []⟩ rest) ∧ family.readGifts rest = some (sentOf gifts ms)

omit [Digest] in
theorem checkGifts_ok {n : Nat} {u : Unit} (h : checkGifts n gifts = .ok u) : gifts.length ≤ n := by
  unfold checkGifts at h
  split at h
  · assumption
  · cases h

omit [Digest] in
/-- The builder that holds a few words. -/
theorem head_of_storeWords {words : List UInt32} {head : CellBuilder} (hshort : words.length ≤ 3)
    (h : storeWords words {} = .ok head) : head = ⟨wordBits words, []⟩ := by
  have hstored := @storeWords_ok words [] (by rw [List.length_nil, maxBits]; omega)
  rw [show storeWords words {} = _ from hstored] at h
  cases h
  rfl

/-- The wallets with the gifts one behind the other. -/
theorem layout_flatBody {family : Family} {words : List UInt32} (hwords : 512 + 32 * words.length = family.headBits)
    (hshort : words.length ≤ 3) (hread : ∀ cs, family.readGifts cs = readFlat cs.refs cs.bits)
    (h : flatBody sign words gifts = .ok body) : Layout family sign words gifts body := by
  obtain ⟨head, hhead, h⟩ := bind_ok h
  obtain ⟨cb, hcb, h⟩ := bind_ok h
  rw [head_of_storeWords hshort hhead] at hcb
  obtain ⟨ms, hms, rfl⟩ := storeGifts_ok hcb
  refine ⟨ms, [], ⟨modeBits gifts, ms⟩, hms, ?_, ?_, ?_⟩
  · rw [List.append_nil, length_wordBits, hwords]
  · rw [List.append_nil]
    exact signedOver_of_signedBody h
  · rw [hread]
    exact readFlat_made hms

omit [Digest] in
/-- The messages are stored where there is room. -/
theorem storeMessages_eq {d : DictionaryBase} {bits : List Bool} (hbits : bits.length < maxBits) :
    storeMessages d ⟨bits, []⟩ = .ok ⟨bits ++ (Slice.maybeRef d.rootCell).bits, (Slice.maybeRef d.rootCell).refs⟩ := by
  rw [storeMessages, storeMaybeRef_ok d.rootCell hbits]

omit [Digest] in
theorem storeMessages_ok {d : DictionaryBase} {bits : List Bool} {cb : CellBuilder} (hbits : bits.length < maxBits)
    (h : storeMessages d ⟨bits, []⟩ = .ok cb) :
    cb = ⟨bits ++ (Slice.maybeRef d.rootCell).bits, (Slice.maybeRef d.rootCell).refs⟩ := by
  rw [storeMessages_eq hbits] at h
  cases h
  rfl

theorem layout_highloadWallet (h : HighloadWallet.makeAGiftMessage sign walletId seqno validUntil gifts = .ok body) :
    Layout .highloadWallet sign [walletId, validUntil, seqno] gifts body := by
  obtain ⟨_, hcheck, h⟩ := bind_ok h
  have hlen : gifts.length ≤ 254 := checkGifts_ok hcheck
  obtain ⟨messages, hmessages, h⟩ := bind_ok h
  obtain ⟨head, hhead, h⟩ := bind_ok h
  obtain ⟨cb, hcb, h⟩ := bind_ok h
  rw [head_of_storeWords (Nat.le_of_ble_eq_true rfl) hhead] at hcb
  rw [storeMessages_ok (by rw [length_wordBits]; exact Nat.le_of_ble_eq_true rfl) hcb] at h
  obtain ⟨ms, hms, hbits, hstands⟩ := messagesDict_ok hmessages
  refine ⟨ms, [], Slice.maybeRef messages.rootCell, hms, ?_, ?_, readMessages_made hms (by omega) hbits hstands⟩
  · rw [List.append_nil, length_wordBits]
    rfl
  · rw [List.append_nil]
    exact signedOver_of_signedBody h

theorem length_messagesHash {messages : DictionaryBase} {hash : List Bool}
    (h : HighloadWalletV2.messagesHash messages = .ok hash) : hash.length = 32 := by
  obtain ⟨cb, -, h⟩ := bind_ok h
  obtain ⟨c, -, h⟩ := bind_ok h
  cases h
  rw [List.length_take, List.length_drop, length_natToBits]
  rfl

theorem layout_highloadWalletV2 (h : HighloadWalletV2.makeAGiftMessage sign walletId validUntil gifts = .ok body) :
    Layout .highloadWalletV2 sign [walletId, validUntil] gifts body := by
  obtain ⟨_, hcheck, h⟩ := bind_ok h
  have hlen : gifts.length ≤ 254 := checkGifts_ok hcheck
  obtain ⟨messages, hmessages, h⟩ := bind_ok h
  obtain ⟨hash, hhash, h⟩ := bind_ok h
  obtain ⟨head, hhead, h⟩ := bind_ok h
  obtain ⟨queryId, hqueryId, h⟩ := bind_ok h
  obtain ⟨cb, hcb, h⟩ := bind_ok h
  rw [head_of_storeWords (Nat.le_of_ble_eq_true rfl) hhead] at hqueryId
  have hhashLen := length_messagesHash hhash
  rw [adds_storeBits hqueryId] at hcb
  rw [storeMessages_ok (by rw [List.length_append, length_wordBits, hhashLen]; exact Nat.le_of_ble_eq_true rfl) hcb] at h
  obtain ⟨ms, hms, hbits, hstands⟩ := messagesDict_ok hmessages
  refine ⟨ms, hash, Slice.maybeRef messages.rootCell, hms, ?_, ?_, readMessages_made hms (by omega) hbits hstands⟩
  · rw [List.length_append, length_wordBits, hhashLen]
    rfl
  · exact signedOver_of_signedBody h

/-- The body of each wallet. -/
theorem Family.layout (family : Family) (h : family.makeAGiftMessage sign walletId seqno validUntil gifts = .ok body) :
    Layout family sign (family.words walletId seqno validUntil) gifts body := by
  cases family with
  | testWallet =>
    obtain ⟨_, -, h⟩ := bind_ok h
    exact layout_flatBody rfl (Nat.le_of_ble_eq_true rfl) (fun _ => rfl) h
  | wallet =>
    obtain ⟨_, -, h⟩ := bind_ok h
    exact layout_flatBody rfl (Nat.le_of_ble_eq_true rfl) (fun _ => rfl) h
  | walletV3 =>
    obtain ⟨_, -, h⟩ := bind_ok h
    exact layout_flatBody rfl (Nat.le_of_ble_eq_true rfl) (fun _ => rfl) h
  | restrictedWallet =>
    obtain ⟨_, -, h⟩ := bind_ok h
    obtain ⟨_, hseqno, h⟩ := bind_ok h
    obtain ⟨_, hwallet, h⟩ := bind_ok h
    cases hseqno
    cases hwallet
    split at h
    · exact absurd h fail_ne_ok
    · exact layout_flatBody rfl (Nat.le_of_ble_eq_true rfl) (fun _ => rfl) h
  | highloadWallet => exact layout_highloadWallet h
  | highloadWalletV2 => exact layout_highloadWalletV2 h

/-! ## What is delivered -/

/-- What a contract sends is a gift. -/
structure Delivered (gift : Gift) (sent : Sent) : Prop where
  mode : sent.mode = if gift.gramms = -1 then 3 + 128 else 3
  message : ∃ (msg : MessageRecord) (info : IntMsgInfo) (dest : MsgAddressInt.AddrStd) (amount : Nat) (body : Slice),
    unpackCell MessageRelaxed.unpack ⟨sent.message, .none⟩ = .ok (some msg) ∧
    unpackExact CommonMsgInfoRelaxed.unpackIntMsgInfo msg.info = some info ∧
    unpackExact MsgAddressInt.unpackAddrStd info.dest = some dest ∧
    dest.workchainId = gift.destination.workchain.toInt ∧ dest.address = gift.destination.addr ∧
    info.bounce = gift.destination.bounceable ∧
    info.value.Holds (currencySlice amount) ∧ (amount : Int) = (if gift.gramms = -1 then 0 else gift.gramms.toInt) ∧
    msg.init.Holds (initSlice gift.initState) ∧
    msg.body.Holds ((bitsSlice [false]).append body) ∧ CarriesBody gift body

/-- The body of a wallet's message delivers the gifts. -/
structure Delivers (family : Family) (sign : Bits256 → List UInt8) (words : List UInt32) (gifts : List Gift) (body : Cell) :
    Prop where
  signed : ∃ outer, cellOf ⟨body.data.drop 512, body.refs⟩ = some outer ∧
    body.data.take 512 = bytesToBits (sign (outer.getHash maxLevel))
  words : (body.data.drop 512).take (32 * words.length) = wordBits words
  gifts : ∃ sent, family.read body = some sent ∧ List.Forall₂ Delivered gifts sent

/-- The amount of a gift is one that can be sent, or stands for all that there is. -/
def Gift.AmountFits (gift : Gift) : Prop := gift.gramms = -1 ∨ 0 ≤ gift.gramms.toInt

/-- A message is read as its gift exactly if the destination's workchain is a byte. -/
theorem delivered_iff {gift : Gift} {m : Cell} (hamount : gift.AmountFits) (h : createIntMessage gift = .ok m) :
    Delivered gift ⟨sendMode gift, m⟩ ↔ StdAddress.FitsByte gift.destination.workchain := by
  obtain ⟨msg, info, dest, hmsg, hinfo, hdest, hwc, haddr, hbounce, ⟨grams, hgrams, hvalue⟩, hinit, body, hcarries, hbody⟩ :=
    decodes_stored h
  constructor
  · rintro ⟨-, msg', info', dest', -, -, hmsg', hinfo', hdest', hwc', -⟩
    rw [hmsg] at hmsg'
    cases hmsg'
    rw [hinfo] at hinfo'
    cases hinfo'
    rw [hdest] at hdest'
    cases hdest'
    have hlo := BitVec.le_toInt (storedWorkchain gift.destination.workchain)
    have hhi := @BitVec.toInt_lt _ (storedWorkchain gift.destination.workchain)
    rw [← hwc, hwc'] at hlo hhi
    exact ⟨hlo, hhi⟩
  · intro hfits
    refine ⟨rfl, msg, info, dest, grams, body, hmsg, hinfo, hdest, hwc.trans (toInt_storedWorkchain hfits), haddr, hbounce,
      hvalue, ?_, hinit, hbody, hcarries⟩
    rw [← hgrams]
    rcases hamount with hall | hnonneg
    · rw [hall]
      rfl
    · have hnot : ¬ gift.gramms < 0 := by
        rw [Int64.lt_iff_toInt_lt, not_lt]
        exact hnonneg
      have hne : gift.gramms ≠ -1 := by
        intro hall
        rw [hall] at hnonneg
        exact absurd hnonneg (by decide)
      rw [if_neg hnot, if_neg hne]

theorem forall₂_delivered {ms : List Cell} (hamounts : ∀ gift ∈ gifts, gift.AmountFits) (h : Made gifts ms) :
    List.Forall₂ Delivered gifts (sentOf gifts ms) ↔ ∀ gift ∈ gifts, StdAddress.FitsByte gift.destination.workchain := by
  induction h with
  | nil => exact ⟨fun _ gift hgift => (List.not_mem_nil hgift).elim, fun _ => .nil⟩
  | @cons gift m gifts ms hm _ ih =>
    have hrest := ih fun g hg => hamounts g (List.mem_cons_of_mem _ hg)
    rw [List.forall_mem_cons, ← hrest, ← delivered_iff (hamounts gift List.mem_cons_self) hm]
    exact List.forall₂_cons

/-- The words and the gifts stand behind the signature, which is over all of them. -/
theorem delivers_iff_of_layout {family : Family} {words : List UInt32} (hsign : ∀ hash, (sign hash).length = 64)
    (hamounts : ∀ gift ∈ gifts, gift.AmountFits) (h : Layout family sign words gifts body) :
    Delivers family sign words gifts body ↔ ∀ gift ∈ gifts, StdAddress.FitsByte gift.destination.workchain := by
  obtain ⟨ms, more, rest, hms, hlen, ⟨outer, houter, rfl⟩, hread⟩ := h
  have hsigned : (bytesToBits (sign (outer.getHash maxLevel))).length = 512 := by rw [length_bytesToBits, hsign]
  generalize hsignature : bytesToBits (sign (outer.getHash maxLevel)) = signature at hsigned
  have hcontract : family.read (.mk false (signature ++ (Slice.append ⟨wordBits words ++ more, []⟩ rest).bits)
      (Slice.append ⟨wordBits words ++ more, []⟩ rest).refs) = some (sentOf gifts ms) := by
    have hhead : (signature ++ (wordBits words ++ more)).length = family.headBits := by
      rw [List.length_append, hsigned, hlen]
    have hslice : (⟨signature ++ (wordBits words ++ more ++ rest.bits), rest.refs⟩ : Slice) =
        Slice.append ⟨signature ++ (wordBits words ++ more), []⟩ rest := by
      rw [Slice.append, ← List.append_assoc, List.nil_append]
    show (Slice.advance family.headBits ⟨signature ++ (wordBits words ++ more ++ rest.bits), rest.refs⟩ >>= _) = _
    rw [hslice, Slice.advance_append hhead]
    exact hread
  rw [← forall₂_delivered hamounts hms]
  constructor
  · rintro ⟨-, -, sent, hsent, hdelivered⟩
    rw [hcontract] at hsent
    cases hsent
    exact hdelivered
  · intro hdelivered
    refine ⟨⟨outer, ?_, ?_⟩, ?_, _, hcontract, hdelivered⟩
    · show cellOf ⟨(signature ++ _).drop 512, _⟩ = _
      rw [List.drop_left' hsigned]
      exact houter
    · rw [hsignature]
      exact List.take_left' hsigned
    · show ((signature ++ (wordBits words ++ more ++ rest.bits)).drop 512).take _ = _
      rw [List.drop_left' hsigned, List.append_assoc]
      exact List.take_left' (length_wordBits words)

/-- The body of a wallet's message delivers its gifts, each once and in their order, exactly if each destination's workchain
is a byte. -/
theorem gifts_delivered_iff (family : Family) (hsign : ∀ hash, (sign hash).length = 64)
    (hamounts : ∀ gift ∈ gifts, gift.AmountFits)
    (h : family.makeAGiftMessage sign walletId seqno validUntil gifts = .ok body) :
    Delivers family sign (family.words walletId seqno validUntil) gifts body ↔
      ∀ gift ∈ gifts, StdAddress.FitsByte gift.destination.workchain :=
  delivers_iff_of_layout hsign hamounts (family.layout h)

/-! ## Messages that are made -/

theorem storeGifts_made {ms : List Cell} {bits : List Bool} {refs : List Cell} (h : Made gifts ms)
    (hbits : bits.length + 8 * gifts.length ≤ maxBits) (hrefs : refs.length + gifts.length ≤ maxRefs) :
    storeGifts gifts ⟨bits, refs⟩ = .ok ⟨bits ++ modeBits gifts, refs ++ ms⟩ := by
  induction h generalizing bits refs with
  | nil =>
    rw [modeBits, List.flatMap_nil, List.append_nil, List.append_nil]
    rfl
  | @cons gift m gifts ms hm _ ih =>
    rw [List.length_cons] at hbits hrefs
    have hmode : storeBits (natToBits 8 (sendMode gift)) ⟨bits, refs⟩ =
        .ok ⟨bits ++ natToBits 8 (sendMode gift), refs⟩ := by
      rw [storeBits, if_pos]
      simp only [canExtendBy, length_natToBits, Bool.and_eq_true, decide_eq_true_eq]
      omega
    have hmessage : storeRef (some m) ⟨bits ++ natToBits 8 (sendMode gift), refs⟩ =
        .ok ⟨bits ++ natToBits 8 (sendMode gift), refs ++ [m]⟩ := by
      rw [storeRef, storeRefBool, Option.bind_eq_bind, Option.bind_some, if_pos (show refs.length < maxRefs by omega)]
    have hgift : storeGift gift ⟨bits, refs⟩ = .ok ⟨bits ++ natToBits 8 (sendMode gift), refs ++ [m]⟩ := by
      rw [storeGift, hmode]
      show (createIntMessage gift >>= _) = _
      rw [hm]
      exact hmessage
    have hrest := @ih (bits ++ natToBits 8 (sendMode gift)) (refs ++ [m])
      (by rw [List.length_append, length_natToBits]; omega) (by rw [List.length_append, List.length_singleton]; omega)
    rw [storeGifts, List.foldlM_cons, hgift]
    refine hrest.trans ?_
    rw [modeBits_cons, List.append_assoc, List.append_assoc, List.singleton_append]

/-- A message that leaves room above it. -/
def LeavesRoom (gift : Gift) : Prop := ∃ m, createIntMessage gift = .ok m ∧ m.Within (maxDepth - 18)

theorem Made.unique {ms ms' : List Cell} (h : Made gifts ms) (h' : Made gifts ms') : ms = ms' := by
  induction h generalizing ms' with
  | nil =>
    cases h'
    rfl
  | cons hm _ ih =>
    cases h' with
    | cons hm' hms' =>
      rw [hm] at hm'
      cases hm'
      rw [ih hms']

theorem exists_made (h : ∀ gift ∈ gifts, LeavesRoom gift) :
    ∃ ms, Made gifts ms ∧ ∀ m ∈ ms, m.Within (maxDepth - 18) := by
  induction gifts with
  | nil => exact ⟨[], .nil, fun m hm => (List.not_mem_nil hm).elim⟩
  | cons gift gifts ih =>
    obtain ⟨m, hm, hwithin⟩ := h gift List.mem_cons_self
    obtain ⟨ms, hms, hall⟩ := ih fun g hg => h g (List.mem_cons_of_mem _ hg)
    exact ⟨m :: ms, .cons hm hms, List.forall_mem_cons.2 ⟨hwithin, hall⟩⟩

theorem flatBody_total (hsign : ∀ hash, (sign hash).length = 64) {words : List UInt32} (hshort : words.length ≤ 3)
    (hlen : gifts.length ≤ 4) (h : ∀ gift ∈ gifts, LeavesRoom gift) : ∃ body, flatBody sign words gifts = .ok body := by
  obtain ⟨ms, hms, hwithin⟩ := exists_made h
  have hbits := length_wordBits words
  have hhead : storeWords words {} = .ok ⟨[] ++ wordBits words, []⟩ :=
    @storeWords_ok words [] (by rw [List.length_nil, maxBits]; omega)
  have hgifts : storeGifts gifts ⟨[] ++ wordBits words, []⟩ = .ok ⟨[] ++ wordBits words ++ modeBits gifts, [] ++ ms⟩ :=
    storeGifts_made hms (by rw [List.nil_append, hbits, maxBits]; omega) (by rw [List.length_nil, maxRefs]; omega)
  rw [flatBody, hhead]
  simp only [bind, Except.bind, hgifts]
  apply signedBody_total hsign
  · simp only [List.nil_append, List.length_append, hbits, length_modeBits, maxBits]
    omega
  · simp only [List.nil_append, ← hms.length_eq]
    exact hlen
  · intro m hm
    exact (hwithin m hm).mono (by decide)

theorem node_giftItem {key : List Bool} {bits : List Bool} {m : Cell} (hkey : key.length = 16) (hbits : bits.length = 8)
    (hm : m.Within (maxDepth - 18)) : ∃ c, node key 16 ⟨bits, [m]⟩ = some c ∧ c.Within (maxDepth - 17) := by
  have hlabel : (labelBits key 16).length ≤ 34 := by
    rw [length_labelBits (by omega)]
    omega
  have hwithin : (Cell.mk false (labelBits key 16 ++ bits) [m]).Within (maxDepth - 17) :=
    Cell.Within.node (List.forall_mem_singleton.2 hm) _
  refine ⟨_, cellOf_eq ?_ ?_ (hwithin.mono (by decide)), hwithin⟩
  · show (labelBits key 16 ++ bits).length ≤ maxBits
    rw [List.length_append, maxBits]
    omega
  · exact Nat.le_of_ble_eq_true rfl

/-- The dictionary of messages that leave room is made, and leaves room. -/
theorem messagesDict_total (h : ∀ gift ∈ gifts, LeavesRoom gift) :
    ∃ d, messagesDict gifts = .ok d ∧ ∀ root ∈ d.rootCell, root.Within (maxDepth - 1) := by
  have hrun : ∃ d, run (fillWith giftEntry gifts.zipIdx) ⟨16, none, giftKeyBits_le⟩ = (.ok (), d) := by
    apply fillWith_total (stands_empty giftKeyBits_le)
    · intro k v hk
      cases hk
    · rintro ⟨gift, i⟩ hgift
      obtain ⟨m, hm, hwithin⟩ := h gift (List.fst_mem_of_mem_zipIdx hgift)
      obtain ⟨c, hc, hlow⟩ := node_giftItem (length_natToBits 16 i) (length_natToBits 8 (sendMode gift)) hwithin
      have hstored : storeGift gift {} = .ok ⟨natToBits 8 (sendMode gift), [m]⟩ := by
        have hmade := @storeGifts_made _ [gift] [m] [] [] (.cons hm .nil) (Nat.le_of_ble_eq_true rfl)
          (Nat.le_of_ble_eq_true rfl)
        rw [storeGifts, List.foldlM_cons] at hmade
        obtain ⟨cb, hcb, hmade⟩ := bind_ok hmade
        cases hmade
        rw [show ({} : CellBuilder) = ⟨[], []⟩ from rfl, hcb, modeBits_cons]
        simp [modeBits]
      refine ⟨(natToBits 16 i, ⟨natToBits 8 (sendMode gift), [m]⟩), ?_, length_natToBits 16 i, c, hc, hlow.mono (by decide)⟩
      rw [giftEntry, hstored]
      rfl
  obtain ⟨d, hrun⟩ := hrun
  have hdict : messagesDict gifts = .ok d := by rw [messagesDict, hrun]
  obtain ⟨ms, hms, hbits, hstands⟩ := messagesDict_ok hdict
  refine ⟨d, hdict, ?_⟩
  have hall : ∀ m ∈ ms, m.Within (maxDepth - 18) := by
    obtain ⟨ms', hms', hwithin⟩ := exists_made h
    rwa [hms.unique hms']
  have hlow := hstands.within_rootCell (b := maxDepth - 17) (by rw [hbits]; decide) fun k v hk => by
    obtain ⟨j, gift, m, -, -, -, hm, heq⟩ := mem_giftItems (KeyMap.mem_of_putAll_empty hk)
    cases heq
    rw [hbits]
    exact node_giftItem (length_natToBits 16 j) (length_natToBits 8 _) (hall m hm)
  rw [hbits] at hlow
  exact hlow

omit [Digest] in
theorem checkGifts_of_le {n : Nat} (h : gifts.length ≤ n) : checkGifts n gifts = .ok () := if_pos h

theorem maybeRef_fits {root : Option Cell} (h : ∀ c ∈ root, c.Within (maxDepth - 1)) :
    (Slice.maybeRef root).bits.length = 1 ∧ (Slice.maybeRef root).refs.length ≤ maxRefs ∧
      ∀ c ∈ (Slice.maybeRef root).refs, c.Within (maxDepth - 1) := by
  cases root with
  | none => exact ⟨rfl, Nat.zero_le _, fun c hc => (List.not_mem_nil hc).elim⟩
  | some root => exact ⟨rfl, Nat.le_of_ble_eq_true rfl, List.forall_mem_singleton.2 (h root rfl)⟩

theorem highloadWallet_total (hsign : ∀ hash, (sign hash).length = 64) (hlen : gifts.length ≤ 254)
    (h : ∀ gift ∈ gifts, LeavesRoom gift) :
    ∃ body, HighloadWallet.makeAGiftMessage sign walletId seqno validUntil gifts = .ok body := by
  obtain ⟨d, hd, hwithin⟩ := messagesDict_total h
  obtain ⟨hbit, hrefs, hroot⟩ := maybeRef_fits hwithin
  have hwords : (wordBits [walletId, validUntil, seqno]).length = 96 := length_wordBits _
  have hhead : storeWords [walletId, validUntil, seqno] {} = .ok ⟨[] ++ wordBits [walletId, validUntil, seqno], []⟩ :=
    storeWords_ok (Nat.le_of_ble_eq_true rfl)
  have hmessages := @storeMessages_eq d ([] ++ wordBits [walletId, validUntil, seqno])
    (by rw [List.nil_append, hwords]; exact Nat.le_of_ble_eq_true rfl)
  rw [HighloadWallet.makeAGiftMessage, HighloadWallet.maxGiftsSize, checkGifts_of_le hlen]
  simp only [bind, Except.bind, hd, hhead, hmessages]
  apply signedBody_total hsign _ hrefs hroot
  simp only [List.nil_append, List.length_append, hwords, hbit, maxBits]
  decide

theorem highloadWalletV2_total (hsign : ∀ hash, (sign hash).length = 64) (hlen : gifts.length ≤ 254)
    (h : ∀ gift ∈ gifts, LeavesRoom gift) :
    ∃ body, HighloadWalletV2.makeAGiftMessage sign walletId validUntil gifts = .ok body := by
  obtain ⟨d, hd, hwithin⟩ := messagesDict_total h
  obtain ⟨hbit, hrefs, hroot⟩ := maybeRef_fits hwithin
  have hwords : (wordBits [walletId, validUntil]).length = 64 := length_wordBits _
  have hhash : ∃ hash, HighloadWalletV2.messagesHash d = .ok hash := by
    have hcell : CellBuilder.finalize ⟨[] ++ (Slice.maybeRef d.rootCell).bits, (Slice.maybeRef d.rootCell).refs⟩ =
        .ok (.mk false ([] ++ (Slice.maybeRef d.rootCell).bits) (Slice.maybeRef d.rootCell).refs) :=
      Vm.finalize_ok (by rw [List.nil_append, hbit]; exact Nat.le_of_ble_eq_true rfl) hrefs (Cell.Within.node hroot _)
    have hmaybe := @storeMessages_eq d [] (Nat.le_of_ble_eq_true rfl)
    rw [HighloadWalletV2.messagesHash, show ({} : CellBuilder) = ⟨[], []⟩ from rfl, hmaybe]
    simp only [bind, Except.bind, hcell]
    exact ⟨_, rfl⟩
  obtain ⟨hash, hhash⟩ := hhash
  have hlow : hash.length = 32 := length_messagesHash hhash
  have hhead : storeWords [walletId, validUntil] {} = .ok ⟨[] ++ wordBits [walletId, validUntil], []⟩ :=
    storeWords_ok (Nat.le_of_ble_eq_true rfl)
  have hquery : storeBits hash ⟨[] ++ wordBits [walletId, validUntil], []⟩ =
      .ok ⟨[] ++ wordBits [walletId, validUntil] ++ hash, []⟩ :=
    storeBits_ok (by rw [List.nil_append, hwords, hlow]; exact Nat.le_of_ble_eq_true rfl)
  have hmessages := @storeMessages_eq d ([] ++ wordBits [walletId, validUntil] ++ hash)
    (by rw [List.nil_append, List.length_append, hwords, hlow]; exact Nat.le_of_ble_eq_true rfl)
  rw [HighloadWalletV2.makeAGiftMessage, HighloadWalletV2.maxGiftsSize, checkGifts_of_le hlen]
  simp only [bind, Except.bind, hd, hhash, hhead, hquery, hmessages]
  apply signedBody_total hsign _ hrefs hroot
  simp only [List.nil_append, List.length_append, hwords, hlow, hbit, maxBits]
  decide

/-- Gifts that are not too many, with messages that leave room, are put into one body. -/
theorem Family.makeAGiftMessage_total (family : Family) (hsign : ∀ hash, (sign hash).length = 64)
    (hlen : gifts.length ≤ family.maxGiftsSize) (hseqno : seqno ≠ 0) (h : ∀ gift ∈ gifts, LeavesRoom gift) :
    ∃ body, family.makeAGiftMessage sign walletId seqno validUntil gifts = .ok body := by
  have hflat {n : Nat} {words : List UInt32} (hn : gifts.length ≤ n) (hfour : n ≤ 4) (hshort : words.length ≤ 3) :
      ∃ body, (checkGifts n gifts >>= fun _ => flatBody sign words gifts) = .ok body := by
    rw [checkGifts_of_le hn]
    exact flatBody_total hsign hshort (hn.trans hfour) h
  cases family with
  | testWallet => exact hflat hlen (Nat.le_of_ble_eq_true rfl) (Nat.le_of_ble_eq_true rfl)
  | wallet => exact hflat hlen (Nat.le_of_ble_eq_true rfl) (Nat.le_of_ble_eq_true rfl)
  | walletV3 => exact hflat hlen (Nat.le_of_ble_eq_true rfl) (Nat.le_of_ble_eq_true rfl)
  | restrictedWallet =>
    obtain ⟨body, hbody⟩ := @flatBody_total _ sign gifts hsign [walletId, validUntil, seqno] (Nat.le_of_ble_eq_true rfl) hlen h
    refine ⟨body, ?_⟩
    show RestrictedWallet.makeAGiftMessage sign (.ok seqno) (.ok walletId) validUntil gifts = _
    rw [RestrictedWallet.makeAGiftMessage, checkGifts_of_le (show gifts.length ≤ RestrictedWallet.maxGiftsSize from hlen)]
    simp only [bind, Except.bind, if_neg hseqno]
    exact hbody
  | highloadWallet => exact highloadWallet_total hsign hlen h
  | highloadWalletV2 => exact highloadWalletV2_total hsign hlen h

end

namespace GiftSample

/-- A signature of zeros. -/
def sign (_ : Bits256) : List UInt8 := List.replicate 64 0

/-- A gift of five with a text. -/
def gift (workchain : Int32) : Gift := ⟨Sample.threes workchain, 5, false, [104, 105], none, none⟩

/-- The messages of such gifts have no cells behind them. -/
theorem leavesRoom {workchain : Int32}
    (h : ((@createIntMessage Sample.digest (gift workchain)).toOption.elim false fun m => !m.special && m.refs.isEmpty) = true) :
    @LeavesRoom Sample.digest (gift workchain) := by
  cases hm : @createIntMessage Sample.digest (gift workchain) with
  | error e =>
    rw [hm] at h
    cases h
  | ok m =>
    rw [hm] at h
    obtain ⟨special, bits, refs⟩ := m
    have h : (!special && refs.isEmpty) = true := h
    rw [Bool.and_eq_true, Bool.not_eq_true', List.isEmpty_iff] at h
    obtain ⟨rfl, rfl⟩ := h
    refine ⟨_, hm, ?_⟩
    have hlow := @Cell.Within.node Sample.digest 0 [] (fun c hc => (List.not_mem_nil hc).elim) bits
    exact @Cell.Within.mono Sample.digest _ _ _ hlow (Nat.le_of_ble_eq_true rfl)

/-- A body that sends one gift. -/
theorem exists_body {workchain : Int32} (h : @LeavesRoom Sample.digest (gift workchain)) : ∃ body,
    @Family.makeAGiftMessage Sample.digest .walletV3 sign 1 2 3 [gift workchain] = .ok body :=
  @Family.makeAGiftMessage_total Sample.digest sign _ 1 2 3 .walletV3 (fun _ => rfl) (Nat.le_of_ble_eq_true rfl) (by decide)
    (List.forall_mem_singleton.2 h)

/-- A gift to the masterchain is delivered. -/
theorem gifts_delivered_masterchain :
    ∃ body, @Delivers Sample.digest .walletV3 sign [1, 3, 2] [gift (-1)] body := by
  obtain ⟨body, hbody⟩ := exists_body (@leavesRoom (-1) (by decide +kernel))
  refine ⟨body, (@gifts_delivered_iff Sample.digest sign _ body 1 2 3 .walletV3 (fun _ => rfl) ?_ hbody).2 ?_⟩
  · exact List.forall_mem_singleton.2 (.inr (by decide))
  · exact List.forall_mem_singleton.2 ⟨by decide, by decide⟩

/-- A gift to workchain 256 is not: it goes to the basechain. -/
theorem gifts_not_delivered : ¬ ∀ (_ : Digest) (family : Family) (sign : Bits256 → List UInt8)
    (walletId seqno validUntil : UInt32) (gifts : List Gift) (body : Cell), (∀ hash, (sign hash).length = 64) →
      (∀ gift ∈ gifts, gift.AmountFits) → family.makeAGiftMessage sign walletId seqno validUntil gifts = .ok body →
        Delivers family sign (family.words walletId seqno validUntil) gifts body := by
  intro hdelivers
  obtain ⟨body, hbody⟩ := exists_body (@leavesRoom 256 (by decide +kernel))
  have hamounts : ∀ g ∈ [gift 256], g.AmountFits := List.forall_mem_singleton.2 (.inr (by decide))
  have hdelivered := hdelivers Sample.digest .walletV3 sign 1 2 3 _ body (fun _ => rfl) hamounts hbody
  have hfits := (@delivers_iff_of_layout Sample.digest sign _ body .walletV3 _ (fun _ => rfl) hamounts
    (@Family.layout Sample.digest sign _ body 1 2 3 .walletV3 hbody)).1 hdelivered
  exact absurd (hfits _ List.mem_cons_self).2 (by decide)

end GiftSample

end TonWallet.SmcEnvelope
