/-
The salt of an encrypted comment is the text of its source. It is made from the address of the account when a comment is
encrypted and when a transaction is reported; `msg_decrypt` takes the text that the caller gives, after it has read it.
-/
import TonWallet.Block.RawAddress
import TonWallet.Tonlib.RawMessage
import TonWallet.Tonlib.SendGramsAmount

namespace TonWallet.Tonlib.SendGrams

open Lib TonWallet.Td TonWallet.Vm TonWallet.Block TonWallet.SmcEnvelope Crypto
open GenericCreateSendGrams (attempt textBytes salt receiverKey makeGift)

/-! ## `msg_decrypt` -/

/-- `msg_dataEncrypted`. -/
structure MsgDataEncrypted where
  source : Option (List Char)
  data : Option MsgData

/-- `msg_dataDecrypted`. -/
structure MsgDataDecrypted where
  proof : Bytes := []
  data : Option MsgData := none

section

variable [Crypto] (memory : Fin 36 → UInt8)

/-- `msg_decrypt` of one element, with the private key. -/
def decryptElement (privateKey : PrivateKey) : Option MsgDataEncrypted → Result MsgDataDecrypted
  | some { source := some source, data := some data } => do
    match ← attempt (getAccountAddress memory source), data with
    | some _, .encryptedText text =>
      match ← attempt (SimpleEncryptionV2.decryptData text privateKey (textBytes source)) with
      | some decrypted => return { proof := decrypted.proof, data := some (.decryptedText decrypted.data) }
      | none => return { data := some data }
    | _, _ => return { data := some data }
  | some { data, .. } => return { data }
  | none => return {}

end

/-! ## Comments -/

section

variable [Contracts] {memory : Fin 36 → UInt8}

/-- A gift whose comment `create_query` encrypts, of an account that the request names `s`. -/
structure EncryptsGift (memory : Fin 36 → UInt8) (s : List Char) (g : GenericCreateSendGrams) (source : AccountState)
    (i : Nat) (action : Action) (destination : AccountState) (gift : Gift) : Prop where
  address : getAccountAddress memory s = .ok source.address
  body : action.body = none
  shouldEncrypt : action.shouldEncrypt = true
  gift : g.makeGift source i action destination = .ok gift

/-- The key of the sender, or one that the comment is encrypted to. -/
def OpensGift (g : GenericCreateSendGrams) (action : Action) (destination : AccountState) (key : PrivateKey) : Prop :=
  g.privateKey = some key ∨ ∃ publicKey, receiverKey action destination = .ok publicKey ∧ getPublicKey key = .ok publicKey

/-- A message of the account with the gift's body in it, as a transaction has it. -/
structure Delivers (address : StdAddress) (gift : Gift) (cell : Cell) (message : MessageRecord) (info : IntMsgInfo)
    (stored : Slice) : Prop where
  unpackMessage : unpackCell Message.unpack ⟨cell, .none⟩ = .ok (some message)
  tag : ∃ rest, CommonMsgInfo.getTag message.info = some (0, rest)
  unpackInfo : unpackExact CommonMsgInfo.unpackIntMsgInfo message.info = some info
  source : ToRawTransactions.IsSource address info.src
  destination : ∃ text, toStdAddress info.dest = .ok text
  value : ∃ value, toBalance info.value = .ok value
  fwdFee : ∃ fee, toBalance info.fwdFee = .ok fee
  ihrFee : ∃ fee, toBalance info.ihrFee = .ok fee
  stores : ∃ cb cb', WalletInterface.storeGiftMessage gift cb = .ok cb' ∧
    cb' = ⟨cb.bits ++ stored.bits, cb.refs ++ stored.refs⟩
  body : ToRawTransactions.HoldsBody message.body stored

/-! ## What is encrypted is opened -/

/-- An encrypted gift carries what `SimpleEncryptionV2` made of the comment. -/
theorem EncryptsGift.encrypted {s : List Char} {g : GenericCreateSendGrams} {source : AccountState} {i : Nat}
    {action : Action} {destination : AccountState} {gift : Gift}
    (h : EncryptsGift memory s g source i action destination gift) :
    (gift.body = none ∧ gift.isEncrypted = true) ∧ ∃ key publicKey, g.privateKey = some key ∧
      receiverKey action destination = .ok publicKey ∧ SimpleEncryptionV2.encryptData (g.random i) action.message publicKey
        key (textBytes (salt source.address)) = .ok gift.message := by
  have hgift := h.gift
  unfold makeGift at hgift
  rw [h.body, h.shouldEncrypt] at hgift
  dsimp only at hgift
  rw [if_pos rfl] at hgift
  obtain ⟨key, hkey, hgift⟩ := bind_ok hgift
  obtain ⟨publicKey, hpublicKey, hgift⟩ := bind_ok hgift
  obtain ⟨message, hmessage, hgift⟩ := bind_ok hgift
  cases hgift
  exact ⟨⟨rfl, rfl⟩, key, publicKey, orStatus_ok_iff.1 hkey, hpublicKey, tryPrefix_ok_iff.1 hmessage⟩

/-- Either key opens the comment, with the text of the address that it was encrypted with. -/
theorem decryptData_of_opens [LawfulCrypto] {s : List Char} {g : GenericCreateSendGrams} {source : AccountState} {i : Nat}
    {action : Action} {destination : AccountState} {gift : Gift} {key : PrivateKey}
    (h : EncryptsGift memory s g source i action destination gift) (hkey : OpensGift g action destination key) :
    ∃ d, SimpleEncryptionV2.decryptData gift.message key (textBytes (salt source.address)) = .ok d ∧
      d.data = action.message := by
  obtain ⟨-, sender, publicKey, hsender, hpublicKey, hencrypt⟩ := h.encrypted
  rcases hkey with hkey | ⟨publicKey', hpublicKey', hkey⟩
  · cases hsender.symm.trans hkey
    obtain ⟨d, hd, hdata, -⟩ := SimpleEncryptionV2.decryptData_sender hencrypt
    exact ⟨d, hd, hdata⟩
  · cases hpublicKey.symm.trans hpublicKey'
    obtain ⟨d, hd, hdata, -⟩ := SimpleEncryptionV2.decryptData_receiver hkey hencrypt
    exact ⟨d, hd, hdata⟩

/-- What is stored of an encrypted gift. -/
theorem carries_of_stores {gift : Gift} {cb cb' : CellBuilder} {stored : Slice} (hbody : gift.body = none)
    (hencrypted : gift.isEncrypted = true) (h : WalletInterface.storeGiftMessage gift cb = .ok cb')
    (hcb : cb' = ⟨cb.bits ++ stored.bits, cb.refs ++ stored.refs⟩) :
    ToRawTransactions.Carries 1 gift.message stored := by
  unfold WalletInterface.storeGiftMessage at h
  rw [hbody, hencrypted] at h
  obtain ⟨cb₁, htype, h⟩ := bind_ok h
  rcases CellString.storeBits_cases (natToBits 32 1) cb with ⟨hok, hroom⟩ | herror
  · cases hok.symm.trans htype
    have hstring : CellString.store gift.message (35 * 8) ⟨cb.bits ++ natToBits 32 1, cb.refs⟩ = .ok cb' := by
      split at h
      · cases h
      · exact h
    obtain ⟨s, hs, hlength, hholds⟩ := CellString.holds_of_store hstring
    obtain ⟨hbits, hrefs⟩ := CellBuilder.mk.inj (hs.symm.trans hcb)
    rw [List.append_assoc] at hbits
    have hbits := List.append_cancel_left hbits
    have hrefs := List.append_cancel_left hrefs
    refine ⟨?_, ?_, ?_, ?_⟩
    · rw [← hbits]
      unfold CellBuilder.remainingBits at hroom hlength
      rw [length_natToBits] at hroom
      rw [List.length_append, length_natToBits] at hlength ⊢
      omega
    · rw [← hrefs]
      exact hholds.within
    · rw [← hbits]
      exact List.take_left' (length_natToBits 32 1)
    · rw [← hbits, ← hrefs, List.drop_left' (length_natToBits 32 1)]
      exact hholds
  · cases herror.symm.trans htype

/-- The comment is reported in a transaction, whatever text the source had in the request. -/
theorem toRawMessage_of_delivers {address : StdAddress} {gift : Gift} {cell : Cell} {message : MessageRecord}
    {info : IntMsgInfo} {stored : Slice} {key : PrivateKey} {data : Bytes} (toBytes : Cell → Bytes)
    (h : Delivers address gift cell message info stored) (hbody : gift.body = none) (hencrypted : gift.isEncrypted = true)
    (hdecrypt : ∃ d, SimpleEncryptionV2.decryptData gift.message key (textBytes (salt address)) = .ok d ∧ d.data = data) :
    ∃ raw, ToRawTransactions.toRawMessage toBytes (some key) cell = .ok raw ∧ raw.msgData = .decryptedText data := by
  obtain ⟨cb, cb', hstores, hcb⟩ := h.stores
  have hcarries := carries_of_stores hbody hencrypted hstores hcb
  obtain ⟨rest, htag⟩ := h.tag
  obtain ⟨destination, hdestination⟩ := h.destination
  obtain ⟨value, hvalue⟩ := h.value
  obtain ⟨fwdFee, hfwdFee⟩ := h.fwdFee
  obtain ⟨ihrFee, hihrFee⟩ := h.ihrFee
  have hsource := ToRawTransactions.toStdAddress_of_isSource h.source
  obtain ⟨body, hfound, hholds⟩ := ToRawTransactions.messageBody_of_holdsBody h.body hcarries
  obtain ⟨bodyCell, hbodyCell⟩ := ToRawTransactions.bodyCell_of_holds hholds hcarries
  have hdata := ToRawTransactions.getData_encrypted toBytes bodyCell hholds hcarries hdecrypt
  have hint : ∃ raw, ToRawTransactions.ofIntMsgInfo toBytes (some key) info body bodyCell = .ok raw ∧
      raw.msgData = .decryptedText data := by
    unfold ToRawTransactions.ofIntMsgInfo
    rw [hvalue, hsource, hdestination, hfwdFee, hihrFee]
    dsimp only [bind, Except.bind]
    rw [hdata]
    exact ⟨_, rfl, rfl⟩
  obtain ⟨raw, hraw, hmsgData⟩ := hint
  refine ⟨raw, ?_, hmsgData⟩
  unfold ToRawTransactions.toRawMessage
  rw [tryVm, catchVm_ok_iff, h.unpackMessage]
  change ToRawTransactions.messageBody message.body >>= _ = _
  rw [hfound]
  change ToRawTransactions.bodyCell body >>= _ = _
  rw [hbodyCell]
  change ToRawTransactions.ofInfo toBytes (some key) message.info body bodyCell = _
  unfold ToRawTransactions.ofInfo
  rw [htag]
  change orFail (.ok (unpackExact CommonMsgInfo.unpackIntMsgInfo message.info)) _ >>= _ = _
  rw [h.unpackInfo]
  exact hraw

/-- `msg_decrypt` opens a text with the bytes of the source's text. -/
theorem decryptElement_iff {t : List Char} {b : StdAddress} {key : PrivateKey} {text data : Bytes}
    (ht : getAccountAddress memory t = .ok b) :
    (∃ proof, decryptElement memory key (some ⟨some t, some (.encryptedText text)⟩) =
      .ok ⟨proof, some (.decryptedText data)⟩) ↔
        ∃ d, SimpleEncryptionV2.decryptData text key (textBytes t) = .ok d ∧ d.data = data := by
  unfold decryptElement
  dsimp only
  rw [GenericCreateSendGrams.attempt_of_ok ht]
  dsimp only [bind, Except.bind]
  cases hdecrypt : SimpleEncryptionV2.decryptData text key (textBytes t) with
  | ok d =>
    constructor
    · rintro ⟨proof, h⟩
      cases h
      exact ⟨d, rfl, rfl⟩
    · rintro ⟨d', hd', rfl⟩
      cases hd'
      exact ⟨_, rfl⟩
  | error f =>
    constructor
    · rintro ⟨proof, h⟩
      cases f <;> cases h
    · rintro ⟨d', hd', -⟩
      cases hd'

end

/-- A comment of the account that a request names `s` is opened in a transaction, and by `msg_decrypt` of a message whose
source is named `t`. -/
def OpensComments (memory : Fin 36 → UInt8) (s t : List Char) : Prop :=
  ∀ [Contracts] [LawfulCrypto] (g : GenericCreateSendGrams) (source : AccountState) (i : Nat) (action : Action)
    (destination : AccountState) (gift : Gift) (key : PrivateKey), EncryptsGift memory s g source i action destination gift →
      OpensGift g action destination key →
        (∀ (toBytes : Cell → Bytes) cell message info stored, Delivers source.address gift cell message info stored →
          ∃ raw, ToRawTransactions.toRawMessage toBytes (some key) cell = .ok raw ∧
            raw.msgData = .decryptedText action.message) ∧
        ∃ proof, decryptElement memory key (some ⟨some t, some (.encryptedText gift.message)⟩) =
          .ok ⟨proof, some (.decryptedText action.message)⟩

/-- The text that is packed with the flag of a bounceable address alone, in the alphabet with hyphen and underscore. -/
structure Canonical (memory : Fin 36 → UInt8) (t : List Char) : Prop where
  length : t.length = 48
  symbols : ∀ c ∈ t, c ∈ Base64.url.symbols
  bounceable : ∀ a, getAccountAddress memory t = .ok a → a.bounceable = true
  testnet : ∀ a, getAccountAddress memory t = .ok a → a.testnet = false

/-! ## The text that is the salt -/

section

variable {memory : Fin 36 → UInt8} {t : List Char} {a b : StdAddress}

theorem parseAddr_of_getAccountAddress (h : getAccountAddress memory t = .ok b) : StdAddress.parseAddr memory t = some b :=
  StdAddress.parse_iff_parseAddr.1 (tryPrefix_ok_iff.1 h)

theorem getAccountAddress_of_rdeserialize (h : StdAddress.rdeserialize memory t = some b) :
    getAccountAddress memory t = .ok b := by
  refine tryPrefix_ok_iff.2 (StdAddress.parse_iff_parseAddr.2 ?_)
  unfold StdAddress.parseAddr
  rw [h]

/-- A text of 48 characters is not a raw address. -/
theorem rdeserialize_of_length (h : getAccountAddress memory t = .ok b) (hlength : t.length = 48) :
    StdAddress.rdeserialize memory t = some b := by
  have hparse := parseAddr_of_getAccountAddress h
  cases hread : StdAddress.rdeserialize memory t with
  | some b' =>
    unfold StdAddress.parseAddr at hparse
    rw [hread] at hparse
    exact hparse
  | none =>
    obtain ⟨wc, digits, hraw, -⟩ := (StdAddress.parseAddr_iff hread).1 hparse
    have hlong := hraw.length_digits.2
    omega

/-- The salt names the account, in the form of a bounceable address. -/
theorem getAccountAddress_salt (hfits : StdAddress.FitsByte a.workchain) :
    getAccountAddress memory (salt a) = .ok { a with bounceable := true, testnet := false } :=
  getAccountAddress_of_rdeserialize
    (StdAddress.rdeserialize_rserialize (a := { a with bounceable := true, testnet := false }) hfits true)

/-- The salt is written in symbols. -/
theorem salt_mem (hfits : StdAddress.FitsByte a.workchain) : ∀ c ∈ salt a, c ∈ Base64.url.symbols :=
  StdAddress.rserialize_mem (a := { a with bounceable := true, testnet := false }) hfits

theorem length_salt (hfits : StdAddress.FitsByte a.workchain) : (salt a).length = 48 :=
  StdAddress.length_rserialize (a := { a with bounceable := true, testnet := false }) hfits true

/-- Two texts of characters of one byte have different bytes. -/
theorem textBytes_inj {x y : List Char} (hx : ∀ c ∈ x, c.toNat < 128) (hy : ∀ c ∈ y, c.toNat < 128)
    (h : textBytes x = textBytes y) : x = y := by
  induction x generalizing y with
  | nil => exact (List.map_eq_nil_iff.1 h.symm).symm
  | cons c x ih =>
    cases y with
    | nil => cases h
    | cons d y =>
      rw [List.forall_mem_cons] at hx hy
      obtain ⟨hbyte, hrest⟩ := List.cons.inj h
      have hvalue := congrArg UInt8.toNat hbyte
      rw [UInt8.toNat_ofNat', UInt8.toNat_ofNat', Nat.mod_eq_of_lt (by omega), Nat.mod_eq_of_lt (by omega)] at hvalue
      rw [Char.toNat_inj.1 hvalue, ih hx.2 hy.2 hrest]

/-- A text of the account has the bytes of the salt exactly if it is the canonical one. -/
theorem textBytes_eq_salt_iff (ht : getAccountAddress memory t = .ok b) (hworkchain : b.workchain = a.workchain)
    (haddr : b.addr = a.addr) : textBytes t = textBytes (salt a) ↔ Canonical memory t := by
  constructor
  · intro hbytes
    have hfits : StdAddress.FitsByte a.workchain := by
      by_contra hwide
      have hnil : salt a = [] :=
        StdAddress.rserialize_eq_nil (a := { a with bounceable := true, testnet := false }) hwide true
      rw [hnil] at hbytes
      rw [List.map_eq_nil_iff.1 hbytes] at ht
      have hparse := parseAddr_of_getAccountAddress ht
      cases hparse
    have hlength : t.length = 48 := by
      have hmap := congrArg List.length hbytes
      rw [textBytes, textBytes, List.length_map, List.length_map, length_salt hfits] at hmap
      exact hmap
    have hread := rdeserialize_of_length ht hlength
    have hsalt (c : Char) (hc : c ∈ salt a) : c.toNat < 128 := Base64.toNat_lt_of_mem_url (salt_mem hfits c hc)
    have hpad : t.getLast? ≠ some '=' := by
      intro hlast
      have hlast' : (textBytes (salt a)).getLast? = some (UInt8.ofNat '='.toNat) := by
        rw [← hbytes, textBytes, List.getLast?_map, hlast]
        rfl
      rw [textBytes, List.getLast?_map, Option.map_eq_some_iff] at hlast'
      obtain ⟨c, hc, heq⟩ := hlast'
      have hmem := salt_mem hfits c (List.mem_of_mem_getLast? hc)
      have hcode := congrArg UInt8.toNat heq
      rw [UInt8.toNat_ofNat', Nat.mod_eq_of_lt (show _ < 2 ^ 8 from by have := Base64.toNat_lt_of_mem_url hmem; omega)] at hcode
      rw [Base64.mem_url_iff, hcode] at hmem
      exact absurd hmem (by decide)
    have htext : t = salt a := textBytes_inj (StdAddress.toNat_lt_of_rdeserialize hpad hread) hsalt hbytes
    rw [htext]
    refine ⟨length_salt hfits, salt_mem hfits, ?_, ?_⟩
    · intro c hc
      cases (getAccountAddress_salt hfits).symm.trans hc
      rfl
    · intro c hc
      cases (getAccountAddress_salt hfits).symm.trans hc
      rfl
  · rintro ⟨hlength, hsymbols, hbounceable, htestnet⟩
    have htext := StdAddress.eq_rserialize hsymbols (rdeserialize_of_length ht hlength)
    have hb : b = { a with bounceable := true, testnet := false } := by
      obtain ⟨workchain, bounceable, testnet, addr⟩ := b
      cases hworkchain
      cases haddr
      cases hbounceable _ ht
      cases htestnet _ ht
      rfl
    rw [htext, hb]
    rfl

end

/-! ## A salt that is told from others -/

namespace Sample

/-- Functions that tell a salt from all other texts, and encrypt nothing. -/
abbrev saltCrypto (text : Bytes) : Crypto where
  PrivateKey := Bytes
  getPublicKey _ := .ok (List.replicate 32 0)
  computeSharedSecret _ _ := .ok []
  hmacSha512 key _ := if key = text then List.replicate 64 1 else List.replicate 64 0
  aesCbcEncrypt _ _ data := data
  aesCbcDecrypt _ _ data := data

theorem saltCrypto_lawful (text : Bytes) : @LawfulCrypto (saltCrypto text) := by
  let _ := saltCrypto text
  refine ⟨?_, ?_, ?_, ?_, ?_⟩
  · rintro k p h
    cases h
    exact List.length_replicate
  · rintro k k' p p' - -
    exact ⟨[], rfl, rfl⟩
  · intro key message
    change (if key = text then List.replicate 64 1 else List.replicate 64 0 : Bytes).length = 64
    split <;> exact List.length_replicate
  · rintro key iv data - - -
    rfl
  · rintro key iv data - - -
    rfl

/-- Accounts that run no code, with these functions. -/
abbrev saltContracts (text : Bytes) : Contracts := { contracts none with toCrypto := saltCrypto text }

/-- A gift with an empty comment. -/
def gift : Action := { destination := { addr := 0 }, amount := 0, shouldEncrypt := true, publicKey := some (List.replicate 32 0) }

/-- An actor with the key of the source. -/
def sender [Contracts] (key : PrivateKey) : GenericCreateSendGrams where
  query := ⟨none, none, 0, none, none⟩
  random _ _ := 0
  privateKey := some key

end Sample

/-- Where every comment is opened, the caller's text has the bytes of the salt. -/
theorem textBytes_eq_of_opens {memory : Fin 36 → UInt8} {s t : List Char} {a b : StdAddress}
    (hs : getAccountAddress memory s = .ok a) (ht : getAccountAddress memory t = .ok b) (h : OpensComments memory s t) :
    textBytes t = textBytes (salt a) := by
  by_contra hne
  let _ : Contracts := Sample.saltContracts (textBytes t)
  have hlawful : LawfulCrypto := Sample.saltCrypto_lawful (textBytes t)
  let g : GenericCreateSendGrams := Sample.sender ([] : Bytes)
  let source : AccountState := { address := a, balance := 0, walletType := .walletV3 }
  have hsender : getPublicKey [] = .ok (List.replicate 32 0) := rfl
  have hsecret : computeSharedSecret (List.replicate 32 0) [] = .ok [] := rfl
  obtain ⟨msgKey, blocks, hencrypt, -⟩ :=
    SimpleEncryptionV2.encryptData_ok hsender rfl hsecret (g.random 0) [] (textBytes (salt a))
  have hmade : ∃ gift, g.makeGift source 0 Sample.gift source = .ok gift := by
    unfold makeGift
    change ∃ gift, tryPrefix internalError (SimpleEncryptionV2.encryptData (g.random 0) [] (List.replicate 32 0) []
      (textBytes (salt a))) >>= _ = .ok gift
    rw [hencrypt]
    exact ⟨_, rfl⟩
  obtain ⟨gift, hmade⟩ := hmade
  have hgift : EncryptsGift memory s g source 0 Sample.gift source gift := ⟨hs, rfl, rfl, hmade⟩
  obtain ⟨-, key, publicKey, hkey, -, hmessage⟩ := hgift.encrypted
  obtain ⟨-, hopened⟩ := h g source 0 Sample.gift source gift key hgift (.inl hkey)
  obtain ⟨d, hd, -⟩ := (decryptElement_iff ht).1 hopened
  obtain ⟨padded, hread⟩ := SimpleEncryptionV2.msgKey_of_decryptData hd
  obtain ⟨padded', hwritten⟩ := SimpleEncryptionV2.msgKey_of_encryptData hmessage
  have hones : SimpleEncryption.combineSecrets (textBytes t) padded = List.replicate 64 1 := if_pos rfl
  have hzeroes : SimpleEncryption.combineSecrets (textBytes (salt a)) padded' = List.replicate 64 0 := if_neg (Ne.symm hne)
  rw [hread, hones, hzeroes] at hwritten
  exact absurd hwritten (by decide)

/-- A comment of an account is opened in transactions whatever text named the account in the request, and by
`msg_decrypt` exactly if the text that the caller gives is the canonical one. -/
theorem opensComments_iff {memory : Fin 36 → UInt8} {s t : List Char} {a b : StdAddress}
    (hs : getAccountAddress memory s = .ok a) (ht : getAccountAddress memory t = .ok b)
    (hworkchain : b.workchain = a.workchain) (haddr : b.addr = a.addr) :
    OpensComments memory s t ↔ Canonical memory t := by
  rw [← textBytes_eq_salt_iff ht hworkchain haddr]
  constructor
  · exact textBytes_eq_of_opens hs ht
  · intro hbytes _ _ g source i action destination gift key hgift hkey
    obtain ⟨⟨hbody, hencrypted⟩, -⟩ := hgift.encrypted
    have hdecrypt := decryptData_of_opens hgift hkey
    have hsource : source.address = a := Except.ok.inj (hgift.address.symm.trans hs)
    constructor
    · rintro toBytes cell message info stored hdelivers
      exact toRawMessage_of_delivers toBytes hdelivers hbody hencrypted hdecrypt
    · rw [hsource, ← hbytes] at hdecrypt
      exact (decryptElement_iff ht).2 hdecrypt

namespace Sample

/-- The address of nothing but zeroes in the basechain. -/
def zeroes : StdAddress := { workchain := 0, addr := 0 }

/-- Its raw form. -/
def rawZeroes : List Char := '0' :: ':' :: List.replicate 64 '0'

theorem getAccountAddress_rawZeroes (memory : Fin 36 → UInt8) : getAccountAddress memory rawZeroes = .ok zeroes := by
  have hraw : IsRaw rawZeroes 0 (List.replicate 64 '0') := .named (by decide) rfl List.length_replicate
  have hform : RawForm rawZeroes zeroes := ⟨0, _, hraw, by decide, by decide⟩
  exact tryPrefix_ok_iff.2 ((parse_rawForm_iff rfl hform).2 (.inr (by decide)))

/-- The raw form in the request, the canonical text in `msg_decrypt`. -/
theorem opensComments_canonical : OpensComments (fun _ => 0) rawZeroes (salt zeroes) := by
  have hsalt : getAccountAddress (fun _ => 0) (salt zeroes) = .ok zeroes := getAccountAddress_salt ⟨by decide, by decide⟩
  have hcanonical : Canonical (fun _ => 0) (salt zeroes) := (textBytes_eq_salt_iff hsalt rfl rfl).1 rfl
  rw [opensComments_iff (getAccountAddress_rawZeroes _) hsalt rfl rfl]
  exact hcanonical

/-- The raw form in `msg_decrypt` does not open the comment. -/
theorem not_opensComments : ¬ ∀ (memory : Fin 36 → UInt8) (s t : List Char) (a b : StdAddress),
    getAccountAddress memory s = .ok a → getAccountAddress memory t = .ok b → b.workchain = a.workchain →
      b.addr = a.addr → OpensComments memory s t := by
  intro hclaim
  have hraw := getAccountAddress_rawZeroes fun _ => 0
  have hbytes := textBytes_eq_of_opens hraw hraw (hclaim _ _ _ _ _ hraw hraw rfl rfl)
  have hlength := congrArg List.length hbytes
  rw [textBytes, textBytes, List.length_map, List.length_map, length_salt ⟨by decide, by decide⟩] at hlength
  exact absurd hlength (by decide)

end Sample

end TonWallet.Tonlib.SendGrams
