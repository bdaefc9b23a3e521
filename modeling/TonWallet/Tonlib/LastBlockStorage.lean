/-
The cache of the synchronization, `LastBlockStorage`: a state of the last block, behind its checksum, in a file named after
the network. The fields came one after another, so what the first words say decides which of them follow.
-/
import TonWallet.Td.TlParser
import TonWallet.Tonlib.KeyStorage
import TonWallet.Tonlib.LastBlock

namespace TonWallet.Tonlib

open Lib TonWallet.Td TonWallet.Td.TlParser TonWallet.Ton

/-! ## The checksum -/

/-- `crc64_table`. -/
def crc64Table : List UInt64 := [
  0x0000000000000000, 0xb32e4cbe03a75f6f, 0xf4843657a840a05b, 0x47aa7ae9abe7ff34, 0x7bd0c384ff8f5e33, 0xc8fe8f3afc28015c,
  0x8f54f5d357cffe68, 0x3c7ab96d5468a107, 0xf7a18709ff1ebc66, 0x448fcbb7fcb9e309, 0x0325b15e575e1c3d, 0xb00bfde054f94352,
  0x8c71448d0091e255, 0x3f5f08330336bd3a, 0x78f572daa8d1420e, 0xcbdb3e64ab761d61, 0x7d9ba13851336649, 0xceb5ed8652943926,
  0x891f976ff973c612, 0x3a31dbd1fad4997d, 0x064b62bcaebc387a, 0xb5652e02ad1b6715, 0xf2cf54eb06fc9821, 0x41e11855055bc74e,
  0x8a3a2631ae2dda2f, 0x39146a8fad8a8540, 0x7ebe1066066d7a74, 0xcd905cd805ca251b, 0xf1eae5b551a2841c, 0x42c4a90b5205db73,
  0x056ed3e2f9e22447, 0xb6409f5cfa457b28, 0xfb374270a266cc92, 0x48190ecea1c193fd, 0x0fb374270a266cc9, 0xbc9d3899098133a6,
  0x80e781f45de992a1, 0x33c9cd4a5e4ecdce, 0x7463b7a3f5a932fa, 0xc74dfb1df60e6d95, 0x0c96c5795d7870f4, 0xbfb889c75edf2f9b,
  0xf812f32ef538d0af, 0x4b3cbf90f69f8fc0, 0x774606fda2f72ec7, 0xc4684a43a15071a8, 0x83c230aa0ab78e9c, 0x30ec7c140910d1f3,
  0x86ace348f355aadb, 0x3582aff6f0f2f5b4, 0x7228d51f5b150a80, 0xc10699a158b255ef, 0xfd7c20cc0cdaf4e8, 0x4e526c720f7dab87,
  0x09f8169ba49a54b3, 0xbad65a25a73d0bdc, 0x710d64410c4b16bd, 0xc22328ff0fec49d2, 0x85895216a40bb6e6, 0x36a71ea8a7ace989,
  0x0adda7c5f3c4488e, 0xb9f3eb7bf06317e1, 0xfe5991925b84e8d5, 0x4d77dd2c5823b7ba, 0x64b62bcaebc387a1, 0xd7986774e864d8ce,
  0x90321d9d438327fa, 0x231c512340247895, 0x1f66e84e144cd992, 0xac48a4f017eb86fd, 0xebe2de19bc0c79c9, 0x58cc92a7bfab26a6,
  0x9317acc314dd3bc7, 0x2039e07d177a64a8, 0x67939a94bc9d9b9c, 0xd4bdd62abf3ac4f3, 0xe8c76f47eb5265f4, 0x5be923f9e8f53a9b,
  0x1c4359104312c5af, 0xaf6d15ae40b59ac0, 0x192d8af2baf0e1e8, 0xaa03c64cb957be87, 0xeda9bca512b041b3, 0x5e87f01b11171edc,
  0x62fd4976457fbfdb, 0xd1d305c846d8e0b4, 0x96797f21ed3f1f80, 0x2557339fee9840ef, 0xee8c0dfb45ee5d8e, 0x5da24145464902e1,
  0x1a083bacedaefdd5, 0xa9267712ee09a2ba, 0x955cce7fba6103bd, 0x267282c1b9c65cd2, 0x61d8f8281221a3e6, 0xd2f6b4961186fc89,
  0x9f8169ba49a54b33, 0x2caf25044a02145c, 0x6b055fede1e5eb68, 0xd82b1353e242b407, 0xe451aa3eb62a1500, 0x577fe680b58d4a6f,
  0x10d59c691e6ab55b, 0xa3fbd0d71dcdea34, 0x6820eeb3b6bbf755, 0xdb0ea20db51ca83a, 0x9ca4d8e41efb570e, 0x2f8a945a1d5c0861,
  0x13f02d374934a966, 0xa0de61894a93f609, 0xe7741b60e174093d, 0x545a57dee2d35652, 0xe21ac88218962d7a, 0x5134843c1b317215,
  0x169efed5b0d68d21, 0xa5b0b26bb371d24e, 0x99ca0b06e7197349, 0x2ae447b8e4be2c26, 0x6d4e3d514f59d312, 0xde6071ef4cfe8c7d,
  0x15bb4f8be788911c, 0xa6950335e42fce73, 0xe13f79dc4fc83147, 0x521135624c6f6e28, 0x6e6b8c0f1807cf2f, 0xdd45c0b11ba09040,
  0x9aefba58b0476f74, 0x29c1f6e6b3e0301b, 0xc96c5795d7870f42, 0x7a421b2bd420502d, 0x3de861c27fc7af19, 0x8ec62d7c7c60f076,
  0xb2bc941128085171, 0x0192d8af2baf0e1e, 0x4638a2468048f12a, 0xf516eef883efae45, 0x3ecdd09c2899b324, 0x8de39c222b3eec4b,
  0xca49e6cb80d9137f, 0x7967aa75837e4c10, 0x451d1318d716ed17, 0xf6335fa6d4b1b278, 0xb199254f7f564d4c, 0x02b769f17cf11223,
  0xb4f7f6ad86b4690b, 0x07d9ba1385133664, 0x4073c0fa2ef4c950, 0xf35d8c442d53963f, 0xcf273529793b3738, 0x7c0979977a9c6857,
  0x3ba3037ed17b9763, 0x888d4fc0d2dcc80c, 0x435671a479aad56d, 0xf0783d1a7a0d8a02, 0xb7d247f3d1ea7536, 0x04fc0b4dd24d2a59,
  0x3886b22086258b5e, 0x8ba8fe9e8582d431, 0xcc0284772e652b05, 0x7f2cc8c92dc2746a, 0x325b15e575e1c3d0, 0x8175595b76469cbf,
  0xc6df23b2dda1638b, 0x75f16f0cde063ce4, 0x498bd6618a6e9de3, 0xfaa59adf89c9c28c, 0xbd0fe036222e3db8, 0x0e21ac88218962d7,
  0xc5fa92ec8aff7fb6, 0x76d4de52895820d9, 0x317ea4bb22bfdfed, 0x8250e80521188082, 0xbe2a516875702185, 0x0d041dd676d77eea,
  0x4aae673fdd3081de, 0xf9802b81de97deb1, 0x4fc0b4dd24d2a599, 0xfceef8632775faf6, 0xbb44828a8c9205c2, 0x086ace348f355aad,
  0x34107759db5dfbaa, 0x873e3be7d8faa4c5, 0xc094410e731d5bf1, 0x73ba0db070ba049e, 0xb86133d4dbcc19ff, 0x0b4f7f6ad86b4690,
  0x4ce50583738cb9a4, 0xffcb493d702be6cb, 0xc3b1f050244347cc, 0x709fbcee27e418a3, 0x3735c6078c03e797, 0x841b8ab98fa4b8f8,
  0xadda7c5f3c4488e3, 0x1ef430e13fe3d78c, 0x595e4a08940428b8, 0xea7006b697a377d7, 0xd60abfdbc3cbd6d0, 0x6524f365c06c89bf,
  0x228e898c6b8b768b, 0x91a0c532682c29e4, 0x5a7bfb56c35a3485, 0xe955b7e8c0fd6bea, 0xaeffcd016b1a94de, 0x1dd181bf68bdcbb1,
  0x21ab38d23cd56ab6, 0x9285746c3f7235d9, 0xd52f0e859495caed, 0x6601423b97329582, 0xd041dd676d77eeaa, 0x636f91d96ed0b1c5,
  0x24c5eb30c5374ef1, 0x97eba78ec690119e, 0xab911ee392f8b099, 0x18bf525d915feff6, 0x5f1528b43ab810c2, 0xec3b640a391f4fad,
  0x27e05a6e926952cc, 0x94ce16d091ce0da3, 0xd3646c393a29f297, 0x604a2087398eadf8, 0x5c3099ea6de60cff, 0xef1ed5546e415390,
  0xa8b4afbdc5a6aca4, 0x1b9ae303c601f3cb, 0x56ed3e2f9e224471, 0xe5c372919d851b1e, 0xa26908783662e42a, 0x114744c635c5bb45,
  0x2d3dfdab61ad1a42, 0x9e13b115620a452d, 0xd9b9cbfcc9edba19, 0x6a978742ca4ae576, 0xa14cb926613cf817, 0x1262f598629ba778,
  0x55c88f71c97c584c, 0xe6e6c3cfcadb0723, 0xda9c7aa29eb3a624, 0x69b2361c9d14f94b, 0x2e184cf536f3067f, 0x9d36004b35545910,
  0x2b769f17cf112238, 0x9858d3a9ccb67d57, 0xdff2a94067518263, 0x6cdce5fe64f6dd0c, 0x50a65c93309e7c0b, 0xe388102d33392364,
  0xa4226ac498dedc50, 0x170c267a9b79833f, 0xdcd7181e300f9e5e, 0x6ff954a033a8c131, 0x28532e49984f3e05, 0x9b7d62f79be8616a,
  0xa707db9acf80c06d, 0x14299724cc279f02, 0x5383edcd67c06036, 0xe0ada17364673f59]

/-- `crc64_partial`. -/
def crc64Partial (data : Bytes) (crc : UInt64) : UInt64 :=
  data.foldl (fun crc p => crc64Table.getD ((crc ^^^ p.toUInt64) &&& 0xff).toNat 0 ^^^ (crc >>> 8)) crc

/-- `td::crc64`. -/
def crc64 (data : Bytes) : UInt64 := crc64Partial data 0xffffffffffffffff ^^^ 0xffffffffffffffff

/-! ## Values -/

/-- `store` of a hash: its bytes, the highest first. -/
def storeBits256 (h : Bits256) : Bytes := (wordBytes 32 h.toNat).reverse

def parseBits256 : TlParse Bits256 := (fun bs => .ofNat 256 (ofWordBytes bs.reverse)) <$> fetchBinary 32

def storeZeroStateIdExt (z : ZeroStateIdExt) : Bytes :=
  storeInt z.workchain ++ (storeBits256 z.rootHash ++ storeBits256 z.fileHash)

def parseZeroStateIdExt : TlParse ZeroStateIdExt := do
  let workchain ← fetchInt
  let rootHash ← parseBits256
  let fileHash ← parseBits256
  pure ⟨workchain, rootHash, fileHash⟩

def storeBlockId (b : BlockId) : Bytes :=
  storeInt b.workchain ++ (storeLong b.shard.toBitVec ++ storeInt b.seqno.toInt32)

def parseBlockId : TlParse BlockId := do
  let workchain ← fetchInt
  let shard ← fetchLong
  let seqno ← fetchInt
  pure ⟨workchain, .ofBitVec shard, seqno.toUInt32⟩

def storeBlockIdExt (b : BlockIdExt) : Bytes :=
  storeBlockId b.id ++ (storeBits256 b.rootHash ++ storeBits256 b.fileHash)

def parseBlockIdExt : TlParse BlockIdExt := do
  let id ← parseBlockId
  let rootHash ← parseBits256
  let fileHash ← parseBits256
  pure ⟨id, rootHash, fileHash⟩

namespace LastBlockState

/-! ## The format -/

def magic : Int32 := .ofBitVec 0xa7f171a4

/-- `Version`. -/
inductive Version
  | none
  | magic
  | initBlock
  | vertSeqno
  deriving DecidableEq, Repr

def Version.toInt32 : Version → Int32
  | .none => 0
  | .magic => 1
  | .initBlock => 2
  | .vertSeqno => 3

def version : Int32 := Version.vertSeqno.toInt32

/-- The numbers fit the words `int64` and `int32` of their fields. -/
structure Fits (s : LastBlockState) : Prop where
  utime : -2 ^ 63 ≤ s.utime ∧ s.utime < 2 ^ 63
  vertSeqno : -2 ^ 31 ≤ s.vertSeqno ∧ s.vertSeqno < 2 ^ 31

/-- `LastBlockState::store`. -/
def store (s : LastBlockState) : Bytes :=
  storeInt magic ++ (storeInt version ++ (storeZeroStateIdExt s.zeroStateId ++ (storeBlockIdExt s.lastKeyBlockId ++
    (storeBlockIdExt s.lastBlockId ++ (storeLong (.ofInt 64 s.utime) ++ (storeBlockIdExt s.initBlockId ++
      storeInt (.ofBitVec (.ofInt 32 s.vertSeqno))))))))

/-- What `parse` does about the version: without the magic number there is none. -/
def parseVersion : TlParse Int32 := fun p =>
  if p.canPrefetchInt then
    p.prefetchIntUnsafe.bind fun i => if i = magic then (do let _ ← fetchInt; fetchInt) p else some (0, p)
  else some (0, p)

/-- A field that is read from version `since` on, and keeps its default before. -/
def parseSince {α : Type} (since : Version) (version : Int32) (m : TlParse α) (default : α) : TlParse α :=
  if since.toInt32 ≤ version then m else pure default

/-- What `parse` reads for a version. -/
def parseFields (version : Int32) : TlParse LastBlockState := do
  let zeroStateId ← parseZeroStateIdExt
  let lastKeyBlockId ← parseBlockIdExt
  let lastBlockId ← parseBlockIdExt
  let utime ← fetchLong
  let initBlockId ← parseSince .initBlock version parseBlockIdExt BlockIdExt.none
  let vertSeqno ← parseSince .vertSeqno version fetchInt 0
  pure ⟨zeroStateId, lastKeyBlockId, lastBlockId, utime.toInt, initBlockId, vertSeqno.toInt⟩

/-- `LastBlockState::parse`. -/
def parse : TlParse LastBlockState := do
  let version ← parseVersion
  parseFields version

end LastBlockState

/-! ## The storage -/

namespace LastBlockStorage

/-- What `save_state` puts before the serialized state. -/
def withChecksum (x : Bytes) : Bytes := wordBytes 8 (crc64 x).toNat ++ x

/-- `get_state`. -/
def getState (kv : KeyValue) (name : Bytes) (fault : Option Status) : Option (Except Status LastBlockState) :=
  match kv.get (KeyStorage.getFileName name) fault with
  | .error status => some (.error status)
  | .ok data =>
    if data.length < 8 then some (.error (.error "too short"))
    else if ofWordBytes (data.take 8) ≠ (crc64 (data.drop 8)).toNat then some (.error (.error "crc64 mismatch"))
    else unserialize LastBlockState.parse (data.drop 8)

/-- `save_state`, which does not look at the result of `set`. -/
def saveState (kv : KeyValue) (name : Bytes) (state : LastBlockState) (fault : Option SetFault) : KeyValue :=
  (kv.set (KeyStorage.getFileName name) (withChecksum state.store) fault).2

end LastBlockStorage

/-! ## Reading what was written -/

@[simp] theorem length_storeBits256 (h : Bits256) : (storeBits256 h).length = 32 := by
  rw [storeBits256, List.length_reverse, length_wordBytes]

theorem reads_parseBits256 (h : Bits256) : Reads parseBits256 (storeBits256 h) h := by
  have hh : BitVec.ofNat 256 (ofWordBytes (storeBits256 h).reverse) = h := by
    rw [storeBits256, List.reverse_reverse, ofWordBytes_wordBytes, show 256 ^ 32 = 2 ^ 256 by norm_num,
      Nat.mod_eq_of_lt h.isLt, BitVec.ofNat_toNat, BitVec.setWidth_eq]
  have hreads := Reads.map (reads_fetchBinary (storeBits256 h)) fun bs => BitVec.ofNat 256 (ofWordBytes bs.reverse)
  rwa [hh, length_storeBits256] at hreads

theorem sized_parseBits256 : Sized parseBits256 32 := (sized_fetchBinary (by decide) (by decide)).map _

theorem reads_parseZeroStateIdExt (z : ZeroStateIdExt) : Reads parseZeroStateIdExt (storeZeroStateIdExt z) z :=
  (reads_fetchInt _).bind ((reads_parseBits256 _).bind ((reads_parseBits256 _).map _))

theorem sized_parseZeroStateIdExt : Sized parseZeroStateIdExt 68 :=
  sized_fetchInt.bind fun _ => sized_parseBits256.bind fun _ => sized_parseBits256.map _

theorem reads_parseBlockId (b : BlockId) : Reads parseBlockId (storeBlockId b) b :=
  (reads_fetchInt _).bind ((reads_fetchLong _).bind ((reads_fetchInt _).map fun seqno =>
    (⟨b.workchain, .ofBitVec b.shard.toBitVec, seqno.toUInt32⟩ : BlockId)))

theorem sized_parseBlockId : Sized parseBlockId 16 :=
  sized_fetchInt.bind fun workchain => sized_fetchLong.bind fun shard => sized_fetchInt.map fun seqno =>
    (⟨workchain, .ofBitVec shard, seqno.toUInt32⟩ : BlockId)

theorem reads_parseBlockIdExt (b : BlockIdExt) : Reads parseBlockIdExt (storeBlockIdExt b) b :=
  (reads_parseBlockId _).bind ((reads_parseBits256 _).bind ((reads_parseBits256 _).map _))

theorem sized_parseBlockIdExt : Sized parseBlockIdExt 80 :=
  sized_parseBlockId.bind fun _ => sized_parseBits256.bind fun _ => sized_parseBits256.map _

@[simp] theorem length_storeZeroStateIdExt (z : ZeroStateIdExt) : (storeZeroStateIdExt z).length = 68 := by
  simp [storeZeroStateIdExt]

@[simp] theorem length_storeBlockIdExt (b : BlockIdExt) : (storeBlockIdExt b).length = 80 := by
  simp [storeBlockIdExt, storeBlockId]

namespace LastBlockState

/-! ## Versions -/

/-- A field that writers have known since a version. -/
def storeSince (since v : Version) (bs : Bytes) : Bytes := if since.toInt32 ≤ v.toInt32 then bs else []

/-- The value of such a field for a writer of version `v`. -/
def keptSince {α : Type} (since v : Version) (a default : α) : α := if since.toInt32 ≤ v.toInt32 then a else default

/-- The fields that a writer of version `v` knew. -/
def storeFields (v : Version) (s : LastBlockState) : Bytes :=
  storeZeroStateIdExt s.zeroStateId ++ (storeBlockIdExt s.lastKeyBlockId ++ (storeBlockIdExt s.lastBlockId ++
    (storeLong (.ofInt 64 s.utime) ++
      (storeSince .initBlock v (storeBlockIdExt s.initBlockId) ++
        storeSince .vertSeqno v (storeInt (.ofBitVec (.ofInt 32 s.vertSeqno)))))))

/-- What a writer of version `v` wrote: the first ones knew no magic number. -/
def storeVersion (v : Version) (s : LastBlockState) : Bytes :=
  match v with
  | .none => s.storeFields .none
  | v => storeInt magic ++ (storeInt v.toInt32 ++ s.storeFields v)

/-- The state without what version `v` did not know. -/
def upTo (v : Version) (s : LastBlockState) : LastBlockState where
  zeroStateId := s.zeroStateId
  lastKeyBlockId := s.lastKeyBlockId
  lastBlockId := s.lastBlockId
  utime := s.utime
  initBlockId := keptSince .initBlock v s.initBlockId BlockIdExt.none
  vertSeqno := keptSince .vertSeqno v s.vertSeqno 0

theorem storeVersion_version (s : LastBlockState) : s.storeVersion .vertSeqno = s.store := by
  simp [storeVersion, storeFields, storeSince, store, version, Version.toInt32]

theorem upTo_version (s : LastBlockState) : s.upTo .vertSeqno = s := by
  simp [upTo, keptSince, Version.toInt32]

theorem toInt_ofInt_utime {s : LastBlockState} (hs : s.Fits) : (BitVec.ofInt 64 s.utime).toInt = s.utime := by
  obtain ⟨hlo, hhi⟩ := hs.utime
  rw [BitVec.toInt_ofInt, Int.bmod_eq_of_le] <;> omega

theorem toInt_ofInt_vertSeqno {s : LastBlockState} (hs : s.Fits) :
    (Int32.ofBitVec (.ofInt 32 s.vertSeqno)).toInt = s.vertSeqno := by
  obtain ⟨hlo, hhi⟩ := hs.vertSeqno
  show (BitVec.ofInt 32 s.vertSeqno).toInt = _
  rw [BitVec.toInt_ofInt, Int.bmod_eq_of_le] <;> omega

theorem reads_parseSince {α : Type} {m : TlParse α} {bs : Bytes} {a : α} (h : Reads m bs a) (since v : Version)
    (default : α) :
    Reads (parseSince since v.toInt32 m default) (storeSince since v bs) (keptSince since v a default) := by
  unfold parseSince storeSince keptSince
  split
  · exact h
  · exact Reads.pure default

theorem sized_parseSince {α : Type} {m : TlParse α} {n : Nat} (h : Sized m n) (since : Version) (version : Int32)
    (default : α) : ∃ k, Sized (parseSince since version m default) k := by
  unfold parseSince
  split
  · exact ⟨n, h⟩
  · exact ⟨0, Sized.pure default⟩

/-- The fields of a version are read as they were written. -/
theorem reads_parseFields {s : LastBlockState} (hs : s.Fits) (v : Version) :
    Reads (parseFields v.toInt32) (s.storeFields v) (s.upTo v) := by
  have hvert : (keptSince .vertSeqno v (Int32.ofBitVec (.ofInt 32 s.vertSeqno)) 0).toInt =
      keptSince .vertSeqno v s.vertSeqno 0 := by
    unfold keptSince
    split
    · exact toInt_ofInt_vertSeqno hs
    · rfl
  have hlast := (reads_parseSince (reads_fetchInt (.ofBitVec (.ofInt 32 s.vertSeqno))) .vertSeqno v 0).map
    fun vertSeqno => (⟨s.zeroStateId, s.lastKeyBlockId, s.lastBlockId, (BitVec.ofInt 64 s.utime).toInt,
      keptSince .initBlock v s.initBlockId BlockIdExt.none, vertSeqno.toInt⟩ : LastBlockState)
  rw [toInt_ofInt_utime hs, hvert] at hlast
  refine (reads_parseZeroStateIdExt _).bind ((reads_parseBlockIdExt _).bind ((reads_parseBlockIdExt _).bind
    ((reads_fetchLong _).bind ((reads_parseSince (reads_parseBlockIdExt _) _ _ _).bind ?_))))
  rw [toInt_ofInt_utime hs]
  exact hlast

/-- Whatever the version, the reader leaves no memory; how much it reads depends on the version alone. -/
theorem sized_parseFields (version : Int32) : ∃ n, 236 ≤ n ∧ Sized (parseFields version) n := by
  obtain ⟨k, hinit⟩ := sized_parseSince sized_parseBlockIdExt .initBlock version BlockIdExt.none
  obtain ⟨l, hvert⟩ := sized_parseSince sized_fetchInt .vertSeqno version 0
  refine ⟨68 + (80 + (80 + (8 + (k + l)))), by omega, ?_⟩
  exact sized_parseZeroStateIdExt.bind fun zeroStateId => sized_parseBlockIdExt.bind fun lastKeyBlockId =>
    sized_parseBlockIdExt.bind fun lastBlockId => sized_fetchLong.bind fun utime => hinit.bind fun initBlockId =>
      hvert.map fun vertSeqno => (⟨zeroStateId, lastKeyBlockId, lastBlockId, utime.toInt, initBlockId, vertSeqno.toInt⟩ :
        LastBlockState)

/-! ## The magic number -/

theorem parseVersion_of_magic {p : TlParser} (hp : p.Inv) (herr : p.error = none) (h : storeInt magic <+: p.data) :
    parseVersion p = (do let _ ← fetchInt; fetchInt : TlParse Int32) p := by
  have hlen : 4 ≤ p.data.length := by simpa using h.length_le
  have hcopy : p.prefetchIntUnsafe = some magic := by
    have htake := List.prefix_iff_eq_take.1 h
    rw [length_storeInt] at htake
    rw [prefetchIntUnsafe, copy, if_pos hlen, Option.map_some, ← htake, ofWordBytes_storeInt]
  rw [parseVersion, if_pos (by rw [canPrefetchInt, decide_eq_true_eq, ← hp.live herr]; exact hlen), hcopy, Option.bind_some,
    if_pos rfl]

theorem parseVersion_of_ne {p : TlParser} {i : Int32} (hi : i ≠ magic)
    (h : storeInt i <+: p.data) : parseVersion p = some (0, p) := by
  have hlen : 4 ≤ p.data.length := by simpa using h.length_le
  have hcopy : p.prefetchIntUnsafe = some i := by
    have htake := List.prefix_iff_eq_take.1 h
    rw [length_storeInt] at htake
    rw [prefetchIntUnsafe, copy, if_pos hlen, Option.map_some, ← htake, ofWordBytes_storeInt]
  rw [parseVersion, hcopy, Option.bind_some, if_neg hi, ite_self]

/-- The reader of the version does not leave the memory either. -/
theorem parseVersion_total {p : TlParser} (hp : p.Inv) (herr : p.error = none) :
    ∃ v p', parseVersion p = some (v, p') ∧ p'.Inv := by
  unfold parseVersion
  split
  · rename_i hpre
    rw [canPrefetchInt, decide_eq_true_eq, ← hp.live herr] at hpre
    rw [prefetchIntUnsafe, copy, if_pos hpre, Option.map_some, Option.bind_some]
    split
    · exact (sized_fetchInt.bind fun _ => sized_fetchInt).total hp
    · exact ⟨0, p, rfl, hp⟩
  · exact ⟨0, p, rfl, hp⟩

theorem parse_total {p : TlParser} (hp : p.Inv) (herr : p.error = none) : ∃ s p', parse p = some (s, p') ∧ p'.Inv := by
  obtain ⟨v, p', hv, hp'⟩ := parseVersion_total hp herr
  obtain ⟨n, -, hsized⟩ := sized_parseFields v
  obtain ⟨s, q, hs, hq⟩ := hsized.total hp'
  exact ⟨s, q, by rw [parse, bind_apply, hv]; exact hs, hq⟩

/-- A state of any version is read, unless the first versions' first number is the magic one. -/
theorem reads_parse {s : LastBlockState} (hs : s.Fits) (v : Version) (hv : v = .none → s.zeroStateId.workchain ≠ magic) :
    Reads parse (s.storeVersion v) (s.upTo v) := by
  intro p hp herr hbytes
  by_cases hnone : v = .none
  · subst hnone
    have hfirst : storeInt s.zeroStateId.workchain <+: p.data := by
      refine List.IsPrefix.trans ?_ hbytes
      rw [storeVersion, storeFields, storeZeroStateIdExt, List.append_assoc]
      exact List.prefix_append _ _
    rw [parse, bind_apply, parseVersion_of_ne (hv rfl) hfirst, Option.bind_some]
    exact reads_parseFields hs .none p hp herr hbytes
  · have hstore : s.storeVersion v = storeInt magic ++ storeInt v.toInt32 ++ s.storeFields v := by
      cases v with
      | none => exact absurd rfl hnone
      | magic | initBlock | vertSeqno => rw [storeVersion, List.append_assoc]; nofun
    have hversion : Reads parseVersion (storeInt magic ++ storeInt v.toInt32) v.toInt32 := by
      intro q hq hqerr hqbytes
      rw [parseVersion_of_magic hq hqerr ((List.prefix_append _ _).trans hqbytes)]
      exact ((reads_fetchInt magic).bind (k := fun _ => fetchInt) (reads_fetchInt v.toInt32)) q hq hqerr hqbytes
    rw [hstore] at hbytes ⊢
    exact (hversion.bind (reads_parseFields hs v)) p hp herr hbytes

theorem length_storeFields_none (s : LastBlockState) : (s.storeFields .none).length = 236 := by
  simp [storeFields, storeSince, Version.toInt32]

/-- A state of the first versions whose first number is the magic one is taken for a shorter one of a later version. -/
theorem unserialize_magic {s : LastBlockState} (h : s.zeroStateId.workchain = magic) :
    ∃ status, unserialize parse (s.storeVersion .none) = some (.error status) := by
  have hlen : (s.storeVersion .none).length = 236 := s.length_storeFields_none
  have hfirst : storeInt magic <+: (ofSlice (s.storeVersion .none)).data := by
    rw [← h]
    show _ <+: s.storeFields .none
    rw [storeFields, storeZeroStateIdExt, List.append_assoc]
    exact List.prefix_append _ _
  have hinv := inv_ofSlice (s.storeVersion .none)
  have hversion := parseVersion_of_magic hinv rfl hfirst
  obtain ⟨v, hv⟩ := (sized_fetchInt.bind fun _ => sized_fetchInt).read hinv rfl
    (show 4 + 4 ≤ (s.storeVersion .none).length by omega)
  obtain ⟨n, hn, hsized⟩ := sized_parseFields v
  obtain ⟨s', p', hs', -, herr⟩ := hsized.short (hinv.skip rfl (4 + 4)) (.inr (by
    show (s.storeVersion .none).length - (4 + 4) < n
    omega))
  obtain ⟨status, hstatus⟩ := getStatus_fetchEnd herr
  refine ⟨status, ?_⟩
  rw [unserialize, parse, bind_apply, hversion, hv, Option.bind_some, hs', Option.map_some, hstatus]
  rfl

end LastBlockState

/-! ## Names -/

theorem hexDigit_injective {m n : Nat} (hm : m < 16) (hn : n < 16) (h : bufferToHex.hexDigit m = bufferToHex.hexDigit n) :
    m = n := by
  have hall : ∀ m n : Fin 16, bufferToHex.hexDigit m = bufferToHex.hexDigit n → m = n := by decide
  exact Fin.mk_eq_mk.1 (hall ⟨m, hm⟩ ⟨n, hn⟩ h)

theorem bufferToHex_injective {a b : Bytes} (h : bufferToHex a = bufferToHex b) : a = b := by
  have hlist := congrArg String.toList h
  rw [bufferToHex, bufferToHex, String.toList_ofList, String.toList_ofList] at hlist
  clear h
  induction a generalizing b with
  | nil =>
    cases b with
    | nil => rfl
    | cons d ds => cases hlist
  | cons c cs ih =>
    cases b with
    | nil => cases hlist
    | cons d ds =>
      rw [List.flatMap_cons, List.flatMap_cons] at hlist
      simp only [List.cons_append, List.nil_append, List.cons.injEq] at hlist
      obtain ⟨hlow, hhigh, htail⟩ := hlist
      have hc : c.toNat < 256 := c.toNat_lt
      have hd : d.toNat < 256 := d.toNat_lt
      have hlow := hexDigit_injective (by omega) (by omega) hlow
      have hhigh := hexDigit_injective (by omega) (by omega) hhigh
      have hcd : c = d := UInt8.toNat_inj.1 (by omega)
      rw [hcd, ih htail]

namespace LastBlockStorage

open LastBlockState

/-! ## Files -/

/-- The files of different networks are different. -/
theorem getFileName_injective {a b : Bytes} (h : KeyStorage.getFileName a = KeyStorage.getFileName b) : a = b := by
  apply bufferToHex_injective
  have hlist := congrArg String.toList h
  rw [KeyStorage.getFileName, KeyStorage.getFileName, String.toList_append, String.toList_append] at hlist
  exact String.toList_inj.1 (List.append_cancel_right hlist)

/-- A name that starts with a digit, or with the dot of the extension, leads to the file of that name. -/
theorem toFile_getFileName (name : Bytes) : toFile (KeyStorage.getFileName name) = KeyStorage.getFileName name := by
  have hslash : ∀ c ∈ (KeyStorage.getFileName name).toList, c ≠ '/' := by
    intro c hc
    rw [KeyStorage.getFileName, String.toList_append, List.mem_append] at hc
    rcases hc with hc | hc
    · rintro rfl
      cases (toList_bufferToHex name _ hc).2
    · have hall : ".blkstate".toList.all (· != '/') = true := by decide
      simpa using List.all_eq_true.1 hall c hc
  rw [toFile, List.dropWhile_eq_self_iff.2, String.ofList_toList]
  intro hpos heq
  exact hslash _ (List.getElem_mem hpos) (beq_iff_eq.1 heq)

/-- The files that are written on the way are not those of states. -/
theorem getFileName_ne_pathTmp (a b : Bytes) : KeyStorage.getFileName a ≠ pathTmp (KeyStorage.getFileName b) := by
  intro h
  have hlist := congrArg (fun s : String => s.toList.getLast?) h
  rw [KeyStorage.getFileName, pathTmp] at hlist
  simp only [String.toList_append] at hlist
  rw [List.getLast?_append_of_ne_nil _ (by decide), List.getLast?_append_of_ne_nil _ (by decide)] at hlist
  exact absurd hlist (by decide)

/-! ## States in the store -/

@[simp] theorem length_withChecksum (x : Bytes) : (withChecksum x).length = 8 + x.length := by
  rw [withChecksum, List.length_append, length_wordBytes]

@[simp] theorem drop_withChecksum (x : Bytes) : (withChecksum x).drop 8 = x := by
  rw [withChecksum, List.drop_left' (length_wordBytes 8 _)]

theorem ofWordBytes_take_withChecksum (x : Bytes) : ofWordBytes ((withChecksum x).take 8) = (crc64 x).toNat := by
  rw [withChecksum, List.take_left' (length_wordBytes 8 _), ofWordBytes_wordBytes, show 256 ^ 8 = 2 ^ 64 from rfl,
    Nat.mod_eq_of_lt (crc64 x).toNat_lt]

/-- A file with the right checksum is read as far as the state in it can be. -/
theorem getState_of_data {kv : KeyValue} {name x : Bytes}
    (h : kv.data (KeyStorage.getFileName name) = some (withChecksum x)) :
    getState kv name none = unserialize LastBlockState.parse x := by
  have hget : kv.get (KeyStorage.getFileName name) none = .ok (withChecksum x) :=
    KeyValue.get_eq_ok.2 ⟨rfl, by rw [toFile_getFileName]; exact h⟩
  rw [getState, hget]
  simp only [length_withChecksum, drop_withChecksum, ofWordBytes_take_withChecksum, ne_eq, not_true_eq_false, if_false]
  rw [if_neg (by omega)]

/-- What is left of the file of a name after a call for another. -/
theorem data_saveState (kv : KeyValue) (name name' : Bytes) (s : LastBlockState) (fault : Option SetFault) :
    (saveState kv name s fault).data (KeyStorage.getFileName name') =
      if name' = name ∧ fault = none then some (withChecksum s.store) else kv.data (KeyStorage.getFileName name') := by
  have hne : KeyStorage.getFileName name' ≠ pathTmp (toFile (KeyStorage.getFileName name)) := by
    rw [toFile_getFileName]
    exact getFileName_ne_pathTmp name' name
  rw [saveState, KeyValue.set_data _ _ _ _ _ hne, toFile_getFileName]
  by_cases hname : name' = name
  · simp [hname]
  · simp [hname, show KeyStorage.getFileName name' ≠ KeyStorage.getFileName name from fun h => hname (getFileName_injective h)]

theorem getState_saveState (kv : KeyValue) (name : Bytes) {s : LastBlockState} (hs : s.Fits) :
    getState (saveState kv name s none) name none = some (.ok s) := by
  have hdata := data_saveState kv name name s none
  rw [if_pos ⟨rfl, rfl⟩] at hdata
  rw [getState_of_data hdata, ← s.storeVersion_version, unserialize_of_reads (reads_parse hs .vertSeqno nofun), upTo_version]

/-- Another network's state, and the state before a call that failed, are still there. -/
theorem getState_saveState_of_ne (kv : KeyValue) {name name' : Bytes} (s : LastBlockState) {fault : Option SetFault}
    (h : name' = name → fault ≠ none) (fault' : Option Status) :
    getState (saveState kv name s fault) name' fault' = getState kv name' fault' := by
  have hdata := data_saveState kv name name' s fault
  rw [if_neg fun hboth => h hboth.1 hboth.2] at hdata
  have hunknown : (saveState kv name s fault).unknownKey = kv.unknownKey := by
    rcases fault with _ | ⟨status, written⟩ | status <;> rfl
  have hget : (saveState kv name s fault).get (KeyStorage.getFileName name') fault' =
      kv.get (KeyStorage.getFileName name') fault' := by
    cases fault' with
    | none => simp only [KeyValue.get, toFile_getFileName, hdata, hunknown]
    | some status => rfl
  rw [getState, getState, hget]

/-- Whatever is in the store, the reader leaves no memory. -/
theorem getState_total (kv : KeyValue) (name : Bytes) (fault : Option Status) : ∃ r, getState kv name fault = some r := by
  unfold getState
  split
  · exact ⟨_, rfl⟩
  · rename_i data _
    split
    · exact ⟨_, rfl⟩
    · split
      · exact ⟨_, rfl⟩
      · obtain ⟨s, p, hs, -⟩ := parse_total (inv_ofSlice (data.drop 8)) rfl
        exact ⟨_, by rw [unserialize, hs, Option.map_some]⟩

/-- A state of an earlier version is read with the later fields at their defaults, unless its first number is the magic one:
then there is an error. -/
theorem getState_of_version {kv : KeyValue} {name : Bytes} {s : LastBlockState} (hs : s.Fits) (v : Version)
    (h : kv.data (KeyStorage.getFileName name) = some (withChecksum (s.storeVersion v))) :
    if v = .none ∧ s.zeroStateId.workchain = magic then ∃ status, getState kv name none = some (.error status)
    else getState kv name none = some (.ok (s.upTo v)) := by
  rw [getState_of_data h]
  split
  · rename_i hmagic
    obtain ⟨rfl, hmagic⟩ := hmagic
    exact unserialize_magic hmagic
  · rename_i hmagic
    exact unserialize_of_reads (reads_parse hs v fun hv hw => hmagic ⟨hv, hw⟩)

namespace Sample

/-- A state of a chain whose zero state is in the given workchain. -/
def state (workchain : Int32) : LastBlockState where
  zeroStateId := ⟨workchain, 1, 2⟩
  lastKeyBlockId := ⟨⟨masterchainId, shardIdAll, 5⟩, 3, 4⟩
  lastBlockId := ⟨⟨masterchainId, shardIdAll, 7⟩, 5, 6⟩
  utime := 1600000000
  initBlockId := ⟨⟨masterchainId, shardIdAll, 2⟩, 7, 8⟩
  vertSeqno := 1

theorem fits (workchain : Int32) : (state workchain).Fits := by
  constructor
  · exact (by decide : (-2 ^ 63 : Int) ≤ 1600000000 ∧ (1600000000 : Int) < 2 ^ 63)
  · exact (by decide : (-2 ^ 31 : Int) ≤ 1 ∧ (1 : Int) < 2 ^ 31)

/-- A store with one file, written by version `v`. -/
def store (v : Version) (workchain : Int32) : KeyValue where
  entries := [(KeyStorage.getFileName [1], withChecksum ((state workchain).storeVersion v))]
  unknownKey := .error "Unknown key"

theorem data_store (v : Version) (workchain : Int32) : (store v workchain).data (KeyStorage.getFileName [1]) =
    some (withChecksum ((state workchain).storeVersion v)) := by
  simp [store, KeyValue.data]

end Sample

end LastBlockStorage

end TonWallet.Tonlib
