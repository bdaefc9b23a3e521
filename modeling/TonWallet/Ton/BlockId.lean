/-
Block identifiers (`ton/ton-types.h`): the numbers of a block, its root and file hash, and the
texts and validity tests the synchronization code uses on them.
-/
import TonWallet.Td.Status
import Mathlib.Data.BitVec

namespace TonWallet.Ton

/-- `Bits256`: a hash. -/
abbrev Bits256 := BitVec 256

def masterchainId : Int32 := -1
def workchainInvalid : Int32 := -2147483648
def shardIdAll : UInt64 := 9223372036854775808

/-! ## Texts of numbers -/

/-- `hex_digit`: the digit of a nibble. -/
def hexDigit (upper : Bool) (n : Nat) : Char :=
  if n < 10 then Char.ofNat (48 + n) else Char.ofNat ((if upper then 55 else 87) + n)

/-- The `digits` low hexadecimal digits of `n`. -/
def toHex (upper : Bool) (digits n : Nat) : String :=
  String.ofList ((List.range digits).reverse.map fun i => hexDigit upper (n / 16 ^ i % 16))

/-- `Bits256::to_hex`. -/
def hashHex (h : Bits256) : String := toHex true 64 h.toNat

/-! ## Shards -/

structure ShardIdFull where
  workchain : Int32
  shard : UInt64
  deriving DecidableEq, Repr

namespace ShardIdFull

def isMasterchain (s : ShardIdFull) : Bool := s.workchain == masterchainId
def isMasterchainExt (s : ShardIdFull) : Bool := s.isMasterchain && s.shard == shardIdAll

end ShardIdFull

/-! ## Blocks -/

structure BlockId where
  workchain : Int32
  shard : UInt64
  seqno : UInt32
  deriving DecidableEq, Repr

structure BlockIdExt where
  id : BlockId
  rootHash : Bits256
  fileHash : Bits256
  deriving DecidableEq, Repr

namespace BlockId

def shardFull (b : BlockId) : ShardIdFull := ⟨b.workchain, b.shard⟩
def isValid (b : BlockId) : Bool := b.workchain != workchainInvalid
def isMasterchainExt (b : BlockId) : Bool := b.workchain == masterchainId && b.shard == shardIdAll

def toStr (b : BlockId) : String :=
  "(" ++ toString b.workchain.toInt ++ "," ++ toHex false 16 b.shard.toNat ++ "," ++ toString b.seqno.toNat ++ ")"

end BlockId

namespace BlockIdExt

/-- `BlockIdExt()`: no block yet. -/
def none : BlockIdExt := ⟨⟨workchainInvalid, 0, 0⟩, 0, 0⟩

def seqno (b : BlockIdExt) : UInt32 := b.id.seqno
def isValid (b : BlockIdExt) : Bool := b.id.isValid
def isMasterchainExt (b : BlockIdExt) : Bool := b.id.isMasterchainExt

/-- `invalidate`: only the workchain is overwritten. -/
def invalidate (b : BlockIdExt) : BlockIdExt := { b with id := { b.id with workchain := workchainInvalid } }

def toStr (b : BlockIdExt) : String := b.id.toStr ++ ":" ++ hashHex b.rootHash ++ ":" ++ hashHex b.fileHash

end BlockIdExt

structure ZeroStateIdExt where
  workchain : Int32
  rootHash : Bits256
  fileHash : Bits256
  deriving DecidableEq, Repr

namespace ZeroStateIdExt

def isValid (z : ZeroStateIdExt) : Bool := z.workchain != workchainInvalid
def toStr (z : ZeroStateIdExt) : String :=
  toString z.workchain.toInt ++ ":" ++ hashHex z.rootHash ++ ":" ++ hashHex z.fileHash

end ZeroStateIdExt

end TonWallet.Ton
