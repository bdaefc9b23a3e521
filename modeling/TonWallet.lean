import TonWallet.Tonlib.SyncSystem
import TonWallet.App.WalletSwitch
import TonWallet.App.PasscodeRetry
import TonWallet.App.ShortPolling
import TonWallet.App.WalletAddress
import TonWallet.Vm.DictionaryDiff
import TonWallet.Block.CurrencyAmounts
import TonWallet.Tonlib.ExtClientOutbound
import TonWallet.SmcEnvelope.CombineActions
import TonWallet.Tonlib.SendGramsOrder
import TonWallet.Tonlib.CommentSalt
import TonWallet.App.WalletKeys
import TonWallet.Tonlib.GuessType
import TonWallet.App.WalletSettings
import TonWallet.Tonlib.KeyRecovery
import TonWallet.Tonlib.GasLimits
import TonWallet.Block.PackedText
import TonWallet.Block.ShardConfig
import TonWallet.Block.StorageFees
import TonWallet.Block.PrevBlocks
import TonWallet.Block.ComputeValidatorSet
import TonWallet.Block.ParseBlockIdExt
import TonWallet.App.PhraseFields
import TonWallet.App.TonUrl
import TonWallet.Block.ProcessedUpto
import TonWallet.Tonlib.PchanRequests
import TonWallet.Vm.DictionaryBulk
import TonWallet.Vm.CellSliceRefines
import TonWallet.Tonlib.LastBlockStorage
import TonWallet.Tonlib.RwalletConfig
import TonWallet.SmcEnvelope.GiftMessages
import TonWallet.Tonlib.DnsEntries
import TonWallet.Td.BigIntCompare
import TonWallet.Td.BigIntPow2
import TonWallet.Td.BitRoutines
import TonWallet.Block.VarInteger
import TonWallet.Vm.MerkleProofBuilder
import TonWallet.Vm.MerkleUpdate
import TonWallet.Block.AccountProof
