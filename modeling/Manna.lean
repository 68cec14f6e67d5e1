import Manna.Lib.BackIndex
import Manna.Lib.Codec
import Manna.Lib.CostLogic
import Manna.Lib.Descent
import Manna.Lib.GreedyMatch
import Manna.Lib.Memo
import Manna.Lib.MerkleTree
import Manna.Lib.PrefixCode
import Manna.Lib.Prog
import Manna.Lib.StopLogic
import Manna.Lib.WeightedMap
import Manna.AcceptBlock
import Manna.AddStakeBlock
import Manna.Ancestry
import Manna.BestChain
import Manna.BigNum
import Manna.Block
import Manna.BlockFile
import Manna.BlockTree
import Manna.Branch
import Manna.CheckBlock
import Manna.CheckInputs
import Manna.Coherent
import Manna.Coins
import Manna.CoinsCodec
import Manna.CoinsStack
import Manna.CoinsView
import Manna.CombineSignatures
import Manna.CompactSize
import Manna.ConnectBlock
import Manna.CreateTransaction
import Manna.DisconnectBlock
import Manna.DiskBlockIndex
import Manna.DuplicateStake
import Manna.EvalSafety
import Manna.EvalScript
import Manna.FindAndDelete
import Manna.IndexInvariant
import Manna.KeyPool
import Manna.KeyStore
import Manna.LoadBlockIndex
import Manna.MemPool
import Manna.MerkleTree
import Manna.MinWork
import Manna.MoneySupply
import Manna.OrphanBlocks
import Manna.OrphanResolution
import Manna.OrphanTx
import Manna.PartialMerkleSoundness
import Manna.PartialMerkleTree
import Manna.PoolIndex
import Manna.PoolInputs
import Manna.PoolRun
import Manna.Reorg
import Manna.Restart
import Manna.Retarget
import Manna.Script
import Manna.ScriptRun
import Manna.SelectCoins
import Manna.SetBestChain
import Manna.SigOpBound
import Manna.SignSignature
import Manna.SignatureCache
import Manna.SignatureHash
import Manna.Solver
import Manna.SpentFlags
import Manna.StakeCoins
import Manna.StakeKernel
import Manna.StakeModifier
import Manna.StakeUndo
import Manna.StandardScript
import Manna.Supply
import Manna.Transaction
import Manna.TxCodec
import Manna.TxOutCodec
import Manna.Undo
import Manna.UndoCodec
import Manna.UndoFiles
import Manna.UpdateCoins
import Manna.UtxoChange
import Manna.ValidSet
import Manna.Validation
import Manna.ValueFlow
import Manna.VarInt
import Manna.Wallet
import Manna.WalletCaches
import Manna.WalletSync
import Manna.Alert
import Manna.CryptoKeyStore
import Manna.WalletPassphrase
import Manna.WalletRelock
import Manna.CheckQueue
import Manna.BlockCodec
import Manna.Lib.ByteFile
import Manna.TxIndex
import Manna.Lib.Positions
import Manna.AddrMan
import Manna.AddrManInvariant
import Manna.AddrManCheck
import Manna.AddrManCodec
import Manna.Lib.Components
import Manna.AddressGroupings
import Manna.CoinSelection
import Manna.MerkleBranch
import Manna.CanonicalSignature
import Manna.ScriptParsing
import Manna.DeleteInstructions
import Manna.ScriptTemplates
import Manna.GetData
import Manna.FindBlockByHeight
import Manna.BlockLocator
import Manna.GetBlocks
import Manna.MedianTime
import Manna.WalletRecord
import Manna.SupportingTransactions
import Manna.Lib.Frames
import Manna.NetMessage
import Manna.WireFraming
import Manna.CommitTransaction
import Manna.TimeData
import Manna.AmountCodes
import Manna.CompactTarget
import Manna.MoneyString
import Manna.HostPort
import Manna.Lib.Radix
import Manna.ScriptNum
import Manna.Base58
import Manna.PayToAddress
import Manna.Lib.BitFilter
import Manna.BloomFilter
import Manna.Lib.Worklist
import Manna.ConfirmedTx
import Manna.Lib.Ring
import Manna.BufferedFile
import Manna.LoadExternal
import Manna.Lib.Bijective
import Manna.VarIntCode
import Manna.BlockFileStatistics
import Manna.RelayWindow
import Manna.Lib.Regroup
import Manna.Base32
import Manna.OverlayAddress
import Manna.StakeReward
import Manna.ListTransactions
import Manna.Lib.Shuffle
import Manna.TriedEviction
import Manna.FixSpentCoins
import Manna.ExtraNonce
import Manna.GetWork
import Manna.WorkInvariant
import Manna.LimitedMap
import Manna.MruSet
import Manna.WildcardMatch
import Manna.LockedPages
import Manna.BaseUintHex
import Manna.Base64
