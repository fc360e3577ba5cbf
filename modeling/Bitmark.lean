import Bitmark.Base.BigEndian
import Bitmark.Base.SizeCodes
import Bitmark.Chain.BestChain
import Bitmark.Chain.BigNum
import Bitmark.Chain.ForkWarning
import Bitmark.Chain.Locator
import Bitmark.Chain.Resurrector
import Bitmark.Coins.Layers
import Bitmark.Coins.Records
import Bitmark.Consensus.DisconnectBlock
import Bitmark.Consensus.OrphanRelease
import Bitmark.Consensus.Restart
import Bitmark.Consensus.ScalingPeriods
import Bitmark.Consensus.TargetRange
import Bitmark.Equihash.Packing
import Bitmark.Equihash.Verify
import Bitmark.Lib.Attempts
import Bitmark.Lib.Quorum
import Bitmark.Lib.Tournament
import Bitmark.Mempool.OrphanTxs
import Bitmark.Mempool.Resurrect
import Bitmark.MergedMining.Commitment
import Bitmark.Merkle.Branch
import Bitmark.Merkle.Soundness
import Bitmark.Mining.SsfCadence
import Bitmark.Net.AddrManEvict
import Bitmark.Net.AddrManReload
import Bitmark.Net.Alerts
import Bitmark.Net.BlockDownload
import Bitmark.Net.BlockSyncQueues
import Bitmark.Net.BloomFilter
import Bitmark.Net.Delivery
import Bitmark.Net.LimitedMap
import Bitmark.Net.TimeOffset
import Bitmark.Primitives.WireFormat
import Bitmark.Script.Building
import Bitmark.Script.DerSignature
import Bitmark.Script.LaxDer
import Bitmark.Script.ParallelChecks
import Bitmark.Script.ScriptNum
import Bitmark.Script.SigOps
import Bitmark.Script.SignatureCache
import Bitmark.Script.SignatureHash
import Bitmark.Script.SoftFork
import Bitmark.Script.StraightLine
import Bitmark.Storage.BlockFiles
import Bitmark.Wallet.AddressGroupings
import Bitmark.Wallet.CoinSelection
import Bitmark.Wallet.Combining
import Bitmark.Wallet.Custody
import Bitmark.Wallet.KeyPool
import Bitmark.Wallet.PartialSigning
import Bitmark.Wallet.Passphrase
import Bitmark.Wallet.Reorder
import Bitmark.Wallet.Rescan
import Bitmark.Wallet.Spendable
import Bitmark.Wallet.ExtKeys
import Bitmark.Wallet.Neuter
import Bitmark.Lib.Pratt
import Bitmark.Wallet.CurveOrder
import Bitmark.Lib.Scalars
import Bitmark.Wallet.CompactSig
import Bitmark.Base.BaseUint
import Bitmark.Base.BaseUintHex
import Bitmark.Base.BaseUintModular
import Bitmark.Lib.Radix
import Bitmark.Text.Base58
import Bitmark.Text.Decimal
import Bitmark.Text.Money
import Bitmark.Lib.Regroup
import Bitmark.Text.Coding
import Bitmark.Text.Base32
import Bitmark.Lib.Ring
import Bitmark.Storage.BufferedFile
import Bitmark.Storage.BufferedDelivery
import Bitmark.Storage.BufferedRuns
import Bitmark.Consensus.LockTime
import Bitmark.Consensus.Checkpoints
