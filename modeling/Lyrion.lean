import Lyrion.Library.ByteCodec
import Lyrion.Library.KeyValue
import Lyrion.Library.UndoLog
import Lyrion.Library.EffectLoop
import Lyrion.Library.Runs
import Lyrion.Library.Merkle
import Lyrion.Library.Cascade
import Lyrion.Library.Framing
import Lyrion.Library.LeadingDigits
import Lyrion.Library.OrderStatistics
import Lyrion.Library.PrefixScan
import Lyrion.Library.StackWalk
import Lyrion.Library.GapScan
import Lyrion.Library.FairLocks
import Lyrion.Library.Files
import Lyrion.Data
import Lyrion.Checked
import Lyrion.Utils
import Lyrion.Utils.Compact
import Lyrion.Utils.Subsidy
import Lyrion.Utils.Secrets
import Lyrion.Tx
import Lyrion.Tx.Acceptance
import Lyrion.Tx.Scripts
import Lyrion.Tx.Authorisation
import Lyrion.Tx.Anonymous
import Lyrion.Tx.Coverage
import Lyrion.Node.Utxo
import Lyrion.Node.Effects
import Lyrion.Node.DoubleSpend
import Lyrion.Node.Coins
import Lyrion.Node.Validate
import Lyrion.Node.Chain
import Lyrion.Node.Steps
import Lyrion.Node.Frames
import Lyrion.Node.Faults
import Lyrion.Node.Conservation
import Lyrion.Node.SetHash
import Lyrion.Node.EntryHash
import Lyrion.Node.Undo
import Lyrion.Node.Rollback
import Lyrion.Node.Addresses
import Lyrion.Node.SideBlock
import Lyrion.Node.Locks
import Lyrion.Node.OrphanRounds
import Lyrion.Node.Orphans
import Lyrion.Node.OrphanDepth
import Lyrion.Node.OrphanPool
import Lyrion.Node.Replay
import Lyrion.Node.Reorg
import Lyrion.Node.History
import Lyrion.Node.ForkChoice
import Lyrion.Node.Supply
import Lyrion.Node.Load
import Lyrion.Node.Audit
import Lyrion.Node.Pruning
import Lyrion.Node.Crash
import Lyrion.Node.Rejection
import Lyrion.Node.BlockRules
import Lyrion.Node.MerkleRoot
import Lyrion.Node.Amounts
import Lyrion.Node.Context
import Lyrion.Node.MedianTime
import Lyrion.Node.Difficulty
import Lyrion.Node.Retarget
import Lyrion.Mempool
import Lyrion.Mempool.Removal
import Lyrion.Mempool.Operations
import Lyrion.Mempool.Admission
import Lyrion.Mempool.Bookkeeping
import Lyrion.Mempool.Dependencies
import Lyrion.Mempool.Conflicts
import Lyrion.Mempool.Blocks
import Lyrion.Mempool.Selection
import Lyrion.Mempool.Eviction
import Lyrion.Mempool.AverageFee
import Lyrion.Mempool.AverageSafety
import Lyrion.Mempool.Ancestry
import Lyrion.Mempool.ParentValues
import Lyrion.Mempool.Expiry
import Lyrion.Mempool.Packages
import Lyrion.Mempool.Sequence
import Lyrion.Miner
import Lyrion.Miner.Template
import Lyrion.Miner.Search
import Lyrion.Miner.Confirmation
import Lyrion.Net
import Lyrion.Net.Framing
import Lyrion.Net.Messages
import Lyrion.Net.HeaderSync
import Lyrion.Net.Panics
import Lyrion.Net.Bans
import Lyrion.Net.Delivery
import Lyrion.Net.Handshake
import Lyrion.Net.Peers
import Lyrion.Wallet
import Lyrion.Wallet.Signing
import Lyrion.Wallet.Fees
import Lyrion.Wallet.Selection
import Lyrion.Wallet.AddressIndex
import Lyrion.Wallet.Scan
import Lyrion.Wallet.History
import Lyrion.Wallet.App
import Lyrion.Wallet.Custody
import Lyrion.Node.Coinless
import Lyrion.Node.Restart
import Lyrion.RunNode
import Lyrion.RunNode.Ledger
import Lyrion.RunNode.Heights
import Lyrion.RunNode.Pool
import Lyrion.RunNode.Locks
import Lyrion.Network
import Lyrion.Library.Hex
import Lyrion.RunNode.Rpc
