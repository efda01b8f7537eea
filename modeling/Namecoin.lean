import Namecoin.Chain.Block
import Namecoin.Chain.BlockFile
import Namecoin.Chain.Connect
import Namecoin.Chain.Flags
import Namecoin.Chain.Index
import Namecoin.Chain.Merged
import Namecoin.Chain.MerkleRoot
import Namecoin.Chain.Overflow
import Namecoin.Chain.Pending
import Namecoin.Chain.Precheck
import Namecoin.Chain.Proxy
import Namecoin.Chain.Run
import Namecoin.Chain.Search
import Namecoin.Chain.SigCache
import Namecoin.Chain.Spend
import Namecoin.Chain.Step
import Namecoin.Chain.Supply
import Namecoin.Chain.Undo
import Namecoin.Chain.UndoTx
import Namecoin.Chain.Value
import Namecoin.Chain.Wallet
import Namecoin.Chain.Work
import Namecoin.Data.Bytes
import Namecoin.Data.Codec
import Namecoin.Data.RoundTrip
import Namecoin.Data.Script
import Namecoin.Data.Serial
import Namecoin.Data.Types
import Namecoin.Lib.Act
import Namecoin.Lib.Checked
import Namecoin.Lib.Coins
import Namecoin.Lib.Forest
import Namecoin.Lib.Framing
import Namecoin.Lib.Merkle
import Namecoin.Lib.Mirror
import Namecoin.Lib.OrderedMap
import Namecoin.Lib.Reader
import Namecoin.Lib.Shortest
import Namecoin.Lib.Total
import Namecoin.Mining.AuxProof
import Namecoin.Mining.AuxSafety
import Namecoin.Mining.AuxWork
import Namecoin.Mining.Confirmations
import Namecoin.Mining.Handout
import Namecoin.Mining.MinerRun
import Namecoin.Mining.Priority
import Namecoin.Name.Coherent
import Namecoin.Name.Coin
import Namecoin.Name.Commitment
import Namecoin.Name.Decode
import Namecoin.Name.Expiry
import Namecoin.Name.Hooks
import Namecoin.Name.InputOrder
import Namecoin.Name.Rebuild
import Namecoin.Name.Reconstruct
import Namecoin.Name.Records
import Namecoin.Name.Scan
import Namecoin.Name.ScanNames
import Namecoin.Name.Step
import Namecoin.Name.Takeover
import Namecoin.Net.DataStream
import Namecoin.Net.Messages
import Namecoin.Net.RelayMemory
import Namecoin.Net.Truncated
import Namecoin.Node.Best
import Namecoin.Node.Bookkeeping
import Namecoin.Node.ChainHeads
import Namecoin.Node.DistinctInputs
import Namecoin.Node.Lookup
import Namecoin.Node.MainChain
import Namecoin.Node.Mempool
import Namecoin.Node.MissingInputs
import Namecoin.Node.Orphan
import Namecoin.Node.OrphanHeap
import Namecoin.Node.OrphanView
import Namecoin.Node.Pool
import Namecoin.Node.PoolInputs
import Namecoin.Node.PoolRules
import Namecoin.Node.Process
import Namecoin.Node.Record
import Namecoin.Node.RelayOrder
import Namecoin.Node.RelayPool
import Namecoin.Node.Reload
import Namecoin.Node.Replay
import Namecoin.Node.Rollback
import Namecoin.Node.Rules
import Namecoin.Node.SpendMap
import Namecoin.Node.Tree
import Namecoin.Node.TxIndexed
import Namecoin.Node.TxRelay
import Namecoin.Script.Eval
import Namecoin.Script.NameOutput
import Namecoin.Wallet.Accounts
import Namecoin.Wallet.Arrival
import Namecoin.Wallet.Balance
import Namecoin.Wallet.Book
import Namecoin.Wallet.CacheRun
import Namecoin.Wallet.Caches
import Namecoin.Wallet.Cleaning
import Namecoin.Wallet.Coins
import Namecoin.Wallet.Commit
import Namecoin.Wallet.Encrypted
import Namecoin.Wallet.FailedCommit
import Namecoin.Wallet.FeeLoop
import Namecoin.Wallet.KeyPool
import Namecoin.Wallet.KeyStore
import Namecoin.Wallet.Listing
import Namecoin.Wallet.NameCoins
import Namecoin.Wallet.NameList
import Namecoin.Wallet.NameQueries
import Namecoin.Wallet.NameScript
import Namecoin.Wallet.NetFee
import Namecoin.Wallet.Prepared
import Namecoin.Wallet.Registration
import Namecoin.Wallet.Selection
import Namecoin.Wallet.Solver
import Namecoin.Wallet.SpentFlags
import Namecoin.Wallet.TxEntries
import Namecoin.Wallet.Upkeep
import Namecoin.Wallet.Watch
import Namecoin.Lib.Merging
import Namecoin.Script.StackLeft
import Namecoin.Wallet.RawSign
import Namecoin.Wallet.SinceBlock
import Namecoin.Node.Spendable
import Namecoin.Chain.Allocate
import Namecoin.Lib.Matching
import Namecoin.Lib.Separated
import Namecoin.Lib.Significand
import Namecoin.Node.Retarget
import Namecoin.Script.Limits
import Namecoin.Script.SigHash
import Namecoin.Wallet.StoreOps
import Namecoin.Chain.Migrate
import Namecoin.Wallet.StoredTx
import Namecoin.Chain.MerkleBranch
import Namecoin.Lib.Components
import Namecoin.Lib.Doubling
import Namecoin.Lib.Median
import Namecoin.Lib.Rounds
import Namecoin.Lib.Simulation
import Namecoin.Net.Locator
import Namecoin.Net.ServeChain
import Namecoin.Net.StreamQueue
import Namecoin.Net.TimeData
import Namecoin.Node.ForkSearch
import Namecoin.Node.TestNetRule
import Namecoin.Wallet.Base58
import Namecoin.Wallet.BitcoinUnits
import Namecoin.Wallet.GroupHeap
import Namecoin.Wallet.Groupings
import Namecoin.Wallet.Reaccept
import Namecoin.Chain.BaseUint
import Namecoin.Data.Base64
import Namecoin.Data.BigNum
import Namecoin.Lib.Lexer
import Namecoin.Node.Compact
import Namecoin.Script.Deletion
import Namecoin.Net.Alert
import Namecoin.Net.Peers
import Namecoin.Net.Dispatch
import Namecoin.Net.Serving
import Namecoin.Net.Inventory
import Namecoin.Net.Requests
import Namecoin.Net.Network
import Namecoin.Net.AlertStep
import Namecoin.Net.AlertFlood
import Namecoin.Net.AlertStore
import Namecoin.Node.Headers
import Namecoin.Net.Download
import Namecoin.Net.DownloadStep
import Namecoin.Net.SyncChain
import Namecoin.Net.Adopt
import Namecoin.Net.SyncPeers
import Namecoin.Net.SyncClient
import Namecoin.Net.SyncServer
import Namecoin.Net.BlockSync
import Namecoin.Lib.CoinHistory
import Namecoin.Node.Ledger
import Namecoin.Lib.Waiting
import Namecoin.Mining.Assemble
import Namecoin.Mining.PriorityQueue
import Namecoin.Mining.Template
import Namecoin.Mining.NewBlock
import Namecoin.Mining.TestPool
import Namecoin.Node.PoolApart
import Namecoin.Chain.Synced
import Namecoin.Node.Connected
import Namecoin.Node.Restart
