import Plainchain.Undo
import Plainchain.Identity
import Plainchain.Wallet.TxBuilder
import Plainchain.Wallet.Cli
import Plainchain.Node.Atomic
import Plainchain.Node.Sync
import Plainchain.Node.Mining
import Plainchain.Node.Run
import Plainchain.Lib.Ancestry
import Plainchain.Node.Stage
import Plainchain.Node.Sound
import Plainchain.Node.Handlers
import Plainchain.Node.Canonical
import Plainchain.Node.Checkpoints
import Plainchain.Node.ForkChoice
import Plainchain.Node.Limits
import Plainchain.Node.Recovery
import Plainchain.Network.Connections
import Plainchain.Network.SimultaneousDial
import Plainchain.Lib.CommonPrefix
import Plainchain.Wallet.HeaderSync
import Plainchain.Lib.Reads
import Plainchain.Node.Serving
import Plainchain.Node.Verdicts
import Plainchain.Node.LightClient
import Plainchain.Lib.Pages
import Plainchain.State.AddressIndex
import Plainchain.Node.Activity
import Plainchain.Node.AnchorRecord
import Plainchain.Node.Agreement
import Plainchain.Node.Ledger
import Plainchain.Node.ChainLock
import Plainchain.Node.Reconcile
import Plainchain.Mempool.Bookkeeping
import Plainchain.Lib.HashTree
import Plainchain.MerkleTree
import Plainchain.Consensus.Difficulty
import Plainchain.Lib.Greedy
import Plainchain.Lib.Json
import Plainchain.Lib.Tagged
import Plainchain.Network.Protocol
import Plainchain.Node.Authorities
import Plainchain.Node.Coinbase
import Plainchain.Node.Entries
import Plainchain.Node.Storage
import Plainchain.Node.Timing
import Plainchain.Wallet.Spend
import Plainchain.Lib.Returns
import Plainchain.Node.Orphans
import Plainchain.Node.Replay
import Plainchain.Wallet.HeaderFile
import Plainchain.Wallet.HeaderVerdicts
import Plainchain.Lib.JsonText
import Plainchain.Mempool.Replacement
import Plainchain.Network.Frames
import Plainchain.Rpc.JsonRpc
import Plainchain.Rpc.RateLimit
import Plainchain.State.Staging
import Plainchain.Ledger.AddressCodec
import Plainchain.Lib.Split
import Plainchain.Node.Locator
import Plainchain.Rpc.Tls
import Plainchain.Wallet.Keystore
