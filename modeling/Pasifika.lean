import Pasifika.ChainState.MemoryOverlay
import Pasifika.ChainState.Notification
import Pasifika.Consensus.Validation
import Pasifika.Discv4.Bonds
import Pasifika.Dns.SyncTree
import Pasifika.Engine.Batches
import Pasifika.Engine.Descendants
import Pasifika.Engine.DiskReorg
import Pasifika.Era.History
import Pasifika.EthWire.Multiplex
import Pasifika.ExEx.Manager
import Pasifika.ExEx.Wal
import Pasifika.NippyJar.Consistency
import Pasifika.Poa.Discovery
import Pasifika.Poa.Validators
import Pasifika.Pool.Balances
import Pasifika.Pool.Best
import Pasifika.Pool.Fees
import Pasifika.Pool.Limits
import Pasifika.Pool.PrioritizedSenders
import Pasifika.Pool.SubPoolRuns
import Pasifika.Prune.Mode
import Pasifika.Rpc.Filter
import Pasifika.Rpc.PendingFilter
import Pasifika.StaticFile.Healing
import Pasifika.Storage.Envelope
import Pasifika.Trie.HashedState
import Pasifika.Trie.Serde
import Pasifika.Trie.SparseFind
import Pasifika.Trie.TrieCursor
