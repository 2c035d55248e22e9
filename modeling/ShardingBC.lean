import ShardingBC.GoBytes
import ShardingBC.Utf8
import ShardingBC.JsonText
import ShardingBC.JsonRoundTrip
import ShardingBC.Base64
import ShardingBC.JsonDecode
import ShardingBC.JsonValid
import ShardingBC.Sha256
import ShardingBC.Identypes
import ShardingBC.MerkleTree
import ShardingBC.SimpleTree
import ShardingBC.TreePaths
import ShardingBC.KeyPaths
import ShardingBC.AssocMap
import ShardingBC.TxUtils
import ShardingBC.Routing
import ShardingBC.Grouping
import ShardingBC.SortedBlocks
import ShardingBC.Ledger
import ShardingBC.Account
import ShardingBC.Transfers
import ShardingBC.ChangeSets
import ShardingBC.CheckDB
import ShardingBC.RelationTable
import ShardingBC.EraseFirst
import ShardingBC.CrossMessagesDB
import ShardingBC.Mempool
import ShardingBC.Compression
import ShardingBC.Receipts
import ShardingBC.Reap
import ShardingBC.MempoolRuns
import ShardingBC.MempoolPanics
import ShardingBC.Submissions
import ShardingBC.RpcSubmissions
import ShardingBC.Interleaving
import ShardingBC.SharedMessages
import ShardingBC.SharedMessageRuns
import ShardingBC.ConcurrentCalls
import ShardingBC.ConcurrentAcks
import ShardingBC.ResendSchedule
import ShardingBC.Recheck
import ShardingBC.Consumption
import ShardingBC.Runs
import ShardingBC.Commit
import ShardingBC.Replay
import ShardingBC.Identifiers
import ShardingBC.Durability
import ShardingBC.Network
import ShardingBC.AtMostOnce
import ShardingBC.RelayTransfer
import ShardingBC.Signers
import ShardingBC.Forgery
import ShardingBC.CommittedTxs
import ShardingBC.ReapLimits
import ShardingBC.Replicas
import ShardingBC.Votes
import ShardingBC.PrivVal
import ShardingBC.LockedVoting
import ShardingBC.VoteSet
import ShardingBC.VoteTables
import ShardingBC.VoteShares
import ShardingBC.HeightVoteSet
import ShardingBC.ConfigTx
import ShardingBC.ConsensusState
import ShardingBC.Locking
import ShardingBC.Block
import ShardingBC.Chain
import ShardingBC.CrossRoot
import ShardingBC.CList
import ShardingBC.ShardFilters
import ShardingBC.CommitPanics
import ShardingBC.FilterChanges
import ShardingBC.FailedBlocks
import ShardingBC.Agreement
import ShardingBC.Decided
import ShardingBC.Interpolation
import ShardingBC.ThresholdSig
import ShardingBC.PeerIDs
import ShardingBC.PrevoteShares
import ShardingBC.Wire
import ShardingBC.VoteSetKeys
import ShardingBC.Commits
import ShardingBC.HeightVoteTables
import ShardingBC.Logged
import ShardingBC.LockedVoter
import ShardingBC.SignCalls
import ShardingBC.LockRules
import ShardingBC.LockRuns
import ShardingBC.ReleasedShares
import ShardingBC.LightClient
import ShardingBC.LightStore
import ShardingBC.LightClientSound
import ShardingBC.HeaderHash
import ShardingBC.SimpleProofs
import ShardingBC.ValidatorSet
import ShardingBC.ProposerPriority
import ShardingBC.ValidatorUpdates
import ShardingBC.ValidatorHistory
import ShardingBC.StateStore
import ShardingBC.StoreWire
import ShardingBC.ValidatorRecall
import ShardingBC.FastSync
import ShardingBC.Snapshot
import ShardingBC.IncrementalSnapshots
import ShardingBC.WriteAheadLog
import ShardingBC.Metadata
import ShardingBC.Reconfiguration
import ShardingBC.ReconfigurationChoices
import ShardingBC.EventQuery
import ShardingBC.BlockPool
