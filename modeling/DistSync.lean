import DistSync.RunRules
import DistSync.RaftNode
import DistSync.RaftCluster
import DistSync.RaftElection
import DistSync.RaftReplication
import DistSync.TermLog
import DistSync.TermConsensus
import DistSync.TermConsensusMoves
import DistSync.RaftLogMatching
import DistSync.RaftCommit
import DistSync.RaftHistory
import DistSync.RaftBallots
import DistSync.RaftCopies
import DistSync.Dict
import DistSync.LockMachine
import DistSync.RaftSafety
import DistSync.LockHolders
import DistSync.LockRequests
import DistSync.LockQueue
import DistSync.QueueNode
import DistSync.QueueRecovery
import DistSync.LruCache
import DistSync.CacheNode
import DistSync.CacheInvariant
import DistSync.CacheReads
import DistSync.CacheCoherence
import DistSync.RaftPointers
import DistSync.CycleSearch
import DistSync.LockDeadlock
import DistSync.LockFairness
import DistSync.LockExpiry
import DistSync.QueueConservation
import DistSync.Sha1
import DistSync.ConsistentHashRing
import DistSync.QueueRouting
import DistSync.LockProxy
import DistSync.CacheHistory
import DistSync.CacheSequential
import DistSync.LockResolution
import DistSync.LockTables
import DistSync.LockFailure
import DistSync.LockModes
import DistSync.LockLease
import DistSync.LockCallers
import DistSync.RaftLeaderId
import DistSync.RaftMatchIndex
import DistSync.RaftProgress
import DistSync.RaftRepair
import DistSync.RaftCounting
import DistSync.RaftAppliers
import DistSync.RaftReplyTerms
import DistSync.QueueRaces
import DistSync.QueueDurability
import DistSync.JsonText
import DistSync.JsonTorn
import DistSync.QueueTornWal
import DistSync.HashRingWalk
import DistSync.RingPreference
import DistSync.IdealLru
import DistSync.LruRefinement
import DistSync.CacheServer
import DistSync.CacheMoves
import DistSync.CacheOwnWrites
import DistSync.CacheFailures
import DistSync.InternalUrls
import DistSync.QueueCounts
import DistSync.QueueLeases
import DistSync.CacheRounds
import DistSync.RaftTermOrder
import DistSync.RaftElectable
import DistSync.RaftAvailability
import DistSync.RaftPartition
import DistSync.QueueOrder
import DistSync.QueueCluster
import DistSync.LockService
import DistSync.LockWaiting
import DistSync.PeerConfig
import DistSync.QueueDelivery
import DistSync.RaftRoutes
import DistSync.FailureDetector
import DistSync.MetricsRegistry
import DistSync.CacheOrigins
import DistSync.LockProgress
import DistSync.LockStatus
import DistSync.QueueStats
