import NovaCache.LittleEndian
import NovaCache.Persistence.Binary
import NovaCache.Persistence.Crc32
import NovaCache.Persistence.Wal
import NovaCache.Persistence.WalScan
import NovaCache.Persistence.WalRecovery
import NovaCache.Persistence.WalCrash
import NovaCache.Persistence.WalFailure
import NovaCache.Store.Basic
import NovaCache.Store.Operations
import NovaCache.Store.Specification
import NovaCache.Store.Loops
import NovaCache.Store.Reference
import NovaCache.Store.Refinement
import NovaCache.Decimal
import NovaCache.Incremental
import NovaCache.Protocol.Encoder
import NovaCache.Protocol.Parser
import NovaCache.Protocol.Grammar
import NovaCache.Protocol.Acceptance
import NovaCache.Protocol.RoundTrip
import NovaCache.Protocol.Fragmentation
import NovaCache.Persistence.Snapshot
import NovaCache.Persistence.Engine
import NovaCache.Persistence.LateReplay
import NovaCache.Persistence.Durability
import NovaCache.Interaction
import NovaCache.Server.Procedures
import NovaCache.Server.Delivery
import NovaCache.Server.Invariant
import NovaCache.Server.Steps
import NovaCache.Server.Runs
import NovaCache.Server.Replies
import NovaCache.Server.Strand
import NovaCache.Server.Connections
import NovaCache.Server.Violations
import NovaCache.Server.ProtocolError
import NovaCache.Server.HalfClose
import NovaCache.Server.BackPressure
import NovaCache.Server.Wakeups
import NovaCache.Server.Isolation
import NovaCache.Persistence.FailedOperation
import NovaCache.Persistence.SnapshotFile
import NovaCache.Persistence.SnapshotCrash
import NovaCache.Commands.Outcome
import NovaCache.Server.Jobs
import NovaCache.Persistence.PayloadCodec
import NovaCache.Persistence.Corruption
import NovaCache.Store.Accounting
import NovaCache.Commands.Expiration
import NovaCache.Commands.Logging
import NovaCache.Commands.Readability
import NovaCache.Commands.Transparency
import NovaCache.Server.Backlog
import NovaCache.LockOrder
import NovaCache.Persistence.Locking
import NovaCache.Store.Sampling
import NovaCache.Server.OutputLimit
import NovaCache.Schedule
import NovaCache.Tally
import NovaCache.Util.ThreadPool
import NovaCache.Util.PoolInvariant
import NovaCache.Util.PoolDelivery
import NovaCache.Server.PoolView
import NovaCache.Simulation
import NovaCache.Sections
import NovaCache.Linearization
import NovaCache.Completion
import NovaCache.Concurrency.Programs
import NovaCache.Concurrency.Sequential
import NovaCache.Concurrency.Discipline
import NovaCache.Concurrency.LockActions
import NovaCache.Concurrency.Linearizable
import NovaCache.Interruption
import NovaCache.Concurrency.Crashes
import NovaCache.Concurrency.Commands
import NovaCache.Concurrency.Service
import NovaCache.Concurrency.Snapshots
import NovaCache.Concurrency.Counters
import NovaCache.Concurrency.Listings
