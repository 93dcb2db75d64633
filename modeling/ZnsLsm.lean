import ZnsLsm.MixedRadix
import ZnsLsm.Transition
import ZnsLsm.Flash.WritePointer
import ZnsLsm.Flash.Request
import ZnsLsm.Pool.Manager
import ZnsLsm.Outcome
import ZnsLsm.Pool.Operations
import ZnsLsm.Pool.Relocation
import ZnsLsm.Pool.Roles
import ZnsLsm.PartialInverse
import ZnsLsm.Pool.Bookkeeping
import ZnsLsm.Pool.Coherence
import ZnsLsm.WriteQueues
import ZnsLsm.Flash.Filling
import ZnsLsm.Flash.Checks
import ZnsLsm.Pool.Striping
import ZnsLsm.Threads.ThreadPool
import ZnsLsm.Threads.Shutdown
import ZnsLsm.Threads.TaskPool
import ZnsLsm.Threads.Wakeups
import ZnsLsm.Threads.Delivery
import ZnsLsm.Threads.OwnQueues
import ZnsLsm.Pool.Collection
import ZnsLsm.KeyedSet
import ZnsLsm.SortedMap
import ZnsLsm.Store.KVStore
import ZnsLsm.Store.Merging
import ZnsLsm.Store.Compaction
import ZnsLsm.Store.Commands
import ZnsLsm.Store.Stages
import ZnsLsm.Store.Sound
import ZnsLsm.Store.Partition
import ZnsLsm.Store.Shape
import ZnsLsm.Store.Termination
import ZnsLsm.Store.Fitting
import ZnsLsm.Store.Timestamps
import ZnsLsm.Store.Freshness
import ZnsLsm.Store.Precedence
import ZnsLsm.Store.Lookup
import ZnsLsm.Store.Views
import ZnsLsm.Store.Refinement
import ZnsLsm.Store.Accounting
import ZnsLsm.Pool.Ledger
import ZnsLsm.Store.Index
import ZnsLsm.Store.Agreement
import ZnsLsm.Pool.Media
import ZnsLsm.Pool.Issuing
import ZnsLsm.Pool.Interleaving
import ZnsLsm.Pool.Eviction
import ZnsLsm.Store.Iterators
import ZnsLsm.Store.Splitting
import ZnsLsm.Store.Memtable
import ZnsLsm.Store.Extents
import ZnsLsm.Store.Towers
import ZnsLsm.Store.TowerRows
import ZnsLsm.Store.TowerUpdates
import ZnsLsm.Store.TowerMap
import ZnsLsm.PointerGraph
import ZnsLsm.Store.TowerMemory
import ZnsLsm.Store.CorrectnessTest
import ZnsLsm.Store.Visibility
import ZnsLsm.Store.Tombstones
import ZnsLsm.RunningBounds
import ZnsLsm.Store.KeyRange
import ZnsLsm.Paging
import ZnsLsm.Pool.Reading
import ZnsLsm.Pool.CacheRuns
import ZnsLsm.Pool.Capacity
import ZnsLsm.Pool.Wear
import ZnsLsm.Pool.Rotation
import ZnsLsm.Intervals
import ZnsLsm.Pool.Batching
import ZnsLsm.Flash.Commands
import ZnsLsm.Flash.Placement
import ZnsLsm.Makespan
import ZnsLsm.Timetable
import ZnsLsm.WordMixing
import ZnsLsm.Store.Hashing
import ZnsLsm.Flash.ReadPath
import ZnsLsm.Flash.Erasing
import ZnsLsm.Flash.Latency
import ZnsLsm.Flash.Sectors
import ZnsLsm.EraseBlocks
import ZnsLsm.Flash.Discipline
import ZnsLsm.Flash.Schedule
import ZnsLsm.Pool.Fetching
import ZnsLsm.Pool.Discipline
import ZnsLsm.Store.Slots
import ZnsLsm.Store.Stack
import ZnsLsm.Pool.Draining
import ZnsLsm.Pool.Threaded
import ZnsLsm.Store.Completion
