import AirHuim.Library.Table
import AirHuim.Library.Bytes
import AirHuim.Library.Text
import AirHuim.Library.Intersect
import AirHuim.Library.Enumeration
import AirHuim.Library.Basket
import AirHuim.Library.SharedProgram
import AirHuim.Library.PartialProgram
import AirHuim.Library.SortByKey
import AirHuim.Library.TopK
import AirHuim.Library.StateSpec
import AirHuim.Library.CheckedProgram
import AirHuim.Library.Tally
import AirHuim.Library.Trace
import AirHuim.Types
import AirHuim.Preprocessing.TwuFilter
import AirHuim.Preprocessing.DbReader
import AirHuim.Preprocessing.TwuBound
import AirHuim.Mining.Context
import AirHuim.Mining.TaskLogic
import AirHuim.Mining.GuardThreads
import AirHuim.Mining.Eucs
import AirHuim.Mining.EucsRefusals
import AirHuim.Mining.UlJoin
import AirHuim.Mining.UtilityLists
import AirHuim.Mining.UlSearch
import AirHuim.Mining.OneItemLists
import AirHuim.Mining.Algorithms.Fhm
import AirHuim.Mining.Algorithms.FhmBudget
import AirHuim.Mining.Algorithms.Tko
import AirHuim.Mining.Algorithms.TwoPhase
import AirHuim.Mining.Algorithms.TwoPhaseExact
import AirHuim.Mining.Algorithms.Efim
import AirHuim.Mining.Algorithms.EfimProjection
import AirHuim.Mining.Algorithms.EfimSearch
import AirHuim.Mining.Algorithms.EfimWrapping
import AirHuim.Mining.Algorithms.CheckedWeights
import AirHuim.Mining.Algorithms.EfimSpill
import AirHuim.Mining.Algorithms.EfimExact
import AirHuim.Mining.Algorithms.EfimClosed
import AirHuim.Mining.NodeArena
import AirHuim.Mining.PrefixTree
import AirHuim.Mining.PatternGrowth
import AirHuim.Mining.CandidateSearch
import AirHuim.Mining.TreeRoom
import AirHuim.Mining.Algorithms.Ihup
import AirHuim.Mining.Algorithms.UpGrowth
import AirHuim.Mining.Algorithms.UpGrowthSearch
import AirHuim.Mining.Algorithms.UpGrowthExact
import AirHuim.Mining.Algorithms.UpGrowthPlus
import AirHuim.Storage.PageLayout
import AirHuim.Storage.FileChunkStore
import AirHuim.BufferPool.Policy
import AirHuim.BufferPool.Pool
import AirHuim.BufferPool.Invariants
import AirHuim.BufferPool.Transparent
import AirHuim.BufferPool.Operations
import AirHuim.BufferPool.Session
import AirHuim.BufferPool.Failures
import AirHuim.BufferPool.Lru
import AirHuim.BufferPool.LruSession
import AirHuim.BufferPool.Threads
import AirHuim.BufferPool.PinSafety
import AirHuim.BufferPool.SharedLedger
import AirHuim.BufferPool.SharedEdits
import AirHuim.Mining.Algorithms.EfimLedger
import AirHuim.Mining.Algorithms.EfimOffsets
import AirHuim.Mining.Algorithms.HuiMiner
import AirHuim.Mining.Algorithms.FhmPlus
import AirHuim.Mining.Algorithms.HuimMmu
import AirHuim.Mining.StorageFailures
import AirHuim.Mining.Algorithms.SwallowedErrors
import AirHuim.Mining.Algorithms.RejectedLines
import AirHuim.Storage.Corruption
import AirHuim.Mining.Algorithms.UpTreeShape
import AirHuim.Preprocessing.TxPage
import AirHuim.Preprocessing.Chunker
import AirHuim.Prefetch.PrefetchQueue
import AirHuim.Experiment.ResultFile
import AirHuim.Experiment.ExactnessChecker
import AirHuim.Mining.CheckedSums
import AirHuim.Mining.CheckedSearch
import AirHuim.Mining.CheckedRuns
import AirHuim.Mining.CheckedPasses
import AirHuim.Mining.CheckedEucs
import AirHuim.Mining.LightSearch
import AirHuim.Mining.Algorithms.FhmChecked
import AirHuim.Mining.Algorithms.FhmOverflow
import AirHuim.Mining.ArenaFrame
import AirHuim.Mining.Algorithms.UpGrowthFrame
import AirHuim.Mining.ReliableArena
import AirHuim.Mining.CheckedTrees
import AirHuim.Mining.CheckedCandidates
import AirHuim.Mining.Algorithms.UpGrowthOverflow
import AirHuim.Library.Refinement
import AirHuim.BufferPool.StoredPool
import AirHuim.BufferPool.FilePool
import AirHuim.BufferPool.FileSession
import AirHuim.Mining.KnownPages
import AirHuim.BufferPool.PromptPolicy
import AirHuim.Mining.DiskWorld
import AirHuim.Mining.Algorithms.DiskRuns
import AirHuim.BufferPool.MiningAware
import AirHuim.BufferPool.MiningAwareSession
import AirHuim.Library.Workers
import AirHuim.Mining.ParallelRun
import AirHuim.Mining.Algorithms.ParallelRuns
import AirHuim.Library.Records
import AirHuim.Mining.NodePages
import AirHuim.Mining.DiskArena
import AirHuim.Preprocessing.FileChunker
import AirHuim.Mining.DatasetStats
import AirHuim.Experiment.Runner
import AirHuim.Experiment.GeneratedDataset
import AirHuim.BufferPool.Metrics
import AirHuim.Library.Locks
import AirHuim.BufferPool.Locks
