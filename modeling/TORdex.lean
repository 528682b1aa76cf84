import TORdex.Core.EventStore
import TORdex.Fabric.Queue
import TORdex.Fabric.Fabric
import TORdex.Fabric.Steps
import TORdex.Fabric.Log
import TORdex.Fabric.EventLog
import TORdex.Fabric.Retry
import TORdex.Fabric.Crawler
import TORdex.Kernel.PgEventStore
import TORdex.Tdxl.Kir
import TORdex.Tdxl.Ast
import TORdex.Tdxl.Compile
import TORdex.Tdxl.Optimizer
import TORdex.Tdxl.QueryOptimizer
import TORdex.Vm.Instruction
import TORdex.Vm.Services
import TORdex.Vm.Executor
import TORdex.Tdxl.Codegen
import TORdex.Lib.KeyedStore
import TORdex.Vifs.Filesystem
import TORdex.Vifs.Effects
import TORdex.Vifs.Replay
import TORdex.Vifs.Rebuild
import TORdex.Vifs.Idempotent
import TORdex.Vifs.FabricLog
import TORdex.Vm.StraightLine
import TORdex.Tdxl.Emission
import TORdex.Tdxl.Agreement
import TORdex.Core.EventStoreRuns
import TORdex.Fabric.QueueRuns
import TORdex.Fabric.Lifecycle
import TORdex.Vm.Calls
import TORdex.Tdxl.Dataflow
import TORdex.Core.Agents
import TORdex.Core.EventManager
import TORdex.Events.Bus
import TORdex.Events.Subscription
import TORdex.Tdxl.Lexer
import TORdex.Lib.Ensures
import TORdex.Tdxl.Parser
import TORdex.Tdxl.FrontEnd
import TORdex.Tdxl.LexRender
import TORdex.Tdxl.RoundTrip
import TORdex.Tdxl.Registers
import TORdex.Tdxl.Clobbering
import TORdex.Tdxl.Regroup
import TORdex.Tdxl.Renaming
import TORdex.Tdxl.Passes
import TORdex.Fabric.QueueOrder
import TORdex.Algorithms.LsmTree
import TORdex.Core.Storage
import TORdex.Vifs.Files
import TORdex.Core.Object
import TORdex.Kernel.PgObjectManager
import TORdex.Kernel.Runtime
import TORdex.Vifs.Listing
import TORdex.Kernel.ObjectAgreement
import TORdex.Lib.FirstMax
import TORdex.Memory.LongTerm
import TORdex.Memory.LongTermRuns
import TORdex.Ule.Builder
import TORdex.Ule.Frontends
import TORdex.Fabric.Domains
import TORdex.Kernel.FileStorage
import TORdex.Kernel.StorageAgreement
import TORdex.Lib.Reachability
import TORdex.Algorithms.Graph
import TORdex.Algorithms.Kosaraju
import TORdex.Algorithms.Tarjan
import TORdex.Algorithms.Components
import TORdex.Monitoring.Engine
import TORdex.Monitoring.Losses
import TORdex.Lib.Runs
import TORdex.Monitoring.Intervals
import TORdex.Monitoring.Watchers
import TORdex.Monitoring.Records
import TORdex.Knowledge.Core
import TORdex.Knowledge.CanonicalLaws
import TORdex.Knowledge.Duplicates
import TORdex.Knowledge.DedupIndex
import TORdex.Knowledge.Identity
import TORdex.Knowledge.Versions
import TORdex.Knowledge.VersionWalks
import TORdex.Lib.Ranking
import TORdex.Search.Query
import TORdex.Search.Limits
import TORdex.Search.Reindex
import TORdex.PackageIntel.Manifests
import TORdex.PackageIntel.DependencyGraph
import TORdex.Algorithms.TaskGraph
import TORdex.Algorithms.CriticalPath
import TORdex.Algorithms.TaskOrder
import TORdex.Lib.Expiring
import TORdex.Cluster.Task
import TORdex.Cluster.Results
import TORdex.Cluster.Collection
import TORdex.Cluster.TaskQueue
import TORdex.Cluster.NoTaskLost
import TORdex.Cluster.Membership
import TORdex.AiRuntime.Reasoning
import TORdex.AiRuntime.Closure
import TORdex.AiRuntime.Evidence
import TORdex.Lib.Bytes
import TORdex.Lib.HashTree
import TORdex.Vm.Jumps
import TORdex.Algorithms.MerkleTree
import TORdex.Core.Ipc
import TORdex.Core.RunningCount
import TORdex.Core.Scheduler
import TORdex.Lib.LabelCorrecting
import TORdex.Lib.Loops
import TORdex.Algorithms.ShortestPaths
import TORdex.Algorithms.AStar
import TORdex.Fabric.QueueListing
import TORdex.Tdxl.LoweredForm
import TORdex.Tdxl.DeadCode
import TORdex.Tdxl.ConstantPool
import TORdex.Fabric.UrlSlices
import TORdex.Fabric.SameSite
import TORdex.Fabric.Crawling
import TORdex.Lib.Delimiters
import TORdex.Core.JsonText
import TORdex.Vm.ProgramEncoding
import TORdex.Tdxl.NumberRuns
import TORdex.Tdxl.Depths
import TORdex.Tdxl.WrittenDepths
import TORdex.Fabric.Html
import TORdex.Fabric.LinkExtraction
import TORdex.Fabric.LinkDomains
import TORdex.Gpu.Traversal
import TORdex.Algorithms.Traversals
import TORdex.Algorithms.PageRank
import TORdex.Algorithms.BPlusTree
import TORdex.Algorithms.BinaryHeapCustom
import TORdex.Algorithms.InvertedIndex
import TORdex.Vifs.Paths
import TORdex.Algorithms.Trie
import TORdex.Algorithms.RadixTree
import TORdex.Algorithms.RadixInsert
import TORdex.Algorithms.RadixSet
import TORdex.Algorithms.RadixShape
import TORdex.Algorithms.LongestPrefix
import TORdex.Lib.Latin1
import TORdex.Lib.BackwardSearch
import TORdex.Algorithms.FMIndex
import TORdex.Algorithms.HyperLogLog
import TORdex.Algorithms.Sketches
import TORdex.Algorithms.WorkStealing
import TORdex.Fabric.Drain
import TORdex.Kernel.Snapshots
import TORdex.Core.Processor
import TORdex.Processors.Network
import TORdex.Processors.Captures
import TORdex.Processors.EdgeLists
import TORdex.Processors.Markdown
import TORdex.Lib.Recursion
import TORdex.Memory.Procedural
import TORdex.Memory.ProcedureRuns
import TORdex.Memory.ProcedureSuccess
import TORdex.Lib.Spans
import TORdex.TemporalGraph.Interval
import TORdex.TemporalGraph.Graph
import TORdex.TemporalGraph.PastStates
import TORdex.Lib.MapDiff
import TORdex.TemporalGraph.Diff
import TORdex.Memory.Semantic
import TORdex.Memory.Working
import TORdex.Memory.ShortTerm
import TORdex.Drivers.Base64
import TORdex.TemporalGraph.Trend
import TORdex.RepoIntel.ControlFlow
import TORdex.Tdxl.Pipeline
import TORdex.Tdxl.FreshIds
import TORdex.Lib.BestFirst
import TORdex.Lib.InverseIndex
