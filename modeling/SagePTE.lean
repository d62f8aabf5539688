import SagePTE.Simulator.Memref
import SagePTE.Simulator.CachingDevice
import SagePTE.Simulator.Hierarchy
import SagePTE.Simulator.Knobs
import SagePTE.Simulator.Lookup
import SagePTE.Simulator.RequestLines
import SagePTE.Simulator.LineEvents
import SagePTE.Simulator.DroppedLines
import SagePTE.Simulator.DeviceRuns
import SagePTE.Simulator.CacheOps
import SagePTE.Simulator.Placement
import SagePTE.Simulator.LoadedBlocks
import SagePTE.Simulator.Inclusion
import SagePTE.Simulator.CacheConfig
import SagePTE.Simulator.ConfiguredCaches
import SagePTE.Simulator.FifoOrder
import SagePTE.Simulator.LruOrder
import SagePTE.Simulator.LruTies
import SagePTE.Simulator.Effects
import SagePTE.Simulator.MissFlow
import SagePTE.Simulator.Walk
import SagePTE.Simulator.Scheduler
import SagePTE.Simulator.Tlb
import SagePTE.Simulator.ThreadCounts
import SagePTE.Simulator.TlbLookup
import SagePTE.Simulator.TlbEntries
import SagePTE.Simulator.TlbPages
import SagePTE.Simulator.CacheSimulator
import SagePTE.Simulator.WalkEvents
import SagePTE.Simulator.TraceFile
import SagePTE.Simulator.Truncation
import SagePTE.Lib.Steps
import SagePTE.Lib.Recency
import SagePTE.Simulator.Run
import SagePTE.Simulator.Steps
import SagePTE.Simulator.WalkFormat
import SagePTE.Simulator.WalkLength
import SagePTE.Simulator.WalkIndices
import SagePTE.Simulator.WalkCount
import SagePTE.Simulator.ByteLines
import SagePTE.Simulator.Cores
import SagePTE.Simulator.LastThread
import SagePTE.Simulator.Dispatch
import SagePTE.Simulator.Warmup
import SagePTE.Simulator.Contention
import SagePTE.Simulator.TlbWarmup
import SagePTE.Simulator.TlbInfluence
import SagePTE.Simulator.Budget
import SagePTE.Simulator.Skip
import SagePTE.Simulator.Uncovered
import SagePTE.Lib.History
import SagePTE.Simulator.PageWalkCache
import SagePTE.Analysis.WalkStats
import SagePTE.Analysis.Costs
import SagePTE.Analysis.DesignBounds
import SagePTE.Analysis.Log
import SagePTE.Analysis.WholeLog
import SagePTE.Analysis.Report
import SagePTE.Analysis.RecordOrder
import SagePTE.Lib.Lines
import SagePTE.Lib.Pointwise
import SagePTE.Lib.Dict
import SagePTE.Lib.Bytes
import SagePTE.Lib.Numerals
import SagePTE.Lib.Scan
import SagePTE.Lib.SeqFile
import SagePTE.PageTables.Tables
import SagePTE.PageTables.Translator
import SagePTE.PageTables.OutputText
import SagePTE.PageTables.Store
import SagePTE.PageTables.Session
import SagePTE.PageTables.StoreInvariant
import SagePTE.PageTables.Counters
import SagePTE.PageTables.FailedWrites
import SagePTE.PageTables.Levels
import SagePTE.PageTables.GuestDump
import SagePTE.PageTables.GuestText
import SagePTE.Simulator.Loader
import SagePTE.Simulator.TableObjects
import SagePTE.PageTables.OutputCount
import SagePTE.PageTables.LeafReferences
import SagePTE.PageTables.Augmentor
import SagePTE.Lib.Between
import SagePTE.PageTables.AugmentorGaps
import SagePTE.PageTables.GapArray
import SagePTE.PageTables.AugmentorFill
import SagePTE.PageTables.AugmentorText
import SagePTE.PageTables.AugmentorDump
import SagePTE.PageTables.Ownership
import SagePTE.Pipeline
import SagePTE.Tracer.LockFile
import SagePTE.Tracer.Enabler
import SagePTE.Lib.Substitute
import SagePTE.Tracer.Relocate
import SagePTE.Tracer.RelocatedFile
import SagePTE.Lib.Fallible
import SagePTE.Lib.Merging
import SagePTE.Lib.Chains
import SagePTE.Tracer.OfflineEntry
import SagePTE.Tracer.Convert
import SagePTE.Tracer.Merge
import SagePTE.Tracer.Independence
import SagePTE.Tracer.ThreadOutput
import SagePTE.Tracer.Segments
import SagePTE.Tracer.ReadBack
import SagePTE.Tracer.RawRun
import SagePTE.Tracer.RoundTrip
import SagePTE.Lib.Linked
import SagePTE.Lib.MoveToFront
import SagePTE.Lib.Tally
import SagePTE.Tools.LineRefList
import SagePTE.Tools.SkipList
import SagePTE.Tools.Layout
import SagePTE.Tools.FrontMoves
import SagePTE.Tools.LineHistory
import SagePTE.Tools.ReuseDistance
