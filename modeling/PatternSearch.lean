import PatternSearch.SortedLists
import PatternSearch.CoverBound
import PatternSearch.Bucketing
import PatternSearch.WordBits
import PatternSearch.Loops
import PatternSearch.KeyRuns
import PatternSearch.Csr
import PatternSearch.Transpose
import PatternSearch.IdAssignment
import PatternSearch.BruteForce
import PatternSearch.Kernels
import PatternSearch.Setup
import PatternSearch.ByPatchRun
import PatternSearch.Shards
import PatternSearch.ByElement
import PatternSearch.ElementSetup
import PatternSearch.Incidence
import PatternSearch.ByElementRun
import PatternSearch.Selector
import PatternSearch.CoverGuarantees
import PatternSearch.Refinement
import PatternSearch.Relabelling
import PatternSearch.WireGuard
import PatternSearch.Redistribution
import PatternSearch.KeyedReduction
import PatternSearch.PatternStats
import PatternSearch.TopK
import PatternSearch.StatsStages
import PatternSearch.StatsRouting
import PatternSearch.StatsRun
import PatternSearch.StatTable
import PatternSearch.StatsCorrect
import PatternSearch.Truncation
import PatternSearch.Bytes
import PatternSearch.FileStream
import PatternSearch.PatchFile
import PatternSearch.PatchFileRead
import PatternSearch.PatchFileWrite
import PatternSearch.PatchFileCorrupt
import PatternSearch.InputSlices
import PatternSearch.ParallelFile
import PatternSearch.ParallelFileRun
import PatternSearch.UniqueHashes
import PatternSearch.ByPatchInvariant
import PatternSearch.ByElementInvariant
import PatternSearch.TwoRuns
import PatternSearch.Methods
import PatternSearch.SelectorObject
import PatternSearch.AnyDevice
import PatternSearch.SelectorReuse
import PatternSearch.Spmd
import PatternSearch.RankCalls
import PatternSearch.RankPrograms
import PatternSearch.LockStep
import PatternSearch.LockStepRun
import PatternSearch.BlindBatches
import PatternSearch.IncidenceSharding
import PatternSearch.IndexPasses
import PatternSearch.RegularSampling
import PatternSearch.SampleSort
import PatternSearch.Pairing
import PatternSearch.OwnerRouting
import PatternSearch.SetBits
import PatternSearch.Bitset
import PatternSearch.Synthetic
import PatternSearch.TextNumbers
import PatternSearch.StatsFile
import PatternSearch.Interleaving
import PatternSearch.AnyOrder
import PatternSearch.StatsInStep
import PatternSearch.MalformedInput
import PatternSearch.FileJobs
import PatternSearch.FileStats
import PatternSearch.SharedFiles
import PatternSearch.Restriction
import PatternSearch.CallTraces
import PatternSearch.Traffic
import PatternSearch.FileUniques
import PatternSearch.Dumps
import PatternSearch.UniqueOwners
import PatternSearch.DeviceBuffer
import PatternSearch.BufferMemory
import PatternSearch.BufferValues
import PatternSearch.CommandLine
import PatternSearch.ParseArgs
import PatternSearch.Drivers
import PatternSearch.TornDumps
