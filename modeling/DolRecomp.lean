import DolRecomp.Decoder
import DolRecomp.DolIR
import DolRecomp.Cpu
import DolRecomp.Semantics
import DolRecomp.Builder
import DolRecomp.Lowering
import DolRecomp.Run
import DolRecomp.Emitter
import DolRecomp.Commit
import DolRecomp.Words
import DolRecomp.IntegerAgreement
import DolRecomp.ConditionAgreement
import DolRecomp.Block
import DolRecomp.Agreement
import DolRecomp.BranchAgreement
import DolRecomp.Threads
import DolRecomp.NativeTable
import DolRecomp.NativeLookup
import DolRecomp.Validation
import DolRecomp.ValidationCounter
import DolRecomp.RegionAvailable
import DolRecomp.ValidationProtocol
import DolRecomp.Worklist
import DolRecomp.AbiPropagation
import DolRecomp.NativeState
import DolRecomp.NativeRun
import DolRecomp.Sweep
import DolRecomp.AbiLiveness
import DolRecomp.AddressAnalysis
import DolRecomp.AddressValues
import DolRecomp.AddressSoundness
import DolRecomp.BuilderLogic
import DolRecomp.LoweringSpecs
import DolRecomp.WellFormed
import DolRecomp.CFunctionCFG
import DolRecomp.OutlinedLoops
import DolRecomp.CycleAccounting
import DolRecomp.BudgetGuards
import DolRecomp.RegionLeaders
import DolRecomp.FloatMoveAgreement
import DolRecomp.RelocationOrder
import DolRecomp.RelocatedBranches
import DolRecomp.Reservation
import DolRecomp.CallsiteDirty
import DolRecomp.CrossChunkCalls
import DolRecomp.PcMaterialisation
import DolRecomp.CheckedBytes
import DolRecomp.Alignment
import DolRecomp.Bisection
import DolRecomp.LevelClosure
import DolRecomp.ParallelJobs
import DolRecomp.ForkedJobs
import DolRecomp.RelLoader
import DolRecomp.RelDirectory
import DolRecomp.RpxLoader
import DolRecomp.EntryPoints
import DolRecomp.LlvmRanges
import DolRecomp.RangeLookup
import DolRecomp.RangeSelection
import DolRecomp.FpscrSummary
import DolRecomp.FpHelpers
import DolRecomp.FpscrWriters
import DolRecomp.RoundingFields
import DolRecomp.StickyBits
import DolRecomp.SingleConversion
import DolRecomp.NativeResults
import DolRecomp.PackedViews
import DolRecomp.FstExtraction
import DolRecomp.PathContainment
import DolRecomp.SymbolClashes
import DolRecomp.SmcTargets
import DolRecomp.KnownRegisters
import DolRecomp.DolFileSize
import DolRecomp.ExceptionReturn
import DolRecomp.ModuleSelection
import DolRecomp.SmcRanges
import DolRecomp.Estimates
import DolRecomp.PairedTransfers
import DolRecomp.SymbolMap
import DolRecomp.IdentifierTable
import DolRecomp.MultiplierPrecision
import DolRecomp.QuantizedStores
import DolRecomp.BackendRuns
import DolRecomp.NativeInterface
import DolRecomp.DefinedValues
import DolRecomp.QuantizedRoundTrip
import DolRecomp.PatchLoading
import DolRecomp.PartitionPoints
