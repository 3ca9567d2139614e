import Beignet.Lib.Aligned
import Beignet.Lib.BitFields
import Beignet.Lib.Buffer
import Beignet.Lib.Bytes
import Beignet.Lib.DepthFirst
import Beignet.Lib.DoublyLinked
import Beignet.Lib.Fields
import Beignet.Lib.Footprint
import Beignet.Lib.Iterate
import Beignet.Lib.Layout
import Beignet.Lib.Lists
import Beignet.Lib.Memory
import Beignet.Lib.Precedence
import Beignet.Lib.RestoringDivision
import Beignet.Lib.Rounding
import Beignet.Lib.Saturate
import Beignet.Lib.Serial
import Beignet.Lib.Simd
import Beignet.Lib.SingleFloat
import Beignet.Lib.SortedMap
import Beignet.Lib.Slots
import Beignet.Lib.Sorting
import Beignet.Lib.SplitWord
import Beignet.Lib.Tiling
import Beignet.Lib.Transition
import Beignet.Backend.SimpleAllocator
import Beignet.Backend.AllocatorLinks
import Beignet.Backend.AllocatorInvariant
import Beignet.Backend.RegAllocation
import Beignet.Backend.LinearScan
import Beignet.Backend.RegisterMaps
import Beignet.Backend.ReverseMap
import Beignet.Backend.IntervalStore
import Beignet.Backend.ScratchSlots
import Beignet.Backend.FlagAllocation
import Beignet.Backend.Selection
import Beignet.Backend.Scheduling
import Beignet.Backend.DependencyDag
import Beignet.Backend.ListScheduling
import Beignet.Backend.Reordering
import Beignet.Backend.Linearize
import Beignet.Backend.JoinPoints
import Beignet.Backend.SimdPaths
import Beignet.Backend.MaximalMunch
import Beignet.Backend.MunchCorrect
import Beignet.Backend.MergedSources
import Beignet.Backend.HolePool
import Beignet.Backend.ImmediateFold
import Beignet.Backend.MulHigh
import Beignet.Backend.MulHighGen7
import Beignet.Backend.MulHighExact
import Beignet.Backend.LongCode
import Beignet.Backend.LongArith
import Beignet.Backend.LongSaturate
import Beignet.Backend.HalvingAdd
import Beignet.Backend.LongDivision
import Beignet.Backend.MadSat
import Beignet.Backend.MadSatGen8
import Beignet.Backend.LongToFloat
import Beignet.Backend.Compaction
import Beignet.Backend.CompactionRoundTrip
import Beignet.Backend.CompactionExact
import Beignet.Backend.CompactionTables
import Beignet.Backend.PatchBranches
import Beignet.Backend.PatchedTargets
import Beignet.Backend.PatchedStore
import Beignet.Backend.ProgramBinary
import Beignet.Backend.ProgramRoundTrip
import Beignet.Backend.ReloadedProgram
import Beignet.Ir.Function
import Beignet.Ir.Liveness
import Beignet.Ir.LoopLiveness
import Beignet.Ir.Value
import Beignet.Ir.Reaching
import Beignet.Ir.Chains
import Beignet.Ir.Interfere
import Beignet.Ir.IndirectRead
import Beignet.Ir.Immediate
import Beignet.Ir.ScalarFold
import Beignet.Ir.StructurizerQuotient
import Beignet.Ir.ImmediateArray
import Beignet.Runtime.Event
import Beignet.Runtime.EventTimestamps
import Beignet.Runtime.CommandQueue
import Beignet.Runtime.Dependencies
import Beignet.Runtime.InOrder
import Beignet.Runtime.AsyncCopy
import Beignet.Runtime.BindingTable
import Beignet.Runtime.LocalIds
import Beignet.Runtime.BufferBounds
import Beignet.Runtime.CopyBuffer
import Beignet.Runtime.CopyItems
import Beignet.Runtime.CopyKernels
import Beignet.Runtime.DeviceEnqueue
import Beignet.Runtime.ConstantBuffer
import Beignet.Runtime.CopyOverlap
import Beignet.Runtime.CopyRect
import Beignet.Runtime.FillBuffer
import Beignet.Runtime.ImageDescriptors
import Beignet.Runtime.KernelDup
import Beignet.Runtime.KernelNames
import Beignet.Runtime.LocalMemory
import Beignet.Runtime.MappedTable
import Beignet.Runtime.NDRange
import Beignet.Runtime.NDRangeBoxes
import Beignet.Runtime.Pipe
import Beignet.Runtime.PipeWriters
import Beignet.Runtime.PipeReservations
import Beignet.Runtime.ProgramBuild
import Beignet.Runtime.RectTransfer
import Beignet.Runtime.SubBuffers
import Beignet.Runtime.SvmCopy
import Beignet.Runtime.Ownership
import Beignet.Ir.Printf
import Beignet.Llvm.LoadStoreCorrect
import Beignet.Llvm.PrintfParser
import Beignet.Llvm.PrintfGrammar
import Beignet.Llvm.PrintfOutput
import Beignet.Llvm.PrintfScanner
import Beignet.Llvm.BinaryOperator
import Beignet.Llvm.SortBasicBlock
import Beignet.Llvm.RemoveMovs
import Beignet.Llvm.RemoveLoadis
import Beignet.Backend.Printf
import Beignet.Backend.PrintfRecord
import Beignet.Backend.PrintfRun
import Beignet.Backend.LongLogic
import Beignet.Backend.BuildJIPs
import Beignet.Lib.CopyLoop
import Beignet.Lib.Writes
import Beignet.Llvm.MemIntrinsics
import Beignet.Backend.DynamicBti
import Beignet.Llvm.TypeLayout
import Beignet.Llvm.RemoveGEP
import Beignet.Backend.PrivateStack
import Beignet.Backend.GrowingPool
import Beignet.Backend.LoadMessages
import Beignet.Backend.Loads
import Beignet.Backend.SplitAlu
import Beignet.Backend.NativeEncoding
import Beignet.Backend.StoreMessages
import Beignet.Backend.Stores
