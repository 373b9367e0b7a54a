import PimLibrary.Schemes.Word
import PimLibrary.Schemes.Float
import PimLibrary.Schemes.FloatDiv
import PimLibrary.Schemes.Loop
import PimLibrary.Schemes.Digits
import PimLibrary.Schemes.Scatter
import PimLibrary.Schemes.Memo
import PimLibrary.Schemes.Lockstep
import PimLibrary.Schemes.Interleave
import PimLibrary.Schemes.SharedMemory
import PimLibrary.Schemes.Trace
import PimLibrary.Schemes.Log
import PimLibrary.Schemes.OrdMap
import PimLibrary.Schemes.Tiling
import PimLibrary.Schemes.TwoSlots
import PimLibrary.Schemes.BitFields
import PimLibrary.Schemes.Compaction
import PimLibrary.Schemes.Pick
import PimLibrary.Device.PimInfo
import PimLibrary.Device.AddrMap
import PimLibrary.Device.AddressMapping
import PimLibrary.Device.GemmDesc
import PimLibrary.Device.GemmShape
import PimLibrary.Device.EltDesc
import PimLibrary.Device.EltShape
import PimLibrary.Device.BoSize
import PimLibrary.Layout.HostSpec
import PimLibrary.Layout.Bijection
import PimLibrary.Layout.ChwiseCover
import PimLibrary.Layout.DeviceConvert
import PimLibrary.Layout.SizedWeight
import PimLibrary.Layout.DeviceIndex
import PimLibrary.Layout.DeviceAgree
import PimLibrary.Runtime.WeightCache
import PimLibrary.Runtime.HostPreload
import PimLibrary.Runtime.DevicePreload
import PimLibrary.Runtime.Ownership
import PimLibrary.Runtime.PreloadFaults
import PimLibrary.Manager.SimpleHeap
import PimLibrary.Manager.HeapInvariant
import PimLibrary.Manager.HeapAlloc
import PimLibrary.Manager.HeapFree
import PimLibrary.Manager.HeapRuns
import PimLibrary.Manager.HeapErrors
import PimLibrary.Manager.BlockAllocator
import PimLibrary.Manager.DeviceEnum
import PimLibrary.Runtime.MemoryApi
import PimLibrary.Emulator.GemmBiasAct
import PimLibrary.Emulator.TraceCoalescer
import PimLibrary.Emulator.CoalescedWrites
import PimLibrary.Emulator.TraceCompaction
import PimLibrary.Kernel.Cmd
import PimLibrary.Kernel.TileAccounting
import PimLibrary.Kernel.ChwiseTiling
import PimLibrary.Kernel.ReadStep
import PimLibrary.Kernel.ReadOrder
import PimLibrary.Kernel.ChwiseReadOrder
import PimLibrary.Kernel.PartialSums
import PimLibrary.Kernel.ChwiseOutputs
import PimLibrary.Kernel.Epilogue
import PimLibrary.Kernel.PaddedEpilogue
import PimLibrary.Kernel.Sessions
import PimLibrary.Kernel.Transactions
import PimLibrary.Kernel.OclGemm
import PimLibrary.Kernel.OclTransactions
import PimLibrary.Kernel.OclAgree
import PimLibrary.Kernel.EltOp
import PimLibrary.Kernel.Unrolled
import PimLibrary.Program.PimCommand
import PimLibrary.Program.Encoding
import PimLibrary.Program.PimUnit
import PimLibrary.Program.EltLockstep
import PimLibrary.Program.GemvLockstep
import PimLibrary.Program.CrfCache
import PimLibrary.Program.SrfPacking
import PimLibrary.Program.DataPath
import PimLibrary.Program.MacPath
import PimLibrary.Program.Stays
import PimLibrary.Executor.GemmDispatch
import PimLibrary.Executor.LoopCount
import PimLibrary.Executor.EltTiles
import PimLibrary.Executor.EltCover
import PimLibrary.Executor.EltData
import PimLibrary.Executor.EltResults
import PimLibrary.Executor.GemmData
import PimLibrary.Executor.GemmRuns
import PimLibrary.Executor.GemmResults
import PimLibrary.Executor.GemmProduct
import PimLibrary.Executor.OperandSwap
import PimLibrary.Gpu.Reduction
import PimLibrary.Gpu.Schedules
import PimLibrary.Gpu.Entries
import PimLibrary.Gpu.ExactSum
import PimLibrary.Gpu.CustomGemv
import PimLibrary.Gpu.Product
import PimLibrary.Gpu.Panels
import PimLibrary.Gpu.GemvCalls
import PimLibrary.Crfgen.PimCmd
import PimLibrary.Crfgen.Validation
import PimLibrary.Crfgen.Verdict
import PimLibrary.Crfgen.Restriction
import PimLibrary.Crfgen.HazardScan
import PimLibrary.Crfgen.HazardRuns
import PimLibrary.Crfgen.Accesses
