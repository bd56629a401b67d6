import ByteSlice.AvxUtility
import ByteSlice.Foundation.BitWords
import ByteSlice.BitVectorBlock
import ByteSlice.ClearTail
import ByteSlice.BitVector
import ByteSlice.BitVectorSets
import ByteSlice.ByteSliceColumnBlock
import ByteSlice.ByteSliceScan
import ByteSlice.EarlyStop
import ByteSlice.PaddingBits
import ByteSlice.PadLeft
import ByteSlice.NaiveColumnBlock
import ByteSlice.ColumnBlock
import ByteSlice.Foundation.Blocks
import ByteSlice.Column
import ByteSlice.ColumnArray
import ByteSlice.BlockLoops
import ByteSlice.Foundation.DecimalText
import ByteSlice.ColumnText
import ByteSlice.Foundation.WorkSharing
import ByteSlice.ParallelLoops
import ByteSlice.ScanLiteral
import ByteSlice.ColumnResize
import ByteSlice.ColumnRuns
import ByteSlice.ResizeSafety
import ByteSlice.ColumnCapacity
import ByteSlice.BlockInvariants
import ByteSlice.ScanFootprint
import ByteSlice.QueryFootprint
import ByteSlice.UnwrittenTuples
import ByteSlice.BitVectorIterator
import ByteSlice.Foundation.WordSweep
import ByteSlice.IteratorUpdates
import ByteSlice.QueryLaw
import ByteSlice.ConjunctionFootprint
import ByteSlice.Foundation.LoopFusion
import ByteSlice.QueryBlocks
import ByteSlice.Foundation.ForkJoin
import ByteSlice.ParallelQuery
import ByteSlice.Interchange
import ByteSlice.Foundation.ByteCodec
import ByteSlice.SequentialBinaryFile
import ByteSlice.FileProtocol
import ByteSlice.Serialization
import ByteSlice.Foundation.Overlay
import ByteSlice.UncheckedRead
import ByteSlice.TornWrite
import ByteSlice.RestoredRuns
