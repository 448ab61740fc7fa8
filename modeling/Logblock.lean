import Logblock.Loop
import Logblock.OrderedMap
import Logblock.Runs
import Logblock.Bits
import Logblock.ExtentRangeMap
import Logblock.BitmapRangeMap
import Logblock.RangeMapEquivalence
import Logblock.Bytes
import Logblock.Stream
import Logblock.SizeString
import Logblock.Proto
import Logblock.WalFormat
import Logblock.WalRead
import Logblock.WalWriter
import Logblock.WalReader
import Logblock.WalScan
import Logblock.WalReplay
import Logblock.WalTrim
import Logblock.WalTorn
import Logblock.WalFailure
import Logblock.WalFooter
import Logblock.WalClosed
import Logblock.WalCorrupt
import Logblock.Transition
import Logblock.WalConcurrent
import Logblock.BlockReader
import Logblock.StackedReader
import Logblock.BlockMap
import Logblock.BlockMapHistory
import Logblock.SparseFormat
import Logblock.SparseIndex
import Logblock.SparseRead
import Logblock.SparseBuild
import Logblock.SparseTable
import Logblock.SparseSizes
import Logblock.BuildFromReader
import Logblock.SparseSafety
import Logblock.Adaptor
import Logblock.Metadata
import Logblock.LogTracker
import Logblock.BlockLog
import Logblock.BlockOptions
import Logblock.TrackerReader
import Logblock.ExtentTree
import Logblock.OneRunner
import Logblock.WaitBarrier
import Logblock.WalEntry
import Logblock.Device
import Logblock.DeviceContent
import Logblock.DeviceEnd
import Logblock.FileNames
import Logblock.Volume
import Logblock.VolumeInvariant
import Logblock.VolumeIndex
import Logblock.VolumeNames
import Logblock.VolumeReopen
import Logblock.TrackerWriter
import Logblock.TrackerWriterFlush
import Logblock.DeviceReads
import Logblock.Compaction
import Logblock.DeviceTables
