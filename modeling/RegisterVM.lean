import RegisterVM.Main
import RegisterVM.Instruction.Assembler
import RegisterVM.Telemetry.Collector
import RegisterVM.Proofs.Bytes
import RegisterVM.Proofs.Codec
import RegisterVM.Proofs.MemoryLayout
import RegisterVM.Proofs.ReadAhead
import RegisterVM.Proofs.Fetch
import RegisterVM.Proofs.Step
import RegisterVM.Proofs.HostHistory
import RegisterVM.Proofs.CacheTransparency
import RegisterVM.Proofs.CheckedDecode
import RegisterVM.Proofs.RoundTrip
import RegisterVM.Proofs.FaultAtomicity
import RegisterVM.Proofs.CheckedFetch
import RegisterVM.Proofs.CheckedFrames
import RegisterVM.Proofs.Handlers
import RegisterVM.Proofs.CheckedExecute
import RegisterVM.Proofs.CheckedRun
import RegisterVM.Proofs.CompletedStep
import RegisterVM.Proofs.CallFrames
import RegisterVM.Proofs.MemoryBytes
import RegisterVM.Proofs.Interleaving
import RegisterVM.Proofs.AtomicUpdates
import RegisterVM.Proofs.FetchLocality
import RegisterVM.Proofs.Ownership
import RegisterVM.Proofs.Scheduling
import RegisterVM.Proofs.Encoding
import RegisterVM.Proofs.Assembly
import RegisterVM.Proofs.AssembledCode
import RegisterVM.Proofs.ReadBack
import RegisterVM.Proofs.MemoryMap
import RegisterVM.Proofs.Segments
import RegisterVM.Proofs.DebugTables
import RegisterVM.Proofs.ByteAccess
import RegisterVM.Proofs.LibraryWindow
import RegisterVM.Proofs.HeaderCache
import RegisterVM.Proofs.SharedHeaders
import RegisterVM.Proofs.EntryCodec
import RegisterVM.Proofs.PackedFrames
import RegisterVM.Proofs.LibraryStore
import RegisterVM.Proofs.Transactions
import RegisterVM.Proofs.SelfDelimiting
import RegisterVM.Proofs.ImportedLibraries
import RegisterVM.Proofs.FirstFailure
import RegisterVM.Proofs.WorkerGroup
import RegisterVM.Proofs.EventCounts
import RegisterVM.Proofs.EventAccounting
import RegisterVM.Proofs.Cancellation
import RegisterVM.Proofs.StreamReads
import RegisterVM.Proofs.StoredText
import RegisterVM.Proofs.TextRoundTrip
import RegisterVM.Proofs.IntegerArithmetic
import RegisterVM.Proofs.TypedAccess
import RegisterVM.Proofs.CallConvention
import RegisterVM.Proofs.DigestText
import RegisterVM.Proofs.EntryRoundTrip
import RegisterVM.Proofs.HeaderNames
import RegisterVM.Proofs.FetchFaults
import RegisterVM.Proofs.ZeroRegister
import RegisterVM.Proofs.ReadablePrefix
import RegisterVM.Proofs.NumberOrder
import RegisterVM.Proofs.HistogramCounts
import RegisterVM.Proofs.RepeatedFinish
import RegisterVM.Proofs.FilePaths
import RegisterVM.Proofs.LibraryDirectory
import RegisterVM.Proofs.WorkersReturn
import RegisterVM.Proofs.CheckedFrames
import RegisterVM.Proofs.Handlers
