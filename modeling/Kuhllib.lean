import Kuhllib.Lib.Transition
import Kuhllib.Container.IntrusiveList
import Kuhllib.Lib.Chain
import Kuhllib.StopToken.InPlaceRefinement
import Kuhllib.StopToken.StopRegistry
import Kuhllib.StopToken.InPlaceSimulation
import Kuhllib.StopToken.InPlaceDelivery
import Kuhllib.StopToken.InPlaceProgress
import Kuhllib.Execution.RepeatEffectUntil
import Kuhllib.File.AsyncIo
import Kuhllib.Execution.WhenAll
import Kuhllib.Execution.StopLifetime
import Kuhllib.File.PollContext
import Kuhllib.Lib.Ledger
import Kuhllib.File.PollLedger
import Kuhllib.Execution.Lifetime
import Kuhllib.Execution.LifetimeInvariant
import Kuhllib.Execution.LifetimeSafety
import Kuhllib.Execution.RunLoop
import Kuhllib.Execution.RunLoopWakeup
import Kuhllib.StopToken.StopState
import Kuhllib.StopToken.StopStateDelivery
import Kuhllib.StopToken.StopStateProgress
import Kuhllib.StopToken.InPlaceDestruction
import Kuhllib.Execution.TimeoutCompletion
import Kuhllib.File.Context
import Kuhllib.File.RingContext
import Kuhllib.Executor.ExecutionContext
import Kuhllib.File.ObserverContext
import Kuhllib.Heap.DHeap
import Kuhllib.Lib.HandleQueue
import Kuhllib.Execution.CompletionSignatures
import Kuhllib.Cxxrt.NumGet
import Kuhllib.Cxxrt.IntegerGrammar
import Kuhllib.Cxxrt.IntegerInput
import Kuhllib.Cxxrt.NumPut
import Kuhllib.Cxxrt.IntegerRoundTrip
import Kuhllib.Heap.RadixHeap
import Kuhllib.Lib.RangePartition
import Kuhllib.QuickerSorting.Small
import Kuhllib.QuickerSorting.MonitorSwaps
import Kuhllib.QuickerSorting.Policies
import Kuhllib.QuickerSorting.IntQuicksorts
import Kuhllib.QuickerSorting.FatQuicksort
import Kuhllib.QuickerSorting.InsertionQuicksorts
import Kuhllib.Heap.PairingHeap
import Kuhllib.Lib.RankForest
import Kuhllib.Heap.FibonacciHeap
import Kuhllib.Heap.LazyFibonacciHeap
import Kuhllib.Cxxrt.Ios
import Kuhllib.Cxxrt.Streambuf
import Kuhllib.Cxxrt.Stringbuf
import Kuhllib.Cxxrt.IntegerStreams
import Kuhllib.Cxxrt.Locale
import Kuhllib.Cxxrt.LocaleLookup
import Kuhllib.Cxxrt.LocaleCounts
import Kuhllib.Cxxrt.LocaleCache
import Kuhllib.Container.IntrusiveListMoves
import Kuhllib.Thread.SyncWait
import Kuhllib.File.PollShape
import Kuhllib.File.PollCancel
import Kuhllib.File.PollResults
import Kuhllib.File.PollTimers
import Kuhllib.Execution.StartDetached
import Kuhllib.Execution.Let
import Kuhllib.Execution.RepeatStorage
import Kuhllib.Execution.RepeatHandover
import Kuhllib.Heap.SplayHeap
import Kuhllib.File.PollTimeout
import Kuhllib.Net.Transfer
import Kuhllib.Net.Endpoint
import Kuhllib.Algorithm.Search
import Kuhllib.Heap.DHeapChanges
import Kuhllib.Heap.PriorityQueue
import Kuhllib.Heap.SplayChangeTop
import Kuhllib.Heap.SplayIteration
import Kuhllib.Heap.FibonacciIteration
import Kuhllib.Heap.Removal
import Kuhllib.Heap.RadixIteration
import Kuhllib.Cxxrt.NumPutPadding
import Kuhllib.Cxxrt.NumPutGrouping
import Kuhllib.Cxxrt.BufferIterators
import Kuhllib.Cxxrt.Sinks
import Kuhllib.Cxxrt.OstreamInserters
import Kuhllib.Cxxrt.BlockTransfer
import Kuhllib.Cxxrt.Sources
import Kuhllib.Cxxrt.Istream
import Kuhllib.Cxxrt.StreambufCopies
import Kuhllib.Cxxrt.StreambufExtraction
import Kuhllib.Cxxrt.LineInput
import Kuhllib.Cxxrt.Getline
import Kuhllib.Cxxrt.Ignoring
import Kuhllib.Cxxrt.Gcount
import Kuhllib.Cxxrt.StringExtraction
import Kuhllib.Cxxrt.StringLines
import Kuhllib.Cxxrt.IntegerTargets
import Kuhllib.Cxxrt.BoolNames
import Kuhllib.Lib.Supply
import Kuhllib.Cxxrt.WideCodecvt
import Kuhllib.Cxxrt.ScanTable
import Kuhllib.Cxxrt.Callbacks
import Kuhllib.Cxxrt.Copyfmt
import Kuhllib.Cxxrt.Strstreambuf
import Kuhllib.Cxxrt.SegmentIteration
import Kuhllib.Cxxrt.Fixedbuf
import Kuhllib.Lib.Lexer
import Kuhllib.Lib.Decimal
import Kuhllib.Cxxrt.FloatLiteral
import Kuhllib.Cxxrt.FloatInput
import Kuhllib.Cxxrt.FloatReading
import Kuhllib.Lib.FibonacciForest
import Kuhllib.Heap.FibonacciRank
import Kuhllib.Lib.FirstOccurrences
import Kuhllib.Execution.SignatureUnion
import Kuhllib.Cxxrt.DefaultAllocRuns
import Kuhllib.Cxxrt.BasicStringRuns
import Kuhllib.Toy.IoUring
import Kuhllib.Toy.PollContextRuns
import Kuhllib.QuickerSorting.DemoSorts
