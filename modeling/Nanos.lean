import Nanos.ColorTree
import Nanos.NodeHeap
import Nanos.Rbtree
import Nanos.RbtreeShape
import Nanos.RbtreeInsert
import Nanos.RbtreeRemove
import Nanos.RbtreeRefinement
import Nanos.RbtreeRemoveRefinement
import Nanos.RbtreeInsertRefinement
import Nanos.RbtreeRun
import Nanos.RbtreeNav
import Nanos.Intervals
import Nanos.Rangemap
import Nanos.RangemapMerge
import Nanos.RangemapInsert
import Nanos.WordBits
import Nanos.Bitmap
import Nanos.Json
import Nanos.JsonText
import Nanos.Transition
import Nanos.Timers
import Nanos.Blockqs
import Nanos.Mcaches
import Nanos.Linked
import Nanos.Objcaches
import Nanos.ObjcachesInv
import Nanos.Pageheap
import Nanos.PageheapFree
import Nanos.RangemapLookup
import Nanos.IdHeap
import Nanos.IdHeapInv
import Nanos.IdHeapGte
import Nanos.TfsStorage
import Nanos.Pipes
import Nanos.Rtc
import Nanos.VmapPlacement
import Nanos.TupleEncoding
import Nanos.Futex
import Nanos.Pqueue
import Nanos.Circular
import Nanos.Ringbuf
import Nanos.AssocMap
import Nanos.Table
import Nanos.Memory
import Nanos.Sg
import Nanos.Utf8
import Nanos.TupleParser
import Nanos.TupleManifest
import Nanos.HeapOrder
import Nanos.PqueueHeap
import Nanos.IndexDict
import Nanos.TupleCodec
import Nanos.TupleCodecSim
import Nanos.TupleRoundTrip
import Nanos.Tlog
import Nanos.TlogFrames
import Nanos.TlogInvariant
import Nanos.TlogRoundTrip
