import Camio.Blob.Assigned
import Camio.Blob.Istream
import Camio.Blob.Loop
import Camio.Blob.Once
import Camio.Blob.Ostream
import Camio.Blob.WriteSize
import Camio.Cat.BlobFiles
import Camio.Cat.Entries
import Camio.Cat.LogFiles
import Camio.Cat.Main
import Camio.Cat.Merge
import Camio.Cat.Order
import Camio.Cat.Outputs
import Camio.Cat.Select
import Camio.Dag.Advance
import Camio.Dag.Fifo
import Camio.Dag.Istream
import Camio.Dag.NextRecord
import Camio.Dag.Stream
import Camio.Datagram.Address
import Camio.Datagram.Delivery
import Camio.Datagram.Drained
import Camio.Datagram.Istream
import Camio.Datagram.Link
import Camio.Datagram.Ostream
import Camio.Datagram.Split
import Camio.Descr.Acceptance
import Camio.Descr.Grammar
import Camio.Descr.Parse
import Camio.Descr.Roundtrip
import Camio.Erf.Dag
import Camio.Erf.Exa
import Camio.Erf.Record
import Camio.Errors
import Camio.Errors.Report
import Camio.Istreams.Stable
import Camio.Lib.Assign
import Camio.Lib.Blocks
import Camio.Lib.ByteMem
import Camio.Lib.ByteOrder
import Camio.Lib.CStr
import Camio.Lib.Circular
import Camio.Lib.Double
import Camio.Lib.Except
import Camio.Lib.Exchange
import Camio.Lib.Fd
import Camio.Lib.Getopt
import Camio.Lib.Heap
import Camio.Lib.Local
import Camio.Lib.Loop
import Camio.Lib.Pace
import Camio.Lib.Printf
import Camio.Lib.Run
import Camio.Lib.Service
import Camio.Lib.SlotMap
import Camio.Lib.Socket
import Camio.Lib.View
import Camio.Lib.Window
import Camio.Lib.Wrapped
import Camio.Log.Assigned
import Camio.Log.Bounds
import Camio.Log.Buffer
import Camio.Log.Chunking
import Camio.Log.Completeness
import Camio.Log.Escape
import Camio.Log.Frame
import Camio.Log.Framing
import Camio.Log.Growth
import Camio.Log.Istream
import Camio.Log.Line
import Camio.Log.Lossless
import Camio.Log.Ostream
import Camio.Log.Regular
import Camio.Log.Reversal
import Camio.Log.Roundtrip
import Camio.Log.ShortWrite
import Camio.Log.System
import Camio.Log.Text
import Camio.Log.Unescape
import Camio.Netmap.Batching
import Camio.Netmap.Bridge
import Camio.Netmap.Buffers
import Camio.Netmap.Card
import Camio.Netmap.Commit
import Camio.Netmap.Forward
import Camio.Netmap.InOrder
import Camio.Netmap.Istream
import Camio.Netmap.Ostream
import Camio.Netmap.Ring
import Camio.Netmap.Stalled
import Camio.Netmap.Unsynced
import Camio.Options.Argument
import Camio.Options.Flags
import Camio.Options.Lines
import Camio.Options.Numbers
import Camio.Options.Parse
import Camio.Options.Shares
import Camio.Options.Supplied
import Camio.Ostreams.Assigned
import Camio.Parsing.Acceptance
import Camio.Parsing.Fractions
import Camio.Parsing.Number
import Camio.Parsing.Numeral
import Camio.Parsing.Reading
import Camio.Parsing.Rendering
import Camio.Parsing.Scanner
import Camio.Parsing.Shape
import Camio.Parsing.Utils
import Camio.Parsing.Value
import Camio.Parsing.Whitespace
import Camio.Ring.Assigned
import Camio.Ring.Broadcast
import Camio.Ring.Capacity
import Camio.Ring.Drained
import Camio.Ring.Fifo
import Camio.Ring.Invariant
import Camio.Ring.Istream
import Camio.Ring.Mirror
import Camio.Ring.Ostream
import Camio.Ring.Overrun
import Camio.Ring.Reopen
import Camio.Ring.Session
import Camio.Ring.Slot
import Camio.Ring.StableRead
import Camio.Ring.System
import Camio.Selector.Accounting
import Camio.Selector.Agreement
import Camio.Selector.Fairness
import Camio.Selector.MapView
import Camio.Selector.Rotation
import Camio.Selector.Selectors
import Camio.Selector.System
import Camio.Timeout.Fast
import Camio.Timeout.Periodic
import Camio.Timeout.Spacing
import Camio.Timeout.Spec
import Camio.Types.Lists
