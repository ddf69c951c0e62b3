import Ulog.Foundation.ByteMemory
import Ulog.Foundation.Escaping
import Ulog.Foundation.Machine
import Ulog.Foundation.Queue
import Ulog.Record.Layout
import Ulog.Record.Writer
import Ulog.Record.View
import Ulog.Record.Building
import Ulog.Record.RoundTrip
import Ulog.Encoding.Raw
import Ulog.Encoding.Decode
import Ulog.Credit.Ledger
import Ulog.Credit.Conservation
import Ulog.Producer.Lanes
import Ulog.Producer.Kernel
import Ulog.Producer.Invariant
import Ulog.Producer.Effects
import Ulog.Producer.Publishing
import Ulog.Producer.Consuming
import Ulog.Producer.Fifo
import Ulog.Route.Delivery
import Ulog.Sink.FileSink
import Ulog.Sink.Invariant
import Ulog.Sink.WholeFrames
import Ulog.Producer.Retirement
import Ulog.Encoding.Reserve
import Ulog.Record.Truncation
import Ulog.Producer.Cells
import Ulog.Producer.Acceptance
import Ulog.Producer.Credit
import Ulog.Producer.Rejection
import Ulog.Producer.Books
import Ulog.Producer.Reclaim
import Ulog.Control.Ownership
import Ulog.Control.Steps
import Ulog.Control.Lifetime
import Ulog.Control.Callbacks
import Ulog.Control.Delivery
import Ulog.Control.Dispatch
import Ulog.Foundation.Utf8
import Ulog.Record.Message
import Ulog.Record.Extent
import Ulog.Producer.Ingress
import Ulog.Producer.Scanning
import Ulog.Sink.Ownership
import Ulog.Producer.Attempts
import Ulog.Foundation.Segments
import Ulog.Prototype.Storage
import Ulog.Prototype.Slot
import Ulog.Prototype.Views
import Ulog.Prototype.Refinement
import Ulog.Prototype.Benchmark
import Ulog.Foundation.Handles
import Ulog.Prototype.MpscFifo
import Ulog.Testing.Destination
import Ulog.Testing.Observation
import Ulog.Testing.EncodedDestination
import Ulog.Testing.Deliveries
import Ulog.Producer.Quiescence
import Ulog.Runtime.Config
import Ulog.Runtime.Route
import Ulog.Runtime.Domain
import Ulog.Runtime.Steps
import Ulog.Runtime.Stages
import Ulog.Runtime.Handoff
import Ulog.Producer.Handoff
import Ulog.Sink.Stream
import Ulog.Runtime.Shutdown
import Ulog.Runtime.Ledger
import Ulog.Runtime.Filed
import Ulog.Runtime.Retirement
import Ulog.Runtime.Outcomes
import Ulog.Runtime.Results
import Ulog.Runtime.Drains
import Ulog.Runtime.Stream
