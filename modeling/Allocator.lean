import Allocator.Memory
import Allocator.Block
import Allocator.Arena
import Allocator.Heap.Error
import Allocator.Heap.Config
import Allocator.Heap.Basic
import Allocator.Heap.FreeList
import Allocator.Heap.Request
import Allocator.Heap.Walk
import Allocator.Heap.Check
import Allocator.Heap.Setup
import Allocator.Heap.Session
import Allocator.Text.Hex
import Allocator.Decimal.Binary64
import Allocator.Decimal.Shortest
import Allocator.Text.Blank
import Allocator.Text.Extender
import Allocator.Text.Printable
import Allocator.Text.Quote
import Allocator.Trace.Basic
import Allocator.Trace.Error
import Allocator.Trace.Reader
import Allocator.Trace.Replay
import Allocator.Workload
import Allocator.Shadow
import Allocator.Proofs.Bytes
import Allocator.Proofs.Run
import Allocator.Proofs.Layout
import Allocator.Proofs.FreeChain
import Allocator.Proofs.Coalesce
import Allocator.Proofs.Split
import Allocator.Proofs.Grow
import Allocator.Proofs.Acquire
import Allocator.Proofs.Resize
import Allocator.Proofs.Init
import Allocator.Proofs.Runs
import Allocator.Proofs.Refusal
import Allocator.Proofs.TraceText
import Allocator.Proofs.BestFit
import Allocator.Proofs.ResizeOrder
import Allocator.Proofs.Check
import Allocator.Proofs.Rejection
import Allocator.Proofs.Holding
import Allocator.Proofs.Replay
import Allocator.Proofs.Payload
import Allocator.Proofs.Shadow
import Allocator.Proofs.Statistics
import Allocator.Proofs.Release
import Allocator.Proofs.Reuse
import Allocator.Proofs.ReleaseOrder
import Allocator.Proofs.Tiling
import Allocator.Proofs.Verdict
import Allocator.Proofs.Strides
import Allocator.Proofs.Numeric
import Allocator.Proofs.TraceLines
import Allocator.Proofs.TraceStream
import Allocator.Proofs.ArenaRuns
import Allocator.Proofs.Break
import Allocator.Proofs.Ratio
import Allocator.Proofs.Report
import Allocator.Proofs.Workloads
import Allocator.Proofs.Threading
import Allocator.Proofs.Codec
