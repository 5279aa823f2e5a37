import Allocator.Trace.Basic
import Allocator.Heap.Check

/-! The ways reading or replaying a trace fails. Every failure but an unreadable stream
names the line of the record where it happened. -/
namespace Allocator

/-- Why reading or replaying a trace stopped. -/
inductive TraceError where
  /-- A line of the stream is not valid UTF-8. -/
  | io
  /-- The line is not a request: `detail` says what is wrong. -/
  | malformed (line : Nat) (detail : String)
  /-- The request names an identifier that holds no block. -/
  | unknownId (line id : Nat)
  /-- The request acquires for an identifier that already holds a block. -/
  | liveId (line id : Nat)
  /-- The heap refused the request. -/
  | heap (line : Nat) (e : HeapError)
  /-- The heap broke a structural rule after the request. -/
  | inconsistent (line : Nat) (e : CheckError)
  /-- The block of the identifier no longer holds what was written into it. -/
  | corrupted (line id : Nat)
deriving Repr, DecidableEq

namespace TraceError

/-- The text of an unreadable stream's cause. -/
def invalidText : String := "stream did not contain valid UTF-8"

/-- The message of a failure. -/
def message : TraceError → String
  | .io => s!"I/O error: {invalidText}"
  | .malformed l d => s!"line {l}: malformed record: {d}"
  | .unknownId l id => s!"line {l}: id {id} is not live"
  | .liveId l id => s!"line {l}: id {id} is already live"
  | .heap l e => s!"line {l}: {e.message}"
  | .inconsistent l e => s!"line {l}: heap inconsistent: {e.message}"
  | .corrupted l id => s!"line {l}: contents of id {id} were overwritten"

end TraceError

end Allocator
