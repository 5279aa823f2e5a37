/-! A trace is a list of heap requests, each on its own numbered line of text: `a id size`
acquires a block of `size` bytes for the identifier `id`, `f id` releases it, and
`r id size` resizes it. Identifiers are 32-bit and sizes 64-bit. A trace's text writes
each request on a line of its own, ending in a line feed. -/
namespace Allocator

/-- One request of a trace. -/
inductive Request where
  /-- Acquire `size` bytes for `id`. -/
  | acquire (id size : Nat)
  /-- Release the block of `id`. -/
  | release (id : Nat)
  /-- Resize the block of `id` to `size` bytes. -/
  | resize (id size : Nat)
deriving Repr, DecidableEq, Inhabited

namespace Request

/-- The identifier a request names. -/
def id : Request → Nat
  | .acquire id _ | .release id | .resize id _ => id

/-- The size a request asks for, if it asks for one. -/
def size? : Request → Option Nat
  | .acquire _ s | .resize _ s => some s
  | .release _ => none

/-- The text of a request. -/
def render : Request → String
  | .acquire id size => s!"a {id} {size}"
  | .release id => s!"f {id}"
  | .resize id size => s!"r {id} {size}"

end Request

/-- A request with the number of the line it came from, counting from 1. -/
structure Record where
  /-- The line number. -/
  line : Nat
  /-- The request. -/
  request : Request
deriving Repr, DecidableEq, Inhabited

/-- A trace: records in order. -/
structure Trace where
  /-- The records. -/
  records : Array Record := #[]
deriving Repr, DecidableEq, Inhabited

namespace Trace

/-- The trace of the given requests, numbered from line 1. -/
def ofRequests (rs : List Request) : Trace :=
  ⟨(rs.zipIdx 1).toArray.map fun (r, i) => ⟨i, r⟩⟩

/-- Append a request on the line after the last record, or on line 1. -/
def push (t : Trace) (r : Request) : Trace :=
  let line := match t.records.back? with
    | some last => last.line + 1
    | none => 1
  ⟨t.records.push ⟨line, r⟩⟩

/-- The number of records. -/
def size (t : Trace) : Nat := t.records.size

/-- The text of a trace: one line per request, each ending in a line feed. -/
def render (t : Trace) : String :=
  t.records.foldl (fun acc r => acc ++ r.request.render ++ "\n") ""

end Trace

end Allocator
