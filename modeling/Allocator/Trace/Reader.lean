import Allocator.Trace.Error
import Allocator.Text.Blank
import Allocator.Text.Quote

/-! Reading a trace from a byte stream, one line at a time. A line ends after a line feed
or at the end of the stream, and must be valid UTF-8; an invalid line is consumed but not
counted. Blank characters are trimmed from both ends of a line; an empty line, or one
that starts with `#`, holds no request. Otherwise the line splits at runs of blanks into
fields: the kind, the identifier, for `a` and `r` the size, and nothing more. Numbers are
decimal digits with an optional leading `+`, within 32 bits for identifiers and 64 bits
for sizes. The first problem found is reported, in that order: identifier, size, kind,
extra field. -/
namespace Allocator

namespace Trace

/-- The fields of a line: the runs of non-blank characters, in order. `cur` holds the
current run, reversed. -/
def fieldsFrom (cur : List Char) : List Char → List (List Char)
  | [] => if cur.isEmpty then [] else [cur.reverse]
  | c :: rest =>
    if Text.isBlank c then
      if cur.isEmpty then fieldsFrom [] rest else cur.reverse :: fieldsFrom [] rest
    else fieldsFrom (c :: cur) rest

/-- The fields of a line. -/
def fields (cs : List Char) : List (List Char) := fieldsFrom [] cs

/-- A line with blank characters removed from both ends. -/
def trimBlank (cs : List Char) : List Char :=
  ((cs.dropWhile Text.isBlank).reverse.dropWhile Text.isBlank).reverse

/-- A decimal number below `bound`, written with ASCII digits and an optional leading
`+`. -/
def parseBounded (bound : Nat) (cs : List Char) : Option Nat :=
  let digits := match cs with
    | '+' :: rest => rest
    | _ => cs
  if digits.isEmpty || !digits.all Char.isDigit then none
  else
    let v := digits.foldl (fun n c => 10 * n + (c.toNat - 48)) 0
    if v < bound then some v else none

/-- The request of a trimmed, non-empty line, or what is wrong with it. -/
def parseRequest (cs : List Char) : Except String Request := do
  let fs := fields cs
  let kind := String.ofList (fs.headD [])
  let id ← match fs[1]? with
    | none => throw "missing id"
    | some f => match parseBounded (Nat.pow 2 32) f with
      | some v => pure v
      | none => throw s!"bad id {Text.quote (String.ofList f)}"
  let size : Except String Nat := match fs[2]? with
    | none => throw "missing size"
    | some f => match parseBounded (Nat.pow 2 64) f with
      | some v => pure v
      | none => throw s!"bad size {Text.quote (String.ofList f)}"
  let (r, used) ← match kind with
    | "a" => do pure (Request.acquire id (← size), 3)
    | "r" => do pure (Request.resize id (← size), 3)
    | "f" => pure (Request.release id, 2)
    | other => throw s!"unknown request {Text.quote other}"
  match fs[used]? with
  | some extra => throw s!"unexpected field {Text.quote (String.ofList extra)}"
  | none => return r

end Trace

/-- A reader of trace lines from a byte stream. -/
structure TraceReader where
  /-- The stream. -/
  input : ByteArray
  /-- The next unread byte. -/
  pos : Nat := 0
  /-- Lines read so far; an invalid line is not counted. -/
  line : Nat := 0
  /-- Requests read so far. -/
  recordsRead : Nat := 0

namespace TraceReader

/-- The position just after the next line feed from `i` on, or the end of the stream. -/
def lineEnd (b : ByteArray) (i : Nat) : Nat :=
  if h : i < b.size then
    if b[i] = 10 then i + 1 else lineEnd b (i + 1)
  else b.size
termination_by b.size - i

theorem le_lineEnd (b : ByteArray) (i : Nat) (h : i ≤ b.size) : i ≤ lineEnd b i := by
  fun_induction lineEnd b i with
  | case1 i hi heq => omega
  | case2 i hi hne ih => have := ih (by omega); omega
  | case3 i hi => omega

theorem lt_lineEnd (b : ByteArray) (i : Nat) (h : i < b.size) : i < lineEnd b i := by
  unfold lineEnd
  rw [dif_pos h]
  split
  · omega
  · exact Nat.lt_of_lt_of_le (Nat.lt_succ_self i) (le_lineEnd b (i + 1) (by omega))

/-- The next request of the stream, skipping lines that hold none; none at the end of
the stream. -/
def next (r : TraceReader) : TraceReader × Except TraceError (Option Record) :=
  if h : r.pos < r.input.size then
    let stop := lineEnd r.input r.pos
    have : r.pos < stop := lt_lineEnd r.input r.pos h
    let chunk := r.input.extract r.pos stop
    match String.fromUTF8? chunk with
    | none => ({ r with pos := stop }, .error .io)
    | some text =>
      let line := r.line + 1
      let r' := { r with pos := stop, line }
      let cs := Trace.trimBlank text.toList
      if cs.isEmpty || cs.head? == some '#' then next r'
      else match Trace.parseRequest cs with
        | .error d => (r', .error (.malformed line d))
        | .ok req => ({ r' with recordsRead := r'.recordsRead + 1 }, .ok (some ⟨line, req⟩))
  else (r, .ok none)
termination_by r.input.size - r.pos

/-- Read every request until the end of the stream or the first failure. Each request
read consumes at least one byte, so `fuel` of one more than the bytes left suffices. -/
def readAll (r : TraceReader) (acc : Array Record) : Nat → Except TraceError (Array Record)
  | 0 => .ok acc
  | fuel + 1 => match r.next with
    | (_, .error e) => .error e
    | (_, .ok none) => .ok acc
    | (r', .ok (some rec)) => readAll r' (acc.push rec) fuel

/-- Read requests until the end of the stream or a failure, and after a failure read
once more. Answers the outcomes in order, the outcome of the read after a failure if
there was one, and the reader at the end. -/
def scan (r : TraceReader) :
    Nat → List (Except TraceError Record) × Option (Except TraceError (Option Record)) × TraceReader
  | 0 => ([], none, r)
  | fuel + 1 => match r.next with
    | (r, .ok none) => ([], none, r)
    | (r, .error e) =>
      let (r, after) := r.next
      ([.error e], some after, r)
    | (r, .ok (some rec)) =>
      let (rest, after, r) := scan r fuel
      (.ok rec :: rest, after, r)

/-- The records of a reader, one at a time: each request read, then nothing once the stream
has ended or after its first failure, which is answered once. -/
structure Records where
  /-- The reader. -/
  reader : TraceReader
  /-- Whether the end of the stream or a failure has been answered. -/
  done : Bool := false

/-- The records of a reader, from where it stands. -/
def records (r : TraceReader) : Records := { reader := r }

/-- The next record or failure; none at the end of the stream and ever after it or after a
failure. -/
def Records.next (it : Records) : Records × Option (Except TraceError Record) :=
  if it.done then (it, none)
  else match it.reader.next with
    | (r, .ok (some rec)) => ({ reader := r }, some (.ok rec))
    | (r, .ok none) => ({ reader := r, done := true }, none)
    | (r, .error e) => ({ reader := r, done := true }, some (.error e))

end TraceReader

namespace Trace

/-- The trace in a byte stream, or the first failure. -/
def read (b : ByteArray) : Except TraceError Trace :=
  (TraceReader.readAll { input := b } #[] (b.size + 1)).map (⟨·⟩)

/-- The trace in a text, or the first failure. -/
def parse (s : String) : Except TraceError Trace := read s.toUTF8

end Trace

end Allocator
