import Allocator.Heap.Check
import Allocator.Heap.Setup
import Allocator.Text.Hex

/-! A session runs a list of steps against one heap: requests, reads and writes of
payload bytes, raw reads of the arena, and inspection. A step names a block by a raw
payload offset, which may be forged, or by the number of an earlier step that produced a
pointer: a served acquisition, or a resize that kept or moved its block. After each step
the session takes a snapshot of the heap: the block walk, the free list from the tail,
the statistics and the consistency check. A fault ends the session at the step that met
it. -/
namespace Allocator

/-- How a step names a block. -/
inductive BlockRef where
  /-- A raw payload offset. -/
  | offset (n : Nat)
  /-- The pointer produced by step number `k` of the session, counting from 0. -/
  | step (k : Nat)
deriving Repr, DecidableEq

/-- A step operand as a request gives it: its value, or why it cannot be read. A step
looks at an operand only when it comes to need it, so an operand that cannot be read is
reported only by a step that gets that far. -/
abbrev Operand (α : Type) := Except String α

/-- One step of a session. -/
inductive HeapStep where
  /-- Acquire a block of at least `size` usable bytes. -/
  | acquire (size : Nat)
  /-- Release a block. -/
  | release (ref : BlockRef)
  /-- Resize a block. -/
  | resize (ref : BlockRef) (size : Operand Nat)
  /-- Lay the heap out afresh. -/
  | init
  /-- The usable size of a block. -/
  | usableSize (ref : BlockRef)
  /-- Payload bytes from `start` on: `len` of them, or all the rest. -/
  | read (ref : BlockRef) (start : Operand Nat) (len : Operand (Option Nat))
  /-- Write the bytes that `hex` spells into the payload from `start` on. -/
  | write (ref : BlockRef) (start : Operand Nat) (hex : Operand String)
  /-- Set every payload byte to `byte` modulo 256. -/
  | fill (ref : BlockRef) (byte : Operand Nat)
  /-- Raw arena bytes from `lo` up to `hi`. -/
  | arenaBytes (lo hi : Nat)
  /-- The heap's configuration, free-list tail and arena figures. -/
  | inspect
deriving Repr

/-- What `inspect` shows. -/
structure Inspection where
  /-- The heap's configuration. -/
  config : HeapConfig
  /-- The free list's tail. -/
  tail : Option Nat
  /-- Whether the free list is empty. -/
  isEmpty : Bool
  /-- The heap's arena size. -/
  arenaBytes : Nat
  /-- The arena's break. -/
  arenaBrk : Nat
  /-- The arena's ceiling. -/
  arenaMax : Nat

/-- What a served step answers. -/
inductive StepValue where
  /-- Nothing to show. -/
  | none
  /-- A block pointer. -/
  | pointer (p : BlockPtr)
  /-- A byte count. -/
  | size (n : Nat)
  /-- A byte string. -/
  | bytes (b : ByteArray)
  /-- The heap's figures. -/
  | inspection (i : Inspection)

/-- The outcome of a step that did not fault. -/
inductive StepResult where
  /-- The step was served. -/
  | value (v : StepValue)
  /-- The heap refused the step. -/
  | refused (e : HeapError)
  /-- The step could not be carried out as written. -/
  | rejected (reason : String)

/-- The state of a heap as a session shows it after each step. -/
structure Snapshot where
  /-- The arena size. -/
  brk : Nat
  /-- The block walk. -/
  blocks : List BlockInfo
  /-- The free list from the tail, cut at one more block than the walk found, and
  whether it went on; a fault if a link lies outside the arena. -/
  free : Except Fault (List Nat × Bool)
  /-- The statistics. -/
  stats : HeapStats
  /-- The consistency check. -/
  check : Except CheckError Unit
  /-- Growth attempts of an arena with a refusal schedule. -/
  attempts : Option Nat

namespace Heap

/-- The snapshot of a heap. -/
def snapshot (h : Heap) : Snapshot :=
  let blocks := h.blocks
  { brk := h.arena.brk, blocks, free := h.freeList (blocks.length + 1), stats := h.stats,
    check := h.check, attempts := h.arena.refuseFrom.map fun _ => h.arena.attempts }

/-- What `inspect` shows of a heap. -/
def inspection (h : Heap) : Inspection :=
  { config := h.config, tail := h.tail, isEmpty := h.tail.isNone, arenaBytes := h.arena.brk,
    arenaBrk := h.arena.brk, arenaMax := h.arena.maxBytes }

end Heap

/-- A heap with the pointers that the steps so far produced, by step number. -/
structure Session where
  /-- The heap. -/
  heap : Heap
  /-- For each step so far, the pointer it produced, if any. -/
  produced : Array (Option BlockPtr) := #[]

namespace Session

/-- The pointer a reference names, or why it names none. -/
def resolve (s : Session) : BlockRef → Except String BlockPtr
  | .offset n => match BlockPtr.ofOffset? n with
    | some p => .ok p
    | none => .error "ptr exceeds u32"
  | .step k => match s.produced[k]? with
    | some (some p) => .ok p
    | _ => .error s!"no handle {k}"

/-- Run a request on the session's heap. -/
def request (s : Session) (r : RequestM α) : Except Fault (Session × Except HeapError α) :=
  match s with
  | ⟨heap, produced⟩ => (Heap.run r heap).map fun (out, heap) => (⟨heap, produced⟩, out)

/-- The answer of a request whose value shows as `view`. -/
def answer (view : α → StepValue) : Except HeapError α → StepResult
  | .ok v => .value (view v)
  | .error e => .refused e

/-- Change the arena of the session's heap, in place when nothing else holds it. -/
def modifyArena (s : Session) (f : Arena → Except Fault Arena) : Except Fault Session :=
  match s with
  | ⟨heap, produced⟩ => (Heap.modifyArena f heap).map fun ((), heap) => ⟨heap, produced⟩

/-- Run one step; answers the result and the pointer it produced. A step first finds its
block, then reads its operands; a read checks the block before the range it asks for, a
write spells out its bytes before it checks the block, and a fill reads its byte first. -/
def perform (s : Session) : HeapStep → Except Fault (Session × StepResult × Option BlockPtr)
  | .acquire size => do
    let (s, out) ← s.request (Heap.acquire size)
    return (s, answer .pointer out, out.toOption)
  | .release ref => match s.resolve ref with
    | .error r => pure (s, .rejected r, none)
    | .ok p => do
      let (s, out) ← s.request (Heap.release p)
      return (s, answer (fun _ => .none) out, none)
  | .resize ref size => match s.resolve ref with
    | .error r => pure (s, .rejected r, none)
    | .ok p => match size with
      | .error r => pure (s, .rejected r, none)
      | .ok size => do
        let (s, out) ← s.request (Heap.resize p size)
        let shown := fun (q : Option BlockPtr) => match q with
          | some q => StepValue.pointer q
          | none => .none
        return (s, answer shown out, out.toOption.bind id)
  | .init => do
    let (s, out) ← s.request Heap.init
    return (s, answer (fun _ => .none) out, none)
  | .usableSize ref => match s.resolve ref with
    | .error r => pure (s, .rejected r, none)
    | .ok p => pure (s, answer .size (s.heap.usableSize p), none)
  | .read ref start len => match s.resolve ref with
    | .error r => pure (s, .rejected r, none)
    | .ok p => match s.heap.payloadRange p with
      | .error e => pure (s, .refused e, none)
      | .ok (base, avail) => match start, len with
        | .error r, _ | .ok _, .error r => pure (s, .rejected r, none)
        | .ok start, .ok len =>
          if start > avail then pure (s, .rejected "range outside payload", none)
          else
            let len := len.getD (avail - start)
            if start + len > avail then pure (s, .rejected "range outside payload", none)
            else do
              let b ← s.heap.arena.read (base + start) len
              return (s, .value (.bytes b), none)
  | .write ref start hex => match s.resolve ref with
    | .error r => pure (s, .rejected r, none)
    | .ok p => match hex with
      | .error r => pure (s, .rejected r, none)
      | .ok text => match Hex.decode text with
        | .error .splitChar => .error (.unmet "hex digit pairs keep characters whole")
        | .error e => pure (s, .rejected e.message, none)
        | .ok data => match start with
          | .error r => pure (s, .rejected r, none)
          | .ok start => match s.heap.payloadRange p with
            | .error e => pure (s, .refused e, none)
            | .ok (base, avail) =>
              if start + data.size > avail then pure (s, .rejected "range outside payload", none)
              else do
                let s ← s.modifyArena (·.write (base + start) data)
                return (s, .value .none, none)
  | .fill ref byte => match s.resolve ref with
    | .error r => pure (s, .rejected r, none)
    | .ok p => match byte with
      | .error r => pure (s, .rejected r, none)
      | .ok byte => match s.heap.payloadRange p with
        | .error e => pure (s, .refused e, none)
        | .ok (base, avail) => do
          let s ← s.modifyArena (·.setBytes base avail (byte % 256).toUInt8)
          return (s, .value .none, none)
  | .arenaBytes lo hi =>
    if lo > hi ∨ hi > s.heap.arena.brk then pure (s, .rejected "range outside arena", none)
    else do
      let b ← s.heap.arena.read lo (hi - lo)
      return (s, .value (.bytes b), none)
  | .inspect => pure (s, .value (.inspection s.heap.inspection), none)

/-- Run one step, or reject a step that could not be read; the step's number is the
number of steps before it, and its pointer, if any, is recorded under that number. -/
def step (s : Session) (st : Except String HeapStep) : Except Fault (Session × StepResult) :=
  match st with
  | .error reason => .ok ({ s with produced := s.produced.push none }, .rejected reason)
  | .ok st => do
    let (s, result, made) ← s.perform st
    return ({ s with produced := s.produced.push made }, result)

end Session

/-- A session's record: what each step answered with what it shows of the heap, and, when
a step faulted, that this step ended the session. -/
structure SessionLog (β : Type) where
  /-- The steps that ran to the end, with what each showed. -/
  records : List (StepResult × β)
  /-- The heap after the last step, or none when a step faulted after the last record. -/
  heap : Option Heap

namespace Session

/-- Run steps in order, observing the heap after each, until the steps end or one
faults. -/
def runAll (observe : Heap → β) (s : Session) :
    List (Except String HeapStep) → SessionLog β
  | [] => ⟨[], some s.heap⟩
  | st :: rest =>
    match s.step st with
    | .error _ => ⟨[], none⟩
    | .ok (s, result) =>
      let seen := observe s.heap
      let log := runAll observe s rest
      { log with records := (result, seen) :: log.records }

end Session

end Allocator
