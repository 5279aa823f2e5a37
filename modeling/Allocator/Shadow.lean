import Allocator.Heap.Session

/-! A shadow drives a heap and remembers what every block it acquired should hold. Each
block gets a key, counting up from 0, and its payload is filled with a pattern seeded by
the key's low byte. The entries keep insertion order; removing one moves the last entry
into its place. Steps name an entry by a 64-bit fraction of the entry count. After a
resize that keeps a block, the shadow insists that the kept prefix still holds the old
pattern; a heap that loses it stops the shadow with a fault. Verification walks the
entries in order and reports the first block whose payload is unreadable, too short or
overwritten. Steps behind the shadow's back release or overwrite blocks by raw offset. -/
namespace Allocator

/-- The byte at position `i` of a block seeded with `seed`: their sum modulo 256,
rotated left by three bits. -/
def shadowByte (seed : UInt8) (i : Nat) : UInt8 :=
  let v := seed + i.toUInt8
  (v <<< 3) ||| (v >>> 5)

/-- The first `n` bytes of the pattern of `seed`. -/
def shadowBytes (seed : UInt8) (n : Nat) : ByteArray :=
  go 0 n (ByteArray.emptyWithCapacity n)
where
  /-- Append the bytes from position `i` on, `k` of them. -/
  go (i : Nat) : Nat → ByteArray → ByteArray
    | 0, acc => acc
    | k + 1, acc => go (i + 1) k (acc.push (shadowByte seed i))

/-- What the shadow expects of one block. -/
structure Expected where
  /-- The block. -/
  ptr : BlockPtr
  /-- The size asked for. -/
  size : Nat
  /-- The seed of its pattern. -/
  seed : UInt8
deriving Repr, DecidableEq, Inhabited

/-- One step of a shadow session. -/
inductive ShadowStep where
  /-- Acquire a block of `size` bytes and fill it. -/
  | acquire (size : Nat)
  /-- Release the entry that `index` selects. -/
  | release (index : Nat)
  /-- Resize the entry that `index` selects. -/
  | resize (index size : Nat)
  /-- Release every entry, last first. -/
  | drain
  /-- Release a raw offset behind the shadow's back. -/
  | heapRelease (offset : Nat)
  /-- Write bytes into the payload at a raw offset behind the shadow's back; the bytes
  are spelled out before their place in the payload is read. -/
  | heapWrite (offset : Nat) (start : Operand Nat) (hex : Operand String)
deriving Repr

/-- The shadow: entries by key in insertion order, and the next key. -/
structure Shadow where
  /-- Keys with what their blocks should hold. -/
  entries : Array (Nat × Expected) := #[]
  /-- The key of the next acquired block. -/
  nextKey : Nat := 0

namespace Shadow

/-- The entry that a 64-bit fraction `raw / 2^64` of the entry count selects. -/
def pick (s : Shadow) (raw : Nat) : Nat := s.entries.size * raw / Nat.pow 2 64

/-- The number of entries. -/
def liveCount (s : Shadow) : Nat := s.entries.size

/-- The sum of the sizes asked for. -/
def liveBytes (s : Shadow) : Nat := s.entries.foldl (fun n e => n + e.2.size) 0

/-- The blocks in entry order. -/
def pointers (s : Shadow) : List BlockPtr := s.entries.toList.map (·.2.ptr)

/-- Remove entry `i`, moving the last entry into its place. -/
def removeAt (s : Shadow) (i : Nat) : Shadow :=
  let last := s.entries.size - 1
  { s with entries := (s.entries.set! i (s.entries.getD last (0, default))).pop }

/-- The payload start of the live block `ptr`, which must hold at least `len` bytes; a
refusal or a short block is a fault. -/
def payloadStart (h : Heap) (ptr : BlockPtr) (len : Nat) : Except Fault Nat :=
  match h.payloadRange ptr with
  | .error e => .error (.unmet s!"live block: {e.message}")
  | .ok (base, avail) => if len ≤ avail then .ok base else .error (.outOfBounds base (base + len))

/-- Fill the block of an entry with its pattern. -/
def fill (h : Heap) (e : Expected) : Except Fault Heap := do
  let base ← payloadStart h e.ptr e.size
  let ((), h) ← Heap.modifyArena (·.write base (shadowBytes e.seed e.size)) h
  return h

/-- Run a request on the heap. -/
def request (h : Heap) (r : RequestM α) : Except Fault (Heap × Except HeapError α) :=
  (Heap.run r h).map fun (out, h) => (h, out)

/-- Release every entry from the last on, stopping at the first refusal; the refused
entry is already removed. -/
def drainFrom (h : Heap) : List (Nat × Expected) → Shadow → Except Fault (Shadow × Heap × Option HeapError)
  | [], s => .ok (s, h, none)
  | (_, e) :: rest, s => do
    let s := { s with entries := s.entries.pop }
    let (h, out) ← request h (Heap.release e.ptr)
    match out with
    | .error err => return (s, h, some err)
    | .ok () => drainFrom h rest s

/-- Carry out one step. -/
def apply (s : Shadow) (h : Heap) : ShadowStep → Except Fault (Shadow × Heap × StepResult)
  | .acquire size => do
    let (h, out) ← request h (Heap.acquire size)
    match out with
    | .error e => return (s, h, .refused e)
    | .ok ptr =>
      let e : Expected := ⟨ptr, size, s.nextKey.toUInt8⟩
      let h ← fill h e
      return ({ entries := s.entries.push (s.nextKey, e), nextKey := s.nextKey + 1 }, h,
        .value .none)
  | .release index => do
    if s.entries.isEmpty then return (s, h, .value .none)
    let i := s.pick index
    let (_, e) := s.entries.getD i (0, default)
    let (h, out) ← request h (Heap.release e.ptr)
    match out with
    | .error err => return (s, h, .refused err)
    | .ok () => return (s.removeAt i, h, .value .none)
  | .resize index size => do
    if s.entries.isEmpty then return (s, h, .value .none)
    let i := s.pick index
    let (key, old) := s.entries.getD i (0, default)
    let (h, out) ← request h (Heap.resize old.ptr size)
    match out with
    | .error err => return (s, h, .refused err)
    | .ok none => return (s.removeAt i, h, .value .none)
    | .ok (some ptr) =>
      let kept := min old.size size
      let base ← payloadStart h ptr kept
      let held ← h.arena.read base kept
      if !sameBytes held (shadowBytes old.seed kept) then
        throw (.unmet "a resize kept the contents")
      let e : Expected := ⟨ptr, size, old.seed⟩
      let h ← fill h e
      return ({ s with entries := s.entries.set! i (key, e) }, h, .value .none)
  | .drain => do
    let (s, h, out) ← drainFrom h s.entries.toList.reverse s
    return (s, h, match out with
      | some err => .refused err
      | none => .value .none)
  | .heapRelease offset =>
    match BlockPtr.ofOffset? offset with
    | none => return (s, h, .rejected "ptr exceeds u32")
    | some p => do
      let (h, out) ← request h (Heap.release p)
      return (s, h, match out with
        | .error err => .refused err
        | .ok () => .value .none)
  | .heapWrite offset start hex =>
    match BlockPtr.ofOffset? offset with
    | none => return (s, h, .rejected "ptr exceeds u32")
    | some p => match hex with
      | .error r => return (s, h, .rejected r)
      | .ok text => match Hex.decode text with
        | .error .splitChar => throw (.unmet "hex digit pairs keep characters whole")
        | .error e => return (s, h, .rejected e.message)
        | .ok data => match start with
          | .error r => return (s, h, .rejected r)
          | .ok start => match h.payloadRange p with
            | .error e => return (s, h, .refused e)
            | .ok (base, avail) =>
              if start + data.size > avail then return (s, h, .rejected "range outside payload")
              else do
                let ((), h) ← Heap.modifyArena (·.write (base + start) data) h
                return (s, h, .value .none)

/-- Check every entry in order: its block must be live, hold at least the size asked
for, and hold the pattern; the first failure is described. -/
def verify (s : Shadow) (h : Heap) : Except String Unit :=
  s.entries.toList.forM fun (key, e) =>
    match h.payloadRange e.ptr with
    | .error err => .error s!"block {key} at {e.ptr.display}: {err.message}"
    | .ok (base, avail) =>
      if avail < e.size then
        .error s!"block {key} at {e.ptr.display} has {avail} usable bytes, asked for {e.size}"
      else
        let expected := shadowBytes e.seed e.size
        let held := h.arena.memory.extract base (base + e.size)
        match firstDifference held expected 0 e.size with
        | some j => .error s!"block {key} at {e.ptr.display} corrupted at byte {j}"
        | none => .ok ()

end Shadow

/-- How a shadow's heap is built: a growable arena with a ceiling, a chunk size and an
initial extension, and optionally a refusal schedule. -/
structure ShadowSetup where
  /-- The arena ceiling. -/
  maxBytes : Nat := Nat.pow 2 20
  /-- The chunk size. -/
  chunkSize : Nat := 4096
  /-- The initial extension. -/
  initialExtend : Nat := 4096
deriving Repr, DecidableEq

namespace ShadowSetup

/-- Set the ceiling. -/
def withMaxBytes (b : ShadowSetup) (m : Nat) : ShadowSetup := { b with maxBytes := m }

/-- Set the chunk size, and the initial extension to the same. -/
def withChunkSize (b : ShadowSetup) (c : Nat) : ShadowSetup :=
  { b with chunkSize := c, initialExtend := c }

/-- Set the initial extension. -/
def withInitialExtend (b : ShadowSetup) (i : Nat) : ShadowSetup := { b with initialExtend := i }

/-- Build the heap; an invalid ceiling or a heap that cannot be built stops with a
fault, since the shadow's callers promise a usable setup. With `refuseFrom`, the arena
refuses that growth attempt and every later one. -/
def build (b : ShadowSetup) (refuseFrom : Option Nat) : Except Fault Heap := do
  let setup : HeapSetup :=
    { maxBytes := b.maxBytes, chunkSize := b.chunkSize, initialExtend := some b.initialExtend,
      refuseFrom }
  match ← setup.build with
  | .ok h => return h
  | .error (.arena e) => throw (.unmet s!"valid arena limit: {e.message}")
  | .error (.heap e) => throw (.unmet s!"heap fits its arena: {e.message}")

end ShadowSetup

/-- What a shadow session shows after a step. -/
structure ShadowView where
  /-- Entries. -/
  liveCount : Nat
  /-- Sum of the sizes asked for. -/
  liveBytes : Nat
  /-- Blocks in entry order. -/
  pointers : List BlockPtr
  /-- Verification. -/
  verify : Except String Unit
  /-- Arena size. -/
  brk : Nat
  /-- Statistics. -/
  stats : HeapStats
  /-- Consistency check. -/
  check : Except CheckError Unit

namespace Shadow

/-- What the shadow and its heap show. -/
def view (s : Shadow) (h : Heap) : ShadowView :=
  { liveCount := s.liveCount, liveBytes := s.liveBytes, pointers := s.pointers,
    verify := s.verify h, brk := h.arena.brk, stats := h.stats, check := h.check }

/-- Run steps in order, each answered with what the shadow then shows, until the steps
end or one faults; the flag tells whether one faulted. A step that could not be read is
answered as rejected. -/
def runAll (s : Shadow) (h : Heap) :
    List (Except String ShadowStep) → List (StepResult × ShadowView) × Bool
  | [] => ([], false)
  | st :: rest =>
    let out := match st with
      | .ok st => s.apply h st
      | .error reason => .ok (s, h, .rejected reason)
    match out with
    | .error _ => ([], true)
    | .ok (s, h, result) =>
      let shown := s.view h
      let (recs, faulted) := runAll s h rest
      ((result, shown) :: recs, faulted)

end Shadow

end Allocator
