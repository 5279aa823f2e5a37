import Allocator.Heap.Request

/-! A heap is built from a description of its arena and its growth parameters. The arena
configuration is validated first, then the heap configuration, then the arena's ceiling
is checked against the 32-bit range, and last the heap is laid out. Three arenas can be
described: a growable one, optionally with a refusal schedule; a reserved region of
stale bytes; and an oversized one that advertises a ceiling past the 32-bit range, which
no heap accepts. -/
namespace Allocator

/-- The arena a heap is built over. -/
inductive ArenaChoice where
  /-- A growable arena with the described ceiling. -/
  | growable
  /-- A reserved region of `capacity` bytes, each `0xcc`, at most `reservedLimit`. -/
  | reserved (capacity : Nat)
  /-- A growable arena that advertises the ceiling `addressable + 8`. -/
  | oversized
deriving Repr, DecidableEq

/-- Why a heap could not be built. -/
inductive SetupError where
  /-- The arena configuration is unusable. -/
  | arena (e : ArenaError)
  /-- The heap refused its configuration, its arena, or its first layout. -/
  | heap (e : HeapError)
deriving Repr, DecidableEq

/-- A description of a heap to build. -/
structure HeapSetup where
  /-- The arena. -/
  arena : ArenaChoice := .growable
  /-- The ceiling of a growable arena. -/
  maxBytes : Nat := ArenaConfig.defaultMaxBytes
  /-- The capacity hint of a growable arena. -/
  initialCapacity : Nat := 0
  /-- The heap's chunk size. -/
  chunkSize : Nat := 4096
  /-- The heap's initial extension; the chunk size when absent. -/
  initialExtend : Option Nat := none
  /-- For a growable arena: the growth attempt from which every growth is refused. -/
  refuseFrom : Option Nat := none
deriving Repr

namespace HeapSetup

/-- The largest reserved region: 16 MiB. -/
def reservedLimit : Nat := 16 * Nat.pow 2 20

/-- The ceiling that an oversized arena advertises. -/
def oversizedCeiling : Nat := addressable + 8

/-- The heap configuration described. -/
def config (s : HeapSetup) : HeapConfig :=
  ⟨s.chunkSize, s.initialExtend.getD s.chunkSize⟩

/-- The arena described, or why its configuration is unusable. -/
def buildArena (s : HeapSetup) : Except ArenaError Arena :=
  match s.arena with
  | .reserved capacity => .ok (Arena.reserved (min capacity reservedLimit) 0xcc)
  | .oversized => do
    (ArenaConfig.mk s.maxBytes s.initialCapacity).validate
    return Arena.growable oversizedCeiling
  | .growable => do
    let a ← Arena.ofConfig ⟨s.maxBytes, s.initialCapacity⟩
    return { a with refuseFrom := s.refuseFrom }

/-- Build the described heap. -/
def build (s : HeapSetup) : Except Fault (Except SetupError Heap) :=
  match s.buildArena with
  | .error e => .ok (.error (.arena e))
  | .ok a => (Heap.create a s.config).map (·.mapError .heap)

end HeapSetup

end Allocator
