import Allocator.Heap.Request
import Allocator.Decimal.Shortest

/-! Two views of a heap read off its arena bytes alone. The block walk goes from the first
block through the headers in address order; it stops, without a fault, at a zero-size
header, at a header that cannot be read, or at a block that would end past the break, so
on a damaged heap it may be partial. Statistics add up the walk's blocks and join the
counters. The free-list walk follows links from the tail toward larger blocks. -/
namespace Allocator

/-- One block met by the walk: payload offset, whole size and state. -/
structure BlockInfo where
  /-- Payload offset. -/
  ptr : Nat
  /-- Whole block size in bytes. -/
  size : Nat
  /-- Allocation state. -/
  state : BlockState
deriving Repr, DecidableEq

namespace Heap

/-- The blocks from payload offset `cursor` on, in address order. -/
def blocksFrom (a : Arena) (cursor : Nat) : List BlockInfo :=
  if cursor < wordBytes then []
  else match a.word? (cursor - wordBytes) with
    | none => []
    | some w =>
      let t := Tag.unpack w
      if _hz : t.size = 0 then []
      else if _hb : cursor + t.size ≤ a.brk then
        ⟨cursor, t.size, t.state⟩ :: blocksFrom a (cursor + t.size)
      else []
termination_by a.brk + 1 - cursor
decreasing_by
  simp only [t] at _hz _hb
  omega

/-- Every block between the prologue and the epilogue, in address order. -/
def blocks (h : Heap) : List BlockInfo := blocksFrom h.arena firstBlock

end Heap

/-- Occupancy of a heap's arena and the counters of its requests. Byte totals count whole
blocks, headers and footers included. -/
structure HeapStats where
  /-- The arena size. -/
  arenaBytes : Nat
  /-- Allocated blocks met by the walk. -/
  allocatedBlocks : Nat := 0
  /-- Their total size. -/
  allocatedBytes : Nat := 0
  /-- Their total usable payload. -/
  usableBytes : Nat := 0
  /-- Free blocks met by the walk. -/
  freeBlocks : Nat := 0
  /-- Their total size. -/
  freeBytes : Nat := 0
  /-- The size of the largest of them, 0 when there is none. -/
  largestFree : Nat := 0
  /-- Arena bytes outside the blocks met by the walk. -/
  overheadBytes : Nat := 0
  /-- Counters of served requests. -/
  counters : Counters
deriving Repr, DecidableEq

namespace HeapStats

/-- Add one walked block to the totals. -/
def addBlock (s : HeapStats) (b : BlockInfo) : HeapStats :=
  match b.state with
  | .allocated =>
    { s with allocatedBlocks := s.allocatedBlocks + 1,
             allocatedBytes := s.allocatedBytes + b.size,
             usableBytes := s.usableBytes + (b.size - tagOverhead) }
  | .free =>
    { s with freeBlocks := s.freeBlocks + 1, freeBytes := s.freeBytes + b.size,
             largestFree := max s.largestFree b.size }

/-- Ratios are written positionally while the leading digit's exponent is from -5 up to
15, in exponent form with a bare `e` otherwise, and a tie between two shortest candidates
goes to the larger one. -/
def ratioLayout : Decimal.Layout := ⟨-5, 16, "e", .up⟩

/-- The share of the arena that is usable payload, as the text of the nearest binary64
value; an empty arena shows `0.0`. -/
def payloadRatio (s : HeapStats) : String :=
  if s.arenaBytes = 0 then "0.0" else ratioLayout.ratio s.usableBytes s.arenaBytes

end HeapStats

namespace Heap

/-- The statistics of a heap: its walked blocks added up, the rest of the arena as
overhead, and its counters. -/
def stats (h : Heap) : HeapStats :=
  let s := h.blocks.foldl HeapStats.addBlock { arenaBytes := h.arena.brk, counters := h.counters }
  { s with overheadBytes := s.arenaBytes - (s.allocatedBytes + s.freeBytes) }

/-- One step of the free-list walk: the block at the cursor, after reading the link that
leads on from it. A link outside the arena is a fault. -/
def freeStep (a : Arena) (cursor : Nat) : Except Fault (Option Nat) := do
  let w ← a.word (Link.offset cursor .larger)
  return if w = 0 then none else some w

/-- Up to `n` blocks of the free list from `cursor` on, each yielded after reading its
link, with the cursor where the walk stopped. -/
def freeWalk (a : Arena) : Nat → Option Nat → Except Fault (List Nat × Option Nat)
  | 0, cursor => .ok ([], cursor)
  | _, none => .ok ([], none)
  | n + 1, some c => do
    let next ← freeStep a c
    let (rest, stopped) ← freeWalk a n next
    return (c :: rest, stopped)

/-- The free list seen from the tail, at most `limit` blocks; the flag tells whether the
list goes on past them. The walk asks for one block more than the limit to find out. -/
def freeList (h : Heap) (limit : Nat) : Except Fault (List Nat × Bool) := do
  let (seen, _) ← freeWalk h.arena (limit + 1) h.tail
  if seen.length > limit then return (seen.take limit, true)
  else return (seen, false)

end Heap

end Allocator
