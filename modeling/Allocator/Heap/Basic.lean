import Allocator.Heap.Config

/-! A heap is an arena laid out as blocks, the tail of its free list, and counters of
the requests it served. This module holds the two kinds of heap programs: `HeapM`, which
reads and writes the arena and stops at a fault, and `RequestM`, which may also refuse
with a `HeapError` while keeping the heap it reached. On top of arena words it reads and
writes tags, free-list links and the physical neighbours of a block.

Arena layout: word 0 is padding, the prologue is an allocated 8-byte block at payload
offset 8, blocks follow from payload offset 16, and the epilogue is a zero-size allocated
header in the last word before the break. A block at payload offset `bp` with size `s`
has its header at `bp - 4` and its footer at `bp + s - 8`; a free block keeps the link
toward larger blocks at `bp` and the link toward smaller blocks at `bp + 4`. -/
namespace Allocator

/-- Counts of served requests, reset when the heap is laid out again. -/
structure Counters where
  /-- Served acquisitions, including those made by moving resizes. -/
  acquires : Nat := 0
  /-- Served releases. -/
  releases : Nat := 0
  /-- Served resizes that did not release. -/
  resizes : Nat := 0
  /-- Resizes that moved the block. -/
  relocations : Nat := 0
  /-- Growths of the arena, the initial extension included. -/
  grows : Nat := 0
deriving Repr, DecidableEq

/-- A boundary-tag heap over one arena. -/
structure Heap where
  /-- The arena holding every block. -/
  arena : Arena
  /-- Growth parameters. -/
  config : HeapConfig
  /-- Payload offset of the smallest free block, where the free list starts. -/
  tail : Option Nat
  /-- Counts of served requests. -/
  counters : Counters

/-- A heap program that stops at a fault. -/
abbrev HeapM := StateT Heap (Except Fault)

/-- A heap request: a heap program that may also refuse with a `HeapError`; a refusal
keeps the heap reached so far. -/
abbrev RequestM := ExceptT HeapError HeapM

/-- Which link word of a free block. -/
inductive Link where
  /-- Toward larger blocks: payload word 0. -/
  | larger
  /-- Toward smaller blocks, the tail side: payload word 1. -/
  | smaller
deriving Repr, DecidableEq

namespace Link

/-- The arena offset of this link of the free block at `bp`. -/
def offset (bp : Nat) : Link → Nat
  | .larger => bp
  | .smaller => bp + wordBytes

end Link

namespace Heap

/-- Stop at a fault. -/
def stop (f : Fault) : HeapM α := StateT.lift (.error f)

/-- `a - b`, stopping when it would be negative. -/
def less (a b : Nat) : HeapM Nat := StateT.lift (offsetBelow a b)

/-- The word at arena offset `pos`. -/
def word (pos : Nat) : HeapM Nat := fun h => (h.arena.word pos).map (·, h)

/-- Replace the arena by what `f` makes of it. The arena is taken out of the heap first,
so a heap held nowhere else is updated in place. -/
@[inline] def modifyArena (f : Arena → Except Fault Arena) : HeapM Unit := fun h =>
  match h with
  | ⟨arena, config, tail, counters⟩ => (f arena).map fun a => ((), ⟨a, config, tail, counters⟩)

/-- Store a word at arena offset `pos`. -/
def setWord (pos v : Nat) : HeapM Unit := modifyArena (·.setWord pos v)

/-- The tag in the header of the block at `bp`. -/
def tagAt (bp : Nat) : HeapM Tag := do
  return Tag.unpack (← word (← less bp 4))

/-- The tag in the footer just before the block at `bp`: the tag of its physical
predecessor. -/
def tagBefore (bp : Nat) : HeapM Tag := do
  return Tag.unpack (← word (← less bp 8))

/-- Write `t` into the header and the footer of the block at `bp`. A size of 2^32 or more
does not fit a tag. -/
def setTag (bp : Nat) (t : Tag) : HeapM Unit := do
  if t.size ≥ wordBound then stop (.tooWide t.size)
  setWord (← less bp 4) t.pack
  setWord (← less (bp + t.size) 8) t.pack

/-- Write the epilogue, a zero-size allocated header with no footer, for payload offset
`bp`. -/
def setEpilogue (bp : Nat) : HeapM Unit := do
  setWord (← less bp 4) (Tag.allocated 0).pack

/-- Payload offset of the block physically after the one at `bp`. -/
def nextBlock (bp : Nat) : HeapM Nat := do
  return bp + (← tagAt bp).size

/-- Payload offset of the block physically before the one at `bp`, read off that block's
footer. -/
def prevBlock (bp : Nat) : HeapM Nat := do
  less bp (← tagBefore bp).size

/-- A link of the free block at `bp`; 0 stands for no block. -/
def link (bp : Nat) (which : Link) : HeapM (Option Nat) := do
  let w ← word (which.offset bp)
  return if w = 0 then none else some w

/-- Set a link of the free block at `bp`. -/
def setLink (bp : Nat) (which : Link) (target : Option Nat) : HeapM Unit :=
  setWord (which.offset bp) (target.getD 0)

/-- Make `bp` the free list's tail, or empty the list. -/
def setTail (tail : Option Nat) : HeapM Unit :=
  modify fun h => { h with tail }

/-- Change the counters. -/
def count (f : Counters → Counters) : HeapM Unit :=
  modify fun h => { h with counters := f h.counters }

end Heap

end Allocator
