import Allocator.Heap.Basic

/-! The free list threads every free block in ascending size order, from the tail (the
smallest) toward larger blocks. Insertion walks from the tail past strictly smaller
blocks, so a block goes before, on the tail side of, every block of its own size. Best fit
walks from the tail and takes the first block that is large enough.

Every walk here is bounded by the break plus one: a walk that ends visits distinct blocks
whose headers lie below the break, and a walk that does not end has met a block again and
would go round for ever; running out of steps is the fault `endless`. -/
namespace Allocator

namespace Heap

/-- The number of steps that bounds every walk along the free list. -/
def walkBound : HeapM Nat := do
  return (← get).arena.brk + 1

/-- From `larger` on, walk toward larger blocks past every block smaller than `size`;
answer the last block passed and the first block not passed. -/
def seekPlace (size : Nat) : Nat → Option Nat → Option Nat → HeapM (Option Nat × Option Nat)
  | _, smaller, none => pure (smaller, none)
  | 0, _, some _ => stop .endless
  | fuel + 1, smaller, some c => do
    if size ≤ (← tagAt c).size then return (smaller, some c)
    seekPlace size fuel (some c) (← link c .larger)

/-- Link the free block at `bp` of the given size into the list, between the blocks
smaller than it and the rest. -/
def insert (bp size : Nat) : HeapM Unit := do
  let (smaller, larger) ← seekPlace size (← walkBound) none (← get).tail
  setLink bp .larger larger
  setLink bp .smaller smaller
  if let some l := larger then setLink l .smaller (some bp)
  match smaller with
  | some s => setLink s .larger (some bp)
  | none => setTail (some bp)

/-- Unlink the block at `bp`, joining its two neighbours in the list. -/
def remove (bp : Nat) : HeapM Unit := do
  let larger ← link bp .larger
  let smaller ← link bp .smaller
  if let some l := larger then setLink l .smaller smaller
  match smaller with
  | some s => setLink s .larger larger
  | none => setTail larger

/-- From `cursor` on, the first block of at least `size` bytes. Each block's link is read
before its size is compared, as a walk that steps to the next block before looking at the
current one. -/
def fitFrom (size : Nat) : Nat → Option Nat → HeapM (Option Nat)
  | _, none => pure none
  | 0, some _ => stop .endless
  | fuel + 1, some c => do
    let next ← link c .larger
    if size ≤ (← tagAt c).size then return some c
    fitFrom size fuel next

/-- Best fit: the smallest free block of at least `size` bytes, the one nearest the tail
among equals. -/
def findFit (size : Nat) : HeapM (Option Nat) := do
  fitFrom size (← walkBound) (← get).tail

end Heap

end Allocator
