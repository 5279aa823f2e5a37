import Allocator.Heap.FreeList

/-! The requests a heap serves: acquire a block of at least a given payload size, release
a block, resize one, and lay the heap out afresh. Free blocks are merged with their free
physical neighbours at once, so no two adjacent blocks are ever both free on a heap that
only these requests have touched.

Acquisition takes the best fit and splits off a remainder of at least `minBlock` bytes;
when no block fits, the arena grows by the adjusted request or by one chunk, whichever is
more, and the new space merges with a free last block. Resizing never shrinks: a block
that is large enough is kept, a block followed by enough free space absorbs it, a block at
the end of the arena grows the arena, and otherwise the contents move to a new block. -/
namespace Allocator

namespace Heap

/-- The tag of the live block that `ptr` names, or why `ptr` names none: it must be an
aligned offset inside the block area, its header must give a plausible size that ends by
the break, its footer must repeat the header, and the block must be allocated. -/
def liveTag (h : Heap) (ptr : BlockPtr) : Except HeapError Tag :=
  let brk := h.arena.brk
  let bp := ptr.offset
  if bp < firstBlock ∨ bp % alignment ≠ 0 ∨ bp ≥ brk then .error (.invalidPointer ptr)
  else match h.arena.word? (bp - 4) with
    | none => .error (.invalidPointer ptr)
    | some w =>
      let head := Tag.unpack w
      if head.size < minBlock ∨ bp + head.size > brk then .error (.invalidPointer ptr)
      else if (h.arena.word? (bp + head.size - 8)).map Tag.unpack ≠ some head then
        .error (.invalidPointer ptr)
      else if head.isFree then .error (.doubleFree ptr)
      else .ok head

/-- Check `ptr` against the heap as it stands. -/
def live (ptr : BlockPtr) : RequestM Tag := do
  match (← get).liveTag ptr with
  | .ok t => pure t
  | .error e => throw e

/-- Grow the arena by `incr` bytes, answering the old break; a refusal is out of memory. -/
def growArena (incr : Nat) : RequestM Nat := do
  let r ← modifyGet fun h => match h with
    | ⟨arena, config, tail, counters⟩ =>
      let (a, r) := arena.grow incr
      (r, ⟨a, config, tail, counters⟩)
  match r with
  | .ok old => pure old
  | .error e => throw (.outOfMemory incr e)

/-- Merge the free block at `bp` with a free successor, then with a free predecessor,
mark the result free and link it into the list. Answers the merged block. -/
def coalesce (bp : Nat) : HeapM Nat := do
  let mut size := (← tagAt bp).size
  let next ← nextBlock bp
  let nextTag ← tagAt next
  if nextTag.isFree then
    remove next
    size := size + nextTag.size
  let prevTag ← tagBefore bp
  let mut start := bp
  if prevTag.isFree then
    let prev ← prevBlock bp
    remove prev
    size := size + prevTag.size
    start := prev
  setTag start (Tag.free size)
  insert start size
  return start

/-- Mark the block at `bp` of the given size free and merge it with its neighbours. -/
def freeBlock (bp size : Nat) : HeapM Unit := do
  setTag bp (Tag.free size)
  discard <| coalesce bp

/-- Grow the arena by `size` bytes, rounded up to a multiple of eight, and turn the new
space into a free block: the old epilogue header becomes its header and a new epilogue
follows it. Answers the block after merging with a free predecessor. Growth that would
pass the 32-bit range is refused before the arena is asked. -/
def extend (size : Nat) : RequestM Nat := do
  let some size := align size | throw (.invalidSize size)
  let brk := (← get).arena.brk
  if brk + size > addressable then
    throw (.outOfMemory size (.exhausted size brk addressable))
  let bp ← growArena size
  setTag bp (Tag.free size)
  setEpilogue (← nextBlock bp)
  count fun c => { c with grows := c.grows + 1 }
  coalesce bp

/-- Make the detached region of `size` bytes at `bp` an allocated block of `adjusted`
bytes, and free the remainder as its own block when it can hold one. -/
def split (bp size adjusted : Nat) : HeapM Unit := do
  let rest ← less size adjusted
  if rest ≥ minBlock then
    setTag bp (Tag.allocated adjusted)
    let remainder ← nextBlock bp
    setTag remainder (Tag.free rest)
    insert remainder rest
  else
    setTag bp (Tag.allocated size)

/-- Take the free block at `bp` out of the list and allocate `adjusted` bytes of it. -/
def place (bp adjusted : Nat) : HeapM Unit := do
  remove bp
  split bp (← tagAt bp).size adjusted

/-- Grow the allocated block at `bp`, now `current` bytes, to `adjusted` bytes where it
stands. A free successor that makes up the difference is absorbed. Otherwise, when the
block ends at the epilogue, directly or through one free successor, the arena grows by
the shortfall or by one chunk, whichever is more, and the new space is absorbed. Answers
whether the block grew; a refused growth is the arena's refusal. -/
def growInPlace (bp current adjusted : Nat) : RequestM Bool := do
  let next ← nextBlock bp
  let nextTag ← tagAt next
  let available := if nextTag.isFree then current + nextTag.size else current
  let absorbed ← if nextTag.isFree ∧ available ≥ adjusted then do
      remove next
      pure nextTag.size
    else do
      let last ← if nextTag.isFree then nextBlock next else pure next
      if (← tagAt last).size ≠ 0 then return false
      let shortfall ← less adjusted available
      let grown ← extend (max shortfall (← get).config.chunkSize)
      -- The new space merges into the block right after `bp`, or is that block.
      if grown ≠ next then stop (.unmet "grown block follows the resized block")
      remove grown
      pure (← tagAt grown).size
  split bp (current + absorbed) adjusted
  return true

/-- Lay the heap out afresh: empty the arena, forget the free list and the counters,
write the padding word, the prologue and the epilogue, and grow by the initial
extension. Every earlier pointer becomes invalid. -/
def init : RequestM Unit := do
  modify fun h => { h with arena := h.arena.reset, tail := none, counters := {} }
  discard <| growArena heapOverhead
  setWord 0 0
  setTag prologue (Tag.allocated tagOverhead)
  setEpilogue firstBlock
  let initial := (← get).config.initialExtend
  if initial > 0 then discard <| extend initial

/-- A block with at least `size` usable bytes: the best fit, or new space at the end of
the arena. A zero-byte request is refused. -/
def acquire (size : Nat) : RequestM BlockPtr := do
  if size = 0 then throw (.invalidSize size)
  let some adjusted := adjust size | throw (.invalidSize size)
  let bp ← match ← findFit adjusted with
    | some bp => pure bp
    | none => extend (max adjusted (← get).config.chunkSize)
  place bp adjusted
  count fun c => { c with acquires := c.acquires + 1 }
  return ⟨bp⟩

/-- Free the live block at `ptr` and merge it with free neighbours. -/
def release (ptr : BlockPtr) : RequestM Unit := do
  let t ← live ptr
  freeBlock ptr.offset t.size
  count fun c => { c with releases := c.releases + 1 }

/-- Give the live block at `ptr` at least `size` usable bytes, keeping its first
`min (usable) size` bytes. Size 0 releases it and answers none. A block that is large
enough stays as it is; otherwise it grows in place or moves, and a failed growth in place
falls back to moving. -/
def resize (ptr : BlockPtr) (size : Nat) : RequestM (Option BlockPtr) := do
  if size = 0 then
    release ptr
    return none
  let current := (← live ptr).size
  let some adjusted := adjust size | throw (.invalidSize size)
  if current ≥ adjusted then
    count fun c => { c with resizes := c.resizes + 1 }
    return some ptr
  let grown ← tryCatch (growInPlace ptr.offset current adjusted) fun _ => pure false
  if grown then
    count fun c => { c with resizes := c.resizes + 1 }
    return some ptr
  let moved ← acquire size
  modifyArena (·.move ptr.offset (min (current - tagOverhead) size) moved.offset)
  freeBlock ptr.offset current
  count fun c => { c with resizes := c.resizes + 1, relocations := c.relocations + 1 }
  return some moved

/-- The number of usable bytes of the live block at `ptr`. -/
def usableSize (h : Heap) (ptr : BlockPtr) : Except HeapError Nat := do
  return (← h.liveTag ptr).size - tagOverhead

/-- The arena offset and length of the payload of the live block at `ptr`. -/
def payloadRange (h : Heap) (ptr : BlockPtr) : Except HeapError (Nat × Nat) := do
  return (ptr.offset, (← h.liveTag ptr).size - tagOverhead)

/-- Run a request on `h`: a fault, or the outcome with the heap it leaves. -/
def run (r : RequestM α) (h : Heap) : Except Fault (Except HeapError α × Heap) :=
  (ExceptT.run r).run h

/-- Build a heap over `arena`: the configuration must be valid, the arena's ceiling
addressable with 32-bit offsets, and the first layout must succeed. -/
def create (arena : Arena) (config : HeapConfig) : Except Fault (Except HeapError Heap) :=
  match config.validate with
  | .error e => .ok (.error e)
  | .ok () =>
    if arena.maxBytes > addressable then
      .ok (.error (.invalidConfig
        s!"arena limit {arena.maxBytes} exceeds the addressable {addressable} bytes"))
    else
      match run init ⟨arena, config, none, {}⟩ with
      | .error f => .error f
      | .ok (.error e, _) => .ok (.error e)
      | .ok (.ok (), h) => .ok (.ok h)

end Heap

end Allocator
