import Allocator.Heap.Walk
import Std.Data.HashSet

/-! The consistency check re-derives every structural rule of a heap from its arena bytes
and its free-list tail, and reports the first rule broken. The block walk checks the
prologue, that every block is at least `minBlock` bytes and ends by the break, that each
header equals its footer, that no free block follows a free block, and that the walk ends
in the epilogue exactly at the break. The free-list walk then checks that the list visits
free blocks only, each once, with back links that agree, in ascending size, and that it
visits every free block. The check reads only bytes below the break and never faults. -/
namespace Allocator

/-- The first structural rule that a heap breaks. Pointers are payload offsets. -/
inductive CheckError where
  /-- The arena is too short or misaligned, or its prologue tags are wrong. -/
  | badPrologue
  /-- The block walk did not end in a zero-size allocated header at the break. -/
  | badEpilogue (offset : Nat)
  /-- A tag or link of the block lies outside the arena. -/
  | outOfBounds (ptr : Nat)
  /-- The block's offset or size is not a multiple of eight. -/
  | misaligned (ptr : Nat)
  /-- The block is smaller than `minBlock`. -/
  | tooSmall (ptr size : Nat)
  /-- The block's header and footer differ. -/
  | tagMismatch (ptr : Nat) (header footer : Tag)
  /-- The block is free and so is the block before it. -/
  | adjacentFree (ptr : Nat)
  /-- A free block is missing from the free list. -/
  | freeNotListed (ptr : Nat)
  /-- The free list reaches something that is not a free block. -/
  | allocatedListed (ptr : Nat)
  /-- The block is smaller than the list entry before it. -/
  | listOrder (ptr : Nat)
  /-- The block's link toward smaller blocks does not lead back along the walk. -/
  | brokenLink (ptr : Nat)
  /-- The free list comes back to the block. -/
  | listCycle (ptr : Nat)
deriving Repr, DecidableEq

namespace Tag

/-- A tag as the check's messages show it. -/
def describe (t : Tag) : String :=
  let state := match t.state with
    | .free => "Free"
    | .allocated => "Allocated"
  s!"Tag \x7b size: {t.size}, state: {state} \x7d"

end Tag

namespace CheckError

/-- The message of a broken rule. -/
def message : CheckError → String
  | .badPrologue => "prologue block is damaged"
  | .badEpilogue o => s!"epilogue missing at offset {o}"
  | .outOfBounds p => s!"block {(BlockPtr.mk p).display} extends outside the arena"
  | .misaligned p => s!"block {(BlockPtr.mk p).display} is misaligned"
  | .tooSmall p s =>
    s!"block {(BlockPtr.mk p).display} has size {s}, below the minimum {minBlock}"
  | .tagMismatch p hd ft =>
    s!"block {(BlockPtr.mk p).display} header {hd.describe} does not match footer {ft.describe}"
  | .adjacentFree p => s!"block {(BlockPtr.mk p).display} is free and follows a free block"
  | .freeNotListed p => s!"free block {(BlockPtr.mk p).display} is not in the free list"
  | .allocatedListed p =>
    s!"free list reaches {(BlockPtr.mk p).display}, which is not a free block"
  | .listOrder p => s!"free list out of size order at {(BlockPtr.mk p).display}"
  | .brokenLink p => s!"free list link at {(BlockPtr.mk p).display} is inconsistent"
  | .listCycle p => s!"free list cycles back to {(BlockPtr.mk p).display}"

end CheckError

namespace Heap

/-- The tag in the word at `pos`, or `outOfBounds ptr` when it lies past the break. -/
@[inline] def checkedTag (a : Arena) (pos ptr : Nat) : Except CheckError Tag :=
  match a.word? pos with
  | some w => .ok (Tag.unpack w)
  | none => .error (.outOfBounds ptr)

/-- Walk the blocks from payload offset `cursor` on, knowing whether the block before was
free and holding in `met` the free blocks met so far; answers all free blocks met, in
address order, once the walk reaches the epilogue at the break. -/
def walkBlocks (a : Arena) (cursor : Nat) (prevFree : Bool) (met : Array Nat) :
    Except CheckError (Array Nat) := do
  if cursor ≥ wordBound then throw (.badEpilogue cursor)
  let header ← checkedTag a (cursor - wordBytes) cursor
  if header.size = 0 then
    if header.isFree ∨ cursor ≠ a.brk then throw (.badEpilogue cursor)
    return met
  if cursor % alignment ≠ 0 ∨ header.size % alignment ≠ 0 then throw (.misaligned cursor)
  if _hs : header.size < minBlock then throw (.tooSmall cursor header.size)
  else if _he : cursor + header.size > a.brk then throw (.outOfBounds cursor)
  else
    let footer ← checkedTag a (cursor + header.size - tagOverhead) cursor
    if footer ≠ header then throw (.tagMismatch cursor header footer)
    if header.isFree ∧ prevFree then throw (.adjacentFree cursor)
    walkBlocks a (cursor + header.size) header.isFree
      (if header.isFree then met.push cursor else met)
termination_by a.brk + 1 - cursor
decreasing_by omega

/-- The prologue checks and the block walk: the free blocks in address order. -/
def checkBlocks (a : Arena) : Except CheckError (Array Nat) := do
  if a.brk < heapOverhead ∨ a.brk % alignment ≠ 0 then throw .badPrologue
  let pro := Tag.allocated tagOverhead
  if (← checkedTag a (prologue - wordBytes) prologue) ≠ pro then throw .badPrologue
  if (← checkedTag a (prologue + tagOverhead - tagOverhead) prologue) ≠ pro then
    throw .badPrologue
  walkBlocks a firstBlock false #[]

/-- Walk the free list from `cursor` on; `smaller` is the block the walk came from and its
size, `seen` the blocks already visited, `free` the free blocks of the block walk. The
walk visits a new free block at every step, so `fuel` of one more than the number of free
blocks always suffices. -/
def walkFree (a : Arena) (free : Std.HashSet Nat) :
    Nat → Std.HashSet Nat → Option (Nat × Nat) → Option Nat → Except CheckError (Std.HashSet Nat)
  | _, seen, _, none => .ok seen
  | 0, seen, _, some _ => .ok seen
  | fuel + 1, seen, smaller, some ptr => do
    if !free.contains ptr then throw (.allocatedListed ptr)
    if seen.contains ptr then throw (.listCycle ptr)
    let seen := seen.insert ptr
    let size := (← checkedTag a (ptr - wordBytes) ptr).size
    let back ← match a.word? (Link.offset ptr .smaller) with
      | some w => pure w
      | none => throw (.outOfBounds ptr)
    if back ≠ (smaller.map Prod.fst).getD 0 then throw (.brokenLink ptr)
    if smaller.any (fun s => size < s.2) then throw (.listOrder ptr)
    let onward ← match a.word? (Link.offset ptr .larger) with
      | some w => pure w
      | none => throw (.outOfBounds ptr)
    walkFree a free fuel seen (some (ptr, size)) (if onward = 0 then none else some onward)

/-- Check every structural rule of the heap; the first broken one is the answer. -/
def check (h : Heap) : Except CheckError Unit := do
  let free ← checkBlocks h.arena
  let freeSet := (Std.HashSet.emptyWithCapacity free.size).insertMany free
  let seen ← walkFree h.arena freeSet (free.size + 1) (Std.HashSet.emptyWithCapacity free.size)
    none h.tail
  match free.find? (fun p => !seen.contains p) with
  | some p => throw (.freeNotListed p)
  | none => return ()

end Heap

end Allocator
