import Allocator.Memory

/-! A block is a run of arena bytes whose size is a multiple of eight. Its first word (the
header) and its last word (the footer) both hold a tag: the block size with the low bit
marking an allocated block. While a block is free, its first two payload words link it
into the free list. This module holds the tag codec, the size arithmetic of requests, and
block pointers, the payload offsets that the allocator hands out. Sizes are 64-bit and
offsets 32-bit; the arithmetic reports overflow past those widths instead of wrapping.
Decoding a packed tag gives it back whenever its size is aligned and fits a word, and an
adjusted request is aligned, at least `minBlock`, and large enough for the payload with its
header and footer. -/
namespace Allocator

/-- Sizes are 64-bit: a size computation reaching this bound, `2^64`, has overflowed. Like
`wordBound`, it is one shared value in compiled code. -/
@[noinline] def sizeBound : Nat := 18446744073709551616

/-- Offsets and tag sizes are 32-bit: an arena never holds more than this many bytes. -/
@[noinline] def addressable : Nat := wordBound - 1

/-- Block sizes and payload offsets are multiples of this. -/
def alignment : Nat := 8

/-- Header plus footer: the bytes of a block that are not payload. -/
def tagOverhead : Nat := 8

/-- The smallest block: a header, a footer and room for two links. -/
def minBlock : Nat := 16

/-- Payload offset of the prologue, the allocated 8-byte block that opens the arena. -/
def prologue : Nat := 8

/-- Payload offset of the first real block, right after the prologue. -/
def firstBlock : Nat := 16

/-- Arena bytes outside every block: the leading pad word, the prologue and the
epilogue header. -/
def heapOverhead : Nat := 16

/-- Whether a block is handed out or waiting in the free list. -/
inductive BlockState where
  /-- Linked into the free list; its first two payload words are links. -/
  | free
  /-- Handed out; its payload belongs to the caller. -/
  | allocated
deriving Repr, DecidableEq, Inhabited

/-- A decoded boundary tag: the whole block size, header and footer included, and the
block's state. -/
structure Tag where
  /-- Block size in bytes. -/
  size : Nat
  /-- Allocation state. -/
  state : BlockState
deriving Repr, DecidableEq, Inhabited

namespace Tag

/-- A free tag of the given size. -/
def free (size : Nat) : Tag := ⟨size, .free⟩

/-- An allocated tag of the given size. -/
def allocated (size : Nat) : Tag := ⟨size, .allocated⟩

/-- Whether the tag marks a free block. -/
def isFree (t : Tag) : Bool := t.state == .free

/-- The tag word: the size's low 32 bits with bits 0 to 2 cleared, and bit 0 set for an
allocated block. -/
def pack (t : Tag) : Nat :=
  t.size % wordBound / 8 * 8 + (match t.state with | .free => 0 | .allocated => 1)

/-- Decode a tag word. Bits 1 and 2 are ignored. -/
@[inline] def unpack (w : Nat) : Tag :=
  ⟨w / 8 * 8, if w % 2 = 1 then .allocated else .free⟩

theorem pack_lt (t : Tag) : t.pack < wordBound := by
  have hw : wordBound = 4294967296 := rfl
  have hs := Nat.mod_lt t.size (show 0 < wordBound by rw [hw]; decide)
  unfold pack
  split <;> omega

/-- Decoding a tag word gives back a tag whose size is a multiple of eight and fits a
word. -/
theorem unpack_pack (t : Tag) (h8 : t.size % 8 = 0) (hw : t.size < wordBound) :
    unpack t.pack = t := by
  obtain ⟨size, state⟩ := t
  simp only at h8 hw
  cases state <;> simp only [pack, unpack, Nat.mod_eq_of_lt hw, Tag.mk.injEq]
  · have e : ¬ (size / 8 * 8 + 0) % 2 = 1 := by omega
    rw [if_neg e]
    exact ⟨by omega, rfl⟩
  · have e : (size / 8 * 8 + 1) % 2 = 1 := by omega
    rw [if_pos e]
    exact ⟨by omega, rfl⟩

end Tag

/-- Round `n` up to a multiple of eight; none when that passes the 64-bit range. -/
def align (n : Nat) : Option Nat :=
  if n + 7 < sizeBound then some ((n + 7) / 8 * 8) else none

/-- The block size that serves a request of `n` payload bytes: header and footer added,
rounded up to a multiple of eight, and at least `minBlock`. None on 64-bit overflow. -/
def adjust (n : Nat) : Option Nat :=
  if n + tagOverhead < sizeBound then (align (n + tagOverhead)).map (max · minBlock)
  else none

theorem align_eq_some {n a : Nat} (h : align n = some a) : a % 8 = 0 ∧ n ≤ a ∧ a < n + 8 := by
  unfold align at h
  split at h
  · cases h; omega
  · contradiction

theorem align_eq_none_iff (n : Nat) : align n = none ↔ sizeBound ≤ n + 7 := by
  unfold align
  split <;> simp <;> omega

/-- A successful adjustment is a multiple of eight, at least `minBlock`, and holds the
payload with its header and footer. -/
theorem adjust_eq_some {n a : Nat} (h : adjust n = some a) :
    a % 8 = 0 ∧ minBlock ≤ a ∧ n + tagOverhead ≤ a := by
  unfold adjust at h
  split at h
  · cases ha : align (n + tagOverhead) with
    | none => rw [ha] at h; contradiction
    | some b =>
      rw [ha] at h
      cases h
      have := align_eq_some ha
      simp only [minBlock, tagOverhead] at *
      omega
  · contradiction

/-- Lowercase hexadecimal digits of `n`, padded with zeros to at least `width`. -/
def hexDigits (n width : Nat) : String :=
  let digits := Nat.toDigits 16 n
  String.ofList (List.replicate (width - digits.length) '0' ++ digits)

/-- The payload offset of a block: the address the allocator hands out. Offsets are
32-bit, and 0 is never a payload, so links use 0 for "no block". -/
structure BlockPtr where
  /-- The payload offset within the arena. -/
  offset : Nat
deriving Repr, DecidableEq, Hashable, Inhabited

namespace BlockPtr

/-- A pointer for a raw offset; none past the 32-bit range. -/
def ofOffset? (n : Nat) : Option BlockPtr :=
  if n < wordBound then some ⟨n⟩ else none

/-- The pointer as messages show it: `0x` and eight hexadecimal digits. -/
def display (p : BlockPtr) : String :=
  "0x" ++ hexDigits p.offset 8

end BlockPtr

end Allocator
