import Allocator.Heap.Error

/-! How a heap grows its arena: by at least one chunk per growth, and by an initial
extension when it is laid out, so that the first request finds a free block. -/
namespace Allocator

/-- Growth parameters of a heap, fixed when it is built. -/
structure HeapConfig where
  /-- The fewest bytes one growth asks of the arena. -/
  chunkSize : Nat
  /-- Bytes added when the heap is laid out; zero adds none. -/
  initialExtend : Nat
deriving Repr, DecidableEq

namespace HeapConfig

/-- Chunk and initial extension both `chunkSize`. -/
def ofChunk (chunkSize : Nat) : HeapConfig := ⟨chunkSize, chunkSize⟩

/-- The default: 4 KiB chunks and a 4 KiB initial extension. -/
def standard : HeapConfig := ofChunk 4096

/-- The chunk must be a non-zero multiple of eight and the initial extension a multiple
of eight; the chunk is checked first. -/
def validate (c : HeapConfig) : Except HeapError Unit :=
  if c.chunkSize = 0 ∨ c.chunkSize % alignment ≠ 0 then
    .error (.invalidConfig
      s!"chunk_size {c.chunkSize} must be a non-zero multiple of {alignment}")
  else if c.initialExtend % alignment ≠ 0 then
    .error (.invalidConfig s!"initial_extend {c.initialExtend} must be a multiple of {alignment}")
  else .ok ()

end HeapConfig

end Allocator
