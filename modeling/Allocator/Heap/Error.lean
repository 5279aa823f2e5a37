import Allocator.Arena

/-! The ways a heap refuses a request. A refused request leaves every block and the free
list as they were; only an arena's count of growth attempts may have moved. -/
namespace Allocator

/-- Why the heap refused a request. -/
inductive HeapError where
  /-- A zero-byte request, or one so large that its block size overflows. -/
  | invalidSize (requested : Nat)
  /-- The arena refused to grow by `requested` bytes, for the reason `cause`. -/
  | outOfMemory (requested : Nat) (cause : ArenaError)
  /-- The pointer names no live block of this heap. -/
  | invalidPointer (ptr : BlockPtr)
  /-- The pointer names a block that is already free. -/
  | doubleFree (ptr : BlockPtr)
  /-- The heap's or the arena's configuration is unusable. -/
  | invalidConfig (reason : String)
deriving Repr, DecidableEq

namespace HeapError

/-- The message of a refusal. -/
def message : HeapError → String
  | .invalidSize n => s!"invalid allocation size {n}"
  | .outOfMemory n _ => s!"out of memory: arena could not grow by {n} bytes"
  | .invalidPointer p => s!"invalid block pointer {p.display}"
  | .doubleFree p => s!"block {p.display} is already free"
  | .invalidConfig reason => s!"invalid heap config: {reason}"

end HeapError

end Allocator
