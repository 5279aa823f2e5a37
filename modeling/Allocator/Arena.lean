import Allocator.Memory
import Allocator.Block

/-! An arena is a run of bytes that grows at one end, the break, up to a ceiling. Growing
it answers the old break, so the new bytes start there. Two kinds of backing exist: a
growable one, whose new bytes read as zero and whose reset discards every byte, and a
reserved one, a region laid out up front whose growth only moves the break and whose
reset keeps the bytes, so later growth shows what an earlier use left. An arena may also
carry a refusal schedule: from a given growth attempt on, every growth is refused. -/
namespace Allocator

/-- Why an arena refused. -/
inductive ArenaError where
  /-- Growing by `requested` bytes at break `brk` would pass the ceiling `max`. -/
  | exhausted (requested brk max : Nat)
  /-- The arena's configuration is unusable. -/
  | invalidConfig (reason : String)
deriving Repr, DecidableEq

namespace ArenaError

/-- The message of an arena refusal. -/
def message : ArenaError → String
  | .exhausted r b m =>
    s!"arena exhausted: requested {r} bytes at break {b}, ceiling {m} bytes"
  | .invalidConfig reason => s!"invalid arena config: {reason}"

end ArenaError

/-- The configuration of a growable arena: its ceiling, and a capacity hint with no
visible effect. -/
structure ArenaConfig where
  /-- The ceiling in bytes. -/
  maxBytes : Nat
  /-- Bytes to reserve up front; only a hint. -/
  initialCapacity : Nat := 0
deriving Repr, DecidableEq

namespace ArenaConfig

/-- The default ceiling: 20 MiB. -/
def defaultMaxBytes : Nat := 20 * Nat.pow 2 20

/-- A ceiling must be non-zero and addressable with 32-bit offsets. -/
def validate (c : ArenaConfig) : Except ArenaError Unit :=
  if c.maxBytes = 0 then .error (.invalidConfig "max_bytes must be non-zero")
  else if c.maxBytes > addressable then
    .error (.invalidConfig
      s!"max_bytes {c.maxBytes} exceeds the 32-bit offset limit {addressable}")
  else .ok ()

end ArenaConfig

/-- How an arena obtains the bytes past its break. -/
inductive Backing where
  /-- Bytes are added on growth and read as zero; a reset discards them all. -/
  | growable
  /-- A region laid out up front; growth moves the break over it and a reset keeps it. -/
  | reserved
deriving Repr, DecidableEq

/-- An arena: bytes below the break are in use; `memory` holds at least those. -/
structure Arena where
  /-- Where bytes past the break come from. -/
  backing : Backing
  /-- The bytes; a growable arena holds exactly the bytes below the break. -/
  memory : ByteArray
  /-- The number of bytes in use. -/
  brk : Nat
  /-- The ceiling: the break never passes it. -/
  maxBytes : Nat
  /-- Growth attempts (of at least one byte) since the last reset, refused ones included. -/
  attempts : Nat := 0
  /-- When set to `n`, the `n`-th growth attempt since the last reset and every later one
  are refused. -/
  refuseFrom : Option Nat := none

namespace Arena

/-- An empty growable arena with the given ceiling. -/
def growable (maxBytes : Nat) : Arena :=
  { backing := .growable, memory := ByteArray.empty, brk := 0, maxBytes }

/-- A growable arena from a configuration that passes validation. -/
def ofConfig (c : ArenaConfig) : Except ArenaError Arena := do
  c.validate
  return growable c.maxBytes

/-- A reserved region of `capacity` bytes, each `fill`, with the break at 0. -/
def reserved (capacity : Nat) (fill : UInt8) : Arena :=
  { backing := .reserved, memory := repeatByte fill capacity, brk := 0,
    maxBytes := capacity }

/-- The bytes below the break remaining before the ceiling. -/
def remaining (a : Arena) : Nat := a.maxBytes - a.brk

/-- Replace the memory by what `f` makes of it and of the break, keeping every other
field. The memory is taken out of the arena first, so an arena held nowhere else is
updated in place. -/
@[inline] def modifyMemory (a : Arena) (f : ByteArray → Nat → Except Fault ByteArray) :
    Except Fault Arena :=
  match a with
  | ⟨backing, memory, brk, maxBytes, attempts, refuseFrom⟩ =>
    match f memory brk with
    | .ok m => .ok ⟨backing, m, brk, maxBytes, attempts, refuseFrom⟩
    | .error e => .error e

/-- Grow by `incr` bytes, answering the old break. A scheduled refusal comes before the
ceiling; a refused growth still counts as an attempt. -/
def grow (a : Arena) (incr : Nat) : Arena × Except ArenaError Nat :=
  match a with
  | ⟨backing, memory, brk, maxBytes, attempts, refuseFrom⟩ =>
    let attempts := if incr > 0 then attempts + 1 else attempts
    let refused := ArenaError.exhausted incr brk maxBytes
    if incr > 0 && refuseFrom.any (· ≤ attempts) then
      (⟨backing, memory, brk, maxBytes, attempts, refuseFrom⟩, .error refused)
    else if brk + incr ≥ sizeBound ∨ brk + incr > maxBytes then
      (⟨backing, memory, brk, maxBytes, attempts, refuseFrom⟩, .error refused)
    else
      let memory := match backing with
        | .growable => memory ++ repeatByte 0 incr
        | .reserved => memory
      (⟨backing, memory, brk + incr, maxBytes, attempts, refuseFrom⟩, .ok brk)

/-- Move the break back to 0 and restart the attempt count. A growable arena drops its
bytes; a reserved one keeps them for later growth to expose. -/
def reset (a : Arena) : Arena :=
  match a.backing with
  | .growable => { a with memory := ByteArray.empty, brk := 0, attempts := 0 }
  | .reserved => { a with brk := 0, attempts := 0 }

/-- The bytes below the break. -/
def bytes (a : Arena) : ByteArray := a.memory.extract 0 a.brk

/-- Set every byte below the break to `b`. -/
def fill (a : Arena) (b : UInt8) : Arena :=
  match a.modifyMemory (fun m brk => fillBytes m brk 0 brk b) with
  | .ok a' => a'
  | .error _ => a

/-- The word at `pos`, when its bytes lie below the break. -/
@[inline] def word? (a : Arena) (pos : Nat) : Option Nat := readWord? a.memory a.brk pos

/-- The word at `pos`; a fault when its bytes do not lie below the break. -/
def word (a : Arena) (pos : Nat) : Except Fault Nat := readWord a.memory a.brk pos

/-- Store a word at `pos`, below the break. -/
def setWord (a : Arena) (pos v : Nat) : Except Fault Arena :=
  a.modifyMemory fun m brk => writeWord m brk pos v

/-- The `len` bytes from `start` on, below the break. -/
def read (a : Arena) (start len : Nat) : Except Fault ByteArray :=
  readBytes a.memory a.brk start len

/-- Overwrite bytes from `start` on with `src`, below the break. -/
def write (a : Arena) (start : Nat) (src : ByteArray) : Except Fault Arena :=
  a.modifyMemory fun m brk => writeBytes m brk start src

/-- Copy `len` bytes from `src` to `dst`, both ranges below the break. -/
def move (a : Arena) (src len dst : Nat) : Except Fault Arena :=
  a.modifyMemory fun m brk => moveBytes m brk src len dst

/-- Set `len` bytes from `start` on to `b`, below the break. -/
def setBytes (a : Arena) (start len : Nat) (b : UInt8) : Except Fault Arena :=
  a.modifyMemory fun m brk => fillBytes m brk start len b

end Arena

/-- One step against a bare arena. -/
inductive ArenaStep where
  /-- Grow by `incr` bytes. -/
  | grow (incr : Nat)
  /-- Move the break back to 0. -/
  | reset
  /-- Set every byte below the break to `byte` modulo 256. -/
  | fill (byte : Nat)
  /-- Show the bytes below the break. -/
  | bytes
deriving Repr, DecidableEq

/-- What a step against a bare arena answers. -/
inductive ArenaAnswer where
  /-- The old break of a growth. -/
  | oldBrk (n : Nat)
  /-- A refused growth. -/
  | refused (e : ArenaError)
  /-- Nothing to show. -/
  | none
  /-- The bytes below the break. -/
  | bytes (b : ByteArray)
  /-- The step could not be read. -/
  | rejected (reason : String)

namespace Arena

/-- Carry out one step. -/
def perform (a : Arena) : ArenaStep → Arena × ArenaAnswer
  | .grow incr =>
    let (a, r) := a.grow incr
    (a, match r with
      | .ok old => .oldBrk old
      | .error e => .refused e)
  | .reset => (a.reset, .none)
  | .fill byte => (a.fill (byte % 256).toUInt8, .none)
  | .bytes => (a, .bytes a.bytes)

/-- Carry out steps in order; each answer comes with the break, the room left and the
ceiling after the step. A step that could not be read is answered as rejected. -/
def performAll (a : Arena) : List (Except String ArenaStep) → List (ArenaAnswer × Nat × Nat × Nat)
  | [] => []
  | st :: rest =>
    let (a, answer) := match st with
      | .ok st => a.perform st
      | .error reason => (a, .rejected reason)
    (answer, a.brk, a.remaining, a.maxBytes) :: performAll a rest

end Arena

end Allocator
