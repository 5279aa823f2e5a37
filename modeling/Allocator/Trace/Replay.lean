import Allocator.Trace.Reader
import Allocator.Heap.Session
import Std.Data.HashMap

/-! Replaying a trace on a heap. Each identifier holds at most one block at a time. When
payloads are verified, a block acquired for an identifier is filled with that
identifier's pattern, and before the block is released or resized the pattern is checked
to be intact; after a resize the kept prefix is checked again and the block refilled.
The sum of the sizes that live identifiers asked for is tracked, and its peak reported.
The replay stops at the first failure and leaves the heap as that request left it. The
pattern bytes written for an identifier are, position by position, `pattern`. -/
namespace Allocator

/-- What a replay checks as it goes. -/
structure ReplayOptions where
  /-- Check the heap's structure after every request. -/
  checkEachOp : Bool := false
  /-- Fill payloads with patterns and check them before they are released or resized. -/
  verifyPayloads : Bool := true
deriving Repr, DecidableEq

namespace ReplayOptions

/-- Both checks on. -/
def strict : ReplayOptions := ⟨true, true⟩

end ReplayOptions

/-- The block an identifier holds and the size asked for it. -/
structure Binding where
  /-- The block. -/
  ptr : BlockPtr
  /-- The size asked for. -/
  size : Nat
deriving Repr, DecidableEq

/-- The seed byte of identifier `id`: the top byte of `id` times `0x9e3779b9` modulo
`2^32`. -/
def patternSeed (id : Nat) : UInt8 := (id * 0x9e3779b9 % Nat.pow 2 32 / Nat.pow 2 24).toUInt8

/-- The byte at position `i` of the block of identifier `id`: its seed byte,
exclusive-or the low byte of `i`. -/
def pattern (id i : Nat) : UInt8 := patternSeed id ^^^ i.toUInt8

/-- The first `n` bytes of the pattern of `id`. The pattern repeats every 256 bytes, so
one period is computed and then copied. -/
def patternBytes (id n : Nat) : ByteArray :=
  extendPeriodic (go (patternSeed id) 0 (min n 256) (ByteArray.emptyWithCapacity n)) n n
where
  /-- Append `k` bytes of the pattern mixing `top`, from the position whose low byte is
  `i` on. -/
  go (top i : UInt8) : Nat → ByteArray → ByteArray
    | 0, acc => acc
    | k + 1, acc => go top (i + 1) k (acc.push (top ^^^ i))

theorem size_patternBytes_go (top i : UInt8) (k : Nat) (acc : ByteArray) :
    (patternBytes.go top i k acc).size = acc.size + k := by
  induction k generalizing i acc with
  | zero => rfl
  | succ k ih =>
    simp only [patternBytes.go, ih, ByteArray.size_push]
    omega

/-- The period builder keeps what it starts with and appends, at offset `t` past it,
the byte `top` exclusive-or `i + t`. -/
theorem getElem?_patternBytes_go (top i : UInt8) (k : Nat) (acc : ByteArray) (j : Nat) :
    (patternBytes.go top i k acc)[j]? =
      if j < acc.size then acc[j]?
      else if j < acc.size + k then some (top ^^^ (i + (j - acc.size).toUInt8)) else none := by
  induction k generalizing i acc with
  | zero =>
    show acc[j]? = _
    by_cases h : j < acc.size
    · rw [if_pos h]
    · rw [if_neg h, if_neg (show ¬ j < acc.size + 0 by omega)]
      exact getElem?_neg acc j h
  | succ k ih =>
    simp only [patternBytes.go]
    rw [ih, getElem?_push_bytes, ByteArray.size_push]
    by_cases h1 : j < acc.size
    · rw [if_pos (show j < acc.size + 1 by omega), if_pos h1, if_pos h1]
    · rw [if_neg h1, if_neg h1]
      by_cases h2 : j = acc.size
      · subst h2
        rw [if_pos (Nat.lt_succ_self _), if_pos rfl,
          if_pos (show acc.size < acc.size + (k + 1) by omega), Nat.sub_self]
        have e0 : (0 : Nat).toUInt8 = 0 := rfl
        rw [e0, UInt8.add_zero]
      · rw [if_neg (show ¬ j < acc.size + 1 by omega)]
        by_cases h3 : j < acc.size + (k + 1)
        · rw [if_pos (show j < acc.size + 1 + k by omega), if_pos h3]
          congr 2
          apply UInt8.toNat_inj.mp
          have e1 : (1 : UInt8).toNat = 1 := rfl
          simp only [Nat.toUInt8, UInt8.toNat_add, UInt8.toNat_ofNat', e1]
          omega
        · rw [if_neg (show ¬ j < acc.size + 1 + k by omega), if_neg h3]

/-- The pattern bytes of `id` up to `n` are `n` bytes. -/
theorem size_patternBytes (id n : Nat) : (patternBytes id n).size = n := by
  have hp : (patternBytes.go (patternSeed id) 0 (min n 256) (ByteArray.emptyWithCapacity n)).size
      = min n 256 := by
    have he : (ByteArray.emptyWithCapacity n).size = 0 := rfl
    rw [size_patternBytes_go, he, Nat.zero_add]
  unfold patternBytes
  by_cases hn : n = 0
  · subst hn
    simp only [extendPeriodic]
    rw [hp]; rfl
  · rw [size_extendPeriodic n n _ (by rw [hp]; omega) ?_, hp]
    · omega
    · rw [hp]
      have := Nat.lt_two_pow_self (n := n)
      have h1 : 1 ≤ min n 256 := by omega
      calc n ≤ Nat.pow 2 n := Nat.le_of_lt this
        _ = 1 * Nat.pow 2 n := (Nat.one_mul _).symm
        _ ≤ min n 256 * Nat.pow 2 n := Nat.mul_le_mul_right _ h1

/-- Byte `j` of the first `n` pattern bytes of `id` is `pattern id j`. -/
theorem getElem?_patternBytes (id n j : Nat) :
    (patternBytes id n)[j]? = if j < n then some (pattern id j) else none := by
  have he : (ByteArray.emptyWithCapacity n).size = 0 := rfl
  have hb : ∀ i, i < min n 256 →
      (patternBytes.go (patternSeed id) 0 (min n 256) (ByteArray.emptyWithCapacity n))[i]? =
        some (pattern id i) := by
    intro i hi
    rw [getElem?_patternBytes_go, he, if_neg (Nat.not_lt_zero _),
      if_pos (show i < 0 + min n 256 by omega), Nat.sub_zero, UInt8.zero_add]
    rfl
  have hp : (patternBytes.go (patternSeed id) 0 (min n 256) (ByteArray.emptyWithCapacity n)).size
      = min n 256 := by
    rw [size_patternBytes_go, he, Nat.zero_add]
  unfold patternBytes
  generalize patternBytes.go (patternSeed id) 0 (min n 256) (ByteArray.emptyWithCapacity n) = b
    at hb hp ⊢
  by_cases hn : n = 0
  · subst hn
    simp only [extendPeriodic, Nat.not_lt_zero, if_false]
    exact getElem?_neg b j (by omega)
  · have hf : n ≤ b.size * Nat.pow 2 n := by
      have := Nat.lt_two_pow_self (n := n)
      have h1 : 1 ≤ b.size := by omega
      calc n ≤ Nat.pow 2 n := Nat.le_of_lt this
        _ = 1 * Nat.pow 2 n := (Nat.one_mul _).symm
        _ ≤ b.size * Nat.pow 2 n := Nat.mul_le_mul_right _ h1
    rw [getElem?_extendPeriodic b n n (by omega) (by omega) hf]
    split
    · rename_i hj
      rw [hb (j % b.size) (by rw [← hp]; exact Nat.mod_lt _ (by omega))]
      congr 1
      unfold pattern
      congr 1
      rw [hp]
      by_cases h256 : n ≤ 256
      · rw [Nat.min_eq_left h256, Nat.mod_eq_of_lt hj]
      · rw [Nat.min_eq_right (by omega)]
        apply UInt8.toNat_inj.mp
        simp only [Nat.toUInt8, UInt8.toNat_ofNat']
        omega
    · rfl

/-- What a finished replay reports. -/
structure ReplayReport where
  /-- The number of records. -/
  ops : Nat
  /-- Identifiers holding a block at the end. -/
  live : Nat
  /-- The largest sum of sizes held at once. -/
  peakPayload : Nat
  /-- The heap's statistics at the end. -/
  finalStats : HeapStats
deriving Repr

/-- A replay in progress. -/
structure Replay where
  /-- The heap. -/
  heap : Heap
  /-- The block each live identifier holds. -/
  live : Std.HashMap Nat Binding := {}
  /-- The sum of the sizes the live identifiers asked for. -/
  payload : Nat := 0
  /-- Its largest value so far. -/
  peak : Nat := 0

namespace ReplayReport

/-- The peak payload as a share of the final arena, as the text of the nearest binary64
value; an empty arena shows `0.0`. -/
def utilization (r : ReplayReport) : String :=
  if r.finalStats.arenaBytes = 0 then "0.0"
  else HeapStats.ratioLayout.ratio r.peakPayload r.finalStats.arenaBytes

end ReplayReport

namespace Replay

/-- Run a heap request, a refusal becoming a failure of the line. -/
def request (st : Replay) (line : Nat) (r : RequestM α) :
    Except Fault (Replay × Except TraceError α) :=
  match st with
  | ⟨heap, live, payload, peak⟩ =>
    (Heap.run r heap).map fun (out, heap) => (⟨heap, live, payload, peak⟩, out.mapError (.heap line))

/-- The payload of the live block `ptr`, as arena offset and length, checked to hold at
least `len` bytes; a block smaller than that is a fault. -/
def payloadFor (h : Heap) (line : Nat) (ptr : BlockPtr) (len : Nat) :
    Except Fault (Except TraceError Nat) :=
  match h.payloadRange ptr with
  | .error e => .ok (.error (.heap line e))
  | .ok (base, avail) => if len ≤ avail then .ok (.ok base) else .error (.outOfBounds base (base + len))

/-- Fill the first `b.size` payload bytes of the block of `id` with its pattern. -/
def fill (st : Replay) (line id : Nat) (b : Binding) : Except Fault (Replay × Except TraceError Unit) := do
  match ← payloadFor st.heap line b.ptr b.size with
  | .error e => return (st, .error e)
  | .ok base =>
    match st with
    | ⟨heap, live, payload, peak⟩ =>
      let ((), heap) ← Heap.modifyArena (·.write base (patternBytes id b.size)) heap
      return (⟨heap, live, payload, peak⟩, .ok ())

/-- Check that the first `len` payload bytes of `ptr` still hold the pattern of `id`. -/
def verify (h : Heap) (line id : Nat) (ptr : BlockPtr) (len : Nat) :
    Except Fault (Except TraceError Unit) := do
  match ← payloadFor h line ptr len with
  | .error e => return .error e
  | .ok base =>
    let held ← h.arena.read base len
    return if sameBytes held (patternBytes id len) then .ok () else .error (.corrupted line id)

/-- Change what the replay tracks besides the heap. -/
def track (st : Replay) (f : Std.HashMap Nat Binding → Std.HashMap Nat Binding)
    (payload : Nat → Nat) : Replay :=
  match st with
  | ⟨heap, live, p, peak⟩ => ⟨heap, f live, payload p, peak⟩

/-- Replay one request. -/
def apply (opts : ReplayOptions) (st : Replay) (line : Nat) :
    Request → Except Fault (Replay × Except TraceError Unit)
  | .acquire key size => do
    if st.live.contains key then return (st, .error (.liveId line key))
    let (st, out) ← st.request line (Heap.acquire size)
    match out with
    | .error e => return (st, .error e)
    | .ok ptr =>
      let b : Binding := ⟨ptr, size⟩
      let (st, filled) ← if opts.verifyPayloads then st.fill line key b else pure (st, .ok ())
      match filled with
      | .error e => return (st, .error e)
      | .ok () => return (st.track (·.insert key b) (· + size), .ok ())
  | .release key => do
    match st.live.get? key with
    | none => return (st, .error (.unknownId line key))
    | some b =>
      let st := st.track (·.erase key) (fun p => p)
      if opts.verifyPayloads then
        match ← verify st.heap line key b.ptr b.size with
        | .error e => return (st, .error e)
        | .ok () => pure ()
      let (st, out) ← st.request line (Heap.release b.ptr)
      match out with
      | .error e => return (st, .error e)
      | .ok () => return (st.track (fun l => l) (· - b.size), .ok ())
  | .resize key size => do
    match st.live.get? key with
    | none => return (st, .error (.unknownId line key))
    | some old =>
      if opts.verifyPayloads then
        match ← verify st.heap line key old.ptr old.size with
        | .error e => return (st, .error e)
        | .ok () => pure ()
      let (st, out) ← st.request line (Heap.resize old.ptr size)
      match out with
      | .error e => return (st, .error e)
      | .ok none => return (st.track (·.erase key) (· - old.size), .ok ())
      | .ok (some ptr) =>
        let st := st.track (fun l => l) (· - old.size)
        let b : Binding := ⟨ptr, size⟩
        if opts.verifyPayloads then
          match ← verify st.heap line key ptr (min old.size size) with
          | .error e => return (st, .error e)
          | .ok () => pure ()
          let (st', filled) ← st.fill line key b
          match filled with
          | .error e => return (st', .error e)
          | .ok () => return (st'.track (·.insert key b) (· + size), .ok ())
        else return (st.track (·.insert key b) (· + size), .ok ())

/-- Replay one record: the request, the peak, and the check if asked for. -/
def step (opts : ReplayOptions) (st : Replay) (r : Record) :
    Except Fault (Replay × Except TraceError Unit) :=
  match st.apply opts r.line r.request with
  | .error f => .error f
  | .ok (st, .error e) => .ok (st, .error e)
  | .ok (st, .ok ()) =>
    let st := { st with peak := max st.peak st.payload }
    if opts.checkEachOp then
      match st.heap.check with
      | .error e => .ok (st, .error (.inconsistent r.line e))
      | .ok () => .ok (st, .ok ())
    else .ok (st, .ok ())

/-- Replay records in order until they end or one fails. -/
def run (opts : ReplayOptions) : List Record → Replay → Except Fault (Replay × Except TraceError Unit)
  | [], st => .ok (st, .ok ())
  | r :: rest, st =>
    match step opts st r with
    | .error f => .error f
    | .ok (st, .error e) => .ok (st, .error e)
    | .ok (st, .ok ()) => run opts rest st

end Replay

/-- Replay a trace on a heap: the heap it leaves, and the report or the first failure. -/
def Trace.replay (t : Trace) (h : Heap) (opts : ReplayOptions) :
    Except Fault (Heap × Except TraceError ReplayReport) := do
  let (st, out) ← Replay.run opts t.records.toList { heap := h }
  match out with
  | .error e => return (st.heap, .error e)
  | .ok () =>
    let stats := st.heap.stats
    return (st.heap, .ok ⟨t.size, st.live.size, st.peak, stats⟩)

end Allocator
