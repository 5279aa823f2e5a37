import Allocator.Trace.Basic

/-! Seeded random traces. A workload draws, for each of a given number of requests, a roll
against three weights: below the first it acquires a new identifier, below the first two
it releases a live one, otherwise it resizes a live one; with no live identifier it always
acquires. Sizes are drawn from 1 to the maximum size. Identifiers count up from 0, and a
released one leaves its place in the live list to the last. When the workload drains,
every identifier still live is released at the end, in list order. Two profiles fix the
parameters for benchmarks. The draws come from a random number generator that the caller
supplies (`Rng`); what the traces are is proved for every generator whose draws lie in the
ranges asked for (`Rng.InRange`). -/
namespace Allocator

/-- What the generator asks of a seedable random number generator with states `σ`: the
state seeded from a 64-bit value, and draws from the half-open range `lo..hi` of 32-bit
values, from the half-open range `lo..hi` of word-sized values and from the inclusive range
`lo..=hi` of word-sized values, each answering the next state. -/
structure Rng (σ : Type) where
  /-- The state seeded from a value. -/
  seed : Nat → σ
  /-- A 32-bit draw from `lo` up to `hi` exclusive. -/
  below32 : σ → Nat → Nat → Nat × σ
  /-- A word-sized draw from `lo` up to `hi` exclusive. -/
  below : σ → Nat → Nat → Nat × σ
  /-- A word-sized draw from `lo` to `hi` inclusive. -/
  upTo : σ → Nat → Nat → Nat × σ

/-- A generator whose draws lie in the nonempty ranges of its types that they are asked for. -/
structure Rng.InRange {σ : Type} (r : Rng σ) : Prop where
  below32 : ∀ g lo hi, lo < hi → hi ≤ Nat.pow 2 32 → lo ≤ (r.below32 g lo hi).1 ∧ (r.below32 g lo hi).1 < hi
  below : ∀ g lo hi, lo < hi → hi ≤ Nat.pow 2 64 → lo ≤ (r.below g lo hi).1 ∧ (r.below g lo hi).1 < hi
  upTo : ∀ g lo hi, lo ≤ hi → hi < Nat.pow 2 64 → lo ≤ (r.upTo g lo hi).1 ∧ (r.upTo g lo hi).1 ≤ hi

/-- The parameters of a random trace. -/
structure Workload where
  /-- The seed of the generator. -/
  seed : Nat
  /-- The number of random requests. -/
  ops : Nat
  /-- The largest size drawn. -/
  maxSize : Nat := 4096
  /-- Weights of acquiring, releasing and resizing. -/
  weights : Nat × Nat × Nat := (5, 3, 2)
  /-- Release every live identifier at the end. -/
  drain : Bool := true
deriving Repr, DecidableEq

namespace Workload

/-- Set the largest size, at least 1. -/
def withMaxSize (w : Workload) (m : Nat) : Workload := { w with maxSize := max m 1 }

/-- Set the weights; the acquiring weight is at least 1. -/
def withWeights (w : Workload) (a f r : Nat) : Workload := { w with weights := (max a 1, f, r) }

/-- What the generator carries from one request to the next. -/
structure Draft (σ : Type) where
  /-- The random generator's state. -/
  gen : σ
  /-- Live identifiers in list order. -/
  live : Array Nat := #[]
  /-- The next identifier to hand out. -/
  nextId : Nat := 0
  /-- The trace so far. -/
  trace : Trace := {}

/-- Remove the entry at `i`, moving the last entry into its place. -/
def swapRemove (a : Array Nat) (i : Nat) : Nat × Array Nat :=
  let x := a.getD i 0
  let last := a.size - 1
  (x, (a.set! i (a.getD last 0)).pop)

/-- One random request. -/
def draftStep {σ : Type} (w : Workload) (r : Rng σ) (d : Draft σ) : Draft σ :=
  let (a, f, _) := w.weights
  let total := a + f + w.weights.2.2
  let (roll, gen) := r.below32 d.gen 0 total
  if d.live.isEmpty || roll < a then
    let (size, gen) := r.upTo gen 1 w.maxSize
    { gen, live := d.live.push d.nextId, nextId := d.nextId + 1,
      trace := d.trace.push (.acquire d.nextId size) }
  else if roll < a + f then
    let (i, gen) := r.below gen 0 d.live.size
    let (key, live) := swapRemove d.live i
    { d with gen, live, trace := d.trace.push (.release key) }
  else
    let (i, gen) := r.below gen 0 d.live.size
    let (size, gen) := r.upTo gen 1 w.maxSize
    { d with gen, trace := d.trace.push (.resize (d.live.getD i 0) size) }

/-- `n` random requests. -/
def draftSteps {σ : Type} (w : Workload) (r : Rng σ) : Nat → Draft σ → Draft σ
  | 0, d => d
  | n + 1, d => draftSteps w r n (w.draftStep r d)

/-- The random trace of the workload, with draws from `r`. -/
def generate {σ : Type} (w : Workload) (r : Rng σ) : Trace :=
  let d := w.draftSteps r w.ops { gen := r.seed w.seed }
  if w.drain then d.live.foldl (fun t key => t.push (.release key)) d.trace else d.trace

/-- The arena ceiling of the benchmark heap: 256 MiB. -/
def benchArenaBytes : Nat := 256 * Nat.pow 2 20

/-- The reference profile: 2000 requests of at most 512 bytes, weights 6, 4, 1. -/
def reference (seed : Nat) : Workload := ({ seed, ops := 2000 } : Workload).withMaxSize 512 |>.withWeights 6 4 1

/-- The stress profile: 20000 requests of at most 16 KiB, weights 5, 4, 3. -/
def stress (seed : Nat) : Workload :=
  ({ seed, ops := 20000 } : Workload).withMaxSize (16 * 1024) |>.withWeights 5 4 3

end Workload

/-- Figures of a trace: counts by kind, the sum of sizes modulo `2^64`, the largest size
and identifier, and the first and last request. -/
structure TraceSummary where
  /-- The number of records. -/
  len : Nat
  /-- Acquisitions. -/
  allocs : Nat
  /-- Releases. -/
  frees : Nat
  /-- Resizes. -/
  reallocs : Nat
  /-- The sum of all sizes, modulo `2^64`. -/
  sizeSum : Nat
  /-- The largest size, 0 when there is none. -/
  maxSize : Nat
  /-- The largest identifier, 0 when there is none. -/
  maxId : Nat
  /-- The first request. -/
  first : Option Request
  /-- The last request. -/
  last : Option Request

namespace Trace

/-- The figures of a trace. -/
def summary (t : Trace) : TraceSummary :=
  let count (p : Request → Bool) := t.records.foldl (fun n r => if p r.request then n + 1 else n) 0
  let sizes := t.records.toList.filterMap (·.request.size?)
  { len := t.size,
    allocs := count fun | .acquire .. => true | _ => false,
    frees := count fun | .release _ => true | _ => false,
    reallocs := count fun | .resize .. => true | _ => false,
    sizeSum := sizes.foldl (fun s n => (s + n) % Nat.pow 2 64) 0,
    maxSize := sizes.foldl max 0,
    maxId := t.records.foldl (fun m r => max m r.request.id) 0,
    first := t.records[0]?.map (·.request),
    last := t.records.back?.map (·.request) }

end Trace

end Allocator
