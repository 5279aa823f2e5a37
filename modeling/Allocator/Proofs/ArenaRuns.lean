import Allocator.Proofs.Init

/-! Runs of an arena on its own: the contract the heap relies on, kept over every sequence of
growths, resets and writes. Three arenas are made: a growable one with a ceiling, the same
with a refusal schedule, and a reserved region of `0xcc` bytes (`Arena.Fresh`). Whatever the
steps, the bytes held are the bytes below the break and the break stays under the ceiling
(`Arena.Sound`). A granted growth answers the old break, moves the break by exactly the
increment and keeps every byte below the old break, new bytes of a growable arena reading as
zero; a refused one names the increment, the break and the ceiling and changes neither the
break nor a byte (`Arena.Honours`). A growth is refused exactly when the break would pass the
64-bit range or the ceiling, or, on a schedule from the `n`-th attempt on, when it is at least
the `n`-th attempt of one byte or more since the last reset.

The break is read off the answers alone: the increments granted since the last reset
(`grantedSince`); the count of attempts off the steps alone (`attemptsSince`). -/
namespace Allocator

/-- The bytes granted since the last reset, after one more step and its answer: a reset
starts the count again and a granted growth adds its increment. -/
def ArenaStep.grant (n : Nat) : ArenaStep → ArenaAnswer → Nat
  | .reset, _ => 0
  | .grow incr, .oldBrk _ => n + incr
  | .grow _, _ => n
  | .fill _, _ => n
  | .bytes, _ => n

/-- The growth attempts of one byte or more since the last reset, after one more step. -/
def ArenaStep.attempt (n : Nat) : ArenaStep → Nat
  | .reset => 0
  | .grow incr => if 0 < incr then n + 1 else n
  | .fill _ => n
  | .bytes => n

/-- The increments granted since the last reset, read off the steps and their answers. -/
def grantedSince (log : List (ArenaStep × ArenaAnswer)) : Nat :=
  log.foldl (fun n e => e.1.grant n e.2) 0

/-- The growth attempts of one byte or more since the last reset. -/
def attemptsSince (steps : List ArenaStep) : Nat :=
  steps.foldl (fun n s => s.attempt n) 0

namespace Arena

/-- The arenas a heap runs over, as they are made: a growable arena with a ceiling, the same
refusing every growth from its `n`-th attempt on, and a reserved region of `0xcc` bytes. -/
inductive Fresh : Arena → Prop
  | growable (maxBytes : Nat) : Fresh (growable maxBytes)
  | scheduled (maxBytes n : Nat) : Fresh { growable maxBytes with refuseFrom := some n }
  | reserved (capacity : Nat) : Fresh (reserved capacity 0xcc)

/-- What an arena keeps at every moment: it holds the bytes its break promises, the break is
under the ceiling, and a reserved region is exactly as long as the ceiling. -/
structure Sound (a : Arena) : Prop where
  backed : a.Backed
  le_max : a.brk ≤ a.maxBytes
  region : a.backing = .reserved → a.memory.size = a.maxBytes

/-- The arena after the steps, in order. -/
def after (a : Arena) : List ArenaStep → Arena
  | [] => a
  | s :: rest => (a.perform s).1.after rest

/-- Each step with the answer the arena gives it. -/
def answers (a : Arena) : List ArenaStep → List (ArenaStep × ArenaAnswer)
  | [] => []
  | s :: rest => (s, (a.perform s).2) :: (a.perform s).1.answers rest

/-- The contract of one growth by `incr`. Granted, it answers the old break, moves the break
by exactly `incr` and keeps every byte below the old break, and the new bytes of a growable
arena read as zero. Refused, it names the increment, the break and the ceiling, and changes
neither the break nor a byte. It counts as an attempt when it asks for a byte or more, and it
is refused exactly when the break would pass the 64-bit range or the ceiling, or when the
attempt is scheduled to be refused. -/
structure Honours (a : Arena) (incr : Nat) : Prop where
  granted : ∀ old, (a.grow incr).2 = .ok old →
    old = a.brk ∧ (a.grow incr).1.brk = a.brk + incr ∧
      ∀ j < a.brk, (a.grow incr).1.bytes[j]? = a.bytes[j]?
  zeroed : a.backing = .growable → ∀ old, (a.grow incr).2 = .ok old →
    ∀ j, a.brk ≤ j → j < a.brk + incr → (a.grow incr).1.bytes[j]? = some 0
  refused : ∀ e, (a.grow incr).2 = .error e →
    e = .exhausted incr a.brk a.maxBytes ∧ (a.grow incr).1.brk = a.brk ∧
      (a.grow incr).1.bytes = a.bytes
  counted : (a.grow incr).1.attempts = if 0 < incr then a.attempts + 1 else a.attempts
  refuses : (∃ e, (a.grow incr).2 = .error e) ↔
    (0 < incr ∧ ∃ n ∈ a.refuseFrom, n ≤ a.attempts + 1) ∨ sizeBound ≤ a.brk + incr ∨
      a.maxBytes < a.brk + incr

variable {a : Arena}

theorem Sound.brk_le_size (hs : a.Sound) : a.brk ≤ a.memory.size := by
  cases hk : a.backing with
  | growable => exact (hs.backed.growable hk).ge
  | reserved =>
    have := hs.region hk
    have := hs.le_max
    omega

theorem Sound.size_bytes (hs : a.Sound) : a.bytes.size = a.brk := by
  have := hs.brk_le_size
  simp only [bytes, ByteArray.size_extract]
  omega

theorem getElem?_bytes (a : Arena) (j : Nat) : a.bytes[j]? = if j < a.brk then a.memory[j]? else none :=
  getElem?_extract_zero a.memory a.brk j

section Growth

theorem grow_attempts (a : Arena) (incr : Nat) :
    (a.grow incr).1.attempts = if 0 < incr then a.attempts + 1 else a.attempts := by
  obtain ⟨backing, memory, brk, maxBytes, attempts, refuseFrom⟩ := a
  simp only [grow, gt_iff_lt]
  split_ifs <;> rfl

/-- A growth is refused exactly when it is scheduled to be, or when the break would pass the
64-bit range or the ceiling. -/
theorem grow_refused_iff (a : Arena) (incr : Nat) :
    (∃ e, (a.grow incr).2 = .error e) ↔
      (0 < incr ∧ ∃ n ∈ a.refuseFrom, n ≤ a.attempts + 1) ∨ sizeBound ≤ a.brk + incr ∨
        a.maxBytes < a.brk + incr := by
  obtain ⟨backing, memory, brk, maxBytes, attempts, refuseFrom⟩ := a
  by_cases hi : 0 < incr
  · have hsched : refuseFrom.any (· ≤ attempts + 1) = true ↔ ∃ n ∈ refuseFrom, n ≤ attempts + 1 := by
      cases refuseFrom <;> simp
    simp only [grow, gt_iff_lt, hi, if_true, decide_true, Bool.true_and]
    split_ifs with h1 h2 <;>
      simp only [Except.error.injEq, exists_eq', exists_false, true_iff, false_iff, true_and]
    · exact .inl (hsched.mp h1)
    · exact .inr h2
    · rw [← hsched]
      simp only [Bool.not_eq_true] at h1
      simp only [h1, Bool.false_eq_true, false_or]
      omega
  · simp only [grow, gt_iff_lt, hi, if_false, decide_false, Bool.false_and, Bool.false_eq_true,
      false_and, false_or]
    split_ifs with h2 <;> simp only [Except.error.injEq, exists_eq', exists_false, true_iff, false_iff]
    · exact h2
    · exact h2

/-- Every growth of a sound arena keeps the contract. -/
theorem Sound.honours (hs : a.Sound) (incr : Nat) : a.Honours incr := by
  refine ⟨fun old hok => ?_, fun hk old hok j h1 h2 => ?_, fun e he => ?_, grow_attempts a incr,
    grow_refused_iff a incr⟩
  · rcases grow_cases hs.backed incr with ⟨n, -, hg⟩ | ⟨hg, g⟩
    · rw [hg] at hok
      cases hok
    · rw [hg, Except.ok.injEq] at hok
      refine ⟨hok.symm, g.brk, fun j hj => ?_⟩
      rw [getElem?_bytes, getElem?_bytes, if_pos (by rw [g.brk]; omega), if_pos hj, g.kept j hj]
  · rcases grow_cases hs.backed incr with ⟨n, -, hg⟩ | ⟨hg', g⟩
    · rw [hg] at hok
      cases hok
    · rw [getElem?_bytes, if_pos (by rw [g.brk]; exact h2)]
      exact g.zero hk j h1 (by rw [g.brk]; exact h2)
  · rcases grow_cases hs.backed incr with ⟨n, -, hg⟩ | ⟨hg, -⟩
    · rw [hg] at he ⊢
      cases he
      exact ⟨rfl, rfl, rfl⟩
    · rw [hg] at he
      cases he

/-- A growth keeps the arena sound. -/
theorem Sound.grow (hs : a.Sound) (incr : Nat) : (a.grow incr).1.Sound := by
  rcases grow_cases hs.backed incr with ⟨n, -, hg⟩ | ⟨-, g⟩
  · rw [hg]
    exact ⟨⟨hs.backed.growable, hs.backed.reserved⟩, hs.le_max, hs.region⟩
  · refine ⟨g.backed, g.maxBytes ▸ g.le_max, fun hk => ?_⟩
    rw [g.backing] at hk
    rw [g.reserved hk, g.maxBytes]
    exact hs.region hk

end Growth

section Steps

theorem size_fillRun (m : ByteArray) (start len : Nat) (b : UInt8) :
    (fillBytes.fillRun m start len b).size = m.size := by
  induction len generalizing m start with
  | zero => rfl
  | succ len ih =>
    rw [fillBytes.fillRun, ih, ByteArray.size_set!]

/-- A fill changes only the bytes held: the break, the ceiling, the backing, the count of
attempts and the schedule stay, and so does the number of bytes held. -/
theorem fill_parts (a : Arena) (b : UInt8) :
    (a.fill b).brk = a.brk ∧ (a.fill b).maxBytes = a.maxBytes ∧ (a.fill b).backing = a.backing ∧
      (a.fill b).attempts = a.attempts ∧ (a.fill b).refuseFrom = a.refuseFrom ∧
      (a.fill b).memory.size = a.memory.size := by
  obtain ⟨backing, memory, brk, maxBytes, attempts, refuseFrom⟩ := a
  simp only [fill, modifyMemory, fillBytes]
  split_ifs
  · simp only [size_fillRun, and_self]
  · simp only [and_self]

theorem Sound.fill (hs : a.Sound) (b : UInt8) : (a.fill b).Sound := by
  obtain ⟨h1, h2, h3, -, -, h6⟩ := fill_parts a b
  refine ⟨⟨fun hk => ?_, fun hk => ?_⟩, by rw [h1, h2]; exact hs.le_max, fun hk => ?_⟩
  · rw [h6, h1]
    exact hs.backed.growable (h3 ▸ hk)
  · rw [h6, h2]
    exact hs.backed.reserved (h3 ▸ hk)
  · rw [h6, h2]
    exact hs.region (h3 ▸ hk)

theorem Sound.reset (hs : a.Sound) : a.reset.Sound := by
  refine ⟨reset_backed hs.backed, by simp, fun hk => ?_⟩
  rw [reset_backing] at hk
  unfold Arena.reset
  rw [hk]
  exact hs.region hk

theorem Sound.perform (hs : a.Sound) : ∀ s : ArenaStep, (a.perform s).1.Sound
  | .grow incr => hs.grow incr
  | .reset => hs.reset
  | .fill _ => hs.fill _
  | .bytes => hs

/-- The break after a step is the count of granted bytes carried one step on. -/
theorem perform_brk (hs : a.Sound) :
    ∀ s : ArenaStep, (a.perform s).1.brk = s.grant a.brk (a.perform s).2
  | .grow incr => by
    rcases grow_cases hs.backed incr with ⟨n, -, hg⟩ | ⟨hg, g⟩
    · simp only [perform, hg, ArenaStep.grant]
    · simp only [perform, hg, ArenaStep.grant]
      exact g.brk
  | .reset => by simp [perform, ArenaStep.grant]
  | .fill byte => (fill_parts a _).1
  | .bytes => rfl

/-- The count of attempts after a step is the count carried one step on. -/
theorem perform_attempts : ∀ s : ArenaStep, (a.perform s).1.attempts = s.attempt a.attempts
  | .grow incr => grow_attempts a incr
  | .reset => by
    show a.reset.attempts = 0
    unfold Arena.reset
    split <;> rfl
  | .fill byte => (fill_parts a _).2.2.2.1
  | .bytes => rfl

/-- No step changes the backing or the refusal schedule. -/
theorem perform_kind :
    ∀ s : ArenaStep, (a.perform s).1.backing = a.backing ∧ (a.perform s).1.refuseFrom = a.refuseFrom
  | .grow incr => by
    obtain ⟨backing, memory, brk, maxBytes, attempts, refuseFrom⟩ := a
    simp only [perform, grow]
    split_ifs <;> exact ⟨rfl, rfl⟩
  | .reset => ⟨reset_backing a, reset_refuseFrom a⟩
  | .fill byte => ⟨(fill_parts a _).2.2.1, (fill_parts a _).2.2.2.2.1⟩
  | .bytes => ⟨rfl, rfl⟩

end Steps

section Runs

/-- Every run keeps a sound arena sound; the break is the count of granted bytes carried
along the answers, and the count of attempts is carried along the steps; the backing and the
schedule stay. -/
theorem Sound.after (hs : a.Sound) (steps : List ArenaStep) :
    (a.after steps).Sound ∧
      (a.after steps).brk = (a.answers steps).foldl (fun n e => e.1.grant n e.2) a.brk ∧
      (a.after steps).attempts = steps.foldl (fun n s => s.attempt n) a.attempts ∧
      (a.after steps).backing = a.backing ∧ (a.after steps).refuseFrom = a.refuseFrom := by
  induction steps generalizing a with
  | nil => exact ⟨hs, rfl, rfl, rfl, rfl⟩
  | cons s rest ih =>
    obtain ⟨hs', hbrk, hatt, hback, hsched⟩ := ih (hs.perform s)
    obtain ⟨hk, hr⟩ := perform_kind (a := a) s
    refine ⟨hs', ?_, ?_, hback.trans hk, hsched.trans hr⟩
    · rw [after, answers, List.foldl_cons, ← perform_brk hs s]
      exact hbrk
    · rw [after, List.foldl_cons, ← perform_attempts s]
      exact hatt

theorem Fresh.sound (hf : a.Fresh) : a.Sound ∧ a.brk = 0 ∧ a.attempts = 0 := by
  cases hf with
  | growable m => exact ⟨⟨growable_backed m, Nat.zero_le _, fun h => by cases h⟩, rfl, rfl⟩
  | scheduled m n =>
    exact ⟨⟨⟨fun _ => rfl, fun h => by cases h⟩, Nat.zero_le _, fun h => by cases h⟩, rfl, rfl⟩
  | reserved c => exact ⟨⟨reserved_backed c _, Nat.zero_le _, fun _ => size_repeatByte _ c⟩, rfl, rfl⟩

end Runs

end Arena

/-- Every arena a heap runs over keeps the contract the heap relies on, over every sequence of
growths, resets and writes. At every moment the arena shows exactly the bytes below the break,
the break is under the ceiling (so the room left never goes below zero), and the break is the
sum of the increments granted since the last reset. The count of attempts of one byte or more
since the last reset, the backing and the refusal schedule are those the steps give, and a
reserved region stays as long as its ceiling. The next growth, whatever its increment, keeps
`Arena.Honours`: so a growable arena without a schedule refuses exactly when the break would
pass the 64-bit range or the ceiling, a reserved one exactly when it would pass the range or
the end of the region, and a scheduled one also when the attempt is at least the scheduled
one. -/
theorem arena_keeps_growth_contract {a₀ a : Arena} (hf : a₀.Fresh) (steps : List ArenaStep)
    (ha : a₀.after steps = a) :
    a.bytes.size = a.brk ∧ a.brk ≤ a.maxBytes ∧ a.brk = grantedSince (a₀.answers steps) ∧
      a.attempts = attemptsSince steps ∧ a.backing = a₀.backing ∧ a.refuseFrom = a₀.refuseFrom ∧
      (a.backing = .reserved → a.memory.size = a.maxBytes) ∧ ∀ incr, a.Honours incr := by
  obtain ⟨hs₀, hbrk₀, hatt₀⟩ := hf.sound
  obtain ⟨hs, hbrk, hatt, hback, hsched⟩ := hs₀.after steps
  subst ha
  refine ⟨hs.size_bytes, hs.le_max, ?_, ?_, hback, hsched, hs.region, hs.honours⟩
  · rw [hbrk, hbrk₀]
    rfl
  · rw [hatt, hatt₀]
    rfl

theorem scheduled_arena_keeps_growth_contract :
    ({ Arena.growable 64 with refuseFrom := some 3 } : Arena).Fresh ∧
      ∃ a, ({ Arena.growable 64 with refuseFrom := some 3 } : Arena).after
          [.grow 16, .grow 0, .reset, .grow 32] = a ∧
        a.bytes.size = a.brk ∧ a.brk ≤ a.maxBytes ∧
        a.brk = grantedSince (({ Arena.growable 64 with refuseFrom := some 3 } : Arena).answers
          [.grow 16, .grow 0, .reset, .grow 32]) ∧
        a.attempts = attemptsSince [.grow 16, .grow 0, .reset, .grow 32] ∧
        a.backing = .growable ∧ a.refuseFrom = some 3 ∧
        (a.backing = .reserved → a.memory.size = a.maxBytes) ∧ ∀ incr, a.Honours incr :=
  ⟨.scheduled 64 3, _, rfl, arena_keeps_growth_contract (.scheduled 64 3) _ rfl⟩

end Allocator
