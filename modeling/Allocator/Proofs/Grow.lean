import Allocator.Proofs.Split

/-! Growing the heap at the end of its arena. A granted growth moves the break up and keeps
every byte below the old break (`Arena.Grown`); a refused one changes nothing but the arena's
count of attempts (`Heap.Refused`). `extend` turns granted space into a free block: the old
epilogue header becomes the block's header, a new epilogue follows it, and the block merges
with a free last block (`extend_apply`).

Growth changes the size of a growable arena's memory, so it is not an `Edits`; what a request
that may grow keeps is said by `Heap.Keeps` (the bytes below the old break outside a set) and
`Heap.Fixed` (the parameters no request changes). -/
namespace Allocator

namespace Arena

/-- The arena holds the bytes its break and ceiling promise: a growable arena exactly the
bytes below its break, a reserved one its whole region up to the ceiling. -/
structure Backed (a : Arena) : Prop where
  growable : a.backing = .growable → a.memory.size = a.brk
  reserved : a.backing = .reserved → a.maxBytes ≤ a.memory.size

/-- What a granted growth by `incr` leaves: the break moved up by `incr` and still under the
ceiling, the bytes below the old break kept, new bytes of a growable arena reading as zero, a
reserved arena's region untouched, and the backing, ceiling and refusal schedule as they
were. -/
structure Grown (a a' : Arena) (incr : Nat) : Prop where
  brk : a'.brk = a.brk + incr
  backing : a'.backing = a.backing
  maxBytes : a'.maxBytes = a.maxBytes
  refuseFrom : a'.refuseFrom = a.refuseFrom
  le_max : a'.brk ≤ a.maxBytes
  kept : ∀ j < a.brk, a'.memory[j]? = a.memory[j]?
  zero : a.backing = .growable → ∀ j, a.brk ≤ j → j < a'.brk → a'.memory[j]? = some 0
  reserved : a.backing = .reserved → a'.memory = a.memory
  backed : a'.Backed

variable {a : Arena}

section Granted

variable {memory : ByteArray} {brk maxBytes attempts att incr : Nat} {refuseFrom : Option Nat}

/-- A granted growth of a growable arena appends `incr` zero bytes. -/
theorem grown_growable (hs : memory.size = brk) (hroom : brk + incr ≤ maxBytes) :
    Grown ⟨.growable, memory, brk, maxBytes, attempts, refuseFrom⟩
      ⟨.growable, memory ++ repeatByte 0 incr, brk + incr, maxBytes, att, refuseFrom⟩ incr := by
  refine
    { brk := rfl, backing := rfl, maxBytes := rfl, refuseFrom := rfl, le_max := hroom
      kept := fun j hj => ?_
      zero := fun _ j h1 h2 => ?_
      reserved := fun h => by cases h
      backed := ⟨fun _ => ?_, fun h => (by cases h)⟩ }
  · dsimp only at hj ⊢
    rw [getElem?_append_bytes, if_pos (by omega)]
  · dsimp only at h1 h2 ⊢
    rw [getElem?_append_bytes, if_neg (by omega), getElem?_repeatByte, if_pos (by omega)]
  · dsimp only
    rw [ByteArray.size_append, size_repeatByte]
    omega

/-- A granted growth of a reserved arena only moves the break. -/
theorem grown_reserved (hs : maxBytes ≤ memory.size) (hroom : brk + incr ≤ maxBytes) :
    Grown ⟨.reserved, memory, brk, maxBytes, attempts, refuseFrom⟩
      ⟨.reserved, memory, brk + incr, maxBytes, att, refuseFrom⟩ incr :=
  { brk := rfl, backing := rfl, maxBytes := rfl, refuseFrom := rfl, le_max := hroom
    kept := fun _ _ => rfl
    zero := fun h => by cases h
    reserved := fun _ => rfl
    backed := ⟨fun h => (by cases h), fun _ => hs⟩ }

end Granted

/-- A growth is refused, counting the attempt and naming the request, or granted. -/
theorem grow_cases (hb : a.Backed) (incr : Nat) :
    (∃ n, a.attempts ≤ n ∧
      a.grow incr = ({ a with attempts := n }, .error (.exhausted incr a.brk a.maxBytes))) ∨
    ((a.grow incr).2 = .ok a.brk ∧ Grown a (a.grow incr).1 incr) := by
  obtain ⟨backing, memory, brk, maxBytes, attempts, refuseFrom⟩ := a
  simp only [grow]
  cases backing with
  | growable =>
    split_ifs <;> first
      | exact .inl ⟨_, by omega, rfl⟩
      | exact .inr ⟨rfl, grown_growable (hb.growable rfl) (by omega)⟩
  | reserved =>
    split_ifs <;> first
      | exact .inl ⟨_, by omega, rfl⟩
      | exact .inr ⟨rfl, grown_reserved (hb.reserved rfl) (by omega)⟩

theorem grow_error {incr : Nat} {e : ArenaError} (he : (a.grow incr).2 = .error e) :
    ∃ n, a.attempts ≤ n ∧ (a.grow incr).1 = { a with attempts := n } := by
  obtain ⟨backing, memory, brk, maxBytes, attempts, refuseFrom⟩ := a
  simp only [grow] at he ⊢
  split_ifs at he ⊢ <;> exact ⟨_, by omega, rfl⟩

namespace Grown

variable {a' : Arena} {incr : Nat}

/-- Growth marks nothing: the new bytes of a growable arena are zero, and a reserved arena
keeps its region. -/
theorem marked (g : Grown a a' incr) {j : Nat} (hj : a'.Marked j) : a.Marked j := by
  obtain ⟨x, hx, hodd⟩ := hj
  cases hk : a.backing with
  | reserved => exact ⟨x, by rw [← g.reserved hk]; exact hx, hodd⟩
  | growable =>
    have hs := g.backed.growable (g.backing.trans hk)
    by_cases hlt : j < a.brk
    · exact ⟨x, by rw [← g.kept j hlt]; exact hx, hodd⟩
    · by_cases hlt' : j < a'.brk
      · rw [g.zero hk j (by omega) hlt', Option.some.injEq] at hx
        subst hx
        cases hodd
      · rw [getElem?_neg a'.memory j (by omega)] at hx
        cases hx

theorem inMemory (g : Grown a a' incr) : a'.brk ≤ a'.memory.size := by
  cases hk : a'.backing with
  | growable => exact (g.backed.growable hk).ge
  | reserved => have := g.backed.reserved hk; have := g.le_max; rw [g.maxBytes] at *; omega

theorem word? (g : Grown a a' incr) {q : Nat} (hq : q + 4 ≤ a.brk) : a'.word? q = a.word? q := by
  simp only [Arena.word?]
  rw [readWord?_congr (m := a.memory) fun j h1 h2 => g.kept j (by omega)]
  exact readWord?_limit (by rw [g.brk]; omega) hq

end Grown

end Arena

namespace Heap

/-- `h'` is `h` after refused growth: only the arena's count of attempts may have risen. -/
def Refused (h h' : Heap) : Prop :=
  ∃ n, h.arena.attempts ≤ n ∧ h' = { h with arena := { h.arena with attempts := n } }

theorem Refused.refl (h : Heap) : h.Refused h := ⟨h.arena.attempts, le_rfl, rfl⟩

theorem Refused.trans {h h₁ h₂ : Heap} (r₁ : h.Refused h₁) (r₂ : h₁.Refused h₂) : h.Refused h₂ := by
  obtain ⟨n₁, hn₁, rfl⟩ := r₁
  obtain ⟨n₂, hn₂, rfl⟩ := r₂
  exact ⟨n₂, by simp only at hn₂; omega, rfl⟩

/-- What no request changes: the configuration and the arena's backing, ceiling and refusal
schedule. -/
structure Fixed (h h' : Heap) : Prop where
  config : h'.config = h.config
  backing : h'.arena.backing = h.arena.backing
  maxBytes : h'.arena.maxBytes = h.arena.maxBytes
  refuseFrom : h'.arena.refuseFrom = h.arena.refuseFrom

theorem Fixed.refl (h : Heap) : Fixed h h := ⟨rfl, rfl, rfl, rfl⟩

theorem Fixed.trans {h h₁ h₂ : Heap} (f₁ : Fixed h h₁) (f₂ : Fixed h₁ h₂) : Fixed h h₂ :=
  ⟨f₂.config.trans f₁.config, f₂.backing.trans f₁.backing, f₂.maxBytes.trans f₁.maxBytes,
    f₂.refuseFrom.trans f₁.refuseFrom⟩

theorem Edits.fixed {S : Set Nat} {h h' : Heap} (e : Edits S h h') : Fixed h h' :=
  ⟨e.config, e.backing, e.maxBytes, e.refuseFrom⟩

theorem Refused.fixed {h h' : Heap} (r : h.Refused h') : Fixed h h' := by
  obtain ⟨n, -, rfl⟩ := r
  exact ⟨rfl, rfl, rfl, rfl⟩

/-- `h'` holds the bytes of `h` at every position below `h`'s break outside `S`. -/
def Keeps (S : Set Nat) (h h' : Heap) : Prop :=
  ∀ j < h.arena.brk, j ∉ S → h'.arena.memory[j]? = h.arena.memory[j]?

theorem Edits.keeps {S : Set Nat} {h h' : Heap} (e : Edits S h h') : Keeps S h h' :=
  fun j _ hj => e.bytes j hj

theorem Keeps.trans {S T : Set Nat} {h h₁ h₂ : Heap} (k₁ : Keeps S h h₁) (k₂ : Keeps T h₁ h₂)
    (hb : h.arena.brk ≤ h₁.arena.brk) : Keeps (S ∪ T) h h₂ := fun j hj hST => by
  rw [k₂ j (by omega) fun hT => hST (.inr hT), k₁ j hj fun hS => hST (.inl hS)]

theorem Keeps.mono {S T : Set Nat} {h h' : Heap} (k : Keeps S h h') (hST : S ⊆ T) : Keeps T h h' :=
  fun j hj hT => k j hj fun hS => hT (hST hS)

theorem Edits.backed {S : Set Nat} {h h' : Heap} (e : Edits S h h') (hb : h.arena.Backed) :
    h'.arena.Backed :=
  ⟨fun hk => by rw [e.size, e.brk]; exact hb.growable (e.backing ▸ hk),
    fun hk => by rw [e.size, e.maxBytes]; exact hb.reserved (e.backing ▸ hk)⟩

theorem run_lift_ne_error {α : Type} {m : HeapM α} {h h' : Heap} {e : HeapError} :
    run (liftM m) h ≠ .ok (.error e, h') := by
  rw [run_lift]
  split <;> simp

theorem run_lift_bind_error {α β : Type} {m : HeapM α} {f : α → RequestM β} {h h' : Heap}
    {e : HeapError} (hr : run (liftM m >>= f) h = .ok (.error e, h')) :
    ∃ a h₁, m h = .ok (a, h₁) ∧ run (f a) h₁ = .ok (.error e, h') := by
  rw [run_bind, run_lift] at hr
  rcases hm : m h with _ | ⟨a, h₁⟩
  · rw [hm] at hr; cases hr
  · rw [hm] at hr; exact ⟨a, h₁, rfl, hr⟩

theorem run_lift_bind {α β : Type} {m : HeapM α} {f : α → RequestM β} {h₀ h₁ : Heap} {a : α}
    (hm : m h₀ = .ok (a, h₁)) : run (liftM m >>= f) h₀ = run (f a) h₁ :=
  run_bind_ok (run_lift_ok hm)

/-- A request for growth: the old break, or the arena's refusal as out of memory. -/
theorem run_growArena {incr : Nat} {h : Heap} {a : Arena} {r : Except ArenaError Nat}
    (hg : h.arena.grow incr = (a, r)) :
    run (growArena incr) h = .ok (r.mapError (.outOfMemory incr), { h with arena := a }) := by
  obtain ⟨arena, config, tail, counters⟩ := h
  simp only at hg
  simp only [growArena, run, ExceptT.run, StateT.run, modifyGet, MonadStateOf.modifyGet,
    monadLift, MonadLift.monadLift, ExceptT.lift, ExceptT.mk, bind, ExceptT.bind]
  show StateT.bind _ _ _ = _
  simp only [StateT.bind, StateT.modifyGet, StateT.map, Functor.map, pure, Except.pure, hg]
  cases r <;> rfl

end Heap

theorem Listed.count {bs fl : List BlockInfo} (f : Counters → Counters) {h : Heap} (hL : Listed h bs fl) :
    Listed { h with counters := f h.counters } bs fl :=
  ⟨hL.chain, hL.tail, hL.free, hL.nodup, hL.sorted⟩

theorem Shape.count {bs fl : List BlockInfo} (f : Counters → Counters) {h : Heap} (hs : Shape h bs fl) :
    Shape { h with counters := f h.counters } bs fl :=
  ⟨hs.layout, hs.listed.count f, hs.complete, hs.separated⟩

theorem Pending.count {pre post fl : List BlockInfo} {b : BlockInfo} {h : Heap} (f : Counters → Counters)
    (hp : Pending h pre post b fl) : Pending { h with counters := f h.counters } pre post b fl :=
  ⟨hp.layout, hp.listed.count f, hp.free, hp.unlisted, hp.complete, hp.before, hp.after⟩

section Extend

variable {h : Heap} {bs fl : List BlockInfo}

/-- Granted space past the old break, tagged as one free block with a new epilogue after it,
joins the layout as its last block, not yet listed. The free list carries over, and only the
old epilogue word and the bytes from the block's footer on change below the new break. -/
private theorem extended_pending (hs : Shape h bs fl) {a' : Arena} {size : Nat}
    (g : Arena.Grown h.arena a' size) (h16 : 16 ≤ size) (h8 : size % 8 = 0)
    (hadd : h.arena.brk + size ≤ addressable) :
    ∃ h₂ h₃, Heap.setTag h.arena.brk (Tag.free size) { h with arena := a' } = .ok ((), h₂) ∧
      Heap.nextBlock h.arena.brk h₂ = .ok (h.arena.brk + size, h₂) ∧
      Heap.setEpilogue (h.arena.brk + size) h₂ = .ok ((), h₃) ∧
      Pending h₃ bs [] ⟨h.arena.brk, size, .free⟩ fl ∧
      Heap.Edits (Set.Ico (h.arena.brk - 4) h.arena.brk ∪
        Set.Ico (h.arena.brk + size - 8) (h.arena.brk + size)) { h with arena := a' } h₃ ∧
      Heap.Marks {h.arena.brk - 4} {h.arena.brk + size - 4} { h with arena := a' } h₃ := by
  have hl := hs.layout
  obtain ⟨hlo, hbrk8, -⟩ := hl.brk_facts
  simp only [firstBlock] at hlo
  have hw : h.arena.brk + size < wordBound := by
    simp only [Allocator.addressable] at hadd; omega
  set brk := h.arena.brk
  set h₁ : Heap := { h with arena := a' }
  have hb₁ : h₁.arena.brk = brk + size := g.brk
  have hm₁ : h₁.arena.brk ≤ h₁.arena.memory.size := g.inMemory
  obtain ⟨h₂, r₂, e₂, t₂, hh₂, hf₂⟩ := Heap.setTag_apply (h := h₁) brk (Tag.free size)
    (by simp [Tag.free]; omega) (by omega) (by simp [Tag.free]; omega) hm₁
    (by simp [Tag.free]; omega)
  have rnext : Heap.nextBlock brk h₂ = .ok (brk + size, h₂) :=
    Heap.nextBlock_of_tag (by omega) hh₂ (by simpa [Tag.free]) (by simp only [Tag.free]; omega)
  obtain ⟨h₃, r₃, e₃, t₃, hep⟩ := Heap.setEpilogue_apply (h := h₂) (brk + size) (by omega)
    (by rw [e₂.brk]; omega) (by rw [e₂.brk, e₂.size]; exact hm₁)
  have e₂₃ : Heap.Edits (Set.Ico (brk - 4) brk ∪ Set.Ico (brk + size - 8) (brk + size)) h₁ h₃ :=
    (e₂.trans e₃).mono fun j hj => by
      simp only [Heap.tagWords, Tag.free, Set.mem_union, Set.mem_Ico] at hj ⊢; omega
  have old : ∀ q, q + 4 ≤ brk - 4 → h₃.arena.word? q = h.arena.word? q := fun q hq => by
    rw [e₂₃.word?_of_apart fun j hj => by simp only [Set.mem_union, Set.mem_Ico] at hj; omega]
    exact g.word? (by omega)
  set b : BlockInfo := ⟨brk, size, .free⟩
  have hbsize : b.size = size := rfl
  have hlay : Layout h₃.arena (bs ++ [b]) :=
    { inMemory := by rw [e₂₃.brk, e₂₃.size]; exact hm₁
      addressable := by rw [e₂₃.brk, hb₁]; exact hadd
      prologueHeader := by rw [old 4 (by omega)]; exact hl.prologueHeader
      prologueFooter := by rw [old 8 (by omega)]; exact hl.prologueFooter
      run := by
        rw [e₂₃.brk, hb₁, run_append]
        refine ⟨brk, hl.run.congr fun c hc => ?_, run_singleton.mpr ⟨rfl, by simp [minBlock, b]; omega,
          h8, ?_, ?_, rfl⟩⟩
        · obtain ⟨-, hc2, -, hc4, -⟩ := hl.mem hc
          exact ⟨old _ (by omega), old _ (by omega)⟩
        · rw [e₃.word?_of_apart fun j hj => by simp only [Set.mem_Ico] at hj; omega]
          exact hh₂
        · rw [e₃.word?_of_apart fun j hj => by simp only [Set.mem_Ico] at hj; omega]
          exact hf₂
      epilogue := by rw [e₂₃.brk, hb₁]; simpa using hep }
  have hfl : ∀ c ∈ fl, c.ptr + c.size ≤ brk ∧ 16 ≤ c.size := fun c hc => by
    obtain ⟨-, -, h3, h4⟩ := hs.listed.ptr_facts hl hc
    exact ⟨h4, h3⟩
  refine ⟨h₂, h₃, r₂, rnext, r₃, ⟨hlay, hs.listed.transfer (fun c hc => by
      have := hfl c hc
      exact ⟨old _ (by omega), old _ (by omega)⟩) (t₃.trans t₂)
      (fun c hc => List.mem_append_left _ (hs.listed.free c hc).1), rfl,
      fun hb' => by have := hfl b hb'; simp only [b] at this; omega,
      fun c hc hcf => hs.complete c (by simpa using hc) hcf, hs.separated, List.isChain_nil⟩,
    e₂₃, ?_⟩
  have m₂ := e₂.marks_of_tag hbrk8 (by simpa [Tag.free]) (by simp [Tag.free]; omega) hh₂
  have m₃ : Heap.Marks {brk + size - 4} {brk + size - 4} h₂ h₃ :=
    e₃.marks (fun j hj h4 => by simp only [Set.mem_Ico] at hj; simp; omega) fun q hq => by
      rw [Set.mem_singleton_iff] at hq
      subst hq
      exact ⟨_, hep, fun _ => rfl⟩
  exact (m₂.trans m₃).mono (by simp) fun j _ hj => by
    rcases hj with ⟨-, hst⟩ | hj
    · cases hst
    · exact hj

/-- The three ways `extend` is refused: a size that does not round to a 64-bit one, or a break
that would pass the 32-bit range, both before the heap changes; or the arena's refusal of the
growth, which leaves the arena as the refusal left it. -/
theorem extend_error_cases {size : Nat} {h h' : Heap} {e : HeapError}
    (hr : Heap.run (Heap.extend size) h = .ok (.error e, h')) :
    (align size = none ∧ e = .invalidSize size ∧ h' = h) ∨
    ∃ s, align size = some s ∧
      ((addressable < h.arena.brk + s ∧
          e = .outOfMemory s (.exhausted s h.arena.brk addressable) ∧ h' = h) ∨
        (h.arena.brk + s ≤ addressable ∧ ∃ a' ae, h.arena.grow s = (a', .error ae) ∧
          e = .outOfMemory s ae ∧ h' = { h with arena := a' })) := by
  unfold Heap.extend at hr
  cases ha : align size with
  | none =>
    simp only [ha, Heap.run_throw, Except.ok.injEq, Prod.mk.injEq, Except.error.injEq] at hr
    obtain ⟨rfl, rfl⟩ := hr
    exact .inl ⟨rfl, rfl, rfl⟩
  | some s =>
    refine .inr ⟨s, rfl, ?_⟩
    rw [ha] at hr
    dsimp only at hr
    rw [Heap.run_bind, Heap.run_get] at hr
    dsimp only at hr
    split at hr
    · rw [Heap.run_bind_error (Heap.run_throw _ _)] at hr
      simp only [Except.ok.injEq, Prod.mk.injEq, Except.error.injEq] at hr
      obtain ⟨rfl, rfl⟩ := hr
      exact .inl ⟨by omega, rfl, rfl⟩
    · rcases hg : h.arena.grow s with ⟨a', r⟩
      rw [Heap.run_bind, Heap.run_growArena hg] at hr
      cases r with
      | error ae =>
        simp only [Except.mapError, Except.ok.injEq, Prod.mk.injEq, Except.error.injEq] at hr
        obtain ⟨rfl, rfl⟩ := hr
        exact .inr ⟨by omega, a', ae, rfl, rfl, rfl⟩
      | ok old =>
        obtain ⟨_, _, -, hr⟩ := Heap.run_lift_bind_error hr
        obtain ⟨_, _, -, hr⟩ := Heap.run_lift_bind_error hr
        obtain ⟨_, _, -, hr⟩ := Heap.run_lift_bind_error hr
        obtain ⟨_, _, -, hr⟩ := Heap.run_lift_bind_error hr
        exact absurd hr Heap.run_lift_ne_error

/-- `extend` is refused only before it changes the heap, but for the count of a refused
growth attempt, and only for a size that does not round to a 64-bit one or for want of
memory. -/
theorem extend_refused {size : Nat} {h h' : Heap} {e : HeapError}
    (hr : Heap.run (Heap.extend size) h = .ok (.error e, h')) :
    h.Refused h' ∧ ((e = .invalidSize size ∧ align size = none) ∨ ∃ k ae, e = .outOfMemory k ae) := by
  rcases extend_error_cases hr with ⟨ha, rfl, rfl⟩ | ⟨s, -, ⟨-, rfl, rfl⟩ | ⟨-, a', ae, hg, rfl, rfl⟩⟩
  · exact ⟨.refl _, .inl ⟨rfl, ha⟩⟩
  · exact ⟨.refl _, .inr ⟨_, _, rfl⟩⟩
  · obtain ⟨n, hn, hn'⟩ := Arena.grow_error (a := h.arena) (e := ae) (by rw [hg])
    rw [hg] at hn'
    exact ⟨⟨n, hn, by rw [← hn']⟩, .inr ⟨_, _, rfl⟩⟩

/-- Extending a heap of the invariant by a whole number of words, at least one block's
worth, never faults. When the growth is granted, the new space becomes a free block merged
with a free last block, the invariant holds, and below the old break only the merged block's
bytes and link words of listed blocks change; the old epilogue's mark moves to the new
epilogue. -/
theorem extend_apply (hs : Shape h bs fl) (hb : h.arena.Backed) {size : Nat} (h16 : 16 ≤ size)
    (h8 : size % 8 = 0) :
    (∃ e h', Heap.run (Heap.extend size) h = .ok (.error e, h')) ∨
    ∃ h' pre' m fl', Heap.run (Heap.extend size) h = .ok (.ok m.ptr, h') ∧
      Shape h' (pre' ++ [m]) fl' ∧ Merge bs [] ⟨h.arena.brk, size, .free⟩ pre' [] m ∧
      h'.arena.Backed ∧ h'.arena.brk = h.arena.brk + size ∧ Heap.Fixed h h' ∧
      h'.counters = { h.counters with grows := h.counters.grows + 1 } ∧
      Heap.Keeps (Set.Ico (m.ptr - 4) h'.arena.brk ∪ linkWords fl) h h' ∧
      Heap.Marks {h.arena.brk - 4} {h'.arena.brk - 4} h h' := by
  unfold Heap.extend
  cases ha : align size with
  | none => exact .inl ⟨_, _, Heap.run_throw _ _⟩
  | some s =>
    obtain rfl : s = size := by have := align_eq_some ha; omega
    dsimp only
    rw [Heap.run_bind, Heap.run_get]
    dsimp only
    split
    · exact .inl ⟨_, _, Heap.run_bind_error (Heap.run_throw _ _)⟩
    rename_i hadd
    rcases Arena.grow_cases hb s with ⟨n, -, hg⟩ | ⟨hok, g⟩
    · rw [Heap.run_bind, Heap.run_growArena hg]
      exact .inl ⟨_, _, rfl⟩
    refine .inr ?_
    have hg : h.arena.grow s = ((h.arena.grow s).1, .ok h.arena.brk) := by rw [← hok]
    rw [Heap.run_bind, Heap.run_growArena hg]
    dsimp only [Except.mapError]
    obtain ⟨h₂, h₃, r₂, rnext, r₃, hp, e₂₃, m₂₃⟩ := extended_pending hs g h16 h8 (by omega)
    let grown : Counters → Counters := fun c => { c with grows := c.grows + 1 }
    obtain ⟨h', pre', post', m, rc, hshape, hmerge, e₅, m₅⟩ := coalesce_apply (hp.count grown)
    obtain ⟨pw, nw, -, hpost, -, -, -, hstart, hsize⟩ := hmerge.window
    obtain ⟨rfl, rfl⟩ : nw = [] ∧ post' = [] := List.append_eq_nil_iff.mp hpost.symm
    simp only [List.map_append, List.map_cons, List.map_nil, List.sum_append, List.sum_cons,
      List.sum_nil] at hstart hsize
    have hbrk' : h'.arena.brk = h.arena.brk + s := by rw [e₅.brk]; exact e₂₃.brk.trans g.brk
    refine ⟨h', pre', m, _, ?_, hshape, hmerge, e₅.backed (e₂₃.backed g.backed), hbrk',
      ⟨e₅.config.trans e₂₃.config, e₅.backing.trans (e₂₃.backing.trans g.backing),
        e₅.maxBytes.trans (e₂₃.maxBytes.trans g.maxBytes),
        e₅.refuseFrom.trans (e₂₃.refuseFrom.trans g.refuseFrom)⟩,
      by rw [e₅.counters]; show grown h₃.counters = grown h.counters; rw [e₂₃.counters],
      fun j hj hS => ?_, ?_⟩
    · rw [Heap.run_lift_bind r₂, Heap.run_lift_bind rnext, Heap.run_lift_bind r₃,
        Heap.run_lift_bind (Heap.count_apply _)]
      exact Heap.run_lift_ok rc
    · simp only [Set.mem_union, Set.mem_Ico, not_or] at hS
      obtain ⟨hlo, hfl⟩ := hS
      have hj' : j < m.ptr - 4 := by omega
      rw [e₅.bytes j (by simp only [Set.mem_union, Set.mem_Ico, not_or]; exact ⟨by omega, hfl⟩),
        show ({ h₃ with counters := grown h₃.counters } : Heap).arena = h₃.arena from rfl,
        e₂₃.bytes j (by simp only [Set.mem_union, Set.mem_Ico]; omega)]
      exact g.kept j hj
    · have m₁ : Heap.Marks ∅ ∅ h { h with arena := (h.arena.grow s).1 } :=
        fun j _ hm => .inl ⟨g.marked hm, id⟩
      exact (((m₁.trans m₂₃).trans (Heap.Marks.refl ∅ h₃ :
        Heap.Marks ∅ ∅ h₃ { h₃ with counters := grown h₃.counters })).trans m₅).mono
        (by simp) (fun j _ hj => by simp only [Set.mem_union, Set.mem_singleton_iff,
          Set.mem_empty_iff_false, or_false, false_or] at hj; rw [hbrk']; exact hj)

end Extend

end Allocator
