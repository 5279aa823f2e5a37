import Allocator.Proofs.Refusal
import Allocator.Proofs.Holding
import Allocator.Proofs.Rejection

/-! The numbers a heap computes stay in range. A growth that would carry the break past the
32-bit range is refused by the heap itself, before the arena is asked; a growth within that
range is refused only by the arena, at its ceiling or by a scheduled refusal
(`extend_outOfMemory`, `Arena.grow_past_ceiling`). Every out-of-memory refusal of an
acquisition or a resize is one of these two, measured from the heap the request started on
(`acquire_refusesGrowth`, `resize_refusesGrowth`): `RefusesGrowth` carries the argument
through the ways requests are put together, beside `Heap.Settles`. On a reachable heap the
requests never fault, so no offset computation goes below zero and no tag or link is too
wide for its word, and every tag and link word the heap holds is in range (`WordsInRange`).
`requests_stay_in_range` joins them with the check that a heap is never built over an arena
whose ceiling passes the 32-bit range. -/

namespace Allocator

theorem Arena.grow_error_eq {a : Arena} {k : Nat} {e : ArenaError} (he : (a.grow k).2 = .error e) :
    e = .exhausted k a.brk a.maxBytes := by
  obtain ⟨backing, memory, brk, maxBytes, attempts, refuseFrom⟩ := a
  simp only [Arena.grow] at he ⊢
  split_ifs at he <;> exact (Except.error.inj he).symm

theorem Arena.grow_past_ceiling (a : Arena) {k : Nat} (hk : a.maxBytes < a.brk + k) :
    (a.grow k).2 = .error (.exhausted k a.brk a.maxBytes) := by
  obtain ⟨backing, memory, brk, maxBytes, attempts, refuseFrom⟩ := a
  simp only at hk ⊢
  have hceil : brk + k ≥ sizeBound ∨ brk + k > maxBytes := .inr hk
  simp only [Arena.grow, hceil, if_true, ite_self]

namespace Heap

/-- Why a growth of `k` bytes from the heap `h` was refused, and what the refusal left in
`h'`: a growth that would carry the break past the 32-bit range is refused by the heap with
the arena untouched; one within that range only by the arena, at its ceiling or by a
scheduled refusal, which moves nothing but the arena's count of attempts. -/
def GrowthRefused (h : Heap) (k : Nat) (ae : ArenaError) (h' : Heap) : Prop :=
  (addressable < h.arena.brk + k ∧ ae = .exhausted k h.arena.brk addressable ∧ h' = h) ∨
    (h.arena.brk + k ≤ addressable ∧ ae = .exhausted k h.arena.brk h.arena.maxBytes ∧
      h.Refused h')

/-- Every out-of-memory refusal of `r` is a refused growth from a heap that `R` relates to
the one the request started on. -/
def RefusesGrowth {α : Type} (r : RequestM α) (R : Heap → Heap → Prop) : Prop :=
  ∀ h h' k ae, run r h = .ok (.error (.outOfMemory k ae), h') →
    ∃ h₁, R h h₁ ∧ GrowthRefused h₁ k ae h'

/-- The growth of the arena is refused past the 32-bit range before the arena is asked, and
otherwise only by the arena. -/
theorem extend_outOfMemory {size k : Nat} {ae : ArenaError} {h h' : Heap}
    (hr : run (extend size) h = .ok (.error (.outOfMemory k ae), h')) :
    GrowthRefused h k ae h' := by
  rcases extend_error_cases hr with
    ⟨-, he, -⟩ | ⟨s, -, ⟨hlt, he, rfl⟩ | ⟨hle, a', ae', hg, he, rfl⟩⟩
  · cases he
  · obtain ⟨rfl, rfl⟩ := HeapError.outOfMemory.inj he
    exact .inl ⟨hlt, rfl, rfl⟩
  · obtain ⟨rfl, rfl⟩ := HeapError.outOfMemory.inj he
    obtain ⟨n, hn, hn'⟩ := Arena.grow_error (a := h.arena) (e := ae) (by rw [hg])
    rw [hg] at hn'
    exact .inr ⟨hle, Arena.grow_error_eq (a := h.arena) (by rw [hg]), n, hn, by rw [← hn']⟩

namespace RefusesGrowth

variable {α β : Type} {R : Heap → Heap → Prop}

theorem mono {R' : Heap → Heap → Prop} {r : RequestM α} (hr : RefusesGrowth r R)
    (hR : ∀ h h₁, R h h₁ → R' h h₁) : RefusesGrowth r R' := fun h h' k ae hrun => by
  obtain ⟨h₁, hR₁, hg⟩ := hr h h' k ae hrun
  exact ⟨h₁, hR h h₁ hR₁, hg⟩

theorem of_yields {P : α → Prop} {r : RequestM α} (hr : Yields r P) : RefusesGrowth r R :=
  fun h h' k ae hrun => by
    obtain ⟨a, ha, -⟩ := hr h _ h' hrun
    cases ha

theorem throw {e : HeapError} (he : ∀ k ae, e ≠ .outOfMemory k ae) :
    RefusesGrowth (MonadExcept.throw e : RequestM α) R := fun h h' k ae hrun => by
  rw [run_throw] at hrun
  simp only [Except.ok.injEq, Prod.mk.injEq, Except.error.injEq] at hrun
  exact absurd hrun.1 (he k ae)

theorem throw_bind {e : HeapError} (he : ∀ k ae, e ≠ .outOfMemory k ae) (f : α → RequestM β) :
    RefusesGrowth ((MonadExcept.throw e : RequestM α) >>= f) R := fun h h' k ae hrun => by
  rw [run_bind_error (run_throw e h)] at hrun
  simp only [Except.ok.injEq, Prod.mk.injEq, Except.error.injEq] at hrun
  exact absurd hrun.1 (he k ae)

theorem bind_reads {m : HeapM α} {f : α → RequestM β} (hm : ReadsOnly m)
    (hf : ∀ a, RefusesGrowth (f a) R) : RefusesGrowth (liftM m >>= f) R :=
  fun h h' k ae hrun => by
    obtain ⟨a, h₁, hmh, hrest⟩ := run_lift_bind_error hrun
    rw [hm h a h₁ hmh] at hrest
    exact hf a h h' k ae hrest

theorem bind_get {f : Heap → RequestM β} (hf : ∀ s, RefusesGrowth (f s) R) :
    RefusesGrowth ((MonadState.get : RequestM Heap) >>= f) R := fun h h' k ae hrun => by
  rw [run_bind, run_get] at hrun
  exact hf h h h' k ae hrun

/-- After a first part, a rest that is never refused. -/
theorem bind_yields {P : β → Prop} {x : RequestM α} {f : α → RequestM β} (hx : RefusesGrowth x R)
    (hf : ∀ a, Yields (f a) P) : RefusesGrowth (x >>= f) R := fun h h' k ae hrun => by
  rw [run_bind] at hrun
  rcases hxh : run x h with _ | ⟨e | a, h₁⟩
  · rw [hxh] at hrun
    cases hrun
  · rw [hxh] at hrun
    cases hrun
    exact hx h h' k ae hxh
  · rw [hxh] at hrun
    obtain ⟨b, hb, -⟩ := hf a h₁ _ h' hrun
    cases hb

/-- Sequencing after a first part that settles: when it answers `Q` the rest is never
refused, and otherwise it left the heap, up to the count of attempts, for a rest whose
refusals are refused growths. `R` must absorb such a prefix. -/
theorem bind {Q : α → Prop} {P : β → Prop} {x : RequestM α} {f : α → RequestM β}
    (hR : ∀ {h h₁ h₂}, h.Refused h₁ → R h₁ h₂ → R h h₂) (hx : Settles x Q)
    (hxr : RefusesGrowth x R) (hQ : ∀ a, Q a → Yields (f a) P) (hf : ∀ a, RefusesGrowth (f a) R) :
    RefusesGrowth (x >>= f) R := fun h h' k ae hrun => by
  rw [run_bind] at hrun
  rcases hxh : run x h with _ | ⟨e | a, h₁⟩
  · rw [hxh] at hrun
    cases hrun
  · rw [hxh] at hrun
    cases hrun
    exact hxr h h' k ae hxh
  · rw [hxh] at hrun
    rcases hx h _ h₁ hxh with ⟨b, hb, hQb⟩ | hre
    · obtain ⟨c, hc, -⟩ := hQ a (Except.ok.inj hb ▸ hQb) h₁ _ h' hrun
      cases hc
    · obtain ⟨h₂, hR₂, hg⟩ := hf a h₁ h' k ae hrun
      exact ⟨h₂, hR hre hR₂, hg⟩

/-- A refusal caught by a fallback: the first part settles, so the fallback starts on the heap
it left, up to the count of attempts. -/
theorem tryCatch {P : α → Prop} {r : RequestM α} {c : HeapError → RequestM α}
    (hR : ∀ {h h₁ h₂}, h.Refused h₁ → R h₁ h₂ → R h h₂) (hr : Settles r P)
    (hc : ∀ e, RefusesGrowth (c e) R) : RefusesGrowth (MonadExcept.tryCatch r c) R :=
  fun h h' k ae hrun => by
    rw [run_tryCatch] at hrun
    rcases hrh : run r h with _ | ⟨e | a, h₁⟩
    · rw [hrh] at hrun
      cases hrun
    · rw [hrh] at hrun
      obtain ⟨h₂, hR₂, hg⟩ := hc e h₁ h' k ae hrun
      exact ⟨h₂, hR (hr.refused hrh) hR₂, hg⟩
    · rw [hrh] at hrun
      cases hrun

end RefusesGrowth

open RefusesGrowth

theorem extend_refusesGrowth (size : Nat) : RefusesGrowth (extend size) (· = ·) :=
  fun _ _ _ _ hr => ⟨_, rfl, extend_outOfMemory hr⟩

/-- A pointer check refuses only for the pointer. -/
theorem live_refusesGrowth (p : BlockPtr) : RefusesGrowth (live p) R := fun h h' k ae hrun => by
  cases hl : h.liveTag p with
  | ok t =>
    rw [run_live hl] at hrun
    cases hrun
  | error e =>
    rw [run_live_error hl] at hrun
    simp only [Except.ok.injEq, Prod.mk.injEq, Except.error.injEq] at hrun
    rcases liveTag_error hl with rfl | rfl <;> cases hrun.1

theorem release_refusesGrowth (p : BlockPtr) : RefusesGrowth (release p) R :=
  fun h h' k ae hrun => by
    obtain ⟨hl, rfl⟩ := release_refusal hrun
    rcases liveTag_error hl with he | he <;> cases he

/-- An acquisition is refused for want of memory only as its growth is: the size checks and
the best-fit walk before it only read, and nothing after it is refused. -/
theorem acquire_refusesGrowth (n : Nat) : RefusesGrowth (acquire n) (· = ·) := by
  unfold Heap.acquire
  dsimp only
  split
  · exact throw_bind (fun _ _ => by simp) _
  split
  · refine bind_reads (ReadsOnly.findFit _) fun found => ?_
    split
    · exact of_yields <| (Yields.pure_true _).bind fun _ _ =>
        (Yields.lift _).bind fun _ _ => (Yields.lift _).bind fun _ _ => Yields.pure_true _
    · refine bind_get fun _ => (extend_refusesGrowth _).bind_yields (P := fun _ => True) fun _ => ?_
      exact (Yields.lift _).bind fun _ _ => (Yields.lift _).bind fun _ _ => Yields.pure_true _
  · exact throw fun _ _ => by simp

/-- A resize is refused for want of memory only as the acquisition of its relocation is: the
growth in place that comes before it is caught, and leaves the heap up to the count of
attempts. -/
theorem resize_refusesGrowth (p : BlockPtr) (n : Nat) : RefusesGrowth (resize p n) Refused := by
  have hR : ∀ {h h₁ h₂ : Heap}, h.Refused h₁ → h₁.Refused h₂ → h.Refused h₂ := fun r r' =>
    r.trans r'
  unfold Heap.resize
  dsimp only
  split
  · exact (release_refusesGrowth p).bind_yields fun _ => Yields.pure_true _
  refine bind (Q := fun _ => False) (P := fun _ => True) hR (live_settles p) (live_refusesGrowth p)
    (fun _ h => h.elim) fun t => ?_
  split
  · split
    · exact of_yields (Yields.lift_then _ _)
    refine bind (P := fun _ => True) hR
      (Settles.tryCatch (growInPlace_settles _ _ _) fun _ => Settles.pure _)
      (tryCatch hR (growInPlace_settles _ _ _) fun _ => of_yields (Yields.pure_true _))
      (fun grown hg => ?_) fun grown => ?_
    · subst hg
      exact (Yields.lift_then _ _).mono fun _ _ => trivial
    split
    · exact of_yields (Yields.lift_then _ _)
    refine ((acquire_refusesGrowth n).mono fun h h₁ e => e ▸ Refused.refl h).bind_yields
      (P := fun _ => True) fun q => ?_
    exact (Yields.lift _).bind fun _ _ => (Yields.lift _).bind fun _ _ =>
      (Yields.lift_then _ _).mono fun _ _ => trivial
  · exact throw fun _ _ => by simp

theorem resize_invalid_of_live {h : Heap} {p : BlockPtr} {t : Tag} (ht : h.liveTag p = .ok t)
    {n : Nat} (hn : n ≠ 0) (ha : adjust n = none) :
    run (resize p n) h = .ok (.error (.invalidSize n), h) := by
  unfold Heap.resize
  rw [if_neg hn, run_bind_ok (run_live ht), ha]
  rfl

/-- Every tag and link word of the heap is in range: each walked block starts at a multiple
of eight and ends below 2^32, its header and footer hold the packed tag of its size, a
multiple of eight, and each link of a free block is 0 or the offset of a free block. -/
def WordsInRange (h : Heap) : Prop :=
  ∀ b ∈ h.blocks, b.ptr % 8 = 0 ∧ b.size % 8 = 0 ∧ b.ptr + b.size < wordBound ∧
    h.arena.word? (b.ptr - 4) = some b.tag.pack ∧
    h.arena.word? (b.ptr + b.size - 8) = some b.tag.pack ∧
    (b.state = .free → ∀ which : Link, ∃ q, h.arena.word? (which.offset b.ptr) = some q ∧
      (q = 0 ∨ ∃ c ∈ h.blocks, c.state = .free ∧ c.ptr = q))

end Heap

/-- A heap of the invariant holds its words in range: the layout places and packs every tag,
and each link of a listed block names its neighbour in the list, or no block. -/
theorem Shape.wordsInRange {h : Heap} {bs fl : List BlockInfo} (hs : Shape h bs fl) :
    h.WordsInRange := by
  intro b hb
  rw [hs.layout.blocks_eq] at hb ⊢
  obtain ⟨-, hend, h8, -, hs8, hh, hf⟩ := hs.layout.mem hb
  have hbrk := hs.layout.addressable
  simp only [addressable, wordBound] at hbrk
  refine ⟨h8, hs8, by simp only [wordBound]; omega, hh, hf, fun hbf which => ?_⟩
  obtain ⟨pre, post, hsplit⟩ := List.append_of_mem (hs.complete b hb hbf)
  obtain ⟨hl, hsm⟩ := hs.listed.words hsplit
  have hnb : ∀ c, c ∈ pre ∨ c ∈ post → c ∈ bs ∧ c.state = .free := fun c hc =>
    hs.listed.free c (by rw [hsplit]; rcases hc with hc | hc <;> simp [hc])
  cases which with
  | larger =>
    refine ⟨_, hl, ?_⟩
    cases post with
    | nil => exact .inl rfl
    | cons c _ =>
      obtain ⟨hc, hcf⟩ := hnb c (.inr List.mem_cons_self)
      exact .inr ⟨c, hc, hcf, rfl⟩
  | smaller =>
    refine ⟨_, by rwa [Link.offset_smaller], ?_⟩
    rcases List.eq_nil_or_concat pre with rfl | ⟨pre', c, rfl⟩
    · exact .inl rfl
    · obtain ⟨hc, hcf⟩ := hnb c (.inl (by simp))
      exact .inr ⟨c, hc, hcf, by simp⟩

/-- The numbers of a heap stay in range. A heap is never built over an arena whose ceiling
passes the 32-bit range, and an arena refuses growth past its ceiling. Every out-of-memory
refusal of an acquisition is a growth refused past the 32-bit range with the heap untouched,
or within it by the arena; a resize's, the same after a growth in place that at most counted
an attempt. A size whose block size overflows is refused as invalid. On a reachable heap the
words are in range, and an acquisition or a resize of a live block never faults, so no
offset computation goes below zero and no tag or link is too wide for its word, and leaves
the words in range. -/
theorem requests_stay_in_range (a : Arena) (cfg : HeapConfig) (h : Heap) (n : Nat)
    (p : BlockPtr) :
    (addressable < a.maxBytes → ∃ e, Heap.create a cfg = .ok (.error e)) ∧
    (∀ k, a.maxBytes < a.brk + k → (a.grow k).2 = .error (.exhausted k a.brk a.maxBytes)) ∧
    (∀ h' k ae, Heap.run (Heap.acquire n) h = .ok (.error (.outOfMemory k ae), h') →
      Heap.GrowthRefused h k ae h') ∧
    (∀ h' k ae, Heap.run (Heap.resize p n) h = .ok (.error (.outOfMemory k ae), h') →
      ∃ h₁, h.Refused h₁ ∧ Heap.GrowthRefused h₁ k ae h') ∧
    (adjust n = none → Heap.run (Heap.acquire n) h = .ok (.error (.invalidSize n), h)) ∧
    (∀ t, h.liveTag p = .ok t → n ≠ 0 → adjust n = none →
      Heap.run (Heap.resize p n) h = .ok (.error (.invalidSize n), h)) ∧
    (h.Reachable → h.WordsInRange ∧
      (∃ r h', Heap.run (Heap.acquire n) h = .ok (r, h') ∧ h'.WordsInRange) ∧
      (h.Live p → ∃ r h', Heap.run (Heap.resize p n) h = .ok (r, h') ∧ h'.WordsInRange)) := by
  refine ⟨fun hmax => ?_, fun _ hk => a.grow_past_ceiling hk, fun h' k ae hr => ?_,
    fun h' k ae hr => Heap.resize_refusesGrowth p n h h' k ae hr,
    fun ha => acquire_invalid (.inr ha) h, fun t ht hn ha => Heap.resize_invalid_of_live ht hn ha,
    fun hr => ?_⟩
  · unfold Heap.create
    split
    · exact ⟨_, rfl⟩
    · rw [if_pos hmax]
      exact ⟨_, rfl⟩
  · obtain ⟨h₁, rfl, hg⟩ := Heap.acquire_refusesGrowth n h h' k ae hr
    exact hg
  · have hv := hr.valid
    obtain ⟨bs, fl, hs⟩ := hv.shape
    refine ⟨hs.wordsInRange, ?_, fun hp => ?_⟩
    · obtain ⟨r, h', hrun, -⟩ := acquire_total hv n
      obtain ⟨bs', fl', hs'⟩ := (hr.step (.acquire n hrun)).valid.shape
      exact ⟨r, h', hrun, hs'.wordsInRange⟩
    · obtain ⟨r, h', hrun, -⟩ := resize_total hv hp n
      obtain ⟨bs', fl', hs'⟩ := (hr.step (.resize n (.inl hp) hrun)).valid.shape
      exact ⟨r, h', hrun, hs'.wordsInRange⟩

/-- On a reachable heap with a live block, the largest request is refused as invalid, by
acquisition and by resize, with the heap untouched, and an acquisition and a resize of the live
block to forty bytes leave the words in range. -/
theorem built_heap_requests_in_range : ∃ (h : Heap) (p : BlockPtr), h.Reachable ∧ h.Live p ∧
    Heap.run (Heap.acquire (2 ^ 64 - 1)) h = .ok (.error (.invalidSize (2 ^ 64 - 1)), h) ∧
    Heap.run (Heap.resize p (2 ^ 64 - 1)) h = .ok (.error (.invalidSize (2 ^ 64 - 1)), h) ∧
    h.WordsInRange ∧ (∃ r h', Heap.run (Heap.acquire 40) h = .ok (r, h') ∧ h'.WordsInRange) ∧
    ∃ r h', Heap.run (Heap.resize p 40) h = .ok (r, h') ∧ h'.WordsInRange := by
  obtain ⟨h, p, hr, hp⟩ := exists_reachable_live
  obtain ⟨bs, fl, hs⟩ := hr.valid.shape
  obtain ⟨pre, b, post, rfl, hba, rfl⟩ := hs.live hp
  have htag := hs.layout.liveTag_apply (List.mem_append_right pre List.mem_cons_self) hba
  have hbig : adjust (2 ^ 64 - 1) = none := by decide
  obtain ⟨-, -, -, -, hacq, hres, -⟩ :=
    requests_stay_in_range h.arena h.config h (2 ^ 64 - 1) ⟨b.ptr⟩
  obtain ⟨-, -, -, -, -, -, hin⟩ := requests_stay_in_range h.arena h.config h 40 ⟨b.ptr⟩
  obtain ⟨hw, hacq', hres'⟩ := hin hr
  exact ⟨h, ⟨b.ptr⟩, hr, hp, hacq hbig, hres b.tag htag (by decide) hbig, hw, hacq', hres' hp⟩

end Allocator
