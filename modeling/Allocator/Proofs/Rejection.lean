import Allocator.Proofs.Check

/-! Pointers that name no live block are rejected. The pointer check reads a header and a
footer and nothing else, so what makes it sound is that no allocated tag stands where no
allocated block begins: on a clean heap every word at an offset four past a multiple of
eight whose allocated bit is set is the prologue's header, the epilogue, or the header of an
allocated block (`Heap.Clean`). A heap built over an arena with no such word and changed only
by requests, on any pointers, with no writes into payloads and no layout afresh of a
reserved arena (`Heap.Called`), stays clean: a request clears the marks of the blocks it
frees and marks only the headers it writes and the bytes it copies, and the copied bytes come
from a payload, which holds no mark. On a clean heap of the invariant the check passes
exactly the live pointers (`Shape.liveTag_ok_iff`), so every other pointer is rejected as
invalid or as freed with nothing changed (`calls_reject_dead_pointers`). -/
namespace Allocator

namespace Heap

/-- No stray allocated tag: every marked word at an offset four past a multiple of eight is
the prologue's header, the epilogue, or the header of an allocated block of the walk. -/
def Clean (h : Heap) : Prop :=
  ∀ j, j % 8 = 4 → h.arena.Marked j →
    j = 4 ∨ j = h.arena.brk - 4 ∨ ∃ b ∈ h.blocks, b.state = .allocated ∧ j = b.ptr - 4

/-- One call a program makes on the heap without writing into payloads: a request on any
pointer, or a layout afresh of a growable arena. -/
inductive Call : Heap → Heap → Prop
  | init {h h' : Heap} {r : Except HeapError Unit} :
      h.arena.backing = .growable → run init h = .ok (r, h') → Call h h'
  | acquire {h h' : Heap} {r : Except HeapError BlockPtr} (n : Nat) :
      run (acquire n) h = .ok (r, h') → Call h h'
  | release {h h' : Heap} {r : Except HeapError Unit} (p : BlockPtr) :
      run (release p) h = .ok (r, h') → Call h h'
  | resize {h h' : Heap} {r : Except HeapError (Option BlockPtr)} (p : BlockPtr) (n : Nat) :
      run (resize p n) h = .ok (r, h') → Call h h'

/-- The heaps a program reaches by calls alone: a heap built over an arena that holds what it
promises and has no marked word four past a multiple of eight, with a configuration whose
growths are whole blocks, after any number of calls. -/
inductive Called : Heap → Prop
  | create {a : Arena} {cfg : HeapConfig} {h : Heap} :
      a.Backed → cfg.BlockGrowth → (∀ j, j % 8 = 4 → ¬ a.Marked j) →
      create a cfg = .ok (.ok h) → Called h
  | step {h h' : Heap} : Called h → Call h h' → Called h'

end Heap

section PointerCheck

variable {h : Heap} {p : BlockPtr}

/-- The pointer check rejects a pointer as invalid or as naming a freed block. -/
theorem liveTag_error {e : HeapError} (he : h.liveTag p = .error e) :
    e = .invalidPointer p ∨ e = .doubleFree p := by
  unfold Heap.liveTag at he
  dsimp only at he
  split_ifs at he
  · exact .inl (Except.error.inj he).symm
  · split at he
    · exact .inl (Except.error.inj he).symm
    · split_ifs at he
      · exact .inl (Except.error.inj he).symm
      · exact .inl (Except.error.inj he).symm
      · exact .inr (Except.error.inj he).symm

/-- A pointer the check passes is an aligned offset in the block area whose header word is
marked. -/
theorem liveTag_marked {t : Tag} (ht : h.liveTag p = .ok t) :
    firstBlock ≤ p.offset ∧ p.offset % 8 = 0 ∧ p.offset < h.arena.brk ∧
      h.arena.Marked (p.offset - 4) := by
  unfold Heap.liveTag at ht
  dsimp only at ht
  split_ifs at ht with hbad
  split at ht
  · cases ht
  · rename_i w hw
    split_ifs at ht with h1 h2 hfree
    simp only [alignment, not_or, not_lt, ne_eq, Decidable.not_not] at hbad
    refine ⟨hbad.1, hbad.2.1, by omega, (Arena.marked_iff_of_word? hw).mpr ?_⟩
    simp only [Tag.isFree, Tag.unpack, beq_iff_eq] at hfree
    split at hfree
    · assumption
    · exact absurd rfl hfree

end PointerCheck

theorem Arena.Marked.of_getElem? {a a' : Arena} {j k : Nat}
    (he : a'.memory[j]? = a.memory[k]?) (hm : a'.Marked j) : a.Marked k := by
  obtain ⟨x, hx, hodd⟩ := hm
  exact ⟨x, he ▸ hx, hodd⟩

/-- A reserved region filled with an even byte has no marked byte. -/
theorem Arena.reserved_unmarked {capacity : Nat} {fill : UInt8} (hf : fill.toNat % 2 = 0)
    (j : Nat) : ¬ (Arena.reserved capacity fill).Marked j := by
  rintro ⟨x, hx, hodd⟩
  simp only [Arena.reserved, getElem?_repeatByte] at hx
  split at hx
  · cases hx
    omega
  · cases hx

section Clean

variable {h h' : Heap} {bs fl : List BlockInfo} {p : BlockPtr}

/-- On a clean heap of the invariant the pointer check passes exactly the live pointers. -/
theorem Shape.liveTag_ok_iff (hs : Shape h bs fl) (hc : h.Clean) :
    (∃ t, h.liveTag p = .ok t) ↔ h.Live p := by
  constructor
  · rintro ⟨t, ht⟩
    obtain ⟨h16, h8, hlt, hm⟩ := liveTag_marked ht
    simp only [firstBlock] at h16
    rcases hc _ (by omega) hm with h4 | hbrk | ⟨b, hb, hba, hj⟩
    · omega
    · omega
    · have := (hs.layout.mem (hs.layout.blocks_eq ▸ hb)).1
      exact ⟨b, hb, hba, by omega⟩
  · intro hp
    obtain ⟨pre, b, post, rfl, hba, rfl⟩ := hs.live hp
    exact ⟨_, hs.layout.liveTag_apply (by simp) hba⟩

/-- On a clean heap of the invariant a pointer that names no live block is rejected, as
invalid or as naming a freed block, by a release, a resize and the payload queries, and
nothing changes. -/
theorem Shape.rejects (hs : Shape h bs fl) (hc : h.Clean) (hp : ¬ h.Live p) :
    ∃ e, (e = .invalidPointer p ∨ e = .doubleFree p) ∧ h.liveTag p = .error e ∧
      Heap.run (Heap.release p) h = .ok (.error e, h) ∧
      (∀ n, Heap.run (Heap.resize p n) h = .ok (.error e, h)) ∧
      h.payloadRange p = .error e ∧ h.usableSize p = .error e := by
  cases ht : h.liveTag p with
  | ok t => exact absurd ((hs.liveTag_ok_iff hc).mp ⟨t, ht⟩) hp
  | error e =>
    exact ⟨e, liveTag_error ht, rfl, release_rejected ht, resize_rejected ht,
      by simp [Heap.payloadRange, ht], by simp [Heap.usableSize, ht]⟩

theorem Shape.passable (hs : Shape h bs fl) (hc : h.Clean) (p : BlockPtr) : h.Passable p := by
  by_cases hp : h.Live p
  · exact .inl hp
  · obtain ⟨e, -, he, -⟩ := hs.rejects hc hp
    exact .inr ⟨e, he⟩

namespace Heap.Clean

/-- A clean heap of the invariant has no mark in a payload. -/
theorem payload_unmarked (hc : h.Clean) (hs : Shape h bs fl) {b : BlockInfo} (hb : b ∈ bs)
    {k : Nat} (hk : k % 8 = 4) (h1 : b.ptr ≤ k) (h2 : k < b.ptr + b.size - 8) :
    ¬ h.arena.Marked k := by
  intro hm
  obtain ⟨h12, hbrk, hfar⟩ := hs.layout.payload_not_tag hb h1 h2
  rcases hc k hk hm with rfl | rfl | ⟨c, hc', -, rfl⟩
  · omega
  · omega
  · rw [hs.layout.blocks_eq] at hc'
    have := (hfar c hc').1
    have := (hs.layout.mem hc').1
    omega

/-- Cleanliness carries over a change of heap that marks only `A` and clears `W`, when every
allocated block whose header is not cleared stays, the break stays unless the old epilogue
is cleared, and each new mark is one a clean heap may hold. -/
theorem of_marks {bs' fl' : List BlockInfo} {W A : Set Nat} (hc : h.Clean)
    (hs : Shape h bs fl) (hs' : Shape h' bs' fl') (m : Heap.Marks W A h h')
    (hkeep : ∀ c ∈ bs, c.state = .allocated → c.ptr - 4 ∉ W → c ∈ bs')
    (hbrk : h.arena.brk - 4 ∉ W → h'.arena.brk = h.arena.brk)
    (hA : ∀ j ∈ A, j % 8 = 4 → h'.arena.Marked j →
      j = 4 ∨ j = h'.arena.brk - 4 ∨ ∃ c ∈ bs', c.state = .allocated ∧ j = c.ptr - 4) :
    h'.Clean := by
  intro j hj hm
  rw [hs'.layout.blocks_eq]
  rcases m j hj hm with ⟨hm₀, hjW⟩ | hjA
  · rcases hc j hj hm₀ with rfl | rfl | ⟨c, hc', hca, rfl⟩
    · exact .inl rfl
    · exact .inr (.inl (by rw [hbrk hjW]))
    · rw [hs.layout.blocks_eq] at hc'
      exact .inr (.inr ⟨c, hkeep c hc' hca hjW, hca, rfl⟩)
  · exact hA j hjA hj hm

/-- A layout afresh that clears every mark of the heap it starts from leaves only the
prologue's header and the epilogue marked. -/
theorem of_fresh {h₀ : Heap} {W : Set Nat} (m : Heap.Marks W {4, h'.arena.brk - 4} h₀ h')
    (hfresh : ∀ j, j % 8 = 4 → h₀.arena.Marked j → j ∈ W) : h'.Clean := by
  intro j hj hm
  rcases m j hj hm with ⟨hm₀, hjW⟩ | hjA
  · exact absurd (hfresh j hj hm₀) hjW
  · rcases hjA with rfl | rfl
    · exact .inl rfl
    · exact .inr (.inl rfl)

theorem of_refused (hc : h.Clean) (hs : Shape h bs fl) (r : h.Refused h') : h'.Clean := by
  obtain ⟨m, hbrk⟩ := Heap.Marks.refused (Heap.Marks.refl ∅ h) r
  exact hc.of_marks hs (hs.refused r) m (fun c hc _ _ => hc) (fun _ => hbrk)
    (fun j hj => by cases hj)

/-- A release of an allocated block keeps a heap clean: it clears the block's header and
marks nothing. -/
theorem of_release {pre post bs' : List BlockInfo} {b : BlockInfo} (hc : h.Clean)
    (hs : Shape h (pre ++ b :: post) fl) (sv : Heap.Served h (pre ++ post) {b.ptr - 4} ∅ h' bs')
    (hbrk : h'.arena.brk = h.arena.brk) : h'.Clean := by
  obtain ⟨fl', hs'⟩ := sv.shape
  refine hc.of_marks hs hs' sv.marks (fun c hc hca hW => ?_) (fun _ => hbrk)
    (fun j hj => by cases hj)
  have hcb : c ≠ b := fun e => hW (by rw [e]; rfl)
  have hc' : c ∈ pre ++ post := by
    simp only [List.mem_append, List.mem_cons] at hc ⊢
    tauto
  exact (sv.persists c hc' hca).1

theorem of_init {r : Except HeapError Unit} (hv : h.Valid)
    (hg : h.arena.backing = .growable) (hr : Heap.run Heap.init h = .ok (r, h')) : h'.Clean := by
  obtain ⟨r', h'', -, -, hr', -, -, -, m⟩ := init_apply hv.backed hv.growth hv.bootable
  obtain ⟨-, rfl⟩ : r' = r ∧ h'' = h' := by simpa [hr] using hr'.symm
  rw [if_pos hg] at m
  exact of_fresh m fun _ _ _ => Set.mem_univ _

/-- An acquisition keeps a heap clean: it clears the old epilogue when the arena grows and
marks only the answered block's header and the new epilogue. -/
theorem acquire_step {r : Except HeapError BlockPtr} (hc : h.Clean) (hv : h.Valid) {n : Nat}
    (hr : Heap.run (Heap.acquire n) h = .ok (r, h')) : h'.Clean := by
  obtain ⟨bs, fl, hs⟩ := hv.shape
  by_cases hn : n = 0 ∨ adjust n = none
  · rw [acquire_invalid hn] at hr
    obtain ⟨-, rfl⟩ : _ = r ∧ h = h' := by simpa using hr
    exact hc
  obtain ⟨hn0, ha⟩ := not_or.mp hn
  obtain ⟨adjusted, ha⟩ := Option.ne_none_iff_exists'.mp ha
  rcases acquire_apply hs hv.backed hv.growth hn0 ha with
    ⟨e, h'', he, hre, -⟩ | ⟨h'', bs', a, he, sv, ha', has, -, -⟩
  · rw [he] at hr
    obtain ⟨-, rfl⟩ : _ = r ∧ h'' = h' := by simpa using hr
    exact hc.of_refused hs hre
  · rw [he] at hr
    obtain ⟨-, rfl⟩ : _ = r ∧ h'' = h' := by simpa using hr
    obtain ⟨fl', hs'⟩ := sv.shape
    refine hc.of_marks hs hs' sv.marks (fun c hc hca _ => (sv.persists c hc hca).1)
      (fun hW => absurd rfl hW) fun j hj _ _ => ?_
    rcases hj with rfl | rfl
    · exact .inr (.inr ⟨a, ha', has, rfl⟩)
    · exact .inr (.inl rfl)

/-- A release on any pointer keeps a clean heap of the invariant clean: a live block is
freed, and any other pointer is rejected with nothing changed. -/
theorem release_step {r : Except HeapError Unit} (hc : h.Clean) (hv : h.Valid) {p : BlockPtr}
    (hr : Heap.run (Heap.release p) h = .ok (r, h')) : h'.Clean := by
  obtain ⟨bs, fl, hs⟩ := hv.shape
  by_cases hp : h.Live p
  · obtain ⟨pre, b, post, rfl, hba, rfl⟩ := hs.live hp
    obtain ⟨h'', bs', hr', sv, hbrk⟩ := release_apply hs hba hv.backed
    rw [hr'] at hr
    obtain ⟨-, rfl⟩ : _ = r ∧ h'' = h' := by simpa using hr
    exact hc.of_release hs sv hbrk
  · obtain ⟨e, -, -, he, -⟩ := hs.rejects hc hp
    rw [he] at hr
    obtain ⟨-, rfl⟩ : _ = r ∧ h = h' := by simpa using hr
    exact hc

/-- A resize on any pointer keeps a clean heap of the invariant clean. The answered block's
header and the epilogue are the only new tags, and the bytes copied into the answered block
come from the old block's payload, where no mark stands. -/
theorem resize_step {r : Except HeapError (Option BlockPtr)} (hc : h.Clean) (hv : h.Valid)
    {p : BlockPtr} {n : Nat} (hr : Heap.run (Heap.resize p n) h = .ok (r, h')) : h'.Clean := by
  obtain ⟨bs, fl, hs⟩ := hv.shape
  by_cases hp : h.Live p
  swap
  · obtain ⟨e, -, -, -, he, -⟩ := hs.rejects hc hp
    rw [he n] at hr
    obtain ⟨-, rfl⟩ : _ = r ∧ h = h' := by simpa using hr
    exact hc
  obtain ⟨pre, b, post, rfl, hba, rfl⟩ := hs.live hp
  have hbm : b ∈ pre ++ b :: post := by simp
  obtain ⟨r', h'', hr', herr, hnone, hsome⟩ := resize_apply hs hv.backed hv.growth hba n
  rw [hr'] at hr
  obtain ⟨rfl, rfl⟩ : r' = r ∧ h'' = h' := by simpa using hr
  rcases r' with e | _ | q
  · exact hc.of_refused hs (herr e rfl).1
  · obtain ⟨-, bs', sv, hbrk⟩ := hnone rfl
    exact hc.of_release hs sv hbrk
  obtain ⟨bs', a, -, ha, has, -, sv, hcopy⟩ := hsome q rfl
  obtain ⟨fl', hs'⟩ := sv.shape
  refine hc.of_marks hs hs' sv.marks (fun c hc' hca hW => ?_) (fun hW => absurd (.inl rfl) hW)
    fun j hj hj4 hm => ?_
  · have hcb : c ≠ b := fun e => hW (.inr (by rw [e]; rfl))
    have hc'' : c ∈ pre ++ post := by
      simp only [List.mem_append, List.mem_cons] at hc' ⊢
      tauto
    exact (sv.persists c hc'' hca).1
  rcases hj with (rfl | rfl) | hj
  · exact .inr (.inr ⟨a, ha, has, rfl⟩)
  · exact .inr (.inl rfl)
  simp only [Set.mem_Ico, tagOverhead] at hj
  have hcp := hcopy (j - a.ptr) (by simp only [tagOverhead]; omega)
  rw [Nat.add_sub_cancel' hj.1] at hcp
  have ha8 := (hs'.layout.mem ha).2.2.1
  have hb8 := (hs.layout.mem hbm).2.2.1
  exact absurd (Arena.Marked.of_getElem? hcp hm)
    (hc.payload_unmarked hs hbm (by omega) (by omega) (by omega))

end Heap.Clean

/-- A heap reached by calls alone is reachable and clean. Building it leaves only the
prologue's header and the epilogue marked, since a growable arena starts empty and the other
has no mark; each call keeps the heap clean, and on a clean heap every pointer a call passes
is passable, so the call is a step of a run. -/
theorem Heap.Called.reachable_clean (hr : h.Called) : h.Reachable ∧ h.Clean := by
  induction hr with
  | create hb hc hm hcr =>
    refine ⟨.create hb hc hcr, Heap.Clean.of_fresh (create_apply hcr hb hc).2.2.2.2 ?_⟩
    intro j hj hmj
    split
    · exact Set.mem_univ _
    · exact absurd hmj (hm j hj)
  | step _ st ih =>
    obtain ⟨hreach, hc⟩ := ih
    have hv := hreach.valid
    obtain ⟨bs, fl, hs⟩ := hv.shape
    cases st with
    | init hg hr => exact ⟨hreach.step (.init hr), Heap.Clean.of_init hv hg hr⟩
    | acquire n hr => exact ⟨hreach.step (.acquire n hr), hc.acquire_step hv hr⟩
    | release p hr => exact ⟨hreach.step (.release (hs.passable hc p) hr), hc.release_step hv hr⟩
    | resize p n hr =>
      exact ⟨hreach.step (.resize n (hs.passable hc p) hr), hc.resize_step hv hr⟩

end Clean

/-- Pointers that name no live block are rejected without touching the heap. On every heap a
program reaches by calls alone, with any pointers and sizes but no writes into payloads and
no layout afresh of a reserved arena, from an arena with no stray allocated tag and a
configuration whose growths are whole blocks: the heap passes its consistency check, and a
pointer that is not the payload offset of a block the walk reports allocated is rejected, as
invalid or as naming a freed block, by a release, by a resize to any size and by both payload
queries, each leaving the heap exactly as it was. -/
theorem calls_reject_dead_pointers {h : Heap} (hr : h.Called) :
    h.check = .ok () ∧ ∀ p : BlockPtr, ¬ h.Live p →
      ∃ e, (e = .invalidPointer p ∨ e = .doubleFree p) ∧
        Heap.run (Heap.release p) h = .ok (.error e, h) ∧
        (∀ n, Heap.run (Heap.resize p n) h = .ok (.error e, h)) ∧
        h.payloadRange p = .error e ∧ h.usableSize p = .error e := by
  obtain ⟨hreach, hc⟩ := hr.reachable_clean
  obtain ⟨bs, fl, hs⟩ := hreach.valid.shape
  refine ⟨hs.check, fun p hp => ?_⟩
  obtain ⟨e, he, -, hrel, hres, hpay, husable⟩ := hs.rejects hc hp
  exact ⟨e, he, hrel, hres, hpay, husable⟩

/-- A heap built over a reserved region of 64 bytes filled with `0xcc`, with growths of 16
bytes, rejects its free first block as freed. -/
theorem reserved_heap_rejects_free_block : ∃ h : Heap, h.Called ∧ ¬ h.Live ⟨16⟩ ∧
    h.check = .ok () ∧ ∃ e, (e = .invalidPointer ⟨16⟩ ∨ e = .doubleFree ⟨16⟩) ∧
      Heap.run (Heap.release ⟨16⟩) h = .ok (.error e, h) ∧
      (∀ n, Heap.run (Heap.resize ⟨16⟩ n) h = .ok (.error e, h)) ∧
      h.payloadRange ⟨16⟩ = .error e ∧ h.usableSize ⟨16⟩ = .error e := by
  obtain ⟨h, hcr, hok⟩ := Heap.createdWith_eq_true
    (show Heap.createdWith (Arena.reserved 64 0xcc) ⟨16, 16⟩
      (fun h => !h.blocks.any fun b => b.state == .allocated && b.ptr == 16) = true by
      decide +kernel)
  have hcalled : h.Called := .create (Arena.reserved_backed 64 0xcc)
    ⟨by decide, by decide, by decide, by decide, by decide⟩
    (fun j _ => Arena.reserved_unmarked (by decide) j) hcr
  have hdead : ¬ h.Live ⟨16⟩ := by
    rintro ⟨b, hb, hba, hbp⟩
    have := List.any_eq_false.mp (Bool.not_eq_true' _ ▸ hok) b hb
    simp_all
  exact ⟨h, hcalled, hdead, (calls_reject_dead_pointers hcalled).1,
    (calls_reject_dead_pointers hcalled).2 ⟨16⟩ hdead⟩

end Allocator
