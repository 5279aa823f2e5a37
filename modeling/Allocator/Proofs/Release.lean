import Allocator.Proofs.Statistics
import Allocator.Proofs.Refusal

/-! What a release does to the blocks and to the free list. A live block is merged with the
free blocks right before and after it, at most one on each side, into one free block that
starts where the first of them starts and spans them all; every other block stays where it
is, and an allocated one keeps its payload bytes. The free list loses the neighbours taken in
and takes the merged block ahead of the blocks of its size, the rest keeping their order. So
the number of free blocks moves by one less than the number of neighbours taken in, and the
free bytes grow by the released block's size (`release_merges_window`). -/
namespace Allocator

variable {h : Heap} {pre post fl : List BlockInfo} {b : BlockInfo}

theorem Layout.ptr_eq_sum {a : Arena} {xs ys : List BlockInfo} {c : BlockInfo}
    (hl : Layout a (xs ++ c :: ys)) : c.ptr = firstBlock + (xs.map (·.size)).sum :=
  (hl.around rfl).1.end_eq_sum

theorem filter_free_of_free {l : List BlockInfo} (hl : ∀ c ∈ l, c.state = .free) :
    l.filter (·.state = .free) = l :=
  List.filter_eq_self.mpr fun c hc => by simp [hl c hc]

/-- The free blocks of a layout cut around a merge window, counted by the filter. -/
theorem filter_free_window {pre' pw nw post' : List BlockInfo} {c : BlockInfo}
    (hfree : ∀ d ∈ pw ++ nw, d.state = .free) :
    (pre' ++ pw ++ c :: nw ++ post').filter (·.state = .free) =
      pre'.filter (·.state = .free) ++ pw ++ [c].filter (·.state = .free) ++ nw ++
        post'.filter (·.state = .free) := by
  have hpw := filter_free_of_free fun d hd => hfree d (List.mem_append_left _ hd)
  have hnw := filter_free_of_free fun d hd => hfree d (List.mem_append_right _ hd)
  simp only [List.filter_append, hpw, hnw, List.cons_append, List.append_assoc,
    List.filter_cons (x := c), List.filter_nil]
  split <;> simp

/-- Listed blocks other than the released one lie outside a merge window exactly when they are
not among the neighbours it takes in. -/
theorem filter_outside_window {pre' pw nw post' : List BlockInfo}
    (hnd : (pre' ++ (pw ++ b :: nw) ++ post').Nodup)
    (hfl : ∀ c ∈ fl, c ∈ pre' ++ (pw ++ b :: nw) ++ post' ∧ c ≠ b) :
    fl.filter (· ∈ pre' ++ post') = fl.filter (· ∉ pw ++ nw) := by
  rw [List.nodup_append, List.nodup_append] at hnd
  obtain ⟨⟨-, -, hdis1⟩, -, hdis2⟩ := hnd
  refine List.filter_congr fun c hc => ?_
  obtain ⟨hcb, hne⟩ := hfl c hc
  simp only [decide_eq_decide]
  simp only [List.mem_append, List.mem_cons] at hcb ⊢
  constructor
  · rintro (hin | hin) hw
    · exact hdis1 c hin c (by simp only [List.mem_append, List.mem_cons]; tauto) rfl
    · exact hdis2 c (by simp only [List.mem_append, List.mem_cons]; tauto) c hin rfl
  · intro hout
    tauto

/-- Releasing a live block of a reachable heap succeeds and keeps the break. The window it
frees is the block with its free neighbours `pw` before and `nw` after, at most one on each
side, between blocks that are not free; the block walk then shows one free block `m` in its
place, starting where the window's first block starts and spanning the whole window, with
every other block unchanged and every other allocated block keeping its payload bytes. The
free list walked from the tail goes from `fl` to `fl` less the neighbours taken in, with `m`
inserted ahead of the entries of its size; the free blocks counted by the statistics move by
one less than the neighbours taken in, and the free bytes grow by the block's size. -/
theorem release_merges_window (hr : h.Reachable) (hbs : h.blocks = pre ++ b :: post)
    (hba : b.state = .allocated) :
    ∃ h' pre' pw nw post' m, Heap.run (Heap.release ⟨b.ptr⟩) h = .ok (.ok (), h') ∧
      h'.arena.brk = h.arena.brk ∧
      pre = pre' ++ pw ∧ post = nw ++ post' ∧ pw.length ≤ 1 ∧ nw.length ≤ 1 ∧
      (∀ c ∈ pw ++ nw, c.state = .free) ∧ (∀ c ∈ pre'.getLast?, c.state = .allocated) ∧
      (∀ c ∈ post'.head?, c.state = .allocated) ∧
      h'.blocks = pre' ++ m :: post' ∧ m.state = .free ∧
      (∀ c ∈ (pw ++ b :: nw).head?, m.ptr = c.ptr) ∧
      m.size = ((pw ++ b :: nw).map (·.size)).sum ∧
      (∀ c ∈ pre' ++ post', c.state = .allocated → ∀ j, c.ptr ≤ j → j < c.ptr + c.size - 8 →
        h'.arena.memory[j]? = h.arena.memory[j]?) ∧
      (∃ fl, h.FreeEntries fl ∧
        h'.FreeEntries ((fl.filter (· ∉ pw ++ nw)).orderedInsert BlockInfo.SizeLE m)) ∧
      h'.stats.freeBlocks + (pw ++ nw).length = h.stats.freeBlocks + 1 ∧
      h'.stats.freeBytes = h.stats.freeBytes + b.size := by
  have hv := hr.valid
  obtain ⟨bs, fl, hs⟩ := hv.shape
  obtain rfl : bs = pre ++ b :: post := hs.layout.blocks_eq.symm.trans hbs
  obtain ⟨h', pre', post', m, rr, hs', hmg, sv, hbrk⟩ := release_merges hs hba hv.backed
  obtain ⟨pw, nw, hpre, hpost, hpw, hnw, hfree, -, hsize⟩ := hmg.window
  subst hpre hpost
  have hbs' : pre' ++ pw ++ b :: (nw ++ post') = pre' ++ (pw ++ b :: nw) ++ post' := by simp
  have hl := hs.layout
  rw [hbs'] at hl
  have hblocks' := hs'.layout.blocks_eq
  have hmf := hmg.free
  have hold : (pre' ++ pw ++ b :: (nw ++ post')).filter (·.state = .free) =
      pre'.filter (·.state = .free) ++ pw ++ nw ++ post'.filter (·.state = .free) := by
    rw [show pre' ++ pw ++ b :: (nw ++ post') = pre' ++ pw ++ b :: nw ++ post' by simp,
      filter_free_window hfree]
    simp [hba]
  have hnew : (pre' ++ m :: post').filter (·.state = .free) =
      pre'.filter (·.state = .free) ++ m :: post'.filter (·.state = .free) := by
    rw [show pre' ++ m :: post' = pre' ++ [] ++ m :: [] ++ post' by simp,
      filter_free_window (by simp)]
    simp [hmf]
  refine ⟨h', pre', pw, nw, post', m, rr, hbrk, rfl, rfl, hpw, hnw, hfree, hmg.before, hmg.after,
    hblocks', hmf, ?_, by simpa using hsize, ?_, ⟨fl, hs.freeEntries, ?_⟩, ?_, ?_⟩
  · intro c hc
    have hwin : pw ++ b :: nw = c :: (pw ++ b :: nw).tail := by
      cases pw <;> simp_all
    have hl' := hl
    rw [hwin, List.append_assoc, List.cons_append] at hl'
    rw [hs'.layout.ptr_eq_sum, hl'.ptr_eq_sum]
  · intro c hc hca
    exact (sv.persists c (by simp only [List.mem_append] at hc ⊢; tauto) hca).2
  · have hs'' := hs'.freeEntries
    rwa [filter_outside_window hl.nodup fun c hc => ⟨hbs' ▸ (hs.listed.free c hc).1,
      fun e => by rw [← e, (hs.listed.free c hc).2] at hba; cases hba⟩] at hs''
  · rw [Heap.stats_freeBlocks, Heap.stats_freeBlocks, hblocks', hs.layout.blocks_eq, hold, hnew]
    simp
    omega
  · rw [Heap.stats_freeBytes, Heap.stats_freeBytes, hblocks', hs.layout.blocks_eq, hold, hnew]
    simp only [List.map_append, List.sum_append, List.map_cons, List.sum_cons] at hsize
    simp [hsize]
    omega

theorem reachable_release_keeps_break : ∃ (h : Heap) (pre post : List BlockInfo) (b : BlockInfo),
    h.Reachable ∧ h.blocks = pre ++ b :: post ∧ b.state = .allocated ∧
      ∃ h', Heap.run (Heap.release ⟨b.ptr⟩) h = .ok (.ok (), h') ∧ h'.arena.brk = h.arena.brk := by
  obtain ⟨h, p, hr, b, hb, hba, -⟩ := exists_reachable_live
  obtain ⟨pre, post, hbs⟩ := List.append_of_mem hb
  obtain ⟨h', -, -, -, -, -, rr, hbrk, -⟩ := release_merges_window hr hbs hba
  exact ⟨h, pre, post, b, hr, hbs, hba, h', rr, hbrk⟩

end Allocator
