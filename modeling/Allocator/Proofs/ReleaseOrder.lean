import Allocator.Proofs.Release
import Allocator.Proofs.Payload

/-! Releases commute. Immediate merging keeps two free blocks from ever standing side by side,
so the blocks of a heap are fixed by its allocated blocks and its break: every gap between
allocated blocks, and before the first and after the last, is one free block
(`Run.eq_fillGaps`). A release of a live block takes that block, and only it, out of the
allocated ones (`release_live_step`), so releasing a set of live pointers in any order leaves
the same allocated blocks, hence the same blocks, hence the same free blocks; the free lists,
each sorted by size, can differ only in the order of blocks of one size. Releasing every live
block leaves the whole arena one free block (`release_order_irrelevant`). -/
namespace Allocator

/-- The blocks from `lo` to `hi` whose allocated blocks are `as`, in address order, with each
gap around them one free block. -/
def fillGaps (lo : Nat) : List BlockInfo → Nat → List BlockInfo
  | [], hi => if lo < hi then [⟨lo, hi - lo, .free⟩] else []
  | a :: as, hi =>
    (if lo < a.ptr then [⟨lo, a.ptr - lo, .free⟩] else []) ++ a :: fillGaps (a.ptr + a.size) as hi

/-- A run of blocks no two free ones of which are neighbours is its allocated blocks with the
gaps filled. The induction is on the run; a free block is followed by an allocated one or by
the end of the run, and in both cases it fills the gap in front of it. -/
theorem Run.eq_fillGaps {a : Arena} {lo hi : Nat} {bs : List BlockInfo} (hr : Run a lo bs hi)
    (hsep : bs.IsChain BlockInfo.Separated) :
    bs = fillGaps lo (bs.filter (·.state = .allocated)) hi := by
  induction bs generalizing lo with
  | nil => simp [fillGaps, run_nil.mp hr]
  | cons c bs ih =>
    obtain ⟨rfl, hmin, -, -, -, hr'⟩ := run_cons.mp hr
    have ih' := ih hr' hsep.tail
    cases hc : c.state with
    | allocated =>
      rw [List.filter_cons_of_pos (by simp [hc]), fillGaps, if_neg (Nat.lt_irrefl _),
        List.nil_append, ← ih']
    | free =>
      rw [List.filter_cons_of_neg (by simp [hc])]
      have hceq : c = ⟨c.ptr, c.size, .free⟩ := by rw [← hc]
      simp only [minBlock] at hmin
      cases bs with
      | nil =>
        have hend := run_nil.mp hr'
        rw [List.filter_nil, fillGaps, if_pos (by omega), hceq, ← hend, Nat.add_sub_cancel_left]
      | cons d bs =>
        have hd : d.state = .allocated := by
          rcases (List.isChain_cons_cons.mp hsep).1 with hca | hda
          · rw [hc] at hca; cases hca
          · exact hda
        have hdp := (run_cons.mp hr').1
        rw [List.filter_cons_of_pos (by simp [hd])] at ih' ⊢
        rw [fillGaps, if_neg (by omega), List.nil_append] at ih'
        rw [fillGaps, if_pos (by omega), ih', hdp, hceq]
        simp

section Canonical

variable {h₁ h₂ : Heap} {bs₁ bs₂ fl₁ fl₂ : List BlockInfo}

/-- Two heaps of the invariant with one break and the same allocated blocks have the same
blocks. -/
theorem Shape.eq_of_allocated (hs₁ : Shape h₁ bs₁ fl₁) (hs₂ : Shape h₂ bs₂ fl₂)
    (hbrk : h₁.arena.brk = h₂.arena.brk)
    (halloc : ∀ c, c ∈ bs₁ ∧ c.state = .allocated ↔ c ∈ bs₂ ∧ c.state = .allocated) :
    bs₁ = bs₂ := by
  have hfilter : bs₁.filter (·.state = .allocated) = bs₂.filter (·.state = .allocated) := by
    have hp₁ : (bs₁.filter (·.state = .allocated)).Pairwise (fun b c => b.ptr + b.size ≤ c.ptr) :=
      hs₁.layout.run.sorted.sublist List.filter_sublist
    have hp₂ : (bs₂.filter (·.state = .allocated)).Pairwise (fun b c => b.ptr + b.size ≤ c.ptr) :=
      hs₂.layout.run.sorted.sublist List.filter_sublist
    refine List.Perm.eq_of_pairwise ?_ hp₁ hp₂ ?_
    · intro b c hb _ hbc hcb
      have := (hs₁.layout.mem (List.mem_filter.mp hb).1).2.2.2.1
      omega
    · refine (List.perm_ext_iff_of_nodup (hs₁.layout.nodup.filter _)
        (hs₂.layout.nodup.filter _)).mpr fun c => ?_
      simp only [List.mem_filter, decide_eq_true_eq]
      exact halloc c
  calc bs₁ = fillGaps firstBlock (bs₁.filter (·.state = .allocated)) h₁.arena.brk :=
        hs₁.layout.run.eq_fillGaps hs₁.separated
    _ = fillGaps firstBlock (bs₂.filter (·.state = .allocated)) h₂.arena.brk := by
        rw [hfilter, hbrk]
    _ = bs₂ := (hs₂.layout.run.eq_fillGaps hs₂.separated).symm

end Canonical

variable {h : Heap}

/-- Releasing a live pointer of a reachable heap succeeds, keeps the break and leaves a
reachable heap whose allocated blocks are the old ones less the released one. -/
theorem release_live_step (hr : h.Reachable) {p : BlockPtr} (hp : h.Live p) :
    ∃ h', Heap.run (Heap.release p) h = .ok (.ok (), h') ∧ h'.Reachable ∧
      h'.arena.brk = h.arena.brk ∧
      ∀ c, (c ∈ h'.blocks ∧ c.state = .allocated) ↔
        (c ∈ h.blocks ∧ c.state = .allocated ∧ c.ptr ≠ p.offset) := by
  obtain ⟨⟨bs, fl, hs⟩, hb, -, -⟩ := hr.valid
  obtain ⟨b, hbm, hba, rfl⟩ := hs.live_mem hp
  obtain ⟨pre, post, rfl⟩ := List.append_of_mem hbm
  obtain ⟨h', pre', post', m, rr, hs', hmg, -, hbrk⟩ := release_merges hs hba hb
  refine ⟨h', rr, hr.step (.release (.inl hp) rr), hbrk, fun c => ?_⟩
  have hl := hs.layout
  rw [hs'.layout.blocks_eq, hl.blocks_eq]
  obtain ⟨pw, nw, rfl, rfl, -, -, hfree, -, -⟩ := hmg.window
  have hmf := hmg.free
  have hptr : ∀ d ∈ pre' ++ pw ++ b :: (nw ++ post'), d.ptr = b.ptr → d = b :=
    fun d hd e => hl.ptr_inj hd (by simp) e
  have hnd := hl.nodup
  rw [List.nodup_append] at hnd
  simp only [List.mem_append, List.mem_cons] at hptr hnd ⊢
  have hbout : b ∉ pre' ∧ b ∉ post' :=
    ⟨fun hb => hnd.2.2 b (.inl hb) b (.inl rfl) rfl,
      fun hb => (List.nodup_cons.mp hnd.2.1).1 (List.mem_append_right _ hb)⟩
  constructor
  · rintro ⟨hc, hca⟩
    have hc' : c ∈ pre' ∨ c ∈ post' := by
      rcases hc with hc | rfl | hc
      · exact .inl hc
      · rw [hmf] at hca; cases hca
      · exact .inr hc
    refine ⟨by tauto, hca, fun e => ?_⟩
    obtain rfl := hptr c (by tauto) e
    tauto
  · rintro ⟨(hc | hc) | rfl | hc | hc, hca, hne⟩
    · exact ⟨.inl hc, hca⟩
    · rw [hfree c (by simp [hc])] at hca; cases hca
    · exact absurd rfl hne
    · rw [hfree c (by simp [hc])] at hca; cases hca
    · exact ⟨.inr (.inr hc), hca⟩

/-- Releasing distinct live pointers one after another succeeds at every step, keeps the break
and leaves a reachable heap whose allocated blocks are the old ones less the released ones.
The induction is on the pointers; each one still to release stays live, since only the
released block leaves the allocated ones. -/
theorem release_each (hr : h.Reachable) {l : List BlockPtr} (hnd : l.Nodup)
    (hlive : ∀ p ∈ l, h.Live p) :
    ∃ h', Heap.run (l.forM Heap.release) h = .ok (.ok (), h') ∧ h'.Reachable ∧
      h'.arena.brk = h.arena.brk ∧
      ∀ c, (c ∈ h'.blocks ∧ c.state = .allocated) ↔
        (c ∈ h.blocks ∧ c.state = .allocated ∧ ⟨c.ptr⟩ ∉ l) := by
  induction l generalizing h with
  | nil => exact ⟨h, Heap.run_pure _ _, hr, rfl, fun c => by simp⟩
  | cons p l ih =>
    obtain ⟨hpl, hnd'⟩ := List.nodup_cons.mp hnd
    obtain ⟨h₁, rr, hr₁, hbrk₁, hall₁⟩ := release_live_step hr (hlive p List.mem_cons_self)
    have hlive₁ : ∀ q ∈ l, h₁.Live q := fun q hq => by
      obtain ⟨c, hc, hca, hcq⟩ := hlive q (List.mem_cons_of_mem _ hq)
      refine ⟨c, ((hall₁ c).mpr ⟨hc, hca, fun e => hpl ?_⟩).1, hca, hcq⟩
      have : q = p := by cases q; cases p; simp_all
      exact this ▸ hq
    obtain ⟨h₂, rr₂, hr₂, hbrk₂, hall₂⟩ := ih hr₁ hnd' hlive₁
    refine ⟨h₂, ?_, hr₂, hbrk₂.trans hbrk₁, fun c => ?_⟩
    · rw [List.forM.eq_2, Heap.run_bind_ok rr, rr₂]
    · rw [hall₂, ← and_assoc, hall₁, List.mem_cons, not_or]
      have hp : (⟨c.ptr⟩ : BlockPtr) = p ↔ c.ptr = p.offset := by
        cases p
        simp
      rw [hp]
      tauto

/-- Releasing a set of live pointers of a reachable heap in any two orders succeeds at every
step either way and ends with the same blocks; the free lists walked from the tail hold the
same blocks, with the same sizes in the same order, so they differ at most in the order of
blocks of one size. When the set holds every live pointer, the arena past the overhead is
left one free block, or no block when there is no room past the overhead. -/
theorem release_order_irrelevant (hr : h.Reachable) {l₁ l₂ : List BlockPtr} (hnd : l₁.Nodup)
    (hperm : l₁.Perm l₂) (hlive : ∀ p ∈ l₁, h.Live p) :
    ∃ h₁ h₂, Heap.run (l₁.forM Heap.release) h = .ok (.ok (), h₁) ∧
      Heap.run (l₂.forM Heap.release) h = .ok (.ok (), h₂) ∧ h₁.blocks = h₂.blocks ∧
      (∃ fl₁ fl₂, h₁.FreeEntries fl₁ ∧ h₂.FreeEntries fl₂ ∧ fl₁.Perm fl₂ ∧
        fl₁.map (·.size) = fl₂.map (·.size)) ∧
      ((∀ p, h.Live p → p ∈ l₁) →
        h₁.blocks = if h₁.stats.arenaBytes = heapOverhead then []
          else [⟨firstBlock, h₁.stats.arenaBytes - heapOverhead, .free⟩]) := by
  obtain ⟨h₁, rr₁, hr₁, hbrk₁, hall₁⟩ := release_each hr hnd hlive
  obtain ⟨h₂, rr₂, hr₂, hbrk₂, hall₂⟩ :=
    release_each hr (hperm.nodup_iff.mp hnd) fun p hp => hlive p (hperm.mem_iff.mpr hp)
  obtain ⟨bs₁, fl₁, hs₁⟩ := hr₁.valid.shape
  obtain ⟨bs₂, fl₂, hs₂⟩ := hr₂.valid.shape
  have hb₁ := hs₁.layout.blocks_eq
  obtain rfl : bs₁ = bs₂ := hs₁.eq_of_allocated hs₂ (hbrk₁.trans hbrk₂.symm) fun c => by
    rw [← hb₁, ← hs₂.layout.blocks_eq, hall₁, hall₂, hperm.mem_iff]
  have hfl : fl₁.Perm fl₂ := hs₁.perm_free.trans hs₂.perm_free.symm
  refine ⟨h₁, h₂, rr₁, rr₂, by rw [hb₁, hs₂.layout.blocks_eq],
    ⟨fl₁, fl₂, hs₁.freeEntries, hs₂.freeEntries, hfl, ?_⟩, fun hall => ?_⟩
  · exact (hfl.map _).eq_of_pairwise (fun _ _ _ _ => Nat.le_antisymm)
      (hs₁.listed.sorted.map _ fun _ _ => id) (hs₂.listed.sorted.map _ fun _ _ => id)
  · have hnone : bs₁.filter (·.state = .allocated) = [] := by
      refine List.filter_eq_nil_iff.mpr fun c hc hca => ?_
      have hc' := (hall₁ c).mp ⟨hb₁ ▸ hc, of_decide_eq_true hca⟩
      exact hc'.2.2 (hall ⟨c.ptr⟩ ⟨c, hc'.1, hc'.2.1, rfl⟩)
    have hbrk := (hs₁.layout.brk_facts).1
    have hfirst : heapOverhead = firstBlock := rfl
    rw [hb₁, hs₁.layout.run.eq_fillGaps hs₁.separated, hnone, Heap.stats_arenaBytes, fillGaps,
      hfirst]
    by_cases hempty : h₁.arena.brk = firstBlock
    · rw [if_pos hempty, if_neg (by omega)]
    · rw [if_neg hempty, if_pos (by omega)]

/-- Two live blocks of a reachable heap released in both orders: both runs are served and
leave the same blocks, and free lists of the same blocks with the same sizes. -/
theorem reachable_release_live_order : ∃ (h : Heap) (p q : BlockPtr), h.Reachable ∧
    [p, q].Nodup ∧ [p, q].Perm [q, p] ∧ (∀ r ∈ [p, q], h.Live r) ∧
      ∃ h₁ h₂, Heap.run ([p, q].forM Heap.release) h = .ok (.ok (), h₁) ∧
        Heap.run ([q, p].forM Heap.release) h = .ok (.ok (), h₂) ∧ h₁.blocks = h₂.blocks ∧
        ∃ fl₁ fl₂, h₁.FreeEntries fl₁ ∧ h₂.FreeEntries fl₂ ∧ fl₁.Perm fl₂ ∧
          fl₁.map (·.size) = fl₂.map (·.size) := by
  obtain ⟨h, p, q, hr, hp, hq, hpq⟩ := exists_reachable_two_live
  have hnd : [p, q].Nodup := by simpa using hpq
  have hlive : ∀ r ∈ [p, q], h.Live r := by
    simp only [List.mem_cons, List.not_mem_nil, or_false]
    rintro r (rfl | rfl)
    exacts [hp, hq]
  obtain ⟨h₁, h₂, r₁, r₂, hb, hfl, -⟩ :=
    release_order_irrelevant hr hnd (List.Perm.swap q p []) hlive
  exact ⟨h, p, q, hr, hnd, List.Perm.swap q p [], hlive, h₁, h₂, r₁, r₂, hb, hfl⟩

end Allocator
