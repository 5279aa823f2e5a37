import Allocator.Proofs.Refusal

/-! Which block an acquisition answers. The free list runs from the tail in ascending size,
each block inserted ahead of the blocks of its size, so the first listed block that fits is
the smallest that fits. When one fits, it is carved for the request where it stands and the
break stays; when none does, the arena grows by the adjusted size or a chunk, whichever is
more, and the new space, merged with a free block just before it, is carved instead. A
carving gives an allocated block of exactly the adjusted size when the rest can hold a block
of its own, and the whole space otherwise, so the usable bytes are at least those asked for
and at most the adjusted size. -/
namespace Allocator

variable {h : Heap} {bs fl : List BlockInfo}

/-- The first listed block that fits is a smallest block that fits, and every block the walk
passes before it is too small. -/
theorem Listed.find?_fit (hL : Listed h bs fl) {adjusted : Nat} {b : BlockInfo}
    (hf : fl.find? (fun c => decide (adjusted ≤ c.size)) = some b) :
    (∃ fl₁ fl₂, fl = fl₁ ++ b :: fl₂ ∧ ∀ c ∈ fl₁, c.size < adjusted) ∧
      ∀ c ∈ fl, adjusted ≤ c.size → b.size ≤ c.size := by
  obtain ⟨hb, fl₁, fl₂, rfl, hpass⟩ := List.find?_eq_some_iff_append.mp hf
  have hsmall : ∀ c ∈ fl₁, c.size < adjusted := fun c hc => by simpa using hpass c hc
  refine ⟨⟨fl₁, fl₂, rfl, hsmall⟩, fun c hc hfit => ?_⟩
  have hsorted := List.pairwise_append.mp hL.sorted
  rcases List.mem_append.mp hc with hc | hc
  · exact absurd hfit (by have := hsmall c hc; omega)
  · rcases List.mem_cons.mp hc with rfl | hc
    · exact le_rfl
    · exact (List.pairwise_cons.mp hsorted.2.1).1 c hc

theorem Layout.usableSize_apply (hl : Layout h.arena bs) {a : BlockInfo} (ha : a ∈ bs)
    (has : a.state = .allocated) : h.usableSize ⟨a.ptr⟩ = .ok (a.size - tagOverhead) := by
  simp [Heap.usableSize, hl.liveTag_apply ha has, BlockInfo.tag_size]

/-- A block carved for `adjust n` bytes in a heap's layout is live with at least `n` usable
bytes and at most the adjusted size. -/
theorem Layout.usableSize_carved (hl : Layout h.arena bs) {a : BlockInfo} (ha : a ∈ bs)
    {lo size n adjusted : Nat} {rs : List BlockInfo} (hc : Carved lo size adjusted a rs)
    (hadj : adjust n = some adjusted) (hfit : adjusted ≤ size) :
    h.usableSize ⟨a.ptr⟩ = .ok (a.size - tagOverhead) ∧ n ≤ a.size - tagOverhead ∧
      a.size - tagOverhead ≤ adjusted := by
  obtain ⟨h8, -, hn⟩ := adjust_eq_some hadj
  have hsize := hc.le_size hfit
  have hlt := hc.size_lt
  have ha8 := (hl.mem ha).2.2.2.2.1
  refine ⟨hl.usableSize_apply ha hc.state, by simp only [tagOverhead] at hn ⊢; omega, ?_⟩
  simp only [tagOverhead, minBlock] at hlt ⊢
  omega

/-- Acquisition is best fit. On every reachable heap, a request of `n` bytes whose adjusted
size is `adjusted`: when some free block fits, answers the first block that fits on the walk
from the tail, a smallest one, carved where it stands with the break unchanged; when none
fits, grows the arena by the adjusted size or a chunk, whichever is more, and answers the
new space merged with the free block before it, if any, carved, or is refused for want of
memory with nothing changed but the count of attempts. Every answer is aligned to eight
bytes, with at least `n` and at most `adjusted` usable bytes. -/
theorem acquire_takes_best_fit (hr : h.Reachable) {n adjusted : Nat} (hn : n ≠ 0)
    (ha : adjust n = some adjusted) :
    ∃ bs fl, Shape h bs fl ∧ h.blocks = bs ∧
      ((∃ c ∈ bs, c.state = .free ∧ adjusted ≤ c.size) →
        ∃ b, fl.find? (fun c => decide (adjusted ≤ c.size)) = some b ∧
          (∃ fl₁ fl₂, fl = fl₁ ++ b :: fl₂ ∧ ∀ c ∈ fl₁, c.size < adjusted) ∧
          (∀ c ∈ fl, adjusted ≤ c.size → b.size ≤ c.size) ∧
          ∃ pre post h' a rs, bs = pre ++ b :: post ∧
            Heap.run (Heap.acquire n) h = .ok (.ok ⟨b.ptr⟩, h') ∧
            h'.arena.brk = h.arena.brk ∧ Carved b.ptr b.size adjusted a rs ∧
            h'.blocks = pre ++ a :: (rs ++ post)) ∧
      ((∀ c ∈ bs, c.state = .free → c.size < adjusted) →
        (∃ e h', Heap.run (Heap.acquire n) h = .ok (.error e, h') ∧ h.Refused h' ∧
          ∃ k ae, e = .outOfMemory k ae) ∨
        ∃ pre' pw h' a rs, bs = pre' ++ pw ∧ pw.length ≤ 1 ∧ (∀ c ∈ pw, c.state = .free) ∧
          (∀ c ∈ pre'.getLast?, c.state = .allocated) ∧
          Heap.run (Heap.acquire n) h =
            .ok (.ok ⟨h.arena.brk - (pw.map (·.size)).sum⟩, h') ∧
          h'.arena.brk = h.arena.brk + max adjusted h.config.chunkSize ∧
          Carved (h.arena.brk - (pw.map (·.size)).sum)
            ((pw.map (·.size)).sum + max adjusted h.config.chunkSize) adjusted a rs ∧
          h'.blocks = pre' ++ a :: rs) ∧
      ∀ p h', Heap.run (Heap.acquire n) h = .ok (.ok p, h') →
        p.offset % 8 = 0 ∧ ∃ u, h'.usableSize p = .ok u ∧ n ≤ u ∧ u ≤ adjusted := by
  obtain ⟨⟨bs, fl, hs⟩, hb, -, hc⟩ := hr.valid
  have hl := hs.layout
  have fit : ∀ b, fl.find? (fun c => decide (adjusted ≤ c.size)) = some b →
      ∃ pre post h' a rs fl', bs = pre ++ b :: post ∧
        Heap.run (Heap.acquire n) h = .ok (.ok ⟨b.ptr⟩, h') ∧
        h'.arena.brk = h.arena.brk ∧ Carved b.ptr b.size adjusted a rs ∧
        Shape h' (pre ++ a :: (rs ++ post)) fl' ∧ adjusted ≤ b.size := fun b hf => by
    obtain ⟨hbf, hfit⟩ : b ∈ fl ∧ adjusted ≤ b.size :=
      ⟨List.mem_of_find?_eq_some hf, by simpa using List.find?_some hf⟩
    obtain ⟨pre, post, rfl⟩ := List.append_of_mem (hs.listed.free b hbf).1
    obtain ⟨h', a, rs, rp, hs', hcarve, -, hbrk, -⟩ := acquire_fit_apply hs hn ha hf
    exact ⟨pre, post, h', a, rs, _, rfl, rp, hbrk, hcarve, hs', hfit⟩
  have grow := fun hf => acquire_grow_apply hs hb hc hn ha hf
  refine ⟨bs, fl, hs, hl.blocks_eq, fun ⟨c, hc, hcf, hcfit⟩ => ?_, fun hnone => ?_,
    fun p h' hrun => ?_⟩
  · obtain ⟨b, hf⟩ : ∃ b, fl.find? (fun c => decide (adjusted ≤ c.size)) = some b :=
      Option.ne_none_iff_exists'.mp fun hf =>
        absurd hcfit (by simpa using List.find?_eq_none.mp hf c (hs.complete c hc hcf))
    obtain ⟨pre, post, h', a, rs, fl', hbs, rp, hbrk, hcarve, hs', -⟩ := fit b hf
    exact ⟨b, hf, (hs.listed.find?_fit hf).1, (hs.listed.find?_fit hf).2, pre, post, h', a, rs,
      hbs, rp, hbrk, hcarve, hs'.layout.blocks_eq⟩
  · have hf : fl.find? (fun c => decide (adjusted ≤ c.size)) = none :=
      List.find?_eq_none.mpr fun c hc => by
        have := hnone c (hs.listed.free c hc).1 (hs.listed.free c hc).2
        simp only [decide_eq_true_eq]
        omega
    rcases grow hf with hrefused | ⟨h', pre', pw, a, rs, hbs, hpw1, hpw, hlast, rp, hcarve, hbrk,
      sv, -⟩
    · exact .inl hrefused
    obtain ⟨fl', hs'⟩ := sv.shape
    exact .inr ⟨pre', pw, h', a, rs, hbs, hpw1, hpw, hlast, by rw [rp, hcarve.ptr], hbrk,
      hcarve, hs'.layout.blocks_eq⟩
  · obtain ⟨bs', fl', a, lo, size, rs, hs', ham, hcarve, hfit, rfl⟩ : ∃ bs' fl' a lo size rs,
        Shape h' bs' fl' ∧ a ∈ bs' ∧ Carved lo size adjusted a rs ∧ adjusted ≤ size ∧
        p = ⟨a.ptr⟩ := by
      cases hf : fl.find? (fun c => decide (adjusted ≤ c.size)) with
      | some b =>
        obtain ⟨pre, post, h'', a, rs, fl', -, rp, -, hcarve, hs', hfit⟩ := fit b hf
        obtain ⟨rfl, rfl⟩ : p = ⟨b.ptr⟩ ∧ h' = h'' := by simpa using hrun.symm.trans rp
        exact ⟨_, fl', a, _, _, rs, hs', by simp, hcarve, hfit, by rw [hcarve.ptr]⟩
      | none =>
        rcases grow hf with ⟨e, h'', rp, -⟩ | ⟨h'', pre', pw, a, rs, -, -, -, -, rp, hcarve, -,
          sv, -⟩
        · cases hrun.symm.trans rp
        obtain ⟨rfl, rfl⟩ : p = ⟨a.ptr⟩ ∧ h' = h'' := by simpa using hrun.symm.trans rp
        obtain ⟨fl', hs'⟩ := sv.shape
        obtain ⟨h8, h16, -⟩ := adjust_eq_some ha
        exact ⟨_, fl', a, _, _, rs, hs', by simp, hcarve, by omega, rfl⟩
    obtain ⟨hu, hn', hu'⟩ := hs'.layout.usableSize_carved ham hcarve ha hfit
    exact ⟨(hs'.layout.mem ham).2.2.1, _, hu, hn', hu'⟩

theorem reachable_acquire_eight_fits : ∃ h : Heap, h.Reachable ∧ adjust 8 = some 16 ∧
    ∀ p h', Heap.run (Heap.acquire 8) h = .ok (.ok p, h') →
      p.offset % 8 = 0 ∧ ∃ u, h'.usableSize p = .ok u ∧ 8 ≤ u ∧ u ≤ 16 := by
  obtain ⟨h, hr⟩ := exists_reachable
  have hadj : adjust 8 = some 16 := by decide
  obtain ⟨-, -, -, -, -, -, hanswer⟩ := acquire_takes_best_fit hr (by decide) hadj
  exact ⟨h, hr, hadj, hanswer⟩

end Allocator
