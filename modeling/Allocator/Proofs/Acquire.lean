import Allocator.Proofs.Grow

/-! Acquiring and releasing blocks on a heap of the invariant. Each request is served
without a fault and leaves the invariant; besides, it keeps every allocated block it does
not hand out or take back, payload bytes included (`Heap.Persists`), and it tracks where an
allocated tag can newly be read (`Heap.Marks`).

A refused growth changes nothing but the arena's count of attempts (`Heap.Refused`), so the
invariant and the arena's backing survive it; the refusals themselves are described for
every heap, invariant or not, elsewhere. -/
namespace Allocator

variable {h h' : Heap} {bs fl : List BlockInfo}

namespace Heap

/-- Every allocated block of `xs` is a block of `bs'` in `h'`, and its payload bytes are those
it had in `h`. -/
def Persists (h : Heap) (xs : List BlockInfo) (h' : Heap) (bs' : List BlockInfo) : Prop :=
  ∀ c ∈ xs, c.state = .allocated → c ∈ bs' ∧
    ∀ j, c.ptr ≤ j → j < c.ptr + c.size - 8 → h'.arena.memory[j]? = h.arena.memory[j]?

theorem Persists.trans {h₁ h₂ : Heap} {xs ys zs : List BlockInfo} (p₁ : Persists h xs h₁ ys)
    (p₂ : Persists h₁ ys h₂ zs) : Persists h xs h₂ zs := fun c hc hca => by
  obtain ⟨hc₁, k₁⟩ := p₁ c hc hca
  obtain ⟨hc₂, k₂⟩ := p₂ c hc₁ hca
  exact ⟨hc₂, fun j h1 h2 => (k₂ j h1 h2).trans (k₁ j h1 h2)⟩

theorem Persists.then {h₁ h₂ : Heap} {xs ys zs : List BlockInfo} (p₁ : Persists h xs h₁ ys)
    (p₂ : Persists h₁ xs h₂ zs) : Persists h xs h₂ zs := fun c hc hca => by
  obtain ⟨-, k₁⟩ := p₁ c hc hca
  obtain ⟨hc₂, k₂⟩ := p₂ c hc hca
  exact ⟨hc₂, fun j h1 h2 => (k₂ j h1 h2).trans (k₁ j h1 h2)⟩

theorem Persists.mono {xs xs' bs' : List BlockInfo} (p : Persists h xs h' bs')
    (hx : ∀ c ∈ xs', c.state = .allocated → c ∈ xs) : Persists h xs' h' bs' :=
  fun c hc hca => p c (hx c hc hca) hca

theorem Keeps.persists {S : Set Nat} {xs bs' : List BlockInfo} (hl : Layout h.arena bs)
    (k : Keeps S h h') (hxs : ∀ c ∈ xs, c.state = .allocated → c ∈ bs ∧ c ∈ bs' ∧
      ∀ j, c.ptr ≤ j → j < c.ptr + c.size - 8 → j ∉ S) : Persists h xs h' bs' :=
  fun c hc hca => by
    obtain ⟨hcb, hcb', hS⟩ := hxs c hc hca
    have := (hl.mem hcb).2.1
    exact ⟨hcb', fun j h1 h2 => k j (by omega) (hS j h1 h2)⟩

/-- A position where a mark may be new may as well count as cleared. -/
theorem Marks.clear {W A : Set Nat} {j : Nat} (m : Marks W A h h') (hj : j ∈ A) :
    Marks (W ∪ {j}) A h h' := by
  intro i hi hm
  rcases m i hi hm with ⟨hm₀, hw⟩ | ha
  · by_cases e : i = j
    · exact .inr (e ▸ hj)
    · exact .inl ⟨hm₀, fun hw' => hw'.elim hw e⟩
  · exact .inr ha

theorem Marks.keep_epilogue {x : Nat} (m : Marks ∅ {x} h h') (hbrk : h'.arena.brk = h.arena.brk) :
    Marks {h.arena.brk - 4} {x, h'.arena.brk - 4} h h' := by
  have m' : Marks (∅ ∪ {h.arena.brk - 4}) {x, h'.arena.brk - 4} h h' :=
    (m.mono (Set.empty_subset _) fun j _ hj => by
      rw [Set.mem_singleton_iff.mp hj]; exact Set.mem_insert _ _).clear
      (Set.mem_insert_of_mem _ (by rw [hbrk]; rfl))
  rwa [Set.empty_union] at m'

theorem Edits.marks_within {S : Set Nat} (e : Edits S h h') : Marks ∅ S h h' := by
  intro j _ hm
  by_cases hj : j ∈ S
  · exact .inr hj
  · obtain ⟨x, hx, hodd⟩ := hm
    exact .inl ⟨⟨x, by rw [← e.bytes j hj, hx], hodd⟩, id⟩

theorem Refused.backed (r : h.Refused h') (hb : h.arena.Backed) : h'.arena.Backed := by
  obtain ⟨n, -, rfl⟩ := r
  exact ⟨hb.growable, hb.reserved⟩

end Heap

theorem Shape.refused (hs : Shape h bs fl) (r : h.Refused h') : Shape h' bs fl := by
  obtain ⟨n, -, rfl⟩ := r
  have hl := hs.layout
  exact ⟨⟨hl.inMemory, hl.addressable, hl.prologueHeader, hl.prologueFooter,
      hl.run.congr fun _ _ => ⟨rfl, rfl⟩, hl.epilogue⟩,
    hs.listed.transfer (fun _ _ => ⟨rfl, rfl⟩) rfl fun c hc => (hs.listed.free c hc).1,
    hs.complete, hs.separated⟩

/-- The payload of an allocated block holds no byte of another block and no link word. -/
theorem Shape.payload_apart (hs : Shape h bs fl) {c : BlockInfo} (hc : c ∈ bs)
    (hca : c.state = .allocated) {j : Nat} (h1 : c.ptr ≤ j) (h2 : j < c.ptr + c.size - 8) :
    (∀ d ∈ bs, d ≠ c → j < d.ptr - 4 ∨ d.ptr + d.size - 4 ≤ j) ∧ j ∉ linkWords fl := by
  have hl := hs.layout
  have := (hl.mem hc).2.2.2.1
  have apart : ∀ d ∈ bs, d ≠ c → j < d.ptr - 4 ∨ d.ptr + d.size - 4 ≤ j := fun d hd hne => by
    have := (hl.mem hd).2.2.2.1
    rcases hl.run.disjoint hd hc hne with h | h <;> omega
  refine ⟨apart, ?_⟩
  rintro ⟨d, hd, hj1, hj2⟩
  obtain ⟨hdb, hdf⟩ := hs.listed.free d hd
  have hne : d ≠ c := fun e => by rw [e, hca] at hdf; cases hdf
  have := (hl.mem hdb).2.2.2.1
  rcases apart d hdb hne with h | h <;> omega

/-- Growth parameters under which every growth of the arena makes room for a whole block:
the chunk, a 64-bit size, and the initial extension unless it is zero, are multiples of eight
of at least `minBlock` bytes. -/
structure HeapConfig.BlockGrowth (c : HeapConfig) : Prop where
  chunk : minBlock ≤ c.chunkSize
  chunk_mod : c.chunkSize % 8 = 0
  chunk_lt : c.chunkSize < sizeBound
  initial : c.initialExtend = 0 ∨ minBlock ≤ c.initialExtend
  initial_mod : c.initialExtend % 8 = 0

/-- What a served request leaves behind, from `h` to `h'` whose blocks are `bs'`: the
invariant, the arena's backing and the heap's fixed parts; every allocated block of `keep`
with its payload; and the marks at `W` cleared, new ones only at `A`. -/
structure Heap.Served (h : Heap) (keep : List BlockInfo) (W A : Set Nat) (h' : Heap)
    (bs' : List BlockInfo) : Prop where
  shape : ∃ fl', Shape h' bs' fl'
  backed : h'.arena.Backed
  fixed : Heap.Fixed h h'
  marks : Heap.Marks W A h h'
  persists : Heap.Persists h keep h' bs'

/-- A successful adjustment leaves room for a word below the 64-bit range. -/
theorem adjust_add_le {n a : Nat} (h : adjust n = some a) : a + 8 ≤ sizeBound := by
  have h64 : sizeBound % 8 = 0 := rfl
  have hbig : 24 ≤ sizeBound := by simp [sizeBound]
  unfold adjust at h
  split at h
  · obtain ⟨b, hb, rfl⟩ := Option.map_eq_some_iff.mp h
    unfold align at hb
    split at hb
    · cases hb
      simp only [minBlock, tagOverhead] at *
      omega
    · cases hb
  · cases h

/-- An edit inside the payload of an allocated block keeps the invariant: the payload holds
no tag and no link word. -/
theorem Shape.payload_edit {S : Set Nat} (hs : Shape h bs fl) {c : BlockInfo} (hc : c ∈ bs)
    (hca : c.state = .allocated) (e : Heap.Edits S h h') (ht : h'.tail = h.tail)
    (hS : ∀ j ∈ S, c.ptr ≤ j ∧ j < c.ptr + c.size - 8) : Shape h' bs fl := by
  have hl := hs.layout
  have off : ∀ d ∈ fl, ∀ j ∈ S, j < d.ptr ∨ d.ptr + 8 ≤ j := fun d hd j hj => by
    obtain ⟨h1, h2⟩ := hS j hj
    by_contra hin
    exact (hs.payload_apart hc hca h1 h2).2 ⟨d, hd, by omega, by omega⟩
  refine ⟨hl.of_edits e fun j hj => ⟨c, hc, hS j hj⟩,
    hs.listed.transfer (fun d hd => ⟨e.word?_of_apart fun j hj => ?_,
      e.word?_of_apart fun j hj => ?_⟩) ht fun d hd => (hs.listed.free d hd).1,
    hs.complete, hs.separated⟩
  · have := off d hd j hj; omega
  · have := off d hd j hj; omega

namespace Heap.Served

variable {keep bs' : List BlockInfo} {W A : Set Nat}

theorem count (sv : Heap.Served h keep W A h' bs') (f : Counters → Counters) :
    Heap.Served h keep W A { h' with counters := f h'.counters } bs' :=
  ⟨sv.shape.imp fun _ hs' => hs'.count f, sv.backed,
    ⟨sv.fixed.config, sv.fixed.backing, sv.fixed.maxBytes, sv.fixed.refuseFrom⟩, sv.marks,
    sv.persists⟩

theorem of_refused {h₁ : Heap} (r : h.Refused h₁) (sv : Heap.Served h₁ keep W A h' bs') :
    Heap.Served h keep W A h' bs' := by
  obtain ⟨k, -, rfl⟩ := r
  exact ⟨sv.shape, sv.backed,
    ⟨sv.fixed.config, sv.fixed.backing, sv.fixed.maxBytes, sv.fixed.refuseFrom⟩, sv.marks,
    sv.persists⟩

end Heap.Served

section Acquire

variable {pre post : List BlockInfo} {b : BlockInfo} {adjusted : Nat}

/-- The end of every acquisition: place the request in a listed free block and count it. The
placed block is the one answered, every other allocated block stays with its payload, and
only the new header can be a new mark. -/
private theorem place_count_apply (hs : Shape h (pre ++ b :: post) fl) (hb : b ∈ fl)
    (h16 : minBlock ≤ adjusted) (h8 : adjusted % 8 = 0) (hfit : adjusted ≤ b.size)
    (f : Counters → Counters) :
    ∃ h' a rs, Heap.run (do
        liftM (Heap.place b.ptr adjusted)
        liftM (Heap.count f)
        pure (⟨b.ptr⟩ : BlockPtr)) h = .ok (.ok ⟨a.ptr⟩, h') ∧
      Shape h' (pre ++ a :: (rs ++ post))
        (rs.foldr (List.orderedInsert BlockInfo.SizeLE) (fl.erase b)) ∧
      Carved b.ptr b.size adjusted a rs ∧
      (h.arena.Backed → h'.arena.Backed) ∧ h'.arena.brk = h.arena.brk ∧ Heap.Fixed h h' ∧
      Heap.Marks ∅ {a.ptr - 4} h h' ∧
      Heap.Persists h (pre ++ b :: post) h' (pre ++ a :: (rs ++ post)) := by
  have hbf := (hs.listed.free b hb).2
  obtain ⟨h₁, a, rs, rp, hs₁, hcarve, e₁, m₁⟩ := place_apply hs hb h16 h8 hfit
  refine ⟨{ h₁ with counters := f h₁.counters }, a, rs, ?_, hs₁.count f, hcarve,
    e₁.backed, e₁.brk, ⟨e₁.config, e₁.backing, e₁.maxBytes, e₁.refuseFrom⟩,
    by rw [hcarve.ptr]; exact m₁,
    Heap.Keeps.persists hs.layout e₁.keeps fun c hc hca => ⟨hc, ?_, fun j h1 h2 => ?_⟩⟩
  · rw [Heap.run_lift_bind rp, Heap.run_lift_bind (Heap.count_apply f), hcarve.ptr]
    rfl
  · have hne : c ≠ b := fun e => by rw [e, hbf] at hca; cases hca
    rcases List.mem_append.mp (mem_around_of_ne hc hne) with hc | hc
    · exact List.mem_append_left _ hc
    · simp [hc]
  · obtain ⟨apart, hlink⟩ := hs.payload_apart hc hca h1 h2
    have hne : b ≠ c := fun e => by rw [← e, hbf] at hca; cases hca
    have := apart b (by simp) hne
    simp only [Set.mem_union, Set.mem_Ico, not_or]
    exact ⟨by omega, hlink⟩

/-- A request of no bytes, or of more than a 64-bit size holds, is refused at once, with no
change to the heap. -/
theorem acquire_invalid {n : Nat} (hn : n = 0 ∨ adjust n = none) (h : Heap) :
    Heap.run (Heap.acquire n) h = .ok (.error (.invalidSize n), h) := by
  unfold Heap.acquire
  by_cases h0 : n = 0
  · rw [if_pos h0]
    exact Heap.run_bind_error (Heap.run_throw _ _)
  · rw [if_neg h0]
    simp only [hn.resolve_left h0]
    exact Heap.run_throw _ _

/-- Acquiring when a listed block fits: the first listed block of at least the adjusted
size leaves the list and is carved for the request where it stands, its rest listed in size
order, and the break stays. -/
theorem acquire_fit_apply (hs : Shape h (pre ++ b :: post) fl) {n : Nat} (hn : n ≠ 0)
    (ha : adjust n = some adjusted) (hf : fl.find? (fun c => decide (adjusted ≤ c.size)) = some b) :
    ∃ h' a rs, Heap.run (Heap.acquire n) h = .ok (.ok ⟨b.ptr⟩, h') ∧
      Shape h' (pre ++ a :: (rs ++ post))
        (rs.foldr (List.orderedInsert BlockInfo.SizeLE) (fl.erase b)) ∧
      Carved b.ptr b.size adjusted a rs ∧
      (h.arena.Backed → h'.arena.Backed) ∧ h'.arena.brk = h.arena.brk ∧ Heap.Fixed h h' ∧
      Heap.Marks ∅ {a.ptr - 4} h h' ∧
      Heap.Persists h (pre ++ b :: post) h' (pre ++ a :: (rs ++ post)) := by
  obtain ⟨h8, h16, -⟩ := adjust_eq_some ha
  obtain ⟨hbf, hfit⟩ : b ∈ fl ∧ adjusted ≤ b.size :=
    ⟨List.mem_of_find?_eq_some hf, by simpa using List.find?_some hf⟩
  obtain ⟨h', a, rs, rp, hs', hcarve, rest⟩ := place_count_apply hs hbf h16 h8 hfit
    fun c => { c with acquires := c.acquires + 1 }
  refine ⟨h', a, rs, ?_, hs', hcarve, rest⟩
  unfold Heap.acquire
  simp only [hn, ha, if_false]
  rw [Heap.run_lift_bind (findFit_apply hs.layout hs.listed adjusted), hf]
  dsimp only [Option.map_some]
  rw [Heap.run_bind_ok (Heap.run_pure _ _), rp, hcarve.ptr]

/-- Acquiring when no listed block fits: the arena grows by the adjusted size or a chunk,
whichever is more, and the new space, merged with a free block before it, is carved for the
request. A refused growth is out of memory, with nothing changed but the count of attempts.
The answered block lies past every allocated block. -/
theorem acquire_grow_apply (hs : Shape h bs fl) (hb : h.arena.Backed)
    (hc : h.config.BlockGrowth) {n : Nat} (hn : n ≠ 0) (ha : adjust n = some adjusted)
    (hf : fl.find? (fun c => decide (adjusted ≤ c.size)) = none) :
    (∃ e h', Heap.run (Heap.acquire n) h = .ok (.error e, h') ∧ h.Refused h' ∧
      ∃ k ae, e = .outOfMemory k ae) ∨
    ∃ h' pre' pw a rs, bs = pre' ++ pw ∧ pw.length ≤ 1 ∧ (∀ c ∈ pw, c.state = .free) ∧
      (∀ c ∈ pre'.getLast?, c.state = .allocated) ∧
      Heap.run (Heap.acquire n) h = .ok (.ok ⟨a.ptr⟩, h') ∧
      Carved (h.arena.brk - (pw.map (·.size)).sum)
        ((pw.map (·.size)).sum + max adjusted h.config.chunkSize) adjusted a rs ∧
      h'.arena.brk = h.arena.brk + max adjusted h.config.chunkSize ∧
      Heap.Served h bs {h.arena.brk - 4} {a.ptr - 4, h'.arena.brk - 4} h' (pre' ++ a :: rs) ∧
      ∀ c ∈ bs, c.state = .allocated → c.ptr + c.size ≤ a.ptr := by
  obtain ⟨h8, h16, -⟩ := adjust_eq_some ha
  unfold Heap.acquire
  simp only [hn, ha, if_false]
  rw [Heap.run_lift_bind (findFit_apply hs.layout hs.listed adjusted), hf]
  dsimp only [Option.map_none]
  rw [Heap.run_bind, Heap.run_get]
  dsimp only
  have hsize16 : 16 ≤ max adjusted h.config.chunkSize := by simp only [minBlock] at h16; omega
  have hsize8 : max adjusted h.config.chunkSize % 8 = 0 := by have := hc.chunk_mod; omega
  rcases extend_apply hs hb hsize16 hsize8 with
    ⟨e, h', re⟩ | ⟨h₁, pre', m, fl₁, re, hs₁, hmerge, hb₁, hbrk₁, hfix₁, -, k₁, m₁⟩
  · obtain ⟨hr, hk⟩ := extend_refused re
    refine .inl ⟨e, h', Heap.run_bind_error re, hr, hk.resolve_left fun hal => ?_⟩
    have := hc.chunk_lt
    have := hc.chunk_mod
    have := (align_eq_none_iff _).mp hal.2
    have := adjust_add_le ha
    have : sizeBound % 8 = 0 := rfl
    omega
  refine .inr ?_
  rw [Heap.run_bind_ok re]
  obtain ⟨pw, nw, hbs, hnw, hpw1, -, hpw, hstart, hsize⟩ := hmerge.window
  obtain rfl : nw = [] := by simpa using hnw.symm
  simp only [List.map_append, List.map_cons, List.map_nil, List.sum_append, List.sum_cons,
    List.sum_nil, List.append_nil] at hstart hsize hpw
  have hmf := hmerge.free
  have hm₁ : m ∈ fl₁ := hs₁.complete m (by simp) hmf
  have hmfit : adjusted ≤ m.size := by omega
  obtain ⟨h', a, rs, rp, hs', hcarve, hb', hbrk, hfix, m₂, p₂⟩ :=
    place_count_apply (show Shape h₁ (pre' ++ m :: []) fl₁ by simpa using hs₁) hm₁ h16 h8
      hmfit fun c => { c with acquires := c.acquires + 1 }
  have hl₁ := hs₁.layout
  have before : ∀ c ∈ bs, c.state = .allocated → c ∈ pre' ∧ c.ptr + c.size ≤ m.ptr :=
    fun c hc hca => by
      have hcpre : c ∈ pre' := by
        rw [hbs] at hc
        rcases List.mem_append.mp hc with hc | hc
        · exact hc
        · rw [hpw c hc] at hca; cases hca
      exact ⟨hcpre, (List.pairwise_append.mp hl₁.run.sorted).2.2 c hcpre m (by simp)⟩
  refine ⟨h', pre', pw, a, rs, hbs, hpw1, hpw, hmerge.before, by simpa using rp, ?_,
    by rw [hbrk, hbrk₁], ⟨⟨_, by simpa using hs'⟩, hb' hb₁, hfix₁.trans hfix, ?_, ?_⟩,
    fun c hc hca => hcarve.ptr ▸ (before c hc hca).2⟩
  · have hmptr : m.ptr = h.arena.brk - (pw.map (·.size)).sum := by omega
    rwa [hmptr, hsize] at hcarve
  · rw [hbrk]
    refine (m₁.trans m₂).mono (by simp) fun j _ hj => ?_
    simp only [Set.mem_union, Set.mem_singleton_iff] at hj
    simp only [Set.mem_insert_iff, Set.mem_singleton_iff]
    tauto
  · refine (Heap.Keeps.persists hs.layout k₁ fun c hc hca => ?_).trans (by simpa using p₂)
    obtain ⟨hcpre, hend⟩ := before c hc hca
    refine ⟨hc, by simp [hcpre], fun j h1 h2 => ?_⟩
    have := (hl₁.mem (by simp [hcpre] : c ∈ pre' ++ [m])).2.2.2.1
    simp only [Set.mem_union, Set.mem_Ico, not_or]
    exact ⟨by omega, (hs.payload_apart hc hca h1 h2).2⟩

/-- Acquiring `n` bytes on a heap of the invariant never faults. When it is served, it
answers an allocated block of the invariant's new layout of at least the adjusted size;
the answered block is none of the allocated blocks, each of which stays with its payload; and
where an allocated tag can newly be read is the answered block's header or the epilogue, the
old epilogue's mark being cleared when the arena grew. -/
theorem acquire_apply (hs : Shape h bs fl) (hb : h.arena.Backed) (hc : h.config.BlockGrowth)
    {n : Nat} (hn : n ≠ 0) (ha : adjust n = some adjusted) :
    (∃ e h', Heap.run (Heap.acquire n) h = .ok (.error e, h') ∧ h.Refused h' ∧
      ∃ k ae, e = .outOfMemory k ae) ∨
    ∃ h' bs' a, Heap.run (Heap.acquire n) h = .ok (.ok ⟨a.ptr⟩, h') ∧
      Heap.Served h bs {h.arena.brk - 4} {a.ptr - 4, h'.arena.brk - 4} h' bs' ∧
      a ∈ bs' ∧ a.state = .allocated ∧ adjusted ≤ a.size ∧
      ∀ c ∈ bs, c.state = .allocated → c ≠ a := by
  cases hf : fl.find? (fun c => decide (adjusted ≤ c.size)) with
  | some b =>
    obtain ⟨hbf, hfit⟩ : b ∈ fl ∧ adjusted ≤ b.size :=
      ⟨List.mem_of_find?_eq_some hf, by simpa using List.find?_some hf⟩
    obtain ⟨pre, post, rfl⟩ := List.append_of_mem (hs.listed.free b hbf).1
    obtain ⟨h', a, rs, rp, hs', hcarve, hb', hbrk, hfix, m, p⟩ := acquire_fit_apply hs hn ha hf
    refine .inr ⟨h', _, a, by rw [hcarve.ptr]; exact rp,
      ⟨⟨_, hs'⟩, hb' hb, hfix, m.keep_epilogue hbrk, p⟩, by simp, hcarve.state,
      hcarve.le_size hfit, fun c hc hca e => ?_⟩
    have hcb : c = b :=
      hs.layout.ptr_inj hc (show b ∈ pre ++ b :: post by simp) (by rw [e, hcarve.ptr])
    rw [hcb, (hs.listed.free b hbf).2] at hca
    cases hca
  | none =>
    rcases acquire_grow_apply hs hb hc hn ha hf with hr | ⟨h', pre', pw, a, rs, -, -, -, -, rp,
      hcarve, -, sv, hpast⟩
    · exact .inl hr
    obtain ⟨h8, h16, -⟩ := adjust_eq_some ha
    have hsz := hcarve.le_size (by omega)
    refine .inr ⟨h', _, a, rp, sv, by simp, hcarve.state, hsz, fun c hc hca e => ?_⟩
    have hend := hpast c hc hca
    rw [e] at hend
    simp only [minBlock] at h16
    omega

end Acquire

section Release

variable {pre post : List BlockInfo} {b : BlockInfo}

theorem Heap.run_live {p : BlockPtr} {t : Tag} (ht : h.liveTag p = .ok t) :
    Heap.run (Heap.live p) h = .ok (.ok t, h) := by
  unfold Heap.live
  rw [Heap.run_bind, Heap.run_get]
  simp only [ht]
  rfl

theorem Heap.run_live_error {p : BlockPtr} {e : HeapError} (he : h.liveTag p = .error e) :
    Heap.run (Heap.live p) h = .ok (.error e, h) := by
  unfold Heap.live
  rw [Heap.run_bind, Heap.run_get]
  simp only [he]
  rfl

/-- An allocated block of the layout is live: its pointer passes every check, and its tag is
the one answered. -/
theorem Layout.liveTag_apply (hl : Layout h.arena bs) (hb : b ∈ bs)
    (hba : b.state = .allocated) : h.liveTag ⟨b.ptr⟩ = .ok b.tag := by
  obtain ⟨h1, h2, h3, h4, -, hh, hf⟩ := hl.mem hb
  unfold Heap.liveTag
  dsimp only
  rw [if_neg (by simp only [firstBlock, alignment]; omega), hh]
  dsimp only
  rw [hl.unpack_header hb, BlockInfo.tag_size, if_neg (by simp only [minBlock]; omega), hf]
  simp only [Option.map_some, hl.unpack_header hb, ne_eq, not_true_eq_false, if_false]
  rw [if_neg (by simp [Tag.isFree, hba])]

/-- Freeing an allocated block of a heap of the invariant, as a served request: the block
and its free neighbours become one free block (`Merge`), listed ahead of the blocks of its
size after the listed blocks outside it, every other allocated block stays with its payload,
and the block's mark is cleared with no new one and no change to the break. -/
theorem freeBlock_served (hs : Shape h (pre ++ b :: post) fl) (hba : b.state = .allocated)
    (hb : h.arena.Backed) :
    ∃ h' pre' post' m, Heap.freeBlock b.ptr b.size h = .ok ((), h') ∧
      Heap.Served h (pre ++ post) {b.ptr - 4} ∅ h' (pre' ++ m :: post') ∧
      Merge pre post { b with state := .free } pre' post' m ∧ h'.arena.brk = h.arena.brk ∧
      Shape h' (pre' ++ m :: post') ((fl.filter (· ∈ pre' ++ post')).orderedInsert
        BlockInfo.SizeLE m) := by
  obtain ⟨h', pre', post', m, rf, hs', hmerge, e, mk⟩ := freeBlock_apply hs hba
  have hmf := hmerge.free
  refine ⟨h', pre', post', m, rf, ⟨⟨_, hs'⟩, e.backed hb, e.fixed, mk,
      Heap.Keeps.persists hs.layout e.keeps fun c hc hca => ?_⟩, hmerge, e.brk, hs'⟩
  have hcb : c ∈ pre ++ b :: post := ((List.sublist_cons_self b post).append_left pre).subset hc
  obtain ⟨pw, nw, hpre, hpost, -, -, hwin, -⟩ := hmerge.window
  have hc' : c ∈ pre' ++ m :: post' := by
    rw [hpre, hpost] at hc
    simp only [List.mem_append, List.mem_cons] at hc ⊢
    rcases hc with (hc | hc) | hc | hc
    · exact .inl hc
    · rw [hwin c (by simp [hc])] at hca; cases hca
    · rw [hwin c (by simp [hc])] at hca; cases hca
    · exact .inr (.inr hc)
  refine ⟨hcb, hc', fun j h1 h2 => ?_⟩
  have hne : m ≠ c := fun e => by rw [← e, hmf] at hca; cases hca
  have := (hs'.payload_apart hc' hca h1 h2).1 m (by simp) hne
  simp only [Set.mem_union, Set.mem_Ico, not_or]
  exact ⟨by omega, (hs.payload_apart hcb hca h1 h2).2⟩

/-- Releasing an allocated block of a heap of the invariant is served without a fault, as
`freeBlock_served` says: the block merges with its free neighbours into a free block `m`,
listed ahead of the blocks of its size after the listed blocks outside it. -/
theorem release_merges (hs : Shape h (pre ++ b :: post) fl) (hba : b.state = .allocated)
    (hb : h.arena.Backed) :
    ∃ h' pre' post' m, Heap.run (Heap.release ⟨b.ptr⟩) h = .ok (.ok (), h') ∧
      Shape h' (pre' ++ m :: post') ((fl.filter (· ∈ pre' ++ post')).orderedInsert
        BlockInfo.SizeLE m) ∧
      Merge pre post { b with state := .free } pre' post' m ∧
      Heap.Served h (pre ++ post) {b.ptr - 4} ∅ h' (pre' ++ m :: post') ∧
      h'.arena.brk = h.arena.brk := by
  obtain ⟨h', pre', post', m, rf, sv, hmerge, hbrk, hs'⟩ := freeBlock_served hs hba hb
  let counted : Counters → Counters := fun c => { c with releases := c.releases + 1 }
  refine ⟨{ h' with counters := counted h'.counters }, pre', post', m, ?_, hs'.count counted,
    hmerge, sv.count counted, hbrk⟩
  unfold Heap.release
  rw [Heap.run_bind_ok (Heap.run_live (hs.layout.liveTag_apply (by simp) hba)),
    BlockInfo.tag_size, Heap.run_lift_bind rf]
  exact Heap.run_lift_ok (Heap.count_apply _)

theorem release_apply (hs : Shape h (pre ++ b :: post) fl) (hba : b.state = .allocated)
    (hb : h.arena.Backed) :
    ∃ h' bs', Heap.run (Heap.release ⟨b.ptr⟩) h = .ok (.ok (), h') ∧
      Heap.Served h (pre ++ post) {b.ptr - 4} ∅ h' bs' ∧ h'.arena.brk = h.arena.brk := by
  obtain ⟨h', pre', post', m, rr, -, -, sv, hbrk⟩ := release_merges hs hba hb
  exact ⟨h', _, rr, sv, hbrk⟩

theorem release_rejected {p : BlockPtr} {e : HeapError} (he : h.liveTag p = .error e) :
    Heap.run (Heap.release p) h = .ok (.error e, h) := by
  unfold Heap.release
  exact Heap.run_bind_error (Heap.run_live_error he)

end Release

end Allocator
