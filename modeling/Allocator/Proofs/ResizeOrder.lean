import Allocator.Proofs.BestFit

/-! The order in which a resize tries its ways. A block large enough already stays as it is;
one that must grow takes in a free successor that makes up the difference; one that ends at
the epilogue, directly or through a free block too small, grows the arena once, by the
shortfall or a chunk, whichever is more; and otherwise, or when that growth is refused, the
block moves (`Heap.Relocates`): acquisition runs with the block still allocated, the payload's
first bytes are copied into the block it answers, and the old block is freed and merged with
its free neighbours (`Heap.Moved`). Every answer has room for the request and never fewer
usable bytes than the block had (`resize_usable`). -/
namespace Allocator

variable {h : Heap} {fl pre post : List BlockInfo} {b : BlockInfo} {adjusted : Nat}

namespace Heap

/-- A resize to `n` bytes moved the allocated block `b` of `h` to the block at `q`, leaving
`h'`, from `h₁`, the heap that the failed growth in place left. -/
structure Moved (h h₁ : Heap) (b : BlockInfo) (n : Nat) (q : BlockPtr) (h' : Heap) : Prop where
  /-- Acquisition for `n` bytes on `h₁`, where `b` is still allocated, answers `q`; from what
  it leaves, `b` is freed and merged with its free neighbours. -/
  acquired : ∃ h₂ pre post pre' post' m, run (acquire n) h₁ = .ok (.ok q, h₂) ∧
    h₂.blocks = pre ++ b :: post ∧ h'.blocks = pre' ++ m :: post' ∧
    Merge pre post { b with state := .free } pre' post' m
  /-- The answered block is another block. -/
  other : q.offset ≠ b.ptr
  /-- It holds `b`'s first `min usable n` payload bytes. -/
  copied : ∀ j < min (b.size - tagOverhead) n,
    h'.arena.memory[q.offset + j]? = h.arena.memory[b.ptr + j]?

/-- A resize to `n` bytes of the allocated block `b` of `h` that moves it, from `h₁`, the heap
the failed growth in place left: it is refused together with acquisition on `h₁`, with nothing
changed but the count of attempts, or it answers the block that acquisition gives. -/
def Relocates (h h₁ : Heap) (b : BlockInfo) (n : Nat) : Prop :=
  (∃ e h', run (acquire n) h₁ = .ok (.error e, h') ∧
    run (resize ⟨b.ptr⟩ n) h = .ok (.error e, h') ∧ h.Refused h') ∨
  ∃ q h', run (resize ⟨b.ptr⟩ n) h = .ok (.ok (some q), h') ∧ h.Moved h₁ b n q h'

end Heap

/-- A block that must grow and could not grow in place relocates. -/
theorem Shape.relocates (hs : Shape h (pre ++ b :: post) fl) (hb : h.arena.Backed)
    (hc : h.config.BlockGrowth) (hba : b.state = .allocated) {n : Nat} (hn : n ≠ 0)
    (ha : adjust n = some adjusted) (hlt : b.size < adjusted) {h₁ : Heap} (hr : h.Refused h₁)
    (hg : Heap.run (Heap.growInPlace b.ptr b.size adjusted) h = .ok (.ok false, h₁) ∨
      ∃ e, Heap.run (Heap.growInPlace b.ptr b.size adjusted) h = .ok (.error e, h₁)) :
    h.Relocates h₁ b n := by
  rcases resize_moves hs hb hc hba hn ha hlt hr hg with ⟨e, h', ra, rr, hr', -⟩ |
    ⟨h₂, h', a, pre₂, post₂, pre', m, post', ra, rr, -, -, -, hne, sv, hcopy, hbl, hmerge⟩
  · exact .inl ⟨e, h', ra, rr, hr'⟩
  · obtain ⟨fl', hs'⟩ := sv.shape
    exact .inr ⟨⟨a.ptr⟩, h', rr,
      ⟨⟨h₂, pre₂, post₂, pre', post', m, ra, hbl, hs'.layout.blocks_eq, hmerge⟩, hne, hcopy⟩⟩

/-- An acquisition answers none of the blocks allocated before it. -/
theorem acquire_answer_fresh {bs : List BlockInfo} (hs : Shape h bs fl) (hb : h.arena.Backed)
    (hc : h.config.BlockGrowth) {n : Nat} (hn : n ≠ 0) (ha : adjust n = some adjusted)
    {p : BlockPtr} {h' : Heap} (hrun : Heap.run (Heap.acquire n) h = .ok (.ok p, h')) :
    ∀ c ∈ bs, c.state = .allocated → c.ptr ≠ p.offset := by
  rcases acquire_apply hs hb hc hn ha with ⟨e, h'', he, -⟩ |
    ⟨h'', bs', a, he, sv, ha', -, -, hfresh⟩
  · rw [hrun] at he
    cases he
  rw [hrun] at he
  obtain ⟨rfl, rfl⟩ : p = ⟨a.ptr⟩ ∧ h' = h'' := by simpa using he
  obtain ⟨fl', hs'⟩ := sv.shape
  intro c hc hca hcp
  exact hfresh c hc hca (hs'.layout.ptr_inj (sv.persists c hc hca).1 ha' hcp)

/-- What a resize of a live block to a nonzero size answers: an allocated block of the new
layout with room for the adjusted size and for the whole old block, which is the block itself
or one that no other block allocated before was. -/
theorem resize_answer (hs : Shape h (pre ++ b :: post) fl) (hb : h.arena.Backed)
    (hc : h.config.BlockGrowth) (hba : b.state = .allocated) {n : Nat} (hn : n ≠ 0)
    (ha : adjust n = some adjusted) {q : BlockPtr} {h' : Heap}
    (hrun : Heap.run (Heap.resize ⟨b.ptr⟩ n) h = .ok (.ok (some q), h')) :
    ∃ bs' fl' a, Shape h' bs' fl' ∧ a ∈ bs' ∧ a.state = .allocated ∧ q = ⟨a.ptr⟩ ∧
      adjusted ≤ a.size ∧ b.size ≤ a.size ∧
      (a.ptr = b.ptr ∨ ∀ c ∈ pre ++ post, c.state = .allocated → c.ptr ≠ a.ptr) := by
  obtain ⟨h8, -, -⟩ := adjust_eq_some ha
  by_cases hge : adjusted ≤ b.size
  · rw [resize_fits hs hba hn ha hge] at hrun
    simp only [Except.ok.injEq, Prod.mk.injEq, Option.some.injEq] at hrun
    obtain ⟨rfl, rfl⟩ := hrun
    exact ⟨_, fl, b, hs.count fun c => { c with resizes := c.resizes + 1 }, by simp, hba, rfl,
      hge, le_rfl, .inl rfl⟩
  rcases growInPlace_apply hs hb hc hba h8 (by omega) with ⟨h₁, hr, hg⟩ |
    ⟨h₁, bs', a, rg, sv, ha', hap, has, hsz, -⟩
  · rcases resize_moves hs hb hc hba hn ha (by omega) hr hg with ⟨e, h₂, -, rr, -⟩ |
      ⟨h₂, h₃, a, -, -, pre', m, post', ra, rr, ha', has, hsz, -, sv, -⟩
    · rw [rr] at hrun
      cases hrun
    rw [rr] at hrun
    simp only [Except.ok.injEq, Prod.mk.injEq, Option.some.injEq] at hrun
    obtain ⟨rfl, rfl⟩ := hrun
    obtain ⟨fl', hs'⟩ := sv.shape
    have hc₁ : h₁.config.BlockGrowth := by obtain ⟨k, -, rfl⟩ := hr; exact hc
    have hfresh := acquire_answer_fresh (hs.refused hr) (hr.backed hb) hc₁ hn ha ra
    refine ⟨_, fl', a, hs', ha', has, rfl, hsz, by omega, .inr fun c hc' hca => ?_⟩
    exact hfresh c (by simp only [List.mem_append, List.mem_cons] at hc' ⊢; tauto) hca
  · rw [resize_of_grown hs hba hn ha (by omega) rg] at hrun
    simp only [Except.ok.injEq, Prod.mk.injEq, Option.some.injEq] at hrun
    obtain ⟨rfl, rfl⟩ := hrun
    obtain ⟨fl', hs'⟩ := sv.shape
    exact ⟨bs', fl', a, hs'.count fun c => { c with resizes := c.resizes + 1 }, ha', has,
      by rw [hap], hsz, by omega, .inl hap⟩

/-- A resize of an allocated block that answers a block is to a nonzero size whose
adjustment succeeds: size zero answers none, and an overflowing size is refused. -/
theorem resize_some_sized (hs : Shape h (pre ++ b :: post) fl) (hb : h.arena.Backed)
    (hba : b.state = .allocated) {n : Nat} {q : BlockPtr} {h' : Heap}
    (hr : Heap.run (Heap.resize ⟨b.ptr⟩ n) h = .ok (.ok (some q), h')) :
    n ≠ 0 ∧ ∃ adjusted, adjust n = some adjusted := by
  have hn : n ≠ 0 := by
    rintro rfl
    obtain ⟨h₀, -, hrel, -⟩ := release_apply hs hba hb
    rw [resize_zero hrel] at hr
    cases hr
  refine ⟨hn, ?_⟩
  cases ha : adjust n with
  | none =>
    rw [resize_invalid hs hba hn ha] at hr
    cases hr
  | some adjusted => exact ⟨adjusted, rfl⟩

/-- Every block a resize of a live block to a nonzero size answers has room for the request
and no fewer usable bytes than the block had: a block never shrinks. -/
theorem resize_usable (hs : Shape h (pre ++ b :: post) fl) (hb : h.arena.Backed)
    (hc : h.config.BlockGrowth) (hba : b.state = .allocated) {n : Nat} (hn : n ≠ 0)
    {q : BlockPtr} {h' : Heap}
    (hrun : Heap.run (Heap.resize ⟨b.ptr⟩ n) h = .ok (.ok (some q), h')) :
    ∃ u, h'.usableSize q = .ok u ∧ n ≤ u ∧ b.size - tagOverhead ≤ u := by
  obtain ⟨-, adjusted, ha⟩ := resize_some_sized hs hb hba hrun
  obtain ⟨-, -, hn8⟩ := adjust_eq_some ha
  obtain ⟨bs', fl', a, hs', ha', has, rfl, hsz, hba', -⟩ := resize_answer hs hb hc hba hn ha hrun
  refine ⟨_, hs'.layout.usableSize_apply ha' has, ?_, by omega⟩
  simp only [tagOverhead] at hn8 ⊢
  omega

/-- A resize tries its ways in order. On a reachable heap, take a live block `b` and a nonzero
size `n`. A size whose adjustment overflows is refused as invalid with no change. Otherwise,
with `adjusted` the adjusted size: a block at least that large answers itself with nothing
changed but the count of resizes; one whose free successor makes up the difference takes it
in, without growing the arena, carved so that a surplus that can hold a block is split off
free; one that ends at the epilogue, directly or through a free block too small, asks the
arena once for the shortfall or a chunk, whichever is more, and, when that is granted, answers
itself with the new space taken in and carved the same way; in every other case, and when that
growth is refused, the block relocates. Every answer has room for `n` bytes and no fewer usable
bytes than the block had. -/
theorem resize_tries_in_order (hr : h.Reachable) {p : BlockPtr} (hp : h.Live p) {n : Nat}
    (hn : n ≠ 0) :
    ∃ pre b post, h.blocks = pre ++ b :: post ∧ p = ⟨b.ptr⟩ ∧ b.state = .allocated ∧
      (adjust n = none → Heap.run (Heap.resize p n) h = .ok (.error (.invalidSize n), h)) ∧
      ∀ adjusted, adjust n = some adjusted →
        (adjusted ≤ b.size → Heap.run (Heap.resize p n) h = .ok (.ok (some p),
          { h with counters := { h.counters with resizes := h.counters.resizes + 1 } })) ∧
        (∀ s rest, post = s :: rest → s.state = .free → b.size < adjusted →
          adjusted ≤ b.size + s.size →
          ∃ h' a rs, Heap.run (Heap.resize p n) h = .ok (.ok (some p), h') ∧
            h'.arena.brk = h.arena.brk ∧ Carved b.ptr (b.size + s.size) adjusted a rs ∧
            h'.blocks = pre ++ a :: (rs ++ rest)) ∧
        ((post = [] ∨ ∃ s, post = [s] ∧ s.state = .free) →
          b.size + (post.map (·.size)).sum < adjusted → ∀ size,
          size = max (adjusted - (b.size + (post.map (·.size)).sum)) h.config.chunkSize →
          (∀ m h₁, Heap.run (Heap.extend size) h = .ok (.ok m, h₁) →
            ∃ h' a rs, Heap.run (Heap.resize p n) h = .ok (.ok (some p), h') ∧
              h'.arena.brk = h.arena.brk + size ∧
              Carved b.ptr (b.size + (post.map (·.size)).sum + size) adjusted a rs ∧
              h'.blocks = pre ++ a :: rs) ∧
          ∀ e h₁, Heap.run (Heap.extend size) h = .ok (.error e, h₁) → h.Relocates h₁ b n) ∧
        (b.size < adjusted → ((∃ s rest, post = s :: rest ∧ s.state = .allocated) ∨
            ∃ s t rest, post = s :: t :: rest ∧ s.state = .free ∧ b.size + s.size < adjusted) →
          h.Relocates h b n) ∧
        ∀ q h', Heap.run (Heap.resize p n) h = .ok (.ok (some q), h') →
          ∃ u, h'.usableSize q = .ok u ∧ n ≤ u ∧ b.size - tagOverhead ≤ u := by
  obtain ⟨⟨bs, fl, hs⟩, hb, -, hc⟩ := hr.valid
  obtain ⟨pre, b, post, rfl, hba, rfl⟩ := hs.live hp
  refine ⟨pre, b, post, hs.layout.blocks_eq, rfl, hba, resize_invalid hs hba hn,
    fun adjusted ha => ⟨resize_fits hs hba hn ha, ?_, ?_, ?_, fun q h' => resize_usable hs hb hc hba hn⟩⟩
  all_goals obtain ⟨h8, -, -⟩ := adjust_eq_some ha
  · rintro s rest rfl hsf hlt hadj
    obtain ⟨h', a, rs, rg, sv, hbrk, hcarve, -⟩ := growInPlace_absorbs hs hb hba hsf h8 hlt hadj
    obtain ⟨fl', hs'⟩ := sv.shape
    exact ⟨_, a, rs, resize_of_grown hs hba hn ha hlt rg, hbrk, hcarve, hs'.layout.blocks_eq⟩
  · intro hpost hshort size hsize
    have hlt : b.size < adjusted := by omega
    have hgrow := growInPlace_extends hs hb hc hba hpost h8 hshort hsize
    refine ⟨fun m h₁ hext => ?_, fun e h₁ hext => ?_⟩
    · rcases hgrow with ⟨e, h₂, re, -, -⟩ | ⟨h', a, rs, -, rg, sv, hbrk, hcarve, -⟩
      · rw [hext] at re
        cases re
      obtain ⟨fl', hs'⟩ := sv.shape
      exact ⟨_, a, rs, resize_of_grown hs hba hn ha hlt rg, hbrk, hcarve, hs'.layout.blocks_eq⟩
    · rcases hgrow with ⟨e', h₂, re, rg, hr'⟩ | ⟨h', a, rs, ⟨m, h₂, re⟩, -⟩
      · rw [hext] at re
        simp only [Except.ok.injEq, Prod.mk.injEq, Except.error.injEq] at re
        obtain ⟨rfl, rfl⟩ := re
        exact hs.relocates hb hc hba hn ha hlt hr' (.inr ⟨e, rg⟩)
      · rw [hext] at re
        cases re
  · intro hlt hblocked
    exact hs.relocates hb hc hba hn ha hlt (.refl h) (.inl (growInPlace_blocked hs hblocked))

theorem live_resize_keeps_room : ∃ (h : Heap) (p : BlockPtr), h.Reachable ∧ h.Live p ∧
    ∃ pre b post, h.blocks = pre ++ b :: post ∧ p = ⟨b.ptr⟩ ∧
      ∀ q h', Heap.run (Heap.resize p 100) h = .ok (.ok (some q), h') →
        ∃ u, h'.usableSize q = .ok u ∧ 100 ≤ u ∧ b.size - tagOverhead ≤ u := by
  obtain ⟨h, p, hr, hp⟩ := exists_reachable_live
  obtain ⟨pre, b, post, hbl, hpb, -, -, hways⟩ := resize_tries_in_order hr hp (n := 100) (by decide)
  exact ⟨h, p, hr, hp, pre, b, post, hbl, hpb, (hways 112 (by decide)).2.2.2.2⟩

end Allocator
