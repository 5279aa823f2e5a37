import Allocator.Proofs.Holding

/-! The payloads of live blocks. On a heap of the invariant the payload of a live block, as
the payload queries report it, lies between the prologue and the epilogue, holds no word of
the heap's bookkeeping (`Heap.Bookkeeping`: headers, footers and free-list links) and lies
apart from the payload of every other live block. A served request keeps the payload of every
live block it is not asked about, its range and its bytes (`Heap.KeepsPayload`). A served
resize answers a block whose payload starts with the old payload's first bytes, as many as
both sizes allow; a block that stays where it stood keeps its whole payload. -/
namespace Allocator

namespace Heap

/-- A word of the heap's own bookkeeping: the header or the footer of a block, or one of the
two free-list links at the start of a free block. -/
def Bookkeeping (h : Heap) (j : Nat) : Prop :=
  ∃ c ∈ h.blocks, j ∈ tagWords c.ptr c.size ∨ (c.state = .free ∧ c.ptr ≤ j ∧ j < c.ptr + 8)

/-- From `h` to `h'` the live block `q` keeps its payload: the payload queries report the same
range in both, and every byte in it is as it was. -/
def KeepsPayload (h h' : Heap) (q : BlockPtr) : Prop :=
  ∃ avail, h.payloadRange q = .ok (q.offset, avail) ∧ h'.payloadRange q = .ok (q.offset, avail) ∧
    ∀ j < avail, h'.arena.memory[q.offset + j]? = h.arena.memory[q.offset + j]?

end Heap

section Payloads

variable {h h' : Heap} {bs fl : List BlockInfo}

theorem Layout.payloadRange_apply (hl : Layout h.arena bs) {a : BlockInfo} (ha : a ∈ bs)
    (has : a.state = .allocated) :
    h.payloadRange ⟨a.ptr⟩ = .ok (a.ptr, a.size - tagOverhead) := by
  simp [Heap.payloadRange, hl.liveTag_apply ha has, BlockInfo.tag_size]

theorem Shape.live_mem (hs : Shape h bs fl) {c : BlockPtr} (hc : h.Live c) :
    ∃ d ∈ bs, d.state = .allocated ∧ c = ⟨d.ptr⟩ := by
  obtain ⟨d, hd, hda, hdc⟩ := hc
  rw [hs.layout.blocks_eq] at hd
  exact ⟨d, hd, hda, by rw [hdc]⟩

/-- No word of the heap's bookkeeping lies in the payload of an allocated block. -/
theorem Shape.payload_clear (hs : Shape h bs fl) {b : BlockInfo} (hb : b ∈ bs)
    (hba : b.state = .allocated) {j : Nat} (h1 : b.ptr ≤ j)
    (h2 : j < b.ptr + (b.size - tagOverhead)) : ¬ h.Bookkeeping j := by
  rintro ⟨c, hc, hw⟩
  rw [hs.layout.blocks_eq] at hc
  have hc16 := (hs.layout.mem hc).2.2.2.1
  simp only [tagOverhead] at h2
  simp only [Heap.tagWords, Set.mem_union, Set.mem_Ico] at hw
  by_cases hcb : c = b
  · subst hcb
    rcases hw with hw | ⟨hfree, -⟩
    · omega
    · rw [hba] at hfree
      cases hfree
  · have := (hs.payload_apart hb hba h1 (by omega)).1 c hc hcb
    omega

/-- The payload of a live block lies between the prologue and the epilogue and holds no word
of the heap's bookkeeping. -/
theorem Shape.live_payload (hs : Shape h bs fl) {p : BlockPtr} (hp : h.Live p) :
    ∃ avail, h.payloadRange p = .ok (p.offset, avail) ∧ h.usableSize p = .ok avail ∧
      16 ≤ p.offset ∧ p.offset + avail + 8 ≤ h.arena.brk ∧
      ∀ j, p.offset ≤ j → j < p.offset + avail → ¬ h.Bookkeeping j := by
  obtain ⟨b, hb, hba, rfl⟩ := hs.live_mem hp
  obtain ⟨h16, hend, -, hb16, -⟩ := hs.layout.mem hb
  refine ⟨b.size - tagOverhead, hs.layout.payloadRange_apply hb hba,
    hs.layout.usableSize_apply hb hba, h16, by simp only [tagOverhead]; omega,
    fun j h1 h2 => hs.payload_clear hb hba h1 h2⟩

/-- The payloads of two live blocks lie apart. -/
theorem Shape.payloads_apart (hs : Shape h bs fl) {p q : BlockPtr} (hp : h.Live p)
    (hq : h.Live q) (hpq : p ≠ q) {ap aq : Nat} (hap : h.usableSize p = .ok ap)
    (haq : h.usableSize q = .ok aq) : p.offset + ap ≤ q.offset ∨ q.offset + aq ≤ p.offset := by
  obtain ⟨b, hb, hba, rfl⟩ := hs.live_mem hp
  obtain ⟨c, hc, hca, rfl⟩ := hs.live_mem hq
  rw [hs.layout.usableSize_apply hb hba] at hap
  rw [hs.layout.usableSize_apply hc hca] at haq
  cases hap
  cases haq
  have hbc : b ≠ c := fun e => hpq (by rw [e])
  dsimp only
  simp only [tagOverhead]
  rcases hs.layout.run.disjoint hb hc hbc with h | h <;> omega

/-- An allocated block that a request keeps keeps its payload. -/
theorem Heap.Persists.keepsPayload (hs : Shape h bs fl) {keep bs' fl' : List BlockInfo}
    (hs' : Shape h' bs' fl') (hp : Heap.Persists h keep h' bs') {c : BlockInfo} (hck : c ∈ keep)
    (hc : c ∈ bs) (hca : c.state = .allocated) : h.KeepsPayload h' ⟨c.ptr⟩ := by
  obtain ⟨hc', hbytes⟩ := hp c hck hca
  refine ⟨c.size - tagOverhead, hs.layout.payloadRange_apply hc hca,
    hs'.layout.payloadRange_apply hc' hca, fun j hj => ?_⟩
  dsimp only at hj ⊢
  simp only [tagOverhead] at hj
  exact hbytes _ (by omega) (by omega)

theorem acquire_keeps_payloads (hv : h.Valid) {n : Nat} {q : BlockPtr}
    (hr : Heap.run (Heap.acquire n) h = .ok (.ok q, h')) {c : BlockPtr} (hc : h.Live c) :
    h.KeepsPayload h' c := by
  obtain ⟨bs, fl, bs', fl', a, hs, hs', hp, -⟩ := acquire_served hv hr
  obtain ⟨d, hd, hda, rfl⟩ := hs.live_mem hc
  exact hp.keepsPayload hs hs' hd hd hda

/-- A served release keeps the payload of every other live block. -/
theorem release_keeps_payloads (hv : h.Valid) {p : BlockPtr} (hp : h.Live p)
    (hr : Heap.run (Heap.release p) h = .ok (.ok (), h')) {c : BlockPtr} (hc : h.Live c)
    (hcp : c ≠ p) : h.KeepsPayload h' c := by
  obtain ⟨bs, fl, hs⟩ := hv.shape
  obtain ⟨pre, b, post, rfl, hba, rfl⟩ := hs.live hp
  obtain ⟨d, hd, hda, rfl⟩ := hs.live_mem hc
  obtain ⟨h'', bs', hr', sv, -⟩ := release_apply hs hba hv.backed
  rw [hr'] at hr
  obtain rfl : h'' = h' := by simpa using hr
  obtain ⟨fl', hs'⟩ := sv.shape
  exact sv.persists.keepsPayload hs hs' (mem_around_of_ne hd fun e => hcp (by rw [e])) hd hda

/-- A served resize keeps the payload of every other live block. -/
theorem resize_keeps_payloads (hv : h.Valid) {p : BlockPtr} (hp : h.Live p) {n : Nat}
    {r : Option BlockPtr} (hr : Heap.run (Heap.resize p n) h = .ok (.ok r, h')) {c : BlockPtr}
    (hc : h.Live c) (hcp : c ≠ p) : h.KeepsPayload h' c := by
  obtain ⟨bs, fl, hs⟩ := hv.shape
  obtain ⟨pre, b, post, rfl, hba, rfl⟩ := hs.live hp
  obtain ⟨d, hd, hda, rfl⟩ := hs.live_mem hc
  have hkeep : d ∈ pre ++ post := mem_around_of_ne hd fun e => hcp (by rw [e])
  obtain ⟨r', h₁, hr', -, hnone, hsome⟩ := resize_apply hs hv.backed hv.growth hba n
  rw [hr'] at hr
  obtain ⟨rfl, hh⟩ : r' = .ok r ∧ h₁ = h' := by simpa using hr
  obtain rfl := hh
  cases r with
  | none =>
    obtain ⟨-, bs', sv, -⟩ := hnone rfl
    obtain ⟨fl', hs'⟩ := sv.shape
    exact sv.persists.keepsPayload hs hs' hkeep hd hda
  | some q =>
    obtain ⟨bs', a, -, -, -, -, sv, -⟩ := hsome q rfl
    obtain ⟨fl', hs'⟩ := sv.shape
    exact sv.persists.keepsPayload hs hs' hkeep hd hda

/-- A resize that answers the block where it stands keeps the block's whole payload: a block
large enough already is left as it is, and a growth in place keeps the payload's bytes. -/
theorem resize_in_place (hs : Shape h (pre ++ b :: post) fl) (hb : h.arena.Backed)
    (hc : h.config.BlockGrowth) (hba : b.state = .allocated) {n : Nat}
    (hr : Heap.run (Heap.resize ⟨b.ptr⟩ n) h = .ok (.ok (some ⟨b.ptr⟩), h')) :
    ∀ j, b.ptr ≤ j → j < b.ptr + b.size - 8 → h'.arena.memory[j]? = h.arena.memory[j]? := by
  obtain ⟨hn, adjusted, ha⟩ := resize_some_sized hs hb hba hr
  obtain ⟨h8, -, -⟩ := adjust_eq_some ha
  by_cases hge : adjusted ≤ b.size
  · rw [resize_fits hs hba hn ha hge] at hr
    obtain rfl : _ = h' := by simpa using hr
    exact fun _ _ _ => rfl
  rcases growInPlace_apply hs hb hc hba h8 (by omega) with ⟨h₁, hr₁, hg⟩ |
    ⟨h₁, bs', a, rg, -, -, -, -, -, hk⟩
  · rcases resize_moves hs hb hc hba hn ha (by omega) hr₁ hg with ⟨e, h₂, -, rr, -⟩ |
      ⟨h₂, h₃, a, -, -, -, -, -, -, rr, -, -, -, hne, -⟩
    · rw [rr] at hr
      cases hr
    · rw [rr] at hr
      obtain ⟨hab, -⟩ : a.ptr = b.ptr ∧ h₃ = h' := by simpa using hr
      exact absurd hab hne
  · rw [resize_of_grown hs hba hn ha (by omega) rg] at hr
    obtain rfl : _ = h' := by simpa using hr
    exact hk

/-- A served resize of a live block answers a block with room for the new size whose payload
starts with the old payload's first bytes, as many as both sizes allow; when it answers the
block itself, the whole old payload is as it was. -/
theorem resize_copies (hv : h.Valid) {p q : BlockPtr} (hp : h.Live p) {n : Nat}
    (hr : Heap.run (Heap.resize p n) h = .ok (.ok (some q), h')) :
    ∃ avail avail', h.usableSize p = .ok avail ∧ h'.usableSize q = .ok avail' ∧ n ≤ avail' ∧
      (∀ j < min avail n, h'.arena.memory[q.offset + j]? = h.arena.memory[p.offset + j]?) ∧
      (q = p → ∀ j < avail, h'.arena.memory[p.offset + j]? = h.arena.memory[p.offset + j]?) := by
  obtain ⟨bs, fl, hs⟩ := hv.shape
  obtain ⟨pre, b, post, rfl, hba, rfl⟩ := hs.live hp
  obtain ⟨r', h₁, hr', -, -, hsome⟩ := resize_apply hs hv.backed hv.growth hba n
  rw [hr'] at hr
  obtain ⟨rfl, hh⟩ : r' = .ok (some q) ∧ h₁ = h' := by simpa using hr
  obtain rfl := hh
  obtain ⟨bs', a, rfl, ha, has, hsz, sv, hcopy⟩ := hsome _ rfl
  obtain ⟨fl', hs'⟩ := sv.shape
  refine ⟨b.size - tagOverhead, a.size - tagOverhead, hs.layout.usableSize_apply (by simp) hba,
    hs'.layout.usableSize_apply ha has, by simp only [tagOverhead] at hsz ⊢; omega, hcopy,
    fun he j hj => ?_⟩
  have hab : a.ptr = b.ptr := by simpa using he
  rw [hab] at hr'
  dsimp only at hj ⊢
  simp only [tagOverhead] at hj
  exact resize_in_place hs hv.backed hv.growth hba hr' _ (by omega) (by omega)

end Payloads

end Allocator
