import Allocator.Proofs.ResizeOrder

/-! What a client keeps in the blocks it holds. A client writes bytes at the start of the
payload of a block it acquired, and expects them back later: a `Holding`. The heap keeps a
holding (`Heap.Holds`) when the block is allocated with room for the bytes and its payload
starts with them. On a reachable heap every request keeps every holding of a block it is not
asked about: an acquisition answers a block no holding names, a release or a resize of another
block leaves its payload as it was, and a refused request changes no byte. A resize of a held
block answers a block that starts with the holding's first bytes, as many as the new size.
Writing at the start of a payload with room for the bytes is a step of a run; it makes a
holding of what it wrote and keeps every holding of another block. -/
namespace Allocator

/-- Bytes a client wrote at the start of a payload: the block's payload offset, how many
bytes, and the byte at each position. -/
structure Holding where
  /-- The payload offset of the block. -/
  ptr : Nat
  /-- The number of bytes written. -/
  len : Nat
  /-- The byte written at each position. -/
  byte : Nat → UInt8

namespace Heap

/-- The block at payload offset `p` is allocated with room for `n` payload bytes. -/
def Room (h : Heap) (p n : Nat) : Prop :=
  ∃ c ∈ h.blocks, c.state = .allocated ∧ c.ptr = p ∧ n + tagOverhead ≤ c.size

/-- The heap keeps a holding: its block has room for its bytes, and its payload starts with
them. -/
def Holds (h : Heap) (x : Holding) : Prop :=
  h.Room x.ptr x.len ∧ ∀ j < x.len, h.arena.memory[x.ptr + j]? = some (x.byte j)

end Heap

theorem ByteArray.eq_of_getElem? {a b : ByteArray} (e : ∀ i : Nat, a[i]? = b[i]?) : a = b :=
  ByteArray.ext (Array.ext_getElem? fun i => by rw [getElem?_data, getElem?_data, e])

section Holds

variable {h h' : Heap} {bs fl : List BlockInfo} {x : Holding} {p n : Nat}

theorem Heap.Room.live (hr : h.Room p n) : h.Live ⟨p⟩ := by
  obtain ⟨c, hc, hca, rfl, -⟩ := hr
  exact ⟨c, hc, hca, rfl⟩

theorem Heap.Room.mono {m : Nat} (hr : h.Room p n) (hm : m ≤ n) : h.Room p m := by
  obtain ⟨c, hc, hca, hcp, hn⟩ := hr
  exact ⟨c, hc, hca, hcp, by omega⟩

/-- A block with room for `n` bytes answers the payload queries with a payload of at least `n`
bytes, which ends eight bytes short of the break. -/
theorem Shape.room_payload (hs : Shape h bs fl) (hr : h.Room p n) :
    ∃ avail, h.payloadRange ⟨p⟩ = .ok (p, avail) ∧ h.usableSize ⟨p⟩ = .ok avail ∧
      n ≤ avail ∧ 16 ≤ p ∧ p + avail + 8 ≤ h.arena.brk := by
  obtain ⟨c, hc, hca, rfl, hn⟩ := hr
  rw [hs.layout.blocks_eq] at hc
  obtain ⟨h16, hend, -, -, -⟩ := hs.layout.mem hc
  have hu := hs.layout.usableSize_apply hc hca
  refine ⟨c.size - tagOverhead, ?_, hu, by omega, h16, by simp only [tagOverhead] at hn ⊢; omega⟩
  simp [Heap.payloadRange, hs.layout.liveTag_apply hc hca, BlockInfo.tag_size]

/-- A holding reads back: its bytes lie below the break. -/
theorem Shape.read_holding (hs : Shape h bs fl) (hx : h.Holds x) :
    ∃ held, h.arena.read x.ptr x.len = .ok held ∧
      ∀ j, held[j]? = if j < x.len then some (x.byte j) else none := by
  obtain ⟨avail, -, -, havail, -, hend⟩ := hs.room_payload hx.1
  have hmem := hs.layout.inMemory
  refine ⟨h.arena.memory.extract x.ptr (x.ptr + x.len), ?_, fun j => ?_⟩
  · simp only [Arena.read, readBytes]
    rw [if_pos ⟨by omega, by omega⟩]
  · rw [getElem?_extract_bytes, Nat.add_sub_cancel_left]
    split
    · exact hx.2 j ‹_›
    · rfl

/-- A holding survives a change that keeps its block allocated with its payload. -/
theorem Heap.Holds.of_persists (hs : Shape h bs fl) (hx : h.Holds x) {keep bs' : List BlockInfo}
    (hp : Heap.Persists h keep h' bs') (hbs : h'.blocks = bs')
    (hkeep : ∀ c ∈ bs, c.ptr = x.ptr → c ∈ keep) : h'.Holds x := by
  obtain ⟨⟨c, hc, hca, hcp, hroom⟩, hbytes⟩ := hx
  rw [hs.layout.blocks_eq] at hc
  obtain ⟨hc', hpay⟩ := hp c (hkeep c hc hcp) hca
  refine ⟨⟨c, hbs ▸ hc', hca, hcp, hroom⟩, fun j hj => ?_⟩
  simp only [tagOverhead] at hroom
  rw [← hcp, hpay (c.ptr + j) (by omega) (by omega), hcp]
  exact hbytes j hj

theorem Heap.Holds.of_refused (hs : Shape h bs fl) (hx : h.Holds x) (r : h.Refused h') :
    h'.Holds x := by
  have hbl : h'.blocks = h.blocks := by
    rw [(hs.refused r).layout.blocks_eq, hs.layout.blocks_eq]
  obtain ⟨k, -, rfl⟩ := r
  obtain ⟨⟨c, hc, hca, hcp, hroom⟩, hbytes⟩ := hx
  exact ⟨⟨c, hbl ▸ hc, hca, hcp, hroom⟩, hbytes⟩

/-- A served acquisition on a valid heap keeps every allocated block with its payload, and
answers an allocated block of the new layout with room for the request, which no block
allocated before was. -/
theorem acquire_served (hv : h.Valid) {q : BlockPtr}
    (hr : Heap.run (Heap.acquire n) h = .ok (.ok q, h')) :
    ∃ bs fl bs' fl' a, Shape h bs fl ∧ Shape h' bs' fl' ∧ Heap.Persists h bs h' bs' ∧
      q = ⟨a.ptr⟩ ∧ a ∈ bs' ∧ a.state = .allocated ∧ n + tagOverhead ≤ a.size ∧
      ∀ c ∈ bs, c.state = .allocated → c.ptr ≠ q.offset := by
  obtain ⟨bs, fl, hs⟩ := hv.shape
  by_cases hn : n = 0 ∨ adjust n = none
  · rw [acquire_invalid hn] at hr
    cases hr
  obtain ⟨hn0, ha⟩ := not_or.mp hn
  obtain ⟨adjusted, ha⟩ := Option.ne_none_iff_exists'.mp ha
  obtain ⟨-, -, hn8⟩ := adjust_eq_some ha
  have hfresh := acquire_answer_fresh hs hv.backed hv.growth hn0 ha hr
  rcases acquire_apply hs hv.backed hv.growth hn0 ha with
    ⟨e, h'', he, -⟩ | ⟨h'', bs', a, he, sv, ha', has, hsz, -⟩
  · rw [he] at hr
    cases hr
  · rw [he] at hr
    obtain ⟨rfl, hh⟩ : ⟨a.ptr⟩ = q ∧ h'' = h' := by simpa using hr
    obtain rfl := hh
    obtain ⟨fl', hs'⟩ := sv.shape
    exact ⟨bs, fl, bs', fl', a, hs, hs', sv.persists, rfl, ha', has, by omega, hfresh⟩

/-- An acquisition keeps every holding, and the block it answers is none that a holding
names. -/
theorem Heap.Holds.acquire (hv : h.Valid) (hx : h.Holds x) {r : Except HeapError BlockPtr}
    (hr : Heap.run (Heap.acquire n) h = .ok (r, h')) :
    h'.Holds x ∧ ∀ q, r = .ok q → q.offset ≠ x.ptr := by
  cases r with
  | error e =>
    obtain ⟨bs, fl, hs⟩ := hv.shape
    exact ⟨hx.of_refused hs ((acquire_settles n).refused hr), nofun⟩
  | ok q =>
    obtain ⟨bs, fl, bs', fl', a, hs, hs', hp, -, -, -, -, hfresh⟩ := acquire_served hv hr
    refine ⟨hx.of_persists hs hp hs'.layout.blocks_eq fun c hc _ => hc, fun q' hq' => ?_⟩
    cases hq'
    obtain ⟨⟨c, hc, hca, hcp, -⟩, -⟩ := hx
    rw [hs.layout.blocks_eq] at hc
    exact fun hq => hfresh c hc hca (hcp.trans hq.symm)

/-- An acquisition on a valid heap answers without a fault, refused only for a size of no
bytes or whose adjustment overflows, or for want of memory. -/
theorem acquire_total (hv : h.Valid) (n : Nat) :
    ∃ r h', Heap.run (Heap.acquire n) h = .ok (r, h') ∧ ∀ e, r = .error e →
      (e = .invalidSize n ∧ (n = 0 ∨ adjust n = none)) ∨ ∃ k ae, e = .outOfMemory k ae := by
  obtain ⟨bs, fl, hs⟩ := hv.shape
  by_cases hn : n = 0 ∨ adjust n = none
  · exact ⟨_, h, acquire_invalid hn h, fun e he => .inl ⟨by cases he; rfl, hn⟩⟩
  obtain ⟨hn0, ha⟩ := not_or.mp hn
  obtain ⟨adjusted, ha⟩ := Option.ne_none_iff_exists'.mp ha
  rcases acquire_apply hs hv.backed hv.growth hn0 ha with
    ⟨e, h', he, -, hk⟩ | ⟨h', bs', a, he, -⟩
  · exact ⟨_, h', he, fun e' he' => .inr (by cases he'; exact hk)⟩
  · exact ⟨_, h', he, fun _ he' => by cases he'⟩

theorem acquire_room (hv : h.Valid) {q : BlockPtr}
    (hr : Heap.run (Heap.acquire n) h = .ok (.ok q, h')) : h'.Room q.offset n := by
  obtain ⟨-, -, bs', fl', a, -, hs', -, rfl, ha, has, hsz, -⟩ := acquire_served hv hr
  exact ⟨a, hs'.layout.blocks_eq ▸ ha, has, rfl, hsz⟩

/-- A served acquisition on a reachable heap reaches a heap on which the answer is live, and
keeps every block live before live and apart from the answer. -/
theorem Heap.Reachable.acquire_live (hr : h.Reachable) {q : BlockPtr}
    (hrun : Heap.run (Heap.acquire n) h = .ok (.ok q, h')) :
    h'.Reachable ∧ h'.Live q ∧ ∀ p, h.Live p → h'.Live p ∧ p ≠ q := by
  obtain ⟨bs, fl, bs', fl', a, hs, hs', hp, rfl, ha, has, -, hfresh⟩ := acquire_served hr.valid hrun
  refine ⟨hr.step (.acquire n hrun), ⟨a, hs'.layout.blocks_eq ▸ ha, has, rfl⟩, ?_⟩
  rintro p ⟨c, hc, hca, hcp⟩
  rw [hs.layout.blocks_eq] at hc
  refine ⟨⟨c, hs'.layout.blocks_eq ▸ (hp c hc hca).1, hca, hcp⟩, ?_⟩
  rintro rfl
  exact hfresh c hc hca hcp

/-- Some reachable heap has two live blocks: two requests of eight bytes on a freshly built
heap are served. -/
theorem exists_reachable_two_live :
    ∃ (h : Heap) (p q : BlockPtr), h.Reachable ∧ h.Live p ∧ h.Live q ∧ p ≠ q := by
  obtain ⟨h, hcr, hok⟩ := Heap.createdWith_eq_true
    (show Heap.createdWith (Arena.growable 64) ⟨16, 16⟩ (fun h =>
      Heap.servedWith (Heap.acquire 8) h fun _ h₁ =>
        Heap.servedWith (Heap.acquire 8) h₁ fun _ _ => true) = true by decide +kernel)
  obtain ⟨p, h₁, hrun₁, hok⟩ := Heap.servedWith_eq_true hok
  obtain ⟨q, h₂, hrun₂, -⟩ := Heap.servedWith_eq_true hok
  have hr : h.Reachable := .create (Arena.growable_backed 64)
    ⟨by decide, by decide, by decide, by decide, by decide⟩ hcr
  obtain ⟨hr₁, hp₁, -⟩ := hr.acquire_live hrun₁
  obtain ⟨hr₂, hq₂, hkeep⟩ := hr₁.acquire_live hrun₂
  obtain ⟨hp₂, hpq⟩ := hkeep p hp₁
  exact ⟨h₂, p, q, hr₂, hp₂, hq₂, hpq⟩

theorem Shape.room_holds (hs : Shape h bs fl) (hr : h.Room p n) :
    h.Holds ⟨p, n, fun j => (h.arena.memory[p + j]?).getD 0⟩ := by
  obtain ⟨avail, -, -, havail, -, hend⟩ := hs.room_payload hr
  have hmem := hs.layout.inMemory
  refine ⟨hr, fun j hj => ?_⟩
  dsimp only at hj ⊢
  rw [getElem?_pos h.arena.memory (p + j) (by omega), Option.getD_some]

theorem release_total (hv : h.Valid) {q : BlockPtr} (hq : h.Live q) :
    ∃ h', Heap.run (Heap.release q) h = .ok (.ok (), h') := by
  obtain ⟨bs, fl, hs⟩ := hv.shape
  obtain ⟨pre, b, post, rfl, hba, rfl⟩ := hs.live hq
  obtain ⟨h', -, hr, -⟩ := release_apply hs hba hv.backed
  exact ⟨h', hr⟩

/-- A resize of a live block on a valid heap answers without a fault: it is refused only for
a size whose adjustment overflows or for want of memory, and it answers none exactly for size
zero. -/
theorem resize_total (hv : h.Valid) {q : BlockPtr} (hq : h.Live q) (n : Nat) :
    ∃ r h', Heap.run (Heap.resize q n) h = .ok (r, h') ∧
      (∀ e, r = .error e → (e = .invalidSize n ∧ adjust n = none) ∨
        ∃ k ae, e = .outOfMemory k ae) ∧ (r = .ok none ↔ n = 0) := by
  obtain ⟨bs, fl, hs⟩ := hv.shape
  obtain ⟨pre, b, post, rfl, hba, rfl⟩ := hs.live hq
  obtain ⟨r, h', hr, herr, hnone, -⟩ := resize_apply hs hv.backed hv.growth hba n
  refine ⟨r, h', hr, fun e he => (herr e he).2, fun h0 => (hnone h0).1, ?_⟩
  rintro rfl
  obtain ⟨h₀, -, hrel, -⟩ := release_apply hs hba hv.backed
  rw [resize_zero hrel] at hr
  exact (Prod.mk.inj (Except.ok.inj hr)).1.symm

/-- A release of another live block keeps a holding. -/
theorem Heap.Holds.release (hv : h.Valid) (hx : h.Holds x) {q : BlockPtr} (hq : h.Live q)
    (hqx : q.offset ≠ x.ptr) {r : Except HeapError Unit}
    (hr : Heap.run (Heap.release q) h = .ok (r, h')) : h'.Holds x := by
  obtain ⟨bs, fl, hs⟩ := hv.shape
  obtain ⟨pre, b, post, rfl, hba, rfl⟩ := hs.live hq
  obtain ⟨h'', bs', hr', sv, -⟩ := release_apply hs hba hv.backed
  rw [hr'] at hr
  obtain ⟨-, rfl⟩ : _ = r ∧ h'' = h' := by simpa using hr
  obtain ⟨fl', hs'⟩ := sv.shape
  exact hx.of_persists hs sv.persists hs'.layout.blocks_eq fun c hc hcp =>
    mem_around_of_ne hc fun e => hqx (by rw [← hcp, e])

/-- A resize of another live block keeps a holding, and the block it answers is not the
holding's. -/
theorem Heap.Holds.resize (hv : h.Valid) (hx : h.Holds x) {q : BlockPtr} (hq : h.Live q)
    (hqx : q.offset ≠ x.ptr) {r : Except HeapError (Option BlockPtr)}
    (hr : Heap.run (Heap.resize q n) h = .ok (r, h')) :
    h'.Holds x ∧ ∀ q', r = .ok (some q') → q'.offset ≠ x.ptr := by
  obtain ⟨bs, fl, hs⟩ := hv.shape
  obtain ⟨pre, b, post, rfl, hba, rfl⟩ := hs.live hq
  have hkeep : ∀ c ∈ pre ++ b :: post, c.ptr = x.ptr → c ∈ pre ++ post := fun c hc hcp =>
    mem_around_of_ne hc fun e => hqx (by rw [← hcp, e])
  obtain ⟨r', h'', hr', herr, hnone, hsome⟩ := resize_apply hs hv.backed hv.growth hba n
  have hrun := hr'
  rw [hr'] at hr
  obtain ⟨rfl, rfl⟩ : r' = r ∧ h'' = h' := by simpa using hr
  rcases r' with e | _ | q'
  · exact ⟨hx.of_refused hs (herr e rfl).1, fun _ h => by cases h⟩
  · obtain ⟨-, bs', sv, -⟩ := hnone rfl
    obtain ⟨fl', hs'⟩ := sv.shape
    exact ⟨hx.of_persists hs sv.persists hs'.layout.blocks_eq hkeep, fun _ h => by cases h⟩
  obtain ⟨bs', a, -, -, -, -, sv, -⟩ := hsome q' rfl
  obtain ⟨fl', hs'⟩ := sv.shape
  refine ⟨hx.of_persists hs sv.persists hs'.layout.blocks_eq hkeep, ?_⟩
  rintro q'' he
  obtain rfl : q' = q'' := by simpa using he
  obtain ⟨hn, adjusted, ha⟩ := resize_some_sized hs hv.backed hba hrun
  obtain ⟨-, -, a, -, -, -, rfl, -, -, hfresh⟩ := resize_answer hs hv.backed hv.growth hba hn ha hrun
  obtain ⟨⟨c, hc, hca, hcp, -⟩, -⟩ := hx
  rw [hs.layout.blocks_eq] at hc
  rcases hfresh with hab | hfresh
  · exact fun e => hqx (by rw [← hab, ← e])
  · exact fun e => hfresh c (hkeep c hc hcp) hca (hcp.trans e.symm)

/-- A resize of a held block answers a block with room for the new size that starts with
the holding's first bytes, as many as the new size. -/
theorem Heap.Holds.resize_self (hv : h.Valid) (hx : h.Holds x) {q : BlockPtr}
    (hr : Heap.run (Heap.resize ⟨x.ptr⟩ n) h = .ok (.ok (some q), h')) :
    h'.Room q.offset n ∧ h'.Holds ⟨q.offset, min x.len n, x.byte⟩ := by
  obtain ⟨bs, fl, hs⟩ := hv.shape
  obtain ⟨⟨c, hc, hca, hcp, hroom⟩, hbytes⟩ := hx
  rw [hs.layout.blocks_eq] at hc
  obtain ⟨pre, post, rfl⟩ := List.append_of_mem hc
  rw [← hcp] at hr
  obtain ⟨r', h₁, hr', -, -, hsome⟩ := resize_apply hs hv.backed hv.growth hca n
  rw [hr'] at hr
  obtain ⟨rfl, hh⟩ : r' = .ok (some q) ∧ h₁ = h' := by simpa using hr
  obtain rfl := hh.symm
  obtain ⟨bs', a, rfl, ha, has, hsz, sv, hcopy⟩ := hsome q rfl
  obtain ⟨fl', hs'⟩ := sv.shape
  have hroom' : h'.Room a.ptr n := ⟨a, hs'.layout.blocks_eq ▸ ha, has, rfl, hsz⟩
  refine ⟨hroom', hroom'.mono (Nat.min_le_right _ _), fun j hj => ?_⟩
  dsimp only at hj ⊢
  simp only [tagOverhead] at hroom
  rw [hcopy j (by simp only [tagOverhead]; omega), hcp]
  exact hbytes j (by omega)

/-- Writing `src` at the start of the payload of a block with room for it is a step of a run;
the block then holds the bytes written, and every holding of another block is kept. -/
theorem Shape.write_holds (hs : Shape h bs fl) {src : ByteArray} (hroom : h.Room p src.size)
    {f : Nat → UInt8} (hsrc : ∀ j < src.size, src[j]? = some (f j)) :
    ∃ h', Heap.modifyArena (·.write p src) h = .ok ((), h') ∧ Heap.Step h h' ∧
      h'.Holds ⟨p, src.size, f⟩ ∧ ∀ y, h.Holds y → y.ptr ≠ p → h'.Holds y := by
  obtain ⟨avail, hpr, -, havail, -, hend⟩ := hs.room_payload hroom
  obtain ⟨c, hc, hca, rfl, hn⟩ := hroom
  have hcb := hc
  rw [hs.layout.blocks_eq] at hcb
  obtain ⟨h', hw, e, ht, hbytes⟩ :=
    Heap.write_apply (show c.ptr + src.size ≤ h.arena.brk by omega) hs.layout.inMemory
  have hs' : Shape h' bs fl := hs.payload_edit hcb hca e ht fun j hj => by
    simp only [Set.mem_Ico, tagOverhead] at hj hn
    omega
  have hbl : h'.blocks = h.blocks := by rw [hs'.layout.blocks_eq, hs.layout.blocks_eq]
  refine ⟨h', hw, .write ⟨c, hc, hca, rfl⟩ hpr (e.mono fun j hj => ?_) ht,
    ⟨⟨c, hbl ▸ hc, hca, rfl, hn⟩, fun j hj => ?_⟩, fun y hy hyp => ?_⟩
  · simp only [Set.mem_Ico] at hj ⊢
    omega
  · dsimp only at hj ⊢
    rw [hbytes (c.ptr + j) (by omega) (by omega), Nat.add_sub_cancel_left]
    exact hsrc j hj
  obtain ⟨⟨d, hd, hda, hdp, hdn⟩, hdbytes⟩ := hy
  have hdb := hd
  rw [hs.layout.blocks_eq] at hdb
  have hne : d ≠ c := fun e => hyp (by rw [← hdp, e])
  refine ⟨⟨d, hbl ▸ hd, hda, hdp, hdn⟩, fun j hj => ?_⟩
  simp only [tagOverhead] at hn hdn
  rw [e.bytes _ fun hin => ?_]
  · exact hdbytes j hj
  simp only [Set.mem_Ico] at hin
  rcases hs.layout.run.disjoint hdb hcb hne with h1 | h1 <;> omega

end Holds

end Allocator
