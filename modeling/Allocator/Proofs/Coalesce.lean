import Allocator.Proofs.FreeChain

/-! The representation invariant of a heap and how a free block rejoins it. `Shape h bs fl`
says that the arena is laid out as the blocks `bs`, that the free list is `fl` and holds
every free block, and that no two free blocks are neighbours. A block just marked free
breaks the last two rules until it is merged with its free neighbours and listed: that
state is `Pending`, and `coalesce` takes it back to `Shape`.

Merging is a retiling of a window of free blocks into one free block (`settle_apply`), after
the window's listed blocks are taken out of the list. Writing one tag over a window of
unlisted blocks keeps both the layout and the free list (`Layout.setTag_window`), and so does
any edit confined to such a window (`Listed.retile`). -/
namespace Allocator

namespace BlockInfo

/-- Two neighbouring blocks are not both free. -/
def Separated (b c : BlockInfo) : Prop := b.state = .allocated ∨ c.state = .allocated

end BlockInfo

/-- The representation invariant of a heap whose arena is laid out as the blocks `bs` and
whose free list is `fl`: the free list holds every free block, and no two free blocks are
neighbours. -/
structure Shape (h : Heap) (bs fl : List BlockInfo) : Prop where
  layout : Layout h.arena bs
  listed : Listed h bs fl
  complete : ∀ b ∈ bs, b.state = .free → b ∈ fl
  separated : bs.IsChain BlockInfo.Separated

/-- The invariant around a block `b` just marked free, before it is merged with its free
neighbours: the layout `pre ++ b :: post`, every free block but `b` listed, and no two free
neighbours on either side of `b`. -/
structure Pending (h : Heap) (pre post : List BlockInfo) (b : BlockInfo) (fl : List BlockInfo) :
    Prop where
  layout : Layout h.arena (pre ++ b :: post)
  listed : Listed h (pre ++ b :: post) fl
  free : b.state = .free
  unlisted : b ∉ fl
  complete : ∀ c ∈ pre ++ post, c.state = .free → c ∈ fl
  before : pre.IsChain BlockInfo.Separated
  after : post.IsChain BlockInfo.Separated

namespace Layout

variable {a : Arena} {bs : List BlockInfo}

theorem nodup (hl : Layout a bs) : bs.Nodup :=
  List.Pairwise.imp_of_mem (fun hb _ hbc e => by
    subst e
    have := (hl.mem hb).2.2.2.1
    omega) hl.run.sorted

end Layout

variable {h : Heap}

theorem Layout.tagAt_apply {bs : List BlockInfo} (hl : Layout h.arena bs) {c : BlockInfo}
    (hc : c ∈ bs) : Heap.tagAt c.ptr h = .ok (c.tag, h) := by
  obtain ⟨h1, -, -, -, -, hh, -⟩ := hl.mem hc
  rw [Heap.tagAt_apply (by omega) hh, hl.unpack_header hc]

theorem Layout.nextBlock_apply {bs : List BlockInfo} (hl : Layout h.arena bs) {c : BlockInfo}
    (hc : c ∈ bs) : Heap.nextBlock c.ptr h = .ok (c.ptr + c.size, h) := by
  rw [Heap.nextBlock, Heap.bind_apply_ok (hl.tagAt_apply hc), Heap.pure_apply, BlockInfo.tag_size]

/-- The header after a block of the layout: the next block's tag, or the epilogue's, which
is not free. -/
theorem Layout.next_tag {pre post : List BlockInfo} {b : BlockInfo}
    (hl : Layout h.arena (pre ++ b :: post)) :
    ∃ t, Heap.tagAt (b.ptr + b.size) h = .ok (t, h) ∧
      ((∃ n rest, post = n :: rest ∧ n.ptr = b.ptr + b.size ∧ n.state = .free ∧ t = n.tag) ∨
        (t.isFree = false ∧ ∀ n ∈ post.head?, n.state = .allocated)) := by
  have := (hl.mem (b := b) (by simp)).1
  rcases hl.next_header rfl with ⟨rfl, -, hw⟩ | ⟨n, rest, rfl, hn, -⟩
  · refine ⟨_, Heap.tagAt_apply (by omega) hw, .inr ⟨?_, by simp⟩⟩
    rw [unpack_pack_of_le (by simp [Tag.allocated]) (by simp [Tag.allocated])]
    rfl
  · rw [← hn, hl.tagAt_apply (by simp)]
    cases hs : n.state with
    | free => exact ⟨_, rfl, .inl ⟨n, rest, rfl, rfl, hs, rfl⟩⟩
    | allocated => exact ⟨_, rfl, .inr ⟨by simp [Tag.isFree, BlockInfo.tag, hs], by simp [hs]⟩⟩

/-- The footer before a block of the layout: the previous block's tag, or the prologue's,
which is not free. -/
theorem Layout.prev_tag {pre post : List BlockInfo} {b : BlockInfo}
    (hl : Layout h.arena (pre ++ b :: post)) :
    ∃ t, Heap.tagBefore b.ptr h = .ok (t, h) ∧
      ((∃ p rest, pre = rest ++ [p] ∧ p.state = .free ∧ t = p.tag ∧
          Heap.prevBlock b.ptr h = .ok (p.ptr, h)) ∨
        (t.isFree = false ∧ ∀ p ∈ pre.getLast?, p.state = .allocated)) := by
  have := (hl.mem (b := b) (by simp)).1
  rcases hl.prev_footer rfl with ⟨rfl, -, hw⟩ | ⟨p, rest, rfl, hp, hw⟩
  · refine ⟨_, Heap.tagBefore_apply (by omega) hw, .inr ⟨?_, by simp⟩⟩
    rw [unpack_pack_of_le (by simp [Tag.allocated])
      (by simp [Tag.allocated, Allocator.addressable, wordBound])]
    rfl
  · have hp' : p ∈ rest ++ [p] ++ b :: post := by simp
    rw [Heap.tagBefore_apply (by omega) hw, hl.unpack_header hp']
    have hprev : Heap.prevBlock b.ptr h = .ok (p.ptr, h) := by
      rw [Heap.prevBlock_apply (by omega) hw (by rw [hl.unpack_header hp']; simp; omega),
        hl.unpack_header hp', BlockInfo.tag_size, show b.ptr - p.size = p.ptr by omega]
    cases hs : p.state with
    | free => exact ⟨_, rfl, .inl ⟨p, rest, rfl, hs, rfl, hprev⟩⟩
    | allocated =>
      exact ⟨_, rfl, .inr ⟨by simp [Tag.isFree, BlockInfo.tag, hs], by simp [hs]⟩⟩

/-- The free list carried over to another heap: the list is a fact about its blocks' link
words and the tail, and its blocks must be blocks of the new layout. -/
theorem Listed.transfer {h' : Heap} {bs bs' fl : List BlockInfo} (hL : Listed h bs fl)
    (hw : ∀ c ∈ fl, h'.arena.word? c.ptr = h.arena.word? c.ptr ∧
      h'.arena.word? (c.ptr + 4) = h.arena.word? (c.ptr + 4))
    (ht : h'.tail = h.tail) (hbs : ∀ c ∈ fl, c ∈ bs') : Listed h' bs' fl where
  chain := hL.chain.congr fun p hp => by
    obtain ⟨c, hc, rfl⟩ := List.mem_map.mp hp
    exact hw c hc
  tail := ht.trans hL.tail
  free c hc := ⟨hbs c hc, (hL.free c hc).2⟩
  nodup := hL.nodup
  sorted := hL.sorted

theorem Run.span {a : Arena} {lo hi : Nat} {win : List BlockInfo} (hr : Run a lo win hi)
    (hne : win ≠ []) : lo + 16 ≤ hi := by
  have := hr.length_le
  have : 1 ≤ win.length := List.length_pos_iff.mpr hne
  simp only [minBlock] at *
  omega

/-- When no block of a window of the layout is listed, the listed blocks lie before or after
the window. -/
theorem Listed.outside {pre win post fl : List BlockInfo} {lo hi brk : Nat}
    (hL : Listed h (pre ++ win ++ post) fl) (hfl : ∀ c ∈ fl, c ∉ win)
    (hpre : Run h.arena firstBlock pre lo) (hpost : Run h.arena hi post brk) :
    ∀ c ∈ fl, c ∈ pre ++ post ∧ (c.ptr + c.size ≤ lo ∨ hi ≤ c.ptr) := by
  intro c hc
  have hc' : c ∈ pre ++ post := by
    have := (hL.free c hc).1
    simp only [List.mem_append] at this ⊢
    have := hfl c hc
    tauto
  refine ⟨hc', ?_⟩
  rcases List.mem_append.mp hc' with hc' | hc'
  · exact .inl (hpre.mem hc').2.1
  · exact .inr (hpost.mem hc').1

/-- Retiling a window of unlisted blocks carries the free list over: the listed blocks lie
before or after the window, so their link words are clear of the words from the window's
first header to its last footer. -/
theorem Listed.retile {h' : Heap} {S : Set Nat} {pre win post fl : List BlockInfo}
    (win' : List BlockInfo) {lo hi : Nat} (hl : Layout h.arena (pre ++ win ++ post))
    (hL : Listed h (pre ++ win ++ post) fl) (hfl : ∀ c ∈ fl, c ∉ win)
    (hpre : Run h.arena firstBlock pre lo) (hwin : Run h.arena lo win hi)
    (he : Heap.Edits S h h') (hS : ∀ j ∈ S, lo - 4 ≤ j ∧ j < hi - 4) (ht : h'.tail = h.tail) :
    Listed h' (pre ++ win' ++ post) fl := by
  obtain ⟨lo', hi', hpre', hwin', hpost⟩ := hl.window rfl
  obtain rfl := hpre.end_eq hpre'
  obtain rfl := hwin.end_eq hwin'
  have hout := hL.outside hfl hpre hpost
  refine hL.transfer (fun c hc => ?_) ht fun c hc => ?_
  · obtain ⟨-, hside⟩ := hout c hc
    have := (hL.ptr_facts hl hc).2.2.1
    exact ⟨he.word?_of_apart fun j hj => by have := hS j hj; omega,
      he.word?_of_apart fun j hj => by have := hS j hj; omega⟩
  · have := (hout c hc).1
    simp only [List.mem_append] at this ⊢
    tauto

/-- Tagging a window of unlisted blocks as one block over the same bytes: the tag write
edits the window's first header and last footer, the layout and the free list hold with the
block in place of the window, and only the header's mark can change, to the block's state. -/
theorem Layout.setTag_window {pre win post fl : List BlockInfo} {lo : Nat} (m : BlockInfo)
    (hl : Layout h.arena (pre ++ win ++ post)) (hL : Listed h (pre ++ win ++ post) fl)
    (hfl : ∀ c ∈ fl, c ∉ win) (hpre : Run h.arena firstBlock pre lo)
    (hwin : Run h.arena lo win (lo + m.size)) (hne : win ≠ []) (hm : m.ptr = lo) :
    ∃ h₁, Heap.setTag lo m.tag h = .ok ((), h₁) ∧ Layout h₁.arena (pre ++ m :: post) ∧
      Listed h₁ (pre ++ m :: post) fl ∧ Heap.Edits (Heap.tagWords lo m.size) h h₁ ∧
      Heap.Marks {lo - 4} {j | j = lo - 4 ∧ m.state = .allocated} h h₁ := by
  obtain ⟨lo', hi', hpre', hwin', hpost⟩ := hl.window rfl
  obtain rfl := hpre.end_eq hpre'
  obtain rfl := hwin.end_eq hwin'
  have hspan := hwin.span hne
  have hlo : 16 ≤ lo := hpre.le.1
  have hlo8 : lo % 8 = 0 := hpre.le.2 rfl
  have h8 := hwin.le.2 hlo8
  have hbrk := hpost.le.1
  have hw := hl.brk_lt
  obtain ⟨h₁, r₁, e₁, t₁, hh, hf⟩ := Heap.setTag_apply (h := h) lo m.tag
    (by simp; omega) (by omega) (by simp; omega) hl.inMemory (by simp; omega)
  have hS : ∀ j ∈ Heap.tagWords lo m.size, lo - 4 ≤ j ∧ j < lo + m.size - 4 := fun j hj => by
    simp only [Heap.tagWords, Set.mem_union, Set.mem_Ico] at hj
    omega
  have hl₁ := hl.retile [m] hpre hwin e₁ hS
    (run_singleton.mpr ⟨hm, by simp only [minBlock]; omega, by omega, hh, hf, rfl⟩)
  have hL₁ := hL.retile [m] hl hfl hpre hwin e₁ hS t₁
  exact ⟨h₁, r₁, by simpa using hl₁, by simpa using hL₁, e₁,
    e₁.marks_of_tag hlo8 (by simp; omega) (by simp; omega) hh⟩

/-- Retiling a window of unlisted blocks as one free block and listing it gives the
invariant, when the blocks on both sides of the window are not free: the window's tags and
the link words of the list are all that change. -/
theorem settle_apply {pre win post fl : List BlockInfo} {lo size : Nat}
    (hl : Layout h.arena (pre ++ win ++ post)) (hpre : Run h.arena firstBlock pre lo)
    (hwin : Run h.arena lo win (lo + size)) (hne : win ≠ [])
    (hL : Listed h (pre ++ win ++ post) fl) (hfl : ∀ c ∈ fl, c ∉ win)
    (hcomplete : ∀ c ∈ pre ++ post, c.state = .free → c ∈ fl)
    (hsp : pre.IsChain BlockInfo.Separated) (hsq : post.IsChain BlockInfo.Separated)
    (hlast : ∀ c ∈ pre.getLast?, c.state = .allocated)
    (hhead : ∀ c ∈ post.head?, c.state = .allocated) :
    ∃ h₁ h₂, Heap.setTag lo (Tag.free size) h = .ok ((), h₁) ∧
      Heap.insert lo size h₁ = .ok ((), h₂) ∧
      Shape h₂ (pre ++ ⟨lo, size, .free⟩ :: post)
        (fl.orderedInsert BlockInfo.SizeLE ⟨lo, size, .free⟩) ∧
      Heap.Edits (Heap.tagWords lo size ∪ linkWords (⟨lo, size, .free⟩ :: fl)) h h₂ ∧
      Heap.Marks ∅ ∅ h h₂ := by
  set m : BlockInfo := ⟨lo, size, .free⟩
  obtain ⟨lo', hi', hpre', hwin', hpost⟩ := hl.window rfl
  obtain rfl := hpre.end_eq hpre'
  obtain rfl := hwin.end_eq hwin'
  have hspan := hwin.span hne
  obtain ⟨h₁, r₁, hl₁, hL₁, e₁, m₁⟩ := hl.setTag_window m hL hfl hpre hwin hne rfl
  have hmnew : m ∉ fl := fun hm' => by
    obtain ⟨-, hside⟩ := hL.outside hfl hpre hpost m hm'
    simp only [m] at hside
    omega
  obtain ⟨h₂, r₂, e₂, hl₂, hL₂, m₂⟩ := insert_apply hl₁ hL₁ (b := m) (by simp) rfl hmnew
  refine ⟨h₁, h₂, r₁, r₂, ⟨hl₂, hL₂, ?_, ?_⟩,
    e₁.trans e₂, (m₁.trans m₂).mono (Set.empty_subset _) fun j _ hj => ?_⟩
  · intro c hc hfree
    rw [List.mem_orderedInsert]
    simp only [List.mem_append, List.mem_cons] at hc
    rcases hc with hc | rfl | hc
    · exact .inr (hcomplete c (List.mem_append_left _ hc) hfree)
    · exact .inl rfl
    · exact .inr (hcomplete c (List.mem_append_right _ hc) hfree)
  · refine List.isChain_append.mpr ⟨hsp, hsq.cons fun y hy => .inr (hhead y hy), ?_⟩
    intro x hx y hy
    exact .inl (hlast x hx)
  · rcases hj with ⟨-, hst⟩ | hj
    · cases hst
    · exact hj

/-- `m` is `b` merged with the free blocks right around it: the layout `pre ++ b :: post`
becomes `pre' ++ m :: post'`, where the free block `m` covers `b` with at most one free block
on each side of it, and the blocks next to `m` are not free. -/
structure Merge (pre post : List BlockInfo) (b : BlockInfo) (pre' post' : List BlockInfo)
    (m : BlockInfo) : Prop where
  free : m.state = .free
  window : ∃ pw nw, pre = pre' ++ pw ∧ post = nw ++ post' ∧ pw.length ≤ 1 ∧ nw.length ≤ 1 ∧
    (∀ c ∈ pw ++ nw, c.state = .free) ∧ m.ptr + (pw.map (·.size)).sum = b.ptr ∧
    m.size = ((pw ++ b :: nw).map (·.size)).sum
  before : ∀ c ∈ pre'.getLast?, c.state = .allocated
  after : ∀ c ∈ post'.head?, c.state = .allocated

variable {pre post fl : List BlockInfo} {b : BlockInfo}

/-- A sublist of a list without repeats is that list filtered by membership in the sublist:
taking entries out of the free list keeps the order of the rest. -/
theorem eq_filter_of_sublist {α : Type} [DecidableEq α] {s l : List α} (hnd : l.Nodup)
    (hs : s.Sublist l) : s = l.filter (· ∈ s) := by
  have hperm : s.Perm (l.filter (· ∈ s)) :=
    (List.perm_ext_iff_of_nodup (hnd.sublist hs) (hnd.sublist List.filter_sublist)).mpr
      fun x => by
        rw [List.mem_filter, decide_eq_true_iff]
        exact ⟨fun hx => ⟨hs.subset hx, hx⟩, And.right⟩
  exact (hnd.perm_iff_eq_of_sublist hs List.filter_sublist).mp hperm

/-- The last step of coalescing, once the free neighbours that merge are out of the list:
the window they form with `b` becomes one free block, listed ahead of the listed blocks of its
size, and the rest of the list keeps its order. -/
private theorem settle_window (hp : Pending h pre post b fl) (pre' pw nw post' : List BlockInfo)
    (hpre : pre = pre' ++ pw) (hpost : post = nw ++ post') (hpw : pw.length ≤ 1)
    (hnw : nw.length ≤ 1) (hfree : ∀ c ∈ pw ++ nw, c.state = .free)
    (hbefore : ∀ c ∈ pre'.getLast?, c.state = .allocated)
    (hafter : ∀ c ∈ post'.head?, c.state = .allocated)
    {hk : Heap} {flk : List BlockInfo} (ek : Heap.Edits (linkWords fl) h hk)
    (mk : Heap.Marks ∅ ∅ h hk)
    (hLk : Listed hk (pre ++ b :: post) flk) (hflk : ∀ c, c ∈ flk ↔ c ∈ fl ∧ c ∉ pw ++ nw)
    (hsub : flk.Sublist fl)
    (start size : Nat) (hstart : ∀ c ∈ (pw ++ b :: nw).head?, c.ptr = start)
    (hsize : size = ((pw ++ b :: nw).map (·.size)).sum) :
    ∃ h₁ h₂, Heap.setTag start (Tag.free size) hk = .ok ((), h₁) ∧
      Heap.insert start size h₁ = .ok ((), h₂) ∧
      Shape h₂ (pre' ++ ⟨start, size, .free⟩ :: post')
        ((fl.filter (· ∈ pre' ++ post')).orderedInsert BlockInfo.SizeLE ⟨start, size, .free⟩) ∧
      Merge pre post b pre' post' ⟨start, size, .free⟩ ∧
      Heap.Edits (Set.Ico (start - 4) (start + size - 4) ∪ linkWords fl) h h₂ ∧
      Heap.Marks ∅ ∅ h h₂ := by
  have hl := hp.layout
  have hS := hp.listed.linkWords_payload hl
  have hlk := hl.of_edits ek hS
  have hbs : pre ++ b :: post = pre' ++ (pw ++ b :: nw) ++ post' := by simp [hpre, hpost]
  obtain ⟨lo, hi, hrp, hrw, -⟩ := hl.window hbs
  have hlo : lo = start := by
    have := hrw.head_ptr
    cases pw with
    | nil => exact ((this b rfl).symm.trans (hstart b rfl))
    | cons p pw => exact ((this p rfl).symm.trans (hstart p rfl))
  have hhi : hi = start + size := by rw [hrw.end_eq_sum, hlo, hsize]
  subst hlo hhi
  have tags : ∀ c ∈ pre ++ b :: post, _ := fun c hc => hl.tags_of_edits ek hS hc
  have hrp' := hrp.congr fun c hc => tags c (by rw [hbs]; simp [hc])
  have hrw' := hrw.congr fun c hc => tags c (by
    rw [hbs]; simp only [List.mem_append, List.mem_cons] at hc ⊢; tauto)
  have hnd := hl.nodup
  rw [hbs, List.nodup_append, List.nodup_append] at hnd
  obtain ⟨⟨-, -, hdis1⟩, -, hdis2⟩ := hnd
  have hout : ∀ c ∈ pre' ++ post', c ∉ pw ++ nw := by
    intro c hc hw
    have hw' : c ∈ pw ++ b :: nw := by
      simp only [List.mem_append, List.mem_cons] at hw ⊢
      tauto
    rcases List.mem_append.mp hc with hc | hc
    · exact hdis1 c hc c hw' rfl
    · exact hdis2 c (List.mem_append_right _ hw') c hc rfl
  obtain ⟨h₁, h₂, r₁, r₂, hshape, e, mh⟩ := settle_apply (hbs ▸ hlk) hrp' hrw' (by simp)
    (hbs ▸ hLk)
    (fun c hc hcw => by
      obtain ⟨hcf, hcn⟩ := (hflk c).mp hc
      simp only [List.mem_append, List.mem_cons] at hcw hcn
      rcases hcw with hcw | rfl | hcw
      · exact hcn (.inl hcw)
      · exact hp.unlisted hcf
      · exact hcn (.inr hcw))
    (fun c hc hcf => by
      refine (hflk c).mpr ⟨hp.complete c ?_ hcf, hout c hc⟩
      rw [hpre, hpost]
      simp only [List.mem_append] at hc ⊢
      tauto)
    (hpre ▸ hp.before).left_of_append (hpost ▸ hp.after).right_of_append hbefore hafter
  have hpwb : lo + (pw.map (·.size)).sum = b.ptr := by
    obtain ⟨mid, hrpw, hrb⟩ := run_append.mp hrw
    rw [← hrpw.end_eq_sum]
    exact (run_cons.mp hrb).1.symm
  have hkeep : flk = fl.filter (· ∈ pre' ++ post') := by
    rw [eq_filter_of_sublist hp.listed.nodup hsub]
    refine List.filter_congr fun c hc => ?_
    have hcb : c ∈ pre' ++ (pw ++ b :: nw) ++ post' := hbs ▸ (hp.listed.free c hc).1
    have hne : c ≠ b := fun e => hp.unlisted (e ▸ hc)
    simp only [decide_eq_decide, hflk c]
    constructor
    · rintro ⟨-, hw⟩
      simp only [List.mem_append, List.mem_cons] at hcb hw ⊢
      tauto
    · exact fun hin => ⟨hc, hout c hin⟩
  rw [hkeep] at hshape
  refine ⟨h₁, h₂, r₁, r₂, hshape, ⟨rfl, ⟨pw, nw, hpre, hpost, hpw, hnw, hfree, hpwb, hsize⟩,
    hbefore, hafter⟩, (ek.trans e).mono ?_, by simpa using mk.trans mh⟩
  have hspan := hrw.span (by simp)
  rintro j (hj | hj | ⟨c, hc, hj1, hj2⟩)
  · exact .inr hj
  · left
    simp only [Heap.tagWords, Set.mem_union, Set.mem_Ico] at hj ⊢
    omega
  · rcases List.mem_cons.mp hc with rfl | hc
    · left
      simp only [Set.mem_Ico] at hj1 hj2 ⊢
      omega
    · exact .inr ⟨c, ((hflk c).mp hc).1, hj1, hj2⟩

theorem Pending.before_free {pre' : List BlockInfo} {p : BlockInfo}
    (hp : Pending h (pre' ++ [p]) post b fl) (hpf : p.state = .free) :
    ∀ c ∈ pre'.getLast?, c.state = .allocated := fun c hc =>
  ((List.isChain_append.mp hp.before).2.2 c hc p rfl).resolve_right (by simp [hpf])

theorem Pending.after_free {n : BlockInfo} {rest : List BlockInfo}
    (hp : Pending h pre (n :: rest) b fl) (hnf : n.state = .free) :
    ∀ c ∈ rest.head?, c.state = .allocated := fun c hc =>
  (hp.after.rel_head? hc).resolve_left (by simp [hnf])

/-- Coalescing a block just marked free merges it with its free neighbours and lists the
merged block, which is the answer: the invariant holds again, the free list keeps its blocks
outside the merged one in their order and takes the merged block ahead of those of its size,
and only the merged block's bytes and link words of listed blocks change. -/
theorem coalesce_apply (hp : Pending h pre post b fl) :
    ∃ h' pre' post' m, Heap.coalesce b.ptr h = .ok (m.ptr, h') ∧
      Shape h' (pre' ++ m :: post') ((fl.filter (· ∈ pre' ++ post')).orderedInsert
        BlockInfo.SizeLE m) ∧ Merge pre post b pre' post' m ∧
      Heap.Edits (Set.Ico (m.ptr - 4) (m.ptr + m.size - 4) ∪ linkWords fl) h h' ∧
      Heap.Marks ∅ ∅ h h' := by
  have hl := hp.layout
  have hL := hp.listed
  have hnd := hL.nodup
  have rb := hl.tagAt_apply (c := b) (by simp)
  have rnext := hl.nextBlock_apply (c := b) (by simp)
  obtain ⟨nt, rnt, hnt⟩ := hl.next_tag
  rcases hnt with ⟨n, rest, rfl, hnp, hnf, rfl⟩ | ⟨hnf, hna⟩
  · have hn : n ∈ fl := hp.complete n (by simp) hnf
    obtain ⟨h₁, r₁, e₁, hL₁, m₁⟩ := remove_apply hl hL hn
    rw [hnp] at r₁
    have hl₁ := hl.of_edits e₁ fun j hj =>
      hL.linkWords_payload hl j (linkWords_mono (fun _ => List.mem_of_mem_erase) hj)
    obtain ⟨pt, rpt, hpt⟩ := hl₁.prev_tag
    rcases hpt with ⟨p, pre', rfl, hpf, rfl, rprev⟩ | ⟨hpf, hpa⟩
    · have hpn : p ≠ n := fun e => by
        have := hl.nodup
        rw [e] at this
        simp [List.nodup_append] at this
      have hp' : p ∈ fl.erase n :=
        (hnd.mem_erase_iff).mpr ⟨hpn, hp.complete p (by simp) hpf⟩
      obtain ⟨h₂, r₂, e₂, hL₂, m₂⟩ := remove_apply hl₁ hL₁ hp'
      obtain ⟨h₃, h₄, r₃, r₄, hs, hm, e, mh⟩ := settle_window hp pre' [p]
        [n] rest rfl rfl (by simp) (by simp) (by simp [hpf, hnf])
        (hp.before_free hpf) (hp.after_free hnf)
        ((e₁.trans e₂).mono (Set.union_subset (linkWords_mono fun _ => List.mem_of_mem_erase)
          (linkWords_mono fun _ hc => List.mem_of_mem_erase (List.mem_of_mem_erase hc))))
        (by simpa using m₁.trans m₂) hL₂
        (fun c => by
          rw [(hnd.erase n).mem_erase_iff, hnd.mem_erase_iff]
          simp only [List.mem_append, List.mem_singleton]
          tauto)
        (List.erase_sublist.trans List.erase_sublist)
        p.ptr (b.tag.size + n.tag.size + p.tag.size) (by simp)
        (by simp; omega)
      refine ⟨h₄, pre', rest, _, ?_, hs, hm, e, mh⟩
      unfold Heap.coalesce
      rw [Heap.bind_apply_ok rb, Heap.bind_apply_ok rnext, Heap.bind_apply_ok rnt,
        if_pos (by simp [Tag.isFree, BlockInfo.tag, hnf]), Heap.bind_apply_ok r₁]
      dsimp only
      rw [Heap.bind_apply_ok rpt, if_pos (by simp [Tag.isFree, BlockInfo.tag, hpf]),
        Heap.bind_apply_ok rprev, Heap.bind_apply_ok r₂, Heap.bind_apply_ok r₃,
        Heap.bind_apply_ok r₄, Heap.pure_apply]
    · obtain ⟨h₃, h₄, r₃, r₄, hs, hm, e, mh⟩ := settle_window hp pre []
        [n] rest (by simp) rfl (by simp) (by simp) (by simp [hnf]) hpa (hp.after_free hnf)
        (e₁.mono (linkWords_mono fun _ => List.mem_of_mem_erase)) m₁ hL₁
        (fun c => by
          rw [hnd.mem_erase_iff]
          simp only [List.nil_append, List.mem_singleton]
          tauto)
        List.erase_sublist b.ptr (b.tag.size + n.tag.size) (by simp) (by simp)
      refine ⟨h₄, pre, rest, _, ?_, hs, hm, e, mh⟩
      unfold Heap.coalesce
      rw [Heap.bind_apply_ok rb, Heap.bind_apply_ok rnext, Heap.bind_apply_ok rnt,
        if_pos (by simp [Tag.isFree, BlockInfo.tag, hnf]), Heap.bind_apply_ok r₁]
      dsimp only
      rw [Heap.bind_apply_ok rpt, if_neg (by simp [hpf]), Heap.bind_apply_ok r₃,
        Heap.bind_apply_ok r₄, Heap.pure_apply]
  · obtain ⟨pt, rpt, hpt⟩ := hl.prev_tag
    rcases hpt with ⟨p, pre', rfl, hpf, rfl, rprev⟩ | ⟨hpf, hpa⟩
    · obtain ⟨h₁, r₁, e₁, hL₁, m₁⟩ := remove_apply hl hL (hp.complete p (by simp) hpf)
      obtain ⟨h₃, h₄, r₃, r₄, hs, hm, e, mh⟩ := settle_window hp pre' [p]
        [] post rfl (by simp) (by simp) (by simp) (by simp [hpf]) (hp.before_free hpf) hna
        (e₁.mono (linkWords_mono fun _ => List.mem_of_mem_erase)) m₁ hL₁
        (fun c => by
          rw [hnd.mem_erase_iff]
          simp only [List.append_nil, List.mem_singleton]
          tauto)
        List.erase_sublist p.ptr (b.tag.size + p.tag.size) (by simp) (by simp; omega)
      refine ⟨h₄, pre', post, _, ?_, hs, hm, e, mh⟩
      unfold Heap.coalesce
      rw [Heap.bind_apply_ok rb, Heap.bind_apply_ok rnext, Heap.bind_apply_ok rnt,
        if_neg (by simp [hnf])]
      dsimp only
      rw [Heap.bind_apply_ok rpt, if_pos (by simp [Tag.isFree, BlockInfo.tag, hpf]),
        Heap.bind_apply_ok rprev, Heap.bind_apply_ok r₁, Heap.bind_apply_ok r₃,
        Heap.bind_apply_ok r₄, Heap.pure_apply]
    · obtain ⟨h₃, h₄, r₃, r₄, hs, hm, e, mh⟩ := settle_window hp pre []
        [] post (by simp) (by simp) (by simp) (by simp) (by simp) hpa hna
        (Heap.Edits.refl _ h) (Heap.Marks.refl _ h) hL (by simp) (List.Sublist.refl fl) b.ptr
        b.tag.size (by simp) (by simp)
      refine ⟨h₄, pre, post, _, ?_, hs, hm, e, mh⟩
      unfold Heap.coalesce
      rw [Heap.bind_apply_ok rb, Heap.bind_apply_ok rnext, Heap.bind_apply_ok rnt,
        if_neg (by simp [hnf])]
      dsimp only
      rw [Heap.bind_apply_ok rpt, if_neg (by simp [hpf]), Heap.bind_apply_ok r₃,
        Heap.bind_apply_ok r₄, Heap.pure_apply]

/-- Freeing an allocated block of the invariant marks it free and coalesces it: the
invariant holds again, the block is merged into a free block `m`, listed ahead of the blocks
of its size after the listed blocks outside it, and only `m`'s bytes and link words of listed
blocks change. -/
theorem freeBlock_apply (hs : Shape h (pre ++ b :: post) fl) (hb : b.state = .allocated) :
    ∃ h' pre' post' m, Heap.freeBlock b.ptr b.size h = .ok ((), h') ∧
      Shape h' (pre' ++ m :: post') ((fl.filter (· ∈ pre' ++ post')).orderedInsert
        BlockInfo.SizeLE m) ∧
      Merge pre post { b with state := .free } pre' post' m ∧
      Heap.Edits (Set.Ico (m.ptr - 4) (m.ptr + m.size - 4) ∪ linkWords fl) h h' ∧
      Heap.Marks {b.ptr - 4} ∅ h h' := by
  have hl := hs.layout
  have hbm : b ∈ pre ++ b :: post := by simp
  have hl' : Layout h.arena (pre ++ [b] ++ post) := by simpa using hl
  obtain ⟨lo, hi, hrp, hrw, -⟩ := hl'.window rfl
  obtain rfl : b.ptr = lo := hrw.head_ptr b rfl
  obtain rfl : hi = b.ptr + b.size := by rw [hrw.end_eq_sum]; simp
  have hfl : ∀ c ∈ fl, c ≠ b := by
    intro c hc e
    have hcf := (hs.listed.free c hc).2
    rw [e, hb] at hcf
    cases hcf
  obtain ⟨h₁, r₁, hl₁, hL₁, e₁, m₁⟩ := hl'.setTag_window { b with state := .free }
    (by simpa using hs.listed) (fun c hc hcb => hfl c hc (List.mem_singleton.mp hcb)) hrp hrw
    (List.cons_ne_nil _ _) rfl
  change Heap.setTag b.ptr (Tag.free b.size) h = _ at r₁
  have hp : Pending h₁ pre post { b with state := .free } fl :=
    { layout := hl₁
      listed := hL₁
      free := rfl
      unlisted := fun hb' => hfl _ hb' (hl.ptr_inj (hs.listed.free _ hb').1 hbm rfl)
      complete := fun c hc hcf => hs.complete c (by
        simp only [List.mem_append, List.mem_cons] at hc ⊢; tauto) hcf
      before := hs.separated.left_of_append
      after := (List.isChain_cons.mp hs.separated.right_of_append).2 }
  obtain ⟨h', pre', post', m, rc, hs', hmg, e, mc⟩ := coalesce_apply hp
  refine ⟨h', pre', post', m, ?_, hs', hmg, (e₁.trans e).mono ?_,
    (m₁.trans mc).mono (by simp) fun j _ hj => ?_⟩
  · unfold Heap.freeBlock
    rw [Heap.bind_apply_ok r₁]
    exact Heap.discard_apply_ok rc
  · obtain ⟨pw, nw, -, -, -, -, -, hstart, hsize⟩ := hmg.window
    simp only [List.map_append, List.map_cons, List.sum_append, List.sum_cons] at hsize hstart
    have := (hl.mem hbm).2.2.2.1
    rintro j (hj | hj)
    · simp only [Heap.tagWords, Set.mem_union, Set.mem_Ico] at hj
      exact .inl (by simp only [Set.mem_Ico]; omega)
    · exact hj
  · rcases hj with ⟨-, hst⟩ | hj
    · cases hst
    · exact hj

end Allocator
