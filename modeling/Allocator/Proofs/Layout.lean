import Allocator.Proofs.Run
import Allocator.Heap.Walk

/-! The block layout of an arena, stated independently of the walks that read it. `Run a lo
bs hi` says that the blocks `bs` lie back to back from payload offset `lo` to `hi`, each a
multiple of eight and at least `minBlock` bytes, with its tag in both its header and its
footer. `Layout a bs` adds the frame around them: the prologue's two words, the run from the
first block to the break, and the epilogue header in the last word before the break.

A layout is a fact about the tag words alone, so it survives every edit that keeps those
words (`Layout.of_edits`), and an edit confined to a window of consecutive blocks that
leaves a new run over the same bytes gives the layout with the window replaced
(`Layout.retile`): merging, splitting and retagging blocks are all instances. -/
namespace Allocator

namespace BlockInfo

/-- The tag a block's header and footer hold. -/
def tag (b : BlockInfo) : Tag := ⟨b.size, b.state⟩

@[simp] theorem tag_size (b : BlockInfo) : b.tag.size = b.size := rfl

@[simp] theorem tag_state (b : BlockInfo) : b.tag.state = b.state := rfl

end BlockInfo

/-- Blocks `bs` lie back to back from payload offset `lo` to payload offset `hi`: each starts
where the one before ends, is a multiple of eight and at least `minBlock` bytes, and holds
its tag in its header (the word before its payload) and in its footer (its last word). -/
def Run (a : Arena) : Nat → List BlockInfo → Nat → Prop
  | lo, [], hi => lo = hi
  | lo, b :: bs, hi => b.ptr = lo ∧ minBlock ≤ b.size ∧ b.size % 8 = 0 ∧
      a.word? (lo - 4) = some b.tag.pack ∧ a.word? (lo + b.size - 8) = some b.tag.pack ∧
      Run a (lo + b.size) bs hi

/-- The arena is laid out as blocks `bs`: the prologue's header and footer at offsets 4 and
8, the blocks from the first block to the break, and the epilogue, a zero-size allocated
header, in the last word before the break. The break lies inside the memory and within
32-bit offsets. -/
structure Layout (a : Arena) (bs : List BlockInfo) : Prop where
  inMemory : a.brk ≤ a.memory.size
  addressable : a.brk ≤ addressable
  prologueHeader : a.word? 4 = some (Tag.allocated 8).pack
  prologueFooter : a.word? 8 = some (Tag.allocated 8).pack
  run : Run a firstBlock bs a.brk
  epilogue : a.word? (a.brk - 4) = some (Tag.allocated 0).pack

section Run

variable {a a' : Arena} {lo hi : Nat} {bs : List BlockInfo}

@[simp] theorem run_nil : Run a lo [] hi ↔ lo = hi := Iff.rfl

theorem run_cons {b : BlockInfo} :
    Run a lo (b :: bs) hi ↔ b.ptr = lo ∧ minBlock ≤ b.size ∧ b.size % 8 = 0 ∧
      a.word? (lo - 4) = some b.tag.pack ∧ a.word? (lo + b.size - 8) = some b.tag.pack ∧
      Run a (lo + b.size) bs hi := Iff.rfl

/-- A run splits wherever its list does, at the offset where the first part ends. -/
theorem run_append {xs ys : List BlockInfo} :
    Run a lo (xs ++ ys) hi ↔ ∃ mid, Run a lo xs mid ∧ Run a mid ys hi := by
  induction xs generalizing lo with
  | nil => simp
  | cons b xs ih =>
    simp only [List.cons_append, run_cons, ih]
    constructor
    · rintro ⟨h1, h2, h3, h4, h5, mid, h6, h7⟩
      exact ⟨mid, ⟨h1, h2, h3, h4, h5, h6⟩, h7⟩
    · rintro ⟨mid, ⟨h1, h2, h3, h4, h5, h6⟩, h7⟩
      exact ⟨h1, h2, h3, h4, h5, mid, h6, h7⟩

theorem run_singleton {b : BlockInfo} :
    Run a lo [b] hi ↔ b.ptr = lo ∧ minBlock ≤ b.size ∧ b.size % 8 = 0 ∧
      a.word? (lo - 4) = some b.tag.pack ∧ a.word? (lo + b.size - 8) = some b.tag.pack ∧
      lo + b.size = hi := by
  simp [run_cons]

theorem Run.le (hr : Run a lo bs hi) : lo ≤ hi ∧ (lo % 8 = 0 → hi % 8 = 0) := by
  induction bs generalizing lo with
  | nil => rw [run_nil] at hr; omega
  | cons b bs ih =>
    obtain ⟨-, hmin, h8, -, -, hr⟩ := run_cons.mp hr
    have := ih hr
    omega

/-- Every block of a run lies inside it, on an eight-byte boundary when the run starts on
one, with its tag in its header and footer. -/
theorem Run.mem (hr : Run a lo bs hi) {b : BlockInfo} (hb : b ∈ bs) :
    lo ≤ b.ptr ∧ b.ptr + b.size ≤ hi ∧ (lo % 8 = 0 → b.ptr % 8 = 0) ∧ minBlock ≤ b.size ∧
      b.size % 8 = 0 ∧ a.word? (b.ptr - 4) = some b.tag.pack ∧
      a.word? (b.ptr + b.size - 8) = some b.tag.pack := by
  induction bs generalizing lo with
  | nil => cases hb
  | cons c bs ih =>
    obtain ⟨rfl, hmin, h8, hh, hf, hr⟩ := run_cons.mp hr
    have hle := hr.le
    rcases List.mem_cons.mp hb with rfl | hb
    · exact ⟨le_refl _, hle.1, id, hmin, h8, hh, hf⟩
    · obtain ⟨h1, h2, h3, h4⟩ := ih hr hb
      exact ⟨by omega, h2, fun h => h3 (by omega), h4⟩

theorem Run.sorted (hr : Run a lo bs hi) : bs.Pairwise (fun b c => b.ptr + b.size ≤ c.ptr) := by
  induction bs generalizing lo with
  | nil => exact List.Pairwise.nil
  | cons b bs ih =>
    obtain ⟨rfl, -, -, -, -, hr⟩ := run_cons.mp hr
    exact List.Pairwise.cons (fun c hc => (hr.mem hc).1) (ih hr)

/-- Distinct blocks of a run do not overlap. -/
theorem Run.disjoint (hr : Run a lo bs hi) {b c : BlockInfo} (hb : b ∈ bs) (hc : c ∈ bs)
    (hne : b ≠ c) : b.ptr + b.size ≤ c.ptr ∨ c.ptr + c.size ≤ b.ptr := by
  obtain ⟨pre, post, rfl⟩ := List.append_of_mem hb
  rcases List.mem_append.mp hc with hc | hc
  · have := (List.pairwise_append.mp hr.sorted).2.2 c hc b List.mem_cons_self
    exact Or.inr this
  · rcases List.mem_cons.mp hc with rfl | hc
    · exact absurd rfl hne
    · exact Or.inl ((List.pairwise_cons.mp (List.pairwise_append.mp hr.sorted).2.1).1 c hc)

/-- A run is a fact about its tag words: another arena that reads the same words at every
header and footer of the run holds the same run. -/
theorem Run.congr (hr : Run a lo bs hi)
    (hw : ∀ b ∈ bs, a'.word? (b.ptr - 4) = a.word? (b.ptr - 4) ∧
      a'.word? (b.ptr + b.size - 8) = a.word? (b.ptr + b.size - 8)) : Run a' lo bs hi := by
  induction bs generalizing lo with
  | nil => exact hr
  | cons b bs ih =>
    obtain ⟨rfl, hmin, h8, hh, hf, hr⟩ := run_cons.mp hr
    obtain ⟨eh, ef⟩ := hw b List.mem_cons_self
    exact ⟨rfl, hmin, h8, eh.trans hh, ef.trans hf,
      ih hr fun c hc => hw c (List.mem_cons_of_mem _ hc)⟩

/-- Blocks of at least `minBlock` bytes each: a run holds at most one block per sixteen
bytes it spans. -/
theorem Run.length_le (hr : Run a lo bs hi) : minBlock * bs.length + lo ≤ hi := by
  induction bs generalizing lo with
  | nil => rw [run_nil] at hr; simp [hr]
  | cons b bs ih =>
    obtain ⟨-, hmin, -, -, -, hr⟩ := run_cons.mp hr
    have := ih hr
    simp only [List.length_cons, Nat.mul_succ]
    omega

theorem Run.end_eq_sum (hr : Run a lo bs hi) : hi = lo + (bs.map (·.size)).sum := by
  induction bs generalizing lo with
  | nil => rw [run_nil] at hr; simp [hr]
  | cons b bs ih =>
    obtain ⟨-, -, -, -, -, hr⟩ := run_cons.mp hr
    rw [ih hr, List.map_cons, List.sum_cons]
    omega

theorem Run.head_ptr (hr : Run a lo bs hi) : ∀ c ∈ bs.head?, c.ptr = lo := by
  cases bs with
  | nil => simp
  | cons b bs =>
    intro c hc
    cases Option.mem_unique hc rfl
    exact (run_cons.mp hr).1

theorem Run.end_eq {hi' : Nat} (hr : Run a lo bs hi) (hr' : Run a lo bs hi') : hi = hi' := by
  induction bs generalizing lo with
  | nil => rw [run_nil] at hr hr'; omega
  | cons b bs ih => exact ih (run_cons.mp hr).2.2.2.2.2 (run_cons.mp hr').2.2.2.2.2

end Run

theorem unpack_pack_of_le {t : Tag} (h8 : t.size % 8 = 0) (hs : t.size ≤ addressable) :
    Tag.unpack t.pack = t :=
  Tag.unpack_pack t h8 (by simp only [addressable, wordBound] at hs ⊢; omega)

theorem Heap.nextBlock_of_tag {h : Heap} {bp : Nat} {t : Tag} (h4 : 4 ≤ bp)
    (hw : h.arena.word? (bp - 4) = some t.pack) (h8 : t.size % 8 = 0)
    (hs : t.size ≤ addressable) : Heap.nextBlock bp h = .ok (bp + t.size, h) := by
  rw [Heap.nextBlock_apply h4 hw, unpack_pack_of_le h8 hs]

/-- The block walk reads a run back block by block, when an epilogue ends it below the
break. -/
theorem Run.blocksFrom {a : Arena} {bs : List BlockInfo} {lo hi : Nat} (hr : Run a lo bs hi)
    (hlo : 4 ≤ lo) (hhi : hi ≤ a.brk) (hadd : a.brk ≤ addressable)
    (hep : a.word? (hi - 4) = some (Tag.allocated 0).pack) : Heap.blocksFrom a lo = bs := by
  induction bs generalizing lo with
  | nil =>
    rw [run_nil] at hr
    subst hr
    rw [Heap.blocksFrom, if_neg (by simp only [wordBytes]; omega)]
    simp only [wordBytes, hep,
      unpack_pack_of_le (t := Tag.allocated 0) (by rfl) (by simp [Tag.allocated])]
    rfl
  | cons b bs ih =>
    obtain ⟨hp, h16, h8, hh, -, hr'⟩ := run_cons.mp hr
    have hend := hr'.le.1
    rw [Heap.blocksFrom, if_neg (by simp only [wordBytes]; omega)]
    simp only [wordBytes, hh,
      unpack_pack_of_le (t := b.tag) h8 (by simp only [BlockInfo.tag_size]; omega)]
    rw [dif_neg (by simp only [BlockInfo.tag_size, minBlock] at h16 ⊢; omega),
      dif_pos (by simp only [BlockInfo.tag_size]; omega), BlockInfo.tag_size, ih hr' (by omega), ← hp]
    rfl

theorem mem_around_of_ne {pre post : List BlockInfo} {b c : BlockInfo}
    (hc : c ∈ pre ++ b :: post) (hne : c ≠ b) : c ∈ pre ++ post := by
  simp only [List.mem_append, List.mem_cons] at hc ⊢
  tauto

namespace Layout

variable {a a' : Arena} {bs : List BlockInfo}

theorem brk_facts (hl : Layout a bs) :
    firstBlock ≤ a.brk ∧ a.brk % 8 = 0 ∧ minBlock * bs.length + firstBlock ≤ a.brk := by
  have := hl.run.le
  exact ⟨this.1, this.2 rfl, hl.run.length_le⟩

theorem blocks_eq {h : Heap} (hl : Layout h.arena bs) : h.blocks = bs :=
  hl.run.blocksFrom (by decide) le_rfl hl.addressable hl.epilogue

theorem brk_lt (hl : Layout a bs) : a.brk < wordBound := by
  have := hl.addressable
  simp only [Allocator.addressable] at this
  have : 0 < wordBound := by simp only [wordBound]; omega
  omega

theorem mem (hl : Layout a bs) {b : BlockInfo} (hb : b ∈ bs) :
    16 ≤ b.ptr ∧ b.ptr + b.size ≤ a.brk ∧ b.ptr % 8 = 0 ∧ 16 ≤ b.size ∧
      b.size % 8 = 0 ∧ a.word? (b.ptr - 4) = some b.tag.pack ∧
      a.word? (b.ptr + b.size - 8) = some b.tag.pack := by
  obtain ⟨h1, h2, h3, h4⟩ := hl.run.mem hb
  exact ⟨h1, h2, h3 rfl, h4⟩

theorem ptr_inj (hl : Layout a bs) {b c : BlockInfo} (hb : b ∈ bs) (hc : c ∈ bs)
    (e : b.ptr = c.ptr) : b = c := by
  by_contra hne
  have := (hl.mem hb).2.2.2.1
  have := (hl.mem hc).2.2.2.1
  rcases hl.run.disjoint hb hc hne with h | h <;> omega

theorem unpack_header (hl : Layout a bs) {b : BlockInfo} (hb : b ∈ bs) :
    Tag.unpack b.tag.pack = b.tag := by
  obtain ⟨-, h2, -, -, h8, -⟩ := hl.mem hb
  exact unpack_pack_of_le h8 (by have := hl.addressable; simp only [BlockInfo.tag_size]; omega)

/-- Around a block of the layout: the blocks before it run from the first block to it, and
the blocks after it run from its end to the break. -/
theorem around (hl : Layout a bs) {pre post : List BlockInfo} {b : BlockInfo}
    (hs : bs = pre ++ b :: post) :
    Run a firstBlock pre b.ptr ∧ Run a (b.ptr + b.size) post a.brk := by
  have hr := hl.run
  rw [hs, run_append] at hr
  obtain ⟨mid, hpre, hb⟩ := hr
  obtain ⟨rfl, -, -, -, -, hpost⟩ := run_cons.mp hb
  exact ⟨hpre, hpost⟩

/-- The word after a block of the layout: the header of the next block, or the epilogue
when the block is the last. -/
theorem next_header (hl : Layout a bs) {pre post : List BlockInfo} {b : BlockInfo}
    (hs : bs = pre ++ b :: post) :
    (post = [] ∧ b.ptr + b.size = a.brk ∧
        a.word? (b.ptr + b.size - 4) = some (Tag.allocated 0).pack) ∨
      ∃ n rest, post = n :: rest ∧ n.ptr = b.ptr + b.size ∧
        a.word? (b.ptr + b.size - 4) = some n.tag.pack := by
  obtain ⟨-, hpost⟩ := hl.around hs
  cases post with
  | nil =>
    rw [run_nil] at hpost
    exact Or.inl ⟨rfl, hpost, by rw [hpost]; exact hl.epilogue⟩
  | cons n rest =>
    obtain ⟨hn, -, -, hh, -, -⟩ := run_cons.mp hpost
    exact Or.inr ⟨n, rest, rfl, hn, hh⟩

/-- The word before a block of the layout: the footer of the block before it, or the
prologue's footer when the block is the first. -/
theorem prev_footer (hl : Layout a bs) {pre post : List BlockInfo} {b : BlockInfo}
    (hs : bs = pre ++ b :: post) :
    (pre = [] ∧ b.ptr = firstBlock ∧ a.word? (b.ptr - 8) = some (Tag.allocated 8).pack) ∨
      ∃ p rest, pre = rest ++ [p] ∧ p.ptr + p.size = b.ptr ∧
        a.word? (b.ptr - 8) = some p.tag.pack := by
  obtain ⟨hpre, -⟩ := hl.around hs
  rcases List.eq_nil_or_concat pre with rfl | ⟨rest, p, rfl⟩
  · rw [run_nil] at hpre
    exact Or.inl ⟨rfl, hpre.symm, by rw [← hpre]; exact hl.prologueFooter⟩
  · rw [List.concat_eq_append, run_append] at hpre
    obtain ⟨mid, -, hp⟩ := hpre
    obtain ⟨rfl, -, -, -, hf, he⟩ := run_singleton.mp hp
    exact Or.inr ⟨p, rest, List.concat_eq_append, he, by rw [← he]; exact hf⟩

/-- A position in the payload of a block of the layout, short of its footer, is no tag word:
not the prologue's, not the epilogue's, and not the header or footer of any block. -/
theorem payload_not_tag (hl : Layout a bs) {b : BlockInfo} (hb : b ∈ bs) {j : Nat}
    (hj1 : b.ptr ≤ j) (hj2 : j < b.ptr + b.size - 8) :
    12 ≤ j ∧ j + 8 < a.brk ∧ ∀ c ∈ bs, (j < c.ptr - 4 ∨ c.ptr ≤ j) ∧
      (j < c.ptr + c.size - 8 ∨ c.ptr + c.size - 4 ≤ j) := by
  obtain ⟨hb1, hb2, -, hb4, -⟩ := hl.mem hb
  refine ⟨by omega, by omega, fun c hc => ?_⟩
  obtain ⟨hc1, -, -, hc4, -⟩ := hl.mem hc
  by_cases hbc : b = c
  · subst hbc
    omega
  · rcases hl.run.disjoint hb hc hbc with h | h <;> omega

/-- An edit confined to the payloads of the layout's blocks, short of their footers, keeps
the header and the footer of every block. -/
theorem tags_of_edits {h h' : Heap} {S : Set Nat} (hl : Layout h.arena bs)
    (he : Heap.Edits S h h') (hS : ∀ j ∈ S, ∃ b ∈ bs, b.ptr ≤ j ∧ j < b.ptr + b.size - 8)
    {c : BlockInfo} (hc : c ∈ bs) :
    h'.arena.word? (c.ptr - 4) = h.arena.word? (c.ptr - 4) ∧
      h'.arena.word? (c.ptr + c.size - 8) = h.arena.word? (c.ptr + c.size - 8) := by
  have := (hl.mem hc).1
  have := (hl.mem hc).2.2.2.1
  constructor
  all_goals
    refine he.word?_of_apart fun j hj => ?_
    obtain ⟨b, hb, h1, h2⟩ := hS j hj
    have := (hl.payload_not_tag hb h1 h2).2.2 c hc
    omega

/-- An edit confined to the payloads of the layout's blocks, short of their footers, keeps
the layout. -/
theorem of_edits {h h' : Heap} {S : Set Nat} (hl : Layout h.arena bs) (he : Heap.Edits S h h')
    (hS : ∀ j ∈ S, ∃ b ∈ bs, b.ptr ≤ j ∧ j < b.ptr + b.size - 8) : Layout h'.arena bs := by
  have hb := he.brk
  refine ⟨by rw [hb, he.size]; exact hl.inMemory, by rw [hb]; exact hl.addressable, ?_, ?_,
    by rw [hb]; exact hl.run.congr fun c hc => hl.tags_of_edits he hS hc, ?_⟩
  · rw [he.word?_of_apart fun j hj => ?_]
    · exact hl.prologueHeader
    · obtain ⟨b, hb, h1, h2⟩ := hS j hj
      have := (hl.payload_not_tag hb h1 h2).1
      omega
  · rw [he.word?_of_apart fun j hj => ?_]
    · exact hl.prologueFooter
    · obtain ⟨b, hb, h1, h2⟩ := hS j hj
      have := (hl.payload_not_tag hb h1 h2).1
      omega
  · rw [hb, he.word?_of_apart fun j hj => ?_]
    · exact hl.epilogue
    · obtain ⟨b, hb', h1, h2⟩ := hS j hj
      have := (hl.payload_not_tag hb' h1 h2).2.1
      omega

/-- The blocks of a layout split into the blocks before a window, the window and the blocks
after it, each a run between the offsets where the parts meet. -/
theorem window (hl : Layout a bs) {pre win post : List BlockInfo}
    (hs : bs = pre ++ win ++ post) :
    ∃ lo hi, Run a firstBlock pre lo ∧ Run a lo win hi ∧ Run a hi post a.brk := by
  have hr := hl.run
  rw [hs, run_append, ] at hr
  obtain ⟨hi, hpw, hpost⟩ := hr
  rw [run_append] at hpw
  obtain ⟨lo, hpre, hwin⟩ := hpw
  exact ⟨lo, hi, hpre, hwin, hpost⟩

/-- Retiling a window: an edit confined to the bytes from the window's first header to its
last footer that leaves a new run of blocks over the same bytes gives the layout with the
window replaced. Merging, splitting and retagging blocks are all retilings. -/
theorem retile {h h' : Heap} {S : Set Nat} {pre win post : List BlockInfo} {lo hi : Nat}
    (hl : Layout h.arena (pre ++ win ++ post)) (win' : List BlockInfo) (hpre : Run h.arena firstBlock pre lo)
    (hwin : Run h.arena lo win hi) (he : Heap.Edits S h h') (hS : ∀ j ∈ S, lo - 4 ≤ j ∧ j < hi - 4)
    (hnew : Run h'.arena lo win' hi) : Layout h'.arena (pre ++ win' ++ post) := by
  obtain ⟨lo', hi', hpre', hwin', hpost⟩ := hl.window rfl
  obtain rfl := hpre.end_eq hpre'
  obtain rfl := hwin.end_eq hwin'
  have hlo := hpre.le.1
  have hhi := hpost.le.1
  have hb := he.brk
  refine ⟨by rw [hb, he.size]; exact hl.inMemory, by rw [hb]; exact hl.addressable, ?_, ?_, ?_, ?_⟩
  · rw [he.word?_of_apart fun j hj => by have := hS j hj; simp only [firstBlock] at hlo; omega]
    exact hl.prologueHeader
  · rw [he.word?_of_apart fun j hj => by have := hS j hj; simp only [firstBlock] at hlo; omega]
    exact hl.prologueFooter
  · rw [hb]
    refine run_append.mpr ⟨hi, run_append.mpr ⟨lo, hpre.congr fun c hc => ?_, hnew⟩,
      hpost.congr fun c hc => ?_⟩
    · obtain ⟨-, h2, -, h4, -⟩ := hpre.mem hc
      simp only [minBlock] at h4
      exact ⟨he.word?_of_apart fun j hj => by have := hS j hj; omega,
        he.word?_of_apart fun j hj => by have := hS j hj; omega⟩
    · obtain ⟨h1, -, -, h4, -⟩ := hpost.mem hc
      simp only [minBlock] at h4
      exact ⟨he.word?_of_apart fun j hj => by have := hS j hj; omega,
        he.word?_of_apart fun j hj => by have := hS j hj; omega⟩
  · rw [hb, he.word?_of_apart fun j hj => by have := hS j hj; omega]
    exact hl.epilogue

end Layout

end Allocator
