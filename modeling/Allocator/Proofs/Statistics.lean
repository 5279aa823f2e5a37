import Allocator.Proofs.Runs
import Allocator.Proofs.Refusal

/-! What a heap reports about itself, read against its invariant. The statistics add up the
blocks of the block walk (`HeapStats.foldl_addBlock`), so on a heap of the invariant they are
sums over its layout; the free-list walk follows link words from the tail, so on a heap of the
invariant it answers the listed blocks in order (`Listed.freeList`). `Heap.FreeEntries h fl`
names what the walk shows: the blocks `fl` of the block walk, in order from the tail, and
nothing after them.

Main statement: on every reachable heap the blocks tile the arena from the first block to the
epilogue, the overhead is the prologue, padding word and epilogue, the free counts and bytes
are those of the free list, the largest free block is its last entry, and with no allocated
block the whole arena is one free block or none (`stats_agree_with_walks`). -/
namespace Allocator

namespace HeapStats

/-- Adding walked blocks to the totals counts the allocated blocks with their whole and usable
bytes and the free blocks with their bytes, and keeps the largest free size seen. -/
theorem foldl_addBlock (bs : List BlockInfo) (s : HeapStats) :
    bs.foldl addBlock s = { s with
      allocatedBlocks := s.allocatedBlocks + (bs.filter (·.state = .allocated)).length
      allocatedBytes := s.allocatedBytes + ((bs.filter (·.state = .allocated)).map (·.size)).sum
      usableBytes := s.usableBytes +
        ((bs.filter (·.state = .allocated)).map (·.size - tagOverhead)).sum
      freeBlocks := s.freeBlocks + (bs.filter (·.state = .free)).length
      freeBytes := s.freeBytes + ((bs.filter (·.state = .free)).map (·.size)).sum
      largestFree := ((bs.filter (·.state = .free)).map (·.size)).foldl max s.largestFree } := by
  induction bs generalizing s with
  | nil => simp
  | cons b bs ih =>
    rw [List.foldl_cons, ih]
    cases hb : b.state <;> simp [addBlock, hb] <;> omega

end HeapStats

namespace Heap

variable (h : Heap)

@[simp] theorem stats_arenaBytes : h.stats.arenaBytes = h.arena.brk := by
  simp [stats, HeapStats.foldl_addBlock]

@[simp] theorem stats_allocatedBlocks :
    h.stats.allocatedBlocks = (h.blocks.filter (·.state = .allocated)).length := by
  simp [stats, HeapStats.foldl_addBlock]

@[simp] theorem stats_allocatedBytes :
    h.stats.allocatedBytes = ((h.blocks.filter (·.state = .allocated)).map (·.size)).sum := by
  simp [stats, HeapStats.foldl_addBlock]

@[simp] theorem stats_freeBlocks :
    h.stats.freeBlocks = (h.blocks.filter (·.state = .free)).length := by
  simp [stats, HeapStats.foldl_addBlock]

@[simp] theorem stats_freeBytes :
    h.stats.freeBytes = ((h.blocks.filter (·.state = .free)).map (·.size)).sum := by
  simp [stats, HeapStats.foldl_addBlock]

@[simp] theorem stats_largestFree :
    h.stats.largestFree = ((h.blocks.filter (·.state = .free)).map (·.size)).foldl max 0 := by
  simp [stats, HeapStats.foldl_addBlock]

@[simp] theorem stats_counters : h.stats.counters = h.counters := by
  simp [stats, HeapStats.foldl_addBlock]

@[simp] theorem stats_overheadBytes :
    h.stats.overheadBytes = h.arena.brk - (h.stats.allocatedBytes + h.stats.freeBytes) := by
  simp [stats, HeapStats.foldl_addBlock]

end Heap

theorem sum_sizes_by_state (bs : List BlockInfo) :
    ((bs.filter (·.state = .allocated)).map (·.size)).sum +
      ((bs.filter (·.state = .free)).map (·.size)).sum = (bs.map (·.size)).sum := by
  induction bs with
  | nil => rfl
  | cons b bs ih => cases hb : b.state <;> simp [hb] <;> omega

theorem foldl_max_le {l : List Nat} {a m : Nat} (ha : a ≤ m) (hl : ∀ x ∈ l, x ≤ m) :
    l.foldl max a ≤ m := by
  induction l generalizing a with
  | nil => exact ha
  | cons x l ih =>
    exact ih (Nat.max_le.mpr ⟨ha, hl x List.mem_cons_self⟩) fun y hy =>
      hl y (List.mem_cons_of_mem _ hy)

/-- The largest of ascending sizes is the last, or 0 when there is none. -/
theorem foldl_max_of_sorted {l : List Nat} (hs : l.Pairwise (· ≤ ·)) :
    l.foldl max 0 = l.getLast?.getD 0 := by
  rcases List.eq_nil_or_concat l with rfl | ⟨l', x, rfl⟩
  · rfl
  · rw [List.concat_eq_append] at hs ⊢
    have hle : ∀ y ∈ l', y ≤ x := fun y hy =>
      (List.pairwise_append.mp hs).2.2 y hy x List.mem_cons_self
    rw [List.foldl_concat, List.getLast?_concat, Option.getD_some]
    exact Nat.max_eq_right (foldl_max_le (Nat.zero_le _) hle)

section Walks

variable {h : Heap} {bs fl : List BlockInfo}

/-- The free-list walk along a chain of blocks, none at offset 0, reads them in order: after
`k` steps it has yielded the first `k` and stands at the next one, if any. The induction is on
the chain, one link a step. -/
theorem Chain.freeWalk {a : Arena} {s : Nat} {ps : List Nat} (hc : Chain a s ps 0)
    (h0 : ∀ p ∈ ps, p ≠ 0) (k : Nat) :
    Heap.freeWalk a k ps.head? = .ok (ps.take k, (ps.drop k).head?) := by
  induction ps generalizing s k with
  | nil => cases k <;> rfl
  | cons p ps ih =>
    obtain ⟨-, hp, hc'⟩ := chain_cons.mp hc
    cases k with
    | zero => rfl
    | succ k =>
      have hstep : Heap.freeStep a p = .ok ps.head? := by
        simp only [Heap.freeStep, Arena.word, readWord, Link.offset_larger]
        rw [show readWord? a.memory a.brk p = some (ps.headD 0) from hp]
        simp only [bind, Except.bind, pure, Except.pure]
        rw [headD_option fun x hx => h0 x (List.mem_cons_of_mem _ hx)]
      simp only [List.head?_cons, Heap.freeWalk, hstep, bind, Except.bind,
        ih hc' (fun x hx => h0 x (List.mem_cons_of_mem _ hx)) k, pure, Except.pure,
        List.take_succ_cons, List.drop_succ_cons]

/-- The free-list view of a heap whose list is `fl`: up to `k` entries, the offsets of the first
`k` listed blocks, flagged when the list goes on past them. -/
theorem Listed.freeList (hL : Listed h bs fl) (hl : Layout h.arena bs) (k : Nat) :
    h.freeList k = .ok ((fl.map (·.ptr)).take k, decide (k < fl.length)) := by
  have hwalk := hL.chain.freeWalk (hL.ptr_ne_zero hl fun _ => id) (k + 1)
  rw [← hL.tail] at hwalk
  simp only [Heap.freeList, hwalk, bind, Except.bind, List.length_take, List.length_map]
  by_cases hk : k < fl.length
  · rw [if_pos (by omega), List.take_take, Nat.min_eq_left (by omega), decide_eq_true hk]
    rfl
  · rw [if_neg (by omega), List.take_of_length_le (by simp; omega), decide_eq_false hk,
      List.take_of_length_le (by simp; omega)]
    rfl

end Walks

namespace Heap

/-- The free list of `h`, walked from the tail, is `fl`: blocks of the block walk, whose
offsets the walk answers in this order before it ends. -/
def FreeEntries (h : Heap) (fl : List BlockInfo) : Prop :=
  h.freeList fl.length = .ok (fl.map (·.ptr), false) ∧ ∀ c ∈ fl, c ∈ h.blocks

end Heap

namespace Shape

variable {h : Heap} {bs fl : List BlockInfo}

theorem freeEntries (hs : Shape h bs fl) : h.FreeEntries fl := by
  refine ⟨?_, fun c hc => hs.layout.blocks_eq ▸ (hs.listed.free c hc).1⟩
  rw [hs.listed.freeList hs.layout, List.take_of_length_le (by simp)]
  simp

theorem perm_free (hs : Shape h bs fl) : fl.Perm (bs.filter (·.state = .free)) :=
  (List.perm_ext_iff_of_nodup hs.listed.nodup (hs.layout.nodup.filter _)).mpr fun c => by
    rw [List.mem_filter, decide_eq_true_iff]
    exact ⟨hs.listed.free c, fun ⟨hc, hcf⟩ => hs.complete c hc hcf⟩

/-- The free blocks of a heap of the invariant: their number, their bytes and the largest of
them are those of the free list, the largest being its last entry. -/
theorem free_stats (hs : Shape h bs fl) :
    h.stats.freeBlocks = fl.length ∧ h.stats.freeBytes = (fl.map (·.size)).sum ∧
      h.stats.largestFree = (fl.getLast?.map (·.size)).getD 0 := by
  have hp := hs.perm_free
  rw [Heap.stats_freeBlocks, Heap.stats_freeBytes, Heap.stats_largestFree, hs.layout.blocks_eq]
  refine ⟨hp.length_eq.symm, (hp.map _).sum_eq.symm, ?_⟩
  rw [← (hp.map (·.size)).foldl_eq' (fun _ _ _ _ _ => by omega) 0,
    foldl_max_of_sorted (hs.listed.sorted.map _ fun _ _ => id), List.getLast?_map]

/-- A heap of the invariant has sixteen bytes outside its blocks: the padding word, the
prologue and the epilogue. -/
theorem overhead (hs : Shape h bs fl) :
    h.stats.allocatedBytes + h.stats.freeBytes = h.arena.brk - heapOverhead ∧
      h.stats.overheadBytes = heapOverhead := by
  have hend := hs.layout.run.end_eq_sum
  have hsplit := sum_sizes_by_state bs
  rw [Heap.stats_overheadBytes, Heap.stats_allocatedBytes, Heap.stats_freeBytes,
    hs.layout.blocks_eq, hsplit]
  simp only [heapOverhead, firstBlock] at hend ⊢
  omega

/-- With no allocated block, no two free blocks being neighbours, a heap of the invariant is
one free block over the whole arena past the overhead, or has no block at all. -/
theorem all_free (hs : Shape h bs fl) (h0 : (bs.filter (·.state = .allocated)).length = 0) :
    bs.length ≤ 1 ∧ ∀ b ∈ bs, b.state = .free ∧ b.size = h.arena.brk - heapOverhead := by
  have hfree : ∀ b ∈ bs, b.state = .free := fun b hb => by
    have := List.filter_eq_nil_iff.mp (List.length_eq_zero_iff.mp h0) b hb
    cases hs' : b.state
    · rfl
    · simp [hs'] at this
  have hend := hs.layout.run.end_eq_sum
  match bs, hs.separated, hfree with
  | [], _, _ => simp
  | [b], _, hf =>
    simp only [List.map_cons, List.map_nil, List.sum_cons, List.sum_nil] at hend
    simp only [List.length_singleton, le_refl, List.mem_singleton, forall_eq, true_and]
    exact ⟨hf b List.mem_cons_self, by simp only [heapOverhead, firstBlock] at hend ⊢; omega⟩
  | b :: c :: _, hsep, hf =>
    rcases (List.isChain_cons_cons.mp hsep).1 with hb | hc
    · rw [hf b List.mem_cons_self] at hb; cases hb
    · rw [hf c (by simp)] at hc; cases hc

/-- The live pointers of a heap of the invariant are the offsets of its allocated blocks, each
once, and the statistics count them. -/
theorem live_pointers (hs : Shape h bs fl) :
    ∃ ps : List BlockPtr, ps.Nodup ∧ (∀ p, p ∈ ps ↔ h.Live p) ∧
      h.stats.allocatedBlocks = ps.length := by
  have hb := hs.layout.blocks_eq
  refine ⟨(bs.filter (·.state = .allocated)).map fun b => ⟨b.ptr⟩, ?_, fun p => ?_, ?_⟩
  · refine List.Nodup.map_on (fun b hb c hc e => ?_) (hs.layout.nodup.filter _)
    exact hs.layout.ptr_inj (List.mem_filter.mp hb).1 (List.mem_filter.mp hc).1
      (BlockPtr.mk.inj e)
  · simp only [List.mem_map, List.mem_filter, decide_eq_true_eq, Heap.Live, hb]
    constructor
    · rintro ⟨b, ⟨hbm, hba⟩, rfl⟩
      exact ⟨b, hbm, hba, rfl⟩
    · rintro ⟨b, hbm, hba, hbp⟩
      exact ⟨b, ⟨hbm, hba⟩, by rw [hbp]⟩
  · rw [Heap.stats_allocatedBlocks, hb, List.length_map]

end Shape

namespace Run

variable {a : Arena} {lo hi : Nat} {bs : List BlockInfo}

theorem isChain_next (hr : Run a lo bs hi) : bs.IsChain (fun b c => c.ptr = b.ptr + b.size) := by
  induction bs generalizing lo with
  | nil => exact List.IsChain.nil
  | cons b bs ih =>
    obtain ⟨rfl, -, -, -, -, hr'⟩ := run_cons.mp hr
    exact List.isChain_cons.mpr ⟨hr'.head_ptr, ih hr'⟩

theorem ptr_lt (hr : Run a lo bs hi) : bs.Pairwise (fun b c => b.ptr < c.ptr) :=
  hr.sorted.imp_of_mem fun hb _ hbc => by
    have := (hr.mem hb).2.2.2.1
    simp only [minBlock] at this
    omega

end Run

variable {h : Heap}

/-- On a reachable heap the block walk and the statistics agree with the layout and with the
free-list walk. The blocks go up in address order and tile the arena from the first block to
the epilogue, each starting where the one before it ends and the last ending at the break;
so the overhead is the sixteen bytes outside the blocks and the allocated and free bytes make
up the rest. The free-list walk from the tail shows the free blocks: the statistics count them
and their bytes, and the largest is the last one walked, or 0 with none. The allocated blocks
are as many as the live pointers, and with none allocated the arena past the overhead is one
free block, or there is no block at all. -/
theorem stats_agree_with_walks (hr : h.Reachable) :
    h.blocks.Pairwise (fun b c => b.ptr < c.ptr) ∧ (∀ b ∈ h.blocks.head?, b.ptr = firstBlock) ∧
      h.blocks.IsChain (fun b c => c.ptr = b.ptr + b.size) ∧
      firstBlock + (h.blocks.map (·.size)).sum = h.arena.brk ∧
      h.stats.overheadBytes = heapOverhead ∧
      h.stats.allocatedBytes + h.stats.freeBytes = h.stats.arenaBytes - heapOverhead ∧
      (∃ fl, h.FreeEntries fl ∧ h.stats.freeBlocks = fl.length ∧
        h.stats.freeBytes = (fl.map (·.size)).sum ∧
        h.stats.largestFree = (fl.getLast?.map (·.size)).getD 0) ∧
      (∃ ps : List BlockPtr, ps.Nodup ∧ (∀ p, p ∈ ps ↔ h.Live p) ∧
        h.stats.allocatedBlocks = ps.length) ∧
      (h.stats.allocatedBlocks = 0 → h.blocks.length ≤ 1 ∧
        ∀ b ∈ h.blocks, b.state = .free ∧ b.size = h.stats.arenaBytes - heapOverhead) := by
  obtain ⟨bs, fl, hs⟩ := hr.valid.shape
  have hb := hs.layout.blocks_eq
  have hrun := hs.layout.run
  obtain ⟨hbytes, hover⟩ := hs.overhead
  obtain ⟨hcount, hsum, hlargest⟩ := hs.free_stats
  refine ⟨hb ▸ hrun.ptr_lt, hb ▸ hrun.head_ptr, hb ▸ hrun.isChain_next, ?_, hover,
    by rw [hbytes, Heap.stats_arenaBytes], ⟨fl, hs.freeEntries, hcount, hsum, hlargest⟩,
    hs.live_pointers, fun h0 => ?_⟩
  · rw [hb, hrun.end_eq_sum]
  · rw [Heap.stats_allocatedBlocks, hb] at h0
    rw [hb, Heap.stats_arenaBytes]
    exact hs.all_free h0

theorem reachable_stats_agree : ∃ h : Heap, h.Reachable ∧ h.stats.overheadBytes = heapOverhead ∧
    ∃ fl, h.FreeEntries fl ∧ h.stats.freeBlocks = fl.length := by
  obtain ⟨h, hr⟩ := exists_reachable
  obtain ⟨-, -, -, -, hover, -, ⟨fl, hfe, hcount, -⟩, -⟩ := stats_agree_with_walks hr
  exact ⟨h, hr, hover, fl, hfe, hcount⟩

end Allocator
