import Allocator.Proofs.Verdict
import Allocator.Proofs.Statistics

/-! What the walks over the arena do on any bytes at all, damaged ones included. The block
walk behind `Heap.blocks` lays its blocks end to end from the first block, each a positive
multiple of eight bytes inside the break (`blocksFrom_strides`, `blocksFrom_within`), so the
statistics added up from it need no truncation (`stats_walked_le`, `stats_usable`). The check
never reports a misaligned block (`check_ne_misaligned`), the tags the free-list walk reads are
those of blocks the block walk read (`checkBlocks_headers`), and the free-list walk's budget of
one step per free block is never what stops it (`walkFree_fuel_add`). `walks_stay_within_break`
joins them. -/

namespace Allocator

/-- Blocks laid end to end from `lo`, each a positive multiple of eight bytes long. -/
def Strides : Nat → List BlockInfo → Prop
  | _, [] => True
  | lo, b :: bs => b.ptr = lo ∧ 0 < b.size ∧ b.size % 8 = 0 ∧ Strides (lo + b.size) bs

section Strides

variable {lo : Nat} {bs : List BlockInfo}

@[simp] theorem strides_nil : Strides lo [] := trivial

theorem strides_cons {b : BlockInfo} :
    Strides lo (b :: bs) ↔ b.ptr = lo ∧ 0 < b.size ∧ b.size % 8 = 0 ∧ Strides (lo + b.size) bs :=
  Iff.rfl

/-- From an offset that is a multiple of eight, every block starts at one. -/
theorem Strides.aligned (hs : Strides lo bs) (hlo : lo % 8 = 0) :
    ∀ b ∈ bs, b.ptr % 8 = 0 ∧ 0 < b.size ∧ b.size % 8 = 0 := by
  induction bs generalizing lo with
  | nil => simp
  | cons b bs ih =>
    obtain ⟨hp, hpos, h8, hs⟩ := strides_cons.mp hs
    rintro c (_ | ⟨_, hc⟩)
    · exact ⟨hp ▸ hlo, hpos, h8⟩
    · exact ih hs (by omega) c hc

theorem Strides.head (hs : Strides lo bs) : ∀ b ∈ bs.head?, b.ptr = lo := by
  cases bs with
  | nil => simp
  | cons b bs => simpa using (strides_cons.mp hs).1

theorem Strides.isChain (hs : Strides lo bs) : bs.IsChain (fun b c => c.ptr = b.ptr + b.size) := by
  induction bs generalizing lo with
  | nil => exact List.IsChain.nil
  | cons b bs ih =>
    obtain ⟨hp, -, -, hs⟩ := strides_cons.mp hs
    refine List.isChain_cons.mpr ⟨fun c hc => ?_, ih hs⟩
    rw [hs.head c hc, hp]

/-- Blocks laid end to end from `lo`, each ending by `hi`, span at most `hi - lo` bytes. -/
theorem Strides.sum_le (hs : Strides lo bs) {hi : Nat} (hin : ∀ b ∈ bs, b.ptr + b.size ≤ hi) :
    (bs.map (·.size)).sum ≤ hi - lo := by
  induction bs generalizing lo with
  | nil => simp
  | cons b bs ih =>
    obtain ⟨hp, -, -, hs⟩ := strides_cons.mp hs
    have hb := hin b List.mem_cons_self
    have := ih hs fun c hc => hin c (List.mem_cons_of_mem b hc)
    simp only [List.map_cons, List.sum_cons]
    omega

/-- Each block of a stride is at least eight bytes. -/
theorem Strides.length_le (hs : Strides lo bs) : 8 * bs.length ≤ (bs.map (·.size)).sum := by
  induction bs generalizing lo with
  | nil => simp
  | cons b bs ih =>
    obtain ⟨-, hpos, h8, hs⟩ := strides_cons.mp hs
    have := ih hs
    simp only [List.length_cons, List.map_cons, List.sum_cons]
    omega

end Strides

namespace Heap

variable {a : Arena}

/-- The block walk lays its blocks end to end from where it starts. -/
theorem blocksFrom_strides (a : Arena) (c : Nat) : Strides c (blocksFrom a c) := by
  fun_induction blocksFrom a c with
  | case1 => trivial
  | case2 => trivial
  | case3 => trivial
  | case4 c _ w _ t hz _ ih =>
    refine strides_cons.mpr ⟨rfl, Nat.pos_of_ne_zero hz, ?_, ih⟩
    simp [t, Tag.unpack]
  | case5 => trivial

theorem blocksFrom_within (a : Arena) (c : Nat) : ∀ b ∈ blocksFrom a c, b.ptr + b.size ≤ a.brk := by
  fun_induction blocksFrom a c with
  | case4 c _ w _ t _ hb ih =>
    rintro b (_ | ⟨_, hb'⟩)
    · exact hb
    · exact ih b hb'
  | _ => simp

theorem blocks_strides (h : Heap) : Strides firstBlock h.blocks := blocksFrom_strides _ _

theorem blocks_within (h : Heap) : ∀ b ∈ h.blocks, b.ptr + b.size ≤ h.arena.brk :=
  blocksFrom_within _ _

theorem blocks_length_le (h : Heap) : 8 * h.blocks.length ≤ h.arena.brk - firstBlock :=
  (h.blocks_strides.length_le).trans (h.blocks_strides.sum_le h.blocks_within)

theorem stats_usableBytes (h : Heap) :
    h.stats.usableBytes = ((h.blocks.filter (·.state = .allocated)).map (·.size - tagOverhead)).sum := by
  simp [stats, HeapStats.foldl_addBlock]

end Heap

/-- Subtracting the tag overhead from blocks of at least that size loses nothing. -/
theorem sum_sub_overhead (bs : List BlockInfo) (h8 : ∀ b ∈ bs, tagOverhead ≤ b.size) :
    (bs.map (·.size - tagOverhead)).sum + tagOverhead * bs.length = (bs.map (·.size)).sum := by
  induction bs with
  | nil => rfl
  | cons b bs ih =>
    have hb := h8 b List.mem_cons_self
    have := ih fun c hc => h8 c (List.mem_cons_of_mem b hc)
    simp only [List.map_cons, List.sum_cons, List.length_cons]
    rw [Nat.mul_succ]
    omega

theorem stats_walked_le (h : Heap) :
    h.stats.allocatedBytes + h.stats.freeBytes ≤ h.stats.arenaBytes := by
  rw [Heap.stats_allocatedBytes, Heap.stats_freeBytes, sum_sizes_by_state, Heap.stats_arenaBytes]
  have := h.blocks_strides.sum_le h.blocks_within
  omega

theorem stats_usable (h : Heap) :
    h.stats.usableBytes + tagOverhead * h.stats.allocatedBlocks = h.stats.allocatedBytes := by
  rw [Heap.stats_usableBytes, Heap.stats_allocatedBlocks, Heap.stats_allocatedBytes]
  refine sum_sub_overhead _ fun b hb => ?_
  obtain ⟨-, hpos, h8⟩ := h.blocks_strides.aligned rfl b (List.mem_of_mem_filter hb)
  simp only [tagOverhead]
  omega

section FreeWalk

variable {a : Arena} {F : Std.HashSet Nat}

/-- One step of the free-list walk at a block, on any bytes and with any budget left: it stops
with an error that names the block, for a reason of its own, or, at a member of the free set
not visited yet, goes on having visited it. -/
theorem walkFree_at {S : Std.HashSet Nat} {sm : Option (Nat × Nat)} (q : Nat) :
    (∃ e, (e = .allocatedListed q ∨ e = .listCycle q ∨ e = .outOfBounds q ∨ e = .brokenLink q ∨
        e = .listOrder q) ∧ ∀ fuel, Heap.walkFree a F (fuel + 1) S sm (some q) = .error e) ∨
      (F.contains q = true ∧ S.contains q = false ∧ ∃ sm' cur', ∀ fuel,
        Heap.walkFree a F (fuel + 1) S sm (some q) = Heap.walkFree a F fuel (S.insert q) sm' cur') := by
  cases hF : F.contains q
  · exact .inl ⟨_, .inl rfl, fun _ => walkFree_unlisted hF⟩
  cases hS : S.contains q
  swap
  · exact .inl ⟨_, .inr (.inl rfl), fun _ => walkFree_seen hF hS⟩
  simp only [Heap.walkFree, hF, hS, Bool.not_true, Bool.false_eq_true, if_false, Heap.checkedTag_eq,
    bind, Except.bind, pure, Except.pure, throw, throwThe, MonadExceptOf.throw]
  cases ht : a.tag? (q - wordBytes) with
  | none => exact .inl ⟨_, .inr (.inr (.inl rfl)), fun _ => rfl⟩
  | some t =>
  cases hb : a.word? (Link.offset q .smaller) with
  | none => exact .inl ⟨_, .inr (.inr (.inl rfl)), fun _ => rfl⟩
  | some w =>
  dsimp only
  split_ifs with hback hord
  · exact .inl ⟨_, .inr (.inr (.inr (.inl rfl))), fun _ => rfl⟩
  · exact .inl ⟨_, .inr (.inr (.inr (.inr rfl))), fun _ => rfl⟩
  cases hl : a.word? (Link.offset q .larger) with
  | none => exact .inl ⟨_, .inr (.inr (.inl rfl)), fun _ => rfl⟩
  | some w' => exact .inr ⟨trivial, trivial, _, _, fun _ => rfl⟩

/-- The free-list walk reports nothing misaligned: each error it gives names the block it
stands on, for a reason of its own. -/
theorem walkFree_ne_misaligned (p : Nat) :
    ∀ fuel S sm cur, Heap.walkFree a F fuel S sm cur ≠ .error (.misaligned p) := by
  intro fuel
  induction fuel with
  | zero => intro S sm cur; cases cur <;> simp [Heap.walkFree]
  | succ n ih =>
    intro S sm cur
    cases cur with
    | none => simp [walkFree_none]
    | some q =>
      rcases @walkFree_at a F S sm q with ⟨e, he, hw⟩ | ⟨-, -, sm', cur', hw⟩
      · rw [hw n]
        intro h
        cases h
        simp at he
      · rw [hw n]
        exact ih _ _ _

/-- Visiting a new member of `L` leaves fewer members of `L` unvisited. -/
theorem unvisited_insert_lt {L : List Nat} {S : Std.HashSet Nat} {p : Nat} (hp : p ∈ L)
    (hS : S.contains p = false) :
    (L.filter fun q => !(S.insert p).contains q).length <
      (L.filter fun q => !S.contains q).length := by
  have hsplit : (L.filter fun q => !(S.insert p).contains q) =
      (L.filter fun q => !S.contains q).filter (fun q => q != p) := by
    rw [List.filter_filter]
    congr 1
    funext q
    simp only [Std.HashSet.contains_insert, Bool.not_or, bne_comm]
    rfl
  rw [hsplit]
  exact List.length_filter_lt_length_iff_exists.mpr
    ⟨p, List.mem_filter.mpr ⟨hp, by simp [hS]⟩, by simp⟩

/-- The free-list walk visits a new member of the free set at every step it goes on, so a
budget above the number of members not yet visited is never what stops it: more gives the same
answer. The induction is on the budget, the count of unvisited members falling at each step. -/
theorem walkFree_fuel_add {L : List Nat} (hL : ∀ q, F.contains q = true ↔ q ∈ L) (k : Nat) :
    ∀ fuel S sm cur, (L.filter fun q => !S.contains q).length < fuel →
      Heap.walkFree a F (fuel + k) S sm cur = Heap.walkFree a F fuel S sm cur := by
  intro fuel
  induction fuel with
  | zero => intro _ _ _ h; omega
  | succ n ih =>
    intro S sm cur hlen
    cases cur with
    | none => simp only [walkFree_none]
    | some q =>
      rw [show n + 1 + k = (n + k) + 1 by omega]
      rcases @walkFree_at a F S sm q with ⟨e, -, hw⟩ | ⟨hFq, hSq, sm', cur', hw⟩
      · rw [hw, hw]
      · have hlt := unvisited_insert_lt ((hL q).mp hFq) hSq
        rw [hw, hw]
        exact ih _ sm' cur' (by omega)

end FreeWalk

/-- The check's list walk is given one step more than there are free blocks, and that is
always enough: any larger budget gives the same answer. -/
theorem check_walkFree_fuel (a : Arena) (free : Array Nat) (tail : Option Nat) (k : Nat) :
    Heap.walkFree a ((Std.HashSet.emptyWithCapacity free.size).insertMany free) (free.size + 1 + k)
        (Std.HashSet.emptyWithCapacity free.size) none tail =
      Heap.walkFree a ((Std.HashSet.emptyWithCapacity free.size).insertMany free) (free.size + 1)
        (Std.HashSet.emptyWithCapacity free.size) none tail :=
  walkFree_fuel_add (contains_insertMany_free free) k _ _ _ _ (by
    have := List.length_filter_le (fun q => !(Std.HashSet.emptyWithCapacity free.size).contains q)
      free.toList
    simp only [Array.length_toList] at this
    omega)

/-- Every block the block walk answers free had its header read by the walk. -/
theorem walkBlocks_headers {a : Arena} {c : Nat} {pf : Bool} {met free : Array Nat}
    (hw : Heap.walkBlocks a c pf met = .ok free) (hmet : ∀ p ∈ met, ∃ t, a.tag? (p - 4) = some t) :
    ∀ p ∈ free, ∃ t, a.tag? (p - 4) = some t := by
  induction c, pf, met using Heap.walkBlocks.induct a with
  | case1 c pf met hcw =>
    rw [Heap.walkBlocks, if_pos hcw] at hw
    cases hw
  | case2 c pf met hcw ih =>
    obtain ⟨t, ht, ⟨-, -, -, rfl⟩ | ⟨h0, -, hs, hb, -, -, hnext⟩⟩ := walkBlocks_eq_ok (by omega) hw
    · exact hmet
    · refine ih t h0 (by omega) (by omega) (by rwa [dite_eq_ite]) fun p hp => ?_
      split at hp
      · rcases Array.mem_push.mp hp with hp | rfl
        · exact hmet p hp
        · exact ⟨t, ht⟩
      · exact hmet p hp

/-- The tags the check's list walk reads are those of blocks the block walk read. -/
theorem checkBlocks_headers {a : Arena} {free : Array Nat} (h : Heap.checkBlocks a = .ok free) :
    ∀ p ∈ free, ∃ t, a.tag? (p - 4) = some t := by
  rcases checkBlocks_cases a with ⟨e, he, -⟩ | hw
  · rw [he] at h
    cases h
  · rw [hw] at h
    exact walkBlocks_headers h (by simp)

/-- The check never reports a misaligned block, whatever the bytes and the tail. -/
theorem check_ne_misaligned (h : Heap) (p : Nat) : h.check ≠ .error (.misaligned p) := by
  rw [Heap.check]
  cases hcb : Heap.checkBlocks h.arena with
  | error e =>
    simp only [bind, Except.bind]
    intro he
    cases he
    exact checkBlocks_ne_misaligned p hcb
  | ok free =>
    simp only [bind, Except.bind]
    cases hw : Heap.walkFree h.arena ((Std.HashSet.emptyWithCapacity free.size).insertMany free)
        (free.size + 1) (Std.HashSet.emptyWithCapacity free.size) none h.tail with
    | error e =>
      simp only
      intro he
      cases he
      exact walkFree_ne_misaligned p _ _ _ _ hw
    | ok seen =>
      simp only
      split <;> simp [throw, throwThe, MonadExceptOf.throw, pure, Except.pure]

/-- The walks over the arena, on any bytes and any free-list tail. The blocks that the block
list and the statistics walk start at the first block and follow one another end to end, each
a positive multiple of eight bytes long and ending by the break, so there is at most one per
eight bytes; the statistics added up from them need no truncation; the check never reports a
misaligned block; every header its list walk reads belongs to a block its block walk read; and
the list walk's budget never decides its answer. -/
theorem walks_stay_within_break (h : Heap) :
    (∀ b ∈ h.blocks.head?, b.ptr = firstBlock) ∧
      h.blocks.IsChain (fun b c => c.ptr = b.ptr + b.size) ∧
      (∀ b ∈ h.blocks, b.ptr % 8 = 0 ∧ 0 < b.size ∧ b.size % 8 = 0 ∧
        b.ptr + b.size ≤ h.arena.brk) ∧
      8 * h.blocks.length ≤ h.arena.brk - firstBlock ∧
      h.stats.allocatedBytes + h.stats.freeBytes ≤ h.stats.arenaBytes ∧
      h.stats.usableBytes + tagOverhead * h.stats.allocatedBlocks = h.stats.allocatedBytes ∧
      (∀ p, h.check ≠ .error (.misaligned p)) ∧
      ∀ free, Heap.checkBlocks h.arena = .ok free →
        (∀ p ∈ free, ∃ t, h.arena.tag? (p - 4) = some t) ∧
        ∀ k, Heap.walkFree h.arena ((Std.HashSet.emptyWithCapacity free.size).insertMany free)
            (free.size + 1 + k) (Std.HashSet.emptyWithCapacity free.size) none h.tail =
          Heap.walkFree h.arena ((Std.HashSet.emptyWithCapacity free.size).insertMany free)
            (free.size + 1) (Std.HashSet.emptyWithCapacity free.size) none h.tail := by
  have hs := h.blocks_strides
  refine ⟨hs.head, hs.isChain, fun b hb => ?_, h.blocks_length_le, stats_walked_le h,
    stats_usable h, check_ne_misaligned h,
    fun free hcb => ⟨checkBlocks_headers hcb, check_walkFree_fuel _ _ _⟩⟩
  obtain ⟨h8, hpos, hsz⟩ := hs.aligned rfl b hb
  exact ⟨h8, hpos, hsz, h.blocks_within b hb⟩

end Allocator
