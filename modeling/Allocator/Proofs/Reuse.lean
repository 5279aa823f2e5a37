import Allocator.Proofs.Release
import Allocator.Proofs.BestFit
import Allocator.Proofs.Payload

/-! Releasing what was just acquired, and acquiring what was just released. An acquire served
from the free list carves the first listed block that fits; releasing the block it answers
merges back exactly the carved rest, since the blocks on either side of a free block are
allocated, and the merged block goes back to the very place in the list the carved one left,
since every block ahead of it was too small. So the acquire is undone, down to the order of
the free list. The other way round, the block a release frees is at least as large as the
one released, so any request the released block could hold is served from the list
(`release_restores_acquire`). -/
namespace Allocator

variable {h : Heap} {pre post fl : List BlockInfo} {b : BlockInfo}

theorem adjust_le_of_fits {n s : Nat} (h8 : s % 8 = 0) (h16 : minBlock ≤ s)
    (hn : n + tagOverhead ≤ s) (hs : s < sizeBound) : ∃ a, adjust n = some a ∧ a ≤ s := by
  have h64 : sizeBound % 8 = 0 := rfl
  unfold adjust align
  rw [if_pos (by omega), if_pos (by simp only [tagOverhead] at *; omega)]
  exact ⟨_, rfl, by simp only [minBlock, tagOverhead] at *; omega⟩

/-- Inserting past blocks all smaller than the inserted one leaves them ahead of it. -/
theorem orderedInsert_append_of_lt {xs ys : List BlockInfo} {c : BlockInfo}
    (hxs : ∀ d ∈ xs, d.size < c.size) :
    (xs ++ ys).orderedInsert BlockInfo.SizeLE c = xs ++ ys.orderedInsert BlockInfo.SizeLE c := by
  induction xs with
  | nil => rfl
  | cons d xs ih =>
    have hd : ¬ BlockInfo.SizeLE c d := by
      simp only [BlockInfo.SizeLE]
      have := hxs d List.mem_cons_self
      omega
    rw [List.cons_append, List.orderedInsert_of_not_le _ _ hd,
      ih fun e he => hxs e (List.mem_cons_of_mem _ he), List.cons_append]

/-- A sorted list without repeats is rebuilt when its first block that fits a size is taken
out and inserted again: the blocks ahead of it are too small to stand after it. -/
theorem orderedInsert_erase_first_fit (hsorted : fl.Pairwise BlockInfo.SizeLE) (hnd : fl.Nodup)
    {adjusted : Nat} (hf : fl.find? (fun c => decide (adjusted ≤ c.size)) = some b) :
    (fl.erase b).orderedInsert BlockInfo.SizeLE b = fl := by
  obtain ⟨hb, fl₁, fl₂, rfl, hpass⟩ := List.find?_eq_some_iff_append.mp hf
  have hfit : adjusted ≤ b.size := by simpa using hb
  have hsmall : ∀ c ∈ fl₁, c.size < b.size := fun c hc => by
    have := hpass c hc
    simp only [Bool.not_eq_true', decide_eq_false_iff_not] at this
    omega
  have hb₁ : b ∉ fl₁ := fun hb₁ => by
    have := hsmall b hb₁
    omega
  rw [List.erase_append_right _ hb₁, List.erase_cons_head, orderedInsert_append_of_lt hsmall]
  congr 1
  cases fl₂ with
  | nil => rfl
  | cons d fl₂ =>
    have hbd : BlockInfo.SizeLE b d :=
      (List.pairwise_cons.mp (List.pairwise_append.mp hsorted).2.1).1 d List.mem_cons_self
    exact List.orderedInsert_cons_of_le _ _ hbd

theorem filter_orderedInsert_of_not {p : BlockInfo → Bool} {l : List BlockInfo} {c : BlockInfo}
    (hc : p c = false) :
    (l.orderedInsert BlockInfo.SizeLE c).filter p = l.filter p := by
  rw [List.orderedInsert_eq_take_drop, List.filter_append, List.filter_cons_of_neg (by simp [hc]),
    ← List.filter_append, List.takeWhile_append_dropWhile]

/-- Inserting blocks the filter drops does not change what the filter keeps. -/
theorem filter_foldr_orderedInsert_of_not {p : BlockInfo → Bool} {l rs : List BlockInfo}
    (hrs : ∀ r ∈ rs, p r = false) :
    (rs.foldr (List.orderedInsert BlockInfo.SizeLE) l).filter p = l.filter p := by
  induction rs with
  | nil => rfl
  | cons r rs ih =>
    rw [List.foldr_cons, filter_orderedInsert_of_not (hrs r List.mem_cons_self),
      ih fun x hx => hrs x (List.mem_cons_of_mem _ hx)]

/-- The blocks next to a free block of a heap of the invariant are allocated. -/
theorem Shape.around_free (hs : Shape h (pre ++ b :: post) fl) (hbf : b.state = .free) :
    (∀ c ∈ pre.getLast?, c.state = .allocated) ∧ ∀ c ∈ post.head?, c.state = .allocated := by
  obtain ⟨-, hright, hjoin⟩ := List.isChain_append.mp hs.separated
  constructor
  · intro c hc
    rcases hjoin c hc b rfl with hca | hba
    · exact hca
    · rw [hbf] at hba; cases hba
  · intro c hc
    cases post with
    | nil => cases hc
    | cons d post =>
      cases Option.mem_unique hc rfl
      rcases (List.isChain_cons_cons.mp hright).1 with hba | hca
      · rw [hbf] at hba; cases hba
      · exact hca

theorem Carved.rest_cases {lo size adjusted : Nat} {a : BlockInfo} {rs : List BlockInfo}
    (hc : Carved lo size adjusted a rs) : rs = [] ∨ ∃ r, rs = [r] := by
  unfold Carved at hc
  split at hc
  · exact .inr ⟨_, hc.2⟩
  · exact .inl hc.2

/-- Releasing a block carved out of a window between allocated blocks takes in exactly the
carved rest and gives the window back as one free block, listed ahead of the blocks of its
size. -/
theorem release_carved {a : BlockInfo} {rs : List BlockInfo} {lo size adjusted : Nat}
    (hs : Shape h (pre ++ a :: (rs ++ post)) fl) (hc : Carved lo size adjusted a rs)
    (hadj : adjusted ≤ size) (hpre : ∀ c ∈ pre.getLast?, c.state = .allocated)
    (hpost : ∀ c ∈ post.head?, c.state = .allocated) (hb : h.arena.Backed) :
    ∃ h', Heap.run (Heap.release ⟨lo⟩) h = .ok (.ok (), h') ∧
      Shape h' (pre ++ ⟨lo, size, .free⟩ :: post)
        ((fl.filter (· ∈ pre ++ post)).orderedInsert BlockInfo.SizeLE ⟨lo, size, .free⟩) ∧
      h'.arena.brk = h.arena.brk := by
  obtain ⟨h', pre', post', m, rr, hs', hmg, -, hbrk⟩ := release_merges hs hc.state hb
  obtain ⟨pw, nw, hpre', hpost', hpw, hnw, hfree, hptr, hsize⟩ := hmg.window
  obtain rfl : pw = [] := by
    match pw, hpw with
    | [], _ => rfl
    | [x], _ =>
      have hx := hpre x (by rw [hpre', List.getLast?_append_of_ne_nil _ (by simp)]; rfl)
      rw [hfree x (by simp)] at hx
      cases hx
  obtain rfl : pre' = pre := by simpa using hpre'.symm
  obtain ⟨rfl, rfl⟩ : nw = rs ∧ post' = post := by
    rcases hc.rest_cases with rfl | ⟨r, rfl⟩
    · match nw, hnw with
      | [], _ => exact ⟨rfl, by simpa using hpost'.symm⟩
      | [x], _ =>
        rw [List.nil_append] at hpost'
        have hx := hpost x (by rw [hpost']; rfl)
        rw [hfree x (by simp)] at hx
        cases hx
    · match nw, hnw with
      | [], _ =>
        have hr := hmg.after r (by rw [← List.nil_append post', ← hpost']; rfl)
        rw [hc.free r List.mem_cons_self] at hr
        cases hr
      | [x], _ =>
        obtain ⟨rfl, rfl⟩ := List.cons.inj hpost'
        exact ⟨rfl, rfl⟩
  obtain rfl : m = ⟨lo, size, .free⟩ := by
    have hmp : m.ptr = lo := by simpa [hc.ptr] using hptr
    have hms : m.size = size := by
      simp only [List.nil_append, List.map_cons, List.sum_cons] at hsize
      rw [hsize, hc.sum hadj]
    have hmf := hmg.free
    cases m
    simp only [BlockInfo.mk.injEq] at hmp hms hmf ⊢
    exact ⟨hmp, hms, hmf⟩
  refine ⟨h', ?_, hs', hbrk⟩
  rw [← hc.ptr]
  exact rr

/-- The free list is rebuilt when its first block that fits is carved where it stands, the
carved rest is listed, and then the rest is taken out again and the block put back: the rest
lies outside the blocks around the window, and every other listed block inside them. -/
theorem relist_first_fit (hs : Shape h (pre ++ b :: post) fl) {adjusted : Nat}
    (hf : fl.find? (fun c => decide (adjusted ≤ c.size)) = some b) {a : BlockInfo}
    {rs : List BlockInfo} (hnd : (pre ++ a :: (rs ++ post)).Nodup) :
    ((rs.foldr (List.orderedInsert BlockInfo.SizeLE) (fl.erase b)).filter
      (· ∈ pre ++ post)).orderedInsert BlockInfo.SizeLE b = fl := by
  have hout : ∀ r ∈ rs, decide (r ∈ pre ++ post) = false := by
    intro r hr
    rw [List.nodup_append, List.nodup_cons, List.nodup_append] at hnd
    simp only [decide_eq_false_iff_not, List.mem_append, not_or]
    exact ⟨fun hp => hnd.2.2 r hp r (by simp [hr]) rfl, fun hq => hnd.2.1.2.2.2 r hr r hq rfl⟩
  have hkeep : (fl.erase b).filter (· ∈ pre ++ post) = fl.erase b :=
    List.filter_eq_self.mpr fun c hc => by
      obtain ⟨hcb, hcfl⟩ := (hs.listed.nodup.mem_erase_iff).mp hc
      have hcbs := (hs.listed.free c hcfl).1
      simp only [List.mem_append, List.mem_cons] at hcbs
      simp only [decide_eq_true_eq, List.mem_append]
      tauto
  rw [filter_foldr_orderedInsert_of_not hout, hkeep,
    orderedInsert_erase_first_fit hs.listed.sorted hs.listed.nodup hf]

/-- Releasing the block an acquire just answered, when the acquire kept the break, gives back
the blocks and the free list the heap had before it, in the same order. -/
theorem release_undoes_acquire (hr : h.Reachable) {n : Nat} {p : BlockPtr} {h₁ : Heap}
    (hacq : Heap.run (Heap.acquire n) h = .ok (.ok p, h₁)) (hbrk : h₁.arena.brk = h.arena.brk) :
    ∃ h₂, Heap.run (Heap.release p) h₁ = .ok (.ok (), h₂) ∧ h₂.blocks = h.blocks ∧
      ∀ k, h₂.freeList k = h.freeList k := by
  obtain ⟨⟨bs, fl, hs⟩, hb, -, hc⟩ := hr.valid
  obtain ⟨hn, adjusted, ha⟩ : n ≠ 0 ∧ ∃ a, adjust n = some a := by
    by_cases hbad : n = 0 ∨ adjust n = none
    · rw [acquire_invalid hbad] at hacq
      cases hacq
    · rw [not_or] at hbad
      exact ⟨hbad.1, Option.ne_none_iff_exists'.mp hbad.2⟩
  cases hf : fl.find? (fun c => decide (adjusted ≤ c.size)) with
  | none =>
    rcases acquire_grow_apply hs hb hc hn ha hf with
      ⟨e, h', rr, -⟩ | ⟨h', pre', pw, a, rs, -, -, -, -, rr, -, hgrow, -⟩
    · rw [rr] at hacq
      cases hacq
    · rw [rr] at hacq
      obtain ⟨-, rfl⟩ := Prod.mk.inj (Except.ok.inj hacq)
      have h16 := (adjust_eq_some ha).2.1
      simp only [minBlock] at h16
      omega
  | some b =>
    obtain ⟨hbf, hfit⟩ : b ∈ fl ∧ adjusted ≤ b.size :=
      ⟨List.mem_of_find?_eq_some hf, by simpa using List.find?_some hf⟩
    obtain ⟨hbs, hbfree⟩ := hs.listed.free b hbf
    obtain ⟨pre, post, rfl⟩ := List.append_of_mem hbs
    obtain ⟨h', a, rs, rp, hs₁, hcarve, hb₁, -⟩ := acquire_fit_apply hs hn ha hf
    rw [rp] at hacq
    obtain ⟨hp, rfl⟩ := Prod.mk.inj (Except.ok.inj hacq)
    obtain rfl := Except.ok.inj hp
    obtain ⟨hpre, hpost⟩ := hs.around_free hbfree
    obtain ⟨h₂, rr, hs₂, -⟩ := release_carved hs₁ hcarve hfit hpre hpost (hb₁ hb)
    have hbeq : (⟨b.ptr, b.size, .free⟩ : BlockInfo) = b := by rw [← hbfree]
    rw [hbeq, relist_first_fit hs hf hs₁.layout.nodup] at hs₂
    refine ⟨h₂, rr, ?_, fun k => ?_⟩
    · rw [hs₂.layout.blocks_eq, hs.layout.blocks_eq]
    · rw [hs₂.listed.freeList hs₂.layout, hs.listed.freeList hs.layout]

/-- Releasing a live block and then asking for no more than its usable bytes is served from the
free list: neither step grows the arena. -/
theorem acquire_after_release_fits (hr : h.Reachable) {p : BlockPtr} {u n : Nat} (hp : h.Live p)
    (hu : h.usableSize p = .ok u) (hn : 1 ≤ n) (hnu : n ≤ u) :
    ∃ h₁ h₂ q, Heap.run (Heap.release p) h = .ok (.ok (), h₁) ∧ h₁.arena.brk = h.arena.brk ∧
      Heap.run (Heap.acquire n) h₁ = .ok (.ok q, h₂) ∧ h₂.arena.brk = h.arena.brk := by
  obtain ⟨⟨bs, fl, hs⟩, hb, -, -⟩ := hr.valid
  obtain ⟨b, hbm, hba, rfl⟩ := hs.live_mem hp
  rw [hs.layout.usableSize_apply hbm hba] at hu
  obtain rfl : b.size - tagOverhead = u := Except.ok.inj hu
  obtain ⟨-, hend, -, h16, h8, -⟩ := hs.layout.mem hbm
  have hbound : b.size < sizeBound := by
    have := hs.layout.brk_lt
    simp only [wordBound, sizeBound] at this ⊢
    omega
  obtain ⟨adjusted, ha, hle⟩ :=
    adjust_le_of_fits h8 h16 (show n + tagOverhead ≤ b.size by simp only [tagOverhead] at *; omega)
      hbound
  obtain ⟨pre, post, rfl⟩ := List.append_of_mem hbm
  obtain ⟨h₁, pre', post', m, rr, hs₁, hmg, -, hbrk⟩ := release_merges hs hba hb
  have hm : b.size ≤ m.size := by
    obtain ⟨pw, nw, -, -, -, -, -, -, hsize⟩ := hmg.window
    simp only [List.map_append, List.sum_append, List.map_cons, List.sum_cons] at hsize
    omega
  have hmem := hs₁.complete m (by simp) hmg.free
  obtain ⟨c, hf⟩ : ∃ c, List.find? (fun c : BlockInfo => decide (adjusted ≤ c.size)) _ = some c :=
    Option.isSome_iff_exists.mp (List.find?_isSome.mpr ⟨m, hmem, decide_eq_true (hle.trans hm)⟩)
  obtain ⟨pre₂, post₂, hsplit⟩ :=
    List.append_of_mem (hs₁.listed.free c (List.mem_of_find?_eq_some hf)).1
  rw [hsplit] at hs₁
  obtain ⟨h₂, -, -, ra, -, -, -, hbrk₂, -⟩ := acquire_fit_apply hs₁ (by omega) ha hf
  exact ⟨h₁, h₂, _, rr, hbrk, ra, hbrk₂.trans hbrk⟩

/-- On a reachable heap an acquire that keeps the break is undone by releasing what it answers:
the blocks and the free list walked from the tail are those before it. And a live block once
released serves, without growing the arena, any request it had the usable bytes for. -/
theorem release_restores_acquire (hr : h.Reachable) :
    (∀ n p h₁, Heap.run (Heap.acquire n) h = .ok (.ok p, h₁) → h₁.arena.brk = h.arena.brk →
      ∃ h₂, Heap.run (Heap.release p) h₁ = .ok (.ok (), h₂) ∧ h₂.blocks = h.blocks ∧
        ∀ k, h₂.freeList k = h.freeList k) ∧
    (∀ p u n, h.Live p → h.usableSize p = .ok u → 1 ≤ n → n ≤ u →
      ∃ h₁ h₂ q, Heap.run (Heap.release p) h = .ok (.ok (), h₁) ∧ h₁.arena.brk = h.arena.brk ∧
        Heap.run (Heap.acquire n) h₁ = .ok (.ok q, h₂) ∧ h₂.arena.brk = h.arena.brk) :=
  ⟨fun _ _ _ hacq hbrk => release_undoes_acquire hr hacq hbrk,
    fun _ _ _ hp hu hn hnu => acquire_after_release_fits hr hp hu hn hnu⟩

theorem reachable_reacquire_restores : ∃ (h : Heap) (n : Nat) (p : BlockPtr) (h₁ h₂ : Heap),
    h.Reachable ∧ Heap.run (Heap.acquire n) h = .ok (.ok p, h₁) ∧ h₁.arena.brk = h.arena.brk ∧
      Heap.run (Heap.release p) h₁ = .ok (.ok (), h₂) ∧ h₂.blocks = h.blocks := by
  obtain ⟨h, p, hr, hp⟩ := exists_reachable_live
  obtain ⟨bs, fl, hs⟩ := hr.valid.shape
  obtain ⟨b, hbm, hba, rfl⟩ := hs.live_mem hp
  have h16 := (hs.layout.mem hbm).2.2.2.1
  obtain ⟨h₁, h₂, q, rr, hbrk₁, ra, hbrk₂⟩ := (release_restores_acquire hr).2 _ _ 8 hp
    (hs.layout.usableSize_apply hbm hba) (by decide) (by simp only [tagOverhead]; omega)
  have hr₁ : h₁.Reachable := hr.step (.release (.inl hp) rr)
  obtain ⟨h₃, rr₃, hblocks, -⟩ :=
    (release_restores_acquire hr₁).1 8 q h₂ ra (hbrk₂.trans hbrk₁.symm)
  exact ⟨h₁, 8, q, h₂, h₃, hr₁, ra, hbrk₂.trans hbrk₁.symm, rr₃, hblocks⟩

end Allocator
