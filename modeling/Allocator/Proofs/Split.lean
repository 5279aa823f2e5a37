import Allocator.Proofs.Coalesce

/-! Carving an allocated block out of free space. `split` makes the start of a window of
unlisted blocks an allocated block of the size asked for and frees the rest as a block of
its own when the rest can hold one; `place` takes a listed free block out of the list and
splits it. Both leave the invariant, and the allocated block starts where the window does
and is at least as large as asked. -/
namespace Allocator

variable {h : Heap}

theorem separated_of_allocated {pre post : List BlockInfo} {a : BlockInfo}
    (hpre : pre.IsChain BlockInfo.Separated) (hpost : (a :: post).IsChain BlockInfo.Separated)
    (ha : a.state = .allocated) : (pre ++ a :: post).IsChain BlockInfo.Separated :=
  List.isChain_append.mpr ⟨hpre, hpost, fun _ _ y hy => by
    cases Option.mem_unique hy rfl
    exact .inr ha⟩

/-- The blocks a window of `size` bytes at `lo` is carved into for `adjusted` bytes: an
allocated block of exactly `adjusted` bytes and a free block of the rest when the rest can
hold a block, and otherwise one allocated block of the whole window. -/
def Carved (lo size adjusted : Nat) (a : BlockInfo) (rs : List BlockInfo) : Prop :=
  if minBlock ≤ size - adjusted then
    a = ⟨lo, adjusted, .allocated⟩ ∧ rs = [⟨lo + adjusted, size - adjusted, .free⟩]
  else a = ⟨lo, size, .allocated⟩ ∧ rs = []

namespace Carved

variable {lo size adjusted : Nat} {a : BlockInfo} {rs : List BlockInfo}

theorem ptr (hc : Carved lo size adjusted a rs) : a.ptr = lo := by
  unfold Carved at hc
  split at hc <;> rw [hc.1]

theorem state (hc : Carved lo size adjusted a rs) : a.state = .allocated := by
  unfold Carved at hc
  split at hc <;> rw [hc.1]

theorem free (hc : Carved lo size adjusted a rs) : ∀ c ∈ rs, c.state = .free := by
  unfold Carved at hc
  split at hc <;> simp [hc.2]

theorem le_size (hc : Carved lo size adjusted a rs) (hadj : adjusted ≤ size) :
    adjusted ≤ a.size := by
  unfold Carved at hc
  split at hc <;> simp [hc.1, hadj]

/-- The carved block holds less than a block more than asked for. -/
theorem size_lt (hc : Carved lo size adjusted a rs) : a.size < adjusted + minBlock := by
  unfold Carved at hc
  split at hc
  · simp [hc.1, minBlock]
  · rename_i hrest
    simp only [minBlock] at hrest ⊢
    simp only [hc.1]
    omega

theorem sum (hc : Carved lo size adjusted a rs) (hadj : adjusted ≤ size) :
    a.size + (rs.map (·.size)).sum = size := by
  unfold Carved at hc
  split at hc
  · simp [hc.1, hc.2]
    omega
  · simp [hc.1, hc.2]

end Carved

/-- Splitting a window of unlisted blocks, whose right neighbour is not free: the window is
carved for `adjusted` bytes, its start becoming an allocated block and the rest, if any, a
free block listed ahead of the blocks of its size. Only the new header, the bytes from the new footer to the window's end
and link words of listed blocks change. -/
theorem split_apply {pre win post fl : List BlockInfo} {lo size adjusted : Nat}
    (hl : Layout h.arena (pre ++ win ++ post)) (hpre : Run h.arena firstBlock pre lo)
    (hwin : Run h.arena lo win (lo + size)) (hne : win ≠ [])
    (hL : Listed h (pre ++ win ++ post) fl) (hfl : ∀ c ∈ fl, c ∉ win)
    (hcomplete : ∀ c ∈ pre ++ post, c.state = .free → c ∈ fl)
    (hsp : pre.IsChain BlockInfo.Separated) (hsq : post.IsChain BlockInfo.Separated)
    (hhead : ∀ c ∈ post.head?, c.state = .allocated)
    (h16 : 16 ≤ adjusted) (h8 : adjusted % 8 = 0) (hadj : adjusted ≤ size) :
    ∃ h' a rs, Heap.split lo size adjusted h = .ok ((), h') ∧
      Shape h' (pre ++ a :: (rs ++ post)) (rs.foldr (List.orderedInsert BlockInfo.SizeLE) fl) ∧
      Carved lo size adjusted a rs ∧
      Heap.Edits (Set.Ico (lo - 4) lo ∪ Set.Ico (lo + a.size - 8) (lo + size - 4) ∪ linkWords fl)
        h h' ∧ Heap.Marks ∅ {lo - 4} h h' := by
  obtain ⟨lo', hi', hpre', hwin', hpost⟩ := hl.window rfl
  obtain rfl := hpre.end_eq hpre'
  obtain rfl := hwin.end_eq hwin'
  have hspan := hwin.span hne
  have hlo : 16 ≤ lo := hpre.le.1
  have hlo8 : lo % 8 = 0 := hpre.le.2 rfl
  have hs8 := hwin.le.2 hlo8
  have hbrk := hpost.le.1
  have hm := hl.inMemory
  have hw := hl.brk_lt
  have hout := hL.outside hfl hpre hpost
  have hless : Heap.less size adjusted h = .ok (size - adjusted, h) := Heap.less_apply hadj
  by_cases hrest : minBlock ≤ size - adjusted
  · simp only [minBlock] at hrest
    obtain ⟨h₁, r₁, e₁, t₁, hh₁, hf₁⟩ := Heap.setTag_apply (h := h) lo
      (Tag.allocated adjusted) (by simp [Tag.allocated]; omega) (by omega)
      (by simp [Tag.allocated]; omega) hm (by simp [Tag.allocated]; omega)
    have rnext : Heap.nextBlock lo h₁ = .ok (lo + adjusted, h₁) :=
      Heap.nextBlock_of_tag (by omega) hh₁ (by simpa [Tag.allocated])
        (by simp only [Tag.allocated, Allocator.addressable]; omega)
    obtain ⟨h₂, r₂, e₂, t₂, hh₂, hf₂⟩ := Heap.setTag_apply (h := h₁) (lo + adjusted)
      (Tag.free (size - adjusted)) (by simp [Tag.free]; omega) (by omega)
      (by simp [Tag.free, e₁.brk]; omega) (by rw [e₁.brk, e₁.size]; exact hm)
      (by simp [Tag.free]; omega)
    set a : BlockInfo := ⟨lo, adjusted, .allocated⟩
    set r : BlockInfo := ⟨lo + adjusted, size - adjusted, .free⟩
    have ha : a.ptr = lo ∧ a.size = adjusted := ⟨rfl, rfl⟩
    have hr : r.ptr = lo + adjusted ∧ r.size = size - adjusted := ⟨rfl, rfl⟩
    have e₁₂ := e₁.trans e₂
    have hS : ∀ j ∈ Heap.tagWords lo (Tag.allocated adjusted).size ∪
        Heap.tagWords (lo + adjusted) (Tag.free (size - adjusted)).size,
        lo - 4 ≤ j ∧ j < lo + size - 4 := fun j hj => by
      simp only [Heap.tagWords, Tag.allocated, Tag.free, Set.mem_union, Set.mem_Ico] at hj
      omega
    have hl₂ : Layout h₂.arena (pre ++ a :: r :: post) := by
      have := hl.retile [a, r] hpre hwin e₁₂ hS
        (run_cons.mpr ⟨rfl, by simp [minBlock, a]; omega, by simpa [a],
          by rw [e₂.word?_of_apart fun j hj => by
              simp only [Heap.tagWords, Tag.free, Set.mem_union, Set.mem_Ico] at hj; omega]
             exact hh₁,
          by rw [e₂.word?_of_apart fun j hj => by
              simp only [Heap.tagWords, Tag.free, Set.mem_union, Set.mem_Ico] at hj; omega]
             exact hf₁,
          run_singleton.mpr ⟨rfl, by simp [minBlock, r]; omega, by simp [r]; omega, hh₂, hf₂,
            by simp [r]; omega⟩⟩)
      simpa using this
    have hL₂ : Listed h₂ (pre ++ a :: r :: post) fl := by
      simpa using hL.retile [a, r] hl hfl hpre hwin e₁₂ hS (t₂.trans t₁)
    have hrnew : r ∉ fl := fun hr' => by
      obtain ⟨-, hside⟩ := hout r hr'
      omega
    obtain ⟨h₃, r₃, e₃, hl₃, hL₃, m₃⟩ := insert_apply hl₂ hL₂ (b := r) (by simp) rfl hrnew
    have m₁ := e₁.marks_of_tag hlo8 (by simpa [Tag.allocated]) (by simp [Tag.allocated]; omega)
      hh₁
    have m₂ := e₂.marks_of_tag (by omega) (by simp [Tag.free]; omega)
      (by simp [Tag.free]; omega) hh₂
    refine ⟨h₃, a, [r], ?_, ⟨hl₃, hL₃, fun c hc hcf => ?_, ?_⟩,
      by rw [Carved, if_pos (by simpa [minBlock] using hrest)]; exact ⟨rfl, rfl⟩,
      (e₁₂.trans e₃).mono fun j hj => ?_,
      ((m₁.trans m₂).trans m₃).mono (Set.empty_subset _) fun j _ hj => ?_⟩
    · unfold Heap.split
      rw [Heap.bind_apply_ok hless, if_pos (by simpa [minBlock] using hrest),
        Heap.bind_apply_ok r₁, Heap.bind_apply_ok rnext, Heap.bind_apply_ok r₂]
      exact r₃
    · rw [List.foldr_cons, List.foldr_nil, List.mem_orderedInsert]
      simp only [List.singleton_append, List.mem_append, List.mem_cons] at hc
      rcases hc with hc | rfl | rfl | hc
      · exact .inr (hcomplete c (List.mem_append_left _ hc) hcf)
      · cases hcf
      · exact .inl rfl
      · exact .inr (hcomplete c (List.mem_append_right _ hc) hcf)
    · exact separated_of_allocated hsp
        ((hsq.cons fun y hy => .inr (hhead y hy)).cons fun y _ => .inl rfl) rfl
    · simp only [Set.mem_union, Heap.tagWords, Tag.allocated, Tag.free, Set.mem_Ico] at hj ⊢
      rcases hj with (hj | hj) | ⟨c, hc, hj1, hj2⟩
      · omega
      · omega
      · rcases List.mem_cons.mp hc with rfl | hc
        · omega
        · exact .inr ⟨c, hc, hj1, hj2⟩
    · rcases hj with (⟨rfl, -⟩ | ⟨-, hst⟩) | hj
      · rfl
      · cases hst
      · cases hj
  · set a : BlockInfo := ⟨lo, size, .allocated⟩
    obtain ⟨h₁, r₁, hl₁, hL₁, e₁, m₁⟩ := hl.setTag_window a hL hfl hpre hwin hne rfl
    refine ⟨h₁, a, [], ?_, ⟨hl₁, hL₁, fun c hc hcf => ?_, ?_⟩,
      by rw [Carved, if_neg hrest]; exact ⟨rfl, rfl⟩, e₁.mono fun j hj => ?_,
      m₁.mono (Set.empty_subset _) fun j _ hj => hj.1⟩
    · unfold Heap.split
      rw [Heap.bind_apply_ok hless, if_neg hrest]
      exact r₁
    · simp only [List.mem_append, List.mem_cons, List.not_mem_nil, false_or] at hc
      rcases hc with hc | rfl | hc
      · exact hcomplete c (List.mem_append_left _ hc) hcf
      · cases hcf
      · exact hcomplete c (List.mem_append_right _ hc) hcf
    · exact separated_of_allocated hsp (hsq.cons fun y _ => .inl rfl) rfl
    · have ha : a.size = size := rfl
      simp only [Heap.tagWords, Set.mem_union, Set.mem_Ico] at hj ⊢
      omega

/-- Placing a request of `adjusted` bytes in a listed free block: the block leaves the list
and is carved for the request, its start becoming an allocated block and the rest of it a
free block listed in size order when it can hold one. Only the block's bytes and link words of listed
blocks change. -/
theorem place_apply {pre post fl : List BlockInfo} {b : BlockInfo} {adjusted : Nat}
    (hs : Shape h (pre ++ b :: post) fl) (hb : b ∈ fl) (h16 : 16 ≤ adjusted)
    (h8 : adjusted % 8 = 0) (hadj : adjusted ≤ b.size) :
    ∃ h' a rs, Heap.place b.ptr adjusted h = .ok ((), h') ∧
      Shape h' (pre ++ a :: (rs ++ post))
        (rs.foldr (List.orderedInsert BlockInfo.SizeLE) (fl.erase b)) ∧
      Carved b.ptr b.size adjusted a rs ∧
      Heap.Edits (Set.Ico (b.ptr - 4) (b.ptr + b.size - 4) ∪ linkWords fl) h h' ∧
      Heap.Marks ∅ {b.ptr - 4} h h' := by
  have hl := hs.layout
  have hbf := (hs.listed.free b hb).2
  obtain ⟨h₁, r₁, e₁, hL₁, m₁⟩ := remove_apply hl hs.listed hb
  have hl₁ := hl.of_edits e₁ fun j hj => hs.listed.linkWords_payload hl j
    (linkWords_mono (fun _ => List.mem_of_mem_erase) hj)
  have rtag := hl₁.tagAt_apply (c := b) (by simp)
  have hl₁' : Layout h₁.arena (pre ++ [b] ++ post) := by simpa using hl₁
  obtain ⟨lo, hi, hrp, hrw, -⟩ := hl₁'.window rfl
  obtain rfl : b.ptr = lo := hrw.head_ptr b rfl
  obtain rfl : hi = b.ptr + b.tag.size := by rw [hrw.end_eq_sum]; simp
  have hnd := hl.nodup
  rw [List.nodup_middle, List.nodup_cons] at hnd
  have hsep := hs.separated
  obtain ⟨h', a, rs, r₂, hs', hcarve, e₂, m₂⟩ := split_apply hl₁' hrp hrw
    (by simp) (by simpa using hL₁)
    (fun c hc hcb => by
      rw [List.mem_singleton] at hcb
      subst hcb
      exact hs.listed.nodup.not_mem_erase hc)
    (fun c hc hcf => (hs.listed.nodup.mem_erase_iff).mpr
      ⟨fun e => hnd.1 (by rw [← e]; exact hc), hs.complete c (by
        simp only [List.mem_append, List.mem_cons] at hc ⊢; tauto) hcf⟩)
    hsep.left_of_append (List.isChain_cons.mp hsep.right_of_append).2
    (fun c hc => ((List.isChain_cons.mp hsep.right_of_append).1 c hc).resolve_left
      (by simp [hbf]))
    h16 h8 hadj
  have hsum := hcarve.sum (by simpa using hadj)
  have hadj' := hcarve.le_size (by simpa using hadj)
  refine ⟨h', a, rs, ?_, hs', by simpa using hcarve, (e₁.trans e₂).mono ?_,
    by simpa using m₁.trans m₂⟩
  · unfold Heap.place
    rw [Heap.bind_apply_ok r₁, Heap.bind_apply_ok rtag]
    exact r₂
  · have := hs.listed.ptr_facts hl hb
    simp only [BlockInfo.tag_size] at *
    rintro j (hj | (hj | hj) | ⟨c, hc, hj⟩)
    · exact .inr (linkWords_mono (fun _ => List.mem_of_mem_erase) hj)
    · simp only [Set.mem_Ico] at hj ⊢; exact .inl ⟨by omega, by omega⟩
    · simp only [Set.mem_Ico] at hj ⊢; exact .inl ⟨by omega, by omega⟩
    · exact .inr ⟨c, List.mem_of_mem_erase hc, hj⟩

end Allocator
