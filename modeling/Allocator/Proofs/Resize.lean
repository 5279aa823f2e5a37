import Allocator.Proofs.Acquire

/-! Resizing an allocated block of a heap of the invariant. A block that must grow takes in
the free block after it when that suffices (`absorb_apply`); a block that ends at the
epilogue, directly or through one free block, grows the arena and takes in the new space
(`extend_after`); otherwise the contents move to a newly acquired block and the old block is
released. Each way keeps the invariant, the other allocated blocks with their payloads, and
the bytes the caller had in the block. -/
namespace Allocator

variable {h : Heap} {fl : List BlockInfo} {pre post : List BlockInfo} {b : BlockInfo}
  {adjusted : Nat}

/-- An allocated block takes in the free block `n` after it: `n` leaves the list, and the
two are carved for `adjusted` bytes, an allocated block where `b` was and the rest free and
listed when it can hold a block. Only the header, the bytes from the new footer to the end of
`n` and link words of listed blocks change. -/
theorem absorb_apply {n : BlockInfo} {rest : List BlockInfo}
    (hs : Shape h (pre ++ b :: n :: rest) fl) (hba : b.state = .allocated) (hn : n ∈ fl)
    (h16 : minBlock ≤ adjusted) (h8 : adjusted % 8 = 0) (hadj : adjusted ≤ b.size + n.size) :
    ∃ h₁ h' a rs fl', Heap.remove n.ptr h = .ok ((), h₁) ∧ Heap.tagAt n.ptr h₁ = .ok (n.tag, h₁) ∧
      Heap.split b.ptr (b.size + n.size) adjusted h₁ = .ok ((), h') ∧
      Shape h' (pre ++ a :: (rs ++ rest)) fl' ∧ Carved b.ptr (b.size + n.size) adjusted a rs ∧
      Heap.Edits (Set.Ico (b.ptr - 4) b.ptr ∪ Set.Ico (b.ptr + a.size - 8) (n.ptr + n.size - 4) ∪
        linkWords fl) h h' ∧ Heap.Marks ∅ {b.ptr - 4} h h' := by
  have hl := hs.layout
  have hnf := (hs.listed.free n hn).2
  obtain ⟨h₁, r₁, e₁, hL₁, m₁⟩ := remove_apply hl hs.listed hn
  have hl₁ := hl.of_edits e₁ fun j hj => hs.listed.linkWords_payload hl j
    (linkWords_mono (fun _ => List.mem_of_mem_erase) hj)
  have hl₁' : Layout h₁.arena (pre ++ [b, n] ++ rest) := by simpa using hl₁
  obtain ⟨lo, hi, hrp, hrw, -⟩ := hl₁'.window rfl
  obtain rfl : b.ptr = lo := hrw.head_ptr b rfl
  obtain rfl : hi = b.ptr + (b.size + n.size) := by rw [hrw.end_eq_sum]; simp
  have hnp : n.ptr = b.ptr + b.size := (run_cons.mp hrw).2.2.2.2.2.head_ptr n rfl
  have hnd := hl.nodup
  have hsep := hs.separated
  have hsep' : (pre ++ [b, n] ++ rest).IsChain BlockInfo.Separated := by simpa using hsep
  obtain ⟨h', a, rs, r₂, hs', hcarve, e₂, m₂⟩ := split_apply hl₁' hrp hrw
    (by simp) (by simpa using hL₁)
    (fun c hc hcw => by
      simp only [List.mem_cons, List.not_mem_nil, or_false] at hcw
      rcases hcw with rfl | rfl
      · rw [(hs.listed.free c (List.mem_of_mem_erase hc)).2] at hba; cases hba
      · exact hs.listed.nodup.not_mem_erase hc)
    (fun c hc hcf => (hs.listed.nodup.mem_erase_iff).mpr
      ⟨fun e => by
        subst e
        rw [List.nodup_middle, List.nodup_cons, List.nodup_middle, List.nodup_cons] at hnd
        simp only [List.mem_append] at hc
        exact hnd.2.1 (by simpa using hc),
        hs.complete c (by simp only [List.mem_append, List.mem_cons] at hc ⊢; tauto) hcf⟩)
    hsep'.left_of_append.left_of_append hsep'.right_of_append
    (fun c hc => by
      have := (List.isChain_cons.mp (List.isChain_cons.mp hsep.right_of_append).2).1 c hc
      exact this.resolve_left (by simp [hnf]))
    h16 h8 hadj
  refine ⟨h₁, h', a, rs, _, r₁, hl₁.tagAt_apply (by simp), r₂, by simpa using hs', hcarve,
    (e₁.trans e₂).mono ?_, by simpa using m₁.trans m₂⟩
  have := (hl.mem (b := n) (by simp)).2.2.2.1
  have hadj' := hcarve.le_size hadj
  rintro j (hj | (hj | hj) | ⟨c, hc, hj⟩)
  · exact .inr (linkWords_mono (fun _ => List.mem_of_mem_erase) hj)
  · exact .inl (.inl hj)
  · simp only [Set.mem_Ico] at hj ⊢
    exact .inl (.inr ⟨hj.1, by omega⟩)
  · exact .inr ⟨c, List.mem_of_mem_erase hc, hj⟩

/-- Growing the arena when the allocated block `b` ends at the epilogue, directly or through
one free block: a granted growth makes the space after `b` one free listed block, the last
of the layout, that starts where `b` ends. -/
theorem extend_after (hs : Shape h (pre ++ b :: post) fl) (hb : h.arena.Backed)
    (hba : b.state = .allocated) (hpost : post = [] ∨ ∃ n, post = [n] ∧ n.state = .free)
    {size : Nat} (h16 : 16 ≤ size) (h8 : size % 8 = 0) :
    (∃ e h', Heap.run (Heap.extend size) h = .ok (.error e, h') ∧ h.Refused h') ∨
    ∃ h' m fl', Heap.run (Heap.extend size) h = .ok (.ok m.ptr, h') ∧
      m.ptr = b.ptr + b.size ∧ m.size = (post.map (·.size)).sum + size ∧ m.state = .free ∧
      m ∈ fl' ∧ Shape h' (pre ++ b :: [m]) fl' ∧ h'.arena.Backed ∧
      h'.arena.brk = h.arena.brk + size ∧ Heap.Fixed h h' ∧
      Heap.Keeps (Set.Ico (m.ptr - 4) h'.arena.brk ∪ linkWords fl) h h' ∧
      Heap.Marks {h.arena.brk - 4} {h'.arena.brk - 4} h h' := by
  rcases extend_apply hs hb h16 h8 with ⟨e, h', re⟩ | ⟨h', pre', m, fl', re, hs', hmerge, hb',
    hbrk, hfix, -, k, mk⟩
  · exact .inl ⟨e, h', re, (extend_refused re).1⟩
  refine .inr ⟨h', m, fl', re, ?_⟩
  obtain ⟨pw, nw, hwin, hnw, hpw, -, hfree, hstart, hsize⟩ := hmerge.window
  obtain rfl : nw = [] := by simpa using hnw.symm
  have hbefore := hmerge.before
  have hl := hs.layout
  obtain ⟨rfl, rfl⟩ : pre' = pre ++ [b] ∧ pw = post := by
    rcases pw with _ | ⟨x, _ | ⟨y, pw⟩⟩
    · rcases hpost with rfl | ⟨n, rfl, hnf⟩
      · simpa using hwin.symm
      · rw [List.append_nil] at hwin
        have := hbefore n (by rw [← hwin]; simp)
        rw [hnf] at this
        cases this
    · rcases hpost with rfl | ⟨n, rfl, hnf⟩
      · obtain ⟨-, hx⟩ := List.append_inj' (show pre ++ [b] = pre' ++ [x] from hwin) rfl
        simp only [List.cons.injEq, and_true] at hx
        rw [hx, hfree x (by simp)] at hba
        cases hba
      · obtain ⟨hp, hx⟩ := List.append_inj'
          (show (pre ++ [b]) ++ [n] = pre' ++ [x] by rw [List.append_assoc]; exact hwin) rfl
        exact ⟨hp.symm, hx.symm⟩
    · simp at hpw
  have hend : b.ptr + b.size + (pw.map (·.size)).sum = h.arena.brk := by
    have := (hl.around (show _ = pre ++ b :: pw from rfl)).2.end_eq_sum
    omega
  have hm : m ∈ pre ++ [b] ++ [m] := by simp
  have hstart' : m.ptr + (pw.map (·.size)).sum = h.arena.brk := hstart
  refine ⟨by omega, by simpa using hsize, hmerge.free, hs'.complete m hm hmerge.free,
    by simpa using hs', hb', hbrk, hfix, k, mk⟩

/-- Taking in the free block after an allocated block, as a served request: the other
allocated blocks stay with their payloads, the block keeps its payload bytes, and only its
own header can be a new mark. -/
private theorem absorb_served {n : BlockInfo} {rest : List BlockInfo}
    (hs : Shape h (pre ++ b :: n :: rest) fl) (hb : h.arena.Backed) (hba : b.state = .allocated)
    (hn : n ∈ fl) (h8 : adjusted % 8 = 0) (hlt : b.size < adjusted)
    (hadj : adjusted ≤ b.size + n.size) :
    ∃ h₁ h' a rs, Heap.remove n.ptr h = .ok ((), h₁) ∧ Heap.tagAt n.ptr h₁ = .ok (n.tag, h₁) ∧
      Heap.split b.ptr (b.size + n.size) adjusted h₁ = .ok ((), h') ∧
      Heap.Served h (pre ++ n :: rest) ∅ {b.ptr - 4} h' (pre ++ a :: (rs ++ rest)) ∧
      h'.arena.brk = h.arena.brk ∧ Carved b.ptr (b.size + n.size) adjusted a rs ∧
      ∀ j, b.ptr ≤ j → j < b.ptr + b.size - 8 → h'.arena.memory[j]? = h.arena.memory[j]? := by
  have hl := hs.layout
  have hbm : b ∈ pre ++ b :: n :: rest := by simp
  have hnm : n ∈ pre ++ b :: n :: rest := by simp
  have hnf := (hs.listed.free n hn).2
  have hb16 := (hl.mem hbm).2.2.2.1
  obtain ⟨h₁, h', a, rs, fl', r₁, rt, r₂, hs', hcarve, e, m⟩ :=
    absorb_apply hs hba hn (by simp only [minBlock]; omega) h8 hadj
  have hadj' := hcarve.le_size hadj
  have hnp : n.ptr = b.ptr + b.size := by
    have := (hl.around (show _ = pre ++ b :: n :: rest from rfl)).2.head_ptr n rfl
    exact this
  have apart : ∀ c ∈ pre ++ b :: n :: rest, c.state = .allocated → c ≠ b →
      ∀ j, c.ptr ≤ j → j < c.ptr + c.size - 8 → j ∉ Set.Ico (b.ptr - 4) b.ptr ∪
        Set.Ico (b.ptr + a.size - 8) (n.ptr + n.size - 4) ∪ linkWords fl := by
    intro c hc hca hcb j h1 h2
    obtain ⟨hap, hlink⟩ := hs.payload_apart hc hca h1 h2
    have hcn : n ≠ c := fun e => by rw [← e, hnf] at hca; cases hca
    have := hap b hbm (Ne.symm hcb)
    have := hap n hnm hcn
    simp only [Set.mem_union, Set.mem_Ico, not_or]
    exact ⟨⟨by omega, by omega⟩, hlink⟩
  refine ⟨h₁, h', a, rs, r₁, rt, r₂, ⟨⟨fl', hs'⟩, e.backed hb, e.fixed, m,
    Heap.Keeps.persists hl e.keeps fun c hc hca => ⟨?_, ?_, apart c ?_ hca ?_⟩⟩, e.brk, hcarve,
    fun j h1 h2 => e.bytes j ?_⟩
  · simp only [List.mem_append, List.mem_cons] at hc ⊢; tauto
  · simp only [List.mem_append, List.mem_cons] at hc ⊢
    rcases hc with hc | rfl | hc
    · exact .inl hc
    · rw [hnf] at hca; cases hca
    · exact .inr (.inr (.inr hc))
  · simp only [List.mem_append, List.mem_cons] at hc ⊢; tauto
  · rintro rfl
    have hnd := hl.nodup
    rw [List.nodup_middle, List.nodup_cons] at hnd
    simp only [List.mem_append, List.mem_cons] at hc
    rcases hc with hc | rfl | hc
    · exact hnd.1 (List.mem_append_left _ hc)
    · rw [hnf] at hca; cases hca
    · exact hnd.1 (List.mem_append_right _ (List.mem_cons_of_mem _ hc))
  · have := (hs.payload_apart hbm hba h1 h2).2
    simp only [Set.mem_union, Set.mem_Ico, not_or]
    exact ⟨⟨by omega, by omega⟩, this⟩

/-- Growing the arena behind an allocated block that ends at the epilogue, directly or through
one free block, and taking in the new space, as a served request: the old epilogue's mark is
cleared, and only the block's header and the new epilogue can be new marks. -/
private theorem extend_served (hs : Shape h (pre ++ b :: post) fl) (hb : h.arena.Backed)
    (hba : b.state = .allocated) (hpost : post = [] ∨ ∃ n, post = [n] ∧ n.state = .free)
    (size : Nat) (h16 : 16 ≤ size) (h8s : size % 8 = 0) (h8 : adjusted % 8 = 0)
    (hlt : b.size < adjusted) (hadj : adjusted ≤ b.size + (post.map (·.size)).sum + size) :
    (∃ e h', Heap.run (Heap.extend size) h = .ok (.error e, h') ∧ h.Refused h') ∨
    ∃ (h₁ h₂ h' : Heap) (m a : BlockInfo) (rs : List BlockInfo),
      Heap.run (Heap.extend size) h = .ok (.ok m.ptr, h₁) ∧ m.ptr = b.ptr + b.size ∧
      Heap.remove m.ptr h₁ = .ok ((), h₂) ∧ Heap.tagAt m.ptr h₂ = .ok (m.tag, h₂) ∧
      Heap.split b.ptr (b.size + m.size) adjusted h₂ = .ok ((), h') ∧
      Heap.Served h (pre ++ post) {h.arena.brk - 4} {b.ptr - 4, h'.arena.brk - 4} h'
        (pre ++ a :: rs) ∧
      h'.arena.brk = h.arena.brk + size ∧
      Carved b.ptr (b.size + (post.map (·.size)).sum + size) adjusted a rs ∧
      ∀ j, b.ptr ≤ j → j < b.ptr + b.size - 8 → h'.arena.memory[j]? = h.arena.memory[j]? := by
  rcases extend_after hs hb hba hpost h16 h8s with he | ⟨h₁, m, fl₁, re, hmp, hms, -, hm₁, hs₁,
    hb₁, hbrk₁, hfix₁, k₁, mk₁⟩
  · exact .inl he
  obtain ⟨h₂, h', a, rs, r₂, rt, r₃, ⟨hs', hb', hfix', m₂, p₂⟩, hbrk', hcarve, hkeep⟩ :=
    absorb_served hs₁ hb₁ hba hm₁ h8 hlt (by omega)
  rw [List.append_nil] at hs' p₂
  have hl := hs.layout
  have hbm : b ∈ pre ++ b :: post := by simp
  have before : ∀ c ∈ pre ++ b :: post, c.state = .allocated → c ∈ pre ++ [b] →
      ∀ j, c.ptr ≤ j → j < c.ptr + c.size - 8 →
        j ∉ Set.Ico (m.ptr - 4) h₁.arena.brk ∪ linkWords fl := by
    intro c hc hca hcb j h1 h2
    have hend : c.ptr + c.size ≤ b.ptr + b.size := by
      rcases List.mem_append.mp hcb with hcp | hcb
      · have := (List.pairwise_append.mp hl.run.sorted).2.2 c hcp b (by simp)
        have := (hl.mem hbm).2.2.2.1
        omega
      · rw [List.mem_singleton.mp hcb]
    simp only [Set.mem_union, Set.mem_Ico, not_or]
    exact ⟨by omega, (hs.payload_apart hc hca h1 h2).2⟩
  refine .inr ⟨h₁, h₂, h', m, a, rs, re, hmp, r₂, rt, r₃,
    ⟨hs', hb', hfix₁.trans hfix', ?_, ?_⟩, by rw [hbrk', hbrk₁],
    by rwa [hms, ← Nat.add_assoc] at hcarve, fun j h1 h2 => ?_⟩
  · rw [hbrk']
    refine (mk₁.trans m₂).mono (by simp) fun j _ hj => ?_
    simp only [Set.mem_union, Set.mem_singleton_iff] at hj
    simp only [Set.mem_insert_iff, Set.mem_singleton_iff]
    tauto
  · refine (Heap.Keeps.persists hl k₁ fun c hc hca => ?_).trans p₂
    have hcpre : c ∈ pre := by
      rcases List.mem_append.mp hc with hc | hc
      · exact hc
      · rcases hpost with rfl | ⟨n, rfl, hnf⟩
        · cases hc
        · rw [List.mem_singleton.mp hc, hnf] at hca; cases hca
    exact ⟨by simp [hcpre], by simp [hcpre],
      before c (by simp [hcpre]) hca (List.mem_append_left _ hcpre)⟩
  · rw [hkeep j h1 h2]
    exact k₁ j (by have := (hl.mem hbm).2.1; omega) (before b hbm hba (by simp) j h1 h2)

/-- What follows an allocated block that must grow to `adjusted` bytes: a free block that
makes up the difference; the end of the arena, directly or through a free block too small;
or a block that stops growth in place, an allocated one or one after a free block too
small. -/
theorem growth_room (post : List BlockInfo) {size : Nat} (hlt : size < adjusted) :
    (∃ s rest, post = s :: rest ∧ s.state = .free ∧ adjusted ≤ size + s.size) ∨
    ((post = [] ∨ ∃ s, post = [s] ∧ s.state = .free) ∧
      size + (post.map (·.size)).sum < adjusted) ∨
    (∃ s rest, post = s :: rest ∧ s.state = .allocated) ∨
    ∃ s t rest, post = s :: t :: rest ∧ s.state = .free ∧ size + s.size < adjusted := by
  rcases post with _ | ⟨s, rest⟩
  · exact .inr (.inl ⟨.inl rfl, by simpa using hlt⟩)
  cases hs : s.state with
  | allocated => exact .inr (.inr (.inl ⟨s, rest, rfl, hs⟩))
  | free =>
    by_cases hfit : adjusted ≤ size + s.size
    · exact .inl ⟨s, rest, rfl, hs, hfit⟩
    rcases rest with _ | ⟨t, rest⟩
    · have hshort : size + ([s].map (·.size)).sum < adjusted := by simp; omega
      exact .inr (.inl ⟨.inr ⟨s, rfl, hs⟩, hshort⟩)
    · exact .inr (.inr (.inr ⟨s, t, rest, rfl, hs, by omega⟩))

/-- Growing in place when the free block after `b` makes up the difference: that block leaves
the list, and the two are carved for `adjusted` bytes where `b` stands, with the break as it
was. The other allocated blocks stay with their payloads, `b` keeps its payload bytes, and
only `b`'s header and the epilogue can be new marks. -/
theorem growInPlace_absorbs {s : BlockInfo} {rest : List BlockInfo}
    (hs : Shape h (pre ++ b :: s :: rest) fl) (hb : h.arena.Backed) (hba : b.state = .allocated)
    (hsf : s.state = .free) (h8 : adjusted % 8 = 0) (hlt : b.size < adjusted)
    (hadj : adjusted ≤ b.size + s.size) :
    ∃ h' a rs, Heap.run (Heap.growInPlace b.ptr b.size adjusted) h = .ok (.ok true, h') ∧
      Heap.Served h (pre ++ s :: rest) {h.arena.brk - 4} {b.ptr - 4, h'.arena.brk - 4} h'
        (pre ++ a :: (rs ++ rest)) ∧
      h'.arena.brk = h.arena.brk ∧ Carved b.ptr (b.size + s.size) adjusted a rs ∧
      ∀ j, b.ptr ≤ j → j < b.ptr + b.size - 8 → h'.arena.memory[j]? = h.arena.memory[j]? := by
  have hl := hs.layout
  have hsm : s ∈ pre ++ b :: s :: rest := by simp
  have hsp : s.ptr = b.ptr + b.size := (hl.around rfl).2.head_ptr s rfl
  obtain ⟨h₁, h', a, rs, r₁, -, r₂, ⟨hs', hb', hfix', m, p⟩, hbrk, hcarve, hk⟩ :=
    absorb_served hs hb hba (hs.complete s hsm hsf) h8 hlt hadj
  refine ⟨h', a, rs, ?_, ⟨hs', hb', hfix', m.keep_epilogue hbrk, p⟩, hbrk, hcarve, hk⟩
  unfold Heap.growInPlace
  rw [Heap.run_lift_bind (hl.nextBlock_apply (by simp)), ← hsp,
    Heap.run_lift_bind (hl.tagAt_apply hsm)]
  simp only [BlockInfo.tag, Tag.isFree, hsf, beq_self_eq_true, true_and, if_true]
  rw [if_pos hadj, Heap.run_lift_bind r₁, Heap.run_bind_ok (Heap.run_pure _ _),
    Heap.run_lift_bind r₂]
  rfl

/-- Growing in place when `b` ends at the epilogue, directly or through a free block too small
to make up the difference: the arena is asked for `size`, the shortfall or a chunk, whichever
is more. A refusal is the growth's own, with nothing changed but the count of attempts. A
granted growth is taken in, and `b` with the space after it is carved for `adjusted` bytes;
the other allocated blocks stay with their payloads, `b` keeps its payload bytes, and only
`b`'s header and the new epilogue can be new marks. -/
theorem growInPlace_extends (hs : Shape h (pre ++ b :: post) fl) (hb : h.arena.Backed)
    (hc : h.config.BlockGrowth) (hba : b.state = .allocated)
    (hpost : post = [] ∨ ∃ s, post = [s] ∧ s.state = .free) (h8 : adjusted % 8 = 0)
    (hshort : b.size + (post.map (·.size)).sum < adjusted) {size : Nat}
    (hsize : size = max (adjusted - (b.size + (post.map (·.size)).sum)) h.config.chunkSize) :
    (∃ e h', Heap.run (Heap.extend size) h = .ok (.error e, h') ∧
      Heap.run (Heap.growInPlace b.ptr b.size adjusted) h = .ok (.error e, h') ∧
      h.Refused h') ∨
    ∃ h' a rs, (∃ m h₁, Heap.run (Heap.extend size) h = .ok (.ok m, h₁)) ∧
      Heap.run (Heap.growInPlace b.ptr b.size adjusted) h = .ok (.ok true, h') ∧
      Heap.Served h (pre ++ post) {h.arena.brk - 4} {b.ptr - 4, h'.arena.brk - 4} h'
        (pre ++ a :: rs) ∧
      h'.arena.brk = h.arena.brk + size ∧
      Carved b.ptr (b.size + (post.map (·.size)).sum + size) adjusted a rs ∧
      ∀ j, b.ptr ≤ j → j < b.ptr + b.size - 8 → h'.arena.memory[j]? = h.arena.memory[j]? := by
  have hl := hs.layout
  have hbm : b ∈ pre ++ b :: post := by simp
  obtain ⟨hb1, hb2, -, hb16, hb8, -⟩ := hl.mem hbm
  have hchunk := hc.chunk
  have hchunk8 := hc.chunk_mod
  simp only [minBlock] at hchunk
  have hgrow := fun h16 h8s hlt hadj => extend_served hs hb hba hpost size h16 h8s h8 hlt hadj
  have hep : Tag.unpack (Tag.allocated 0).pack = Tag.allocated 0 :=
    unpack_pack_of_le (by simp [Tag.allocated]) (by simp [Tag.allocated])
  unfold Heap.growInPlace
  rw [Heap.run_lift_bind (hl.nextBlock_apply hbm)]
  rcases hpost with rfl | ⟨s, rfl, hsf⟩
  · obtain ⟨-, hend, hw⟩ | ⟨_, _, hne, -⟩ := hl.next_header rfl
    swap
    · cases hne
    simp only [List.map_nil, List.sum_nil, Nat.add_zero] at hsize hshort hgrow ⊢
    specialize hgrow (by omega) (by omega) (by omega) (by omega)
    rw [Heap.run_lift_bind (Heap.tagAt_apply (by omega) hw), hep]
    simp only [Tag.allocated, Tag.isFree, beq_iff_eq, reduceCtorEq, false_and, if_false]
    rw [Heap.run_bind_ok (Heap.run_pure _ _), Heap.run_lift_bind (Heap.tagAt_apply (by omega) hw),
      hep]
    simp only [Tag.allocated, ne_eq, not_true_eq_false, if_false]
    rw [Heap.run_lift_bind (Heap.less_apply hshort.le), Heap.run_bind_ok (Heap.run_get _),
      ← hsize]
    rcases hgrow with ⟨e, h', re, hr⟩ | ⟨h₁, h₂, h', m, a, rs, re, hmp, r₂, rt, r₃, hsv, hbrk,
      hcarve, hk⟩
    · exact .inl ⟨e, h', re, Heap.run_bind_error re, hr⟩
    refine .inr ⟨h', a, rs, ⟨_, _, re⟩, ?_, by simpa using hsv, hbrk, hcarve, hk⟩
    rw [Heap.run_bind_ok re, if_neg (not_not_intro hmp), Heap.run_lift_bind r₂,
      Heap.run_lift_bind rt, Heap.run_bind_ok (Heap.run_pure _ _), BlockInfo.tag_size,
      Heap.run_lift_bind r₃]
    rfl
  · have hsm : s ∈ pre ++ b :: [s] := by simp
    have hsp : s.ptr = b.ptr + b.size := (hl.around rfl).2.head_ptr s rfl
    obtain ⟨-, hend, hw⟩ | ⟨_, _, hne, -⟩ :=
      hl.next_header (show pre ++ b :: [s] = (pre ++ [b]) ++ s :: [] by simp)
    swap
    · cases hne
    have hs8 := (hl.mem hsm).2.2.2.2.1
    simp only [List.map_cons, List.map_nil, List.sum_cons, List.sum_nil, Nat.add_zero] at *
    specialize hgrow (by omega) (by omega) (by omega) (by omega)
    rw [← hsp, Heap.run_lift_bind (hl.tagAt_apply hsm)]
    simp only [BlockInfo.tag, Tag.isFree, hsf, beq_self_eq_true, true_and, if_true]
    rw [if_neg (by omega), Heap.run_lift_bind (hl.nextBlock_apply hsm),
      Heap.run_lift_bind (Heap.tagAt_apply (by omega) hw), hep]
    simp only [Tag.allocated, ne_eq, not_true_eq_false, if_false]
    rw [Heap.run_lift_bind (Heap.less_apply hshort.le), Heap.run_bind_ok (Heap.run_get _),
      ← hsize]
    rcases hgrow with ⟨e, h', re, hr⟩ | ⟨h₁, h₂, h', m, a, rs, re, hmp, r₂, rt, r₃, hsv, hbrk,
      hcarve, hk⟩
    · exact .inl ⟨e, h', re, Heap.run_bind_error re, hr⟩
    refine .inr ⟨h', a, rs, ⟨_, _, re⟩, ?_, hsv, hbrk, hcarve, fun j h1 h2 => hk j h1 (by omega)⟩
    rw [Heap.run_bind_ok re, if_neg (not_not_intro (hmp.trans hsp.symm)),
      Heap.run_lift_bind r₂, Heap.run_lift_bind rt, Heap.run_bind_ok (Heap.run_pure _ _),
      BlockInfo.tag_size, Heap.run_lift_bind r₃]
    rfl

/-- Growing in place answers false, with no change, when an allocated block follows `b`, or a
free block too small to make up the difference and then another block. -/
theorem growInPlace_blocked (hs : Shape h (pre ++ b :: post) fl)
    (hblocked : (∃ s rest, post = s :: rest ∧ s.state = .allocated) ∨
      ∃ s t rest, post = s :: t :: rest ∧ s.state = .free ∧ b.size + s.size < adjusted) :
    Heap.run (Heap.growInPlace b.ptr b.size adjusted) h = .ok (.ok false, h) := by
  have hl := hs.layout
  unfold Heap.growInPlace
  rw [Heap.run_lift_bind (hl.nextBlock_apply (by simp))]
  rcases hblocked with ⟨s, rest, rfl, hsa⟩ | ⟨s, t, rest, rfl, hsf, hav⟩
  · have hsm : s ∈ pre ++ b :: s :: rest := by simp
    have hsp : s.ptr = b.ptr + b.size := (hl.around rfl).2.head_ptr s rfl
    have := (hl.mem hsm).2.2.2.1
    rw [← hsp, Heap.run_lift_bind (hl.tagAt_apply hsm)]
    simp only [BlockInfo.tag, Tag.isFree, hsa, beq_iff_eq, reduceCtorEq, false_and, if_false]
    rw [Heap.run_bind_ok (Heap.run_pure _ _), Heap.run_lift_bind (hl.tagAt_apply hsm)]
    simp only [BlockInfo.tag_size, ne_eq, show s.size ≠ 0 by omega, not_false_eq_true, if_true]
    rfl
  · have hsm : s ∈ pre ++ b :: s :: t :: rest := by simp
    have htm : t ∈ pre ++ b :: s :: t :: rest := by simp
    have hsp : s.ptr = b.ptr + b.size := (hl.around rfl).2.head_ptr s rfl
    have htp : t.ptr = s.ptr + s.size :=
      (hl.around (show _ = (pre ++ [b]) ++ s :: t :: rest by simp)).2.head_ptr t rfl
    have := (hl.mem htm).2.2.2.1
    rw [← hsp, Heap.run_lift_bind (hl.tagAt_apply hsm)]
    simp only [BlockInfo.tag, Tag.isFree, hsf, beq_self_eq_true, true_and, if_true]
    rw [if_neg (by omega), Heap.run_lift_bind (hl.nextBlock_apply hsm), ← htp,
      Heap.run_lift_bind (hl.tagAt_apply htm)]
    simp only [BlockInfo.tag_size, ne_eq, show t.size ≠ 0 by omega, not_false_eq_true, if_true]
    rfl

/-- Growing an allocated block where it stands, on a heap of the invariant, never faults. It
fails, answering false or refused for want of memory, leaving the heap with nothing changed
but the count of attempts; or it answers true, and an allocated block of at least `adjusted`
bytes stands where the block stood, with the block's payload bytes; every other allocated
block stays with its payload, and only the block's header and the epilogue can be new
marks. -/
theorem growInPlace_apply (hs : Shape h (pre ++ b :: post) fl) (hb : h.arena.Backed)
    (hc : h.config.BlockGrowth) (hba : b.state = .allocated) (h8 : adjusted % 8 = 0)
    (hlt : b.size < adjusted) :
    (∃ h₁, h.Refused h₁ ∧
      (Heap.run (Heap.growInPlace b.ptr b.size adjusted) h = .ok (.ok false, h₁) ∨
        ∃ e, Heap.run (Heap.growInPlace b.ptr b.size adjusted) h = .ok (.error e, h₁))) ∨
    ∃ h' bs' a, Heap.run (Heap.growInPlace b.ptr b.size adjusted) h = .ok (.ok true, h') ∧
      Heap.Served h (pre ++ post) {h.arena.brk - 4} {b.ptr - 4, h'.arena.brk - 4} h' bs' ∧
      a ∈ bs' ∧ a.ptr = b.ptr ∧ a.state = .allocated ∧ adjusted ≤ a.size ∧
      ∀ j, b.ptr ≤ j → j < b.ptr + b.size - 8 → h'.arena.memory[j]? = h.arena.memory[j]? := by
  rcases growth_room post hlt with ⟨s, rest, rfl, hsf, hadj⟩ | ⟨hpost, hshort⟩ | hblocked |
    hblocked
  · obtain ⟨h', a, rs, rg, sv, -, hcarve, hk⟩ := growInPlace_absorbs hs hb hba hsf h8 hlt hadj
    exact .inr ⟨h', _, a, rg, sv, by simp, hcarve.ptr, hcarve.state, hcarve.le_size hadj, hk⟩
  · rcases growInPlace_extends hs hb hc hba hpost h8 hshort rfl with ⟨e, h₁, -, rg, hr⟩ |
      ⟨h', a, rs, -, rg, sv, -, hcarve, hk⟩
    · exact .inl ⟨h₁, hr, .inr ⟨e, rg⟩⟩
    · have := le_max_left (adjusted - (b.size + (post.map (·.size)).sum)) h.config.chunkSize
      exact .inr ⟨h', _, a, rg, sv, by simp, hcarve.ptr, hcarve.state,
        hcarve.le_size (by omega), hk⟩
  · exact .inl ⟨h, .refl h, .inl (growInPlace_blocked hs (.inl hblocked))⟩
  · exact .inl ⟨h, .refl h, .inl (growInPlace_blocked hs (.inr hblocked))⟩

/-- Moving a block: acquire a block for the request, copy the payload's first bytes into it,
and free the old block. The acquisition, run with the old block still allocated, alone can be
refused, for want of memory. Otherwise it answers a new allocated block of at least the
adjusted size, which receives the copied bytes; the old block is freed and merged with its
free neighbours; the other allocated blocks stay with their payloads; the old block's mark is
cleared, and new marks can stand only at the new header, the epilogue and the copied bytes. -/
private theorem relocate_apply (hs : Shape h (pre ++ b :: post) fl) (hb : h.arena.Backed)
    (hc : h.config.BlockGrowth) (hba : b.state = .allocated) {n : Nat} (hn : n ≠ 0)
    (ha : adjust n = some adjusted) :
    (∃ e h', Heap.run (Heap.acquire n) h = .ok (.error e, h') ∧ Heap.run (do
        let moved ← Heap.acquire n
        liftM (Heap.modifyArena fun x => x.move b.ptr (min (b.size - tagOverhead) n) moved.offset)
        liftM (Heap.freeBlock b.ptr b.size)
        liftM (Heap.count fun c =>
          { c with resizes := c.resizes + 1, relocations := c.relocations + 1 })
        pure (some moved)) h = .ok (.error e, h') ∧ h.Refused h' ∧
      ∃ k ae, e = .outOfMemory k ae) ∨
    ∃ h₂ h' a pre₂ post₂ pre' m post', Heap.run (Heap.acquire n) h = .ok (.ok ⟨a.ptr⟩, h₂) ∧
      Heap.run (do
        let moved ← Heap.acquire n
        liftM (Heap.modifyArena fun x => x.move b.ptr (min (b.size - tagOverhead) n) moved.offset)
        liftM (Heap.freeBlock b.ptr b.size)
        liftM (Heap.count fun c =>
          { c with resizes := c.resizes + 1, relocations := c.relocations + 1 })
        pure (some moved)) h = .ok (.ok (some ⟨a.ptr⟩), h') ∧
      a ∈ pre' ++ m :: post' ∧ a.state = .allocated ∧ adjusted ≤ a.size ∧ a.ptr ≠ b.ptr ∧
      Heap.Served h (pre ++ post) {h.arena.brk - 4, b.ptr - 4}
        ({a.ptr - 4, h'.arena.brk - 4} ∪ Set.Ico a.ptr (a.ptr + min (b.size - tagOverhead) n))
        h' (pre' ++ m :: post') ∧
      (∀ j < min (b.size - tagOverhead) n,
        h'.arena.memory[a.ptr + j]? = h.arena.memory[b.ptr + j]?) ∧
      h₂.blocks = pre₂ ++ b :: post₂ ∧ Merge pre₂ post₂ { b with state := .free } pre' post' m := by
  obtain ⟨-, -, hn8⟩ := adjust_eq_some ha
  simp only [tagOverhead] at hn8 ⊢
  rcases acquire_apply hs hb hc hn ha with ⟨e, h', re, hr, hk⟩ | ⟨h₂, bs₂, a, ra,
    ⟨⟨fl₂, hs₂⟩, hb₂, hfix₂, m₂, p₂⟩, ha₂, has, hsz, hne⟩
  · exact .inl ⟨e, h', re, Heap.run_bind_error re, hr, hk⟩
  refine .inr ?_
  obtain ⟨hb₂m, kb⟩ := p₂ b (by simp) hba
  have hab : b ≠ a := hne b (by simp) hba
  have hl₂ := hs₂.layout
  have hbend := (hl₂.mem hb₂m).2.1
  have haend := (hl₂.mem ha₂).2.1
  obtain ⟨h₃, rm, e₃, ht₃, hcopy⟩ := Heap.move_apply (h := h₂) b.ptr
    (min (b.size - 8) n) a.ptr (by omega) (by omega) hl₂.inMemory
  have hs₃ := hs₂.payload_edit ha₂ has e₃ ht₃ fun j hj => by
    simp only [Set.mem_Ico] at hj; omega
  obtain ⟨pre₂, post₂, hsplit⟩ := List.append_of_mem hb₂m
  rw [hsplit] at hs₃
  have ha₂' : a ∈ pre₂ ++ post₂ := mem_around_of_ne (hsplit ▸ ha₂) (Ne.symm hab)
  obtain ⟨h₄, pre', post', m, rf, ⟨⟨fl₄, hs₄⟩, hb₄, hfix₄, m₄, p₄⟩, hmerge, hbrk₄, -⟩ :=
    freeBlock_served hs₃ hba (e₃.backed hb₂)
  obtain ⟨ha₄, ka⟩ := p₄ a ha₂' has
  have hnd := hs.layout.nodup
  rw [List.nodup_middle, List.nodup_cons] at hnd
  have keep₂ : Heap.Persists h₂ (pre ++ post) h₃ bs₂ :=
    Heap.Keeps.persists hl₂ e₃.keeps fun c hc hca => by
      have hcb : c ∈ pre ++ b :: post := ((List.sublist_cons_self b post).append_left pre).subset hc
      have hc₂ := (p₂ c hcb hca).1
      refine ⟨hc₂, hc₂, fun j h1 h2 => ?_⟩
      have := (hs₂.payload_apart hc₂ hca h1 h2).1 a ha₂ (hne c hcb hca).symm
      simp only [Set.mem_Ico]
      omega
  have keep₃ : Heap.Persists h₃ (pre ++ post) h₄ (pre' ++ m :: post') := p₄.mono fun c hc hca => by
    have hcb : c ∈ pre ++ b :: post := ((List.sublist_cons_self b post).append_left pre).subset hc
    have hc₂ := (p₂ c hcb hca).1
    rw [hsplit] at hc₂
    exact mem_around_of_ne hc₂ fun e => hnd.1 (e ▸ hc)
  have sv : Heap.Served h (pre ++ post) {h.arena.brk - 4, b.ptr - 4}
      ({a.ptr - 4, h₄.arena.brk - 4} ∪ Set.Ico a.ptr (a.ptr + min (b.size - 8) n)) h₄ (pre' ++ m :: post') := by
    refine ⟨⟨fl₄, hs₄⟩, hb₄, hfix₂.trans (e₃.fixed.trans hfix₄),
      ((m₂.trans e₃.marks_within).trans m₄).mono ?_ fun j _ hj => ?_,
      ((p₂.mono fun c hc _ => ?_).then keep₂).then keep₃⟩
    · intro j hj
      simp only [Set.mem_insert_iff, Set.mem_singleton_iff] at hj
      simp only [Set.mem_union, Set.mem_singleton_iff, Set.mem_empty_iff_false, or_false]
      tauto
    · rw [hbrk₄, e₃.brk]
      simp only [Set.mem_union, Set.mem_insert_iff, Set.mem_singleton_iff,
        Set.mem_empty_iff_false, or_false] at hj ⊢
      tauto
    · simp only [List.mem_append, List.mem_cons] at hc ⊢; tauto
  let moved : Counters → Counters := fun c =>
    { c with resizes := c.resizes + 1, relocations := c.relocations + 1 }
  refine ⟨h₂, { h₄ with counters := moved h₄.counters }, a, pre₂, post₂, pre', m, post', ra, ?_,
    ha₄, has, hsz, fun e => hab (hl₂.ptr_inj hb₂m ha₂ e.symm), sv.count moved, fun j hj => ?_,
    by rw [hl₂.blocks_eq, hsplit], hmerge⟩
  · rw [Heap.run_bind_ok ra, Heap.run_lift_bind rm, Heap.run_lift_bind rf]
    exact Heap.run_lift_bind (Heap.count_apply _)
  · have := (hl₂.mem ha₂).2.2.2.1
    rw [ka (a.ptr + j) (by omega) (by omega), hcopy (a.ptr + j) (by omega) (by omega),
      show b.ptr + (a.ptr + j - a.ptr) = b.ptr + j by omega]
    exact kb (b.ptr + j) (by omega) (by omega)

theorem resize_invalid (hs : Shape h (pre ++ b :: post) fl) (hba : b.state = .allocated)
    {n : Nat} (hn : n ≠ 0) (ha : adjust n = none) :
    Heap.run (Heap.resize ⟨b.ptr⟩ n) h = .ok (.error (.invalidSize n), h) := by
  unfold Heap.resize
  rw [if_neg hn, Heap.run_bind_ok (Heap.run_live (hs.layout.liveTag_apply (by simp) hba)), ha]
  rfl

/-- A resize to a nonzero size of a block large enough already answers the block, with
nothing changed but the count of resizes. -/
theorem resize_fits (hs : Shape h (pre ++ b :: post) fl) (hba : b.state = .allocated)
    {n : Nat} (hn : n ≠ 0) (ha : adjust n = some adjusted) (hge : adjusted ≤ b.size) :
    Heap.run (Heap.resize ⟨b.ptr⟩ n) h = .ok (.ok (some ⟨b.ptr⟩),
      { h with counters := { h.counters with resizes := h.counters.resizes + 1 } }) := by
  unfold Heap.resize
  rw [if_neg hn, Heap.run_bind_ok (Heap.run_live (hs.layout.liveTag_apply (by simp) hba)),
    BlockInfo.tag_size, ha]
  dsimp only
  rw [if_pos hge, Heap.run_lift_bind (Heap.count_apply _)]
  rfl

/-- A resize of a block that must grow answers the block where it stands once it grew in
place, with the count of resizes moved on. -/
theorem resize_of_grown (hs : Shape h (pre ++ b :: post) fl) (hba : b.state = .allocated)
    {n : Nat} (hn : n ≠ 0) (ha : adjust n = some adjusted) (hlt : b.size < adjusted)
    {h' : Heap} (hg : Heap.run (Heap.growInPlace b.ptr b.size adjusted) h = .ok (.ok true, h')) :
    Heap.run (Heap.resize ⟨b.ptr⟩ n) h = .ok (.ok (some ⟨b.ptr⟩),
      { h' with counters := { h'.counters with resizes := h'.counters.resizes + 1 } }) := by
  unfold Heap.resize
  rw [if_neg hn, Heap.run_bind_ok (Heap.run_live (hs.layout.liveTag_apply (by simp) hba)),
    BlockInfo.tag_size, ha]
  dsimp only
  rw [if_neg (by omega), Heap.run_bind, Heap.run_tryCatch, hg]
  dsimp only
  rw [if_pos rfl, Heap.run_lift_bind (Heap.count_apply _)]
  rfl

/-- A resize of a block that must grow and could not grow in place moves the block, from
`h₁`, the heap the attempt left: acquisition for the request there, with the block still
allocated, is refused and so is the resize; or it answers another block, which the resize
answers after moving the payload's first bytes into it and freeing the old block. -/
theorem resize_moves (hs : Shape h (pre ++ b :: post) fl) (hb : h.arena.Backed)
    (hc : h.config.BlockGrowth) (hba : b.state = .allocated) {n : Nat} (hn : n ≠ 0)
    (ha : adjust n = some adjusted) (hlt : b.size < adjusted) {h₁ : Heap} (hr : h.Refused h₁)
    (hg : Heap.run (Heap.growInPlace b.ptr b.size adjusted) h = .ok (.ok false, h₁) ∨
      ∃ e, Heap.run (Heap.growInPlace b.ptr b.size adjusted) h = .ok (.error e, h₁)) :
    (∃ e h', Heap.run (Heap.acquire n) h₁ = .ok (.error e, h') ∧
      Heap.run (Heap.resize ⟨b.ptr⟩ n) h = .ok (.error e, h') ∧ h.Refused h' ∧
      ∃ k ae, e = .outOfMemory k ae) ∨
    ∃ h₂ h' a pre₂ post₂ pre' m post', Heap.run (Heap.acquire n) h₁ = .ok (.ok ⟨a.ptr⟩, h₂) ∧
      Heap.run (Heap.resize ⟨b.ptr⟩ n) h = .ok (.ok (some ⟨a.ptr⟩), h') ∧
      a ∈ pre' ++ m :: post' ∧ a.state = .allocated ∧ adjusted ≤ a.size ∧ a.ptr ≠ b.ptr ∧
      Heap.Served h (pre ++ post) {h.arena.brk - 4, b.ptr - 4}
        ({a.ptr - 4, h'.arena.brk - 4} ∪ Set.Ico a.ptr (a.ptr + min (b.size - tagOverhead) n))
        h' (pre' ++ m :: post') ∧
      (∀ j < min (b.size - tagOverhead) n,
        h'.arena.memory[a.ptr + j]? = h.arena.memory[b.ptr + j]?) ∧
      h₂.blocks = pre₂ ++ b :: post₂ ∧ Merge pre₂ post₂ { b with state := .free } pre' post' m := by
  have hrun : Heap.run (Heap.resize ⟨b.ptr⟩ n) h = Heap.run (do
        let moved ← Heap.acquire n
        liftM (Heap.modifyArena fun x => x.move b.ptr (min (b.size - tagOverhead) n) moved.offset)
        liftM (Heap.freeBlock b.ptr b.size)
        liftM (Heap.count fun c =>
          { c with resizes := c.resizes + 1, relocations := c.relocations + 1 })
        pure (some moved)) h₁ := by
    unfold Heap.resize
    rw [if_neg hn, Heap.run_bind_ok (Heap.run_live (hs.layout.liveTag_apply (by simp) hba)),
      BlockInfo.tag_size, ha]
    dsimp only
    rw [if_neg (by omega), Heap.run_bind, Heap.run_tryCatch]
    rcases hg with hg | ⟨e, hg⟩
    · rw [hg]
      dsimp only
      rw [if_neg Bool.false_ne_true]
    · rw [hg]
      dsimp only
      rw [Heap.run_pure]
      dsimp only
      rw [if_neg Bool.false_ne_true]
  have hc₁ : h₁.config.BlockGrowth := by obtain ⟨k, -, rfl⟩ := hr; exact hc
  rw [hrun]
  rcases relocate_apply (hs.refused hr) (hr.backed hb) hc₁ hba hn ha with
    ⟨e, h', ra, rr, hr', hk⟩ | ⟨h₂, h', a, pre₂, post₂, pre', m, post', ra, rr, ha', has, hsz,
      hne, sv, hcopy, hbl, hmerge⟩
  · exact .inl ⟨e, h', ra, rr, hr.trans hr', hk⟩
  · obtain ⟨k, hk, rfl⟩ := hr
    exact .inr ⟨h₂, h', a, pre₂, post₂, pre', m, post', ra, rr, ha', has, hsz, hne,
      sv.of_refused ⟨k, hk, rfl⟩, hcopy, hbl, hmerge⟩

theorem resize_rejected {p : BlockPtr} {e : HeapError} (he : h.liveTag p = .error e) (n : Nat) :
    Heap.run (Heap.resize p n) h = .ok (.error e, h) := by
  unfold Heap.resize
  split_ifs
  · exact Heap.run_bind_error (release_rejected he)
  · exact Heap.run_bind_error (Heap.run_live_error he)

theorem resize_zero {p : BlockPtr} {h' : Heap} (hr : Heap.run (Heap.release p) h = .ok (.ok (), h')) :
    Heap.run (Heap.resize p 0) h = .ok (.ok none, h') := by
  unfold Heap.resize
  rw [if_pos rfl, Heap.run_bind_ok hr]
  rfl

/-- Resizing an allocated block of a heap of the invariant never faults. It is refused only
for a size whose adjustment overflows or for want of memory, with nothing changed but the
arena's count of attempts. Size zero releases the block. Otherwise it answers an allocated
block with room for `n` bytes, the block itself or a new one, that holds the block's first
`min usable n` payload bytes; every other allocated block stays with its payload; the old
block's mark is cleared unless the block stays, and new marks can stand only at the answered
block's header, the epilogue and the copied bytes. -/
theorem resize_apply (hs : Shape h (pre ++ b :: post) fl) (hb : h.arena.Backed)
    (hc : h.config.BlockGrowth) (hba : b.state = .allocated) (n : Nat) :
    ∃ r h', Heap.run (Heap.resize ⟨b.ptr⟩ n) h = .ok (r, h') ∧
      (∀ e, r = .error e → h.Refused h' ∧
        ((e = .invalidSize n ∧ adjust n = none) ∨ ∃ k ae, e = .outOfMemory k ae)) ∧
      (r = .ok none → n = 0 ∧ ∃ bs', Heap.Served h (pre ++ post) {b.ptr - 4} ∅ h' bs' ∧
        h'.arena.brk = h.arena.brk) ∧
      ∀ q, r = .ok (some q) → ∃ bs' a, q = ⟨a.ptr⟩ ∧ a ∈ bs' ∧ a.state = .allocated ∧
        n + tagOverhead ≤ a.size ∧
        Heap.Served h (pre ++ post) {h.arena.brk - 4, b.ptr - 4}
          ({a.ptr - 4, h'.arena.brk - 4} ∪ Set.Ico a.ptr (a.ptr + min (b.size - tagOverhead) n))
          h' bs' ∧
        ∀ j < min (b.size - tagOverhead) n,
          h'.arena.memory[a.ptr + j]? = h.arena.memory[b.ptr + j]? := by
  have hbm : b ∈ pre ++ b :: post := by simp
  have hb16 := (hs.layout.mem hbm).2.2.2.1
  by_cases hn : n = 0
  · subst hn
    obtain ⟨h', bs', rr, sv, hbrk⟩ := release_apply hs hba hb
    exact ⟨.ok none, h', resize_zero rr, (fun _ h => by cases h), fun _ => ⟨rfl, bs', sv, hbrk⟩,
      (fun _ h => by cases h)⟩
  cases ha : adjust n with
  | none =>
    refine ⟨.error (.invalidSize n), h, resize_invalid hs hba hn ha, fun e he => ?_,
      (fun h => by cases h), (fun _ h => by cases h)⟩
    cases he
    exact ⟨.refl h, .inl ⟨rfl, rfl⟩⟩
  | some adjusted =>
  obtain ⟨h8, -, hn8⟩ := adjust_eq_some ha
  by_cases hge : adjusted ≤ b.size
  · rw [resize_fits hs hba hn ha hge]
    refine ⟨_, _, rfl, (fun _ h => by cases h), (fun h => by cases h), fun q hq => ?_⟩
    cases hq
    refine ⟨_, b, rfl, hbm, hba, by omega,
      ⟨⟨fl, hs.count fun c => { c with resizes := c.resizes + 1 }⟩, hb, ⟨rfl, rfl, rfl, rfl⟩,
        fun j _ hm => ?_, fun c hc _ => ⟨?_, fun _ _ _ => rfl⟩⟩,
      fun _ _ => rfl⟩
    · by_cases hj : j ∈ ({h.arena.brk - 4, b.ptr - 4} : Set Nat)
      · simp only [Set.mem_insert_iff, Set.mem_singleton_iff] at hj
        simp only [Set.mem_union, Set.mem_insert_iff, Set.mem_singleton_iff]
        tauto
      · exact .inl ⟨hm, hj⟩
    · simp only [List.mem_append, List.mem_cons] at hc ⊢; tauto
  rcases growInPlace_apply hs hb hc hba h8 (by omega) with ⟨h₁, hr, hg⟩ |
    ⟨h', bs', a, rg, sv, ha', hap, has, hsz, hk⟩
  · rcases resize_moves hs hb hc hba hn ha (by omega) hr hg with ⟨e, h', -, rr, hr', hk⟩ |
      ⟨-, h', a, -, -, pre', m, post', -, rr, ha', has, hsz, -, sv, hcopy, -, -⟩
    · exact ⟨_, h', rr, fun _ he => (by cases he; exact ⟨hr', .inr hk⟩),
        (fun h => by cases h), (fun _ h => by cases h)⟩
    · exact ⟨_, h', rr, (fun _ h => by cases h), (fun h => by cases h), fun q hq => by
        cases hq; exact ⟨_, a, rfl, ha', has, by omega, sv, hcopy⟩⟩
  · rw [resize_of_grown hs hba hn ha (by omega) rg]
    refine ⟨_, _, rfl, (fun _ h => by cases h), (fun h => by cases h), fun q hq => ?_⟩
    cases hq
    obtain ⟨hshape, hb', hfix, m, p⟩ := sv
    refine ⟨bs', a, by rw [hap], ha', has, by omega,
      ⟨hshape.imp fun _ hs' => hs'.count fun c => { c with resizes := c.resizes + 1 },
        hb',
        ⟨hfix.config, hfix.backing, hfix.maxBytes, hfix.refuseFrom⟩,
        ((m.clear (j := b.ptr - 4) (by simp)).mono ?_ fun j _ hj => .inl (by rwa [hap])), p⟩,
      fun j hj => ?_⟩
    · intro j hj
      simp only [Set.mem_insert_iff, Set.mem_singleton_iff] at hj
      simp only [Set.mem_union, Set.mem_singleton_iff]
      tauto
    · simp only [tagOverhead] at hj
      rw [hap]
      exact hk (b.ptr + j) (by omega) (by omega)

end Allocator
