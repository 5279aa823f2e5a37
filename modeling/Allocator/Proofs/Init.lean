import Allocator.Proofs.Resize

/-! Laying a heap out afresh, and building one. A reset moves the break back to 0, and the
arena then grants the heap's overhead when its ceiling leaves room for it and its refusal
schedule does not start at the first attempt (`Arena.Bootable`, `Arena.bootable_iff`). The
padding word, the prologue and the epilogue written over those sixteen bytes are the empty
layout (`layout_empty_apply`), and the initial extension, granted or refused, leaves the
invariant (`init_apply`). Building a heap is that layout run once on the given arena and
configuration (`create_init`), so a built heap has the invariant (`create_apply`).

Only the prologue header and the epilogue are marked by a layout: a growable arena loses
every other byte in the reset, and a reserved one keeps the marks it had. -/
namespace Allocator

namespace Arena

variable {a : Arena}

@[simp] theorem reset_brk (a : Arena) : a.reset.brk = 0 := by unfold reset; split <;> rfl

@[simp] theorem reset_backing (a : Arena) : a.reset.backing = a.backing := by
  unfold reset; split <;> rfl

@[simp] theorem reset_maxBytes (a : Arena) : a.reset.maxBytes = a.maxBytes := by
  unfold reset; split <;> rfl

@[simp] theorem reset_refuseFrom (a : Arena) : a.reset.refuseFrom = a.refuseFrom := by
  unfold reset; split <;> rfl

theorem growable_backed (maxBytes : Nat) : (Arena.growable maxBytes).Backed :=
  ⟨fun _ => rfl, fun h => (by cases h)⟩

theorem reserved_backed (capacity : Nat) (fill : UInt8) : (Arena.reserved capacity fill).Backed :=
  ⟨fun h => (by cases h), fun _ => (size_repeatByte fill capacity).ge⟩

theorem reset_backed (hb : a.Backed) : a.reset.Backed := by
  unfold reset
  split
  · rename_i hg
    refine ⟨fun _ => rfl, fun hk => ?_⟩
    rw [hg] at hk
    cases hk
  · rename_i hr
    refine ⟨fun hk => ?_, fun _ => hb.reserved hr⟩
    rw [hr] at hk
    cases hk

theorem reset_marked {j : Nat} (hj : a.reset.Marked j) : a.backing = .reserved ∧ a.Marked j := by
  unfold reset at hj
  split at hj
  · obtain ⟨x, hx, -⟩ := hj
    simp at hx
  · rename_i hr
    exact ⟨hr, hj⟩

theorem grow_ok {incr n : Nat} (hg : (a.grow incr).2 = .ok n) : n = a.brk := by
  obtain ⟨backing, memory, brk, maxBytes, attempts, refuseFrom⟩ := a
  simp only [grow] at hg
  split_ifs at hg <;> simp only [Except.ok.injEq] at hg <;> exact hg.symm

/-- The arena grants growth by the heap's overhead after a reset: its ceiling leaves room
for the overhead, and the first attempt after a reset is not scheduled to be refused. -/
structure Bootable (a : Arena) : Prop where
  room : heapOverhead ≤ a.maxBytes
  first : ∀ k ∈ a.refuseFrom, 2 ≤ k

theorem bootable_iff : a.Bootable ↔ (a.reset.grow heapOverhead).2 = .ok 0 := by
  have hB : a.Bootable ↔ heapOverhead ≤ a.maxBytes ∧ ∀ k ∈ a.refuseFrom, 2 ≤ k :=
    ⟨fun h => ⟨h.1, h.2⟩, fun h => ⟨h.1, h.2⟩⟩
  obtain ⟨backing, memory, brk, maxBytes, attempts, refuseFrom⟩ := a
  have hs : heapOverhead < sizeBound := by simp [heapOverhead, sizeBound]
  have hk : (∀ k ∈ refuseFrom, 2 ≤ k) ↔ refuseFrom.any (· ≤ 0 + 1) = false := by
    cases refuseFrom <;> simp; omega
  have hroom : heapOverhead ≤ maxBytes ↔
      ¬ (0 + heapOverhead ≥ sizeBound ∨ 0 + heapOverhead > maxBytes) := by
    omega
  have hpos : heapOverhead > 0 := by decide
  rw [hB]
  dsimp only
  rw [hk, hroom]
  cases backing <;>
  · simp only [reset, grow, hpos, if_true, decide_true, Bool.true_and]
    split_ifs <;> simp_all

theorem reset_grow (hb : a.Backed) (hboot : a.Bootable) :
    (a.reset.grow heapOverhead).2 = .ok 0 ∧ Grown a.reset (a.reset.grow heapOverhead).1 heapOverhead := by
  have hok := bootable_iff.mp hboot
  rcases grow_cases (reset_backed hb) heapOverhead with ⟨n, -, hg⟩ | ⟨-, g⟩
  · rw [hg] at hok
    cases hok
  · exact ⟨hok, g⟩

end Arena

theorem Heap.Fixed.bootable {h h' : Heap} (f : Heap.Fixed h h') (hb : h.arena.Bootable) :
    h'.arena.Bootable :=
  ⟨f.maxBytes ▸ hb.room, f.refuseFrom ▸ hb.first⟩

theorem Heap.Marks.refused {W A : Set Nat} {h h₁ h₂ : Heap} (m : Heap.Marks W A h h₁)
    (r : h₁.Refused h₂) : Heap.Marks W A h h₂ ∧ h₂.arena.brk = h₁.arena.brk := by
  obtain ⟨n, -, rfl⟩ := r
  exact ⟨m, rfl⟩

section Layout

variable {h : Heap}

/-- Over an arena whose break is the heap's overhead, the padding word, the prologue and
the epilogue lay out the empty heap. They write the first sixteen bytes only, and mark the
prologue header and the epilogue. -/
theorem layout_empty_apply (hbrk : h.arena.brk = heapOverhead)
    (hm : heapOverhead ≤ h.arena.memory.size) (ht : h.tail = none) :
    ∃ h₁ h₂ h₃, Heap.setWord 0 0 h = .ok ((), h₁) ∧
      Heap.setTag prologue (Tag.allocated tagOverhead) h₁ = .ok ((), h₂) ∧
      Heap.setEpilogue firstBlock h₂ = .ok ((), h₃) ∧ Shape h₃ [] [] ∧
      Heap.Edits (Set.Ico 0 heapOverhead) h h₃ ∧ Heap.Marks {4, 12} {4, 12} h h₃ := by
  simp only [heapOverhead] at hbrk hm
  have hwb : (16 : Nat) < wordBound := by simp [wordBound]
  obtain ⟨h₁, r₁, e₁, t₁, -⟩ := Heap.setWord_apply (h := h) (show 0 + 4 ≤ h.arena.brk by omega)
    (by omega) (show 0 < wordBound by omega)
  obtain ⟨h₂, r₂, e₂, t₂, hh₂, hf₂⟩ := Heap.setTag_apply (h := h₁) _ _
    (show 8 ≤ (Tag.allocated tagOverhead).size by decide) (show 4 ≤ prologue by decide)
    (by rw [e₁.brk]; simp [Tag.allocated, prologue, tagOverhead]; omega)
    (by rw [e₁.brk, e₁.size]; omega) (by simp [Tag.allocated, tagOverhead]; omega)
  obtain ⟨h₃, r₃, e₃, t₃, hep⟩ := Heap.setEpilogue_apply (h := h₂) _ (show 4 ≤ firstBlock by decide)
    (by rw [e₂.brk, e₁.brk]; simp [firstBlock]; omega) (by rw [e₂.brk, e₂.size, e₁.brk, e₁.size]; omega)
  have e₁₃ : Heap.Edits (Set.Ico 0 16) h h₃ := ((e₁.trans e₂).trans e₃).mono fun j hj => by
    simp only [Heap.tagWords, Tag.allocated, prologue, tagOverhead, firstBlock, Set.mem_union,
      Set.mem_Ico] at hj ⊢
    omega
  have hpro : ∀ q, q = 4 ∨ q = 8 → h₃.arena.word? q = some (Tag.allocated 8).pack := by
    rintro q hq
    rw [e₃.word?_of_apart fun j hj => by simp only [firstBlock, Set.mem_Ico] at hj; omega]
    rcases hq with rfl | rfl
    · exact hh₂
    · exact hf₂
  have hep₃ : h₃.arena.word? 12 = some (Tag.allocated 0).pack := hep
  have hbrk₃ : h₃.arena.brk = 16 := by rw [e₁₃.brk, hbrk]
  refine ⟨h₁, h₂, h₃, r₁, r₂, r₃, ⟨⟨?_, ?_, hpro 4 (.inl rfl), hpro 8 (.inr rfl), ?_, ?_⟩,
    ⟨trivial, by rw [t₃, t₂, t₁, ht]; rfl, fun _ h => (by cases h), List.nodup_nil,
      List.Pairwise.nil⟩, fun _ h => (by cases h),
    List.isChain_nil⟩, e₁₃, ?_⟩
  · rw [hbrk₃, e₁₃.size]
    exact hm
  · rw [hbrk₃]
    simp [addressable, wordBound]
  · rw [hbrk₃]
    rfl
  · rw [hbrk₃]
    exact hep₃
  refine e₁₃.marks (fun j hj h4 => by simp only [Set.mem_Ico] at hj; simp; omega) fun q hq => ?_
  rcases hq with rfl | rfl
  · exact ⟨_, hpro 4 (.inl rfl), fun _ => .inl rfl⟩
  · exact ⟨_, hep₃, fun _ => .inr rfl⟩

end Layout

section Init

variable {h : Heap}

/-- Laying out a heap over an arena that holds what it promises and grants the heap's
overhead after a reset never faults. Whether the initial extension is granted or refused,
it leaves the invariant, an arena that still holds what it promises, and the configuration
and arena parameters as they were. Its only marks are the prologue header and the
epilogue, beside the marks a reserved arena had. -/
theorem init_apply (hb : h.arena.Backed) (hc : h.config.BlockGrowth) (hboot : h.arena.Bootable) :
    ∃ r h' bs fl, Heap.run Heap.init h = .ok (r, h') ∧ Shape h' bs fl ∧ h'.arena.Backed ∧
      Heap.Fixed h h' ∧
      Heap.Marks (if h.arena.backing = .growable then Set.univ else ∅) {4, h'.arena.brk - 4} h h' := by
  obtain ⟨hg, g⟩ := Arena.reset_grow hb hboot
  set h₀ : Heap := { h with arena := h.arena.reset, tail := none, counters := {} }
  set h₁ : Heap := { h₀ with arena := (h.arena.reset.grow heapOverhead).1 }
  have hrun₁ : Heap.run (Heap.growArena heapOverhead) h₀ = .ok (.ok 0, h₁) := by
    rw [Heap.run_growArena (show h₀.arena.grow heapOverhead = (_, .ok 0) from Prod.ext rfl hg)]
    rfl
  have hbrk₁ : h₁.arena.brk = heapOverhead := by
    show (h.arena.reset.grow heapOverhead).1.brk = _
    rw [g.brk, Arena.reset_brk, Nat.zero_add]
  obtain ⟨h₂, h₃, h₄, r₂, r₃, r₄, hs₄, e₄, m₄⟩ :=
    layout_empty_apply hbrk₁ (hbrk₁ ▸ g.inMemory) rfl
  have m₁ : Heap.Marks (if h.arena.backing = .growable then Set.univ else ∅) ∅ h h₁ :=
    fun j _ hm => by
      obtain ⟨hr, hm₀⟩ := Arena.reset_marked (g.marked hm)
      exact .inl ⟨hm₀, by simp [hr]⟩
  have hbrk₄ : h₄.arena.brk = 16 := by rw [e₄.brk, hbrk₁]; rfl
  have m₀₄ : Heap.Marks (if h.arena.backing = .growable then Set.univ else ∅) {4, 12} h h₄ :=
    (m₁.trans m₄).mono (fun j hj => .inl hj) fun j _ hj => by simpa using hj
  have hb₄ : h₄.arena.Backed := e₄.backed g.backed
  have hf₄ : Heap.Fixed h h₄ :=
    (show Heap.Fixed h h₁ from ⟨rfl, by simp [h₁, g.backing], by simp [h₁, g.maxBytes],
      by simp [h₁, g.refuseFrom]⟩).trans e₄.fixed
  unfold Heap.init
  rw [Heap.run_bind, Heap.run_modify]
  dsimp only
  rw [Heap.run_bind, Heap.run_discard, hrun₁]
  dsimp only
  rw [Heap.run_lift_bind r₂, Heap.run_lift_bind r₃, Heap.run_lift_bind r₄, Heap.run_bind,
    Heap.run_get]
  dsimp only
  by_cases hi : h₄.config.initialExtend > 0
  · rw [if_pos hi, Heap.run_discard]
    have hcfg : h₄.config = h.config := hf₄.config
    have h16 : 16 ≤ h₄.config.initialExtend := by
      rw [hcfg] at hi ⊢
      simpa [minBlock] using hc.initial.resolve_left (by omega)
    have h8 : h₄.config.initialExtend % 8 = 0 := by rw [hcfg]; exact hc.initial_mod
    rcases extend_apply hs₄ hb₄ h16 h8 with
      ⟨e, h', re⟩ | ⟨h', pre', m, fl', re, hs', -, hb', -, hfix', -, -, mk⟩
    · rw [re]
      obtain ⟨hr, -⟩ := extend_refused re
      obtain ⟨m', hbrk'⟩ := m₀₄.refused hr
      refine ⟨_, h', [], [], rfl, hs₄.refused hr, hr.backed hb₄, hf₄.trans hr.fixed, ?_⟩
      rw [hbrk', hbrk₄]
      exact m'
    · rw [re]
      refine ⟨_, h', _, fl', rfl, hs', hb', hf₄.trans hfix', ?_⟩
      refine (m₀₄.trans_clear mk).mono (fun j hj => .inl hj) fun j _ hj => ?_
      rw [hbrk₄] at hj
      simp only [Set.mem_union, Set.mem_sdiff, Set.mem_insert_iff, Set.mem_singleton_iff] at hj ⊢
      omega
  · rw [if_neg hi]
    refine ⟨_, h₄, [], [], rfl, hs₄, hb₄, hf₄, ?_⟩
    rw [hbrk₄]
    exact m₀₄

/-- A served layout shows that the arena grants the heap's overhead after a reset. -/
theorem init_bootable {h' : Heap} (hr : Heap.run Heap.init h = .ok (.ok (), h')) :
    h.arena.Bootable := by
  unfold Heap.init at hr
  rw [Heap.run_bind, Heap.run_modify] at hr
  dsimp only at hr
  rw [Heap.run_bind, Heap.run_discard, Heap.run_growArena (show h.arena.reset.grow heapOverhead =
    ((h.arena.reset.grow heapOverhead).1, (h.arena.reset.grow heapOverhead).2) from rfl)] at hr
  rw [Arena.bootable_iff]
  cases hg : (h.arena.reset.grow heapOverhead).2 with
  | error e =>
    rw [hg] at hr
    cases hr
  | ok n => rw [Arena.grow_ok hg, Arena.reset_brk]

end Init

section Create

variable {a : Arena} {cfg : HeapConfig} {h : Heap}

/-- Building a heap lays out the arena and the configuration afresh. -/
theorem create_init (hcr : Heap.create a cfg = .ok (.ok h)) :
    Heap.run Heap.init ⟨a, cfg, none, {}⟩ = .ok (.ok (), h) := by
  unfold Heap.create at hcr
  split at hcr
  · cases hcr
  · split_ifs at hcr
    · cases hcr
    split at hcr
    · cases hcr
    · cases hcr
    · rename_i h' hr
      cases hcr
      exact hr

/-- A heap built over an arena that holds what it promises, with a configuration whose
growths are whole blocks, has the invariant over an arena that still holds what it promises
and grants a later layout. Its configuration and arena parameters are the given ones, and
it is marked only at the prologue header and the epilogue, beside a reserved arena's old
marks. -/
theorem create_apply (hcr : Heap.create a cfg = .ok (.ok h)) (hb : a.Backed)
    (hc : cfg.BlockGrowth) :
    (∃ bs fl, Shape h bs fl) ∧ h.arena.Backed ∧ h.arena.Bootable ∧ Heap.Fixed ⟨a, cfg, none, {}⟩ h ∧
      Heap.Marks (if a.backing = .growable then Set.univ else ∅) {4, h.arena.brk - 4}
        ⟨a, cfg, none, {}⟩ h := by
  have hi := create_init hcr
  have hboot : a.Bootable := init_bootable hi
  obtain ⟨r, h', bs, fl, hr, hs, hb', hf, hm⟩ := init_apply (h := ⟨a, cfg, none, {}⟩) hb hc hboot
  rw [hi] at hr
  obtain ⟨-, rfl⟩ : Except.ok () = r ∧ h = h' := by simpa using hr
  exact ⟨⟨bs, fl, hs⟩, hb', hf.bootable hboot, hf, hm⟩

end Create

end Allocator
