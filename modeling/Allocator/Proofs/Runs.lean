import Allocator.Proofs.Init

/-! Runs of a heap. A program builds a heap over an arena and then, step by step, lays it out
afresh, acquires, releases and resizes blocks, and writes into the payloads of its blocks
(`Heap.Step`). Every pointer it passes names a live block, one the block walk reports as
allocated, or is one the heap rejects (`Heap.Passable`). The heaps it reaches
(`Heap.Reachable`) keep the invariant: what one step needs of a heap to keep the invariant
is `Heap.Valid`, each kind of step keeps it (`Heap.Valid.step`), and induction over the run
does the rest (`reachable_shape`). -/
namespace Allocator

namespace Heap

/-- `p` names a live block: the block walk meets an allocated block at payload offset `p`. -/
def Live (h : Heap) (p : BlockPtr) : Prop :=
  ∃ b ∈ h.blocks, b.state = .allocated ∧ b.ptr = p.offset

/-- A pointer a program may pass: it names a live block, or the heap rejects it. -/
def Passable (h : Heap) (p : BlockPtr) : Prop :=
  h.Live p ∨ ∃ e, h.liveTag p = .error e

/-- One step of a program using the heap: a request that is served or refused, on passable
pointers, or a write of any bytes into the payload of a live block. -/
inductive Step : Heap → Heap → Prop
  | init {h h' : Heap} {r : Except HeapError Unit} : run init h = .ok (r, h') → Step h h'
  | acquire {h h' : Heap} {r : Except HeapError BlockPtr} (n : Nat) :
      run (acquire n) h = .ok (r, h') → Step h h'
  | release {h h' : Heap} {r : Except HeapError Unit} {p : BlockPtr} :
      h.Passable p → run (release p) h = .ok (r, h') → Step h h'
  | resize {h h' : Heap} {r : Except HeapError (Option BlockPtr)} {p : BlockPtr} (n : Nat) :
      h.Passable p → run (resize p n) h = .ok (r, h') → Step h h'
  | write {h h' : Heap} {p : BlockPtr} {base len : Nat} :
      h.Live p → h.payloadRange p = .ok (base, len) → Edits (Set.Ico base (base + len)) h h' →
      h'.tail = h.tail → Step h h'

/-- The heaps a program reaches: a heap built over an arena that holds what it promises,
with a configuration whose growths are whole blocks, after any number of steps. -/
inductive Reachable : Heap → Prop
  | create {a : Arena} {cfg : HeapConfig} {h : Heap} :
      a.Backed → cfg.BlockGrowth → create a cfg = .ok (.ok h) → Reachable h
  | step {h h' : Heap} : Reachable h → Step h h' → Reachable h'

/-- What a heap needs for every step to keep the invariant: the invariant itself, an arena
that holds what it promises and grants a later layout, and a configuration whose growths
are whole blocks. -/
structure Valid (h : Heap) : Prop where
  shape : ∃ bs fl, Shape h bs fl
  backed : h.arena.Backed
  bootable : h.arena.Bootable
  growth : h.config.BlockGrowth

end Heap

theorem Shape.live {h : Heap} {bs fl : List BlockInfo} (hs : Shape h bs fl) {p : BlockPtr}
    (hp : h.Live p) : ∃ pre b post, bs = pre ++ b :: post ∧ b.state = .allocated ∧ p = ⟨b.ptr⟩ := by
  obtain ⟨b, hb, hba, hbp⟩ := hp
  rw [hs.layout.blocks_eq] at hb
  obtain ⟨pre, post, rfl⟩ := List.append_of_mem hb
  exact ⟨pre, b, post, rfl, hba, by rw [hbp]⟩

namespace Heap.Valid

variable {h h' : Heap}

theorem of_fixed (hv : h.Valid) (hs : ∃ bs fl, Shape h' bs fl) (hb : h'.arena.Backed)
    (f : Heap.Fixed h h') : h'.Valid :=
  ⟨hs, hb, f.bootable hv.bootable, f.config ▸ hv.growth⟩

theorem of_refused (hv : h.Valid) (r : h.Refused h') : h'.Valid := by
  obtain ⟨bs, fl, hs⟩ := hv.shape
  exact hv.of_fixed ⟨bs, fl, hs.refused r⟩ (r.backed hv.backed) r.fixed

theorem of_served {keep bs' : List BlockInfo} {W A : Set Nat} (hv : h.Valid)
    (sv : Heap.Served h keep W A h' bs') : h'.Valid := by
  obtain ⟨fl', hs'⟩ := sv.shape
  exact hv.of_fixed ⟨bs', fl', hs'⟩ sv.backed sv.fixed

theorem init_step {r : Except HeapError Unit} (hv : h.Valid)
    (hr : Heap.run Heap.init h = .ok (r, h')) : h'.Valid := by
  obtain ⟨r', h'', bs, fl, hr', hs, hb, hf, -⟩ := init_apply hv.backed hv.growth hv.bootable
  obtain ⟨-, rfl⟩ : r' = r ∧ h'' = h' := by simpa [hr] using hr'.symm
  exact hv.of_fixed ⟨bs, fl, hs⟩ hb hf

/-- An acquisition keeps validity: a request of no bytes or of too many is refused at once,
and any other is served or refused for want of memory. -/
theorem acquire_step {r : Except HeapError BlockPtr} (hv : h.Valid) {n : Nat}
    (hr : Heap.run (Heap.acquire n) h = .ok (r, h')) : h'.Valid := by
  obtain ⟨bs, fl, hs⟩ := hv.shape
  by_cases hn : n = 0 ∨ adjust n = none
  · rw [acquire_invalid hn] at hr
    obtain ⟨-, rfl⟩ : _ = r ∧ h = h' := by simpa using hr
    exact hv
  obtain ⟨hn0, ha⟩ := not_or.mp hn
  obtain ⟨adjusted, ha⟩ := Option.ne_none_iff_exists'.mp ha
  rcases acquire_apply hs hv.backed hv.growth hn0 ha with
    ⟨e, h'', he, hre, -⟩ | ⟨h'', bs', a, he, sv, -⟩
  · rw [he] at hr
    obtain ⟨-, rfl⟩ : _ = r ∧ h'' = h' := by simpa using hr
    exact hv.of_refused hre
  · rw [he] at hr
    obtain ⟨-, rfl⟩ : _ = r ∧ h'' = h' := by simpa using hr
    exact hv.of_served sv

/-- A release of a passable pointer keeps validity: a live block is freed, and a rejected
pointer changes nothing. -/
theorem release_step {r : Except HeapError Unit} {p : BlockPtr} (hv : h.Valid)
    (hp : h.Passable p) (hr : Heap.run (Heap.release p) h = .ok (r, h')) : h'.Valid := by
  obtain ⟨bs, fl, hs⟩ := hv.shape
  rcases hp with hp | ⟨e, he⟩
  · obtain ⟨pre, b, post, rfl, hba, rfl⟩ := hs.live hp
    obtain ⟨h'', bs', hr', sv, -⟩ := release_apply hs hba hv.backed
    rw [hr'] at hr
    obtain ⟨-, rfl⟩ : _ = r ∧ h'' = h' := by simpa using hr
    exact hv.of_served sv
  · rw [release_rejected he] at hr
    obtain ⟨-, rfl⟩ : _ = r ∧ h = h' := by simpa using hr
    exact hv

/-- A resize of a passable pointer keeps validity: every outcome on a live block is a
refusal that changes nothing but the count of attempts or a served request, and a rejected
pointer changes nothing. -/
theorem resize_step {r : Except HeapError (Option BlockPtr)} {p : BlockPtr} {n : Nat}
    (hv : h.Valid) (hp : h.Passable p) (hr : Heap.run (Heap.resize p n) h = .ok (r, h')) :
    h'.Valid := by
  obtain ⟨bs, fl, hs⟩ := hv.shape
  rcases hp with hp | ⟨e, he⟩
  · obtain ⟨pre, b, post, rfl, hba, rfl⟩ := hs.live hp
    obtain ⟨r', h'', hr', herr, hnone, hsome⟩ := resize_apply hs hv.backed hv.growth hba n
    rw [hr'] at hr
    obtain ⟨rfl, rfl⟩ : r' = r ∧ h'' = h' := by simpa using hr
    rcases r' with e | _ | q
    · exact hv.of_refused (herr e rfl).1
    · obtain ⟨-, bs', sv, -⟩ := hnone rfl
      exact hv.of_served sv
    · obtain ⟨bs', a, -, -, -, -, sv, -⟩ := hsome q rfl
      exact hv.of_served sv
  · rw [resize_rejected he n] at hr
    obtain ⟨-, rfl⟩ : _ = r ∧ h = h' := by simpa using hr
    exact hv

/-- A write into the payload of a live block keeps validity: the payload holds no tag and
no link. -/
theorem write_step {p : BlockPtr} {base len : Nat} (hv : h.Valid) (hp : h.Live p)
    (hpr : h.payloadRange p = .ok (base, len)) (e : Heap.Edits (Set.Ico base (base + len)) h h')
    (ht : h'.tail = h.tail) : h'.Valid := by
  obtain ⟨bs, fl, hs⟩ := hv.shape
  obtain ⟨pre, b, post, rfl, hba, rfl⟩ := hs.live hp
  have hbm : b ∈ pre ++ b :: post := by simp
  have hpr' : h.payloadRange ⟨b.ptr⟩ = .ok (b.ptr, b.size - tagOverhead) := by
    simp [Heap.payloadRange, hs.layout.liveTag_apply hbm hba]
  rw [hpr] at hpr'
  obtain ⟨rfl, rfl⟩ : base = b.ptr ∧ len = b.size - tagOverhead := by simpa using hpr'
  have h16 := (hs.layout.mem hbm).2.2.2.1
  refine hv.of_fixed ⟨_, fl, hs.payload_edit hbm hba e ht fun j hj => ?_⟩ (e.backed hv.backed)
    e.fixed
  simp only [Set.mem_Ico, tagOverhead] at hj
  omega

theorem step (hv : h.Valid) (st : Heap.Step h h') : h'.Valid := by
  cases st with
  | init hr => exact hv.init_step hr
  | acquire n hr => exact hv.acquire_step hr
  | release hp hr => exact hv.release_step hp hr
  | resize n hp hr => exact hv.resize_step hp hr
  | write hp hpr e ht => exact hv.write_step hp hpr e ht

end Heap.Valid

theorem Heap.Valid.of_create {a : Arena} {cfg : HeapConfig} {h : Heap} (hb : a.Backed)
    (hc : cfg.BlockGrowth) (hcr : Heap.create a cfg = .ok (.ok h)) : h.Valid := by
  obtain ⟨hs, hb', hboot, hf, -⟩ := create_apply hcr hb hc
  exact ⟨hs, hb', hboot, hf.config ▸ hc⟩

theorem Heap.Reachable.valid {h : Heap} (hr : h.Reachable) : h.Valid := by
  induction hr with
  | create hb hc hcr => exact .of_create hb hc hcr
  | step _ st ih => exact ih.step st

/-- Every heap a program reaches keeps the invariant: the prologue, blocks from the first
block to the break with their tags in header and footer and no two free neighbours, the
epilogue at the break, and a free list, from the tail on, of every free block once in
ascending size with its links both ways. The block walk reads back the blocks. -/
theorem reachable_shape {h : Heap} (hr : h.Reachable) :
    ∃ bs fl, Shape h bs fl ∧ h.blocks = bs := by
  obtain ⟨bs, fl, hs⟩ := hr.valid.shape
  exact ⟨bs, fl, hs, hs.layout.blocks_eq⟩

/-- Whether a heap is built over `a` with `cfg` and passes the test `t`. Evaluated on a
concrete arena, it hands the heap built to a proof. -/
def Heap.createdWith (a : Arena) (cfg : HeapConfig) (t : Heap → Bool) : Bool :=
  match Heap.create a cfg with
  | .ok (.ok h) => t h
  | _ => false

/-- Whether the request `r` is served on `h`, with an answer and a heap that pass the test
`t`. Nested, it checks a run of requests. -/
def Heap.servedWith {α : Type} (r : RequestM α) (h : Heap) (t : α → Heap → Bool) : Bool :=
  match Heap.run r h with
  | .ok (.ok a, h') => t a h'
  | _ => false

theorem Heap.createdWith_eq_true {a : Arena} {cfg : HeapConfig} {t : Heap → Bool}
    (hok : Heap.createdWith a cfg t = true) :
    ∃ h, Heap.create a cfg = .ok (.ok h) ∧ t h = true := by
  unfold Heap.createdWith at hok
  split at hok
  · exact ⟨_, ‹_›, hok⟩
  · cases hok

theorem Heap.servedWith_eq_true {α : Type} {r : RequestM α} {h : Heap} {t : α → Heap → Bool}
    (hok : Heap.servedWith r h t = true) :
    ∃ a h', Heap.run r h = .ok (.ok a, h') ∧ t a h' = true := by
  unfold Heap.servedWith at hok
  split at hok
  · exact ⟨_, _, ‹_›, hok⟩
  · cases hok

theorem built_heap_has_shape : ∃ h, Heap.create (Arena.growable 64) ⟨16, 16⟩ = .ok (.ok h) ∧
    ∃ bs fl, Shape h bs fl ∧ h.blocks = bs := by
  obtain ⟨h, hcr, -⟩ := Heap.createdWith_eq_true
    (show Heap.createdWith (Arena.growable 64) ⟨16, 16⟩ (fun _ => true) = true by decide +kernel)
  exact ⟨h, hcr, reachable_shape (.create (Arena.growable_backed 64)
    ⟨by decide, by decide, by decide, by decide, by decide⟩ hcr)⟩

/-- An initial extension of eight bytes makes a free block with no room for its two links:
the link toward smaller blocks overwrites the epilogue, and the heap built breaks the
invariant. -/
theorem eight_byte_initial_extension_breaks_shape :
    ∃ h, Heap.create (Arena.growable 20971520) ⟨4096, 8⟩ = .ok (.ok h) ∧
      ¬ ∃ bs fl, Shape h bs fl := by
  obtain ⟨h, hcr, hok⟩ := Heap.createdWith_eq_true
    (show Heap.createdWith (Arena.growable 20971520) ⟨4096, 8⟩
      (fun h => h.arena.word? (h.arena.brk - 4) == some 0) = true by decide +kernel)
  refine ⟨h, hcr, fun ⟨bs, fl, hs⟩ => ?_⟩
  have hep := hs.layout.epilogue
  rw [beq_iff_eq.mp hok] at hep
  cases hep

end Allocator
