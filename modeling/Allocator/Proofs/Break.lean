import Allocator.Proofs.Refusal

/-! The break only rises. A heap program reads and writes words, the free-list tail and the
counters, and never moves the break (`Heap.KeepsBreak`); a request grows the arena at most,
through `growArena`, so whatever its outcome it never lowers the break (`Heap.Raises`). Only
laying the heap out afresh resets the break, and no acquisition, release or resize does.
Both facts are proved once for each way programs are put together, and then for each heap
program and request in turn, on every heap, whatever its bytes. -/
namespace Allocator

namespace Arena

/-- Rewriting the memory below the break keeps the break. -/
theorem modifyMemory_brk {a a' : Arena} {f : ByteArray → Nat → Except Fault ByteArray}
    (h : a.modifyMemory f = .ok a') : a'.brk = a.brk := by
  obtain ⟨backing, memory, brk, maxBytes, attempts, refuseFrom⟩ := a
  simp only [Arena.modifyMemory] at h
  split at h
  · cases h
    rfl
  · cases h

theorem brk_le_grow (a : Arena) (incr : Nat) : a.brk ≤ (a.grow incr).1.brk := by
  obtain ⟨backing, memory, brk, maxBytes, attempts, refuseFrom⟩ := a
  simp only [Arena.grow]
  split_ifs <;> simp

end Arena

namespace Heap

variable {α β : Type}

/-- A heap program that leaves the break where it is. -/
def KeepsBreak (m : HeapM α) : Prop := ∀ h a h', m h = .ok (a, h') → h'.arena.brk = h.arena.brk

namespace KeepsBreak

theorem of_readsOnly {m : HeapM α} (hm : ReadsOnly m) : KeepsBreak m := fun h a h' hr => by
  rw [hm h a h' hr]

theorem pure (a : α) : KeepsBreak (Pure.pure a : HeapM α) := of_readsOnly (ReadsOnly.pure a)

theorem stop (f : Fault) : KeepsBreak (Heap.stop f : HeapM α) := of_readsOnly (ReadsOnly.stop f)

theorem bind {x : HeapM α} {f : α → HeapM β} (hx : KeepsBreak x) (hf : ∀ a, KeepsBreak (f a)) :
    KeepsBreak (x >>= f) := by
  intro h b h' hr
  rw [bind_apply] at hr
  rcases hxh : x h with e | ⟨a, h₁⟩
  · rw [hxh] at hr
    cases hr
  · rw [hxh] at hr
    rw [hf a h₁ b h' hr, hx h a h₁ hxh]

/-- Changing the arena in a way that keeps its break keeps the heap's break. -/
theorem modifyArena {f : Arena → Except Fault Arena} (hf : ∀ a a', f a = .ok a' → a'.brk = a.brk) :
    KeepsBreak (Heap.modifyArena f) := by
  intro h u h' hr
  obtain ⟨arena, config, tail, counters⟩ := h
  simp only [Heap.modifyArena] at hr
  rcases hfa : f arena with e | a'
  · rw [hfa] at hr
    cases hr
  · rw [hfa] at hr
    cases hr
    exact hf arena a' hfa

theorem stop_bind (f : Fault) (k : α → HeapM β) : KeepsBreak (Heap.stop f >>= k) := by
  intro h b h' hr
  rw [bind_apply, stop_apply] at hr
  cases hr

theorem modify {f : Heap → Heap} (hf : ∀ h, (f h).arena.brk = h.arena.brk) :
    KeepsBreak (MonadState.modifyGet fun h => ((), f h) : HeapM Unit) := fun h u h' hr => by
  cases hr
  exact hf h

theorem setWord (pos v : Nat) : KeepsBreak (Heap.setWord pos v) :=
  modifyArena fun _ _ h => Arena.modifyMemory_brk h

theorem setTag (bp : Nat) (t : Tag) : KeepsBreak (Heap.setTag bp t) := by
  unfold Heap.setTag
  dsimp only
  split
  · exact stop_bind _ _
  · exact bind (of_readsOnly (ReadsOnly.less _ _)) fun _ => bind (setWord _ _) fun _ =>
      bind (of_readsOnly (ReadsOnly.less _ _)) fun _ => setWord _ _

theorem setEpilogue (bp : Nat) : KeepsBreak (Heap.setEpilogue bp) :=
  bind (of_readsOnly (ReadsOnly.less _ _)) fun _ => setWord _ _

theorem setLink (bp : Nat) (which : Link) (target : Option Nat) :
    KeepsBreak (Heap.setLink bp which target) :=
  setWord _ _

theorem setTail (t : Option Nat) : KeepsBreak (Heap.setTail t) := modify fun _ => rfl

theorem count (f : Counters → Counters) : KeepsBreak (Heap.count f) := modify fun _ => rfl

/-- The walk for an insertion's place only reads. -/
theorem seekPlace (size : Nat) :
    ∀ fuel smaller larger, KeepsBreak (Heap.seekPlace size fuel smaller larger)
  | _, _, none => by
    rw [Heap.seekPlace.eq_1]
    exact pure _
  | 0, _, some _ => by
    rw [Heap.seekPlace.eq_2]
    exact stop _
  | fuel + 1, smaller, some c => by
    rw [Heap.seekPlace.eq_3]
    refine bind (of_readsOnly (ReadsOnly.tagAt c)) fun t => ?_
    split
    · exact pure _
    · exact bind (of_readsOnly (ReadsOnly.link c .larger)) fun next => seekPlace size fuel _ next

theorem insert (bp size : Nat) : KeepsBreak (Heap.insert bp size) := by
  unfold Heap.insert
  dsimp only
  refine bind (of_readsOnly ReadsOnly.walkBound) fun _ => bind (of_readsOnly ReadsOnly.get)
    fun _ => bind (seekPlace size _ _ _) fun place => ?_
  refine bind (setLink _ _ _) fun _ => bind (setLink _ _ _) fun _ => ?_
  split
  · refine bind (setLink _ _ _) fun _ => ?_
    split
    · exact setLink _ _ _
    · exact setTail _
  · split
    · exact setLink _ _ _
    · exact setTail _

theorem remove (bp : Nat) : KeepsBreak (Heap.remove bp) := by
  unfold Heap.remove
  dsimp only
  refine bind (of_readsOnly (ReadsOnly.link _ _)) fun _ => bind (of_readsOnly (ReadsOnly.link _ _))
    fun _ => ?_
  split
  · refine bind (setLink _ _ _) fun _ => ?_
    split
    · exact setLink _ _ _
    · exact setTail _
  · split
    · exact setLink _ _ _
    · exact setTail _

theorem coalesce (bp : Nat) : KeepsBreak (Heap.coalesce bp) := by
  unfold Heap.coalesce
  dsimp only
  refine bind (of_readsOnly (ReadsOnly.tagAt _)) fun _ => bind (of_readsOnly (ReadsOnly.nextBlock _))
    fun _ => bind (of_readsOnly (ReadsOnly.tagAt _)) fun _ => ?_
  split
  on_goal 1 => refine bind (remove _) fun _ => ?_
  all_goals
    refine bind (of_readsOnly (ReadsOnly.tagBefore _)) fun _ => ?_
    split
    · exact bind (bind (of_readsOnly (ReadsOnly.tagBefore _)) fun _ =>
        of_readsOnly (ReadsOnly.less _ _)) fun _ => bind (remove _) fun _ =>
          bind (setTag _ _) fun _ => bind (insert _ _) fun _ => pure _
    · exact bind (setTag _ _) fun _ => bind (insert _ _) fun _ => pure _

/-- A program whose answer is dropped keeps the break as it does. -/
theorem discard {x : HeapM α} (hx : KeepsBreak x) : KeepsBreak (discard x) := by
  intro h u h' hr
  rcases hxh : x h with e | ⟨a, h₁⟩
  · have he : (Functor.discard x) h = .error e := by
      simp only [Functor.discard, Functor.mapConst, Function.comp]
      show StateT.map _ x h = _
      simp [StateT.map, hxh]
    rw [he] at hr
    cases hr
  · rw [discard_apply_ok hxh] at hr
    cases hr
    exact hx h a _ hxh

theorem freeBlock (bp size : Nat) : KeepsBreak (Heap.freeBlock bp size) :=
  bind (setTag _ _) fun _ => discard (coalesce _)

theorem split (bp size adjusted : Nat) : KeepsBreak (Heap.split bp size adjusted) := by
  unfold Heap.split
  refine bind (of_readsOnly (ReadsOnly.less _ _)) fun _ => ?_
  split
  · exact bind (setTag _ _) fun _ => bind (of_readsOnly (ReadsOnly.nextBlock _)) fun _ =>
      bind (setTag _ _) fun _ => insert _ _
  · exact setTag _ _

theorem place (bp adjusted : Nat) : KeepsBreak (Heap.place bp adjusted) :=
  bind (remove _) fun _ => bind (of_readsOnly (ReadsOnly.tagAt _)) fun _ => split _ _ _

end KeepsBreak

/-- A request that never lowers the break, whether it is served or refused. -/
def Raises (r : RequestM α) : Prop := ∀ h o h', run r h = .ok (o, h') → h.arena.brk ≤ h'.arena.brk

namespace Raises

theorem lift {m : HeapM α} (hm : KeepsBreak m) : Raises (liftM m : RequestM α) := by
  intro h o h' hr
  rw [run_lift] at hr
  rcases hmh : m h with e | ⟨a, h₁⟩
  · rw [hmh] at hr
    cases hr
  · rw [hmh] at hr
    cases hr
    exact (hm h a _ hmh).ge

theorem pure (a : α) : Raises (Pure.pure a : RequestM α) := fun h o h' hr => by
  rw [run_pure] at hr
  cases hr
  exact le_rfl

theorem get : Raises (MonadState.get : RequestM Heap) := fun h o h' hr => by
  rw [run_get] at hr
  cases hr
  exact le_rfl

theorem throw (e : HeapError) : Raises (throw e : RequestM α) := fun h o h' hr => by
  rw [run_throw] at hr
  cases hr
  exact le_rfl

theorem bind {x : RequestM α} {f : α → RequestM β} (hx : Raises x) (hf : ∀ a, Raises (f a)) :
    Raises (x >>= f) := by
  intro h o h' hr
  rw [run_bind] at hr
  rcases hxh : run x h with e | ⟨o₁, h₁⟩
  · rw [hxh] at hr
    cases hr
  · rw [hxh] at hr
    have hx₁ := hx h o₁ h₁ hxh
    cases o₁ with
    | error e =>
      cases hr
      exact hx₁
    | ok a => exact hx₁.trans (hf a h₁ o h' hr)

theorem tryCatch {r : RequestM α} {c : HeapError → RequestM α} (hr : Raises r)
    (hc : ∀ e, Raises (c e)) : Raises (tryCatch r c) := by
  intro h o h' hrun
  rw [run_tryCatch] at hrun
  rcases hrh : run r h with e | ⟨o₁, h₁⟩
  · rw [hrh] at hrun
    cases hrun
  · rw [hrh] at hrun
    have hr₁ := hr h o₁ h₁ hrh
    cases o₁ with
    | ok a =>
      cases hrun
      exact hr₁
    | error e => exact hr₁.trans (hc e h₁ o h' hrun)

theorem throw_bind (e : HeapError) (f : α → RequestM β) :
    Raises ((MonadExcept.throw e : RequestM α) >>= f) := fun h o h' hr => by
  rw [run_bind_error (run_throw e h)] at hr
  cases hr
  exact le_rfl

theorem stop_bind (f : Fault) (k : α → RequestM β) : Raises ((Heap.stop f : RequestM α) >>= k) := by
  intro h o h' hr
  have hs : run (Heap.stop f : RequestM α) h = .error f := rfl
  rw [run_bind, hs] at hr
  cases hr

theorem growArena (incr : Nat) : Raises (growArena incr) := by
  intro h o h' hr
  rw [run_growArena (show h.arena.grow incr = ((h.arena.grow incr).1, (h.arena.grow incr).2)
    from rfl)] at hr
  cases hr
  exact Arena.brk_le_grow _ _

theorem live (p : BlockPtr) : Raises (live p) := by
  unfold Heap.live
  refine bind get fun _ => ?_
  split
  · exact pure _
  · exact throw _

theorem extend (size : Nat) : Raises (extend size) := by
  unfold Heap.extend
  dsimp only
  split
  · refine bind get fun _ => ?_
    split
    on_goal 1 => refine throw_bind _ fun _ => ?_
    all_goals
      exact bind (growArena _) fun _ => bind (lift (KeepsBreak.setTag _ _)) fun _ =>
        bind (lift (KeepsBreak.of_readsOnly (ReadsOnly.nextBlock _))) fun _ =>
        bind (lift (KeepsBreak.setEpilogue _)) fun _ => bind (lift (KeepsBreak.count _)) fun _ =>
        lift (KeepsBreak.coalesce _)
  · exact throw _

theorem acquire (n : Nat) : Raises (acquire n) := by
  unfold Heap.acquire
  dsimp only
  split
  · exact throw_bind _ _
  split
  · refine bind (lift (KeepsBreak.of_readsOnly (ReadsOnly.findFit _))) fun found => ?_
    split
    · exact bind (pure _) fun _ => bind (lift (KeepsBreak.place _ _)) fun _ =>
        bind (lift (KeepsBreak.count _)) fun _ => pure _
    · exact bind get fun _ => bind (extend _) fun _ => bind (lift (KeepsBreak.place _ _)) fun _ =>
        bind (lift (KeepsBreak.count _)) fun _ => pure _
  · exact throw _

theorem release (p : BlockPtr) : Raises (release p) :=
  bind (live p) fun _ => bind (lift (KeepsBreak.freeBlock _ _)) fun _ => lift (KeepsBreak.count _)

theorem growInPlace (bp current adjusted : Nat) : Raises (growInPlace bp current adjusted) := by
  unfold Heap.growInPlace
  dsimp only
  refine bind (lift (KeepsBreak.of_readsOnly (ReadsOnly.nextBlock _))) fun next => ?_
  refine bind (lift (KeepsBreak.of_readsOnly (ReadsOnly.tagAt _))) fun t => ?_
  split <;> split
  case isTrue.isTrue | isFalse.isTrue =>
    exact bind (lift (KeepsBreak.remove _)) fun _ => bind (pure _) fun _ =>
      bind (lift (KeepsBreak.split _ _ _)) fun _ => pure _
  on_goal 1 => refine bind (lift (KeepsBreak.of_readsOnly (ReadsOnly.nextBlock _))) fun _ => ?_
  on_goal 2 => refine bind (pure _) fun _ => ?_
  all_goals
    refine bind (lift (KeepsBreak.of_readsOnly (ReadsOnly.tagAt _))) fun _ => ?_
    split
    · exact pure _
    refine bind (lift (KeepsBreak.of_readsOnly (ReadsOnly.less _ _))) fun _ => ?_
    refine bind get fun _ => bind (extend _) fun _ => ?_
    split
    · exact stop_bind _ _
    · exact bind (lift (KeepsBreak.remove _)) fun _ =>
        bind (lift (KeepsBreak.of_readsOnly (ReadsOnly.tagAt _))) fun _ => bind (pure _) fun _ =>
        bind (lift (KeepsBreak.split _ _ _)) fun _ => pure _

theorem resize (p : BlockPtr) (n : Nat) : Raises (resize p n) := by
  unfold Heap.resize
  dsimp only
  split
  · exact bind (release p) fun _ => pure _
  refine bind (live p) fun _ => ?_
  split
  · split
    · exact bind (lift (KeepsBreak.count _)) fun _ => pure _
    refine bind (tryCatch (growInPlace _ _ _) fun _ => pure _) fun _ => ?_
    split
    · exact bind (lift (KeepsBreak.count _)) fun _ => pure _
    exact bind (acquire n) fun _ =>
      bind (lift (KeepsBreak.modifyArena fun _ _ h => Arena.modifyMemory_brk h)) fun _ =>
      bind (lift (KeepsBreak.freeBlock _ _)) fun _ => bind (lift (KeepsBreak.count _)) fun _ => pure _
  · exact throw _

end Raises

end Heap

end Allocator
