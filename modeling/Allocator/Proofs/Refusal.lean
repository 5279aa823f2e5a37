import Allocator.Proofs.Runs

/-! Refused requests. Every fallible step of a request comes before its first write: the
checks on the size and the pointer, the best-fit walk and the block reads only read, and
the one step that may be refused after them is the growth of the arena, which changes
nothing but the arena's count of attempts when it is refused. So a refused acquisition,
release or resize leaves every heap as it was, up to that count, whatever the heap holds.

The argument is carried by three properties of programs, each with the ways programs are
put together: `ReadsOnly` for heap programs that leave the heap alone, `Heap.Yields` for
requests that answer whenever they do not fault, and `Heap.Settles` for requests whose every
outcome is an answer or leaves the heap as it was. -/
namespace Allocator

namespace Heap

variable {α β : Type}

/-- A heap program that only reads: a run that answers leaves the heap as it was. -/
def ReadsOnly (m : HeapM α) : Prop := ∀ h a h', m h = .ok (a, h') → h' = h

namespace ReadsOnly

theorem pure (a : α) : ReadsOnly (Pure.pure a : HeapM α) := fun _ _ _ hr => by
  cases hr
  rfl

theorem get : ReadsOnly (MonadState.get : HeapM Heap) := fun _ _ _ hr => by
  cases hr
  rfl

theorem stop (f : Fault) : ReadsOnly (Heap.stop f : HeapM α) := fun _ _ _ hr => by
  cases hr

theorem bind {x : HeapM α} {f : α → HeapM β} (hx : ReadsOnly x) (hf : ∀ a, ReadsOnly (f a)) :
    ReadsOnly (x >>= f) := by
  intro h b h' hr
  rw [bind_apply] at hr
  rcases hxh : x h with e | ⟨a, h₁⟩
  · rw [hxh] at hr
    cases hr
  · rw [hxh] at hr
    rw [hf a h₁ b h' hr, hx h a h₁ hxh]

theorem word (pos : Nat) : ReadsOnly (Heap.word pos) := fun h a h' hr => by
  simp only [Heap.word] at hr
  cases hw : h.arena.word pos with
  | error e => rw [hw] at hr; cases hr
  | ok w =>
    rw [hw] at hr
    cases hr
    rfl

theorem less (a b : Nat) : ReadsOnly (Heap.less a b) := fun h r h' hr => by
  simp only [Heap.less, offsetBelow] at hr
  split at hr <;> cases hr
  rfl

theorem tagAt (bp : Nat) : ReadsOnly (Heap.tagAt bp) :=
  bind (less bp 4) fun _ => bind (word _) fun _ => pure _

theorem tagBefore (bp : Nat) : ReadsOnly (Heap.tagBefore bp) :=
  bind (less bp 8) fun _ => bind (word _) fun _ => pure _

theorem nextBlock (bp : Nat) : ReadsOnly (Heap.nextBlock bp) :=
  bind (tagAt bp) fun _ => pure _

theorem link (bp : Nat) (which : Link) : ReadsOnly (Heap.link bp which) :=
  bind (word _) fun _ => pure _

/-- The best-fit walk only reads, whatever the links it follows. -/
theorem fitFrom (size : Nat) : ∀ fuel cursor, ReadsOnly (Heap.fitFrom size fuel cursor)
  | _, none => by
    rw [Heap.fitFrom.eq_1]
    exact pure _
  | 0, some _ => by
    rw [Heap.fitFrom.eq_2]
    exact stop _
  | fuel + 1, some c => by
    rw [Heap.fitFrom.eq_3]
    refine bind (link c .larger) fun next => bind (tagAt c) fun t => ?_
    split
    · exact pure _
    · exact fitFrom size fuel next

theorem walkBound : ReadsOnly Heap.walkBound :=
  bind get fun _ => pure _

theorem findFit (size : Nat) : ReadsOnly (Heap.findFit size) :=
  bind walkBound fun _ => bind get fun _ => fitFrom size _ _

end ReadsOnly

/-- Every outcome of `r` is an answer that satisfies `P`, or leaves the heap as it was up to
the arena's count of attempts. -/
def Settles (r : RequestM α) (P : α → Prop) : Prop :=
  ∀ h o h', run r h = .ok (o, h') → (∃ a, o = .ok a ∧ P a) ∨ h.Refused h'

/-- Every outcome of `r` that does not fault is an answer that satisfies `P`. -/
def Yields (r : RequestM α) (P : α → Prop) : Prop :=
  ∀ h o h', run r h = .ok (o, h') → ∃ a, o = .ok a ∧ P a

namespace Yields

theorem pure (a : α) : Yields (Pure.pure a : RequestM α) (· = a) := fun h o h' hr => by
  rw [run_pure] at hr
  cases hr
  exact ⟨a, rfl, rfl⟩

theorem lift (m : HeapM α) : Yields (liftM m : RequestM α) fun _ => True := fun h o h' hr => by
  rw [run_lift] at hr
  split at hr
  · cases hr
    exact ⟨_, rfl, trivial⟩
  · cases hr

theorem bind {Q : α → Prop} {P : β → Prop} {x : RequestM α} {f : α → RequestM β}
    (hx : Yields x Q) (hf : ∀ a, Q a → Yields (f a) P) : Yields (x >>= f) P := by
  intro h o h' hr
  rw [run_bind] at hr
  rcases hxh : run x h with _ | ⟨o₁, h₁⟩
  · rw [hxh] at hr
    cases hr
  · obtain ⟨a, rfl, ha⟩ := hx h o₁ h₁ hxh
    rw [hxh] at hr
    exact hf a ha h₁ o h' hr

theorem mono {P P' : α → Prop} {r : RequestM α} (hr : Yields r P) (hP : ∀ a, P a → P' a) :
    Yields r P' := fun h o h' hrun => by
  obtain ⟨a, rfl, ha⟩ := hr h o h' hrun
  exact ⟨a, rfl, hP a ha⟩

theorem stop (f : Fault) {P : α → Prop} : Yields (Heap.stop f : RequestM α) P :=
  fun _ _ _ hr => by cases hr

theorem pure_true (a : α) : Yields (Pure.pure a : RequestM α) fun _ => True :=
  mono (pure a) fun _ _ => trivial

theorem lift_then (m : HeapM α) (b : β) :
    Yields (liftM m >>= fun _ => (Pure.pure b : RequestM β)) (· = b) :=
  bind (lift m) fun _ _ => pure b

end Yields

namespace Settles

variable {P : α → Prop}

theorem of_yields {r : RequestM α} (hr : Yields r P) : Settles r P := fun h o h' hrun =>
  .inl (hr h o h' hrun)

theorem pure (a : α) : Settles (Pure.pure a : RequestM α) P := fun h o h' hr => by
  rw [run_pure] at hr
  cases hr
  exact .inr (Refused.refl h)

theorem get : Settles (MonadState.get : RequestM Heap) (fun _ => False) := fun h o h' hr => by
  rw [run_get] at hr
  cases hr
  exact .inr (Refused.refl h)

theorem throw (e : HeapError) : Settles (throw e : RequestM α) P := fun h o h' hr => by
  rw [run_throw] at hr
  cases hr
  exact .inr (Refused.refl h)

/-- A heap program that only reads leaves the heap as it was. -/
theorem lift_reads {m : HeapM α} (hm : ReadsOnly m) : Settles (liftM m : RequestM α) P := by
  intro h o h' hr
  rw [run_lift] at hr
  rcases hmh : m h with _ | ⟨b, h₁⟩
  · rw [hmh] at hr
    cases hr
  · rw [hmh] at hr
    obtain ⟨-, rfl⟩ : o = .ok b ∧ h' = h₁ := by simpa [eq_comm] using hr
    rw [hm h b _ hmh]
    exact .inr (Refused.refl h)

theorem mono {P' : α → Prop} {r : RequestM α} (hr : Settles r P) (hP : ∀ a, P a → P' a) :
    Settles r P' := fun h o h' hrun => by
  rcases hr h o h' hrun with ⟨a, rfl, ha⟩ | hre
  · exact .inl ⟨a, rfl, hP a ha⟩
  · exact .inr hre

/-- Sequencing: a first part that settles on answers `Q`, after which the rest is sure to
answer `P`, and which otherwise leaves the heap for a rest that settles on `P`. -/
theorem bind {Q : α → Prop} {P : β → Prop} {x : RequestM α} {f : α → RequestM β}
    (hx : Settles x Q) (hQ : ∀ a, Q a → Yields (f a) P) (hf : ∀ a, Settles (f a) P) :
    Settles (x >>= f) P := by
  intro h o h' hr
  rw [run_bind] at hr
  rcases hxh : run x h with _ | ⟨o₁, h₁⟩
  · rw [hxh] at hr
    cases hr
  rcases hx h o₁ h₁ hxh with ⟨a, rfl, ha⟩ | hre
  · rw [hxh] at hr
    exact .inl (hQ a ha h₁ o h' hr)
  · rw [hxh] at hr
    cases o₁ with
    | error e =>
      cases hr
      exact .inr hre
    | ok a =>
      rcases hf a h₁ o h' hr with hans | hre'
      · exact .inl hans
      · exact .inr (hre.trans hre')

theorem bind_reads {P : β → Prop} {m : HeapM α} {f : α → RequestM β} (hm : ReadsOnly m)
    (hf : ∀ a, Settles (f a) P) : Settles (liftM m >>= f) P :=
  bind (Q := fun _ => False) (lift_reads hm) (fun _ h => h.elim) hf

theorem throw_bind (e : HeapError) (f : α → RequestM β) {P : β → Prop} :
    Settles ((MonadExcept.throw e : RequestM α) >>= f) P := fun h o h' hr => by
  rw [run_bind_error (run_throw e h)] at hr
  cases hr
  exact .inr (Refused.refl h)

/-- Catching a refusal with a fallback: a clean refusal hands the fallback the heap it left. -/
theorem tryCatch {r : RequestM α} {c : HeapError → RequestM α} (hr : Settles r P)
    (hc : ∀ e, Settles (c e) P) : Settles (tryCatch r c) P := by
  intro h o h' hrun
  rw [run_tryCatch] at hrun
  rcases hrh : run r h with _ | ⟨o₁, h₁⟩
  · rw [hrh] at hrun
    cases hrun
  rcases hr h o₁ h₁ hrh with ⟨a, rfl, ha⟩ | hre
  · rw [hrh] at hrun
    cases hrun
    exact .inl ⟨a, rfl, ha⟩
  · rw [hrh] at hrun
    cases o₁ with
    | ok a =>
      cases hrun
      exact .inr hre
    | error e =>
      rcases hc e h₁ o h' hrun with hans | hre'
      · exact .inl hans
      · exact .inr (hre.trans hre')

theorem refused {r : RequestM α} (hr : Settles r P) {h h' : Heap} {e : HeapError}
    (hrun : run r h = .ok (.error e, h')) : h.Refused h' := by
  rcases hr h _ h' hrun with ⟨a, ha, -⟩ | hre
  · cases ha
  · exact hre

end Settles

end Heap

section Requests

open Heap

/-- Checking a pointer reads the heap and nothing else. -/
theorem live_settles (p : BlockPtr) {P : Tag → Prop} : Settles (live p) P := by
  intro h o h' hr
  cases hl : h.liveTag p with
  | ok t =>
    rw [run_live hl] at hr
    cases hr
    exact .inr (Refused.refl h)
  | error e =>
    rw [run_live_error hl] at hr
    cases hr
    exact .inr (Refused.refl h)

theorem extend_settles (size : Nat) : Settles (extend size) fun _ => True := by
  intro h o h' hr
  cases o with
  | ok a => exact .inl ⟨a, rfl, trivial⟩
  | error e => exact .inr (extend_refused hr).1

/-- An acquisition is refused only cleanly: the size checks come first, the best-fit walk
only reads, and after the growth of the arena nothing can be refused. -/
theorem acquire_settles (n : Nat) : Settles (acquire n) fun _ => True := by
  unfold Heap.acquire
  dsimp only
  split
  · exact Settles.throw_bind _ _
  split
  · refine Settles.bind_reads (ReadsOnly.findFit _) fun found => ?_
    split
    · exact Settles.of_yields <| (Yields.pure_true _).bind fun _ _ =>
        (Yields.lift _).bind fun _ _ => (Yields.lift _).bind fun _ _ => Yields.pure_true _
    · exact Settles.bind (Q := fun _ => False) Settles.get (fun _ h => h.elim) fun _ =>
        Settles.bind (extend_settles _)
          (fun _ _ => (Yields.lift _).bind fun _ _ => (Yields.lift _).bind fun _ _ =>
            Yields.pure_true _)
          fun _ => Settles.of_yields <| (Yields.lift _).bind fun _ _ =>
            (Yields.lift _).bind fun _ _ => Yields.pure_true _
  · exact Settles.throw _

theorem release_settles (p : BlockPtr) : Settles (release p) fun _ => True :=
  Settles.bind (Q := fun _ => False) (live_settles p) (fun _ h => h.elim) fun _ =>
    Settles.of_yields <| (Yields.lift _).bind fun _ _ => Yields.lift _

/-- A growth in place answers that the block grew, or leaves the heap as it was: it reads
the blocks after `bp` first, answers false before any write when they do not end at the
epilogue, and is refused only by the growth of the arena. -/
theorem growInPlace_settles (bp current adjusted : Nat) :
    Settles (growInPlace bp current adjusted) (· = true) := by
  unfold Heap.growInPlace
  dsimp only
  refine Settles.bind_reads (ReadsOnly.nextBlock _) fun next => ?_
  refine Settles.bind_reads (ReadsOnly.tagAt _) fun t => ?_
  split <;> split
  case isTrue.isTrue =>
    exact Settles.of_yields <| (Yields.lift _).bind fun _ _ => (Yields.pure_true _).bind
      fun _ _ => Yields.lift_then _ _
  case isFalse.isTrue hfree hsuff => exact absurd hsuff.1 hfree
  all_goals
    refine Settles.bind (Q := fun _ => False) ?_ (fun _ h => h.elim) fun last => ?_
    · first
        | exact Settles.lift_reads (ReadsOnly.nextBlock _)
        | exact Settles.pure _
    refine Settles.bind_reads (ReadsOnly.tagAt _) fun _ => ?_
    split
    · exact Settles.pure _
    refine Settles.bind_reads (ReadsOnly.less _ _) fun _ => ?_
    refine Settles.bind (Q := fun _ => False) Settles.get (fun _ h => h.elim) fun _ => ?_
    refine Settles.bind (extend_settles _) (fun grown _ => ?_) fun grown => Settles.of_yields ?_
    all_goals
      split
      · exact (Yields.stop (P := fun _ => False) _).bind fun _ h => h.elim
      · exact (Yields.lift _).bind fun _ _ => (Yields.lift _).bind fun _ _ =>
          (Yields.pure_true _).bind fun _ _ => Yields.lift_then _ _
/-- A resize is refused only cleanly: the size and pointer checks only read, a growth in
place that cannot be made leaves the heap for the relocation, and the relocation is refused
only as an acquisition is. -/
theorem resize_settles (p : BlockPtr) (n : Nat) : Settles (resize p n) fun _ => True := by
  unfold Heap.resize
  dsimp only
  split
  · exact Settles.bind (release_settles p) (fun _ _ => Yields.pure_true _) fun _ => Settles.pure _
  refine Settles.bind (Q := fun _ => False) (live_settles p) (fun _ h => h.elim) fun t => ?_
  split
  · split
    · exact Settles.of_yields <| Yields.lift_then _ _ |>.mono fun _ _ => trivial
    refine Settles.bind (Settles.tryCatch (growInPlace_settles _ _ _) fun _ => Settles.pure _)
      (fun grown hg => ?_) fun grown => ?_
    · subst hg
      exact (Yields.lift_then _ _).mono fun _ _ => trivial
    split
    · exact Settles.of_yields <| (Yields.lift_then _ _).mono fun _ _ => trivial
    refine Settles.bind (acquire_settles n) (fun q _ => ?_) fun q => Settles.of_yields ?_
    all_goals exact (Yields.lift _).bind fun _ _ => (Yields.lift _).bind fun _ _ =>
      (Yields.lift_then _ _).mono fun _ _ => trivial
  · exact Settles.throw _

/-- A refused release was refused by the pointer check, before anything ran. -/
theorem release_refusal {h h' : Heap} {p : BlockPtr} {e : HeapError}
    (hr : run (release p) h = .ok (.error e, h')) : h.liveTag p = .error e ∧ h' = h := by
  cases hl : h.liveTag p with
  | error e' =>
    rw [release_rejected hl] at hr
    cases hr
    exact ⟨rfl, rfl⟩
  | ok t =>
    unfold Heap.release at hr
    rw [run_bind_ok (run_live hl)] at hr
    obtain ⟨_, ha, -⟩ := ((Yields.lift _).bind fun _ _ => Yields.lift _) _ _ _ hr
    cases ha

end Requests

/-- Some heap is reachable: the one built over a growable arena of 64 bytes with growths of
16 bytes. -/
theorem exists_reachable : ∃ h : Heap, h.Reachable := by
  obtain ⟨h, hcr, -⟩ := Heap.createdWith_eq_true
    (show Heap.createdWith (Arena.growable 64) ⟨16, 16⟩ (fun _ => true) = true by decide +kernel)
  exact ⟨h, .create (Arena.growable_backed 64)
    ⟨by decide, by decide, by decide, by decide, by decide⟩ hcr⟩

/-- Some reachable heap has a live block: a request of eight bytes on a freshly built heap is
served. -/
theorem exists_reachable_live : ∃ (h : Heap) (p : BlockPtr), h.Reachable ∧ h.Live p := by
  obtain ⟨h, hcr, hok⟩ := Heap.createdWith_eq_true
    (show Heap.createdWith (Arena.growable 64) ⟨16, 16⟩
      (fun h => Heap.servedWith (Heap.acquire 8) h fun _ _ => true) = true by decide +kernel)
  obtain ⟨p, h', hrun, -⟩ := Heap.servedWith_eq_true hok
  have hr : h.Reachable := .create (Arena.growable_backed 64)
    ⟨by decide, by decide, by decide, by decide, by decide⟩ hcr
  obtain ⟨⟨bs, fl, hs⟩, hb, -, hc⟩ := hr.valid
  rcases acquire_apply hs hb hc (by decide) (show adjust 8 = some 16 by decide) with
    ⟨e, h'', re, -⟩ | ⟨h'', bs', a, ra, sv, ha, has, -⟩
  · rw [hrun] at re
    cases re
  · rw [hrun] at ra
    obtain ⟨rfl, rfl⟩ : p = ⟨a.ptr⟩ ∧ h' = h'' := by simpa using ra
    obtain ⟨fl', hs'⟩ := sv.shape
    exact ⟨_, ⟨a.ptr⟩, hr.step (.acquire 8 hrun), a, by rw [hs'.layout.blocks_eq]; exact ha,
      has, rfl⟩

/-- Refusals change nothing. On every reachable heap, a refused acquisition, release or
resize leaves the heap as it was but for the arena's count of attempts, and a refused release
leaves it exactly as it was. A live pointer is released without fail, and resized unless its
new size overflows or memory runs out, whichever of the growths on the way is refused. -/
theorem refusals_leave_heap {h : Heap} (hr : h.Reachable) :
    (∀ n e h', Heap.run (Heap.acquire n) h = .ok (.error e, h') → h.Refused h') ∧
    (∀ p e h', Heap.run (Heap.release p) h = .ok (.error e, h') → h' = h) ∧
    (∀ p n e h', Heap.run (Heap.resize p n) h = .ok (.error e, h') → h.Refused h') ∧
    ∀ p, h.Live p → (∃ h', Heap.run (Heap.release p) h = .ok (.ok (), h')) ∧
      ∀ n, ∃ r h', Heap.run (Heap.resize p n) h = .ok (r, h') ∧
        ∀ e, r = .error e →
          (e = .invalidSize n ∧ adjust n = none) ∨ ∃ k ae, e = .outOfMemory k ae := by
  refine ⟨fun n _ _ hrun => (acquire_settles n).refused hrun,
    fun p _ _ hrun => (release_refusal hrun).2,
    fun p n _ _ hrun => (resize_settles p n).refused hrun, fun p hp => ?_⟩
  obtain ⟨⟨bs, fl, hs⟩, hb, -, hc⟩ := hr.valid
  obtain ⟨pre, b, post, rfl, hba, rfl⟩ := hs.live hp
  refine ⟨?_, fun n => ?_⟩
  · obtain ⟨h', -, hrun, -⟩ := release_apply hs hba hb
    exact ⟨h', hrun⟩
  · obtain ⟨r, h', hrun, herr, -⟩ := resize_apply hs hb hc hba n
    exact ⟨r, h', hrun, fun e he => (herr e he).2⟩

theorem built_heap_refusals_leave_heap : ∃ h : Heap, h.Reachable ∧
    (∀ n e h', Heap.run (Heap.acquire n) h = .ok (.error e, h') → h.Refused h') ∧
    (∀ p e h', Heap.run (Heap.release p) h = .ok (.error e, h') → h' = h) ∧
    (∀ p n e h', Heap.run (Heap.resize p n) h = .ok (.error e, h') → h.Refused h') ∧
    ∀ p, h.Live p → (∃ h', Heap.run (Heap.release p) h = .ok (.ok (), h')) ∧
      ∀ n, ∃ r h', Heap.run (Heap.resize p n) h = .ok (r, h') ∧
        ∀ e, r = .error e →
          (e = .invalidSize n ∧ adjust n = none) ∨ ∃ k ae, e = .outOfMemory k ae := by
  obtain ⟨h, hr⟩ := exists_reachable
  exact ⟨h, hr, refusals_leave_heap hr⟩

end Allocator
