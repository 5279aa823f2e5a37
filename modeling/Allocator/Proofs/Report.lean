import Allocator.Proofs.Replay
import Allocator.Proofs.Break
import Allocator.Proofs.Ratio
import Allocator.Proofs.Statistics

/-! What a finished replay reports. The trace fixes, for every prefix, which identifiers are
live and the size each last asked for (`Ledger`, `Ledger.after`); the replay's own books
follow it record by record (`Replay.Books`): the sum it keeps is the ledger's total, so no
release or resize ever takes more from it than it holds, and the peak it reports is the
largest total over all prefixes. On a reachable heap every live identifier holds its own
allocated block with room for its size, so the total is at most the bytes of the block area,
the break less the sixteen bytes of padding, prologue and epilogue; the break never falls
during a replay, so the peak is within the final arena and the utilization is below one. -/
namespace Allocator

/-- What the live identifiers of a trace asked for: the identifiers, and for each the size of
its last acquisition or resize. -/
structure Ledger where
  /-- The live identifiers. -/
  ids : Finset Nat
  /-- The size each asked for. -/
  size : Nat → Nat

namespace Ledger

/-- No identifier live. -/
def empty : Ledger := ⟨∅, fun _ => 0⟩

/-- The sum of the sizes the live identifiers asked for. -/
def total (l : Ledger) : Nat := ∑ k ∈ l.ids, l.size k

/-- The ledger after a request, under the trace's own rules; none when the request breaks
them. A resize to zero ends the identifier, as a release does. -/
def enter (l : Ledger) : Request → Option Ledger
  | .acquire id s =>
    if id ∈ l.ids then none else some ⟨insert id l.ids, Function.update l.size id s⟩
  | .release id => if id ∈ l.ids then some ⟨l.ids.erase id, l.size⟩ else none
  | .resize id s =>
    if id ∈ l.ids then
      some (if s = 0 then ⟨l.ids.erase id, l.size⟩ else ⟨l.ids, Function.update l.size id s⟩)
    else none

/-- The ledger after a run of records; none when a record breaks the trace's rules. -/
def after (l : Ledger) : List Record → Option Ledger
  | [] => some l
  | r :: rest => (l.enter r.request).bind fun l' => l'.after rest

/-- The largest total along a run of records, `l`'s own included, up to the first record that
breaks the trace's rules. -/
def peakAlong (l : Ledger) : List Record → Nat
  | [] => l.total
  | r :: rest =>
    match l.enter r.request with
    | some l' => max l.total (l'.peakAlong rest)
    | none => l.total

section Totals

variable {l : Ledger} {k : Nat}

theorem total_insert (hk : k ∉ l.ids) (s : Nat) :
    (⟨insert k l.ids, Function.update l.size k s⟩ : Ledger).total = l.total + s := by
  have hrest : ∑ j ∈ l.ids, Function.update l.size k s j = ∑ j ∈ l.ids, l.size j :=
    Finset.sum_congr rfl fun j hj => Function.update_of_ne (by rintro rfl; exact hk hj) _ _
  show ∑ j ∈ insert k l.ids, Function.update l.size k s j = ∑ j ∈ l.ids, l.size j + s
  rw [Finset.sum_insert hk, Function.update_self, hrest, Nat.add_comm]

theorem total_erase (hk : k ∈ l.ids) : (⟨l.ids.erase k, l.size⟩ : Ledger).total + l.size k = l.total :=
  Finset.sum_erase_add _ _ hk

theorem total_update (hk : k ∈ l.ids) (s : Nat) :
    (⟨l.ids, Function.update l.size k s⟩ : Ledger).total + l.size k = l.total + s := by
  have e1 := Finset.sum_erase_add l.ids (Function.update l.size k s) hk
  have e2 := Finset.sum_erase_add l.ids l.size hk
  have hrest : ∑ j ∈ l.ids.erase k, Function.update l.size k s j = ∑ j ∈ l.ids.erase k, l.size j :=
    Finset.sum_congr rfl fun j hj => Function.update_of_ne (Finset.ne_of_mem_erase hj) _ _
  rw [Function.update_self, hrest] at e1
  show ∑ j ∈ l.ids, Function.update l.size k s j + l.size k = ∑ j ∈ l.ids, l.size j + s
  omega

end Totals

/-- The ledger's identifiers follow the trace's rules for identifiers. -/
theorem enter_ids (l : Ledger) (req : Request) : (l.enter req).map ids = req.idStep l.ids := by
  cases req with
  | acquire id s => by_cases h : id ∈ l.ids <;> simp [enter, Request.idStep, h]
  | release id => by_cases h : id ∈ l.ids <;> simp [enter, Request.idStep, h]
  | resize id s =>
    by_cases h : id ∈ l.ids
    · by_cases h0 : s = 0 <;> simp [enter, Request.idStep, h, h0]
    · simp [enter, Request.idStep, h]

theorem after_ids (l : Ledger) (rs : List Record) : (l.after rs).map ids = idsAfter l.ids rs := by
  induction rs generalizing l with
  | nil => rfl
  | cons r rest ih =>
    have he := enter_ids l r.request
    simp only [after, idsAfter]
    cases hl : l.enter r.request with
    | none =>
      rw [hl] at he
      simp only [Option.map_none] at he
      rw [← he]
      rfl
    | some l' =>
      rw [hl] at he
      simp only [Option.map_some] at he
      rw [← he]
      exact ih l'

section Peak

theorem total_le_peakAlong (l : Ledger) (rs : List Record) : l.total ≤ l.peakAlong rs := by
  cases rs with
  | nil => exact le_rfl
  | cons r rest =>
    simp only [peakAlong]
    split
    · exact le_max_left _ _
    · exact le_rfl

/-- The total after every prefix of a run is at most its peak. -/
theorem le_peakAlong {l l₁ : Ledger} {pre rs : List Record} (hpre : pre <+: rs)
    (hl : l.after pre = some l₁) : l₁.total ≤ l.peakAlong rs := by
  induction rs generalizing l pre with
  | nil =>
    obtain rfl := List.prefix_nil.mp hpre
    cases hl
    exact le_rfl
  | cons r rest ih =>
    rcases List.prefix_cons_iff.mp hpre with rfl | ⟨pre', rfl, hpre'⟩
    · cases hl
      exact total_le_peakAlong _ _
    · simp only [after] at hl
      cases he : l.enter r.request with
      | none => simp [he] at hl
      | some l' =>
        simp only [he, Option.bind_some] at hl
        simp only [peakAlong, he]
        exact (ih hpre' hl).trans (le_max_right _ _)

/-- The peak of a run is the total after one of its prefixes. -/
theorem exists_peakAlong (l : Ledger) (rs : List Record) :
    ∃ pre l₁, pre <+: rs ∧ l.after pre = some l₁ ∧ l₁.total = l.peakAlong rs := by
  induction rs generalizing l with
  | nil => exact ⟨[], l, List.prefix_rfl, rfl, rfl⟩
  | cons r rest ih =>
    cases he : l.enter r.request with
    | none => exact ⟨[], l, List.nil_prefix, rfl, by simp only [peakAlong, he]⟩
    | some l' =>
      by_cases hle : l'.peakAlong rest ≤ l.total
      · exact ⟨[], l, List.nil_prefix, rfl, by simp only [peakAlong, he]; omega⟩
      · obtain ⟨pre, l₁, hpre, hl, ht⟩ := ih l'
        refine ⟨r :: pre, l₁, List.cons_prefix_cons.mpr ⟨rfl, hpre⟩, ?_, ?_⟩
        · simp only [after, he, Option.bind_some, hl]
        · simp only [peakAlong, he]
          omega

end Peak

end Ledger

namespace Heap

variable {α : Type}

/-- Every answer of a request satisfies `P`; refusals and faults are not constrained. -/
def Answers (r : RequestM α) (P : α → Prop) : Prop :=
  ∀ h a h', run r h = .ok (.ok a, h') → P a

namespace Answers

variable {β : Type} {P : α → Prop}

theorem pure {a : α} (ha : P a) : Answers (Pure.pure a : RequestM α) P := fun h b h' hr => by
  rw [run_pure] at hr
  cases hr
  exact ha

theorem throw (e : HeapError) : Answers (throw e : RequestM α) P := fun h b h' hr => by
  rw [run_throw] at hr
  cases hr

/-- What a sequence answers is what its last part answers. -/
theorem bind {P : β → Prop} {x : RequestM α} {f : α → RequestM β} (hf : ∀ a, Answers (f a) P) :
    Answers (x >>= f) P := by
  intro h b h' hr
  rw [run_bind] at hr
  rcases hxh : run x h with e | ⟨o₁, h₁⟩
  · rw [hxh] at hr
    cases hr
  · rw [hxh] at hr
    cases o₁ with
    | error e => cases hr
    | ok a => exact hf a h₁ b h' hr

end Answers

/-- On any heap, a resize answers none exactly when it was asked for no bytes. -/
theorem resize_answers (p : BlockPtr) (n : Nat) : Answers (resize p n) fun o => o = none ↔ n = 0 := by
  unfold Heap.resize
  dsimp only
  split
  · rename_i h0
    exact Answers.bind fun _ => Answers.pure (iff_of_true rfl h0)
  rename_i h0
  have hsome : ∀ q : BlockPtr, (some q = none ↔ n = 0) := fun q => iff_of_false (Option.some_ne_none q) h0
  refine Answers.bind fun _ => ?_
  split
  · split
    · exact Answers.bind fun _ => Answers.pure (hsome _)
    refine Answers.bind fun _ => ?_
    split
    · exact Answers.bind fun _ => Answers.pure (hsome _)
    · exact Answers.bind fun _ => Answers.bind fun _ => Answers.bind fun _ => Answers.bind fun _ =>
        Answers.pure (hsome _)
  · exact Answers.throw _

end Heap

/-- A replay failure that does not report a record as breaking the trace's rules: the heap
refused the request, a pattern was found overwritten, or the check failed. -/
def TraceError.Benign : TraceError → Prop
  | .heap .. | .corrupted .. | .inconsistent .. => True
  | _ => False

namespace Replay

variable {opts : ReplayOptions} {st st' : Replay} {line key size : Nat}

theorem payloadFor_benign {h : Heap} {ptr : BlockPtr} {len : Nat} {e : TraceError}
    (hp : payloadFor h line ptr len = .ok (.error e)) : e.Benign := by
  unfold payloadFor at hp
  split at hp
  · cases hp
    trivial
  · split at hp <;> cases hp

/-- A pattern check fails only as the payload lookup does, or on an overwritten pattern. -/
theorem verify_benign {h : Heap} {ptr : BlockPtr} {len : Nat} {e : TraceError}
    (hv : verify h line key ptr len = .ok (.error e)) : e.Benign := by
  simp only [verify, bind, Except.bind] at hv
  split at hv
  · cases hv
  rename_i v hp
  split at hv
  · simp only [pure, Except.pure, Except.ok.injEq, Except.error.injEq] at hv
    subst hv
    exact payloadFor_benign hp
  · split at hv
    · cases hv
    simp only [pure, Except.pure, Except.ok.injEq] at hv
    split at hv
    · cases hv
    · cases hv
      trivial

/-- Filling a block writes payload bytes only: the bindings, the sums and the break stay;
it fails only as the payload lookup does. -/
theorem fill_spec {b : Binding} {out : Except TraceError Unit}
    (h : st.fill line key b = .ok (st', out)) :
    (∀ e, out = .error e → e.Benign) ∧
      (out = .ok () → st'.live = st.live ∧ st'.payload = st.payload ∧ st'.peak = st.peak ∧
        st'.heap.arena.brk = st.heap.arena.brk) := by
  obtain ⟨heap, live, payload, peak⟩ := st
  simp only [Replay.fill, bind, Except.bind] at h
  split at h
  · cases h
  rename_i v hp
  split at h
  · simp only [pure, Except.pure, Except.ok.injEq, Prod.mk.injEq] at h
    obtain ⟨-, rfl⟩ := h
    exact ⟨fun e he => (by cases he; exact payloadFor_benign hp), fun he => by cases he⟩
  split at h
  · cases h
  rename_i v hw
  obtain ⟨⟨⟩, h₂⟩ := v
  simp only [pure, Except.pure, Except.ok.injEq, Prod.mk.injEq] at h
  obtain ⟨rfl, rfl⟩ := h
  exact ⟨fun e he => (by cases he), fun _ => ⟨rfl, rfl, rfl,
    Heap.KeepsBreak.modifyArena (fun _ _ h => Arena.modifyMemory_brk h) heap () h₂ hw⟩⟩

/-- A replayed acquisition: for a live identifier it is reported as such; otherwise it fails
only as the heap or the fill does, and when it goes through it binds the identifier to the
block answered and adds the size asked for. -/
theorem apply_acquire {out : Except TraceError Unit}
    (h : st.apply opts line (.acquire key size) = .ok (st', out)) :
    (st.live.contains key = true ∧ out = .error (.liveId line key)) ∨
      (st.live.contains key = false ∧ (∀ e, out = .error e → e.Benign) ∧
        (out = .ok () → ∃ ptr, st'.live = st.live.insert key ⟨ptr, size⟩ ∧
          st'.payload = st.payload + size ∧ st'.peak = st.peak ∧
          st.heap.arena.brk ≤ st'.heap.arena.brk)) := by
  simp only [Replay.apply, bind, Except.bind, request_eq] at h
  split at h
  · rename_i hc
    simp only [pure, Except.pure, Except.ok.injEq, Prod.mk.injEq] at h
    exact .inl ⟨hc, h.2.symm⟩
  rename_i hc
  refine .inr ⟨by simpa using hc, ?_⟩
  rcases hr : Heap.run (Heap.acquire size) st.heap with f | ⟨o, h₁⟩
  · rw [hr] at h
    cases h
  rw [hr] at h
  simp only [Except.map] at h
  cases o with
  | error e =>
    simp only [Except.mapError, pure, Except.pure, Except.ok.injEq, Prod.mk.injEq] at h
    obtain ⟨-, rfl⟩ := h
    exact ⟨fun e' he => (by cases he; trivial), fun he => by cases he⟩
  | ok ptr =>
    have hbrk := Heap.Raises.acquire size st.heap _ h₁ hr
    simp only [Except.mapError] at h
    by_cases hv : opts.verifyPayloads = true
    · rw [if_pos hv] at h
      split at h
      · cases h
      rename_i v hfill
      obtain ⟨st₂, o₂⟩ := v
      have hspec := fill_spec hfill
      cases o₂ with
      | error e =>
        simp only [pure, Except.pure, Except.ok.injEq, Prod.mk.injEq] at h
        obtain ⟨-, rfl⟩ := h
        exact ⟨hspec.1, fun he => by cases he⟩
      | ok u =>
        obtain ⟨hl, hp, hk, hb⟩ := hspec.2 rfl
        simp only [pure, Except.pure, Except.ok.injEq, Prod.mk.injEq] at h
        obtain ⟨rfl, rfl⟩ := h
        refine ⟨fun e he => (by cases he), fun _ => ⟨ptr, ?_⟩⟩
        simp only [track_eq, hl, hp, hk, hb, true_and]
        exact hbrk
    · rw [if_neg hv] at h
      simp only [pure, Except.pure, Except.ok.injEq, Prod.mk.injEq] at h
      obtain ⟨rfl, rfl⟩ := h
      refine ⟨fun e he => (by cases he), fun _ => ⟨ptr, ?_⟩⟩
      simp only [track_eq, true_and]
      exact hbrk

/-- A replayed release: for an identifier that is not live it is reported as such; otherwise
it fails only as the pattern check or the heap does, and when it goes through it unbinds the
identifier and takes back its size. -/
theorem apply_release {out : Except TraceError Unit}
    (h : st.apply opts line (.release key) = .ok (st', out)) :
    (st.live.get? key = none ∧ out = .error (.unknownId line key)) ∨
      (∃ b, st.live.get? key = some b ∧ (∀ e, out = .error e → e.Benign) ∧
        (out = .ok () → st'.live = st.live.erase key ∧ st'.payload = st.payload - b.size ∧
          st'.peak = st.peak ∧ st.heap.arena.brk ≤ st'.heap.arena.brk)) := by
  simp only [Replay.apply, bind, Except.bind, request_eq, track_eq] at h
  split at h
  · rename_i hb
    simp only [pure, Except.pure, Except.ok.injEq, Prod.mk.injEq] at h
    exact .inl ⟨hb, h.2.symm⟩
  rename_i b hb
  refine .inr ⟨b, hb, ?_⟩
  by_cases hv : opts.verifyPayloads = true
  on_goal 1 =>
    rw [if_pos hv] at h
    split at h
    · cases h
    rename_i v hver
    split at h
    · simp only [pure, Except.pure, Except.ok.injEq, Prod.mk.injEq] at h
      obtain ⟨-, rfl⟩ := h
      exact ⟨fun e he => (by cases he; exact verify_benign hver), fun he => by cases he⟩
  on_goal 2 => rw [if_neg hv] at h
  all_goals
    rcases hr : Heap.run (Heap.release b.ptr) st.heap with f | ⟨o, h₁⟩
    · rw [hr] at h
      cases h
    rw [hr] at h
    simp only [Except.map] at h
    cases o with
    | error e =>
      simp only [Except.mapError, pure, Except.pure, Except.ok.injEq, Prod.mk.injEq] at h
      obtain ⟨-, rfl⟩ := h
      exact ⟨fun e' he => (by cases he; trivial), fun he => by cases he⟩
    | ok u =>
      simp only [Except.mapError, pure, Except.pure, Except.ok.injEq, Prod.mk.injEq] at h
      obtain ⟨rfl, rfl⟩ := h
      exact ⟨fun e he => (by cases he), fun _ => ⟨rfl, rfl, rfl, Heap.Raises.release b.ptr st.heap _ h₁ hr⟩⟩

/-- A replayed resize: for an identifier that is not live it is reported as such; otherwise
it fails only as the pattern checks, the heap or the fill do, and when it goes through it
unbinds the identifier for a size of zero and binds it to the block answered otherwise,
taking back the old size and adding the new one. -/
theorem apply_resize {out : Except TraceError Unit}
    (h : st.apply opts line (.resize key size) = .ok (st', out)) :
    (st.live.get? key = none ∧ out = .error (.unknownId line key)) ∨
      (∃ old, st.live.get? key = some old ∧ (∀ e, out = .error e → e.Benign) ∧
        (out = .ok () → st'.peak = st.peak ∧ st.heap.arena.brk ≤ st'.heap.arena.brk ∧
          ((size = 0 ∧ st'.live = st.live.erase key ∧ st'.payload = st.payload - old.size) ∨
            (size ≠ 0 ∧ ∃ ptr, st'.live = st.live.insert key ⟨ptr, size⟩ ∧
              st'.payload = st.payload - old.size + size)))) := by
  simp only [Replay.apply, bind, Except.bind, request_eq, track_eq] at h
  split at h
  · rename_i hb
    simp only [pure, Except.pure, Except.ok.injEq, Prod.mk.injEq] at h
    exact .inl ⟨hb, h.2.symm⟩
  rename_i old hold
  refine .inr ⟨old, hold, ?_⟩
  by_cases hv : opts.verifyPayloads = true
  on_goal 1 =>
    rw [if_pos hv] at h
    split at h
    · cases h
    rename_i v hver
    split at h
    · simp only [pure, Except.pure, Except.ok.injEq, Prod.mk.injEq] at h
      obtain ⟨-, rfl⟩ := h
      exact ⟨fun e he => (by cases he; exact verify_benign hver), fun he => by cases he⟩
  on_goal 2 => rw [if_neg hv] at h
  all_goals
    rcases hr : Heap.run (Heap.resize old.ptr size) st.heap with f | ⟨o, h₁⟩
    · rw [hr] at h
      cases h
    rw [hr] at h
    simp only [Except.map] at h
    have hbrk := Heap.Raises.resize old.ptr size st.heap _ h₁ hr
    have hans := Heap.resize_answers old.ptr size st.heap
    rcases o with e | _ | ptr
    · simp only [Except.mapError, pure, Except.pure, Except.ok.injEq, Prod.mk.injEq] at h
      obtain ⟨-, rfl⟩ := h
      exact ⟨fun e' he => (by cases he; trivial), fun he => by cases he⟩
    · simp only [Except.mapError, pure, Except.pure, Except.ok.injEq, Prod.mk.injEq] at h
      obtain ⟨rfl, rfl⟩ := h
      exact ⟨fun e he => (by cases he), fun _ => ⟨rfl, hbrk, .inl ⟨(hans none h₁ hr).mp rfl, rfl, rfl⟩⟩⟩
    have h0 : size ≠ 0 := fun h0 => Option.some_ne_none ptr ((hans _ h₁ hr).mpr h0)
    simp only [Except.mapError] at h
    by_cases hv' : opts.verifyPayloads = true
    · rw [if_pos hv'] at h
      split at h
      · cases h
      rename_i v hver'
      split at h
      · simp only [pure, Except.pure, Except.ok.injEq, Prod.mk.injEq] at h
        obtain ⟨-, rfl⟩ := h
        exact ⟨fun e he => (by cases he; exact verify_benign hver'), fun he => by cases he⟩
      split at h
      · cases h
      rename_i v hfill
      obtain ⟨st₂, o₂⟩ := v
      have hspec := fill_spec hfill
      cases o₂ with
      | error e =>
        simp only [pure, Except.pure, Except.ok.injEq, Prod.mk.injEq] at h
        obtain ⟨-, rfl⟩ := h
        exact ⟨hspec.1, fun he => by cases he⟩
      | ok u =>
        obtain ⟨hl, hp, hk, hb⟩ := hspec.2 rfl
        simp only [pure, Except.pure, Except.ok.injEq, Prod.mk.injEq] at h
        obtain ⟨rfl, rfl⟩ := h
        simp only at hl hp hk hb
        exact ⟨fun e he => (by cases he),
          fun _ => ⟨hk, hbrk.trans hb.ge, .inr ⟨h0, ptr, by rw [hl], by rw [hp]⟩⟩⟩
    · rw [if_neg hv'] at h
      simp only [pure, Except.pure, Except.ok.injEq, Prod.mk.injEq] at h
      obtain ⟨rfl, rfl⟩ := h
      exact ⟨fun e he => (by cases he), fun _ => ⟨rfl, hbrk, .inr ⟨h0, ptr, rfl, rfl⟩⟩⟩

/-- The replay's books follow the ledger `l`: it binds exactly the ledger's identifiers, each
with the size the ledger records, and the sum it keeps is the ledger's total. -/
structure Books (st : Replay) (l : Ledger) : Prop where
  keys : ∀ k, (st.live.get? k).isSome ↔ k ∈ l.ids
  sizes : ∀ k b, st.live.get? k = some b → b.size = l.size k
  payload : st.payload = l.total

namespace Books

variable {l : Ledger}

theorem mem_of_get? (hb : st.Books l) {b : Binding} (h : st.live.get? key = some b) :
    key ∈ l.ids :=
  (hb.keys key).mp (by rw [h]; rfl)

/-- Unbinding a live identifier and taking back its size follows the ledger's erasure; the
sum held its size, so nothing is lost to truncation. -/
theorem unbind (hb : st.Books l) {b : Binding} (hkey : st.live.get? key = some b)
    (hlive : st'.live = st.live.erase key) (hpay : st'.payload = st.payload - b.size) :
    st'.Books ⟨l.ids.erase key, l.size⟩ where
  keys k := by
    rw [hlive, Std.HashMap.get?_erase, Finset.mem_erase, ← hb.keys k]
    by_cases hk : key = k
    · subst hk
      simp
    · simp [hk, Ne.symm hk]
  sizes k c hc := by
    rw [hlive, Std.HashMap.get?_erase] at hc
    split at hc
    · cases hc
    · exact hb.sizes k c hc
  payload := by
    have he := Ledger.total_erase (hb.mem_of_get? hkey)
    rw [hpay, hb.payload, hb.sizes key b hkey]
    omega

/-- Binding an identifier to a block asked for `s` bytes follows the ledger's update. -/
theorem rebind (hb : st.Books l) {s : Nat} {ptr : BlockPtr}
    (hlive : st'.live = st.live.insert key ⟨ptr, s⟩)
    (hpay : st'.payload = (⟨insert key l.ids, Function.update l.size key s⟩ : Ledger).total) :
    st'.Books ⟨insert key l.ids, Function.update l.size key s⟩ where
  keys k := by
    rw [hlive, Std.HashMap.get?_insert, Finset.mem_insert, ← hb.keys k]
    by_cases hk : key = k
    · subst hk
      simp
    · simp [hk, Ne.symm hk]
  sizes k c hc := by
    rw [hlive, Std.HashMap.get?_insert] at hc
    by_cases hk : key = k
    · subst hk
      simp only [beq_self_eq_true, if_true, Option.some.injEq] at hc
      subst hc
      exact (Function.update_self key s l.size).symm
    · rw [if_neg (by simpa using hk)] at hc
      exact (hb.sizes k c hc).trans (Function.update_of_ne (Ne.symm hk) _ _).symm
  payload := hpay

/-- A record's request that goes through moves the books along the ledger, keeps the peak,
and does not lower the break. -/
theorem apply (hb : st.Books l) {req : Request} (h : st.apply opts line req = .ok (st', .ok ())) :
    ∃ l', l.enter req = some l' ∧ st'.Books l' ∧ st'.peak = st.peak ∧
      st.heap.arena.brk ≤ st'.heap.arena.brk := by
  cases req with
  | acquire key size =>
    obtain ⟨hc, hcont⟩ | ⟨hc, -, hok⟩ := apply_acquire h
    · cases hcont
    obtain ⟨ptr, hlive, hpay, hpeak, hbrk⟩ := hok rfl
    have hk : key ∉ l.ids := fun hk => by
      have hsome := (hb.keys key).mpr hk
      rw [← get?_isSome_of_contains, hc] at hsome
      cases hsome
    refine ⟨_, by simp only [Ledger.enter, if_neg hk], hb.rebind hlive ?_, hpeak, hbrk⟩
    rw [hpay, hb.payload, Ledger.total_insert hk]
  | release key =>
    obtain ⟨-, hcont⟩ | ⟨b, hkey, -, hok⟩ := apply_release h
    · cases hcont
    obtain ⟨hlive, hpay, hpeak, hbrk⟩ := hok rfl
    exact ⟨_, by simp only [Ledger.enter, if_pos (hb.mem_of_get? hkey)],
      hb.unbind hkey hlive hpay, hpeak, hbrk⟩
  | resize key size =>
    obtain ⟨-, hcont⟩ | ⟨old, hkey, -, hok⟩ := apply_resize h
    · cases hcont
    obtain ⟨hpeak, hbrk, ⟨h0, hlive, hpay⟩ | ⟨h0, ptr, hlive, hpay⟩⟩ := hok rfl
    · exact ⟨_, by simp only [Ledger.enter, if_pos (hb.mem_of_get? hkey), if_pos h0],
        hb.unbind hkey hlive hpay, hpeak, hbrk⟩
    · have hk := hb.mem_of_get? hkey
      have hb' := hb.rebind hlive (by
        rw [Finset.insert_eq_of_mem hk, hpay, hb.payload, hb.sizes key old hkey]
        have hu := Ledger.total_update hk size
        have he := Ledger.total_erase hk
        omega)
      rw [Finset.insert_eq_of_mem hk] at hb'
      exact ⟨_, by simp only [Ledger.enter, if_pos hk, if_neg h0], hb', hpeak, hbrk⟩

theorem not_mem_of_get?_none (hb : st.Books l) (h : st.live.get? key = none) : key ∉ l.ids :=
  fun hk => by
    have hsome := (hb.keys key).mpr hk
    rw [h] at hsome
    cases hsome

/-- A record's request that the ledger accepts is never reported as breaking the trace's
rules: it fails only as the heap, a pattern check or a fill does. -/
theorem apply_benign (hb : st.Books l) {req : Request} (hl : l.enter req ≠ none) {e : TraceError}
    (h : st.apply opts line req = .ok (st', .error e)) : e.Benign := by
  cases req with
  | acquire key size =>
    rcases apply_acquire h with ⟨hc, -⟩ | ⟨-, hben, -⟩
    · rw [get?_isSome_of_contains] at hc
      exact (hl (by simp only [Ledger.enter, if_pos ((hb.keys key).mp hc)])).elim
    · exact hben e rfl
  | release key =>
    rcases apply_release h with ⟨hk, -⟩ | ⟨b, -, hben, -⟩
    · exact (hl (by simp only [Ledger.enter, if_neg (hb.not_mem_of_get?_none hk)])).elim
    · exact hben e rfl
  | resize key size =>
    rcases apply_resize h with ⟨hk, -⟩ | ⟨old, -, hben, -⟩
    · exact (hl (by simp only [Ledger.enter, if_neg (hb.not_mem_of_get?_none hk)])).elim
    · exact hben e rfl

end Books

/-- A record that goes through has its request go through, and then raises the peak to the
sum if the sum is higher. -/
theorem step_ok {r : Record} (h : Replay.step opts st r = .ok (st', .ok ())) :
    ∃ st₀, st.apply opts r.line r.request = .ok (st₀, .ok ()) ∧
      st' = { st₀ with peak := max st₀.peak st₀.payload } := by
  unfold Replay.step at h
  split at h
  · cases h
  · cases h
  rename_i st₀ happ
  refine ⟨st₀, happ, ?_⟩
  dsimp only at h
  split at h
  · split at h
    · cases h
    · cases h
      rfl
  · cases h
    rfl

theorem run_cons_ok {r : Record} {rest : List Record}
    (h : Replay.run opts (r :: rest) st = .ok (st', .ok ())) :
    ∃ st₁, Replay.step opts st r = .ok (st₁, .ok ()) ∧ Replay.run opts rest st₁ = .ok (st', .ok ()) := by
  simp only [Replay.run] at h
  split at h
  · cases h
  · cases h
  · exact ⟨_, ‹_›, h⟩

/-- A record fails as its request fails, or on the consistency check after it. -/
theorem step_error {r : Record} {e : TraceError} (h : Replay.step opts st r = .ok (st', .error e)) :
    (∃ st₀, st.apply opts r.line r.request = .ok (st₀, .error e)) ∨ e.Benign := by
  unfold Replay.step at h
  split at h
  · cases h
  · cases h
    exact .inl ⟨_, ‹_›⟩
  dsimp only at h
  split at h
  · split at h
    · cases h
      exact .inr trivial
    · cases h
  · cases h

/-- From books that follow `l`, a replay of records the ledger accepts never reports a record
as breaking the trace's rules, on any heap: a failure comes from the heap, a pattern check, a
fill or a consistency check. -/
theorem Books.run_benign {l : Ledger} (hb : st.Books l) {rs : List Record} (hl : l.after rs ≠ none)
    {e : TraceError} (h : Replay.run opts rs st = .ok (st', .error e)) : e.Benign := by
  induction rs generalizing st l with
  | nil => cases h
  | cons r rest ih =>
    obtain ⟨l₁, hl₁, hrest⟩ : ∃ l₁, l.enter r.request = some l₁ ∧ l₁.after rest ≠ none := by
      simp only [Ledger.after] at hl
      cases he : l.enter r.request with
      | none =>
        rw [he] at hl
        exact (hl rfl).elim
      | some l₁ =>
        rw [he, Option.bind_some] at hl
        exact ⟨l₁, rfl, hl⟩
    simp only [Replay.run] at h
    split at h
    · cases h
    · rename_i hs
      cases h
      rcases step_error hs with ⟨st₀, happ⟩ | hben
      · exact hb.apply_benign (by rw [hl₁]; exact Option.some_ne_none _) happ
      · exact hben
    · rename_i hs
      obtain ⟨st₀, happ, rfl⟩ := step_ok hs
      obtain ⟨l₂, hl₂, hb₀, -, -⟩ := hb.apply happ
      rw [hl₁, Option.some.injEq] at hl₂
      subst hl₂
      have hb₁ : Books { st₀ with peak := max st₀.peak st₀.payload } l₁ :=
        ⟨hb₀.keys, hb₀.sizes, hb₀.payload⟩
      exact ih hb₁ hrest h

/-- A sum over identifiers, each given its own block of at least its summand, is at most the
sum of the sizes of the blocks. -/
theorem sum_le_sum_sizes {s : Finset Nat} {f : Nat → Nat} {bs : List BlockInfo} (hnd : bs.Nodup)
    (g : Nat → BlockInfo) (hg : ∀ k ∈ s, g k ∈ bs ∧ f k ≤ (g k).size) (hinj : Set.InjOn g s) :
    ∑ k ∈ s, f k ≤ (bs.map (·.size)).sum :=
  calc ∑ k ∈ s, f k ≤ ∑ k ∈ s, (g k).size := Finset.sum_le_sum fun k hk => (hg k hk).2
    _ = ∑ c ∈ s.image g, c.size := (Finset.sum_image hinj).symm
    _ ≤ ∑ c ∈ bs.toFinset, c.size := Finset.sum_le_sum_of_subset fun c hc => by
        obtain ⟨k, hk, rfl⟩ := Finset.mem_image.mp hc
        exact List.mem_toFinset.mpr (hg k hk).1
    _ = (bs.map (·.size)).sum := List.sum_toFinset _ hnd

/-- On a reachable heap the sizes the live identifiers asked for fit in the block area: each
identifier holds its own allocated block with room for its size, and the blocks lie apart
from the first block to the epilogue. -/
theorem Tracks.total_le {l : Ledger} (ht : st.Tracks opts l.ids) (hb : st.Books l) :
    l.total + heapOverhead ≤ st.heap.arena.brk := by
  obtain ⟨bs, fl, hs⟩ := ht.reachable.valid.shape
  have hl := hs.layout
  have hblock : ∀ k, ∃ c : BlockInfo, ∀ b, st.live.get? k = some b →
      c ∈ bs ∧ c.ptr = b.ptr.offset ∧ b.size ≤ c.size := by
    intro k
    cases hk : st.live.get? k with
    | none => exact ⟨⟨0, 0, .free⟩, fun b hb => by cases hb⟩
    | some b =>
      obtain ⟨f, ⟨⟨c, hc, -, hcp, hroom⟩, -⟩, -⟩ := ht.held k b hk
      rw [hl.blocks_eq] at hc
      refine ⟨c, fun b' hb' => ?_⟩
      cases hb'
      exact ⟨hc, hcp, by simp only [tagOverhead] at hroom; omega⟩
  choose g hg using hblock
  have hbind : ∀ k ∈ l.ids, ∃ b, st.live.get? k = some b := fun k hk => by
    have := (hb.keys k).mpr hk
    exact Option.isSome_iff_exists.mp this
  have hsum : l.total ≤ (bs.map (·.size)).sum := by
    refine sum_le_sum_sizes hl.nodup g (fun k hk => ?_) fun k hk k' hk' e => ?_
    · obtain ⟨b, hkb⟩ := hbind k hk
      obtain ⟨hmem, -, hle⟩ := hg k b hkb
      exact ⟨hmem, hb.sizes k b hkb ▸ hle⟩
    · obtain ⟨b, hkb⟩ := hbind k hk
      obtain ⟨b', hkb'⟩ := hbind k' hk'
      by_contra hne
      have hp := (hg k b hkb).2.1
      have hp' := (hg k' b' hkb').2.1
      exact ht.apart k k' b b' hkb hkb' hne (by rw [← hp, ← hp', e])
  have hend := hl.run.end_eq_sum
  simp only [firstBlock] at hend
  simp only [heapOverhead]
  omega

theorem Books.start (h : Heap) : Books { heap := h } Ledger.empty :=
  ⟨fun k => by simp [Ledger.empty], fun k b hk => by simp at hk, rfl⟩

/-- The books count their bindings as the ledger counts its identifiers. -/
theorem Books.size_live {l : Ledger} (hb : st.Books l) : st.live.size = l.ids.card := by
  have hnd : st.live.keys.Nodup :=
    Std.HashMap.distinct_keys.imp fun h e => by simp [e] at h
  have hset : st.live.keys.toFinset = l.ids := by
    ext k
    rw [List.mem_toFinset, Std.HashMap.mem_keys, Std.HashMap.mem_iff_contains,
      get?_isSome_of_contains, hb.keys k]
  rw [← hset, List.toFinset_card_of_nodup hnd, Std.HashMap.length_keys]

/-- Replaying records that all go through, on a reachable heap, from books that follow `l`
with the sum at most the peak and the peak within the block area: the books follow the
ledger after the records, the peak becomes the larger of the old peak and the largest total
along them, and it stays within the block area of the heap the replay leaves. -/
theorem Tracks.run_ok {l : Ledger} (ht : st.Tracks opts l.ids) (hb : st.Books l)
    (hpeak : st.payload ≤ st.peak) (hfit : st.peak + heapOverhead ≤ st.heap.arena.brk)
    {rs : List Record} (h : Replay.run opts rs st = .ok (st', .ok ())) :
    ∃ l', l.after rs = some l' ∧ st'.Tracks opts l'.ids ∧ st'.Books l' ∧
      st'.peak = max st.peak (l.peakAlong rs) ∧ st'.peak + heapOverhead ≤ st'.heap.arena.brk := by
  induction rs generalizing st l with
  | nil =>
    cases h
    have := hb.payload
    exact ⟨l, rfl, ht, hb, by simp only [Ledger.peakAlong]; omega, hfit⟩
  | cons r rest ih =>
    obtain ⟨st₁, hs, hrest⟩ := run_cons_ok h
    obtain ⟨st₀, happ, hst₁⟩ := step_ok hs
    obtain ⟨l₁, hl₁, hb₀, hpeak₀, hbrk₀⟩ := hb.apply happ
    have ht₁ : st₁.Tracks opts l₁.ids := by
      obtain ⟨st₂, out, hs₂, -, hgood, -⟩ := ht.step r
      rw [hs] at hs₂
      cases hs₂
      obtain ⟨ids', hid, ht'⟩ := hgood rfl
      have hids : r.request.idStep l.ids = some l₁.ids := by
        rw [← Ledger.enter_ids, hl₁]
        rfl
      rw [hids] at hid
      cases hid
      exact ht'
    subst hst₁
    have hb₁ : Books { st₀ with peak := max st₀.peak st₀.payload } l₁ :=
      ⟨hb₀.keys, hb₀.sizes, hb₀.payload⟩
    have hfit₁ := ht₁.total_le hb₁
    have := hb₀.payload
    have := hb.payload
    obtain ⟨l', hl', ht', hb', hpeak', hfit'⟩ := ih ht₁ hb₁ (le_max_right _ _)
      (by dsimp only at hfit₁ ⊢; omega) hrest
    refine ⟨l', by simp only [Ledger.after, hl₁, Option.bind_some, hl'], ht', hb', ?_, hfit'⟩
    have := Ledger.total_le_peakAlong l₁ rest
    rw [hpeak']
    simp only [Ledger.peakAlong, hl₁]
    omega

section Served

/-! With payloads left unverified, a request the trace allows and the heap serves moves the
replay on by the heap's answer alone. -/

variable {heap : Heap} {live : Std.HashMap Nat Binding} {payload peak s : Nat} {ptr : BlockPtr}

theorem apply_acquire_served (hv : opts.verifyPayloads = false) (hk : live.contains key = false)
    (hrun : Heap.run (Heap.acquire size) heap = .ok (.ok ptr, h')) :
    (⟨heap, live, payload, peak⟩ : Replay).apply opts line (.acquire key size) =
      .ok (⟨h', live.insert key ⟨ptr, size⟩, payload + size, peak⟩, .ok ()) := by
  simp only [Replay.apply, hk, Bool.false_eq_true, if_false, request_eq, hrun, hv, track_eq]
  rfl

theorem apply_release_served (hv : opts.verifyPayloads = false)
    (hk : live.get? key = some ⟨ptr, s⟩)
    (hrun : Heap.run (Heap.release ptr) heap = .ok (.ok (), h')) :
    (⟨heap, live, payload, peak⟩ : Replay).apply opts line (.release key) =
      .ok (⟨h', live.erase key, payload - s, peak⟩, .ok ()) := by
  simp only [Replay.apply, hk, hv, track_eq, request_eq, hrun, Bool.false_eq_true, if_false]
  rfl

theorem apply_resize_served (hv : opts.verifyPayloads = false)
    (hk : live.get? key = some ⟨ptr, s⟩) {ptr' : BlockPtr}
    (hrun : Heap.run (Heap.resize ptr size) heap = .ok (.ok (some ptr'), h')) :
    (⟨heap, live, payload, peak⟩ : Replay).apply opts line (.resize key size) =
      .ok (⟨h', live.insert key ⟨ptr', size⟩, payload - s + size, peak⟩, .ok ()) := by
  simp only [Replay.apply, hk, hv, track_eq, request_eq, hrun, Bool.false_eq_true, if_false]
  rfl

theorem run_cons_served (hc : opts.checkEachOp = false) {r : Record} {rest : List Record}
    (h : st.apply opts r.line r.request = .ok (st', .ok ())) :
    Replay.run opts (r :: rest) st =
      Replay.run opts rest { st' with peak := max st'.peak st'.payload } := by
  simp only [Replay.run, Replay.step, h, hc, Bool.false_eq_true, if_false]

end Served

end Replay

/-- A replay of a trace that keeps the trace's rules, on any heap, never reports a record as
breaking them: it fails only as the heap, a pattern check, a fill or a consistency check
does. -/
theorem Trace.replay_benign {t : Trace} (ht : idsAfter ∅ t.records.toList ≠ none) {h h' : Heap}
    {opts : ReplayOptions} {e : TraceError} (hrep : t.replay h opts = .ok (h', .error e)) :
    e.Benign := by
  have hl : Ledger.empty.after t.records.toList ≠ none := by
    intro hn
    have hids := Ledger.after_ids Ledger.empty t.records.toList
    rw [hn, Option.map_none] at hids
    exact ht hids.symm
  simp only [Trace.replay, bind, Except.bind] at hrep
  split at hrep
  · cases hrep
  rename_i v hrun
  obtain ⟨st', out⟩ := v
  cases out with
  | error e' =>
    simp only [pure, Except.pure, Except.ok.injEq, Prod.mk.injEq, Except.error.injEq] at hrep
    obtain ⟨-, rfl⟩ := hrep
    exact (Replay.Books.start h).run_benign hl hrun
  | ok u => cases hrep

/-- What a replay that succeeds on a reachable heap reports. It counts every record and the
identifiers live at the end under the trace's own rules. Its peak is the largest sum of the
sizes the live identifiers asked for, over every prefix of the trace: at least the sum after
each prefix, and the sum after one of them. The peak fits in the final arena past its sixteen
bytes of padding, prologue and epilogue, so the utilization shown is the text of the binary64
value nearest to the peak over the arena, and that value is below one. -/
theorem replay_report_follows_ledger {h : Heap} (hr : h.Reachable) (t : Trace)
    (opts : ReplayOptions) {h' : Heap} {rep : ReplayReport}
    (hrep : t.replay h opts = .ok (h', .ok rep)) :
    rep.ops = t.records.size ∧
      (∃ ids, idsAfter ∅ t.records.toList = some ids ∧ rep.live = ids.card) ∧
      (∀ pre l, pre <+: t.records.toList → Ledger.empty.after pre = some l →
        l.total ≤ rep.peakPayload) ∧
      (∃ pre l, pre <+: t.records.toList ∧ Ledger.empty.after pre = some l ∧
        l.total = rep.peakPayload) ∧
      rep.peakPayload + heapOverhead ≤ rep.finalStats.arenaBytes ∧
      rep.utilization = HeapStats.ratioLayout.ratio rep.peakPayload rep.finalStats.arenaBytes ∧
      (Decimal.Binary.ofRatio rep.peakPayload rep.finalStats.arenaBytes).value < 1 := by
  have ht : Replay.Tracks opts { heap := h } Ledger.empty.ids := Replay.Tracks.start hr
  have hb := Replay.Books.start h
  have hfit : (0 : Nat) + heapOverhead ≤ h.arena.brk := ht.total_le hb
  simp only [Trace.replay, bind, Except.bind] at hrep
  split at hrep
  · cases hrep
  rename_i v hrun
  obtain ⟨st', out⟩ := v
  cases out with
  | error e => cases hrep
  | ok u =>
  obtain ⟨l, hl, ht', hb', hpeak, hfit'⟩ := ht.run_ok hb (le_refl 0) hfit hrun
  simp only [pure, Except.pure, Except.ok.injEq, Prod.mk.injEq] at hrep
  obtain ⟨-, rfl⟩ := hrep
  simp only [Nat.zero_max] at hpeak
  have hids := Ledger.after_ids Ledger.empty t.records.toList
  rw [hl] at hids
  have harena : st'.heap.stats.arenaBytes = st'.heap.arena.brk := Heap.stats_arenaBytes _
  have hbrk : st'.heap.arena.brk ≤ Nat.pow 2 53 := by
    obtain ⟨bs, fl, hs⟩ := ht'.reachable.valid.shape
    have := hs.layout.brk_lt
    have h53 : wordBound ≤ Nat.pow 2 53 := by
      simp only [wordBound]
      decide
    omega
  refine ⟨rfl, ⟨l.ids, hids.symm, hb'.size_live⟩, fun pre l₁ hpre hl₁ => ?_,
    ?_, ?_, ?_, ?_⟩
  · show l₁.total ≤ st'.peak
    rw [hpeak]
    exact Ledger.le_peakAlong hpre hl₁
  · obtain ⟨pre, l₁, hpre, hl₁, ht₁⟩ := Ledger.exists_peakAlong Ledger.empty t.records.toList
    exact ⟨pre, l₁, hpre, hl₁, ht₁.trans hpeak.symm⟩
  · show st'.peak + heapOverhead ≤ st'.heap.stats.arenaBytes
    rw [harena]
    exact hfit'
  · show (if st'.heap.stats.arenaBytes = 0 then "0.0" else _) = _
    rw [harena, if_neg (by simp only [heapOverhead] at hfit'; omega)]
  · show (Decimal.Binary.ofRatio st'.peak st'.heap.stats.arenaBytes).value < 1
    rw [harena]
    exact Decimal.Binary.ofRatio_value_lt_one (by simp only [heapOverhead] at hfit'; omega) hbrk

/-- A replay on a freshly built heap of two acquisitions, a resize of the first block past
the second, which moves it, and the release of both: it reports five records, nothing live at
the end, a peak of forty-eight bytes within the arena, and one relocation. -/
theorem built_heap_reports_replay : ∃ h : Heap, h.Reachable ∧ ∃ h' rep,
    (Trace.ofRequests [.acquire 0 8, .acquire 1 8, .resize 0 40, .release 0, .release 1]).replay
      h ⟨false, false⟩ = .ok (h', .ok rep) ∧
    rep.ops = 5 ∧ rep.live = 0 ∧ rep.peakPayload = 48 ∧ rep.finalStats.counters.relocations = 1 ∧
    rep.peakPayload + heapOverhead ≤ rep.finalStats.arenaBytes := by
  obtain ⟨h, hcr, hok⟩ := Heap.createdWith_eq_true
    (show Heap.createdWith (Arena.growable 256) ⟨16, 16⟩ (fun h =>
      Heap.servedWith (Heap.acquire 8) h fun p h₁ =>
        Heap.servedWith (Heap.acquire 8) h₁ fun q h₂ =>
          Heap.servedWith (Heap.resize p 40) h₂ fun o h₃ => o.any fun p' =>
            Heap.servedWith (Heap.release p') h₃ fun _ h₄ =>
              Heap.servedWith (Heap.release q) h₄ fun _ h₅ =>
                h₅.counters.relocations == 1) = true by decide +kernel)
  have hr : h.Reachable := .create (Arena.growable_backed 256)
    ⟨by decide, by decide, by decide, by decide, by decide⟩ hcr
  obtain ⟨p, h₁, r₁, hok⟩ := Heap.servedWith_eq_true hok
  obtain ⟨q, h₂, r₂, hok⟩ := Heap.servedWith_eq_true hok
  obtain ⟨o, h₃, r₃, hok⟩ := Heap.servedWith_eq_true hok
  obtain ⟨p', rfl, hok⟩ := (Option.any_eq_true _ _).mp hok
  obtain ⟨_, h₄, r₄, hok⟩ := Heap.servedWith_eq_true hok
  obtain ⟨_, h₅, r₅, hok⟩ := Heap.servedWith_eq_true hok
  generalize ht : Trace.ofRequests
    [.acquire 0 8, .acquire 1 8, .resize 0 40, .release 0, .release 1] = t
  have hrecs : t.records.toList = [⟨1, .acquire 0 8⟩, ⟨2, .acquire 1 8⟩, ⟨3, .resize 0 40⟩,
      ⟨4, .release 0⟩, ⟨5, .release 1⟩] := by
    rw [← ht]
    decide +kernel
  obtain ⟨live, hrun⟩ : ∃ live, Replay.run ⟨false, false⟩ t.records.toList { heap := h } =
      .ok (⟨h₅, live, 0, 48⟩, .ok ()) := ⟨_, by
    rw [hrecs, Replay.run_cons_served rfl (Replay.apply_acquire_served rfl (by simp) r₁),
      Replay.run_cons_served rfl (Replay.apply_acquire_served rfl (by simp) r₂),
      Replay.run_cons_served rfl (Replay.apply_resize_served (s := 8) rfl
        (by simp only [Std.HashMap.get?_eq_getElem?, Std.HashMap.getElem?_insert,
          Nat.reduceBEq, Bool.false_eq_true, ↓reduceIte]) r₃),
      Replay.run_cons_served rfl (Replay.apply_release_served (s := 40) rfl
        (by simp only [Std.HashMap.get?_eq_getElem?, Std.HashMap.getElem?_insert,
          Nat.reduceBEq, ↓reduceIte]) r₄),
      Replay.run_cons_served rfl (Replay.apply_release_served (s := 8) rfl
        (by simp only [Std.HashMap.get?_eq_getElem?, Std.HashMap.getElem?_insert,
          Std.HashMap.getElem?_erase, Nat.reduceBEq, Bool.false_eq_true, ↓reduceIte]) r₅)]
    rfl⟩
  have hrep : t.replay h ⟨false, false⟩ = .ok (h₅, .ok ⟨t.size, live.size, 48, h₅.stats⟩) := by
    simp only [Trace.replay, bind, Except.bind, hrun]
    rfl
  obtain ⟨hops, ⟨ids, hids, hlive⟩, -, -, hfit, -⟩ := replay_report_follows_ledger hr t _ hrep
  have hempty : idsAfter ∅ t.records.toList = some ∅ := by
    rw [hrecs]
    decide
  rw [hempty, Option.some.injEq] at hids
  subst hids
  refine ⟨h, hr, h₅, _, hrep, by rw [hops, ← Array.length_toList, hrecs]; rfl,
    hlive.trans Finset.card_empty, rfl, ?_, hfit⟩
  simpa using hok

end Allocator
