import Allocator.Proofs.Holding
import Allocator.Proofs.Check
import Allocator.Trace.Replay

/-! A replay fails only where the trace says it must. The trace has rules of its own: an
acquisition names an identifier that is not live, a release or a resize one that is, and a
resize to size zero ends it (`Request.idStep`). On a reachable heap the replay keeps, for each
live identifier, a live block with room for the size asked for, no two identifiers sharing a
block, and, when payloads are verified, the identifier's pattern at the start of the payload
(`Replay.Tracks`). Each record then either keeps this or stops the replay: at a record that
breaks the trace's rules, reported as such, or at one the heap refuses for its size or for
want of memory (`Record.Stops`). Verification never finds a pattern overwritten, the
consistency check never fails, and a live block is never rejected as invalid or freed. -/
namespace Allocator

namespace Request

/-- The identifiers live after a request, from those live before, under the trace's own
rules; none when the request breaks them. -/
def idStep (ids : Finset Nat) : Request → Option (Finset Nat)
  | .acquire id _ => if id ∈ ids then none else some (insert id ids)
  | .release id => if id ∈ ids then some (ids.erase id) else none
  | .resize id size => if id ∈ ids then some (if size = 0 then ids.erase id else ids) else none

/-- How a replay reports a request on line `line` that breaks the trace's rules. -/
def misuse (line : Nat) : Request → TraceError
  | .acquire id _ => .liveId line id
  | .release id | .resize id _ => .unknownId line id

/-- A refusal the heap may give a request that keeps the trace's rules: an acquisition of no
bytes or of a size whose adjustment overflows, a resize to a size whose adjustment overflows,
or want of memory. A release is never refused. -/
def Refusal : Request → HeapError → Prop
  | .acquire _ s, e => (e = .invalidSize s ∧ (s = 0 ∨ adjust s = none)) ∨
      ∃ k ae, e = .outOfMemory k ae
  | .release _, _ => False
  | .resize _ s, e => (e = .invalidSize s ∧ adjust s = none) ∨ ∃ k ae, e = .outOfMemory k ae

end Request

/-- The identifiers live after a run of records, from those live before; none when a record
breaks the trace's rules. -/
def idsAfter (ids : Finset Nat) : List Record → Option (Finset Nat)
  | [] => some ids
  | r :: rest => (r.request.idStep ids).bind fun ids => idsAfter ids rest

/-- How a record stops a replay while the identifiers `ids` are live: it breaks the trace's
rules and is reported as such, or it keeps them and the heap refuses it. -/
def Record.Stops (r : Record) (ids : Finset Nat) (e : TraceError) : Prop :=
  (r.request.idStep ids = none ∧ e = r.request.misuse r.line) ∨
    ((r.request.idStep ids).isSome ∧ ∃ he, e = .heap r.line he ∧ r.request.Refusal he)

namespace Replay

/-- What a replay keeps for the identifiers `ids` it holds blocks for: a reachable heap; a
binding for exactly those identifiers; for each, a live block with room for the size asked
for, whose payload starts with the identifier's pattern when payloads are verified; and no
block bound twice. -/
structure Tracks (opts : ReplayOptions) (st : Replay) (ids : Finset Nat) : Prop where
  reachable : st.heap.Reachable
  keys : ∀ k, (st.live.get? k).isSome ↔ k ∈ ids
  held : ∀ k b, st.live.get? k = some b →
    ∃ f, st.heap.Holds ⟨b.ptr.offset, b.size, f⟩ ∧ (opts.verifyPayloads = true → f = pattern k)
  apart : ∀ k k' b b', st.live.get? k = some b → st.live.get? k' = some b' → k ≠ k' →
    b.ptr.offset ≠ b'.ptr.offset

section Pieces

variable {st : Replay} {line : Nat}

theorem track_eq (st : Replay) (f : Std.HashMap Nat Binding → Std.HashMap Nat Binding)
    (g : Nat → Nat) : st.track f g = { st with live := f st.live, payload := g st.payload } := by
  cases st
  rfl

theorem request_eq (st : Replay) (line : Nat) {α : Type} (r : RequestM α) :
    st.request line r = (Heap.run r st.heap).map fun o => ({ st with heap := o.2 }, o.1.mapError (.heap line)) := by
  cases st
  rfl

theorem payloadFor_room {bs fl : List BlockInfo} {h : Heap} (hs : Shape h bs fl) {p len : Nat}
    (hroom : h.Room p len) : payloadFor h line ⟨p⟩ len = .ok (.ok p) := by
  obtain ⟨avail, hpr, -, havail, -⟩ := hs.room_payload hroom
  simp [payloadFor, hpr, havail]

/-- Filling a block with room for its size writes the identifier's pattern as a step of a
run, and keeps every holding of another block. -/
theorem fill_apply (st : Replay) {bs fl : List BlockInfo} (hs : Shape st.heap bs fl)
    (line key : Nat) (b : Binding) (hroom : st.heap.Room b.ptr.offset b.size) :
    ∃ h', st.fill line key b = .ok ({ st with heap := h' }, .ok ()) ∧ Heap.Step st.heap h' ∧
      h'.Holds ⟨b.ptr.offset, b.size, pattern key⟩ ∧
      ∀ y, st.heap.Holds y → y.ptr ≠ b.ptr.offset → h'.Holds y := by
  have hsize := size_patternBytes key b.size
  have hroom' : st.heap.Room b.ptr.offset (patternBytes key b.size).size := by
    rw [hsize]
    exact hroom
  obtain ⟨h', hw, step, hx, hothers⟩ := hs.write_holds hroom' fun j hj => by
    rw [getElem?_patternBytes, if_pos (hsize ▸ hj)]
  rw [hsize] at hx
  refine ⟨h', ?_, step, hx, hothers⟩
  obtain ⟨heap, live, payload, peak⟩ := st
  simp only [Replay.fill, bind, Except.bind, payloadFor_room hs hroom]
  simp only at hw
  rw [hw]
  rfl

theorem verify_held {bs fl : List BlockInfo} {h : Heap} (hs : Shape h bs fl) {key p len : Nat}
    (hx : h.Holds ⟨p, len, pattern key⟩) : verify h line key ⟨p⟩ len = .ok (.ok ()) := by
  obtain ⟨held, hread, hheld⟩ := hs.read_holding hx
  have hsame : sameBytes held (patternBytes key len) = true :=
    (sameBytes_iff _ _).mpr (ByteArray.eq_of_getElem? fun j => by
      rw [hheld, getElem?_patternBytes])
  simp [verify, payloadFor_room hs hx.1, bind, Except.bind, hread, hsame, pure, Except.pure]

end Pieces

section Rebind

variable {opts : ReplayOptions} {st st' : Replay} {ids : Finset Nat} {key : Nat}

theorem get?_isSome_of_contains {m : Std.HashMap Nat Binding} {k : Nat} :
    m.contains k = (m.get? k).isSome := by
  rw [Std.HashMap.contains_eq_isSome_getElem?, Std.HashMap.get?_eq_getElem?]

theorem Tracks.mem_of_get? (ht : st.Tracks opts ids) {b : Binding} (hb : st.live.get? key = some b) :
    key ∈ ids :=
  (ht.keys key).mp (by rw [hb]; rfl)

theorem Tracks.not_mem_of_get? (ht : st.Tracks opts ids) (hb : st.live.get? key = none) :
    key ∉ ids := fun h => by
  have := (ht.keys key).mpr h
  rw [hb] at this
  cases this

/-- Unbinding `key`, from a heap that keeps the holding of every other identifier's block,
keeps the replay's promise for the identifiers but `key`. -/
theorem Tracks.unbind (ht : st.Tracks opts ids) (hr : st'.heap.Reachable)
    (hlive : st'.live = st.live.erase key)
    (hkeep : ∀ x, st.heap.Holds x → (∀ b, st.live.get? key = some b → x.ptr ≠ b.ptr.offset) →
      st'.heap.Holds x) :
    st'.Tracks opts (ids.erase key) where
  reachable := hr
  keys k := by
    rw [hlive, Std.HashMap.get?_erase, Finset.mem_erase, ← ht.keys k]
    by_cases hk : key = k
    · subst hk
      simp
    · simp [hk, Ne.symm hk]
  held k b hb := by
    rw [hlive, Std.HashMap.get?_erase] at hb
    by_cases hk : key = k
    · simp [hk] at hb
    rw [if_neg (by simpa using hk)] at hb
    obtain ⟨f, hx, hf⟩ := ht.held k b hb
    exact ⟨f, hkeep _ hx fun b' hb' => ht.apart k key b b' hb hb' (Ne.symm hk), hf⟩
  apart k k' b b' hb hb' hne := by
    rw [hlive, Std.HashMap.get?_erase] at hb hb'
    split at hb
    · cases hb
    split at hb'
    · cases hb'
    exact ht.apart k k' b b' hb hb' hne

/-- Binding `key` to a block with room for its size that no other identifier holds, from a
heap that keeps the holding of every other identifier's block, keeps the replay's promise for
the identifiers and `key`. -/
theorem Tracks.rebind (ht : st.Tracks opts ids) (hr : st'.heap.Reachable) {b : Binding}
    (hlive : st'.live = st.live.insert key b)
    (hkeep : ∀ x, st.heap.Holds x → (∀ b, st.live.get? key = some b → x.ptr ≠ b.ptr.offset) →
      st'.heap.Holds x)
    (hfresh : ∀ k c, st.live.get? k = some c → k ≠ key → c.ptr.offset ≠ b.ptr.offset)
    (hnew : ∃ f, st'.heap.Holds ⟨b.ptr.offset, b.size, f⟩ ∧
      (opts.verifyPayloads = true → f = pattern key)) :
    st'.Tracks opts (insert key ids) where
  reachable := hr
  keys k := by
    rw [hlive, Std.HashMap.get?_insert, Finset.mem_insert, ← ht.keys k]
    by_cases hk : key = k
    · subst hk
      simp
    · simp [hk, Ne.symm hk]
  held k c hc := by
    rw [hlive, Std.HashMap.get?_insert] at hc
    by_cases hk : key = k
    · subst hk
      simp only [beq_self_eq_true, if_true, Option.some.injEq] at hc
      subst hc
      exact hnew
    rw [if_neg (by simpa using hk)] at hc
    obtain ⟨f, hx, hf⟩ := ht.held k c hc
    exact ⟨f, hkeep _ hx fun b' hb' => ht.apart k key c b' hc hb' (Ne.symm hk), hf⟩
  apart k k' c c' hc hc' hne := by
    rw [hlive, Std.HashMap.get?_insert] at hc hc'
    by_cases hk : key = k
    · subst hk
      simp only [beq_self_eq_true, if_true, Option.some.injEq] at hc
      rw [if_neg (by simpa using hne)] at hc'
      subst hc
      exact (hfresh k' c' hc' (Ne.symm hne)).symm
    rw [if_neg (by simpa using hk)] at hc
    by_cases hk' : key = k'
    · subst hk'
      simp only [beq_self_eq_true, if_true, Option.some.injEq] at hc'
      subst hc'
      exact hfresh k c hc (Ne.symm hk)
    rw [if_neg (by simpa using hk')] at hc'
    exact ht.apart k k' c c' hc hc' hne

end Rebind

section Apply

variable {opts : ReplayOptions} {st : Replay} {ids : Finset Nat} {line : Nat}

/-- Replaying an acquisition: for a live identifier it is reported; otherwise the heap
refuses it for its size or for want of memory, or the identifier is bound to the block
answered, filled with its pattern when payloads are verified. -/
theorem Tracks.apply_acquire (ht : st.Tracks opts ids) (key size : Nat) :
    ∃ st' out, st.apply opts line (.acquire key size) = .ok (st', out) ∧ st'.heap.Reachable ∧
      (key ∈ ids → out = .error (.liveId line key)) ∧
      (key ∉ ids → (out = .ok () ∧ st'.Tracks opts (insert key ids)) ∨
        ∃ he, out = .error (.heap line he) ∧ (Request.acquire key size).Refusal he) := by
  have hv := ht.reachable.valid
  obtain ⟨bs, fl, hs⟩ := hv.shape
  by_cases hk : key ∈ ids
  · have hc : st.live.contains key = true := by
      rw [get?_isSome_of_contains]
      exact (ht.keys key).mpr hk
    refine ⟨st, _, ?_, ht.reachable, fun _ => rfl, fun h => absurd hk h⟩
    simp only [Replay.apply, hc, if_true]
    rfl
  have hc : st.live.contains key = false := by
    rw [get?_isSome_of_contains]
    simpa [← ht.keys key] using hk
  obtain ⟨r, h', hr, hrefuse⟩ := acquire_total hv size
  have hreach' : h'.Reachable := ht.reachable.step (.acquire size hr)
  cases r with
  | error e =>
    refine ⟨{ st with heap := h' }, _, ?_, hreach', fun h => absurd h hk,
      fun _ => .inr ⟨e, rfl, hrefuse e rfl⟩⟩
    simp only [Replay.apply, hc, Bool.false_eq_true, if_false, request_eq, hr, Except.map]
    rfl
  | ok q =>
  have hroom := acquire_room hv hr
  have hkeep : ∀ x, st.heap.Holds x → h'.Holds x ∧ q.offset ≠ x.ptr := fun x hx =>
    ⟨(hx.acquire hv hr).1, (hx.acquire hv hr).2 q rfl⟩
  have hfresh : ∀ k c, st.live.get? k = some c → k ≠ key → c.ptr.offset ≠ q.offset :=
    fun k c hc _ => by
      obtain ⟨f, hx, -⟩ := ht.held k c hc
      exact fun e => (hkeep _ hx).2 e.symm
  have hnone : st.live.get? key = none := by
    simpa [← ht.keys key] using hk
  obtain ⟨bs', fl', hs'⟩ := hreach'.valid.shape
  cases hver : opts.verifyPayloads with
  | true =>
    obtain ⟨h₂, hfill, step, hx, hothers⟩ :=
      fill_apply { st with heap := h' } hs' line key ⟨q, size⟩ hroom
    refine ⟨⟨h₂, st.live.insert key ⟨q, size⟩, st.payload + size, st.peak⟩, _, ?_,
      hreach'.step step, fun h => absurd h hk, fun _ => .inl ⟨rfl, ht.rebind (hreach'.step step) rfl
        (fun x hx _ => hothers x (hkeep x hx).1 (hkeep x hx).2.symm) hfresh
        ⟨pattern key, hx, fun _ => rfl⟩⟩⟩
    simp only [Replay.apply, hc, Bool.false_eq_true, if_false, request_eq, hr, Except.map, hver,
      if_true, bind, Except.bind, Except.mapError, hfill, track_eq]
    rfl
  | false =>
    refine ⟨⟨h', st.live.insert key ⟨q, size⟩, st.payload + size, st.peak⟩, _, ?_, hreach',
      fun h => absurd h hk, fun _ => .inl ⟨rfl, ht.rebind hreach' rfl (fun x hx _ => (hkeep x hx).1) hfresh
        ⟨_, hs'.room_holds hroom, fun h => absurd h (by simp [hver])⟩⟩⟩
    simp only [Replay.apply, hc, Bool.false_eq_true, if_false, request_eq, hr, Except.map, hver,
      bind, Except.bind, Except.mapError, track_eq]
    rfl

/-- Replaying a release: for an identifier that is not live it is reported; otherwise the
pattern is found intact when payloads are verified, the block is released, and the identifier
is unbound. -/
theorem Tracks.apply_release (ht : st.Tracks opts ids) (key : Nat) :
    ∃ st' out, st.apply opts line (.release key) = .ok (st', out) ∧ st'.heap.Reachable ∧
      (key ∉ ids → out = .error (.unknownId line key)) ∧
      (key ∈ ids → out = .ok () ∧ st'.Tracks opts (ids.erase key)) := by
  have hv := ht.reachable.valid
  obtain ⟨bs, fl, hs⟩ := hv.shape
  cases hb : st.live.get? key with
  | none =>
    have hk := ht.not_mem_of_get? hb
    refine ⟨st, _, ?_, ht.reachable, fun _ => rfl, fun h => absurd h hk⟩
    simp only [Replay.apply, hb]
    rfl
  | some b =>
  have hk := ht.mem_of_get? hb
  obtain ⟨f, hx, hf⟩ := ht.held key b hb
  have hlive : st.heap.Live b.ptr := hx.1.live
  obtain ⟨h', hr⟩ := release_total hv hlive
  have hreach' : h'.Reachable := ht.reachable.step (.release (.inl hlive) hr)
  have hkeep : ∀ x, st.heap.Holds x →
      (∀ c, st.live.get? key = some c → x.ptr ≠ c.ptr.offset) → h'.Holds x := fun x hy hne =>
    hy.release hv hlive (fun e => hne b hb e.symm) hr
  refine ⟨⟨h', st.live.erase key, st.payload - b.size, st.peak⟩, _, ?_, hreach',
    fun h => absurd hk h, fun _ => ⟨rfl, ht.unbind hreach' rfl hkeep⟩⟩
  cases hver : opts.verifyPayloads with
  | true =>
    have hpat : verify st.heap line key b.ptr b.size = .ok (.ok ()) := by
      rw [hf hver] at hx
      exact verify_held hs hx
    simp only [Replay.apply, hb, hver, if_true, track_eq, bind, Except.bind, hpat, request_eq, hr, Except.map]
    rfl
  | false =>
    simp only [Replay.apply, hb, hver, Bool.false_eq_true, if_false, track_eq, bind, Except.bind,
      request_eq, hr, Except.map]
    rfl

/-- Replaying a resize: for an identifier that is not live it is reported; otherwise the
pattern is found intact when payloads are verified, and the heap refuses the resize for its
size or for want of memory, or a resize to zero unbinds the identifier, or the identifier is
bound to the block answered, which keeps the pattern's first bytes and is filled with it
again when payloads are verified. -/
theorem Tracks.apply_resize (ht : st.Tracks opts ids) (key size : Nat) :
    ∃ st' out, st.apply opts line (.resize key size) = .ok (st', out) ∧ st'.heap.Reachable ∧
      (key ∉ ids → out = .error (.unknownId line key)) ∧
      (key ∈ ids → (out = .ok () ∧ st'.Tracks opts (if size = 0 then ids.erase key else ids)) ∨
        ∃ he, out = .error (.heap line he) ∧ (Request.resize key size).Refusal he) := by
  have hv := ht.reachable.valid
  obtain ⟨bs, fl, hs⟩ := hv.shape
  cases hb : st.live.get? key with
  | none =>
    have hk := ht.not_mem_of_get? hb
    refine ⟨st, _, ?_, ht.reachable, fun _ => rfl, fun h => absurd h hk⟩
    simp only [Replay.apply, hb]
    rfl
  | some old =>
  have hk := ht.mem_of_get? hb
  obtain ⟨f, hx, hf⟩ := ht.held key old hb
  have hlive : st.heap.Live old.ptr := hx.1.live
  have hpat : opts.verifyPayloads = true →
      verify st.heap line key old.ptr old.size = .ok (.ok ()) := fun hver => by
    rw [hf hver] at hx
    exact verify_held hs hx
  obtain ⟨r, h', hr, hrefuse, hnone⟩ := resize_total hv hlive size
  have hreach' : h'.Reachable := ht.reachable.step (.resize size (.inl hlive) hr)
  have hother : ∀ x, st.heap.Holds x → x.ptr ≠ old.ptr.offset →
      h'.Holds x ∧ ∀ q, r = .ok (some q) → q.offset ≠ x.ptr := fun x hy hne =>
    hy.resize hv hlive (fun e => hne e.symm) hr
  have hkeep : ∀ x, st.heap.Holds x →
      (∀ c, st.live.get? key = some c → x.ptr ≠ c.ptr.offset) → h'.Holds x := fun x hy hne =>
    (hother x hy (hne old hb)).1
  rcases r with e | _ | q
  · refine ⟨{ st with heap := h' }, _, ?_, hreach', fun h => absurd hk h,
      fun _ => .inr ⟨e, rfl, hrefuse e rfl⟩⟩
    cases hver : opts.verifyPayloads with
    | true =>
      simp only [Replay.apply, hb, hver, if_true, bind, Except.bind, hpat hver, request_eq, hr,
        Except.map]
      rfl
    | false =>
      simp only [Replay.apply, hb, hver, Bool.false_eq_true, if_false, bind, Except.bind,
        request_eq, hr, Except.map]
      rfl
  · have h0 := hnone.mp rfl
    refine ⟨⟨h', st.live.erase key, st.payload - old.size, st.peak⟩, _, ?_, hreach',
      fun h => absurd hk h, fun _ => .inl ⟨rfl, by rw [if_pos h0]; exact ht.unbind hreach' rfl hkeep⟩⟩
    cases hver : opts.verifyPayloads with
    | true =>
      simp only [Replay.apply, hb, hver, if_true, bind, Except.bind, hpat hver, request_eq, hr,
        Except.map, track_eq]
      rfl
    | false =>
      simp only [Replay.apply, hb, hver, Bool.false_eq_true, if_false, bind, Except.bind,
        request_eq, hr, Except.map, track_eq]
      rfl
  have hn0 : size ≠ 0 := fun h0 => by cases hnone.mpr h0
  have hids : (if size = 0 then ids.erase key else ids) = insert key ids := by
    rw [if_neg hn0, Finset.insert_eq_of_mem hk]
  obtain ⟨hroom, hkept⟩ := hx.resize_self hv hr
  have hfresh : ∀ k c, st.live.get? k = some c → k ≠ key → c.ptr.offset ≠ q.offset :=
    fun k c hc hne => by
      obtain ⟨g, hy, -⟩ := ht.held k c hc
      exact fun e => (hother _ hy (ht.apart k key c old hc hb hne)).2 q rfl e.symm
  obtain ⟨bs', fl', hs'⟩ := hreach'.valid.shape
  cases hver : opts.verifyPayloads with
  | true =>
    have hpat' : verify h' line key q (min old.size size) = .ok (.ok ()) := by
      rw [hf hver] at hkept
      exact verify_held hs' hkept
    obtain ⟨h₂, hfill, step, hnew, hothers⟩ :=
      fill_apply { st with heap := h', payload := st.payload - old.size } hs' line key
        ⟨q, size⟩ hroom
    refine ⟨⟨h₂, st.live.insert key ⟨q, size⟩, st.payload - old.size + size, st.peak⟩, _, ?_,
      hreach'.step step, fun h => absurd hk h, fun _ => .inl ⟨rfl, ?_⟩⟩
    · simp only [Replay.apply, hb, hver, if_true, bind, Except.bind, hpat hver, request_eq, hr,
        Except.map, Except.mapError, track_eq, hpat', hfill]
      rfl
    · rw [hids]
      exact ht.rebind (hreach'.step step) rfl
        (fun x hy hne => hothers x (hkeep x hy hne)
          ((hother x hy (hne old hb)).2 q rfl).symm) hfresh
        ⟨pattern key, hnew, fun _ => rfl⟩
  | false =>
    refine ⟨⟨h', st.live.insert key ⟨q, size⟩, st.payload - old.size + size, st.peak⟩, _, ?_,
      hreach', fun h => absurd hk h, fun _ => .inl ⟨rfl, ?_⟩⟩
    · simp only [Replay.apply, hb, hver, Bool.false_eq_true, if_false, bind, Except.bind,
        request_eq, hr, Except.map, track_eq]
      rfl
    · rw [hids]
      exact ht.rebind hreach' rfl hkeep hfresh
        ⟨_, hs'.room_holds hroom, fun h => absurd h (by simp [hver])⟩

/-- Replaying one request: one that breaks the trace's rules is reported; one that keeps
them leaves the replay keeping the identifiers after it, or is refused by the heap for its
size or for want of memory. The heap stays reachable. -/
theorem Tracks.apply (ht : st.Tracks opts ids) (line : Nat) (req : Request) :
    ∃ st' out, st.apply opts line req = .ok (st', out) ∧ st'.heap.Reachable ∧
      (req.idStep ids = none → out = .error (req.misuse line)) ∧
      ∀ ids', req.idStep ids = some ids' → (out = .ok () ∧ st'.Tracks opts ids') ∨
        ∃ he, out = .error (.heap line he) ∧ req.Refusal he := by
  cases req with
  | acquire key size =>
    obtain ⟨st', out, ha, hr, hlive, hfree⟩ := ht.apply_acquire key size
    refine ⟨st', out, ha, hr, fun hn => hlive (by simpa [Request.idStep] using hn),
      fun ids' hs => ?_⟩
    simp only [Request.idStep] at hs
    split at hs
    · cases hs
    · cases hs
      exact hfree ‹_›
  | release key =>
    obtain ⟨st', out, ha, hr, hdead, hlive⟩ := ht.apply_release key
    refine ⟨st', out, ha, hr, fun hn => hdead (by simpa [Request.idStep] using hn),
      fun ids' hs => ?_⟩
    simp only [Request.idStep] at hs
    split at hs
    · cases hs
      exact .inl (hlive ‹_›)
    · cases hs
  | resize key size =>
    obtain ⟨st', out, ha, hr, hdead, hlive⟩ := ht.apply_resize key size
    refine ⟨st', out, ha, hr, fun hn => hdead (by simpa [Request.idStep] using hn),
      fun ids' hs => ?_⟩
    simp only [Request.idStep] at hs
    split at hs
    · cases hs
      exact hlive ‹_›
    · cases hs

end Apply

theorem Tracks.peak {opts : ReplayOptions} {st : Replay} {ids : Finset Nat}
    (ht : st.Tracks opts ids) (x : Nat) : Tracks opts { st with peak := x } ids :=
  ⟨ht.reachable, ht.keys, ht.held, ht.apart⟩

theorem Tracks.start {opts : ReplayOptions} {h : Heap} (hr : h.Reachable) :
    Tracks opts { heap := h } ∅ where
  reachable := hr
  keys k := by simp
  held k b hb := by simp at hb
  apart k k' b b' hb := by simp at hb

/-- Replaying one record: one that breaks the trace's rules stops the replay as such, one
that keeps them leaves it keeping the identifiers after it or is refused by the heap; the
consistency check, when asked for, passes. -/
theorem Tracks.step {opts : ReplayOptions} {st : Replay} {ids : Finset Nat}
    (ht : st.Tracks opts ids) (r : Record) :
    ∃ st' out, Replay.step opts st r = .ok (st', out) ∧ st'.heap.Reachable ∧
      (out = .ok () → ∃ ids', r.request.idStep ids = some ids' ∧ st'.Tracks opts ids') ∧
      ∀ e, out = .error e → r.Stops ids e := by
  obtain ⟨st', out, ha, hreach, hbad, hgood⟩ := ht.apply r.line r.request
  cases hid : r.request.idStep ids with
  | none =>
    obtain rfl := hbad hid
    refine ⟨st', .error (r.request.misuse r.line), by simp only [Replay.step, ha], hreach,
      nofun, fun e he => ?_⟩
    cases he
    exact .inl ⟨hid, rfl⟩
  | some ids' =>
    rcases hgood ids' hid with ⟨rfl, ht'⟩ | ⟨he, rfl, hrefusal⟩
    · refine ⟨{ st' with peak := max st'.peak st'.payload }, .ok (), ?_, hreach,
        fun _ => ⟨ids', rfl, ht'.peak _⟩, fun _ h => by cases h⟩
      cases hc : opts.checkEachOp
      · simp only [Replay.step, ha, hc, Bool.false_eq_true, if_false]
      · simp only [Replay.step, ha, hc, if_true, hreach.check]
    · refine ⟨st', .error (.heap r.line he), by simp only [Replay.step, ha], hreach,
        nofun, fun e he' => ?_⟩
      cases he'
      exact .inr ⟨by simp [hid], he, rfl, hrefusal⟩

/-- Replaying records in order: the replay runs them all, keeping the identifiers after
them, or stops at the first record that breaks the trace's rules or that the heap refuses,
after records that kept them. -/
theorem Tracks.run {opts : ReplayOptions} {st : Replay} {ids : Finset Nat}
    (ht : st.Tracks opts ids) (rs : List Record) :
    ∃ st' out, Replay.run opts rs st = .ok (st', out) ∧ st'.heap.Reachable ∧
      (out = .ok () → ∃ ids', idsAfter ids rs = some ids' ∧ st'.Tracks opts ids') ∧
      ∀ e, out = .error e → ∃ pre r rest ids', rs = pre ++ r :: rest ∧
        idsAfter ids pre = some ids' ∧ r.Stops ids' e := by
  induction rs generalizing st ids with
  | nil =>
    exact ⟨st, .ok (), rfl, ht.reachable, fun _ => ⟨ids, rfl, ht⟩, fun _ h => by cases h⟩
  | cons r rest ih =>
    obtain ⟨st₁, out₁, hs, hreach₁, hgood, hbad⟩ := ht.step r
    cases out₁ with
    | error e =>
      refine ⟨st₁, .error e, by simp only [Replay.run, hs], hreach₁, nofun,
        fun e' he => ?_⟩
      cases he
      exact ⟨[], r, rest, ids, rfl, rfl, hbad e rfl⟩
    | ok u =>
      obtain ⟨ids₁, hid, ht₁⟩ := hgood rfl
      obtain ⟨st', out, hrun, hreach, hdone, hstop⟩ := ih ht₁
      refine ⟨st', out, by simp only [Replay.run, hs]; exact hrun, hreach, fun hok => ?_,
        fun e he => ?_⟩
      · obtain ⟨ids', hafter, ht'⟩ := hdone hok
        exact ⟨ids', by simp [idsAfter, hid, hafter], ht'⟩
      · obtain ⟨pre, r', rest', ids', rfl, hafter, hst⟩ := hstop e he
        exact ⟨r :: pre, r', rest', ids', rfl, by simp [idsAfter, hid, hafter], hst⟩

end Replay

/-- A replay stops only where the trace says it must. On every reachable heap, for every
trace and every choice of checks, the replay runs without a fault and leaves a reachable
heap. When it succeeds, every record keeps the trace's rules. When it fails, it fails at a
record after records that all kept the rules: that record breaks the rules (an acquisition
for a live identifier, a release or a resize for one that is not live), reported with its
line as such, or the heap refuses it, reported with its line, for a size of no bytes or
whose adjustment overflows or for want of memory. So it never reports a pattern
overwritten, a heap that fails its check, or a pointer rejected as invalid or freed. -/
theorem replay_stops_only_where_trace_says {h : Heap} (hr : h.Reachable) (t : Trace)
    (opts : ReplayOptions) :
    ∃ h' out, t.replay h opts = .ok (h', out) ∧ h'.Reachable ∧
      (∀ rep, out = .ok rep → (idsAfter ∅ t.records.toList).isSome) ∧
      ∀ e, out = .error e → ∃ pre r rest ids, t.records.toList = pre ++ r :: rest ∧
        idsAfter ∅ pre = some ids ∧ r.Stops ids e := by
  have ht : Replay.Tracks opts { heap := h } ∅ := Replay.Tracks.start hr
  obtain ⟨st', out, hrun, hreach, hdone, hstop⟩ := ht.run t.records.toList
  cases out with
  | error e =>
    refine ⟨st'.heap, .error e, ?_, hreach, fun _ => nofun, fun e' he => ?_⟩
    · simp only [Trace.replay, bind, Except.bind, hrun]
      rfl
    · cases he
      exact hstop e rfl
  | ok u =>
    obtain ⟨ids', hafter, -⟩ := hdone rfl
    refine ⟨st'.heap, .ok ⟨t.size, st'.live.size, st'.peak, st'.heap.stats⟩, ?_, hreach,
      fun _ _ => by simp [hafter], fun _ => nofun⟩
    simp only [Trace.replay, bind, Except.bind, hrun]
    rfl

theorem built_heap_replays_to_trace_stops : ∃ h : Heap, h.Reachable ∧
    ∀ (t : Trace) (opts : ReplayOptions), ∃ h' out, t.replay h opts = .ok (h', out) ∧
      h'.Reachable ∧ (∀ rep, out = .ok rep → (idsAfter ∅ t.records.toList).isSome) ∧
      ∀ e, out = .error e → ∃ pre r rest ids, t.records.toList = pre ++ r :: rest ∧
        idsAfter ∅ pre = some ids ∧ r.Stops ids e := by
  obtain ⟨h, hr⟩ := exists_reachable
  exact ⟨h, hr, fun t opts => replay_stops_only_where_trace_says hr t opts⟩

end Allocator
