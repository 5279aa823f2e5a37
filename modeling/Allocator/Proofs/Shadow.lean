import Allocator.Proofs.Payload
import Allocator.Proofs.Check
import Allocator.Shadow

/-! A shadow drives a heap through its own steps (`ShadowStep.Owned`: acquisitions, releases
and resizes of its entries, and drains) and remembers what each block should hold. On a
reachable heap it never faults and every verification passes. The invariant is
`Shadow.Kept`: the heap is reachable, the block of every entry starts with the entry's
pattern, as many bytes as were asked for, and no two entries name one block. Each step keeps
it (`Shadow.Kept.apply`): a request keeps the holding of every block it is not asked about, a
resize answers a block that starts with the kept prefix of the pattern, and a fill writes the
pattern into a block with room for it. A run of steps keeps it by induction
(`Shadow.Kept.runAll`). -/
namespace Allocator

/-- The steps a client takes through the shadow; the other steps act on the heap behind its
back. -/
def ShadowStep.Owned : ShadowStep → Prop
  | .acquire _ | .release _ | .resize _ _ | .drain => True
  | .heapRelease _ | .heapWrite _ _ _ => False

/-- What the heap holds for an entry: the first bytes of its pattern, as many as were asked
for, at the start of its block's payload. -/
def Expected.holding (e : Expected) : Holding := ⟨e.ptr.offset, e.size, shadowByte e.seed⟩

section Pattern

theorem shadowBytes_go (seed : UInt8) : ∀ (i k : Nat) (acc : ByteArray),
    (shadowBytes.go seed i k acc).size = acc.size + k ∧ ∀ j, (shadowBytes.go seed i k acc)[j]? =
      if j < acc.size then acc[j]?
      else if j < acc.size + k then some (shadowByte seed (i + (j - acc.size))) else none
  | _, 0, acc => ⟨rfl, fun j => by
      show acc[j]? = _
      split
      · rfl
      · rw [if_neg (by omega), getElem?_neg acc j (by omega)]⟩
  | i, k + 1, acc => by
    obtain ⟨hs, hj⟩ := shadowBytes_go seed (i + 1) k (acc.push (shadowByte seed i))
    have hp : (acc.push (shadowByte seed i)).size = acc.size + 1 := ByteArray.size_push
    refine ⟨by rw [shadowBytes.go, hs, hp]; omega, fun j => ?_⟩
    rw [shadowBytes.go, hj, hp, getElem?_push_bytes]
    by_cases h1 : j < acc.size
    · rw [if_pos (show j < acc.size + 1 by omega), if_pos h1, if_pos h1]
    · rw [if_neg h1, if_neg h1]
      by_cases h2 : j = acc.size
      · subst h2
        rw [if_pos (Nat.lt_succ_self _), if_pos rfl,
          if_pos (show acc.size < acc.size + (k + 1) by omega), Nat.sub_self, Nat.add_zero]
      · rw [if_neg (show ¬ j < acc.size + 1 by omega)]
        by_cases h3 : j < acc.size + (k + 1)
        · rw [if_pos (show j < acc.size + 1 + k by omega), if_pos h3,
            show i + 1 + (j - (acc.size + 1)) = i + (j - acc.size) by omega]
        · rw [if_neg (show ¬ j < acc.size + 1 + k by omega), if_neg h3]

theorem getElem?_shadowBytes (seed : UInt8) (n j : Nat) :
    (shadowBytes seed n)[j]? = if j < n then some (shadowByte seed j) else none := by
  have h0 : (ByteArray.emptyWithCapacity n).size = 0 := rfl
  have := (shadowBytes_go seed 0 n (ByteArray.emptyWithCapacity n)).2 j
  rw [h0, if_neg (Nat.not_lt_zero j), Nat.zero_add, Nat.zero_add, Nat.sub_zero] at this
  exact this

theorem size_shadowBytes (seed : UInt8) (n : Nat) : (shadowBytes seed n).size = n := by
  have h0 : (ByteArray.emptyWithCapacity n).size = 0 := rfl
  have := (shadowBytes_go seed 0 n (ByteArray.emptyWithCapacity n)).1
  rw [h0, Nat.zero_add] at this
  exact this

end Pattern

theorem forM_ok {α ε : Type} {f : α → Except ε Unit} :
    ∀ {l : List α}, (∀ x ∈ l, f x = .ok ()) → l.forM f = .ok ()
  | [], _ => rfl
  | x :: l, h => by
    rw [List.forM.eq_2, h x List.mem_cons_self]
    exact forM_ok fun y hy => h y (List.mem_cons_of_mem x hy)

theorem liveTag_zero (h : Heap) : h.liveTag ⟨0⟩ = .error (.invalidPointer ⟨0⟩) := rfl

namespace Shadow

section Entries

/-- The entry at a position inside the entries, with the entries before and after it. -/
theorem entries_getD_of_lt (s : Shadow) {i : Nat} (hi : i < s.entries.size) :
    ∃ pre key e post, s.entries.toList = pre ++ (key, e) :: post ∧ pre.length = i ∧
      s.entries.getD i (0, default) = (key, e) := by
  have hi' : i < s.entries.toList.length := by simpa using hi
  refine ⟨s.entries.toList.take i, (s.entries.toList[i]).1, (s.entries.toList[i]).2,
    s.entries.toList.drop (i + 1), ?_, by simp; omega, ?_⟩
  · rw [← List.drop_eq_getElem_cons hi', List.take_append_drop]
  · rw [Array.getD_eq_getD_getElem?, ← Array.getElem?_toList, List.getElem?_eq_getElem hi']
    rfl

theorem entries_getD_of_le (s : Shadow) {i : Nat} (hi : s.entries.size ≤ i) :
    s.entries.getD i (0, default) = (0, default) := by
  simp [Array.getD, Nat.not_lt.mpr hi]

/-- Removing an entry moves the last one into its place: the other entries remain, in
another order. -/
theorem removeAt_perm {s : Shadow} {pre post : List (Nat × Expected)} {x : Nat × Expected}
    (hl : s.entries.toList = pre ++ x :: post) :
    (s.removeAt pre.length).entries.toList.Perm (pre ++ post) := by
  have hsize : s.entries.size = s.entries.toList.length := by simp
  rcases List.eq_nil_or_concat' post with rfl | ⟨post', y, rfl⟩
  · simp [Shadow.removeAt, Array.getD_eq_getD_getElem?, hl, hsize]
  · have hlast : s.entries.getD (s.entries.size - 1) (0, default) = y := by
      rw [Array.getD_eq_getD_getElem?, ← Array.getElem?_toList, hl, hsize, hl]
      simp
    simp only [Shadow.removeAt, hlast, Array.toList_pop, Array.set!_eq_setIfInBounds,
      Array.toList_setIfInBounds]
    rw [hl]
    have hdrop : (y :: (post' ++ [y])).dropLast = y :: post' := by
      rw [← List.cons_append, List.dropLast_concat]
    simp [hdrop]
    exact List.Perm.append_left pre (List.perm_append_singleton y post').symm

theorem pointers_middle {pre post : List (Nat × Expected)} {x : Nat × Expected}
    (hnd : ((pre ++ x :: post).map (·.2.ptr)).Nodup) :
    (∀ y ∈ pre ++ post, y.2.ptr.offset ≠ x.2.ptr.offset) ∧ ((pre ++ post).map (·.2.ptr)).Nodup := by
  rw [List.map_append, List.map_cons, List.nodup_middle, List.nodup_cons, ← List.map_append]
    at hnd
  exact ⟨fun y hy e => hnd.1 (List.mem_map.mpr ⟨y, hy, congrArg BlockPtr.mk e⟩), hnd.2⟩

/-- An entry naming a block none of the others names joins them. -/
theorem pointers_join {pre post : List (Nat × Expected)} {x : Nat × Expected}
    (hnd : ((pre ++ post).map (·.2.ptr)).Nodup)
    (hx : ∀ y ∈ pre ++ post, y.2.ptr.offset ≠ x.2.ptr.offset) :
    ((pre ++ x :: post).map (·.2.ptr)).Nodup := by
  rw [List.map_append, List.map_cons, List.nodup_middle, List.nodup_cons, ← List.map_append]
  refine ⟨fun hm => ?_, hnd⟩
  obtain ⟨y, hy, e⟩ := List.mem_map.mp hm
  exact hx y hy (congrArg BlockPtr.offset e)

theorem set_entries {s : Shadow} {pre post : List (Nat × Expected)} {x : Nat × Expected}
    (hl : s.entries.toList = pre ++ x :: post) (v : Nat × Expected) :
    (s.entries.set! pre.length v).toList = pre ++ v :: post := by
  simp [Array.set!_eq_setIfInBounds, Array.toList_setIfInBounds, hl]

end Entries

/-- The heap keeps what the shadow expects: it is reachable, the block of every entry holds
the entry's pattern, and no two entries name one block. -/
structure Kept (s : Shadow) (h : Heap) : Prop where
  reachable : h.Reachable
  held : ∀ x ∈ s.entries.toList, h.Holds x.2.holding
  apart : s.pointers.Nodup

section Steps

variable {s : Shadow} {h : Heap} {bs fl : List BlockInfo}

theorem pointers_eq : s.pointers = s.entries.toList.map (·.2.ptr) := rfl

theorem request_apply {α : Type} (r : RequestM α) :
    Shadow.request h r = (Heap.run r h).map fun o => (o.2, o.1) := rfl

theorem payloadStart_room (hs : Shape h bs fl) {p : BlockPtr} {n len : Nat}
    (hr : h.Room p.offset n) (hlen : len ≤ n) : Shadow.payloadStart h p len = .ok p.offset := by
  obtain ⟨avail, hpr, -, havail, -⟩ := hs.room_payload hr
  have hpr' : h.payloadRange p = .ok (p.offset, avail) := hpr
  simp only [Shadow.payloadStart, hpr']
  rw [if_pos (by omega)]

/-- Filling the block of an entry with room for it writes the entry's pattern: a step of a run
after which the block holds the entry, and every holding of another block is kept. -/
theorem fill_apply (hs : Shape h bs fl) {e : Expected} (hroom : h.Room e.ptr.offset e.size) :
    ∃ h', Shadow.fill h e = .ok h' ∧ Heap.Step h h' ∧ h'.Holds e.holding ∧
      ∀ y, h.Holds y → y.ptr ≠ e.ptr.offset → h'.Holds y := by
  have hsize := size_shadowBytes e.seed e.size
  obtain ⟨h', hw, step, hx, hothers⟩ := hs.write_holds (by rw [hsize]; exact hroom)
    fun j hj => by rw [getElem?_shadowBytes, if_pos (hsize ▸ hj)]
  rw [hsize] at hx
  refine ⟨h', ?_, step, hx, hothers⟩
  simp only [Shadow.fill, bind, Except.bind, payloadStart_room hs hroom le_rfl]
  rw [hw]
  rfl

/-- An acquisition keeps the invariant: a refused one changes no holding, and a served one
answers a block no entry names, which the fill then makes hold the new entry. -/
theorem Kept.acquire (hk : s.Kept h) (n : Nat) :
    ∃ s' h' res, s.apply h (.acquire n) = .ok (s', h', res) ∧ s'.Kept h' := by
  have hv := hk.reachable.valid
  obtain ⟨r, h₁, hr, -⟩ := acquire_total hv n
  have hreach₁ : h₁.Reachable := hk.reachable.step (.acquire n hr)
  have hheld : ∀ x ∈ s.entries.toList,
      h₁.Holds x.2.holding ∧ ∀ q, r = .ok q → q.offset ≠ x.2.ptr.offset :=
    fun x hx => (hk.held x hx).acquire hv hr
  cases r with
  | error e =>
    refine ⟨s, h₁, .refused e, ?_, hreach₁, fun x hx => (hheld x hx).1, hk.apart⟩
    simp only [Shadow.apply, request_apply, hr, Except.map, bind, Except.bind, pure,
      Except.pure]
  | ok q =>
    obtain ⟨bs, fl, hs₁⟩ := hreach₁.valid.shape
    obtain ⟨h₂, hfill, hstep, hnew, hothers⟩ :=
      fill_apply hs₁ (e := ⟨q, n, s.nextKey.toUInt8⟩) (acquire_room hv hr)
    refine ⟨⟨s.entries.push (s.nextKey, ⟨q, n, s.nextKey.toUInt8⟩), s.nextKey + 1⟩, h₂,
      .value .none, ?_, hreach₁.step hstep, fun x hx => ?_, ?_⟩
    · simp only [Shadow.apply, request_apply, hr, Except.map, bind, Except.bind, pure,
        Except.pure, hfill]
    · simp only [Array.toList_push, List.mem_append, List.mem_singleton] at hx
      rcases hx with hx | rfl
      · exact hothers _ (hheld x hx).1 ((hheld x hx).2 q rfl).symm
      · exact hnew
    · have hjoin : ((s.entries.toList ++
          [(s.nextKey, (⟨q, n, s.nextKey.toUInt8⟩ : Expected))]).map (·.2.ptr)).Nodup :=
        pointers_join (by simpa [Shadow.pointers] using hk.apart)
          fun y hy => ((hheld y (by simpa using hy)).2 q rfl).symm
      simpa [Shadow.pointers] using hjoin

/-- A release keeps the invariant: the entry that the index picks is released and removed,
and the others stay held; an index past the entries picks the null pointer, which the heap
rejects. -/
theorem Kept.release (hk : s.Kept h) (index : Nat) :
    ∃ s' h' res, s.apply h (.release index) = .ok (s', h', res) ∧ s'.Kept h' := by
  by_cases hemp : s.entries.isEmpty = true
  · exact ⟨s, h, .value .none, by simp [Shadow.apply, hemp, pure, Except.pure], hk⟩
  by_cases hi : s.pick index < s.entries.size
  · obtain ⟨pre, key, e, post, hl, hlen, hget⟩ := s.entries_getD_of_lt hi
    have hv := hk.reachable.valid
    have hx : h.Holds e.holding := hk.held (key, e) (by rw [hl]; simp)
    have hlive : h.Live e.ptr := hx.1.live
    have hnd : ((pre ++ (key, e) :: post).map (·.2.ptr)).Nodup := hl ▸ hk.apart
    obtain ⟨hne, hnd⟩ := pointers_middle hnd
    have hperm := removeAt_perm hl
    rw [hlen] at hperm
    obtain ⟨h₁, hr⟩ := release_total hv hlive
    refine ⟨s.removeAt (s.pick index), h₁, .value .none, ?_,
      hk.reachable.step (.release (.inl hlive) hr), fun y hy => ?_,
      by rw [pointers_eq]; exact (hperm.map _).nodup_iff.mpr hnd⟩
    · simp only [Shadow.apply, hemp, Bool.false_eq_true, if_false, hget, request_apply, hr,
        Except.map, bind, Except.bind, pure, Except.pure]
    · have hy' := hperm.mem_iff.mp hy
      have hyl : y ∈ s.entries.toList := by
        rw [hl]
        exact List.perm_middle.mem_iff.mpr (List.mem_cons_of_mem _ hy')
      exact (hk.held y hyl).release hv hlive (hne y hy').symm hr
  · have hget := s.entries_getD_of_le (Nat.le_of_not_lt hi)
    have h0 : (default : Expected).ptr = ⟨0⟩ := rfl
    refine ⟨s, h, .refused (.invalidPointer ⟨0⟩), ?_, hk⟩
    simp only [Shadow.apply, hemp, Bool.false_eq_true, if_false, hget, h0, request_apply,
      release_rejected (liveTag_zero h), Except.map, bind, Except.bind, pure, Except.pure]

/-- A resize keeps the invariant. A refused one changes no holding; one to size zero
releases the entry's block and removes the entry; a served one answers a block that starts
with the kept prefix of the pattern, which the check reads back and the fill extends to the
new size. An index past the entries picks the null pointer, which the heap rejects. -/
theorem Kept.resize (hk : s.Kept h) (index n : Nat) :
    ∃ s' h' res, s.apply h (.resize index n) = .ok (s', h', res) ∧ s'.Kept h' := by
  by_cases hemp : s.entries.isEmpty = true
  · exact ⟨s, h, .value .none, by simp [Shadow.apply, hemp, pure, Except.pure], hk⟩
  by_cases hi : s.pick index < s.entries.size
  · obtain ⟨pre, key, old, post, hl, hlen, hget⟩ := s.entries_getD_of_lt hi
    have hv := hk.reachable.valid
    have hx : h.Holds old.holding := hk.held (key, old) (by rw [hl]; simp)
    have hlive : h.Live old.ptr := hx.1.live
    have hnd : ((pre ++ (key, old) :: post).map (·.2.ptr)).Nodup := hl ▸ hk.apart
    obtain ⟨hne, hnd⟩ := pointers_middle hnd
    have hmem : ∀ y ∈ pre ++ post, y ∈ s.entries.toList := fun y hy => by
      rw [hl]
      exact List.perm_middle.mem_iff.mpr (List.mem_cons_of_mem _ hy)
    obtain ⟨r, h₁, hr, -, hnone⟩ := resize_total hv hlive n
    have hreach₁ : h₁.Reachable := hk.reachable.step (.resize n (.inl hlive) hr)
    have hothers : ∀ y ∈ pre ++ post,
        h₁.Holds y.2.holding ∧ ∀ q, r = .ok (some q) → q.offset ≠ y.2.ptr.offset :=
      fun y hy => (hk.held y (hmem y hy)).resize hv hlive (hne y hy).symm hr
    rcases r with err | _ | q
    · obtain ⟨bs, fl, hs⟩ := hv.shape
      have hrf := (resize_settles old.ptr n).refused hr
      refine ⟨s, h₁, .refused err, ?_, hreach₁, fun y hy => (hk.held y hy).of_refused hs hrf,
        hk.apart⟩
      simp only [Shadow.apply, hemp, Bool.false_eq_true, if_false, hget, request_apply, hr,
        Except.map, bind, Except.bind, pure, Except.pure]
    · have hperm := removeAt_perm hl
      rw [hlen] at hperm
      refine ⟨s.removeAt (s.pick index), h₁, .value .none, ?_, hreach₁,
        fun y hy => (hothers y (hperm.mem_iff.mp hy)).1,
        by rw [pointers_eq]; exact (hperm.map _).nodup_iff.mpr hnd⟩
      simp only [Shadow.apply, hemp, Bool.false_eq_true, if_false, hget, request_apply, hr,
        Except.map, bind, Except.bind, pure, Except.pure]
    · obtain ⟨hroom, hkept⟩ := hx.resize_self hv (q := q) hr
      obtain ⟨bs, fl, hs₁⟩ := hreach₁.valid.shape
      have hstart : Shadow.payloadStart h₁ q (min old.size n) = .ok q.offset :=
        payloadStart_room hs₁ hroom (Nat.min_le_right _ _)
      obtain ⟨held, hread, hheld⟩ := hs₁.read_holding hkept
      have hread' : h₁.arena.read q.offset (min old.size n) = .ok held := hread
      have hsame : sameBytes held (shadowBytes old.seed (min old.size n)) = true :=
        (sameBytes_iff _ _).mpr (ByteArray.eq_of_getElem? fun j => by
          rw [hheld, getElem?_shadowBytes]
          rfl)
      obtain ⟨h₂, hfill, hstep, hnew, hkeep⟩ :=
        fill_apply hs₁ (e := ⟨q, n, old.seed⟩) hroom
      have hset := set_entries hl (key, ⟨q, n, old.seed⟩)
      rw [hlen] at hset
      refine ⟨{ s with entries := s.entries.set! (s.pick index) (key, ⟨q, n, old.seed⟩) }, h₂,
        .value .none, ?_, hreach₁.step hstep, fun y hy => ?_, ?_⟩
      · simp only [Shadow.apply, hemp, Bool.false_eq_true, if_false, hget, request_apply, hr,
          Except.map, bind, Except.bind, pure, Except.pure, hstart, hread', hsame, Bool.not_true,
          hfill]
      · simp only [hset] at hy
        rcases List.mem_cons.mp (List.perm_middle.mem_iff.mp hy) with rfl | hy
        · exact hnew
        · exact hkeep _ (hothers y hy).1 ((hothers y hy).2 q rfl).symm
      · show ((s.entries.set! (s.pick index) (key, ⟨q, n, old.seed⟩)).toList.map _).Nodup
        rw [hset]
        exact pointers_join hnd fun y hy => ((hothers y hy).2 q rfl).symm
  · have hget := s.entries_getD_of_le (Nat.le_of_not_lt hi)
    have h0 : (default : Expected).ptr = ⟨0⟩ := rfl
    refine ⟨s, h, .refused (.invalidPointer ⟨0⟩), ?_, hk⟩
    simp only [Shadow.apply, hemp, Bool.false_eq_true, if_false, hget, h0, request_apply,
      resize_rejected (liveTag_zero h), Except.map, bind, Except.bind, pure, Except.pure]

/-- A drain keeps the invariant: it releases the entries from the last on, each a live block
no other entry names, popping each one first. -/
theorem Kept.drainFrom (l : List (Nat × Expected)) (hk : s.Kept h)
    (hl : s.entries.toList = l.reverse) :
    ∃ s' h' out, Shadow.drainFrom h l s = .ok (s', h', out) ∧ s'.Kept h' := by
  induction l generalizing s h with
  | nil => exact ⟨s, h, none, rfl, hk⟩
  | cons x rest ih =>
    obtain ⟨key, e⟩ := x
    have hl' : s.entries.toList = rest.reverse ++ [(key, e)] := by simpa using hl
    have hv := hk.reachable.valid
    have hx : h.Holds e.holding := hk.held (key, e) (by rw [hl']; simp)
    have hlive : h.Live e.ptr := hx.1.live
    have hnd : ((rest.reverse ++ [(key, e)]).map (·.2.ptr)).Nodup := hl' ▸ hk.apart
    obtain ⟨hne, hnd⟩ := pointers_middle hnd
    obtain ⟨h₁, hr⟩ := release_total hv hlive
    have hpop : s.entries.pop.toList = rest.reverse := by simp [hl']
    have hk₁ : Kept { s with entries := s.entries.pop } h₁ := by
      refine ⟨hk.reachable.step (.release (.inl hlive) hr), fun y hy => ?_, ?_⟩
      · have hy' : y ∈ rest.reverse := by
          rw [← hpop]
          exact hy
        exact (hk.held y (by rw [hl']; simp [hy'])).release hv hlive
          (hne y (by simpa using hy')).symm hr
      · show (s.entries.pop.toList.map _).Nodup
        rw [hpop]
        simpa using hnd
    obtain ⟨s', h', out, hd, hk'⟩ := ih hk₁ hpop
    exact ⟨s', h', out, by simp [Shadow.drainFrom, request_apply, hr, Except.map, bind,
      Except.bind, hd], hk'⟩

/-- Every step of the shadow's own keeps the invariant, without a fault. -/
theorem Kept.apply (hk : s.Kept h) {st : ShadowStep} (ho : st.Owned) :
    ∃ s' h' res, s.apply h st = .ok (s', h', res) ∧ s'.Kept h' := by
  cases st with
  | acquire n => exact hk.acquire n
  | release index => exact hk.release index
  | resize index n => exact hk.resize index n
  | drain =>
    obtain ⟨s', h', out, hd, hk'⟩ := hk.drainFrom s.entries.toList.reverse (by simp)
    cases out with
    | none =>
      exact ⟨s', h', .value .none,
        by simp [Shadow.apply, hd, bind, Except.bind, pure, Except.pure], hk'⟩
    | some err =>
      exact ⟨s', h', .refused err,
        by simp [Shadow.apply, hd, bind, Except.bind, pure, Except.pure], hk'⟩
  | heapRelease _ => exact False.elim ho
  | heapWrite _ _ _ => exact False.elim ho

/-- Verification passes on a heap that keeps what the shadow expects: every entry's block is
live with room for the entry, and its payload starts with the pattern. -/
theorem Kept.verify (hk : s.Kept h) : s.verify h = .ok () := by
  obtain ⟨bs, fl, hs⟩ := hk.reachable.valid.shape
  refine forM_ok fun ⟨key, e⟩ hx => ?_
  have hheld : h.Holds e.holding := hk.held _ hx
  obtain ⟨avail, hpr, -, havail, -⟩ := hs.room_payload hheld.1
  have hpr' : h.payloadRange e.ptr = .ok (e.ptr.offset, avail) := hpr
  have havail' : e.size ≤ avail := havail
  have hsame : firstDifference (h.arena.memory.extract e.ptr.offset (e.ptr.offset + e.size))
      (shadowBytes e.seed e.size) 0 e.size = none := by
    rw [firstDifference_eq_none_iff]
    intro j _ hj
    have hj' : j < e.size := by omega
    rw [getElem?_extract_bytes, getElem?_shadowBytes, if_pos (by omega), if_pos hj']
    exact hheld.2 j hj'
  simp [hpr', Nat.not_lt.mpr havail', hsame]

/-- A run of the shadow's own steps never faults, and after every step verification and the
heap's consistency check pass. The induction is on the steps, carrying `Kept`. -/
theorem Kept.runAll (hk : s.Kept h) {steps : List (Except String ShadowStep)}
    (ho : ∀ st ∈ steps, ∀ x, st = .ok x → x.Owned) :
    (s.runAll h steps).2 = false ∧
      ∀ v ∈ (s.runAll h steps).1, v.2.verify = .ok () ∧ v.2.check = .ok () := by
  induction steps generalizing s h with
  | nil => simp [Shadow.runAll]
  | cons st rest ih =>
    obtain ⟨s', h', res, hrun, hk'⟩ : ∃ (s' : Shadow) (h' : Heap) (res : StepResult),
        s.runAll h (st :: rest) =
        ((res, s'.view h') :: (s'.runAll h' rest).1, (s'.runAll h' rest).2) ∧ s'.Kept h' := by
      cases st with
      | ok x =>
        obtain ⟨s', h', res, hstep, hk'⟩ := hk.apply (ho _ List.mem_cons_self x rfl)
        exact ⟨s', h', res, by simp only [Shadow.runAll, hstep], hk'⟩
      | error reason => exact ⟨s, h, .rejected reason, by simp only [Shadow.runAll], hk⟩
    obtain ⟨hfault, hviews⟩ := ih hk' fun st hst => ho st (List.mem_cons_of_mem _ hst)
    rw [hrun]
    refine ⟨hfault, fun v hv => ?_⟩
    rcases List.mem_cons.mp hv with rfl | hv
    · exact ⟨hk'.verify, hk'.reachable.check⟩
    · exact hviews v hv

end Steps

end Shadow

theorem Heap.Passable.live_of_release {h h' : Heap} {p : BlockPtr} (hp : h.Passable p)
    (hr : Heap.run (Heap.release p) h = .ok (.ok (), h')) : h.Live p := by
  rcases hp with hp | ⟨e, he⟩
  · exact hp
  · rw [release_rejected he] at hr
    cases hr

theorem Heap.Passable.live_of_resize {h h' : Heap} {p : BlockPtr} (hp : h.Passable p) {n : Nat}
    {r : Option BlockPtr} (hr : Heap.run (Heap.resize p n) h = .ok (.ok r, h')) : h.Live p := by
  rcases hp with hp | ⟨e, he⟩
  · exact hp
  · rw [resize_rejected he n] at hr
    cases hr

/-- The payloads of live blocks lie apart and are kept. On every reachable heap the payload
of a live block, as the payload queries report it, lies between the prologue and the epilogue
and holds no header, footer or free-list link of any block, and the payloads of two live blocks
lie apart. A served acquisition, and a served release or resize of a pointer a program may
pass, keeps the payload of every other block live before it, range and bytes. A served resize
answers a block with room for the new size whose payload starts with the old payload's first
bytes, as many as both sizes allow, and all of them when it answers the block itself. A shadow
that starts empty and takes only its own steps never faults, and after every step its
verification and the heap's consistency check pass. -/
theorem live_payloads_apart_and_kept {h : Heap} (hr : h.Reachable) :
    (∀ p, h.Live p → ∃ avail, h.payloadRange p = .ok (p.offset, avail) ∧
      h.usableSize p = .ok avail ∧ 16 ≤ p.offset ∧ p.offset + avail ≤ h.arena.brk - 8 ∧
      ∀ j, p.offset ≤ j → j < p.offset + avail → ¬ h.Bookkeeping j) ∧
    (∀ p q ap aq, h.Live p → h.Live q → p ≠ q → h.usableSize p = .ok ap →
      h.usableSize q = .ok aq → p.offset + ap ≤ q.offset ∨ q.offset + aq ≤ p.offset) ∧
    (∀ n q h', Heap.run (Heap.acquire n) h = .ok (.ok q, h') →
      ∀ c, h.Live c → h.KeepsPayload h' c) ∧
    (∀ p h', h.Passable p → Heap.run (Heap.release p) h = .ok (.ok (), h') →
      ∀ c, h.Live c → c ≠ p → h.KeepsPayload h' c) ∧
    (∀ p n r h', h.Passable p → Heap.run (Heap.resize p n) h = .ok (.ok r, h') →
      ∀ c, h.Live c → c ≠ p → h.KeepsPayload h' c) ∧
    (∀ p n q h', h.Passable p → Heap.run (Heap.resize p n) h = .ok (.ok (some q), h') →
      ∃ avail avail', h.usableSize p = .ok avail ∧ h'.usableSize q = .ok avail' ∧ n ≤ avail' ∧
        (∀ j < min avail n, h'.arena.memory[q.offset + j]? = h.arena.memory[p.offset + j]?) ∧
        (q = p → ∀ j < avail, h'.arena.memory[p.offset + j]? = h.arena.memory[p.offset + j]?)) ∧
    ∀ steps : List (Except String ShadowStep), (∀ st ∈ steps, ∀ x, st = .ok x → x.Owned) →
      (Shadow.runAll {} h steps).2 = false ∧
        ∀ v ∈ (Shadow.runAll {} h steps).1, v.2.verify = .ok () ∧ v.2.check = .ok () := by
  have hv := hr.valid
  obtain ⟨bs, fl, hs⟩ := hv.shape
  refine ⟨fun p hp => ?_, fun p q ap aq hp hq hpq hap haq => hs.payloads_apart hp hq hpq hap haq,
    fun n q h' hrun c hc => acquire_keeps_payloads hv hrun hc,
    fun p h' hp hrun c hc hcp => release_keeps_payloads hv (hp.live_of_release hrun) hrun hc hcp,
    fun p n r h' hp hrun c hc hcp =>
      resize_keeps_payloads hv (hp.live_of_resize hrun) hrun hc hcp,
    fun p n q h' hp hrun => resize_copies hv (hp.live_of_resize hrun) hrun,
    fun steps ho => Shadow.Kept.runAll ⟨hr, by simp, by simp [Shadow.pointers]⟩ ho⟩
  obtain ⟨avail, hpr, hus, h16, hend, hclear⟩ := hs.live_payload hp
  exact ⟨avail, hpr, hus, h16, by omega, hclear⟩

/-- A reachable heap with two live blocks, on which the payload facts hold. -/
theorem built_heap_payloads_apart_and_kept : ∃ h : Heap, h.Reachable ∧
    (∃ p q, h.Live p ∧ h.Live q ∧ p ≠ q) ∧
    (∀ p, h.Live p → ∃ avail, h.payloadRange p = .ok (p.offset, avail) ∧
      h.usableSize p = .ok avail ∧ 16 ≤ p.offset ∧ p.offset + avail ≤ h.arena.brk - 8 ∧
      ∀ j, p.offset ≤ j → j < p.offset + avail → ¬ h.Bookkeeping j) ∧
    (∀ p q ap aq, h.Live p → h.Live q → p ≠ q → h.usableSize p = .ok ap →
      h.usableSize q = .ok aq → p.offset + ap ≤ q.offset ∨ q.offset + aq ≤ p.offset) ∧
    (∀ n q h', Heap.run (Heap.acquire n) h = .ok (.ok q, h') →
      ∀ c, h.Live c → h.KeepsPayload h' c) ∧
    (∀ p h', h.Passable p → Heap.run (Heap.release p) h = .ok (.ok (), h') →
      ∀ c, h.Live c → c ≠ p → h.KeepsPayload h' c) ∧
    (∀ p n r h', h.Passable p → Heap.run (Heap.resize p n) h = .ok (.ok r, h') →
      ∀ c, h.Live c → c ≠ p → h.KeepsPayload h' c) ∧
    (∀ p n q h', h.Passable p → Heap.run (Heap.resize p n) h = .ok (.ok (some q), h') →
      ∃ avail avail', h.usableSize p = .ok avail ∧ h'.usableSize q = .ok avail' ∧ n ≤ avail' ∧
        (∀ j < min avail n, h'.arena.memory[q.offset + j]? = h.arena.memory[p.offset + j]?) ∧
        (q = p → ∀ j < avail, h'.arena.memory[p.offset + j]? = h.arena.memory[p.offset + j]?)) ∧
    ∀ steps : List (Except String ShadowStep), (∀ st ∈ steps, ∀ x, st = .ok x → x.Owned) →
      (Shadow.runAll {} h steps).2 = false ∧
        ∀ v ∈ (Shadow.runAll {} h steps).1, v.2.verify = .ok () ∧ v.2.check = .ok () := by
  obtain ⟨h, p, q, hr, hp, hq, hpq⟩ := exists_reachable_two_live
  exact ⟨h, hr, ⟨p, q, hp, hq, hpq⟩, live_payloads_apart_and_kept hr⟩

end Allocator
