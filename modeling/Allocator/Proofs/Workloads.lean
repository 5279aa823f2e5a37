import Allocator.Workload
import Allocator.Proofs.Report

/-! Random workloads keep the trace's rules, whatever the generator, as long as its draws lie
in the ranges asked for. The generator carries an invariant from one request to the next
(`Draft.Keeps`): its live list holds distinct identifiers, exactly those live after the
trace so far under the trace's rules, all below the next identifier; acquisitions hand out
the identifiers in order from 0, and every size lies between 1 and the largest size.
Draining releases each identifier of the live list once, so none is left live. A replay of
a trace that keeps the rules, on any heap, never reports a record as breaking them. -/
namespace Allocator

namespace Request

/-- The identifier a request acquires, if it acquires one. -/
def acquiredId? : Request → Option Nat
  | .acquire id _ => some id
  | _ => none

end Request

/-- The identifiers live after records that follow others are those live after the others,
carried on. -/
theorem idsAfter_append (ids : Finset Nat) (xs ys : List Record) :
    idsAfter ids (xs ++ ys) = (idsAfter ids xs).bind fun ids => idsAfter ids ys := by
  induction xs generalizing ids with
  | nil => rfl
  | cons r rest ih =>
    simp only [List.cons_append, idsAfter]
    cases r.request.idStep ids with
    | none => rfl
    | some ids' => simp only [Option.bind_some, ih]

theorem idsAfter_concat (ids : Finset Nat) (rs : List Record) (r : Record) :
    idsAfter ids (rs ++ [r]) = (idsAfter ids rs).bind r.request.idStep := by
  rw [idsAfter_append]
  cases idsAfter ids rs with
  | none => rfl
  | some ids' =>
    simp only [Option.bind_some, idsAfter]
    cases r.request.idStep ids' <;> rfl

theorem Trace.push_records (t : Trace) (r : Request) :
    ∃ line, (t.push r).records.toList = t.records.toList ++ [⟨line, r⟩] := by
  simp only [Trace.push, Array.toList_push]
  exact ⟨_, rfl⟩

theorem Trace.size_push (t : Trace) (r : Request) : (t.push r).records.size = t.records.size + 1 := by
  simp only [Trace.push, Array.size_push]

namespace Workload

theorem getD_of_lt (a : Array Nat) {i : Nat} (hi : i < a.size) :
    ∃ pre x post, a.toList = pre ++ x :: post ∧ pre.length = i ∧ a.getD i 0 = x := by
  have hi' : i < a.toList.length := by simpa using hi
  refine ⟨a.toList.take i, a.toList[i], a.toList.drop (i + 1), ?_, by simp; omega, ?_⟩
  · rw [← List.drop_eq_getElem_cons hi', List.take_append_drop]
  · rw [Array.getD_eq_getD_getElem?, ← Array.getElem?_toList, List.getElem?_eq_getElem hi']
    rfl

/-- Removing an entry moves the last one into its place: it answers the entry, and the other
entries remain, in another order. -/
theorem swapRemove_perm {a : Array Nat} {pre post : List Nat} {x : Nat}
    (hl : a.toList = pre ++ x :: post) :
    (swapRemove a pre.length).1 = x ∧ (swapRemove a pre.length).2.toList.Perm (pre ++ post) := by
  have hsize : a.size = a.toList.length := by simp
  have hx : a.getD pre.length 0 = x := by
    rw [Array.getD_eq_getD_getElem?, ← Array.getElem?_toList, hl]
    simp
  refine ⟨hx, ?_⟩
  rcases List.eq_nil_or_concat' post with rfl | ⟨post', y, rfl⟩
  · simp [swapRemove, Array.getD_eq_getD_getElem?, hl, hsize]
  · have hlast : a.getD (a.size - 1) 0 = y := by
      rw [Array.getD_eq_getD_getElem?, ← Array.getElem?_toList, hl, hsize, hl]
      simp
    simp only [swapRemove, hlast, Array.toList_pop, Array.set!_eq_setIfInBounds,
      Array.toList_setIfInBounds]
    rw [hl]
    have hdrop : (y :: (post' ++ [y])).dropLast = y :: post' := by
      rw [← List.cons_append, List.dropLast_concat]
    simp [hdrop]
    exact List.Perm.append_left pre (List.perm_append_singleton y post').symm

theorem toFinset_erase_middle {pre post : List Nat} {x : Nat} (hnd : (pre ++ x :: post).Nodup) :
    (pre ++ x :: post).toFinset.erase x = (pre ++ post).toFinset := by
  have hx : x ∉ pre ++ post := (List.nodup_cons.mp (List.nodup_middle.mp hnd)).1
  ext k
  simp only [Finset.mem_erase, List.mem_toFinset, List.mem_append, List.mem_cons]
  by_cases hk : k = x
  · subst hk
    simp only [List.mem_append] at hx
    simp [hx]
  · simp [hk]

/-- What one random request can do, with the draws inside their ranges: acquire the next
identifier with a size from 1 to the largest size, pushing it on the live list; or, with a live
identifier, release the one at some position of the list, moving the last into its place; or
resize the one at some position to a size from 1 to the largest size. -/
theorem draftStep_cases {σ : Type} (w : Workload) {r : Rng σ} (hr : r.InRange) (d : Draft σ)
    (hmax : 1 ≤ w.maxSize) (hmax' : w.maxSize < 2 ^ 64) (hlive : d.live.size ≤ 2 ^ 64) :
    (∃ size gen, 1 ≤ size ∧ size ≤ w.maxSize ∧
      w.draftStep r d =
        { gen := gen, live := d.live.push d.nextId, nextId := d.nextId + 1,
          trace := d.trace.push (.acquire d.nextId size) }) ∨
    (∃ i gen key live, i < d.live.size ∧ swapRemove d.live i = (key, live) ∧
      w.draftStep r d = { d with gen, live, trace := d.trace.push (.release key) }) ∨
    (∃ i size gen, i < d.live.size ∧ 1 ≤ size ∧ size ≤ w.maxSize ∧
      w.draftStep r d = { d with gen, trace := d.trace.push (.resize (d.live.getD i 0) size) }) := by
  obtain ⟨seed, ops, maxSize, ⟨a, f, c⟩, drain⟩ := w
  obtain ⟨seedOf, below32, below, upTo⟩ := r
  obtain ⟨-, hbelow, hupTo⟩ := hr
  simp only at hmax hmax' hbelow hupTo
  unfold draftStep
  dsimp only
  generalize below32 d.gen 0 (a + f + c) = p
  obtain ⟨roll, gen⟩ := p
  split
  · have hs := hupTo gen 1 maxSize hmax hmax'
    generalize upTo gen 1 maxSize = q at hs ⊢
    obtain ⟨size, gen'⟩ := q
    exact .inl ⟨size, gen', hs.1, hs.2, rfl⟩
  rename_i hc
  have hne : 0 < d.live.size := by
    simp only [Bool.or_eq_true, not_or, Array.isEmpty_iff_size_eq_zero] at hc
    omega
  have hi := hbelow gen 0 d.live.size hne hlive
  generalize below gen 0 d.live.size = p at hi ⊢
  obtain ⟨i, gen'⟩ := p
  split
  · generalize hsw : swapRemove d.live i = q
    obtain ⟨key, live⟩ := q
    exact .inr (.inl ⟨i, gen', key, live, hi.2, hsw, rfl⟩)
  · have hs := hupTo gen' 1 maxSize hmax hmax'
    generalize upTo gen' 1 maxSize = q at hs ⊢
    obtain ⟨size, gen''⟩ := q
    exact .inr (.inr ⟨i, size, gen'', hi.2, hs.1, hs.2, rfl⟩)

/-- What the generator keeps from one request to the next: its live list holds distinct
identifiers below the next one, exactly those the trace so far leaves live under the trace's
rules; the trace acquires the identifiers in order from 0, with sizes from 1 to the largest
size; the live list is no longer than the trace; and when none is live, the trace so far
ends with a release, if it has a record at all. -/
structure Draft.Keeps {σ : Type} (w : Workload) (d : Draft σ) : Prop where
  nodup : d.live.toList.Nodup
  below : ∀ k ∈ d.live.toList, k < d.nextId
  ids : idsAfter ∅ d.trace.records.toList = some d.live.toList.toFinset
  acquired : d.trace.records.toList.filterMap (·.request.acquiredId?) = List.range d.nextId
  sizes : ∀ r ∈ d.trace.records.toList, ∀ s ∈ r.request.size?, 1 ≤ s ∧ s ≤ w.maxSize
  count : d.live.size ≤ d.trace.records.size
  lastFree : d.live.toList = [] → ∀ r ∈ d.trace.records.toList.getLast?,
    ∃ key, r.request = .release key

namespace Draft.Keeps

variable {σ : Type} {w : Workload} {d : Draft σ}

/-- The generator starts with nothing live and an empty trace. -/
theorem start (w : Workload) (gen : σ) : Draft.Keeps w ({ gen := gen } : Draft σ) where
  nodup := List.nodup_nil
  below k hk := by simp at hk
  ids := rfl
  acquired := rfl
  sizes r hr := by simp at hr
  count := Nat.le_refl 0
  lastFree _ r hr := by simp at hr

/-- An acquisition of the next identifier, with a size in range, keeps the invariant. -/
theorem acquire (hk : d.Keeps w) (gen : σ) {size : Nat} (hs1 : 1 ≤ size)
    (hs2 : size ≤ w.maxSize) :
    Draft.Keeps w
      { gen := gen, live := d.live.push d.nextId, nextId := d.nextId + 1,
        trace := d.trace.push (.acquire d.nextId size) } := by
  obtain ⟨line, hpush⟩ := Trace.push_records d.trace (.acquire d.nextId size)
  have hfresh : d.nextId ∉ d.live.toList := fun hm => Nat.lt_irrefl _ (hk.below _ hm)
  refine ⟨?_, ?_, ?_, ?_, ?_, ?_, ?_⟩
  · rw [Array.toList_push, List.nodup_append_comm]
    exact List.nodup_cons.mpr ⟨hfresh, hk.nodup⟩
  · intro k hm
    simp only [Array.toList_push, List.mem_append, List.mem_singleton] at hm
    rcases hm with hm | rfl
    · exact Nat.lt_succ_of_lt (hk.below k hm)
    · exact Nat.lt_succ_self _
  · rw [hpush, idsAfter_concat, hk.ids, Option.bind_some]
    simp only [Request.idStep, List.mem_toFinset, hfresh, if_false, Option.some.injEq]
    ext k
    simp
  · rw [hpush, List.filterMap_append, hk.acquired, List.range_succ]
    rfl
  · intro r hr s hs
    rw [hpush, List.mem_append, List.mem_singleton] at hr
    rcases hr with hr | rfl
    · exact hk.sizes r hr s hs
    · cases hs
      exact ⟨hs1, hs2⟩
  · simp only [Array.size_push, Trace.size_push]
    exact Nat.succ_le_succ hk.count
  · intro h
    simp at h

/-- A release of the identifier at a position of the live list keeps the invariant: the
identifier is live, and the list loses it alone. -/
theorem release (hk : d.Keeps w) (gen : σ) {i key : Nat} {live : Array Nat}
    (hi : i < d.live.size) (hsw : swapRemove d.live i = (key, live)) :
    Draft.Keeps w { d with gen := gen, live := live, trace := d.trace.push (.release key) } := by
  obtain ⟨line, hpush⟩ := Trace.push_records d.trace (.release key)
  obtain ⟨pre, x, post, hl, hlen, -⟩ := getD_of_lt d.live hi
  obtain ⟨hx, hperm⟩ := swapRemove_perm hl
  rw [hlen, hsw] at hx hperm
  simp only at hx hperm
  subst hx
  have hnd := hk.nodup
  rw [hl] at hnd
  have hrest : (pre ++ post).Nodup := (List.nodup_cons.mp (List.nodup_middle.mp hnd)).2
  have hsub : ∀ k ∈ live.toList, k ∈ d.live.toList := fun k hm => by
    rw [hl]
    have := hperm.mem_iff.mp hm
    simp only [List.mem_append, List.mem_cons] at this ⊢
    tauto
  have hmem : key ∈ d.live.toList := by
    rw [hl]
    simp
  refine ⟨hperm.nodup_iff.mpr hrest, fun k hm => hk.below k (hsub k hm), ?_, ?_, ?_, ?_, ?_⟩
  · rw [hpush, idsAfter_concat, hk.ids, Option.bind_some]
    simp only [Request.idStep, List.mem_toFinset, hmem, if_true, Option.some.injEq]
    rw [List.toFinset_eq_of_perm _ _ hperm, ← toFinset_erase_middle hnd, hl]
  · rw [hpush, List.filterMap_append, hk.acquired]
    simp [Request.acquiredId?]
  · intro r hr s hs
    rw [hpush, List.mem_append, List.mem_singleton] at hr
    rcases hr with hr | rfl
    · exact hk.sizes r hr s hs
    · cases hs
  · have hsize : live.size + 1 = d.live.size := by
      have h₁ := hperm.length_eq
      have h₂ := congrArg List.length hl
      simp only [Array.length_toList, List.length_append, List.length_cons] at h₁ h₂
      omega
    simp only [Trace.size_push]
    have := hk.count
    omega
  · intro _ r hr
    rw [hpush, List.getLast?_concat] at hr
    cases hr
    exact ⟨key, rfl⟩

/-- A resize of the identifier at a position of the live list, to a size in range, keeps the
invariant: the identifier is live and stays so. -/
theorem resize (hk : d.Keeps w) (gen : σ) {i size : Nat} (hi : i < d.live.size)
    (hs1 : 1 ≤ size) (hs2 : size ≤ w.maxSize) :
    Draft.Keeps w { d with gen := gen, trace := d.trace.push (.resize (d.live.getD i 0) size) } := by
  obtain ⟨line, hpush⟩ := Trace.push_records d.trace (.resize (d.live.getD i 0) size)
  obtain ⟨pre, x, post, hl, -, hx⟩ := getD_of_lt d.live hi
  have hmem : d.live.getD i 0 ∈ d.live.toList := by
    rw [hx, hl]
    simp
  refine ⟨hk.nodup, hk.below, ?_, ?_, ?_, ?_, ?_⟩
  · rw [hpush, idsAfter_concat, hk.ids, Option.bind_some]
    simp only [Request.idStep, List.mem_toFinset, hmem, if_true, Nat.ne_of_gt hs1, if_false]
  · rw [hpush, List.filterMap_append, hk.acquired]
    simp [Request.acquiredId?]
  · intro r hr s hs
    rw [hpush, List.mem_append, List.mem_singleton] at hr
    rcases hr with hr | rfl
    · exact hk.sizes r hr s hs
    · cases hs
      exact ⟨hs1, hs2⟩
  · simp only [Trace.size_push]
    exact Nat.le_succ_of_le hk.count
  · intro hnil
    rw [hnil] at hmem
    cases hmem

/-- One random request keeps the invariant and adds one record, while the live list is
within the range a position can be drawn from. -/
theorem step (hk : d.Keeps w) {r : Rng σ} (hr : r.InRange) (hmax : 1 ≤ w.maxSize)
    (hmax' : w.maxSize < 2 ^ 64) (hlive : d.live.size ≤ 2 ^ 64) :
    (w.draftStep r d).Keeps w ∧ (w.draftStep r d).trace.records.size = d.trace.records.size + 1 := by
  rcases draftStep_cases w hr d hmax hmax' hlive with
    ⟨size, gen, hs1, hs2, heq⟩ | ⟨i, gen, key, live, hi, hsw, heq⟩ | ⟨i, size, gen, hi, hs1, hs2, heq⟩ <;>
    rw [heq]
  · exact ⟨hk.acquire gen hs1 hs2, Trace.size_push _ _⟩
  · exact ⟨hk.release gen hi hsw, Trace.size_push _ _⟩
  · exact ⟨hk.resize gen hi hs1 hs2, Trace.size_push _ _⟩

/-- `n` random requests keep the invariant and add `n` records, while the trace stays within
`2^64` records. -/
theorem steps (hk : d.Keeps w) {r : Rng σ} (hr : r.InRange) (hmax : 1 ≤ w.maxSize)
    (hmax' : w.maxSize < 2 ^ 64) (n : Nat) (hn : d.trace.records.size + n ≤ 2 ^ 64) :
    (w.draftSteps r n d).Keeps w ∧
      (w.draftSteps r n d).trace.records.size = d.trace.records.size + n := by
  induction n generalizing d with
  | zero => exact ⟨hk, rfl⟩
  | succ n ih =>
    have hlive : d.live.size ≤ 2 ^ 64 := by
      have := hk.count
      omega
    obtain ⟨hk₁, hsize₁⟩ := hk.step hr hmax hmax' hlive
    obtain ⟨hk', hsize'⟩ := ih hk₁ (by omega)
    refine ⟨hk', ?_⟩
    rw [draftSteps, hsize', hsize₁]
    omega

end Draft.Keeps

/-- Releasing identifiers in turn appends one record per identifier, each releasing it. -/
theorem releases_records (t : Trace) (ks : List Nat) :
    ∃ recs, (ks.foldl (fun t key => t.push (.release key)) t).records.toList =
      t.records.toList ++ recs ∧ recs.map (·.request) = ks.map .release := by
  induction ks generalizing t with
  | nil => exact ⟨[], by simp, rfl⟩
  | cons k ks ih =>
    obtain ⟨line, hpush⟩ := Trace.push_records t (.release k)
    obtain ⟨recs, hrecs, hmap⟩ := ih (t.push (.release k))
    refine ⟨⟨line, .release k⟩ :: recs, ?_, by simp [hmap]⟩
    rw [List.foldl_cons, hrecs, hpush, List.append_assoc, List.singleton_append]

/-- Releasing distinct identifiers, all live, leaves none live. -/
theorem idsAfter_releases {ks : List Nat} (hnd : ks.Nodup) {recs : List Record}
    (hr : recs.map (·.request) = ks.map .release) : idsAfter ks.toFinset recs = some ∅ := by
  induction ks generalizing recs with
  | nil =>
    rw [List.map_nil, List.map_eq_nil_iff] at hr
    subst hr
    rfl
  | cons k ks ih =>
    cases recs with
    | nil => simp at hr
    | cons r rest =>
    simp only [List.map_cons, List.cons.injEq] at hr
    obtain ⟨hk, hrest⟩ := hr
    obtain ⟨hnotin, hnd'⟩ := List.nodup_cons.mp hnd
    have herase : (insert k ks.toFinset).erase k = ks.toFinset :=
      Finset.erase_insert (by simpa using hnotin)
    simp only [idsAfter, hk, Request.idStep, List.toFinset_cons, Finset.mem_insert, true_or,
      if_true, Option.bind_some, herase]
    exact ih hnd' hrest

theorem release_of_mem {recs : List Record} {ks : List Nat}
    (hr : recs.map (·.request) = ks.map .release) {r : Record} (hm : r ∈ recs) :
    ∃ key, r.request = .release key := by
  have hreq : r.request ∈ ks.map .release := hr ▸ List.mem_map_of_mem hm
  obtain ⟨key, -, hkey⟩ := List.mem_map.mp hreq
  exact ⟨key, hkey.symm⟩

/-- The random trace is the trace of the random requests, followed, when the workload drains,
by a release of each identifier still live, in list order. -/
theorem generate_records {σ : Type} (w : Workload) (r : Rng σ) :
    ∃ tail, (w.generate r).records.toList =
        (w.draftSteps r w.ops { gen := r.seed w.seed }).trace.records.toList ++ tail ∧
      tail.map (·.request) = if w.drain then
        (w.draftSteps r w.ops { gen := r.seed w.seed }).live.toList.map .release
      else [] := by
  generalize hd : w.draftSteps r w.ops { gen := r.seed w.seed } = d
  have hgen : w.generate r =
      if w.drain then d.live.foldl (fun t key => t.push (.release key)) d.trace else d.trace := by
    rw [← hd]
    rfl
  rw [hgen]
  cases w.drain
  · exact ⟨[], by simp, rfl⟩
  · rw [if_pos rfl, if_pos rfl, ← Array.foldl_toList]
    exact releases_records d.trace d.live.toList

end Workload

/-- Every random workload, for every seed and every generator whose draws lie in the ranges
asked for, keeps the trace's rules. Acquisitions hand out the identifiers 0, 1, 2, … in order;
every size lies between 1 and the largest size; the first `ops` records are the random
requests, after which the identifiers live are distinct and, when the workload drains, the
remaining records release exactly those, so that none is live at the end and, when there was
a request, the last record is a release. Every release and resize names a live identifier and
every acquisition one that is not, so a replay on any heap never reports a record as breaking
the rules. -/
theorem generated_trace_keeps_rules {σ : Type} (w : Workload) (rng : Rng σ) (hrng : rng.InRange)
    (hops : w.ops ≤ Nat.pow 2 64) (hmax : 1 ≤ w.maxSize) (hmax' : w.maxSize < Nat.pow 2 64) :
    (∃ n, (w.generate rng).records.toList.filterMap (·.request.acquiredId?) = List.range n) ∧
      (∀ r ∈ (w.generate rng).records.toList, ∀ s ∈ r.request.size?, 1 ≤ s ∧ s ≤ w.maxSize) ∧
      (∃ live : List Nat, live.Nodup ∧ w.ops ≤ (w.generate rng).records.size ∧
        idsAfter ∅ ((w.generate rng).records.toList.take w.ops) = some live.toFinset ∧
        ((w.generate rng).records.toList.drop w.ops).map (·.request) =
          if w.drain then live.map .release else []) ∧
      (∃ ids, idsAfter ∅ (w.generate rng).records.toList = some ids ∧ (w.drain → ids = ∅)) ∧
      (w.drain → 0 < w.ops →
        ∃ r ∈ (w.generate rng).records.toList.getLast?, ∃ key, r.request = .release key) ∧
      (∀ h opts h' e, (w.generate rng).replay h opts = .ok (h', .error e) → e.Benign) := by
  obtain ⟨hk, hsize⟩ := (Workload.Draft.Keeps.start w (rng.seed w.seed)).steps hrng
    hmax hmax' w.ops (by simpa using hops)
  obtain ⟨tail, hall, htail⟩ := w.generate_records rng
  generalize w.draftSteps rng w.ops { gen := rng.seed w.seed } = d at hk hsize hall htail
  have hmain : d.trace.records.toList.length = w.ops := by simpa using hsize
  have hrel : ∀ r ∈ tail, ∃ key, r.request = .release key := fun r hm => by
    split at htail
    · exact Workload.release_of_mem htail hm
    · rw [List.map_eq_nil_iff] at htail
      subst htail
      cases hm
  have hids : ∃ ids, idsAfter ∅ (w.generate rng).records.toList = some ids ∧
      (w.drain → ids = ∅) := by
    rw [hall, idsAfter_append, hk.ids, Option.bind_some]
    split at htail
    · exact ⟨∅, Workload.idsAfter_releases hk.nodup htail, fun _ => rfl⟩
    · rename_i hdr
      rw [List.map_eq_nil_iff] at htail
      subst htail
      exact ⟨_, rfl, fun h => absurd h hdr⟩
  refine ⟨⟨d.nextId, ?_⟩, ?_, ⟨d.live.toList, hk.nodup, ?_, ?_, ?_⟩, hids, ?_, ?_⟩
  · rw [hall, List.filterMap_append, hk.acquired, List.filterMap_eq_nil_iff.mpr, List.append_nil]
    intro r hm
    obtain ⟨key, hkey⟩ := hrel r hm
    simp [hkey, Request.acquiredId?]
  · intro r hm s hs
    rw [hall, List.mem_append] at hm
    rcases hm with hm | hm
    · exact hk.sizes r hm s hs
    · obtain ⟨key, hkey⟩ := hrel r hm
      simp [hkey, Request.size?] at hs
  · have := congrArg List.length hall
    simp only [Array.length_toList, List.length_append] at this
    omega
  · rw [hall, List.take_left' hmain]
    exact hk.ids
  · rw [hall, List.drop_left' hmain]
    exact htail
  · intro hdr hops
    rw [hall]
    rcases List.eq_nil_or_concat' tail with rfl | ⟨tail', r, rfl⟩
    · rw [if_pos hdr, List.map_nil, eq_comm, List.map_eq_nil_iff] at htail
      obtain ⟨r, hr⟩ : ∃ r, d.trace.records.toList.getLast? = some r :=
        Option.isSome_iff_exists.mp (List.getLast?_isSome.mpr (fun h => by simp [h] at hmain; omega))
      rw [List.append_nil]
      exact ⟨r, hr, hk.lastFree htail r hr⟩
    · rw [← List.append_assoc, List.getLast?_concat]
      exact ⟨r, rfl, hrel r (by simp)⟩
  · intro h opts h' e hrep
    obtain ⟨ids, hsome, -⟩ := hids
    exact Trace.replay_benign (by rw [hsome]; exact Option.some_ne_none _) hrep

/-- A generator that draws its counter, reduced into the range asked for, and counts up. -/
def Rng.counter : Rng Nat where
  seed := id
  below32 g lo hi := (lo + g % (hi - lo), g + 1)
  below g lo hi := (lo + g % (hi - lo), g + 1)
  upTo g lo hi := (lo + g % (hi - lo + 1), g + 1)

private theorem counter_draw_lt (g : Nat) {lo hi : Nat} (h : lo < hi) :
    lo + g % (hi - lo) < hi := by
  have := Nat.mod_lt g (Nat.sub_pos_of_lt h)
  omega

theorem Rng.counter_inRange : Rng.counter.InRange where
  below32 g _ _ hlt _ := ⟨Nat.le_add_right _ _, counter_draw_lt g hlt⟩
  below g _ _ hlt _ := ⟨Nat.le_add_right _ _, counter_draw_lt g hlt⟩
  upTo g lo hi _ _ := ⟨Nat.le_add_right _ _, by
    have := Nat.mod_lt g (Nat.succ_pos (hi - lo))
    rw [Nat.succ_eq_add_one] at this
    simp only [Rng.counter]
    omega⟩

/-- The stress profile, drawn by the counting generator, keeps the trace's rules: it drains,
leaving no identifier live, and its replay never reports a record as breaking the rules. -/
theorem stress_profile_keeps_rules :
    Rng.counter.InRange ∧ (Workload.stress 0).ops ≤ Nat.pow 2 64 ∧
      1 ≤ (Workload.stress 0).maxSize ∧ (Workload.stress 0).maxSize < Nat.pow 2 64 ∧
      idsAfter ∅ ((Workload.stress 0).generate Rng.counter).records.toList = some ∅ ∧
      ∀ h opts h' e, ((Workload.stress 0).generate Rng.counter).replay h opts = .ok (h', .error e) →
        e.Benign := by
  have hkeep := generated_trace_keeps_rules (Workload.stress 0) Rng.counter Rng.counter_inRange
    (by decide) (by decide) (by decide)
  obtain ⟨ids, hids, hempty⟩ := hkeep.2.2.2.1
  refine ⟨Rng.counter_inRange, by decide, by decide, by decide, ?_, hkeep.2.2.2.2.2⟩
  rw [hids, hempty rfl]

end Allocator
