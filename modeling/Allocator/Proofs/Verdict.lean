import Allocator.Proofs.Tiling

/-! The consistency check decides the representation invariant, as the check reads tags.
`Consistent h bs fl` says that the arena is tiled by the blocks `bs` (`Tiled`) and that the free
list, from the tail on, is `fl`: every free block of the tiling once, in ascending size, linked
both ways. The free-list walk is stated on its own terms: `Reaches a cur ps last` follows the
links toward larger blocks from `cur` through the blocks `ps` to `last`, and `BackLinked` says
that each link toward smaller blocks names the block before.

On a heap whose arena bytes hold the break, within 32-bit offsets, and whatever its free-list
tail, the check passes exactly when the heap is consistent (`check_ok_iff`), and every error it
reports names a rule the heap really breaks (`check_error`, with `CheckError.Occurs` giving each
error's meaning). The free-list walk carries what it has visited (`Listing`); it visits each
free block at most once, so its step budget of one more than the number of free blocks is never
what stops it. The check compares decoded tags, so a header and a footer that differ in bits 1
or 2 pass it (`footer_bits_pass_check`). -/
namespace Allocator

namespace Arena

/-- The block that the link toward larger blocks of the free block at `p` names, 0 standing
for none, when the link word lies below the break. -/
def larger? (a : Arena) (p : Nat) : Option (Option Nat) :=
  (a.word? p).map fun w => if w = 0 then none else some w

end Arena

/-- Following the links toward larger blocks from `cur` passes the blocks at `ps` in order and
arrives at `last`: the walk stands at the first of them, and the link of each names where the
walk goes next. -/
def Reaches (a : Arena) : Option Nat → List Nat → Option Nat → Prop
  | cur, [], last => cur = last
  | cur, p :: ps, last => cur = some p ∧ ∃ n, a.larger? p = some n ∧ Reaches a n ps last

/-- The link toward smaller blocks of each block at `ps` names the block before it, `s` for the
first. -/
def BackLinked (a : Arena) : Nat → List Nat → Prop
  | _, [] => True
  | s, p :: ps => a.word? (p + 4) = some s ∧ BackLinked a p ps

section Links

variable {a : Arena} {cur last : Option Nat} {s : Nat} {ps : List Nat}

@[simp] theorem reaches_nil : Reaches a cur [] last ↔ cur = last := Iff.rfl

theorem reaches_cons {p : Nat} : Reaches a cur (p :: ps) last ↔
    cur = some p ∧ ∃ n, a.larger? p = some n ∧ Reaches a n ps last := Iff.rfl

theorem Reaches.snoc {p : Nat} {n : Option Nat} (hr : Reaches a cur ps (some p))
    (hn : a.larger? p = some n) : Reaches a cur (ps ++ [p]) n := by
  induction ps generalizing cur with
  | nil => exact ⟨hr, n, hn, rfl⟩
  | cons q ps ih =>
    obtain ⟨rfl, m, hm, hr⟩ := reaches_cons.mp hr
    exact ⟨rfl, m, hm, ih hr⟩

theorem BackLinked.snoc {p : Nat} (hb : BackLinked a s ps) (hp : a.word? (p + 4) = some (ps.getLastD s)) :
    BackLinked a s (ps ++ [p]) := by
  induction ps generalizing s with
  | nil => exact ⟨hp, trivial⟩
  | cons q ps ih => exact ⟨hb.1, ih hb.2 (by rwa [List.getLastD_cons] at hp)⟩

/-- A walk that ends, with every back link in place, is a chain of links both ways from the
tail. The induction is on the blocks passed. -/
theorem Reaches.chain (hr : Reaches a cur ps none) (hb : BackLinked a s ps)
    (h0 : ∀ p ∈ ps, p ≠ 0) : Chain a s ps 0 ∧ cur = ps.head? := by
  induction ps generalizing cur s with
  | nil => exact ⟨trivial, hr⟩
  | cons p ps ih =>
    obtain ⟨rfl, n, hn, hr'⟩ := reaches_cons.mp hr
    obtain ⟨hback, hb'⟩ := hb
    obtain ⟨hch, rfl⟩ := ih hr' hb' fun q hq => h0 q (List.mem_cons_of_mem _ hq)
    refine ⟨⟨hback, ?_, hch⟩, rfl⟩
    obtain ⟨w, hw, hwn⟩ := Option.map_eq_some_iff.mp hn
    rw [hw]
    cases ps with
    | nil => simpa using hwn
    | cons q ps =>
      have hq := h0 q (by simp)
      by_cases hw0 : w = 0
      · simp [hw0] at hwn
      · simp only [hw0, if_false, Option.some.injEq, List.head?_cons] at hwn
        simp [hwn]

end Links

/-- The representation invariant of a heap as the check reads it: its arena is tiled by the
blocks `bs`, and its free list, from the tail on, is `fl`: every free block of the tiling once,
in ascending size, each linked to its neighbours in the list both ways. -/
structure Consistent (h : Heap) (bs fl : List BlockInfo) : Prop where
  tiled : Tiled h.arena bs
  chain : Chain h.arena 0 (fl.map (·.ptr)) 0
  tail : h.tail = (fl.map (·.ptr)).head?
  perm : fl.Perm (bs.filter (·.state == .free))
  sorted : fl.Pairwise BlockInfo.SizeLE

/-- What each error of the check says about the heap: the rule it really breaks. The errors of
the prologue checks and the block walk mean what `CheckError.Breaks` says; the errors of the
free-list walk name a block that the walk from the tail reaches, on an arena that the block walk
accepts. -/
def CheckError.Occurs (h : Heap) : CheckError → Prop
  | .allocatedListed p => ∃ bs ps, Tiled h.arena bs ∧ Reaches h.arena h.tail ps (some p) ∧
      p ∉ freePtrs bs
  | .listCycle p => ∃ bs ps, Tiled h.arena bs ∧ Reaches h.arena h.tail ps (some p) ∧ p ∈ ps
  | .brokenLink p => ∃ bs ps, Tiled h.arena bs ∧ Reaches h.arena h.tail ps (some p) ∧
      p ∈ freePtrs bs ∧ h.arena.word? (p + 4) ≠ some (ps.getLastD 0)
  | .listOrder p => ∃ bs ps b c, Tiled h.arena bs ∧ Reaches h.arena h.tail (ps ++ [c.ptr]) (some p) ∧
      b ∈ bs ∧ c ∈ bs ∧ b.ptr = p ∧ b.size < c.size
  | .freeNotListed p => ∃ bs ps, Tiled h.arena bs ∧ p ∈ freePtrs bs ∧
      Reaches h.arena h.tail ps none ∧ p ∉ ps
  | e => e.Breaks h.arena

theorem CheckError.Breaks.occurs {h : Heap} {e : CheckError} (he : e.Breaks h.arena) :
    e.Occurs h := by
  cases e with
  | allocatedListed | listCycle | brokenLink | listOrder | freeNotListed => exact he.elim
  | _ => exact he

/-- The free-list walk has visited the blocks `fl` of the tiling `bs` from the tail, in order,
and stands at `cur`: they are distinct free blocks in ascending size, the link toward smaller
blocks of each names the one before, and the links toward larger blocks lead from each to the
next and from the last to `cur`. -/
structure Listing (h : Heap) (bs fl : List BlockInfo) (cur : Option Nat) : Prop where
  reaches : Reaches h.arena h.tail (fl.map (·.ptr)) cur
  back : BackLinked h.arena 0 (fl.map (·.ptr))
  free : ∀ b ∈ fl, b ∈ bs ∧ b.state = .free
  nodup : fl.Nodup
  sorted : fl.Pairwise BlockInfo.SizeLE

/-- Where the free-list walk came from: the last block visited and its size. -/
def lastVisited (fl : List BlockInfo) : Option (Nat × Nat) := fl.getLast?.map fun b => (b.ptr, b.size)

theorem lastVisited_ptr (fl : List BlockInfo) :
    ((lastVisited fl).map Prod.fst).getD 0 = (fl.map (·.ptr)).getLastD 0 := by
  rcases List.eq_nil_or_concat fl with rfl | ⟨fl', b, rfl⟩ <;> simp [lastVisited]

theorem lastVisited_any (fl : List BlockInfo) (n : Nat) :
    (lastVisited fl).any (fun s => n < s.2) = true ↔ ∃ c ∈ fl.getLast?, n < c.size := by
  rcases List.eq_nil_or_concat fl with rfl | ⟨fl', b, rfl⟩ <;> simp [lastVisited]

@[simp] theorem lastVisited_snoc (fl : List BlockInfo) (b : BlockInfo) :
    lastVisited (fl ++ [b]) = some (b.ptr, b.size) := by
  simp [lastVisited]

theorem contains_insert_snoc {S : Std.HashSet Nat} {fl : List BlockInfo}
    (hS : ∀ q, S.contains q = true ↔ q ∈ fl.map (·.ptr)) (b : BlockInfo) (q : Nat) :
    (S.insert b.ptr).contains q = true ↔ q ∈ (fl ++ [b]).map (·.ptr) := by
  rw [Std.HashSet.contains_insert, List.map_append, List.mem_append, ← hS q]
  simp only [Bool.or_eq_true, beq_iff_eq, List.map_cons, List.map_nil, List.mem_singleton]
  tauto

section FreeWalk

variable {a : Arena} {F S : Std.HashSet Nat} {sm : Option (Nat × Nat)} {fuel p : Nat}

theorem walkFree_none : Heap.walkFree a F fuel S sm none = .ok S := by
  cases fuel <;> rfl

theorem walkFree_unlisted (hF : F.contains p = false) :
    Heap.walkFree a F (fuel + 1) S sm (some p) = .error (.allocatedListed p) := by
  simp [Heap.walkFree, hF, bind, Except.bind, throw, throwThe, MonadExceptOf.throw]

theorem walkFree_seen (hF : F.contains p = true) (hS : S.contains p = true) :
    Heap.walkFree a F (fuel + 1) S sm (some p) = .error (.listCycle p) := by
  simp [Heap.walkFree, hF, hS, bind, Except.bind, throw, throwThe, MonadExceptOf.throw]

/-- One step of the free-list walk at a new free block whose header and two link words read
as `t`, `w` and `w'`. -/
theorem walkFree_step (hF : F.contains p = true) (hS : S.contains p = false) {t : Tag} {w w' : Nat}
    (ht : a.tag? (p - 4) = some t) (hb : a.word? (p + 4) = some w) (hl : a.word? p = some w') :
    Heap.walkFree a F (fuel + 1) S sm (some p) =
      if w ≠ (sm.map Prod.fst).getD 0 then .error (.brokenLink p)
      else if sm.any (fun s => t.size < s.2) then .error (.listOrder p)
      else Heap.walkFree a F fuel (S.insert p) (some (p, t.size)) (if w' = 0 then none else some w') := by
  simp only [Heap.walkFree, hF, hS, Bool.not_true, Bool.false_eq_true, if_false, wordBytes,
    Heap.checkedTag_eq, ht, Link.offset_smaller, Link.offset_larger, hb, hl, bind, Except.bind,
    pure, Except.pure, throw, throwThe, MonadExceptOf.throw]

end FreeWalk

namespace Listing

variable {h : Heap} {bs fl : List BlockInfo} {cur : Option Nat}

theorem start : Listing h bs [] h.tail :=
  ⟨rfl, trivial, by simp, List.nodup_nil, List.Pairwise.nil⟩

theorem length_le (hl : Listing h bs fl cur) : fl.length ≤ (freePtrs bs).length := by
  have hsub : fl.Subperm (bs.filter (·.state == .free)) :=
    hl.nodup.subperm fun b hb => List.mem_filter.mpr ⟨(hl.free b hb).1, by simp [(hl.free b hb).2]⟩
  simpa [freePtrs] using hsub.length_le

/-- Visiting a new free block whose link toward smaller blocks names the block visited last,
and which is no smaller than it. -/
theorem step {b : BlockInfo} (hl : Listing h bs fl (some b.ptr)) (hb : b ∈ bs)
    (hbf : b.state = .free) (hnew : b.ptr ∉ fl.map (·.ptr))
    (hback : h.arena.word? (b.ptr + 4) = some ((fl.map (·.ptr)).getLastD 0))
    (hord : ∀ c ∈ fl.getLast?, c.size ≤ b.size) {n : Option Nat}
    (hn : h.arena.larger? b.ptr = some n) : Listing h bs (fl ++ [b]) n := by
  refine ⟨by simpa using hl.reaches.snoc hn, by simpa using hl.back.snoc hback, ?_, ?_, ?_⟩
  · intro c hc
    rcases List.mem_append.mp hc with hc | hc
    · exact hl.free c hc
    · obtain rfl := List.mem_singleton.mp hc
      exact ⟨hb, hbf⟩
  · refine List.nodup_append.mpr ⟨hl.nodup, List.nodup_singleton b, fun c hc d hd e => ?_⟩
    obtain rfl := List.mem_singleton.mp hd
    exact hnew (List.mem_map.mpr ⟨c, hc, by rw [e]⟩)
  · refine List.pairwise_append.mpr ⟨hl.sorted, List.pairwise_singleton _ b, fun c hc d hd => ?_⟩
    obtain rfl := List.mem_singleton.mp hd
    rcases List.eq_nil_or_concat fl with rfl | ⟨fl', l, rfl⟩
    · cases hc
    · have hl' : l.size ≤ d.size := hord l (by simp)
      rw [List.concat_eq_append] at hc
      rcases List.mem_append.mp hc with hc | hc
      · have := (List.pairwise_append.mp (by simpa using hl.sorted)).2.2 c hc l (by simp)
        exact Nat.le_trans this hl'
      · obtain rfl := List.mem_singleton.mp hc
        exact hl'

end Listing

/-- The header and the two link words of a block of a tiled arena whose bytes hold its break
can be read. -/
theorem Tiled.reads {a : Arena} {bs : List BlockInfo} (ht : Tiled a bs)
    (hm : a.brk ≤ a.memory.size) {b : BlockInfo} (hb : b ∈ bs) :
    a.tag? (b.ptr - 4) = some b.tag ∧ (∃ w, a.word? (b.ptr + 4) = some w) ∧
      ∃ w, a.word? b.ptr = some w := by
  obtain ⟨-, hend, h16, hh, -⟩ := ht.tiling.mem hb
  simp only [minBlock] at h16
  exact ⟨hh, readWord?_isSome (m := a.memory) (by omega) (by omega),
    readWord?_isSome (m := a.memory) (by omega) (by omega)⟩

theorem Tiled.ptrs_ne_zero {a : Arena} {bs cs : List BlockInfo} (ht : Tiled a bs)
    (hcs : ∀ c ∈ cs, c ∈ bs) : ∀ p ∈ cs.map (·.ptr), p ≠ 0 := by
  simp only [List.mem_map]
  rintro _ ⟨c, hc, rfl⟩
  have := (ht.tiling.mem (hcs c hc)).1
  simp only [firstBlock] at this
  omega

namespace Listing

variable {h : Heap} {bs : List BlockInfo} {F : Std.HashSet Nat}

/-- A visit that passes both checks of the walk goes on from the listing with the block
added, and the set of visited blocks grows by it. -/
theorem visit {fl : List BlockInfo} {b : BlockInfo} {S : Std.HashSet Nat} {w' : Nat}
    (hl : Listing h bs fl (some b.ptr)) (hb : b ∈ bs) (hbf : b.state = .free)
    (hS : ∀ q, S.contains q = true ↔ q ∈ fl.map (·.ptr)) (hSp : S.contains b.ptr = false)
    (hback : h.arena.word? (b.ptr + 4) = some ((fl.map (·.ptr)).getLastD 0))
    (hwl : h.arena.word? b.ptr = some w')
    (hord : ¬ (lastVisited fl).any (fun s => b.tag.size < s.2) = true) :
    Listing h bs (fl ++ [b]) (if w' = 0 then none else some w') ∧
      ∀ q, (S.insert b.ptr).contains q = true ↔ q ∈ (fl ++ [b]).map (·.ptr) := by
  have hnew : b.ptr ∉ fl.map (·.ptr) := fun hin => by simp [(hS _).mpr hin] at hSp
  refine ⟨hl.step hb hbf hnew hback (fun c hc => ?_) (by simp [Arena.larger?, hwl]),
    contains_insert_snoc hS b⟩
  by_contra hlt
  exact hord ((lastVisited_any fl _).mpr ⟨c, hc, by simpa using hlt⟩)

/-- What the free-list walk answers from a state it reached: a walk that ends, with every
check passed, and the set of the blocks it visited. The induction is on the step budget, which
always exceeds the free blocks not yet visited. -/
theorem walkFree_ok (ht : Tiled h.arena bs) (hm : h.arena.brk ≤ h.arena.memory.size)
    (hF : ∀ q, F.contains q = true ↔ q ∈ freePtrs bs) {S' : Std.HashSet Nat} :
    ∀ {fuel : Nat} {fl : List BlockInfo} {cur : Option Nat} {S : Std.HashSet Nat},
      Listing h bs fl cur → (∀ q, S.contains q = true ↔ q ∈ fl.map (·.ptr)) →
      (freePtrs bs).length < fuel + fl.length →
      Heap.walkFree h.arena F fuel S (lastVisited fl) cur = .ok S' →
      ∃ fl', Listing h bs fl' none ∧ ∀ q, S'.contains q = true ↔ q ∈ fl'.map (·.ptr) := by
  intro fuel
  induction fuel with
  | zero =>
    intro fl cur S hl hS hfuel hw
    cases cur with
    | none =>
      rw [walkFree_none] at hw
      cases hw
      exact ⟨fl, hl, hS⟩
    | some p => have := hl.length_le; omega
  | succ fuel ih =>
    intro fl cur S hl hS hfuel hw
    cases cur with
    | none =>
      rw [walkFree_none] at hw
      cases hw
      exact ⟨fl, hl, hS⟩
    | some p =>
      cases hFp : F.contains p
      · rw [walkFree_unlisted hFp] at hw
        cases hw
      cases hSp : S.contains p
      swap
      · rw [walkFree_seen hFp hSp] at hw
        cases hw
      obtain ⟨b, hb, hbf, rfl⟩ := mem_freePtrs.mp ((hF p).mp hFp)
      obtain ⟨hh, ⟨w, hwb⟩, ⟨w', hwl⟩⟩ := ht.reads hm hb
      rw [walkFree_step hFp hSp hh hwb hwl, lastVisited_ptr] at hw
      by_cases hback : w ≠ (fl.map (·.ptr)).getLastD 0
      · rw [if_pos hback] at hw
        cases hw
      rw [if_neg hback] at hw
      by_cases hord : (lastVisited fl).any (fun s => b.tag.size < s.2) = true
      · rw [if_pos hord] at hw
        cases hw
      rw [if_neg hord] at hw
      obtain ⟨hl', hS'⟩ := hl.visit hb hbf hS hSp (by rw [← not_not.mp hback]; exact hwb) hwl hord
      exact ih hl' hS' (by simp; omega) (by simpa using hw)

/-- Every error of the free-list walk from a state it reached names a rule the heap breaks. -/
theorem walkFree_error (ht : Tiled h.arena bs) (hm : h.arena.brk ≤ h.arena.memory.size)
    (hF : ∀ q, F.contains q = true ↔ q ∈ freePtrs bs) {e : CheckError} :
    ∀ {fuel : Nat} {fl : List BlockInfo} {cur : Option Nat} {S : Std.HashSet Nat},
      Listing h bs fl cur → (∀ q, S.contains q = true ↔ q ∈ fl.map (·.ptr)) →
      Heap.walkFree h.arena F fuel S (lastVisited fl) cur = .error e → e.Occurs h := by
  intro fuel
  induction fuel with
  | zero =>
    intro fl cur S hl hS hw
    cases cur <;> cases hw
  | succ fuel ih =>
    intro fl cur S hl hS hw
    cases cur with
    | none =>
      rw [walkFree_none] at hw
      cases hw
    | some p =>
      cases hFp : F.contains p
      · rw [walkFree_unlisted hFp] at hw
        cases hw
        exact ⟨bs, _, ht, hl.reaches, fun hin => by simp [(hF p).mpr hin] at hFp⟩
      cases hSp : S.contains p
      swap
      · rw [walkFree_seen hFp hSp] at hw
        cases hw
        exact ⟨bs, _, ht, hl.reaches, (hS p).mp hSp⟩
      obtain ⟨b, hb, hbf, rfl⟩ := mem_freePtrs.mp ((hF p).mp hFp)
      obtain ⟨hh, ⟨w, hwb⟩, ⟨w', hwl⟩⟩ := ht.reads hm hb
      rw [walkFree_step hFp hSp hh hwb hwl, lastVisited_ptr] at hw
      by_cases hback : w ≠ (fl.map (·.ptr)).getLastD 0
      · rw [if_pos hback] at hw
        cases hw
        exact ⟨bs, _, ht, hl.reaches, (hF _).mp hFp, by rw [hwb]; simpa using hback⟩
      rw [if_neg hback] at hw
      by_cases hord : (lastVisited fl).any (fun s => b.tag.size < s.2) = true
      · rw [if_pos hord] at hw
        cases hw
        obtain ⟨c, hc, hlt⟩ := (lastVisited_any fl _).mp hord
        obtain ⟨fl', rfl⟩ : ∃ fl', fl = fl' ++ [c] := by
          rcases List.eq_nil_or_concat fl with rfl | ⟨fl', l, rfl⟩
          · cases hc
          · simp at hc
            exact ⟨fl', by rw [List.concat_eq_append, hc]⟩
        exact ⟨bs, fl'.map (·.ptr), b, c, ht, by simpa using hl.reaches, hb,
          (hl.free c (by simp)).1, rfl, by simpa using hlt⟩
      rw [if_neg hord] at hw
      obtain ⟨hl', hS'⟩ := hl.visit hb hbf hS hSp (by rw [← not_not.mp hback]; exact hwb) hwl hord
      exact ih hl' hS' (by simpa using hw)

/-- From a state that has visited `fl`, the walk along the rest of a chain of distinct free
blocks in ascending size visits them all and passes every check. The induction is on the rest
of the chain, one block a step. -/
theorem walkFree_chain (ht : Tiled h.arena bs) (hm : h.arena.brk ≤ h.arena.memory.size)
    (hF : ∀ q, F.contains q = true ↔ q ∈ freePtrs bs) :
    ∀ {rest fl : List BlockInfo} {S : Std.HashSet Nat} {fuel : Nat},
      Chain h.arena ((fl.map (·.ptr)).getLastD 0) (rest.map (·.ptr)) 0 →
      (∀ b ∈ fl ++ rest, b ∈ bs ∧ b.state = .free) → (fl ++ rest).Nodup →
      (fl ++ rest).Pairwise BlockInfo.SizeLE →
      (∀ q, S.contains q = true ↔ q ∈ fl.map (·.ptr)) → rest.length < fuel →
      ∃ S', Heap.walkFree h.arena F fuel S (lastVisited fl) (rest.map (·.ptr)).head? = .ok S' ∧
        ∀ q, S'.contains q = true ↔ q ∈ (fl ++ rest).map (·.ptr) := by
  intro rest
  induction rest with
  | nil =>
    intro fl S fuel _ _ _ _ hS _
    exact ⟨S, walkFree_none, by simpa using hS⟩
  | cons b rest ih =>
    intro fl S fuel hch hfree hnd hsorted hS hfuel
    obtain ⟨f, rfl⟩ : ∃ f, fuel = f + 1 := ⟨fuel - 1, by simp at hfuel; omega⟩
    obtain ⟨hb, hbf⟩ := hfree b (by simp)
    obtain ⟨hback, honward, hch'⟩ := chain_cons.mp (by simpa only [List.map_cons] using hch)
    obtain ⟨hh, -, -⟩ := ht.reads hm hb
    have hFp : F.contains b.ptr = true := (hF _).mpr (mem_freePtrs.mpr ⟨b, hb, hbf, rfl⟩)
    have hSp : S.contains b.ptr = false := by
      cases hs : S.contains b.ptr
      · rfl
      · obtain ⟨c, hc, he⟩ := List.mem_map.mp ((hS _).mp hs)
        obtain rfl := ht.tiling.ptr_inj (hfree c (by simp [hc])).1 hb he
        exact ((List.nodup_append.mp hnd).2.2 _ hc _ List.mem_cons_self rfl).elim
    have hnz : ∀ x ∈ rest.map (·.ptr), x ≠ 0 :=
      ht.ptrs_ne_zero fun c hc => (hfree c (by simp [hc])).1
    rw [List.map_cons, List.head?_cons, walkFree_step hFp hSp hh hback honward, lastVisited_ptr,
      if_neg (not_not.mpr rfl)]
    have hord : ¬ (lastVisited fl).any (fun s => b.tag.size < s.2) = true := by
      rw [lastVisited_any]
      rintro ⟨c, hc, hlt⟩
      have := (List.pairwise_append.mp hsorted).2.2 c (List.mem_of_getLast? hc) b (by simp)
      simp only [BlockInfo.SizeLE, BlockInfo.tag_size] at this hlt
      omega
    rw [if_neg hord, headD_option hnz]
    obtain ⟨S', hw, hS'⟩ := @ih (fl ++ [b]) (S.insert b.ptr) f (by simpa using hch')
      (by simpa using hfree) (by simpa using hnd) (by simpa using hsorted)
      (contains_insert_snoc hS b) (by simp at hfuel; omega)
    exact ⟨S', by simpa using hw, by simpa using hS'⟩

end Listing

theorem insertMany_array (m : Std.HashSet Nat) (xs : Array Nat) :
    m.insertMany xs = m.insertMany xs.toList := by
  unfold Std.HashSet.insertMany Std.HashMap.insertManyIfNewUnit
    Std.DHashMap.Const.insertManyIfNewUnit
  simp only [Std.DHashMap.Internal.Raw₀.Const.insertManyIfNewUnit_array_eq_insertManyIfNewUnit_toList]

theorem contains_insertMany_free (free : Array Nat) (q : Nat) :
    ((Std.HashSet.emptyWithCapacity free.size).insertMany free).contains q = true ↔
      q ∈ free.toList := by
  rw [insertMany_array, Std.HashSet.contains_insertMany_list]
  simp

/-- On a heap whose arena bytes hold its break, within 32-bit offsets, the check passes exactly
when the heap is consistent, whatever its free-list tail. -/
theorem check_ok_iff {h : Heap} (hm : h.arena.brk ≤ h.arena.memory.size)
    (ha : h.arena.brk ≤ addressable) : h.check = .ok () ↔ ∃ bs fl, Consistent h bs fl := by
  constructor
  · intro hc
    rw [Heap.check] at hc
    cases hcb : Heap.checkBlocks h.arena with
    | error e => simp [hcb, bind, Except.bind] at hc
    | ok free =>
      obtain ⟨bs, ht, hfree⟩ := (checkBlocks_ok_iff hm ha).mp hcb
      have hF := contains_insertMany_free free
      rw [hfree] at hF
      simp only [hcb, bind, Except.bind] at hc
      cases hwf : Heap.walkFree h.arena ((Std.HashSet.emptyWithCapacity free.size).insertMany free)
          (free.size + 1) (Std.HashSet.emptyWithCapacity free.size) none h.tail with
      | error e => rw [hwf] at hc; cases hc
      | ok seen =>
        rw [hwf] at hc
        obtain ⟨fl, hl, hseen⟩ := Listing.walkFree_ok ht hm hF Listing.start (by simp)
          (by rw [← hfree]; simp) hwf
        cases hfind : free.find? (fun p => !seen.contains p) with
        | some p => simp only [hfind] at hc; cases hc
        | none =>
          obtain ⟨hch, htail⟩ :=
            hl.reaches.chain hl.back (ht.ptrs_ne_zero fun c hc => (hl.free c hc).1)
          refine ⟨bs, fl, ht, hch, htail, ?_, hl.sorted⟩
          refine (List.perm_ext_iff_of_nodup hl.nodup (ht.tiling.nodup.filter _)).mpr fun b => ?_
          simp only [List.mem_filter, beq_iff_eq]
          refine ⟨fun hb => hl.free b hb, fun hbf => ?_⟩
          obtain ⟨hb, hbf⟩ := hbf
          have hin : b.ptr ∈ free.toList := hfree ▸ mem_freePtrs.mpr ⟨b, hb, hbf, rfl⟩
          have hs : seen.contains b.ptr = true := by
            have := Array.find?_eq_none.mp hfind b.ptr (Array.mem_toList_iff.mp hin)
            simpa using this
          obtain ⟨c, hc, he⟩ := List.mem_map.mp ((hseen _).mp hs)
          rwa [← ht.tiling.ptr_inj (hl.free c hc).1 hb he]
  · rintro ⟨bs, fl, hc⟩
    have hcb : Heap.checkBlocks h.arena = .ok (freePtrs bs).toArray :=
      (checkBlocks_ok_iff hm ha).mpr ⟨bs, hc.tiled, by simp⟩
    have hF := contains_insertMany_free (freePtrs bs).toArray
    have hmem : ∀ b ∈ fl, b ∈ bs ∧ b.state = .free := fun b hb => by
      simpa using hc.perm.subset hb
    have hnd : fl.Nodup := hc.perm.nodup_iff.mpr (hc.tiled.tiling.nodup.filter _)
    obtain ⟨seen, hw, hseen⟩ := @Listing.walkFree_chain _ _ _ hc.tiled hm hF fl []
      (Std.HashSet.emptyWithCapacity (freePtrs bs).toArray.size) ((freePtrs bs).toArray.size + 1)
      (by simpa using hc.chain)
      (by simpa using hmem) (by simpa using hnd) (by simpa using hc.sorted) (by simp)
      (by simp [freePtrs, hc.perm.length_eq])
    rw [Heap.check]
    simp only [hcb, bind, Except.bind, hc.tail]
    rw [show lastVisited [] = none from rfl] at hw
    have hfind : (freePtrs bs).toArray.find? (fun p => !seen.contains p) = none := by
      refine Array.find?_eq_none.mpr fun p hp => ?_
      obtain ⟨b, hb, hbf, rfl⟩ := mem_freePtrs.mp (by simpa using hp)
      have : b ∈ fl := hc.perm.mem_iff.mpr (by simp [hb, hbf])
      simpa using (hseen _).mpr (by simp; exact ⟨b, this, rfl⟩)
    simp only [hw, hfind]
    rfl

/-- Every error of the check on a heap whose break lies in its memory and within 32-bit offsets
names a rule the heap breaks. -/
theorem check_error {h : Heap} (hm : h.arena.brk ≤ h.arena.memory.size)
    (ha : h.arena.brk ≤ addressable) {e : CheckError} (he : h.check = .error e) : e.Occurs h := by
  rw [Heap.check] at he
  cases hcb : Heap.checkBlocks h.arena with
  | error e' =>
    simp only [hcb, bind, Except.bind] at he
    cases he
    exact (checkBlocks_error hm ha hcb).occurs
  | ok free =>
    obtain ⟨bs, ht, hfree⟩ := (checkBlocks_ok_iff hm ha).mp hcb
    have hF := contains_insertMany_free free
    rw [hfree] at hF
    simp only [hcb, bind, Except.bind] at he
    cases hwf : Heap.walkFree h.arena ((Std.HashSet.emptyWithCapacity free.size).insertMany free)
        (free.size + 1) (Std.HashSet.emptyWithCapacity free.size) none h.tail with
    | error e' =>
      simp only [hwf] at he
      cases he
      exact Listing.walkFree_error ht hm hF Listing.start (by simp) hwf
    | ok seen =>
      obtain ⟨fl, hl, hseen⟩ := Listing.walkFree_ok ht hm hF Listing.start (by simp)
        (by rw [← hfree]; simp) hwf
      cases hfind : free.find? (fun p => !seen.contains p) with
      | none => simp only [hwf, hfind] at he; cases he
      | some p =>
        simp only [hwf, hfind] at he
        cases he
        have hp : p ∈ freePtrs bs := hfree ▸ Array.mem_toList_iff.mpr (Array.mem_of_find?_eq_some hfind)
        have hns : seen.contains p = false := by simpa using Array.find?_some hfind
        exact ⟨bs, fl.map (·.ptr), ht, hp, hl.reaches, fun hin => by simp [(hseen p).mpr hin] at hns⟩

/-- The check's verdict, exactly: on a heap whose break lies in its memory and within 32-bit
offsets, whatever its bytes and its free-list tail, the check passes exactly when the heap is
consistent, and each error it gives names a rule the heap breaks. -/
theorem check_decides_consistency {h : Heap} (hm : h.arena.brk ≤ h.arena.memory.size)
    (ha : h.arena.brk ≤ addressable) :
    (h.check = .ok () ↔ ∃ bs fl, Consistent h bs fl) ∧ ∀ e, h.check = .error e → e.Occurs h :=
  ⟨check_ok_iff hm ha, fun _ => check_error hm ha⟩

/-- A heap of one allocated block of 16 bytes whose header word is 0x11 and whose footer word
is 0x13: bit 1 of the footer is set, and both words decode to the same tag. -/
def flaggedFooterHeap : Heap where
  arena :=
    { backing := .growable
      memory := ⟨#[0, 0, 0, 0, 9, 0, 0, 0, 9, 0, 0, 0, 0x11, 0, 0, 0,
        0, 0, 0, 0, 0, 0, 0, 0, 0x13, 0, 0, 0, 1, 0, 0, 0]⟩
      brk := 32
      maxBytes := 20971520 }
  config := ⟨4096, 0⟩
  tail := none
  counters := {}

theorem flagged_footer_heap_verdict :
    flaggedFooterHeap.arena.brk ≤ flaggedFooterHeap.arena.memory.size ∧
      flaggedFooterHeap.arena.brk ≤ addressable ∧
      ((flaggedFooterHeap.check = .ok () ↔ ∃ bs fl, Consistent flaggedFooterHeap bs fl) ∧
        ∀ e, flaggedFooterHeap.check = .error e → e.Occurs flaggedFooterHeap) :=
  ⟨by decide, by decide, check_decides_consistency (by decide) (by decide)⟩

/-- The check compares decoded tags, and decoding ignores bits 1 and 2 of a tag word: the heap
whose footer word differs from its header word in bit 1 passes the check, though its words are
not those of any laid-out heap. -/
theorem flagged_footer_passes_check :
    flaggedFooterHeap.check = .ok () ∧ ¬ ∃ bs fl, Shape flaggedFooterHeap bs fl := by
  constructor
  · refine (check_ok_iff (by decide) (by decide)).mpr ⟨[⟨16, 16, .allocated⟩], [], ?_⟩
    refine ⟨⟨by decide, by decide, ?_, by decide, by simp⟩, trivial, rfl, by simp, by simp⟩
    simp only [tiling_cons, tiling_nil]
    exact ⟨rfl, by decide, by decide, by decide, rfl⟩
  · rintro ⟨bs, fl, hs⟩
    have hr := hs.layout.run
    cases bs with
    | nil => exact absurd (run_nil.mp hr) (by decide)
    | cons b rest =>
      obtain ⟨hp, hmin, -, hh, hf, hrest⟩ := run_cons.mp hr
      have hsize : b.size = 16 := by
        have := hrest.le.1
        simp only [minBlock, firstBlock] at hmin this
        change _ ≤ 32 at this
        omega
      rw [hsize, show firstBlock + 16 - 8 = 24 from rfl, ← hh] at hf
      exact absurd hf (by decide)

end Allocator
