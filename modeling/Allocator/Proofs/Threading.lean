import Allocator.Proofs.FreeChain

/-! The free list over any arena bytes. A list threads the blocks `ps` from the tail on when
each block's two links name its neighbours, no block comes twice, and the sizes in the
headers never decrease (`Heap.Threads`). The list operations read and write nothing but
headers and link words, so what they do depends on those words alone; they keep a list
threaded when every block's header and links lie apart from every other block's
(`Spread`). Blocks eight bytes apart break this: the link toward smaller blocks of the one
is the header of the other, and joining neighbours around a removed block rewrites a size. -/
namespace Allocator

namespace Heap

/-- The size in the header of the block at `p`, when the header lies below the break. -/
def headerSize? (h : Heap) (p : Nat) : Option Nat :=
  if 4 ≤ p then (h.arena.word? (p - 4)).map fun w => (Tag.unpack w).size else none

/-- The header size of the block at `p`, 0 when its header is out of reach. -/
def sizeAt (h : Heap) (p : Nat) : Nat := (h.headerSize? p).getD 0

/-- The free list of `h` threads the blocks at `ps`, from the tail on: the links of each
name its neighbours in the list, no block comes twice, every header lies below the break,
and the header sizes never decrease. -/
structure Threads (h : Heap) (ps : List Nat) : Prop where
  chain : Chain h.arena 0 ps 0
  tail : h.tail = ps.head?
  nodup : ps.Nodup
  header : ∀ p ∈ ps, 4 ≤ p ∧ (h.arena.word? (p - 4)).isSome
  sorted : ps.Pairwise fun p q => h.sizeAt p ≤ h.sizeAt q

theorem sizeAt_of_word {h : Heap} {p w : Nat} (h4 : 4 ≤ p) (hw : h.arena.word? (p - 4) = some w) :
    h.sizeAt p = (Tag.unpack w).size := by
  simp [sizeAt, headerSize?, h4, hw]

theorem headerSize?_eq_some {h : Heap} {p size : Nat} (hs : h.headerSize? p = some size) :
    4 ≤ p ∧ (h.arena.word? (p - 4)).isSome ∧ h.sizeAt p = size := by
  unfold headerSize? at hs
  split at hs
  · rename_i h4
    obtain ⟨w, hw, rfl⟩ := Option.map_eq_some_iff.mp hs
    exact ⟨h4, by rw [hw]; rfl, sizeAt_of_word h4 hw⟩
  · cases hs

theorem sizeAt_congr {h h' : Heap} {p : Nat} (hw : h'.arena.word? (p - 4) = h.arena.word? (p - 4)) :
    h'.sizeAt p = h.sizeAt p := by
  simp only [sizeAt, headerSize?, hw]

end Heap

/-- Two blocks whose headers and links lie apart: the twelve bytes from the header of the
one to the end of its links meet none of the other's. -/
def Apart (p q : Nat) : Prop := p + 12 ≤ q ∨ q + 12 ≤ p

instance : Std.Symm Apart := ⟨fun _ _ h => h.symm⟩

instance : DecidableRel Apart := fun p q => inferInstanceAs (Decidable (p + 12 ≤ q ∨ q + 12 ≤ p))

/-- Blocks whose headers and links lie apart, two by two. -/
def Spread (ps : List Nat) : Prop := ps.Pairwise Apart

instance (ps : List Nat) : Decidable (Spread ps) := inferInstanceAs (Decidable (ps.Pairwise Apart))

/-- The link words of the blocks `ps`. -/
def linkSpan (ps : List Nat) : Set Nat := {j | ∃ p ∈ ps, p ≤ j ∧ j < p + 8}

theorem Spread.apart {ps : List Nat} (hs : Spread ps) {p q : Nat} (hp : p ∈ ps) (hq : q ∈ ps)
    (hne : p ≠ q) : p + 12 ≤ q ∨ q + 12 ≤ p :=
  List.Pairwise.forall hs hp hq hne

/-- Writing link words of blocks that lie apart from `p` keeps `p`'s header: a block's own
links come after its header. -/
theorem Heap.Edits.header_of_apart {h h' : Heap} {R : List Nat}
    (e : Heap.Edits (linkSpan R) h h') {p : Nat} (h4 : 4 ≤ p) (hp : ∀ r ∈ R, r ≠ p → Apart p r) :
    h'.arena.word? (p - 4) = h.arena.word? (p - 4) :=
  e.word?_of_apart fun j hj => by
    obtain ⟨r, hr, h1, h2⟩ := hj
    by_cases hrp : r = p
    · omega
    · have := hp r hr hrp
      unfold Apart at this
      omega

theorem Chain.words_of_mem {a : Arena} {s l : Nat} {ps : List Nat} (hc : Chain a s ps l) {p : Nat}
    (hp : p ∈ ps) : (a.word? p).isSome ∧ (a.word? (p + 4)).isSome := by
  obtain ⟨pre, post, rfl⟩ := List.append_of_mem hp
  obtain ⟨-, h1, h2, -⟩ := chain_append.mp hc
  rw [h1, h2]
  exact ⟨rfl, rfl⟩

namespace Heap.Threads

variable {h : Heap} {ps : List Nat}

theorem ne_zero (ht : h.Threads ps) : ∀ p ∈ ps, p ≠ 0 := fun p hp => by
  have := (ht.header p hp).1
  omega

theorem bounds (ht : h.Threads ps) {p : Nat} (hp : p ∈ ps) :
    p + 8 ≤ h.arena.brk ∧ p + 8 ≤ h.arena.memory.size := by
  obtain ⟨-, h2⟩ := ht.chain.words_of_mem hp
  obtain ⟨w, hw⟩ := Option.isSome_iff_exists.mp h2
  exact readWord?_bounds hw

theorem length_le (ht : h.Threads ps) : ps.length ≤ h.arena.brk := by
  have hsub : ps.toFinset ⊆ Finset.range h.arena.brk := fun p hp => by
    have := (ht.bounds (List.mem_toFinset.mp hp)).1
    simp only [Finset.mem_range]
    omega
  have := Finset.card_le_card hsub
  rwa [Finset.card_range, List.toFinset_card_of_nodup ht.nodup] at this

theorem tagAt (ht : h.Threads ps) {p : Nat} (hp : p ∈ ps) :
    ∃ t : Tag, Heap.tagAt p h = .ok (t, h) ∧ t.size = h.sizeAt p := by
  obtain ⟨h4, hw⟩ := ht.header p hp
  obtain ⟨w, hw⟩ := Option.isSome_iff_exists.mp hw
  exact ⟨_, Heap.tagAt_apply h4 hw, (sizeAt_of_word h4 hw).symm⟩

theorem link_larger (ht : h.Threads ps) {pre post : List Nat} {b : Nat} (hs : ps = pre ++ b :: post) :
    Heap.link b .larger h = .ok (post.head?, h) := by
  have hc := ht.chain
  rw [hs, chain_append] at hc
  obtain ⟨-, -, hw, -⟩ := hc
  rw [Heap.link_apply hw, headD_option fun x hx => ht.ne_zero x (by simp [hs, hx])]

theorem link_smaller (ht : h.Threads ps) {pre post : List Nat} {b : Nat} (hs : ps = pre ++ b :: post) :
    Heap.link b .smaller h = .ok (pre.getLast?, h) := by
  have hc := ht.chain
  rw [hs, chain_append] at hc
  obtain ⟨-, hw, -, -⟩ := hc
  rw [Heap.link_apply hw, getLastD_option fun x hx => ht.ne_zero x (by simp [hs, hx])]

/-- Walking for a fit from a point of a threaded list finds the first block there whose
header holds at least `size` bytes. -/
theorem fitFrom (ht : h.Threads ps) (size : Nat) :
    ∀ (rest pre : List Nat), ps = pre ++ rest → ∀ fuel, rest.length ≤ fuel →
      Heap.fitFrom size fuel rest.head? h = .ok (rest.find? fun p => size ≤ h.sizeAt p, h) := by
  intro rest
  induction rest with
  | nil =>
    intro pre _ fuel _
    cases fuel <;> rfl
  | cons r rest ih =>
    intro pre hs fuel hfuel
    obtain ⟨fuel, rfl⟩ : ∃ f, fuel = f + 1 := ⟨fuel - 1, by simp at hfuel; omega⟩
    obtain ⟨t, htag, hsize⟩ := ht.tagAt (show r ∈ ps by simp [hs])
    simp only [List.head?_cons, Heap.fitFrom.eq_3]
    rw [Heap.bind_apply_ok (ht.link_larger hs), Heap.bind_apply_ok htag, hsize]
    by_cases hfit : size ≤ h.sizeAt r
    · rw [if_pos hfit, List.find?_cons_of_pos (by simpa using hfit)]
      rfl
    · rw [if_neg hfit, List.find?_cons_of_neg (by simpa using hfit)]
      exact ih (pre ++ [r]) (by simp [hs]) fuel (by simp at hfuel; omega)

theorem findFit (ht : h.Threads ps) (size : Nat) :
    Heap.findFit size h = .ok (ps.find? fun p => size ≤ h.sizeAt p, h) := by
  unfold Heap.findFit
  rw [Heap.bind_apply_ok walkBound_apply, Heap.bind_apply_ok (Heap.get_apply h), ht.tail]
  exact ht.fitFrom size ps [] rfl _ (by have := ht.length_le; omega)

/-- The first block of a sorted list that is large enough is a smallest one that is. -/
theorem find?_least (ht : h.Threads ps) {size p : Nat}
    (hp : ps.find? (fun p => size ≤ h.sizeAt p) = some p) :
    ∀ q ∈ ps, size ≤ h.sizeAt q → h.sizeAt p ≤ h.sizeAt q := by
  intro q hq hfit
  obtain ⟨pre, post, hs, hpre⟩ : ∃ pre post, ps = pre ++ p :: post ∧
      ∀ c ∈ pre, ¬ size ≤ h.sizeAt c := by
    obtain ⟨-, pre, post, hs, hpre⟩ := List.find?_eq_some_iff_append.mp hp
    exact ⟨pre, post, hs, fun c hc => by simpa using hpre c hc⟩
  have hsorted := ht.sorted
  rw [hs, List.pairwise_append, List.pairwise_cons] at hsorted
  rw [hs] at hq
  rcases List.mem_append.mp hq with hq | hq
  · exact absurd hfit (hpre q hq)
  · rcases List.mem_cons.mp hq with rfl | hq
    · exact le_refl _
    · exact hsorted.2.1.1 q hq

/-- Seeking the place of a block of `size` from a point of a threaded list: the walk passes
the blocks whose headers hold less than `size` and stops at the first that does not. -/
theorem seekPlace (ht : h.Threads ps) (size : Nat) :
    ∀ (rest pre : List Nat), ps = pre ++ rest → ∀ fuel, rest.length ≤ fuel →
      Heap.seekPlace size fuel pre.getLast? rest.head? h =
        .ok (((pre ++ rest.takeWhile fun p => h.sizeAt p < size).getLast?,
          (rest.dropWhile fun p => h.sizeAt p < size).head?), h) := by
  intro rest
  induction rest with
  | nil =>
    intro pre _ fuel _
    simp only [List.head?_nil, Heap.seekPlace.eq_1, List.takeWhile_nil, List.append_nil,
      List.dropWhile_nil]
    rfl
  | cons r rest ih =>
    intro pre hs fuel hfuel
    obtain ⟨fuel, rfl⟩ : ∃ f, fuel = f + 1 := ⟨fuel - 1, by simp at hfuel; omega⟩
    obtain ⟨t, htag, hsize⟩ := ht.tagAt (show r ∈ ps by simp [hs])
    simp only [List.head?_cons, Heap.seekPlace.eq_3]
    rw [Heap.bind_apply_ok htag, hsize]
    by_cases hfit : size ≤ h.sizeAt r
    · rw [if_pos hfit, List.takeWhile_cons_of_neg (by simpa using hfit),
        List.dropWhile_cons_of_neg (by simpa using hfit), List.append_nil]
      rfl
    · rw [if_neg hfit, Heap.bind_apply_ok (ht.link_larger hs),
        List.takeWhile_cons_of_pos (by simpa using hfit),
        List.dropWhile_cons_of_pos (by simpa using hfit)]
      have := ih (pre ++ [r]) (by simp [hs]) fuel (by simp at hfuel; omega)
      rwa [List.getLast?_concat, List.append_assoc, List.singleton_append] at this

end Heap.Threads

section Remove

variable {h : Heap} {b : Nat}

theorem neighbourWords_subset_linkSpan (X Y : Option Nat) :
    neighbourWords X Y ⊆ linkSpan (X.toList ++ Y.toList) := by
  rintro j (⟨x, hx, h1, h2⟩ | ⟨y, hy, h1, h2⟩)
  · exact ⟨x, by simp [Option.mem_def.mp hx], h1, by omega⟩
  · exact ⟨y, by simp [Option.mem_def.mp hy], by omega, by omega⟩

/-- Removing a block from a threaded list of spread blocks joins its two neighbours: the
rest stays threaded, and only link words of the neighbours change. -/
theorem Heap.Threads.remove {ps : List Nat} (ht : h.Threads ps) (hsp : Spread ps)
    (hm : h.arena.brk ≤ h.arena.memory.size) (hw : ∀ p ∈ ps, p < wordBound)
    {pre post : List Nat} (hs : ps = pre ++ b :: post) :
    ∃ h', Heap.remove b h = .ok ((), h') ∧ h'.Threads (pre ++ post) ∧
      Heap.Edits (linkSpan (pre.getLast?.toList ++ post.head?.toList)) h h' := by
  have hnd : (pre ++ b :: post).Nodup := hs ▸ ht.nodup
  obtain ⟨hXd, -, -⟩ := around_nodup hnd
  have memX : ∀ x ∈ pre.getLast?, x ∈ ps := fun x hx => by
    rw [hs]
    exact List.mem_append_left _ (List.mem_of_mem_getLast? hx)
  have memY : ∀ y ∈ post.head?, y ∈ ps := fun y hy => by
    rw [hs]
    exact List.mem_append_right _ (List.mem_cons_of_mem _ (List.mem_of_mem_head? hy))
  have memR : ∀ p ∈ pre ++ post, p ∈ ps := fun p hp => by
    rw [hs]
    simp only [List.mem_append, List.mem_cons] at hp ⊢
    tauto
  obtain ⟨h', run, e, hx, hy, htail⟩ := remove_run (ht.link_larger hs) (ht.link_smaller hs) hm
    (fun x hx => ⟨by have := (ht.bounds (memX x hx)).1; omega, hw x (memX x hx)⟩)
    (fun y hy => ⟨(ht.bounds (memY y hy)).1, hw y (memY y hy)⟩)
    (fun x hx y hy => by
      have := hsp.apart (memX x hx) (memY y hy) ((hXd x hx).2.1 y hy)
      omega)
  have e' := e.mono (neighbourWords_subset_linkSpan _ _)
  have hhead : ∀ p ∈ ps, h'.arena.word? (p - 4) = h.arena.word? (p - 4) := by
    intro p hp
    refine e'.header_of_apart (ht.header p hp).1 fun r hr hne => hsp.apart hp ?_ (Ne.symm hne)
    rcases List.mem_append.mp hr with hr | hr
    · exact memX r (Option.mem_toList.mp hr)
    · exact memY r (Option.mem_toList.mp hr)
  refine ⟨h', run, ⟨?_, ?_, hnd.sublist (by simp), fun p hp => ?_, ?_⟩, e'⟩
  · have hc := ht.chain
    rw [hs] at hc
    refine hc.unlink hnd (fun p hp q hq hne => ?_)
      (fun q hxq hyq => e.word?_of_neighbour_apart hxq hyq)
      (fun x hxm => by simpa [List.headD_eq_head?] using hx x hxm)
      (fun y hym => by simpa [List.getLastD_eq_getLast?] using hy y hym)
    have := hsp.apart (hs ▸ hp) (hs ▸ hq) hne
    omega
  · rw [htail, ht.tail, hs]
    exact head?_splice_out
  · rw [hhead p (memR p hp)]
    exact ht.header p (memR p hp)
  · refine (ht.sorted.sublist (by rw [hs]; simp)).imp_of_mem fun {p q} hp hq hpq => ?_
    rw [Heap.sizeAt_congr (hhead p (memR p hp)), Heap.sizeAt_congr (hhead q (memR q hq))]
    exact hpq

end Remove

section Insert

variable {h : Heap} {bp size : Nat}

/-- In a list sorted by `f`, every entry from the first with `c ≤ f` on has `c ≤ f`. -/
theorem le_of_mem_dropWhile {f : Nat → Nat} {c : Nat} {ps : List Nat}
    (hs : ps.Pairwise fun p q => f p ≤ f q) :
    ∀ q ∈ ps.dropWhile (fun p => f p < c), c ≤ f q := by
  intro q hq
  have hsub := hs.sublist (List.dropWhile_sublist (fun p => decide (f p < c)))
  have hne : ps.dropWhile (fun p => f p < c) ≠ [] := List.ne_nil_of_mem hq
  have hhead := List.head_dropWhile_not (fun p => decide (f p < c)) hne
  generalize ps.dropWhile (fun p => f p < c) = d at hq hsub hne hhead
  obtain ⟨d₀, rest, rfl⟩ := List.exists_cons_of_ne_nil hne
  have hle : c ≤ f d₀ := Nat.le_of_not_lt (of_decide_eq_false hhead)
  rcases List.mem_cons.mp hq with rfl | hq
  · exact hle
  · exact hle.trans ((List.pairwise_cons.mp hsub).1 q hq)

/-- Inserting a block into a threaded list of spread blocks, the block's header holding its
size: it goes in before the first block whose header holds at least that size, the list
stays threaded, and only the link words of the block and of its new neighbours change. -/
theorem Heap.Threads.insert {ps : List Nat} (ht : h.Threads ps)
    (hm : h.arena.brk ≤ h.arena.memory.size) (hw : ∀ p ∈ ps, p < wordBound)
    (hnew : bp ∉ ps) (hsz : h.headerSize? bp = some size) (hsp : Spread (bp :: ps))
    (hb : bp + 8 ≤ h.arena.brk) (hbw : bp < wordBound) :
    ∃ h', Heap.insert bp size h = .ok ((), h') ∧
      h'.Threads (ps.takeWhile (fun p => h.sizeAt p < size) ++
        bp :: ps.dropWhile (fun p => h.sizeAt p < size)) ∧
      Heap.Edits (linkSpan (bp :: ((ps.takeWhile (fun p => h.sizeAt p < size)).getLast?.toList ++
        (ps.dropWhile (fun p => h.sizeAt p < size)).head?.toList))) h h' := by
  obtain ⟨hb4, hbh, hbs⟩ := Heap.headerSize?_eq_some hsz
  have hPQ := List.takeWhile_append_dropWhile (p := fun p => decide (h.sizeAt p < size)) (l := ps)
  generalize hP : ps.takeWhile (fun p => h.sizeAt p < size) = P at hPQ ⊢
  generalize hQ : ps.dropWhile (fun p => h.sizeAt p < size) = Q at hPQ ⊢
  have hseek := ht.seekPlace size ps [] rfl (h.arena.brk + 1) (by have := ht.length_le; omega)
  simp only [List.getLast?_nil, List.nil_append, hP, hQ] at hseek
  rw [← ht.tail] at hseek
  have memX : ∀ x ∈ P.getLast?, x ∈ ps := fun x hx => by
    rw [← hPQ]
    exact List.mem_append_left _ (List.mem_of_mem_getLast? hx)
  have memY : ∀ y ∈ Q.head?, y ∈ ps := fun y hy => by
    rw [← hPQ]
    exact List.mem_append_right _ (List.mem_of_mem_head? hy)
  have memR : ∀ p ∈ P ++ bp :: Q, p = bp ∨ p ∈ ps := fun p hp => by
    rw [← hPQ]
    simp only [List.mem_append, List.mem_cons] at hp ⊢
    tauto
  have hnd : (P ++ bp :: Q).Nodup := by
    rw [List.nodup_middle, hPQ]
    exact List.nodup_cons.mpr ⟨hnew, ht.nodup⟩
  obtain ⟨hXd, hYd, hBd⟩ := around_nodup hnd
  have apart : ∀ p, p = bp ∨ p ∈ ps → ∀ q, q = bp ∨ q ∈ ps → p ≠ q → p + 12 ≤ q ∨ q + 12 ≤ p :=
    fun p hp q hq hne => hsp.apart (List.mem_cons.mpr hp) (List.mem_cons.mpr hq) hne
  obtain ⟨h', run, e, hwb, hwb4, hx, hy, htail⟩ := insert_run hseek hm hb hbw
    (fun x hx => ⟨by have := (ht.bounds (memX x hx)).1; omega, hw x (memX x hx)⟩)
    (fun y hy => ⟨(ht.bounds (memY y hy)).1, hw y (memY y hy)⟩)
    (fun x hx => by have := apart x (.inr (memX x hx)) bp (.inl rfl) (hXd x hx).1; omega)
    (fun y hy => by have := apart y (.inr (memY y hy)) bp (.inl rfl) (hYd y hy).1; omega)
    (fun x hx y hy => by
      have := apart x (.inr (memX x hx)) y (.inr (memY y hy)) ((hXd x hx).2.1 y hy)
      omega)
  have e' : Heap.Edits (linkSpan (bp :: (P.getLast?.toList ++ Q.head?.toList))) h h' := by
    refine e.mono fun j hj => ?_
    rcases hj with hj | hj
    · exact ⟨bp, List.mem_cons_self, hj.1, hj.2⟩
    · obtain ⟨p, hp, h1, h2⟩ := neighbourWords_subset_linkSpan _ _ hj
      exact ⟨p, List.mem_cons_of_mem _ hp, h1, h2⟩
  have hhead : ∀ p, p = bp ∨ p ∈ ps → h'.arena.word? (p - 4) = h.arena.word? (p - 4) := by
    intro p hp
    have h4 : 4 ≤ p := by
      rcases hp with rfl | hp
      · exact hb4
      · exact (ht.header p hp).1
    refine e'.header_of_apart h4 fun r hr hne => apart p hp r ?_ (Ne.symm hne)
    rcases List.mem_cons.mp hr with rfl | hr
    · exact .inl rfl
    rcases List.mem_append.mp hr with hr | hr
    · exact .inr (memX r (Option.mem_toList.mp hr))
    · exact .inr (memY r (Option.mem_toList.mp hr))
  refine ⟨h', run, ⟨?_, ?_, hnd, fun p hp => ?_, ?_⟩, e'⟩
  · have hc := ht.chain
    rw [← hPQ] at hc
    refine hc.link_in hnd (fun p hp q hq hne => ?_)
      (fun q hqb hxq hyq => e.word?_of_link_apart hqb hxq hyq)
      (by simpa [List.headD_eq_head?] using hwb) (by simpa [List.getLastD_eq_getLast?] using hwb4)
      hx hy
    have := apart p (memR p hp) q (memR q hq) hne
    omega
  · rw [htail, ht.tail, ← hPQ]
    exact head?_splice_in
  · rw [hhead p (memR p hp)]
    rcases memR p hp with rfl | hp
    · exact ⟨hb4, hbh⟩
    · exact ht.header p hp
  · have hsorted : (P ++ bp :: Q).Pairwise fun p q => h.sizeAt p ≤ h.sizeAt q := by
      have hs := ht.sorted
      rw [← hPQ, List.pairwise_append] at hs
      rw [List.pairwise_append, List.pairwise_cons]
      have hlo : ∀ p ∈ P, h.sizeAt p < size := fun p hp => by
        rw [← hP] at hp
        simpa using List.mem_takeWhile_imp hp
      have hhi : ∀ q ∈ Q, size ≤ h.sizeAt q := by
        rw [← hQ]
        exact le_of_mem_dropWhile ht.sorted
      refine ⟨hs.1, ⟨fun q hq => hbs ▸ hhi q hq, hs.2.1⟩, fun p hp q hq => ?_⟩
      rcases List.mem_cons.mp hq with rfl | hq
      · exact hbs ▸ (hlo p hp).le
      · exact hs.2.2 p hp q hq
    refine hsorted.imp_of_mem fun {p q} hp hq hpq => ?_
    rw [Heap.sizeAt_congr (hhead p (memR p hp)), Heap.sizeAt_congr (hhead q (memR q hq))]
    exact hpq

end Insert

/-- On a threaded list of spread blocks the list operations do what the list promises. Best
fit answers the first block whose header holds at least the size asked for, a smallest
such block. Removing a block leaves the others threaded, and inserting a block whose header
holds its size and whose words lie apart from the list's puts it before the first block
holding at least that size and leaves the list threaded; each writes only link words, of the
block inserted and of the neighbours of the block inserted or removed. -/
theorem spread_list_operations_keep_threading {h : Heap} {ps : List Nat} (ht : h.Threads ps)
    (hsp : Spread ps) (hm : h.arena.brk ≤ h.arena.memory.size) (hw : ∀ p ∈ ps, p < wordBound) :
    (∀ size, Heap.findFit size h = .ok (ps.find? (fun p => size ≤ h.sizeAt p), h) ∧
      ∀ p ∈ ps.find? (fun p => size ≤ h.sizeAt p), ∀ q ∈ ps, size ≤ h.sizeAt q →
        h.sizeAt p ≤ h.sizeAt q) ∧
    (∀ pre b post, ps = pre ++ b :: post → ∃ h', Heap.remove b h = .ok ((), h') ∧
      h'.Threads (pre ++ post) ∧
      Heap.Edits (linkSpan (pre.getLast?.toList ++ post.head?.toList)) h h') ∧
    (∀ bp size, bp ∉ ps → h.headerSize? bp = some size → Spread (bp :: ps) →
      bp + 8 ≤ h.arena.brk → bp < wordBound →
      ∃ h', Heap.insert bp size h = .ok ((), h') ∧
        h'.Threads (ps.takeWhile (fun p => h.sizeAt p < size) ++
          bp :: ps.dropWhile (fun p => h.sizeAt p < size)) ∧
        Heap.Edits (linkSpan (bp :: ((ps.takeWhile (fun p => h.sizeAt p < size)).getLast?.toList ++
          (ps.dropWhile (fun p => h.sizeAt p < size)).head?.toList))) h h') :=
  ⟨fun size => ⟨ht.findFit size, fun _ hp => ht.find?_least hp⟩,
    fun _ _ _ hs => ht.remove hsp hm hw hs,
    fun _ _ hnew hsz hsp' hb hbw => ht.insert hm hw hnew hsz hsp' hb hbw⟩

/-- An arena holding the given words, little end first, with the break after the last. -/
def Arena.ofWords (ws : List Nat) : Arena where
  backing := .growable
  memory := ⟨(ws.flatMap fun v => [wordByte v 0, wordByte v 1, wordByte v 2, wordByte v 3]).toArray⟩
  brk := 4 * ws.length
  maxBytes := 4 * ws.length

/-- Two free blocks threaded apart: 16 bytes at 24 and 32 bytes at 48. -/
def spreadHeap : Heap :=
  ⟨Arena.ofWords [0, 0, 0, 0, 0, 16, 48, 0, 0, 0, 0, 32, 0, 24, 0, 0], ⟨4096, 4096⟩, some 24, {}⟩

theorem spread_heap_removal_keeps_threading :
    spreadHeap.Threads [24, 48] ∧ Spread [24, 48] ∧
      spreadHeap.arena.brk ≤ spreadHeap.arena.memory.size ∧ (∀ p ∈ [24, 48], p < wordBound) ∧
      ∃ h', Heap.remove 24 spreadHeap = .ok ((), h') ∧ h'.Threads [48] := by
  have ht : spreadHeap.Threads [24, 48] :=
    ⟨by simp only [chain_cons, chain_nil, List.headD_cons, List.headD_nil, and_true]; decide,
      rfl, by decide, by decide, by decide⟩
  have hsp : Spread [24, 48] := by decide
  have hm : spreadHeap.arena.brk ≤ spreadHeap.arena.memory.size := by decide
  have hw : ∀ p ∈ [24, 48], p < wordBound := by decide
  obtain ⟨h', run, ht', -⟩ := (spread_list_operations_keep_threading ht hsp hm hw).2.1 [] 24 [48] rfl
  exact ⟨ht, hsp, hm, hw, h', run, ht'⟩

/-- Three free blocks, the last two eight bytes apart, so that the link toward smaller blocks
of the block at 40 is the header of the block at 48. -/
def overlapHeap : Heap :=
  ⟨Arena.ofWords [0, 0, 0, 0, 0, 8, 40, 0, 0, 16, 48, 24, 0, 40], ⟨4096, 4096⟩, some 24, {}⟩

/-- Blocks eight bytes apart can be threaded, but removing the tail rewrites the link of the
block at 40 toward smaller blocks, which is the header of the block at 48: its size falls
to 0, and the two blocks left are no longer in size order. -/
theorem overlapping_blocks_break_removal :
    overlapHeap.Threads [24, 40, 48] ∧ overlapHeap.arena.brk ≤ overlapHeap.arena.memory.size ∧
      (∀ p ∈ [24, 40, 48], p < wordBound) ∧
      ∃ h', Heap.remove 24 overlapHeap = .ok ((), h') ∧ h'.sizeAt 48 = 0 ∧
        ¬ h'.Threads [40, 48] := by
  refine ⟨⟨by simp only [chain_cons, chain_nil, List.headD_cons, List.headD_nil, and_true]; decide,
    rfl, by decide, by decide, by decide⟩, by decide, by decide, _, rfl, by decide, fun ht => ?_⟩
  have hle := List.rel_of_pairwise_cons ht.sorted (List.mem_singleton_self 48)
  revert hle
  decide

end Allocator
