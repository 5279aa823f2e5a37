import Allocator.Proofs.Layout

/-! The free list as the arena stores it. `Chain a smaller ps larger` says that the blocks
at payload offsets `ps`, in order, are linked both ways: each block's link toward smaller
blocks names the block before it (`smaller` for the first) and its link toward larger blocks
names the block after it (`larger` for the last). The whole list is the chain from 0 to 0,
0 standing for no block.

Splicing a block in or out of a chain rewrites the links of the block's two neighbours
and of the block itself, and nothing else: `Chain.retarget_far` and `Chain.retarget_near`
change the two ends of a chain, and `chain_append` glues the pieces back together.
`Chain.unlink` and `Chain.link_in` need only that the link words of distinct blocks lie
apart, which blocks on eight-byte boundaries and blocks twelve bytes apart both give. -/
namespace Allocator

@[simp] theorem Link.offset_larger (p : Nat) : Link.offset p .larger = p := rfl

@[simp] theorem Link.offset_smaller (p : Nat) : Link.offset p .smaller = p + 4 := rfl

/-- The blocks at payload offsets `ps` are linked in this order: each block's link toward
smaller blocks names the block before it, `smaller` for the first, and its link toward
larger blocks names the block after it, `larger` for the last. -/
def Chain (a : Arena) : Nat → List Nat → Nat → Prop
  | _, [], _ => True
  | smaller, p :: ps, larger =>
    a.word? (p + 4) = some smaller ∧ a.word? p = some (ps.headD larger) ∧ Chain a p ps larger

section Chain

variable {a a' : Arena} {s l : Nat} {ps : List Nat}

@[simp] theorem chain_nil : Chain a s [] l := trivial

theorem chain_cons {p : Nat} :
    Chain a s (p :: ps) l ↔
      a.word? (p + 4) = some s ∧ a.word? p = some (ps.headD l) ∧ Chain a p ps l := Iff.rfl

/-- A chain splits between any two of its blocks: the first part ends pointing at the head
of the second, and the second starts pointing back at the last of the first. -/
theorem chain_append {xs ys : List Nat} :
    Chain a s (xs ++ ys) l ↔ Chain a s xs (ys.headD l) ∧ Chain a (xs.getLastD s) ys l := by
  induction xs generalizing s with
  | nil => simp
  | cons x xs ih =>
    cases xs with
    | nil =>
      simp only [List.cons_append, List.nil_append, chain_cons, List.headD_nil,
        List.getLastD_cons, List.getLastD_nil, chain_nil, and_true]
      cases ys <;> simp [and_assoc]
    | cons y xs =>
      simp only [List.cons_append, chain_cons, List.headD_cons, List.getLastD_cons] at ih ⊢
      rw [ih]
      simp only [and_assoc]

/-- A chain is a fact about the link words of its blocks. -/
theorem Chain.congr (hc : Chain a s ps l)
    (hw : ∀ p ∈ ps, a'.word? p = a.word? p ∧ a'.word? (p + 4) = a.word? (p + 4)) :
    Chain a' s ps l := by
  induction ps generalizing s with
  | nil => trivial
  | cons p ps ih =>
    obtain ⟨h1, h2, h3⟩ := chain_cons.mp hc
    obtain ⟨e1, e2⟩ := hw p List.mem_cons_self
    exact ⟨e2.trans h1, e1.trans h2, ih h3 fun q hq => hw q (List.mem_cons_of_mem _ hq)⟩

/-- Pointing the last block of a chain elsewhere: a new larger link there, every other
link word kept. -/
theorem Chain.retarget_far {l' : Nat} (hc : Chain a s ps l)
    (hkeep : ∀ p ∈ ps.dropLast, a'.word? p = a.word? p ∧ a'.word? (p + 4) = a.word? (p + 4))
    (hlast : ∀ x, ps.getLast? = some x → a'.word? (x + 4) = a.word? (x + 4) ∧ a'.word? x = some l') :
    Chain a' s ps l' := by
  induction ps generalizing s with
  | nil => trivial
  | cons p ps ih =>
    obtain ⟨h1, h2, h3⟩ := chain_cons.mp hc
    cases ps with
    | nil =>
      obtain ⟨e1, e2⟩ := hlast p rfl
      exact ⟨e1.trans h1, e2, trivial⟩
    | cons q qs =>
      obtain ⟨e1, e2⟩ := hkeep p List.mem_cons_self
      refine ⟨e2.trans h1, e1.trans h2, ih h3 (fun r hr => hkeep r ?_) fun x hx => hlast x ?_⟩
      · rw [List.dropLast_cons_cons]
        exact List.mem_cons_of_mem _ hr
      · rw [List.getLast?_cons_cons]
        exact hx

/-- Pointing the first block of a chain back elsewhere: a new smaller link there, every
other link word kept. -/
theorem Chain.retarget_near {s' : Nat} (hc : Chain a s ps l)
    (hkeep : ∀ p ∈ ps.tail, a'.word? p = a.word? p ∧ a'.word? (p + 4) = a.word? (p + 4))
    (hfirst : ∀ x, ps.head? = some x → a'.word? (x + 4) = some s' ∧ a'.word? x = a.word? x) :
    Chain a' s' ps l := by
  cases ps with
  | nil => trivial
  | cons p ps =>
    obtain ⟨h1, h2, h3⟩ := chain_cons.mp hc
    obtain ⟨e1, e2⟩ := hfirst p rfl
    exact ⟨e1, e2.trans h2, h3.congr hkeep⟩

/-- Splicing a block into a chain between `pre` and `post`: the block links to the last of
`pre` and the first of `post`, they link to it, and every other link word is kept. -/
theorem Chain.splice_in {pre post : List Nat} {b : Nat} (hc : Chain a 0 (pre ++ post) 0)
    (hb : a'.word? b = some (post.headD 0) ∧ a'.word? (b + 4) = some (pre.getLastD 0))
    (hfar : ∀ x, pre.getLast? = some x → a'.word? (x + 4) = a.word? (x + 4) ∧ a'.word? x = some b)
    (hnear : ∀ y, post.head? = some y → a'.word? (y + 4) = some b ∧ a'.word? y = a.word? y)
    (hkeep : ∀ p ∈ pre.dropLast ++ post.tail,
      a'.word? p = a.word? p ∧ a'.word? (p + 4) = a.word? (p + 4)) :
    Chain a' 0 (pre ++ b :: post) 0 := by
  obtain ⟨hpre, hpost⟩ := chain_append.mp hc
  refine chain_append.mpr ⟨hpre.retarget_far (fun p hp => hkeep p (List.mem_append_left _ hp))
    hfar, ⟨hb.2, hb.1, hpost.retarget_near (fun p hp => hkeep p (List.mem_append_right _ hp))
    hnear⟩⟩

/-- Splicing a block out of a chain: the last of `pre` and the first of `post` link to each
other, and every other link word is kept. -/
theorem Chain.splice_out {pre post : List Nat} {b : Nat} (hc : Chain a 0 (pre ++ b :: post) 0)
    (hfar : ∀ x, pre.getLast? = some x →
      a'.word? (x + 4) = a.word? (x + 4) ∧ a'.word? x = some (post.headD 0))
    (hnear : ∀ y, post.head? = some y →
      a'.word? (y + 4) = some (pre.getLastD 0) ∧ a'.word? y = a.word? y)
    (hkeep : ∀ p ∈ pre.dropLast ++ post.tail,
      a'.word? p = a.word? p ∧ a'.word? (p + 4) = a.word? (p + 4)) :
    Chain a' 0 (pre ++ post) 0 := by
  obtain ⟨hpre, hrest⟩ := chain_append.mp hc
  obtain ⟨-, -, hpost⟩ := chain_cons.mp hrest
  exact chain_append.mpr ⟨hpre.retarget_far (fun p hp => hkeep p (List.mem_append_left _ hp))
    hfar, hpost.retarget_near (fun p hp => hkeep p (List.mem_append_right _ hp)) hnear⟩

theorem around_nodup {P Q : List Nat} {b : Nat} (hnd : (P ++ b :: Q).Nodup) :
    (∀ x ∈ P.getLast?, x ≠ b ∧ (∀ y ∈ Q.head?, x ≠ y) ∧ ∀ p ∈ P.dropLast ++ Q.tail, p ≠ x) ∧
      (∀ y ∈ Q.head?, y ≠ b ∧ ∀ p ∈ P.dropLast ++ Q.tail, p ≠ y) ∧
      ∀ p ∈ P.dropLast ++ Q.tail, p ≠ b := by
  rcases List.eq_nil_or_concat P with rfl | ⟨P, x, rfl⟩ <;> cases Q <;>
    simp only [List.nodup_append, List.nodup_cons, List.mem_cons] at hnd <;>
    simp_all <;> grind

theorem mem_around {P Q : List Nat} {b p : Nat} (hp : p ∈ P.dropLast ++ Q.tail) :
    p ∈ P ++ b :: Q := by
  rcases List.mem_append.mp hp with hp | hp
  · exact List.mem_append_left _ (List.dropLast_subset _ hp)
  · exact List.mem_append_right _ (List.mem_cons_of_mem _ (List.mem_of_mem_tail hp))

theorem head?_splice_out {P Q : List Nat} {b : Nat} :
    (if P.getLast? = none then Q.head? else (P ++ b :: Q).head?) = (P ++ Q).head? := by
  cases P <;> simp

theorem head?_splice_in {P Q : List Nat} {b : Nat} :
    (if P.getLast? = none then some b else (P ++ Q).head?) = (P ++ b :: Q).head? := by
  cases P <;> simp

/-- Taking block `b` out of a chain whose blocks' link words lie apart: once the block
before it links on to the block after it and that one links back, with every word clear of
those two links kept, the chain runs without `b`. -/
theorem Chain.unlink {P Q : List Nat} {b : Nat} (hc : Chain a 0 (P ++ b :: Q) 0)
    (hnd : (P ++ b :: Q).Nodup)
    (hsep : ∀ p ∈ P ++ b :: Q, ∀ q ∈ P ++ b :: Q, p ≠ q → p + 8 ≤ q ∨ q + 8 ≤ p)
    (hkeep : ∀ q, (∀ x ∈ P.getLast?, q + 4 ≤ x ∨ x + 4 ≤ q) →
      (∀ y ∈ Q.head?, q ≤ y ∨ y + 8 ≤ q) → a'.word? q = a.word? q)
    (hx : ∀ x ∈ P.getLast?, a'.word? x = some (Q.headD 0))
    (hy : ∀ y ∈ Q.head?, a'.word? (y + 4) = some (P.getLastD 0)) :
    Chain a' 0 (P ++ Q) 0 := by
  obtain ⟨hX, hY, -⟩ := around_nodup hnd
  have xm : ∀ x ∈ P.getLast?, x ∈ P ++ b :: Q := fun x hx =>
    List.mem_append_left _ (List.mem_of_mem_getLast? hx)
  have ym : ∀ y ∈ Q.head?, y ∈ P ++ b :: Q := fun y hy =>
    List.mem_append_right _ (List.mem_cons_of_mem _ (List.mem_of_mem_head? hy))
  refine hc.splice_out (fun x hx' => ⟨hkeep _ ?_ ?_, hx x hx'⟩)
    (fun y hy' => ⟨hy y hy', hkeep _ ?_ ?_⟩) (fun p hp => ⟨hkeep _ ?_ ?_, hkeep _ ?_ ?_⟩)
  · intro x' hx''; cases Option.mem_unique hx' hx''; omega
  · intro y hy'; have := hsep x (xm x hx') y (ym y hy') ((hX x hx').2.1 y hy'); omega
  · intro x hx'; have := hsep x (xm x hx') y (ym y hy') ((hX x hx').2.1 y hy'); omega
  · intro y' hy''; cases Option.mem_unique hy' hy''; omega
  all_goals have hpm := mem_around (b := b) hp
  · intro x hx'; have := hsep p hpm x (xm x hx') ((hX x hx').2.2 p hp); omega
  · intro y hy'; have := hsep p hpm y (ym y hy') ((hY y hy').2 p hp); omega
  · intro x hx'; have := hsep p hpm x (xm x hx') ((hX x hx').2.2 p hp); omega
  · intro y hy'; have := hsep p hpm y (ym y hy') ((hY y hy').2 p hp); omega

/-- Putting block `b` into a chain between `P` and `Q`, the link words of the blocks lying
apart: once it links to the last of `P` and the first of `Q` and they link to it, with every
word clear of those four links kept, the chain runs through `b`. -/
theorem Chain.link_in {P Q : List Nat} {b : Nat} (hc : Chain a 0 (P ++ Q) 0)
    (hnd : (P ++ b :: Q).Nodup)
    (hsep : ∀ p ∈ P ++ b :: Q, ∀ q ∈ P ++ b :: Q, p ≠ q → p + 8 ≤ q ∨ q + 8 ≤ p)
    (hkeep : ∀ q, (q + 4 ≤ b ∨ b + 8 ≤ q) → (∀ x ∈ P.getLast?, q + 4 ≤ x ∨ x + 4 ≤ q) →
      (∀ y ∈ Q.head?, q ≤ y ∨ y + 8 ≤ q) → a'.word? q = a.word? q)
    (hb : a'.word? b = some (Q.headD 0)) (hb4 : a'.word? (b + 4) = some (P.getLastD 0))
    (hx : ∀ x ∈ P.getLast?, a'.word? x = some b)
    (hy : ∀ y ∈ Q.head?, a'.word? (y + 4) = some b) :
    Chain a' 0 (P ++ b :: Q) 0 := by
  obtain ⟨hX, hY, hB⟩ := around_nodup hnd
  have xm : ∀ x ∈ P.getLast?, x ∈ P ++ b :: Q := fun x hx =>
    List.mem_append_left _ (List.mem_of_mem_getLast? hx)
  have ym : ∀ y ∈ Q.head?, y ∈ P ++ b :: Q := fun y hy =>
    List.mem_append_right _ (List.mem_cons_of_mem _ (List.mem_of_mem_head? hy))
  have bm : b ∈ P ++ b :: Q := by simp
  refine hc.splice_in ⟨hb, hb4⟩ (fun x hx' => ⟨hkeep _ ?_ ?_ ?_, hx x hx'⟩)
    (fun y hy' => ⟨hy y hy', hkeep _ ?_ ?_ ?_⟩)
    (fun p hp => ⟨hkeep _ ?_ ?_ ?_, hkeep _ ?_ ?_ ?_⟩)
  · have := hsep x (xm x hx') b bm (hX x hx').1; omega
  · intro x' hx''; cases Option.mem_unique hx' hx''; omega
  · intro y hy'; have := hsep x (xm x hx') y (ym y hy') ((hX x hx').2.1 y hy'); omega
  · have := hsep y (ym y hy') b bm (hY y hy').1; omega
  · intro x hx'; have := hsep x (xm x hx') y (ym y hy') ((hX x hx').2.1 y hy'); omega
  · intro y' hy''; cases Option.mem_unique hy' hy''; omega
  all_goals have hpm := mem_around (b := b) hp
  · have := hsep p hpm b bm (hB p hp); omega
  · intro x hx'; have := hsep p hpm x (xm x hx') ((hX x hx').2.2 p hp); omega
  · intro y hy'; have := hsep p hpm y (ym y hy') ((hY y hy').2 p hp); omega
  · have := hsep p hpm b bm (hB p hp); omega
  · intro x hx'; have := hsep p hpm x (xm x hx') ((hX x hx').2.2 p hp); omega
  · intro y hy'; have := hsep p hpm y (ym y hy') ((hY y hy').2 p hp); omega

end Chain

namespace BlockInfo

/-- The order of the free list: by size, smaller blocks nearer the tail. -/
def SizeLE (b c : BlockInfo) : Prop := b.size ≤ c.size

instance : DecidableRel SizeLE := fun b c => Nat.decLe b.size c.size

instance : Std.Total SizeLE := ⟨fun b c => Nat.le_total b.size c.size⟩

instance : IsTrans BlockInfo SizeLE := ⟨fun _ _ _ => Nat.le_trans⟩

end BlockInfo

/-- The link words of the blocks `fl`: the first two payload words of each. -/
def linkWords (fl : List BlockInfo) : Set Nat := {j | ∃ c ∈ fl, c.ptr ≤ j ∧ j < c.ptr + 8}

theorem linkWords_mono {xs ys : List BlockInfo} (h : ∀ c ∈ xs, c ∈ ys) :
    linkWords xs ⊆ linkWords ys := by
  rintro _ ⟨c, hc, hj⟩
  exact ⟨c, h c hc, hj⟩

/-- The words that joining `smaller` and `larger` in the list writes: the larger link of
`smaller` and the smaller link of `larger`. -/
def neighbourWords (smaller larger : Option Nat) : Set Nat :=
  {j | (∃ s ∈ smaller, s ≤ j ∧ j < s + 4) ∨ (∃ l ∈ larger, l + 4 ≤ j ∧ j < l + 8)}

/-- The neighbours joined are listed blocks: their words are link words of the list. -/
theorem neighbourWords_subset {fl : List BlockInfo} {X Y : Option Nat}
    (hx : ∀ x ∈ X, x ∈ fl.map (·.ptr)) (hy : ∀ y ∈ Y, y ∈ fl.map (·.ptr)) :
    neighbourWords X Y ⊆ linkWords fl := by
  rintro j (⟨x, hxm, h1, h2⟩ | ⟨y, hym, h1, h2⟩)
  · obtain ⟨c, hc, rfl⟩ := List.mem_map.mp (hx x hxm)
    exact ⟨c, hc, by omega, by omega⟩
  · obtain ⟨c, hc, rfl⟩ := List.mem_map.mp (hy y hym)
    exact ⟨c, hc, by omega, by omega⟩

/-- The free list of `h` is `fl`, from the tail on: free blocks of the layout `bs`, each
once, in ascending size, linked both ways in the arena, the tail being the first. -/
structure Listed (h : Heap) (bs fl : List BlockInfo) : Prop where
  chain : Chain h.arena 0 (fl.map (·.ptr)) 0
  tail : h.tail = (fl.map (·.ptr)).head?
  free : ∀ b ∈ fl, b ∈ bs ∧ b.state = .free
  nodup : fl.Nodup
  sorted : fl.Pairwise BlockInfo.SizeLE

theorem headD_option {xs : List Nat} (h0 : ∀ x ∈ xs, x ≠ 0) :
    (if xs.headD 0 = 0 then none else some (xs.headD 0)) = xs.head? := by
  cases xs with
  | nil => rfl
  | cons x xs => simp [h0 x List.mem_cons_self]

theorem getLastD_option {xs : List Nat} (h0 : ∀ x ∈ xs, x ≠ 0) :
    (if xs.getLastD 0 = 0 then none else some (xs.getLastD 0)) = xs.getLast? := by
  rcases List.eq_nil_or_concat xs with rfl | ⟨ys, x, rfl⟩
  · rfl
  · simp [h0 x (by simp)]

theorem Layout.map_ptr_nodup {a : Arena} {bs xs : List BlockInfo} (hl : Layout a bs)
    (hxs : ∀ c ∈ xs, c ∈ bs) (hnd : xs.Nodup) : (xs.map (·.ptr)).Nodup :=
  List.Nodup.map_on (fun b hb c hc e => hl.ptr_inj (hxs b hb) (hxs c hc) e) hnd

namespace Listed

variable {h : Heap} {bs fl : List BlockInfo}

theorem ptr_facts (hL : Listed h bs fl) (hl : Layout h.arena bs) {c : BlockInfo} (hc : c ∈ fl) :
    16 ≤ c.ptr ∧ c.ptr % 8 = 0 ∧ 16 ≤ c.size ∧ c.ptr + c.size ≤ h.arena.brk := by
  obtain ⟨h1, h2, h3, h4, -⟩ := hl.mem (hL.free c hc).1
  exact ⟨h1, h3, h4, h2⟩

theorem ptr_ne_zero (hL : Listed h bs fl) (hl : Layout h.arena bs) {xs : List BlockInfo}
    (hxs : ∀ c ∈ xs, c ∈ fl) : ∀ x ∈ xs.map (·.ptr), x ≠ 0 := by
  simp only [List.mem_map]
  rintro _ ⟨c, hc, rfl⟩
  have := (hL.ptr_facts hl (hxs c hc)).1
  omega

theorem ptr_nodup (hL : Listed h bs fl) (hl : Layout h.arena bs) : (fl.map (·.ptr)).Nodup :=
  hl.map_ptr_nodup (fun b hb => (hL.free b hb).1) hL.nodup

theorem length_le (hL : Listed h bs fl) (hl : Layout h.arena bs) : fl.length ≤ h.arena.brk := by
  have hsub : fl.Subperm bs := hL.nodup.subperm fun b hb => (hL.free b hb).1
  have := hsub.length_le
  have := hl.brk_facts.2.2
  simp only [minBlock] at this
  omega

/-- The link words of a listed block name its neighbours in the list. -/
theorem words (hL : Listed h bs fl) {pre post : List BlockInfo} {b : BlockInfo}
    (hs : fl = pre ++ b :: post) :
    h.arena.word? b.ptr = some ((post.map (·.ptr)).headD 0) ∧
      h.arena.word? (b.ptr + 4) = some ((pre.map (·.ptr)).getLastD 0) := by
  have hc := hL.chain
  rw [hs, List.map_append, List.map_cons, chain_append] at hc
  obtain ⟨-, h1, h2, -⟩ := hc
  exact ⟨h2, h1⟩

theorem link_larger (hL : Listed h bs fl) (hl : Layout h.arena bs) {pre post : List BlockInfo}
    {b : BlockInfo} (hs : fl = pre ++ b :: post) :
    Heap.link b.ptr .larger h = .ok ((post.map (·.ptr)).head?, h) := by
  rw [Heap.link_apply (hL.words hs).1, headD_option (hL.ptr_ne_zero hl fun c hc => by simp [hs, hc])]

theorem link_smaller (hL : Listed h bs fl) (hl : Layout h.arena bs) {pre post : List BlockInfo}
    {b : BlockInfo} (hs : fl = pre ++ b :: post) :
    Heap.link b.ptr .smaller h = .ok ((pre.map (·.ptr)).getLast?, h) := by
  rw [Heap.link_apply (hL.words hs).2,
    getLastD_option (hL.ptr_ne_zero hl fun c hc => by simp [hs, hc])]

theorem tagAt (hL : Listed h bs fl) (hl : Layout h.arena bs) {c : BlockInfo} (hc : c ∈ fl) :
    Heap.tagAt c.ptr h = .ok (c.tag, h) := by
  have hb := (hL.free c hc).1
  rw [Heap.tagAt_apply (by have := (hL.ptr_facts hl hc).1; omega) (hl.mem hb).2.2.2.2.2.1,
    hl.unpack_header hb]

/-- The link of a listed block toward smaller blocks names a block or none: a multiple of
eight, so the word marks nothing. -/
theorem smaller_word (hL : Listed h bs fl) (hl : Layout h.arena bs) {c : BlockInfo} (hc : c ∈ fl) :
    ∃ w, h.arena.word? (c.ptr + 4) = some w ∧ w % 8 = 0 := by
  obtain ⟨pre, post, hs⟩ := List.append_of_mem hc
  refine ⟨_, (hL.words hs).2, ?_⟩
  rw [List.getLastD_eq_getLast?]
  cases hx : (pre.map (·.ptr)).getLast? with
  | none => rfl
  | some x =>
    obtain ⟨d, hd, rfl⟩ := List.mem_map.mp (List.mem_of_mem_getLast? hx)
    exact (hL.ptr_facts hl (by rw [hs]; exact List.mem_append_left _ hd)).2.1

/-- An edit of link words of blocks that are listed afterwards sets no mark: each such word
at a position `≡ 4 (mod 8)` is a link toward smaller blocks. -/
theorem marks_of_edits {h₀ : Heap} {xs : List BlockInfo} (hL : Listed h bs fl)
    (hl : Layout h.arena bs) (e : Heap.Edits (linkWords xs) h₀ h) (hxs : ∀ c ∈ xs, c ∈ fl) :
    Heap.Marks ∅ ∅ h₀ h :=
  (e.marks (Q := {j | ∃ c ∈ xs, j = c.ptr + 4})
    (fun j hw hj => by
      obtain ⟨c, hc, h1, h2⟩ := hw
      exact ⟨c, hc, by have := (hL.ptr_facts hl (hxs c hc)).2.1; omega⟩)
    (fun q hq => by
      obtain ⟨c, hc, rfl⟩ := hq
      obtain ⟨w, hw, h8⟩ := hL.smaller_word hl (hxs c hc)
      exact ⟨w, hw, fun hodd => absurd hodd (by omega)⟩)).mono
    (Set.empty_subset _) (fun _ _ h => h)

theorem linkWords_payload (hL : Listed h bs fl) (hl : Layout h.arena bs) :
    ∀ j ∈ linkWords fl, ∃ c ∈ bs, c.ptr ≤ j ∧ j < c.ptr + c.size - 8 := by
  rintro j ⟨c, hc, h1, h2⟩
  have := (hL.ptr_facts hl hc).2.2.1
  exact ⟨c, (hL.free c hc).1, h1, by omega⟩

end Listed

section Walks

variable {h : Heap} {bs fl : List BlockInfo}

theorem walkBound_apply : Heap.walkBound h = .ok (h.arena.brk + 1, h) := rfl

/-- Seeking the place of a block of `size` from a point of the list: the walk passes the
blocks smaller than `size` and stops at the first that is not. -/
theorem seekPlace_apply (hl : Layout h.arena bs) (hL : Listed h bs fl) (size : Nat) :
    ∀ (rest pre : List BlockInfo), fl = pre ++ rest → ∀ fuel, rest.length ≤ fuel →
      Heap.seekPlace size fuel (pre.map (·.ptr)).getLast? (rest.map (·.ptr)).head? h =
        .ok ((((pre ++ rest.takeWhile fun c => ¬ size ≤ c.size).map (·.ptr)).getLast?,
          ((rest.dropWhile fun c => ¬ size ≤ c.size).map (·.ptr)).head?), h) := by
  intro rest
  induction rest with
  | nil =>
    intro pre _ fuel _
    simp only [List.map_nil, List.head?_nil, Heap.seekPlace.eq_1, List.takeWhile_nil,
      List.append_nil, List.dropWhile_nil]
    rfl
  | cons r rest ih =>
    intro pre hs fuel hfuel
    obtain ⟨fuel, rfl⟩ : ∃ f, fuel = f + 1 := ⟨fuel - 1, by simp at hfuel; omega⟩
    have hr : r ∈ fl := by simp [hs]
    simp only [List.map_cons, List.head?_cons, Heap.seekPlace.eq_3]
    rw [Heap.bind_apply_ok (hL.tagAt hl hr), BlockInfo.tag_size]
    by_cases hfit : size ≤ r.size
    · rw [if_pos hfit, List.takeWhile_cons_of_neg (by simpa using hfit),
        List.dropWhile_cons_of_neg (by simpa using hfit), List.append_nil]
      rfl
    · rw [if_neg hfit, Heap.bind_apply_ok (hL.link_larger hl hs),
        List.takeWhile_cons_of_pos (by simpa using hfit),
        List.dropWhile_cons_of_pos (by simpa using hfit)]
      have := ih (pre ++ [r]) (by simp [hs]) fuel (by simp at hfuel; omega)
      have e : ((pre ++ [r]).map (·.ptr)).getLast? = some r.ptr := by simp
      rwa [e, List.append_assoc, List.singleton_append] at this

/-- Walking for a fit from a point of the list finds the first block there of at least
`size` bytes. -/
theorem fitFrom_apply (hl : Layout h.arena bs) (hL : Listed h bs fl) (size : Nat) :
    ∀ (rest pre : List BlockInfo), fl = pre ++ rest → ∀ fuel, rest.length ≤ fuel →
      Heap.fitFrom size fuel (rest.map (·.ptr)).head? h =
        .ok ((rest.find? fun c => size ≤ c.size).map (·.ptr), h) := by
  intro rest
  induction rest with
  | nil =>
    intro pre _ fuel _
    simp only [List.map_nil, List.head?_nil, List.find?_nil, Option.map_none]
    cases fuel <;> rfl
  | cons r rest ih =>
    intro pre hs fuel hfuel
    obtain ⟨fuel, rfl⟩ : ∃ f, fuel = f + 1 := ⟨fuel - 1, by simp at hfuel; omega⟩
    have hr : r ∈ fl := by simp [hs]
    simp only [List.map_cons, List.head?_cons, Heap.fitFrom.eq_3]
    rw [Heap.bind_apply_ok (hL.link_larger hl hs), Heap.bind_apply_ok (hL.tagAt hl hr),
      BlockInfo.tag_size]
    by_cases hfit : size ≤ r.size
    · rw [if_pos hfit, List.find?_cons_of_pos (by simpa using hfit)]
      rfl
    · rw [if_neg hfit, List.find?_cons_of_neg (by simpa using hfit)]
      exact ih (pre ++ [r]) (by simp [hs]) fuel (by simp at hfuel; omega)

theorem findFit_apply (hl : Layout h.arena bs) (hL : Listed h bs fl) (size : Nat) :
    Heap.findFit size h = .ok ((fl.find? fun c => size ≤ c.size).map (·.ptr), h) := by
  unfold Heap.findFit
  rw [Heap.bind_apply_ok walkBound_apply, Heap.bind_apply_ok (Heap.get_apply h), hL.tail]
  exact fitFrom_apply hl hL size fl [] rfl _ (by have := hL.length_le hl; omega)

end Walks

/-- A word clear of the larger link of `X` and of the smaller link of `Y` keeps its value
when the two are joined. -/
theorem Heap.Edits.word?_of_neighbour_apart {h h' : Heap} {X Y : Option Nat}
    (e : Heap.Edits (neighbourWords X Y) h h') {q : Nat} (hx : ∀ x ∈ X, q + 4 ≤ x ∨ x + 4 ≤ q)
    (hy : ∀ y ∈ Y, q ≤ y ∨ y + 8 ≤ q) : h'.arena.word? q = h.arena.word? q :=
  e.word?_of_apart fun j hj => by
    rcases hj with ⟨x, hxm, h1, h2⟩ | ⟨y, hym, h1, h2⟩
    · have := hx x hxm
      omega
    · have := hy y hym
      omega

/-- A word clear of a block's own links and of the links joining its neighbours to it keeps
its value when the block is linked in. -/
theorem Heap.Edits.word?_of_link_apart {h h' : Heap} {b : Nat} {X Y : Option Nat}
    (e : Heap.Edits (Set.Ico b (b + 8) ∪ neighbourWords X Y) h h') {q : Nat}
    (hb : q + 4 ≤ b ∨ b + 8 ≤ q) (hx : ∀ x ∈ X, q + 4 ≤ x ∨ x + 4 ≤ q)
    (hy : ∀ y ∈ Y, q ≤ y ∨ y + 8 ≤ q) : h'.arena.word? q = h.arena.word? q :=
  e.word?_of_apart fun j hj => by
    rcases hj with hj | ⟨x, hxm, h1, h2⟩ | ⟨y, hym, h1, h2⟩
    · simp only [Set.mem_Ico] at hj
      omega
    · have := hx x hxm
      omega
    · have := hy y hym
      omega

section Splice

variable {h : Heap} {b bp size : Nat} {X Y : Option Nat}

/-- Unlinking a block whose links name `Y` toward larger blocks and `X` toward smaller ones
writes the larger link of `X` and the smaller link of `Y`, when those two words lie apart,
or a link and the tail; nothing else changes. -/
theorem remove_run (hl : Heap.link b .larger h = .ok (Y, h)) (hs : Heap.link b .smaller h = .ok (X, h))
    (hm : h.arena.brk ≤ h.arena.memory.size)
    (hX : ∀ x ∈ X, x + 4 ≤ h.arena.brk ∧ x < wordBound)
    (hY : ∀ y ∈ Y, y + 8 ≤ h.arena.brk ∧ y < wordBound)
    (hXY : ∀ x ∈ X, ∀ y ∈ Y, x + 4 ≤ y + 4 ∨ y + 8 ≤ x) :
    ∃ h', Heap.remove b h = .ok ((), h') ∧ Heap.Edits (neighbourWords X Y) h h' ∧
      (∀ x ∈ X, h'.arena.word? x = some (Y.getD 0)) ∧
      (∀ y ∈ Y, h'.arena.word? (y + 4) = some (X.getD 0)) ∧
      h'.tail = if X = none then Y else h.tail := by
  unfold Heap.remove
  rw [Heap.bind_apply_ok hl, Heap.bind_apply_ok hs]
  rcases X with _ | x <;> rcases Y with _ | y
  · exact ⟨_, Heap.setTail_apply _, Heap.Edits.setTail _ _ _, by simp, by simp, by simp⟩
  · obtain ⟨hy1, hy2⟩ := hY y rfl
    obtain ⟨h1, r1, e1, -, w1⟩ := Heap.setLink_apply (h := h) y .smaller none
      (by simp; omega) hm (by simp [wordBound])
    refine ⟨_, by simp only; rw [Heap.bind_apply_ok r1]; exact Heap.setTail_apply _,
      (e1.trans (Heap.Edits.setTail ∅ h1 _)).mono ?_, by simp, ?_, by simp⟩
    · intro j hj
      simp only [Set.mem_union, Set.mem_Ico, Link.offset_smaller, Set.mem_empty_iff_false,
        or_false] at hj
      simp [neighbourWords]
      omega
    · simpa using w1
  · obtain ⟨hx1, hx2⟩ := hX x rfl
    obtain ⟨h1, r1, e1, t1, w1⟩ := Heap.setLink_apply (h := h) x .larger none
      (by simp; omega) hm (by simp [wordBound])
    refine ⟨h1, by simp only; exact r1, e1.mono ?_, ?_, by simp, by simp [t1]⟩
    · intro j hj
      simp only [Set.mem_Ico, Link.offset_larger] at hj
      simp [neighbourWords]
      omega
    · simpa using w1
  · obtain ⟨hx1, hx2⟩ := hX x rfl
    obtain ⟨hy1, hy2⟩ := hY y rfl
    have hxy := hXY x rfl y rfl
    obtain ⟨h1, r1, e1, t1, w1⟩ := Heap.setLink_apply (h := h) y .smaller (some x)
      (by simp; omega) hm (by simpa using hx2)
    obtain ⟨h2, r2, e2, t2, w2⟩ := Heap.setLink_apply (h := h1) x .larger (some y)
      (by simp [e1.brk]; omega) (by rw [e1.brk, e1.size]; exact hm) (by simpa using hy2)
    refine ⟨h2, by simp only; rw [Heap.bind_apply_ok r1]; exact r2, (e1.trans e2).mono ?_,
      by simpa using w2, ?_, by simp [t2, t1]⟩
    · intro j hj
      simp only [Set.mem_union, Set.mem_Ico, Link.offset_smaller, Link.offset_larger] at hj
      simp [neighbourWords]
      omega
    · intro y' hy'
      cases hy'
      rw [e2.word?_of_apart fun j hj => by simp only [Set.mem_Ico, Link.offset_larger] at hj; omega]
      simpa using w1

/-- Linking a block in between `X` and `Y`, the place the walk found: the block's own two
links are written first, then the smaller link of `Y` and the larger link of `X`, or the
tail; when those words lie apart, nothing else changes. -/
theorem insert_run
    (hseek : Heap.seekPlace size (h.arena.brk + 1) none h.tail h = .ok ((X, Y), h))
    (hm : h.arena.brk ≤ h.arena.memory.size) (hb : bp + 8 ≤ h.arena.brk) (hbw : bp < wordBound)
    (hX : ∀ x ∈ X, x + 4 ≤ h.arena.brk ∧ x < wordBound)
    (hY : ∀ y ∈ Y, y + 8 ≤ h.arena.brk ∧ y < wordBound)
    (hbX : ∀ x ∈ X, x + 4 ≤ bp ∨ bp + 8 ≤ x) (hbY : ∀ y ∈ Y, y + 8 ≤ bp ∨ bp + 4 ≤ y)
    (hXY : ∀ x ∈ X, ∀ y ∈ Y, x + 4 ≤ y + 4 ∨ y + 8 ≤ x) :
    ∃ h', Heap.insert bp size h = .ok ((), h') ∧
      Heap.Edits (Set.Ico bp (bp + 8) ∪ neighbourWords X Y) h h' ∧
      h'.arena.word? bp = some (Y.getD 0) ∧ h'.arena.word? (bp + 4) = some (X.getD 0) ∧
      (∀ x ∈ X, h'.arena.word? x = some bp) ∧ (∀ y ∈ Y, h'.arena.word? (y + 4) = some bp) ∧
      h'.tail = if X = none then some bp else h.tail := by
  obtain ⟨h1, r1, e1, t1, w1⟩ := Heap.setLink_apply (h := h) bp .larger Y (by simp; omega) hm (by
    cases Y with
    | none => simp [wordBound]
    | some y => simpa using (hY y rfl).2)
  obtain ⟨h2, r2, e2, t2, w2⟩ := Heap.setLink_apply (h := h1) bp .smaller X
    (by simp [e1.brk]; omega) (by rw [e1.brk, e1.size]; exact hm) (by
      cases X with
      | none => simp [wordBound]
      | some x => simpa using (hX x rfl).2)
  have hm2 : h2.arena.brk ≤ h2.arena.memory.size := by rw [e2.brk, e2.size, e1.brk, e1.size]; exact hm
  have hb2 : h2.arena.brk = h.arena.brk := by rw [e2.brk, e1.brk]
  obtain ⟨h4, run, e4, hx, hy, htail⟩ : ∃ h4, Heap.insert bp size h = .ok ((), h4) ∧
      Heap.Edits (neighbourWords X Y) h2 h4 ∧
      (∀ x ∈ X, h4.arena.word? x = some bp) ∧
      (∀ y ∈ Y, h4.arena.word? (y + 4) = some bp) ∧
      h4.tail = if X = none then some bp else h.tail := by
    unfold Heap.insert
    rw [Heap.bind_apply_ok walkBound_apply, Heap.bind_apply_ok (Heap.get_apply h),
      Heap.bind_apply_ok hseek]
    simp only
    rw [Heap.bind_apply_ok r1, Heap.bind_apply_ok r2]
    rcases X with _ | x <;> rcases Y with _ | y
    · exact ⟨_, Heap.setTail_apply _, Heap.Edits.setTail _ _ _, by simp, by simp, by simp⟩
    · obtain ⟨hy1, -⟩ := hY y rfl
      obtain ⟨h3, r3, e3, -, w3⟩ := Heap.setLink_apply (h := h2) y .smaller (some bp)
        (by simp; omega) hm2 (by simpa using hbw)
      refine ⟨_, by simp only; rw [Heap.bind_apply_ok r3]; exact Heap.setTail_apply _,
        (e3.trans (Heap.Edits.setTail ∅ h3 _)).mono ?_, by simp, ?_, by simp⟩
      · intro j hj
        simp only [Set.mem_union, Set.mem_Ico, Link.offset_smaller, Set.mem_empty_iff_false,
          or_false] at hj
        simp [neighbourWords]
        omega
      · simpa using w3
    · obtain ⟨hx1, -⟩ := hX x rfl
      obtain ⟨h4, r4, e4, t4, w4⟩ := Heap.setLink_apply (h := h2) x .larger (some bp)
        (by simp; omega) hm2 (by simpa using hbw)
      refine ⟨h4, by simp only; exact r4, e4.mono ?_, by simpa using w4, by simp, by simp [t4, t2, t1]⟩
      intro j hj
      simp only [Set.mem_Ico, Link.offset_larger] at hj
      simp [neighbourWords]
      omega
    · obtain ⟨hx1, -⟩ := hX x rfl
      obtain ⟨hy1, -⟩ := hY y rfl
      have hxy := hXY x rfl y rfl
      obtain ⟨h3, r3, e3, t3, w3⟩ := Heap.setLink_apply (h := h2) y .smaller (some bp)
        (by simp; omega) hm2 (by simpa using hbw)
      obtain ⟨h4, r4, e4, t4, w4⟩ := Heap.setLink_apply (h := h3) x .larger (some bp)
        (by simp [e3.brk]; omega) (by rw [e3.brk, e3.size]; exact hm2) (by simpa using hbw)
      refine ⟨h4, by simp only; rw [Heap.bind_apply_ok r3]; exact r4, (e3.trans e4).mono ?_,
        by simpa using w4, ?_, by simp [t4, t3, t2, t1]⟩
      · intro j hj
        simp only [Set.mem_union, Set.mem_Ico, Link.offset_smaller, Link.offset_larger] at hj
        simp [neighbourWords]
        omega
      · intro y' hy'
        cases hy'
        rw [e4.word?_of_apart fun j hj => by simp only [Set.mem_Ico, Link.offset_larger] at hj; omega]
        simpa using w3
  have e12 : Heap.Edits (Set.Ico bp (bp + 8)) h h2 := (e1.trans e2).mono fun j hj => by
    simp only [Set.mem_union, Set.mem_Ico, Link.offset_larger, Link.offset_smaller] at hj ⊢
    omega
  refine ⟨h4, run, (e12.trans e4).mono (by simp), ?_, ?_, hx, hy, htail⟩
  · rw [e4.word?_of_neighbour_apart (fun x hx => by have := hbX x hx; omega)
      (fun y hy => by have := hbY y hy; omega),
      e2.word?_of_apart fun j hj => by simp only [Set.mem_Ico, Link.offset_smaller] at hj; omega]
    simpa using w1
  · rw [e4.word?_of_neighbour_apart (fun x hx => by have := hbX x hx; omega)
      (fun y hy => by have := hbY y hy; omega)]
    simpa using w2

end Splice

section Unlink

variable {h : Heap} {bs fl : List BlockInfo}

private theorem listed_ptr_facts (hl : Layout h.arena bs) (hL : Listed h bs fl) :
    ∀ p ∈ fl.map (·.ptr), 16 ≤ p ∧ p % 8 = 0 ∧ p + 16 ≤ h.arena.brk ∧ p < wordBound := by
  simp only [List.mem_map]
  rintro _ ⟨c, hc, rfl⟩
  obtain ⟨h1, h2, h3, h4⟩ := hL.ptr_facts hl hc
  have := hl.brk_lt
  exact ⟨h1, h2, by omega, by omega⟩

/-- Removing a listed block joins its two neighbours in the list. -/
private theorem remove_apply_around (hl : Layout h.arena bs) (hL : Listed h bs fl) {pre post : List BlockInfo}
    {b : BlockInfo} (hs : fl = pre ++ b :: post) :
    ∃ h', Heap.remove b.ptr h = .ok ((), h') ∧ Heap.Edits (linkWords (pre ++ post)) h h' ∧
      Listed h' bs (pre ++ post) := by
  have pf := listed_ptr_facts hl hL
  have hm := hl.inMemory
  have hmap : fl.map (·.ptr) = pre.map (·.ptr) ++ b.ptr :: post.map (·.ptr) := by simp [hs]
  set P := pre.map (·.ptr)
  set Q := post.map (·.ptr)
  have hnd : (P ++ b.ptr :: Q).Nodup := hmap ▸ hL.ptr_nodup hl
  obtain ⟨hX, -, -⟩ := around_nodup hnd
  have xf : ∀ x ∈ P.getLast?, _ := fun x hx => pf x (hmap ▸ List.mem_append_left _
    (List.mem_of_mem_getLast? hx))
  have yf : ∀ y ∈ Q.head?, _ := fun y hy => pf y (hmap ▸ List.mem_append_right _
    (List.mem_cons_of_mem _ (List.mem_of_mem_head? hy)))
  obtain ⟨h', run, e, hx, hy, ht⟩ := remove_run (hL.link_larger hl hs) (hL.link_smaller hl hs) hm
    (fun x hx => by have := xf x hx; omega) (fun y hy => by have := yf y hy; omega)
    (fun x hx y hy => by
      have := xf x hx
      have := yf y hy
      have := (hX x hx).2.1 y hy
      omega)
  refine ⟨h', run, e.mono (neighbourWords_subset
    (fun x hx => by
      rw [List.map_append]; exact List.mem_append_left _ (List.mem_of_mem_getLast? hx))
    (fun y hy => by
      rw [List.map_append]; exact List.mem_append_right _ (List.mem_of_mem_head? hy))),
    ⟨?_, ?_, ?_, ?_, ?_⟩⟩
  · have hc := hL.chain
    rw [hmap] at hc
    rw [List.map_append]
    refine hc.unlink hnd (fun p hp q hq hne => ?_)
      (fun q hxq hyq => e.word?_of_neighbour_apart hxq hyq)
      (fun x hxm => by rw [hx x hxm, List.headD_eq_head?])
      (fun y hym => by rw [hy y hym, List.getLastD_eq_getLast?])
    have := (pf p (hmap ▸ hp)).2.1
    have := (pf q (hmap ▸ hq)).2.1
    omega
  · rw [ht, hL.tail, hmap, List.map_append]
    exact head?_splice_out
  · intro c hc
    exact hL.free c (by rw [hs]; simp only [List.mem_append, List.mem_cons] at hc ⊢; tauto)
  · exact hL.nodup.sublist (by rw [hs]; simp)
  · exact hL.sorted.sublist (by rw [hs]; simp)

/-- Inserting a free block of the layout that is not listed puts it in size order, before
every listed block of its size, and edits only its own link words and those of its
neighbours in the list. -/
private theorem insert_listed (hl : Layout h.arena bs) (hL : Listed h bs fl) {b : BlockInfo}
    (hb : b ∈ bs) (hfree : b.state = .free) (hnew : b ∉ fl) :
    ∃ h', Heap.insert b.ptr b.size h = .ok ((), h') ∧ Heap.Edits (linkWords (b :: fl)) h h' ∧
      Listed h' bs (fl.orderedInsert BlockInfo.SizeLE b) := by
  have pf := listed_ptr_facts hl hL
  have hm := hl.inMemory
  obtain ⟨-, hbe, hb8, hbs, -⟩ := hl.mem hb
  have hbw := hl.brk_lt
  have hins : fl.orderedInsert BlockInfo.SizeLE b =
      fl.takeWhile (fun c => ¬ b.size ≤ c.size) ++ b :: fl.dropWhile (fun c => ¬ b.size ≤ c.size) :=
    List.orderedInsert_eq_take_drop _ b fl
  have seek := seekPlace_apply hl hL b.size fl [] rfl (h.arena.brk + 1)
    (by have := hL.length_le hl; omega)
  simp only [List.map_nil, List.getLast?_nil, List.nil_append] at seek
  have hfl : fl.map (·.ptr) = (fl.takeWhile (fun c => ¬ b.size ≤ c.size)).map (·.ptr) ++
      (fl.dropWhile (fun c => ¬ b.size ≤ c.size)).map (·.ptr) := by
    rw [← List.map_append, List.takeWhile_append_dropWhile]
  set P := (fl.takeWhile (fun c => ¬ b.size ≤ c.size)).map (·.ptr)
  set Q := (fl.dropWhile (fun c => ¬ b.size ≤ c.size)).map (·.ptr)
  have hmem : ∀ p, p ∈ P ∨ p ∈ Q → p ∈ fl.map (·.ptr) := fun p hp => by
    rw [hfl]; exact List.mem_append.mpr hp
  have hnd : (P ++ b.ptr :: Q).Nodup := by
    have : ((fl.orderedInsert BlockInfo.SizeLE b).map (·.ptr)).Nodup :=
      hl.map_ptr_nodup (fun c hc => by
        rcases (List.mem_orderedInsert _).mp hc with rfl | hc
        · exact hb
        · exact (hL.free c hc).1)
        ((List.perm_orderedInsert _ b fl).nodup_iff.mpr (List.nodup_cons.mpr ⟨hnew, hL.nodup⟩))
    rwa [hins, List.map_append, List.map_cons] at this
  obtain ⟨hX, hY, -⟩ := around_nodup hnd
  have xf : ∀ x ∈ P.getLast?, _ := fun x hx => pf x (hmem x (.inl (List.mem_of_mem_getLast? hx)))
  have yf : ∀ y ∈ Q.head?, _ := fun y hy => pf y (hmem y (.inr (List.mem_of_mem_head? hy)))
  obtain ⟨h', run, e, w0, w4, hx, hy, ht⟩ := insert_run (by rw [hL.tail]; exact seek) hm
    (show b.ptr + 8 ≤ h.arena.brk by omega) (show b.ptr < wordBound by omega) (fun x hx => by have := xf x hx; omega)
    (fun y hy => by have := yf y hy; omega)
    (fun x hx => by have := xf x hx; have := (hX x hx).1; omega)
    (fun y hy => by have := yf y hy; have := (hY y hy).1; omega)
    (fun x hx y hy => by
      have := xf x hx
      have := yf y hy
      have := (hX x hx).2.1 y hy
      omega)
  refine ⟨h', run, e.mono (Set.union_subset (fun j hj => ⟨b, List.mem_cons_self, hj.1, hj.2⟩)
    ((neighbourWords_subset (fun x hx => hmem x (.inl (List.mem_of_mem_getLast? hx)))
      (fun y hy => hmem y (.inr (List.mem_of_mem_head? hy)))).trans
        (linkWords_mono fun _ => List.mem_cons_of_mem _))), ⟨?_, ?_, ?_, ?_, ?_⟩⟩
  · have hc := hL.chain
    rw [hfl] at hc
    rw [hins, List.map_append, List.map_cons]
    have h8 : ∀ p ∈ P ++ b.ptr :: Q, p % 8 = 0 := fun p hp => by
      rcases List.mem_append.mp hp with hp | hp
      · exact (pf p (hmem p (.inl hp))).2.1
      · rcases List.mem_cons.mp hp with rfl | hp
        · exact hb8
        · exact (pf p (hmem p (.inr hp))).2.1
    refine hc.link_in hnd (fun p hp q hq hne => ?_)
      (fun q hqb hxq hyq => e.word?_of_link_apart hqb hxq hyq)
      (by rw [w0, List.headD_eq_head?]) (by rw [w4, List.getLastD_eq_getLast?]) hx hy
    have := h8 p hp
    have := h8 q hq
    omega
  · rw [ht, hL.tail, hfl, hins, List.map_append, List.map_cons]
    exact head?_splice_in
  · intro c hc
    rcases (List.mem_orderedInsert _).mp hc with rfl | hc
    · exact ⟨hb, hfree⟩
    · exact hL.free c hc
  · exact (List.perm_orderedInsert _ b fl).nodup_iff.mpr (List.nodup_cons.mpr ⟨hnew, hL.nodup⟩)
  · exact hL.sorted.orderedInsert b fl

/-- Removing a listed block joins its two neighbours in the list, edits only link words of
the blocks that stay listed, leaves the rest of the list listed, and marks nothing. -/
theorem remove_apply (hl : Layout h.arena bs) (hL : Listed h bs fl) {b : BlockInfo}
    (hb : b ∈ fl) :
    ∃ h', Heap.remove b.ptr h = .ok ((), h') ∧ Heap.Edits (linkWords (fl.erase b)) h h' ∧
      Listed h' bs (fl.erase b) ∧ Heap.Marks ∅ ∅ h h' := by
  obtain ⟨pre, post, hs⟩ := List.append_of_mem hb
  have hpre : b ∉ pre := by
    have := hL.nodup
    rw [hs, List.nodup_middle, List.nodup_cons] at this
    exact fun h => this.1 (List.mem_append_left _ h)
  have he : fl.erase b = pre ++ post := by
    rw [hs, List.erase_append_right _ hpre, List.erase_cons_head]
  rw [he]
  obtain ⟨h', r, e, hL'⟩ := remove_apply_around hl hL hs
  have hl' := hl.of_edits e fun j hj => hL.linkWords_payload hl j (linkWords_mono (fun c hc => by
    rw [hs]; simp only [List.mem_append, List.mem_cons] at hc ⊢; tauto) hj)
  exact ⟨h', r, e, hL', hL'.marks_of_edits hl' e fun _ => id⟩

/-- Inserting a free block of the layout that is not listed puts it in size order, before
every listed block of its size, edits only its own link words and those of its neighbours in
the list, and marks nothing. -/
theorem insert_apply (hl : Layout h.arena bs) (hL : Listed h bs fl) {b : BlockInfo}
    (hb : b ∈ bs) (hfree : b.state = .free) (hnew : b ∉ fl) :
    ∃ h', Heap.insert b.ptr b.size h = .ok ((), h') ∧ Heap.Edits (linkWords (b :: fl)) h h' ∧
      Layout h'.arena bs ∧ Listed h' bs (fl.orderedInsert BlockInfo.SizeLE b) ∧
      Heap.Marks ∅ ∅ h h' := by
  obtain ⟨h', r, e, hL'⟩ := insert_listed hl hL hb hfree hnew
  have hbs := (hl.mem hb).2.2.2.1
  have hl' := hl.of_edits e fun j hj => by
    obtain ⟨c, hc, hj⟩ := hj
    rcases List.mem_cons.mp hc with rfl | hc
    · exact ⟨c, hb, hj.1, by omega⟩
    · exact hL.linkWords_payload hl j ⟨c, hc, hj⟩
  exact ⟨h', r, e, hl', hL', hL'.marks_of_edits hl' e fun c hc => (List.mem_orderedInsert _).mpr
    (List.mem_cons.mp hc)⟩

end Unlink

end Allocator
