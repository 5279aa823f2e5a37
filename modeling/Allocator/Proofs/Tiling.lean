import Allocator.Proofs.Coalesce
import Allocator.Heap.Check

/-! The block walk of the consistency check, read against the arena's tag words as they
decode. `Tiling a lo bs hi` says that the blocks `bs` lie back to back from payload offset `lo`
to `hi`, each at least `minBlock` bytes, with a header and a footer that both decode to its
tag. The check reads every tag through `Tag.unpack`, which drops bits 1 and 2 of the word, so
a header and a footer that differ only there are taken to agree. `Tiled a bs` adds the frame
around the blocks: the prologue's two tags, the tiling from the first block to the break with
no two free neighbours, and the epilogue in the last word before the break.

On an arena whose bytes hold its break, within 32-bit offsets, the prologue checks and the
block walk accept exactly the tiled arenas and answer their free blocks in address order
(`checkBlocks_ok_iff`), and every error they report names a rule the arena breaks at a block
the walk reaches through blocks it accepts (`checkBlocks_error`). The walk carries the blocks
it has accepted so far (`Walked`); each of the three results is one induction along the walk.
On every arena the walk stays on eight-byte boundaries, so it never reports a misaligned block
(`checkBlocks_ne_misaligned`). -/
namespace Allocator

namespace Arena

/-- The tag that the word at `pos` decodes to, when the word lies below the break. -/
def tag? (a : Arena) (pos : Nat) : Option Tag := (a.word? pos).map Tag.unpack

end Arena

variable {a : Arena}

theorem Arena.tag?_size {pos : Nat} {t : Tag} (h : a.tag? pos = some t) : t.size % 8 = 0 := by
  obtain ⟨w, -, rfl⟩ := Option.map_eq_some_iff.mp h
  simp only [Tag.unpack]
  omega

theorem Arena.tag?_isSome {pos : Nat} (hm : a.brk ≤ a.memory.size) (hp : pos + 4 ≤ a.brk) :
    ∃ t, a.tag? pos = some t := by
  obtain ⟨w, hw⟩ := readWord?_isSome (m := a.memory) hp (by omega)
  exact ⟨Tag.unpack w, by simp [Arena.tag?, Arena.word?, hw]⟩

theorem Heap.checkedTag_eq (pos ptr : Nat) :
    Heap.checkedTag a pos ptr = match a.tag? pos with
      | some t => .ok t
      | none => .error (.outOfBounds ptr) := by
  unfold Heap.checkedTag Arena.tag?
  cases a.word? pos <;> rfl

/-- The block at payload offset `p` that a decoded header describes. -/
def BlockInfo.ofTag (p : Nat) (t : Tag) : BlockInfo := ⟨p, t.size, t.state⟩

@[simp] theorem BlockInfo.ofTag_ptr (p : Nat) (t : Tag) : (BlockInfo.ofTag p t).ptr = p := rfl

@[simp] theorem BlockInfo.ofTag_size (p : Nat) (t : Tag) : (BlockInfo.ofTag p t).size = t.size := rfl

@[simp] theorem BlockInfo.ofTag_state (p : Nat) (t : Tag) :
    (BlockInfo.ofTag p t).state = t.state := rfl

@[simp] theorem BlockInfo.ofTag_tag (p : Nat) (t : Tag) : (BlockInfo.ofTag p t).tag = t := rfl

@[simp] theorem BlockInfo.ofTag_self (b : BlockInfo) : BlockInfo.ofTag b.ptr b.tag = b := rfl

/-- Blocks `bs` lie back to back from payload offset `lo` to `hi`: each starts where the one
before ends, is at least `minBlock` bytes, and has a header (the word before its payload) and
a footer (its last word) that decode to its tag. -/
def Tiling (a : Arena) : Nat → List BlockInfo → Nat → Prop
  | lo, [], hi => lo = hi
  | lo, b :: bs, hi => b.ptr = lo ∧ minBlock ≤ b.size ∧ a.tag? (lo - 4) = some b.tag ∧
      a.tag? (lo + b.size - 8) = some b.tag ∧ Tiling a (lo + b.size) bs hi

section Tiling

variable {lo hi : Nat} {bs : List BlockInfo}

@[simp] theorem tiling_nil : Tiling a lo [] hi ↔ lo = hi := Iff.rfl

theorem tiling_cons {b : BlockInfo} :
    Tiling a lo (b :: bs) hi ↔ b.ptr = lo ∧ minBlock ≤ b.size ∧ a.tag? (lo - 4) = some b.tag ∧
      a.tag? (lo + b.size - 8) = some b.tag ∧ Tiling a (lo + b.size) bs hi := Iff.rfl

/-- A tiling splits wherever its list does, at the offset where the first part ends. -/
theorem tiling_append {xs ys : List BlockInfo} :
    Tiling a lo (xs ++ ys) hi ↔ ∃ mid, Tiling a lo xs mid ∧ Tiling a mid ys hi := by
  induction xs generalizing lo with
  | nil => simp
  | cons b xs ih =>
    simp only [List.cons_append, tiling_cons, ih]
    constructor
    · rintro ⟨h1, h2, h3, h4, mid, h5, h6⟩
      exact ⟨mid, ⟨h1, h2, h3, h4, h5⟩, h6⟩
    · rintro ⟨mid, ⟨h1, h2, h3, h4, h5⟩, h6⟩
      exact ⟨h1, h2, h3, h4, mid, h5, h6⟩

theorem tiling_singleton {b : BlockInfo} :
    Tiling a lo [b] hi ↔ b.ptr = lo ∧ minBlock ≤ b.size ∧ a.tag? (lo - 4) = some b.tag ∧
      a.tag? (lo + b.size - 8) = some b.tag ∧ lo + b.size = hi := by
  simp [tiling_cons]

theorem Tiling.snoc (ht : Tiling a lo bs hi) {b : BlockInfo} (hp : b.ptr = hi)
    (h16 : minBlock ≤ b.size) (hh : a.tag? (hi - 4) = some b.tag)
    (hf : a.tag? (hi + b.size - 8) = some b.tag) : Tiling a lo (bs ++ [b]) (hi + b.size) :=
  tiling_append.mpr ⟨hi, ht, tiling_singleton.mpr ⟨hp, h16, hh, hf, rfl⟩⟩

/-- A tiling ends no earlier than it starts, and one that starts on an eight-byte boundary
ends on one. -/
theorem Tiling.le (ht : Tiling a lo bs hi) : lo ≤ hi ∧ (lo % 8 = 0 → hi % 8 = 0) := by
  induction bs generalizing lo with
  | nil => rw [tiling_nil] at ht; omega
  | cons b bs ih =>
    obtain ⟨-, -, hh, -, ht⟩ := tiling_cons.mp ht
    have h8 := Arena.tag?_size hh
    simp only [BlockInfo.tag_size] at h8
    have := ih ht
    omega

theorem Tiling.end_eq {hi' : Nat} (ht : Tiling a lo bs hi) (ht' : Tiling a lo bs hi') :
    hi = hi' := by
  induction bs generalizing lo with
  | nil => rw [tiling_nil] at ht ht'; omega
  | cons b bs ih => exact ih (tiling_cons.mp ht).2.2.2.2 (tiling_cons.mp ht').2.2.2.2

/-- Every block of a tiling lies inside it, at least `minBlock` bytes, with a header and a
footer that decode to its tag. -/
theorem Tiling.mem (ht : Tiling a lo bs hi) {b : BlockInfo} (hb : b ∈ bs) :
    lo ≤ b.ptr ∧ b.ptr + b.size ≤ hi ∧ minBlock ≤ b.size ∧ a.tag? (b.ptr - 4) = some b.tag ∧
      a.tag? (b.ptr + b.size - 8) = some b.tag := by
  induction bs generalizing lo with
  | nil => cases hb
  | cons c bs ih =>
    obtain ⟨rfl, h16, hh, hf, ht'⟩ := tiling_cons.mp ht
    have hle := ht'.le.1
    rcases List.mem_cons.mp hb with rfl | hb
    · exact ⟨le_rfl, hle, h16, hh, hf⟩
    · obtain ⟨h1, h2, h3⟩ := ih ht' hb
      exact ⟨by omega, h2, h3⟩

theorem Tiling.sorted (ht : Tiling a lo bs hi) :
    bs.Pairwise (fun b c => b.ptr + b.size ≤ c.ptr) := by
  induction bs generalizing lo with
  | nil => exact List.Pairwise.nil
  | cons b bs ih =>
    obtain ⟨rfl, -, -, -, ht'⟩ := tiling_cons.mp ht
    exact List.Pairwise.cons (fun c hc => (ht'.mem hc).1) (ih ht')

/-- A block of a tiling is fixed by its payload offset. -/
theorem Tiling.ptr_inj (ht : Tiling a lo bs hi) {b c : BlockInfo} (hb : b ∈ bs) (hc : c ∈ bs)
    (e : b.ptr = c.ptr) : b = c := by
  have hb16 := (ht.mem hb).2.2.1
  have hc16 := (ht.mem hc).2.2.1
  simp only [minBlock] at hb16 hc16
  obtain ⟨pre, post, rfl⟩ := List.append_of_mem hb
  rcases List.mem_append.mp hc with hc | hc
  · have := (List.pairwise_append.mp ht.sorted).2.2 c hc b List.mem_cons_self
    omega
  · rcases List.mem_cons.mp hc with rfl | hc
    · rfl
    · have := (List.pairwise_cons.mp (List.pairwise_append.mp ht.sorted).2.1).1 c hc
      omega

/-- A run of blocks with their tags in their header and footer words is a tiling: each word
decodes to the tag it holds. -/
theorem Run.tiling (hr : Run a lo bs hi) (hhi : hi ≤ addressable) : Tiling a lo bs hi := by
  induction bs generalizing lo with
  | nil => exact hr
  | cons b bs ih =>
    obtain ⟨hp, h16, h8, hh, hf, hr'⟩ := run_cons.mp hr
    have hend := hr'.le.1
    have hdec : Tag.unpack b.tag.pack = b.tag :=
      unpack_pack_of_le h8 (by simp only [BlockInfo.tag_size]; omega)
    exact ⟨hp, h16, by simp [Arena.tag?, hh, hdec], by simp [Arena.tag?, hf, hdec], ih hr'⟩

end Tiling

/-- The arena as the block walk of the check accepts it: the prologue's header and footer,
the blocks `bs` tiling the arena from the first block to the break with no two free
neighbours, and the epilogue, a zero-size allocated header, in the last word before the
break. -/
structure Tiled (a : Arena) (bs : List BlockInfo) : Prop where
  prologueHeader : a.tag? 4 = some (Tag.allocated 8)
  prologueFooter : a.tag? 8 = some (Tag.allocated 8)
  tiling : Tiling a firstBlock bs a.brk
  epilogue : a.tag? (a.brk - 4) = some (Tag.allocated 0)
  separated : bs.IsChain BlockInfo.Separated

/-- The payload offsets of the free blocks among `bs`, in their order. -/
def freePtrs (bs : List BlockInfo) : List Nat := (bs.filter (·.state == .free)).map (·.ptr)

@[simp] theorem freePtrs_nil : freePtrs [] = [] := rfl

theorem freePtrs_append (xs ys : List BlockInfo) :
    freePtrs (xs ++ ys) = freePtrs xs ++ freePtrs ys := by
  simp [freePtrs]

theorem freePtrs_singleton (b : BlockInfo) :
    freePtrs [b] = if b.state = .free then [b.ptr] else [] := by
  cases hb : b.state <;> simp [freePtrs, hb]

theorem mem_freePtrs {bs : List BlockInfo} {p : Nat} :
    p ∈ freePtrs bs ↔ ∃ b ∈ bs, b.state = .free ∧ b.ptr = p := by
  simp [freePtrs, and_assoc]

theorem Tiling.nodup {lo hi : Nat} {bs : List BlockInfo} (ht : Tiling a lo bs hi) : bs.Nodup :=
  List.Pairwise.imp_of_mem (fun hb _ hbc e => by
    subst e
    have := (ht.mem hb).2.2.1
    simp only [minBlock] at this
    omega) ht.sorted

/-- What an error of the prologue checks or of the block walk says about the arena: the rule
that the arena breaks, at a block that the walk reaches through blocks it accepts. Errors of
the free-list walk say nothing here. -/
def CheckError.Breaks (a : Arena) : CheckError → Prop
  | .badPrologue => a.brk < heapOverhead ∨ a.brk % alignment ≠ 0 ∨
      a.tag? 4 ≠ some (Tag.allocated 8) ∨ a.tag? 8 ≠ some (Tag.allocated 8)
  | .badEpilogue p => ∃ bs t, Tiling a firstBlock bs p ∧ a.tag? (p - 4) = some t ∧ t.size = 0 ∧
      (t.state = .free ∨ p ≠ a.brk)
  | .outOfBounds p => ∃ bs t, Tiling a firstBlock bs p ∧ a.tag? (p - 4) = some t ∧
      minBlock ≤ t.size ∧ a.brk < p + t.size
  | .tooSmall p s => ∃ bs t, Tiling a firstBlock bs p ∧ a.tag? (p - 4) = some t ∧ t.size = s ∧
      0 < s ∧ s < minBlock
  | .tagMismatch p hd ft => ∃ bs, Tiling a firstBlock bs p ∧ a.tag? (p - 4) = some hd ∧
      minBlock ≤ hd.size ∧ p + hd.size ≤ a.brk ∧ a.tag? (p + hd.size - 8) = some ft ∧ hd ≠ ft
  | .adjacentFree p => ∃ bs b c, Tiling a firstBlock (bs ++ [b, c]) (p + c.size) ∧ c.ptr = p ∧
      p + c.size ≤ a.brk ∧ b.state = .free ∧ c.state = .free
  | _ => False

/-- One step of the block walk, at a cursor below `2^32` whose header decodes to `t`. -/
theorem walkBlocks_header {c : Nat} (hcw : c < wordBound) {t : Tag}
    (ht : a.tag? (c - 4) = some t) (pf : Bool) (met : Array Nat) :
    Heap.walkBlocks a c pf met =
      if t.size = 0 then
        if t.isFree ∨ c ≠ a.brk then .error (.badEpilogue c) else .ok met
      else if c % 8 ≠ 0 then .error (.misaligned c)
      else if t.size < minBlock then .error (.tooSmall c t.size)
      else if a.brk < c + t.size then .error (.outOfBounds c)
      else match a.tag? (c + t.size - 8) with
        | none => .error (.outOfBounds c)
        | some f =>
          if f ≠ t then .error (.tagMismatch c t f)
          else if t.isFree ∧ pf then .error (.adjacentFree c)
          else Heap.walkBlocks a (c + t.size) t.isFree (if t.isFree then met.push c else met) := by
  have ht8 := Arena.tag?_size ht
  rw [Heap.walkBlocks, if_neg (by omega)]
  simp only [wordBytes, Heap.checkedTag_eq, ht, alignment, tagOverhead]
  simp only [bind, Except.bind, pure, Except.pure, throw, throwThe, MonadExceptOf.throw]
  by_cases h0 : t.size = 0
  · simp [h0]
  · simp only [h0, if_false]
    by_cases h8 : c % 8 = 0
    · simp only [h8, ht8, ne_eq, not_true_eq_false, or_self, if_false, dite_eq_ite, gt_iff_lt]
      cases a.tag? (c + t.size - 8) <;> split_ifs <;> rfl
    · simp [h8]

theorem walkBlocks_unread {c : Nat} (hcw : c < wordBound) (ht : a.tag? (c - 4) = none)
    (pf : Bool) (met : Array Nat) : Heap.walkBlocks a c pf met = .error (.outOfBounds c) := by
  rw [Heap.walkBlocks, if_neg (by omega)]
  simp only [wordBytes, Heap.checkedTag_eq, ht]
  rfl

/-- How one step of the block walk succeeds: at the epilogue on the break, answering the free
blocks met so far, or past a block that passes every check, going on from the next one. -/
theorem walkBlocks_eq_ok {c : Nat} (hcw : c < wordBound) {pf : Bool} {met free : Array Nat}
    (h : Heap.walkBlocks a c pf met = .ok free) :
    ∃ t, a.tag? (c - 4) = some t ∧
      ((t.size = 0 ∧ t.isFree = false ∧ c = a.brk ∧ free = met) ∨
        (t.size ≠ 0 ∧ c % 8 = 0 ∧ minBlock ≤ t.size ∧ c + t.size ≤ a.brk ∧
          a.tag? (c + t.size - 8) = some t ∧ ¬ (t.isFree = true ∧ pf = true) ∧
          Heap.walkBlocks a (c + t.size) t.isFree (if t.isFree then met.push c else met) =
            .ok free)) := by
  cases ht : a.tag? (c - 4) with
  | none =>
    rw [walkBlocks_unread hcw ht] at h
    cases h
  | some t =>
    refine ⟨t, rfl, ?_⟩
    rw [walkBlocks_header hcw ht] at h
    by_cases h0 : t.size = 0
    · rw [if_pos h0] at h
      split at h
      · cases h
      · next hep =>
        cases h
        simp only [not_or, Bool.not_eq_true, ne_eq, Decidable.not_not] at hep
        exact .inl ⟨h0, hep.1, hep.2, rfl⟩
    rw [if_neg h0] at h
    by_cases h8 : c % 8 ≠ 0
    · rw [if_pos h8] at h
      cases h
    rw [if_neg h8] at h
    by_cases hs : t.size < minBlock
    · rw [if_pos hs] at h
      cases h
    rw [if_neg hs] at h
    by_cases hb : a.brk < c + t.size
    · rw [if_pos hb] at h
      cases h
    rw [if_neg hb] at h
    cases hf : a.tag? (c + t.size - 8) with
    | none =>
      rw [hf] at h
      cases h
    | some f =>
      rw [hf] at h
      dsimp only at h
      by_cases hft : f ≠ t
      · rw [if_pos hft] at h
        cases h
      rw [if_neg hft] at h
      obtain rfl : f = t := not_not.mp hft
      by_cases hfp : f.isFree = true ∧ pf = true
      · rw [if_pos hfp] at h
        cases h
      rw [if_neg hfp] at h
      exact .inr ⟨h0, by omega, by omega, by omega, rfl, hfp, h⟩

/-- The block walk has accepted the blocks `pre`, from the first block up to the cursor `c`
inside the arena: they tile that span with no two free neighbours, `pf` tells whether the
last of them is free, and `met` holds the free ones in address order. -/
structure Walked (a : Arena) (pre : List BlockInfo) (c : Nat) (pf : Bool) (met : Array Nat) :
    Prop where
  tiling : Tiling a firstBlock pre c
  inside : c ≤ a.brk
  separated : pre.IsChain BlockInfo.Separated
  prevFree : pf = pre.getLast?.any (·.state == .free)
  met : met.toList = freePtrs pre

namespace Walked

variable {pre : List BlockInfo} {c : Nat} {pf : Bool} {met : Array Nat}

theorem start (h16 : firstBlock ≤ a.brk) : Walked a [] firstBlock false #[] :=
  ⟨rfl, h16, List.isChain_nil, rfl, rfl⟩

theorem aligned (hw : Walked a pre c pf met) : c % 8 = 0 :=
  hw.tiling.le.2 rfl

/-- Accepting the block whose header at the cursor decodes to `t`: a block of at least
`minBlock` bytes ending by the break, whose footer decodes to the same tag, and which is not
free after a free block. -/
theorem step (hw : Walked a pre c pf met) {t : Tag} (ht : a.tag? (c - 4) = some t)
    (h16 : minBlock ≤ t.size) (hend : c + t.size ≤ a.brk)
    (hf : a.tag? (c + t.size - 8) = some t) (hsep : ¬ (t.isFree = true ∧ pf = true)) :
    Walked a (pre ++ [BlockInfo.ofTag c t]) (c + t.size) t.isFree
      (if t.isFree then met.push c else met) := by
  refine ⟨hw.tiling.snoc rfl h16 (by simpa using ht) (by simpa using hf), hend, ?_, ?_, ?_⟩
  · rcases List.eq_nil_or_concat pre with rfl | ⟨pre', b, rfl⟩
    · exact List.isChain_singleton _
    · refine List.IsChain.append hw.separated (List.isChain_singleton _) fun x hx y hy => ?_
      simp only [List.concat_eq_append, List.getLast?_append, List.getLast?_singleton,
        Option.some_or, Option.mem_def, Option.some.injEq, List.head?_cons] at hx hy
      subst hx hy
      have hpf := hw.prevFree
      simp only [List.concat_eq_append, List.getLast?_append, List.getLast?_singleton,
        Option.some_or, Option.any_some] at hpf
      by_cases hb : b.state = .free
      · right
        cases hs : t.state
        · simp [Tag.isFree, hs, hb, hpf] at hsep
        · simp [hs]
      · left
        cases hs : b.state
        · exact absurd hs hb
        · rfl
  · simp [Tag.isFree, BlockInfo.ofTag]
  · split <;> simp_all [freePtrs_append, freePtrs_singleton, BlockInfo.ofTag, Tag.isFree, hw.met]

/-- What the walk answers from an accepted prefix: an arena tiled to the break with the
epilogue there, and the free blocks of the whole tiling. -/
theorem walkBlocks_ok (hw : Walked a pre c pf met) (hwb : a.brk < wordBound) {free : Array Nat}
    (h : Heap.walkBlocks a c pf met = .ok free) :
    ∃ bs, Tiling a firstBlock bs a.brk ∧ a.tag? (a.brk - 4) = some (Tag.allocated 0) ∧
      bs.IsChain BlockInfo.Separated ∧ free.toList = freePtrs bs := by
  induction c, pf, met using Heap.walkBlocks.induct a generalizing pre with
  | case1 c pf met hc => have := hw.inside; omega
  | case2 c pf met hc ih =>
    have h16 := hw.tiling.le.1
    have hin := hw.inside
    obtain ⟨t, ht, ⟨h0, hnf, rfl, rfl⟩ | ⟨h0, -, hs, hb, hf, hfp, hnext⟩⟩ :=
      walkBlocks_eq_ok (by omega) h
    · have hta : t = Tag.allocated 0 := by
        obtain ⟨size, state⟩ := t
        cases state <;> simp_all [Tag.isFree, Tag.allocated]
      exact ⟨pre, hw.tiling, hta ▸ ht, hw.separated, hw.met⟩
    · have h16' : 16 ≤ t.size := by simp only [minBlock] at hs; omega
      exact ih t h0 (by omega) (by omega) (hw.step ht (by omega) hb hf hfp) (by simpa using hnext)

/-- Every error the walk reports from an accepted prefix is a rule that the arena breaks. -/
theorem walkBlocks_error (hw : Walked a pre c pf met) (hm : a.brk ≤ a.memory.size)
    (hwb : a.brk < wordBound) {e : CheckError} (h : Heap.walkBlocks a c pf met = .error e) :
    e.Breaks a := by
  induction c, pf, met using Heap.walkBlocks.induct a generalizing pre with
  | case1 c pf met hc => have := hw.inside; omega
  | case2 c pf met hc ih =>
    have h16 := hw.tiling.le.1
    have hin := hw.inside
    obtain ⟨t, ht⟩ : ∃ t, a.tag? (c - 4) = some t :=
      Arena.tag?_isSome hm (by simp only [firstBlock] at h16; omega)
    rw [walkBlocks_header (by omega) ht] at h
    by_cases h0 : t.size = 0
    · rw [if_pos h0] at h
      by_cases hep : t.isFree = true ∨ c ≠ a.brk
      · rw [if_pos hep] at h
        cases h
        exact ⟨pre, t, hw.tiling, ht, h0, by simpa [Tag.isFree] using hep⟩
      · rw [if_neg hep] at h
        cases h
    rw [if_neg h0, if_neg (by have := hw.aligned; omega)] at h
    by_cases hs : t.size < minBlock
    · rw [if_pos hs] at h
      cases h
      exact ⟨pre, t, hw.tiling, ht, rfl, by omega, hs⟩
    rw [if_neg hs] at h
    by_cases hb : a.brk < c + t.size
    · rw [if_pos hb] at h
      cases h
      exact ⟨pre, t, hw.tiling, ht, by omega, hb⟩
    rw [if_neg hb] at h
    have h16' : 16 ≤ t.size := by simp only [minBlock] at hs; omega
    obtain ⟨f, hf⟩ : ∃ f, a.tag? (c + t.size - 8) = some f := Arena.tag?_isSome hm (by omega)
    rw [hf] at h
    dsimp only at h
    by_cases hft : f = t
    swap
    · rw [if_pos hft] at h
      cases h
      exact ⟨pre, hw.tiling, ht, by omega, by omega, hf, Ne.symm hft⟩
    subst hft
    rw [if_neg (not_not.mpr rfl)] at h
    by_cases hfp : f.isFree = true ∧ pf = true
    · rw [if_pos hfp] at h
      cases h
      obtain ⟨htf, hpf⟩ := hfp
      have hpre := hw.prevFree
      rw [hpf] at hpre
      rcases List.eq_nil_or_concat pre with rfl | ⟨pre', b, rfl⟩
      · simp at hpre
      · simp only [List.concat_eq_append, List.getLast?_append, List.getLast?_singleton,
          Option.some_or, Option.any_some] at hpre
        refine ⟨pre', b, BlockInfo.ofTag c f, ?_, rfl, by simp; omega,
          by simpa using hpre.symm, by simpa [Tag.isFree] using htf⟩
        simpa using hw.tiling.snoc rfl (b := BlockInfo.ofTag c f) (by simpa using hs)
          (by simpa using ht) (by simpa using hf)
    rw [if_neg hfp] at h
    exact ih f h0 hs (by omega) (hw.step ht (by omega) (by omega) hf hfp) h

/-- From an accepted prefix, the walk over the rest of a tiling to the break, with the
epilogue there and no two free neighbours anywhere, answers every free block. The induction
is on the rest of the tiling, one block a step. -/
theorem walkBlocks_tiled (hw : Walked a pre c pf met) (hwb : a.brk < wordBound)
    {rest : List BlockInfo} (hr : Tiling a c rest a.brk)
    (hep : a.tag? (a.brk - 4) = some (Tag.allocated 0))
    (hsep : (pre ++ rest).IsChain BlockInfo.Separated) :
    ∃ free, Heap.walkBlocks a c pf met = .ok free ∧ free.toList = freePtrs (pre ++ rest) := by
  induction rest generalizing pre c pf met with
  | nil =>
    rw [tiling_nil] at hr
    subst hr
    refine ⟨met, ?_, by simpa using hw.met⟩
    rw [walkBlocks_header (by omega) hep]
    simp [Tag.allocated, Tag.isFree]
  | cons b rest ih =>
    obtain ⟨rfl, h16, hh, hf, hr'⟩ := tiling_cons.mp hr
    have hend : b.ptr + b.size ≤ a.brk := hr'.le.1
    have h16' : 16 ≤ b.size := h16
    have h8 := hw.aligned
    have hnot : ¬ (b.tag.isFree = true ∧ pf = true) := by
      rintro ⟨hbf, hpf⟩
      have hpre := hw.prevFree
      rw [hpf] at hpre
      rcases List.eq_nil_or_concat pre with rfl | ⟨pre', p, rfl⟩
      · simp at hpre
      · simp only [List.concat_eq_append, List.getLast?_append, List.getLast?_singleton,
          Option.some_or, Option.any_some] at hpre
        have hsp : BlockInfo.Separated p b := by
          simp only [List.concat_eq_append, List.append_assoc, List.singleton_append] at hsep
          exact (List.isChain_cons_cons.mp (List.isChain_append.mp hsep).2.1).1
        rcases hsp with hp | hb
        · simp [hp] at hpre
        · simp [Tag.isFree, hb] at hbf
    obtain ⟨free, hw', hfree⟩ := ih (hw.step hh h16 hend hf hnot) hr' (by simpa using hsep)
    refine ⟨free, ?_, by simpa using hfree⟩
    rw [walkBlocks_header (by omega) hh, BlockInfo.tag_size, if_neg (by omega), if_neg (by omega),
      if_neg (by simp only [minBlock]; omega), if_neg (by omega), hf]
    simp only [ne_eq, not_true_eq_false, if_false, if_neg hnot]
    exact hw'

end Walked

/-- The walk never reports a misaligned block: it starts on an eight-byte boundary and every
size it decodes is a multiple of eight. This holds of every arena. -/
theorem walkBlocks_ne_misaligned {c : Nat} (hc : c % 8 = 0) (pf : Bool) (met : Array Nat)
    (p : Nat) : Heap.walkBlocks a c pf met ≠ .error (.misaligned p) := by
  induction c, pf, met using Heap.walkBlocks.induct a with
  | case1 c pf met hcw =>
    rw [Heap.walkBlocks, if_pos hcw]
    simp [bind, Except.bind, throw, throwThe, MonadExceptOf.throw]
  | case2 c pf met hcw ih =>
    cases ht : a.tag? (c - 4) with
    | none => simp [walkBlocks_unread (by omega) ht]
    | some t =>
      have ht8 := Arena.tag?_size ht
      rw [walkBlocks_header (by omega) ht]
      by_cases h0 : t.size = 0
      · rw [if_pos h0]
        split <;> simp
      rw [if_neg h0, if_neg (by omega)]
      by_cases hs : t.size < minBlock
      · simp [hs]
      rw [if_neg hs]
      by_cases hb : a.brk < c + t.size
      · simp [hb]
      rw [if_neg hb]
      cases hf : a.tag? (c + t.size - 8) with
      | none => simp
      | some f =>
        dsimp only
        by_cases hft : f = t
        · subst hft
          by_cases hfp : f.isFree = true ∧ pf = true
          · simp [hfp]
          · rw [if_neg (not_not.mpr rfl), if_neg hfp]
            exact ih f h0 hs (by omega) (by omega)
        · simp [hft]

theorem checkBlocks_eq (hm : a.brk ≤ a.memory.size) :
    Heap.checkBlocks a =
      if a.brk < heapOverhead ∨ a.brk % alignment ≠ 0 ∨ a.tag? 4 ≠ some (Tag.allocated 8) ∨
          a.tag? 8 ≠ some (Tag.allocated 8) then .error .badPrologue
      else Heap.walkBlocks a firstBlock false #[] := by
  rw [Heap.checkBlocks]
  by_cases hb : a.brk < heapOverhead ∨ a.brk % alignment ≠ 0
  · rw [if_pos hb, if_pos (hb.elim Or.inl fun h => Or.inr (Or.inl h))]
    rfl
  · obtain ⟨hlo, hal⟩ := not_or.mp hb
    have h16 : 16 ≤ a.brk := by simp only [heapOverhead] at hlo; omega
    obtain ⟨t4, h4⟩ : ∃ t, a.tag? 4 = some t := Arena.tag?_isSome hm (by omega)
    obtain ⟨t8, h8⟩ : ∃ t, a.tag? 8 = some t := Arena.tag?_isSome hm (by omega)
    rw [if_neg hb]
    simp only [prologue, wordBytes, tagOverhead, Heap.checkedTag_eq, h4, h8, hlo, hal, false_or,
      Option.some.injEq, ne_eq]
    by_cases h4' : t4 = Tag.allocated 8 <;> by_cases h8' : t8 = Tag.allocated 8 <;>
      simp [h4', h8', bind, Except.bind, throw, throwThe, MonadExceptOf.throw]

/-- On an arena whose bytes hold its break, within 32-bit offsets, the prologue checks and the
block walk accept exactly the tiled arenas, and answer their free blocks in address order. -/
theorem checkBlocks_ok_iff (hm : a.brk ≤ a.memory.size) (ha : a.brk ≤ addressable)
    {free : Array Nat} :
    Heap.checkBlocks a = .ok free ↔ ∃ bs, Tiled a bs ∧ free.toList = freePtrs bs := by
  have hwb : a.brk < wordBound := by
    have : 0 < wordBound := by decide
    simp only [addressable] at ha
    omega
  rw [checkBlocks_eq hm]
  constructor
  · intro h
    split_ifs at h with hpro
    simp only [not_or, not_lt, not_not] at hpro
    obtain ⟨h16, -, h4, h8⟩ := hpro
    obtain ⟨bs, hti, hep, hsep, hfree⟩ := (Walked.start h16).walkBlocks_ok hwb h
    exact ⟨bs, ⟨h4, h8, hti, hep, hsep⟩, hfree⟩
  · rintro ⟨bs, ht, hfree⟩
    have hle := ht.tiling.le
    obtain ⟨free', hw, hfree'⟩ := (Walked.start hle.1).walkBlocks_tiled hwb ht.tiling ht.epilogue
      (by simpa using ht.separated)
    have hpro : ¬ (a.brk < heapOverhead ∨ a.brk % alignment ≠ 0 ∨
        a.tag? 4 ≠ some (Tag.allocated 8) ∨ a.tag? 8 ≠ some (Tag.allocated 8)) := by
      have := hle.2 rfl
      simp only [heapOverhead, alignment, firstBlock] at hle this ⊢
      simp [ht.prologueHeader, ht.prologueFooter, this]
      omega
    rw [if_neg hpro, hw, Array.toList_inj.mp (hfree'.trans (by simpa using hfree.symm))]

/-- Every error of the prologue checks and the block walk, on an arena whose bytes hold its
break within 32-bit offsets, names a rule the arena breaks. -/
theorem checkBlocks_error (hm : a.brk ≤ a.memory.size) (ha : a.brk ≤ addressable)
    {e : CheckError} (h : Heap.checkBlocks a = .error e) : e.Breaks a := by
  have hwb : a.brk < wordBound := by
    have : 0 < wordBound := by decide
    simp only [addressable] at ha
    omega
  rw [checkBlocks_eq hm] at h
  split_ifs at h with hpro
  · cases h
    exact hpro
  · simp only [not_or, not_lt, not_not] at hpro
    exact (Walked.start hpro.1).walkBlocks_error hm hwb h

/-- On any arena, the prologue checks either refuse it, as damaged or as unreadable at the
prologue, or hand it to the block walk from the first block, having met nothing. -/
theorem checkBlocks_cases (a : Arena) :
    (∃ e, Heap.checkBlocks a = .error e ∧ (e = .badPrologue ∨ e = .outOfBounds prologue)) ∨
      Heap.checkBlocks a = Heap.walkBlocks a firstBlock false #[] := by
  rw [Heap.checkBlocks]
  simp only [Heap.checkedTag_eq, bind, Except.bind, throw, throwThe, MonadExceptOf.throw]
  split_ifs
  · exact .inl ⟨_, rfl, .inl rfl⟩
  cases h₁ : a.tag? (prologue - wordBytes) with
  | none => exact .inl ⟨_, rfl, .inr rfl⟩
  | some t₁ =>
  dsimp only
  split_ifs
  · exact .inl ⟨_, rfl, .inl rfl⟩
  cases h₂ : a.tag? (prologue + tagOverhead - tagOverhead) with
  | none => exact .inl ⟨_, rfl, .inr rfl⟩
  | some t₂ =>
  dsimp only
  split_ifs
  · exact .inl ⟨_, rfl, .inl rfl⟩
  · exact .inr rfl

/-- The prologue checks and the block walk never report a misaligned block, on any arena. -/
theorem checkBlocks_ne_misaligned (p : Nat) : Heap.checkBlocks a ≠ .error (.misaligned p) := by
  rcases checkBlocks_cases a with ⟨e, he, rfl | rfl⟩ | hw
  · rw [he]
    simp
  · rw [he]
    simp
  · rw [hw]
    exact walkBlocks_ne_misaligned rfl false #[] p

end Allocator
