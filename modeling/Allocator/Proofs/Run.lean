import Allocator.Heap.Request
import Allocator.Proofs.Bytes

/-! Heap programs run one step at a time. A `HeapM` program applied to a heap either
faults or answers with the heap it leaves, and a bind runs its second part on that heap; a
request (`RequestM`) also carries a refusal through, keeping the heap reached. Every
primitive gets one lemma that says what it does to a heap whose arena holds the bytes below
its break: a read below the break answers the word there and leaves the heap alone, and a
write below the break answers a heap that differs from the old one only in the bytes
written (`Edits`). Later proofs cite these lemmas and never unfold a primitive. -/
namespace Allocator

namespace Arena

/-- The byte at `j` has its low bit set. At the first byte of a tag word this is the bit
that marks the block allocated. -/
def Marked (a : Arena) (j : Nat) : Prop := ∃ x, a.memory[j]? = some x ∧ x.toNat % 2 = 1

/-- The first byte of a word that reads is marked exactly when the word is odd. -/
theorem marked_iff_of_word? {a : Arena} {q w : Nat} (hw : a.word? q = some w) :
    a.Marked q ↔ w % 2 = 1 := by
  obtain ⟨hq, hp⟩ := readWord?_parity hw
  constructor
  · rintro ⟨x, hx, hodd⟩
    rw [getElem?_pos a.memory q hq, Option.some.injEq] at hx
    rw [← hp, hx]
    exact hodd
  · intro hodd
    exact ⟨_, getElem?_pos a.memory q hq, by omega⟩

end Arena

theorem Tag.pack_mod_two (t : Tag) : t.pack % 2 = if t.state = .allocated then 1 else 0 := by
  obtain ⟨size, state⟩ := t
  cases state <;> simp only [Tag.pack, reduceCtorEq, if_false, if_true] <;> omega

namespace Heap

section Monad

variable {α β : Type}

theorem bind_apply (x : HeapM α) (f : α → HeapM β) (h : Heap) :
    (x >>= f) h = match x h with
      | .ok (a, h') => f a h'
      | .error e => .error e := by
  show StateT.bind x f h = _
  simp only [StateT.bind]
  cases x h <;> rfl

theorem bind_apply_ok {x : HeapM α} {f : α → HeapM β} {h h' : Heap} {a : α}
    (hx : x h = .ok (a, h')) : (x >>= f) h = f a h' := by
  rw [bind_apply, hx]

theorem pure_apply (a : α) (h : Heap) : (pure a : HeapM α) h = .ok (a, h) := rfl

theorem get_apply (h : Heap) : (get : HeapM Heap) h = .ok (h, h) := rfl

theorem modify_apply (f : Heap → Heap) (h : Heap) :
    (modify f : HeapM Unit) h = .ok ((), f h) := rfl

theorem stop_apply (f : Fault) (h : Heap) : (stop f : HeapM α) h = .error f := rfl

theorem discard_apply_ok {x : HeapM α} {h h' : Heap} {a : α} (hx : x h = .ok (a, h')) :
    (discard x) h = .ok ((), h') := by
  simp only [discard, Functor.mapConst, Function.comp]
  show StateT.map _ x h = _
  simp [StateT.map, hx]

theorem run_bind (x : RequestM α) (f : α → RequestM β) (h : Heap) :
    run (x >>= f) h = match run x h with
      | .ok (.ok a, h') => run (f a) h'
      | .ok (.error e, h') => .ok (.error e, h')
      | .error e => .error e := by
  simp only [run, ExceptT.run, StateT.run, bind, ExceptT.bind, ExceptT.mk]
  show StateT.bind x _ h = _
  simp only [StateT.bind]
  cases x h with
  | error e => rfl
  | ok p =>
    obtain ⟨r, h'⟩ := p
    cases r <;> rfl

theorem run_bind_ok {x : RequestM α} {f : α → RequestM β} {h h' : Heap} {a : α}
    (hx : run x h = .ok (.ok a, h')) : run (x >>= f) h = run (f a) h' := by
  rw [run_bind, hx]

theorem run_bind_error {x : RequestM α} {f : α → RequestM β} {h h' : Heap} {e : HeapError}
    (hx : run x h = .ok (.error e, h')) : run (x >>= f) h = .ok (.error e, h') := by
  rw [run_bind, hx]

theorem run_lift (m : HeapM α) (h : Heap) :
    run (liftM m : RequestM α) h = match m h with
      | .ok (a, h') => .ok (.ok a, h')
      | .error e => .error e := by
  simp only [run, ExceptT.run, StateT.run, liftM, monadLift, MonadLift.monadLift, ExceptT.lift,
    ExceptT.mk]
  show StateT.map _ m h = _
  simp only [StateT.map]
  cases m h <;> rfl

theorem run_lift_ok {m : HeapM α} {h h' : Heap} {a : α} (hm : m h = .ok (a, h')) :
    run (liftM m : RequestM α) h = .ok (.ok a, h') := by
  rw [run_lift, hm]

theorem run_pure (a : α) (h : Heap) : run (pure a : RequestM α) h = .ok (.ok a, h) := rfl

theorem run_throw (e : HeapError) (h : Heap) :
    run (throw e : RequestM α) h = .ok (.error e, h) := rfl

theorem run_get (h : Heap) : run (get : RequestM Heap) h = .ok (.ok h, h) := rfl

theorem run_tryCatch (x : RequestM α) (c : HeapError → RequestM α) (h : Heap) :
    run (tryCatch x c) h = match run x h with
      | .ok (.ok a, h') => .ok (.ok a, h')
      | .ok (.error e, h') => run (c e) h'
      | .error e => .error e := by
  simp only [run, ExceptT.run, StateT.run, tryCatch, MonadExcept.tryCatch, tryCatchThe,
    MonadExceptOf.tryCatch, ExceptT.tryCatch, ExceptT.mk]
  show StateT.bind x _ h = _
  simp only [StateT.bind]
  cases x h with
  | error e => rfl
  | ok p =>
    obtain ⟨r, h'⟩ := p
    cases r <;> rfl

theorem run_modify (f : Heap → Heap) (h : Heap) :
    run (modify f : RequestM Unit) h = .ok (.ok (), f h) := rfl

/-- A request whose answer is discarded is served, refused or faults as it does. -/
theorem run_discard (x : RequestM α) (h : Heap) :
    run (discard x) h = match run x h with
      | .ok (.ok _, h') => .ok (.ok (), h')
      | .ok (.error e, h') => .ok (.error e, h')
      | .error e => .error e := by
  simp only [discard, Functor.mapConst, Function.comp, run, ExceptT.run, StateT.run, ExceptT.map,
    ExceptT.mk]
  show StateT.bind x _ h = _
  simp only [StateT.bind]
  cases x h with
  | error e => rfl
  | ok p =>
    obtain ⟨r, h'⟩ := p
    cases r <;> rfl

end Monad

/-- `h'` is `h` with at most the arena bytes at the positions in `S` changed, and possibly
the free-list tail: the break, the ceiling, the growth schedule, the configuration and the
counters are the same, and so is the size of the arena's memory. -/
structure Edits (S : Set Nat) (h h' : Heap) : Prop where
  arena : h'.arena = { h.arena with memory := h'.arena.memory }
  config : h'.config = h.config
  counters : h'.counters = h.counters
  size : h'.arena.memory.size = h.arena.memory.size
  bytes : ∀ j, j ∉ S → h'.arena.memory[j]? = h.arena.memory[j]?

namespace Edits

variable {S T : Set Nat} {h h₁ h₂ : Heap}

theorem refl (S : Set Nat) (h : Heap) : Edits S h h :=
  ⟨rfl, rfl, rfl, rfl, fun _ _ => rfl⟩

theorem trans (e₁ : Edits S h h₁) (e₂ : Edits T h₁ h₂) : Edits (S ∪ T) h h₂ where
  arena := by rw [e₂.arena, e₁.arena]
  config := e₂.config.trans e₁.config
  counters := e₂.counters.trans e₁.counters
  size := e₂.size.trans e₁.size
  bytes j hj := by
    rw [e₂.bytes j (fun hT => hj (Or.inr hT)), e₁.bytes j (fun hS => hj (Or.inl hS))]

theorem mono (e : Edits S h h₁) (hST : S ⊆ T) : Edits T h h₁ :=
  ⟨e.arena, e.config, e.counters, e.size, fun j hj => e.bytes j (fun hS => hj (hST hS))⟩

theorem brk (e : Edits S h h₁) : h₁.arena.brk = h.arena.brk := by
  rw [e.arena]

theorem maxBytes (e : Edits S h h₁) : h₁.arena.maxBytes = h.arena.maxBytes := by
  rw [e.arena]

theorem backing (e : Edits S h h₁) : h₁.arena.backing = h.arena.backing := by
  rw [e.arena]

theorem refuseFrom (e : Edits S h h₁) : h₁.arena.refuseFrom = h.arena.refuseFrom := by
  rw [e.arena]

theorem attempts (e : Edits S h h₁) : h₁.arena.attempts = h.arena.attempts := by
  rw [e.arena]

theorem word? (e : Edits S h h₁) {q : Nat} (hq : ∀ j, q ≤ j → j < q + 4 → j ∉ S) :
    h₁.arena.word? q = h.arena.word? q := by
  simp only [Arena.word?, e.brk]
  exact readWord?_congr fun j h1 h2 => e.bytes j (hq j h1 h2)

theorem setTail (S : Set Nat) (h : Heap) (t : Option Nat) : Edits S h { h with tail := t } :=
  ⟨rfl, rfl, rfl, rfl, fun _ _ => rfl⟩

theorem word?_of_apart (e : Edits S h h₁) {q : Nat} (hq : ∀ j ∈ S, j < q ∨ q + 4 ≤ j) :
    h₁.arena.word? q = h.arena.word? q :=
  e.word? fun j h1 h2 hj => by have := hq j hj; omega

end Edits

/-- From `h` to `h'`, every position `≡ 4 (mod 8)` marked in `h'` was marked in `h` and is
not in `W`, or lies in `A`: the marks at `W` were cleared and those at `A` may be new. Header
words start at such positions, so this tracks where an allocated tag can be read. -/
def Marks (W A : Set Nat) (h h' : Heap) : Prop :=
  ∀ j, j % 8 = 4 → h'.arena.Marked j → (h.arena.Marked j ∧ j ∉ W) ∨ j ∈ A

namespace Marks

variable {W W' A A' : Set Nat} {h h₁ h₂ : Heap}

theorem refl (A : Set Nat) (h : Heap) : Marks ∅ A h h :=
  fun _ _ hj => .inl ⟨hj, id⟩

theorem trans (m₁ : Marks W A h h₁) (m₂ : Marks W' A' h₁ h₂) : Marks (W ∪ W') (A ∪ A') h h₂ := by
  intro j hj hm
  rcases m₂ j hj hm with ⟨hm₁, hw'⟩ | ha'
  · rcases m₁ j hj hm₁ with ⟨hm₀, hw⟩ | ha
    · exact .inl ⟨hm₀, fun hw'' => hw''.elim hw hw'⟩
    · exact .inr (.inl ha)
  · exact .inr (.inr ha')

/-- Marks composed, where the second step clears some of the marks the first one made. -/
theorem trans_clear (m₁ : Marks W A h h₁) (m₂ : Marks W' A' h₁ h₂) :
    Marks (W ∪ W') (A \ W' ∪ A') h h₂ := by
  intro j hj hm
  rcases m₂ j hj hm with ⟨hm₁, hw'⟩ | ha'
  · rcases m₁ j hj hm₁ with ⟨hm₀, hw⟩ | ha
    · exact .inl ⟨hm₀, fun hw'' => hw''.elim hw hw'⟩
    · exact .inr (.inl ⟨ha, hw'⟩)
  · exact .inr (.inr ha')

theorem mono (m : Marks W A h h₁) (hW : W' ⊆ W) (hA : ∀ j, j % 8 = 4 → j ∈ A → j ∈ A') :
    Marks W' A' h h₁ := by
  intro j hj hm
  rcases m j hj hm with ⟨hm₀, hw⟩ | ha
  · exact .inl ⟨hm₀, fun hw' => hw (hW hw')⟩
  · exact .inr (hA j hj ha)

end Marks

/-- An edit clears or sets marks only at the words `Q` it covers: a word of `Q` marked
afterwards is odd afterwards, and such words are where new marks may be. -/
theorem Edits.marks {S Q A : Set Nat} {h h' : Heap} (e : Edits S h h')
    (hS : ∀ j ∈ S, j % 8 = 4 → j ∈ Q)
    (hQ : ∀ q ∈ Q, ∃ w, h'.arena.word? q = some w ∧ (w % 2 = 1 → q ∈ A)) :
    Marks Q A h h' := by
  intro j hj hm
  by_cases hjQ : j ∈ Q
  · obtain ⟨w, hw, hA⟩ := hQ j hjQ
    exact .inr (hA ((Arena.marked_iff_of_word? hw).mp hm))
  · have hjS : j ∉ S := fun hjS => hjQ (hS j hjS hj)
    obtain ⟨x, hx, hodd⟩ := hm
    exact .inl ⟨⟨x, by rw [← e.bytes j hjS, hx], hodd⟩, hjQ⟩

/-- The header and footer words of a block at payload offset `bp` with the given size. -/
def tagWords (bp size : Nat) : Set Nat := Set.Ico (bp - 4) bp ∪ Set.Ico (bp + size - 8) (bp + size - 4)

/-- Writing a block's tags changes the mark of its header word only: the header is marked
afterwards exactly when the tag is allocated. -/
theorem Edits.marks_of_tag {bp : Nat} {t : Tag} {h h' : Heap} (e : Edits (tagWords bp t.size) h h')
    (hbp : bp % 8 = 0) (hs : t.size % 8 = 0) (h8 : 8 ≤ t.size)
    (hw : h'.arena.word? (bp - 4) = some t.pack) :
    Marks {bp - 4} {j | j = bp - 4 ∧ t.state = .allocated} h h' :=
  e.marks (fun j hj h4 => by simp only [tagWords, Set.mem_union, Set.mem_Ico] at hj; simp; omega)
    fun q hq => ⟨t.pack, by rw [Set.mem_singleton_iff.mp hq]; exact hw, fun hodd => ⟨hq, by
      rw [Tag.pack_mod_two] at hodd
      split at hodd
      · assumption
      · cases hodd⟩⟩

section Primitives

variable {h : Heap}

theorem word_apply {pos w : Nat} (hw : h.arena.word? pos = some w) : word pos h = .ok (w, h) := by
  simp only [word, Arena.word, readWord]
  rw [show readWord? h.arena.memory h.arena.brk pos = some w from hw]
  rfl

theorem less_apply {a b : Nat} (hb : b ≤ a) : less a b h = .ok (a - b, h) := by
  simp only [less, offsetBelow, if_pos hb]
  rfl

theorem tagAt_apply {bp w : Nat} (h4 : 4 ≤ bp) (hw : h.arena.word? (bp - 4) = some w) :
    tagAt bp h = .ok (Tag.unpack w, h) := by
  rw [tagAt, bind_apply_ok (less_apply h4), bind_apply_ok (word_apply hw), pure_apply]

theorem tagBefore_apply {bp w : Nat} (h8 : 8 ≤ bp) (hw : h.arena.word? (bp - 8) = some w) :
    tagBefore bp h = .ok (Tag.unpack w, h) := by
  rw [tagBefore, bind_apply_ok (less_apply h8), bind_apply_ok (word_apply hw), pure_apply]

theorem nextBlock_apply {bp w : Nat} (h4 : 4 ≤ bp) (hw : h.arena.word? (bp - 4) = some w) :
    nextBlock bp h = .ok (bp + (Tag.unpack w).size, h) := by
  rw [nextBlock, bind_apply_ok (tagAt_apply h4 hw), pure_apply]

theorem prevBlock_apply {bp w : Nat} (h8 : 8 ≤ bp) (hw : h.arena.word? (bp - 8) = some w)
    (hs : (Tag.unpack w).size ≤ bp) : prevBlock bp h = .ok (bp - (Tag.unpack w).size, h) := by
  rw [prevBlock, bind_apply_ok (tagBefore_apply h8 hw), less_apply hs]

theorem link_apply {bp w : Nat} {which : Link} (hw : h.arena.word? (which.offset bp) = some w) :
    link bp which h = .ok (if w = 0 then none else some w, h) := by
  rw [link, bind_apply_ok (word_apply hw), pure_apply]

theorem setTail_apply (t : Option Nat) : setTail t h = .ok ((), { h with tail := t }) := rfl

theorem count_apply (f : Counters → Counters) :
    count f h = .ok ((), { h with counters := f h.counters }) := rfl

/-- A word write below the break and inside the memory edits the four bytes written, and the
word reads back. -/
theorem setWord_apply_of_size {pos v : Nat} (hb : pos + 4 ≤ h.arena.brk)
    (hm : pos + 4 ≤ h.arena.memory.size) (hv : v < wordBound) :
    ∃ h', setWord pos v h = .ok ((), h') ∧ Edits (Set.Ico pos (pos + 4)) h h' ∧
      h'.tail = h.tail ∧ h'.arena.word? pos = some v := by
  obtain ⟨m, hw⟩ : ∃ m, writeWord h.arena.memory h.arena.brk pos v = .ok m := by
    unfold writeWord
    rw [if_neg (by omega), if_pos ⟨hb, hm⟩]
    exact ⟨_, rfl⟩
  refine ⟨{ h with arena := { h.arena with memory := m } }, ?_, ⟨rfl, rfl, rfl, size_writeWord hw,
    fun j hj => ?_⟩, rfl, readWord?_writeWord hw⟩
  · obtain ⟨⟨backing, memory, brk, maxBytes, attempts, refuseFrom⟩, config, tail, counters⟩ := h
    simp only at hw
    simp only [setWord, modifyArena, Arena.setWord, Arena.modifyMemory, hw]
    rfl
  · rw [getElem?_writeWord hw j, if_neg (by simpa [Set.mem_Ico] using hj)]

theorem setWord_apply {pos v : Nat} (hb : pos + 4 ≤ h.arena.brk)
    (hm : h.arena.brk ≤ h.arena.memory.size) (hv : v < wordBound) :
    ∃ h', setWord pos v h = .ok ((), h') ∧ Edits (Set.Ico pos (pos + 4)) h h' ∧
      h'.tail = h.tail ∧ h'.arena.word? pos = some v :=
  setWord_apply_of_size hb (by omega) hv

/-- Writing a tag of at least eight bytes below the break and inside the memory edits exactly
its header and footer words, and both read back as the tag. -/
theorem setTag_apply_of_size (bp : Nat) (t : Tag) (h8 : 8 ≤ t.size) (h4 : 4 ≤ bp)
    (hb : bp + t.size - 4 ≤ h.arena.brk) (hm : bp + t.size - 4 ≤ h.arena.memory.size)
    (hw : t.size < wordBound) :
    ∃ h', setTag bp t h = .ok ((), h') ∧ Edits (tagWords bp t.size) h h' ∧ h'.tail = h.tail ∧
      h'.arena.word? (bp - 4) = some t.pack ∧ h'.arena.word? (bp + t.size - 8) = some t.pack := by
  obtain ⟨h₁, e₁, d₁, t₁, w₁⟩ := setWord_apply_of_size (h := h)
    (show bp - 4 + 4 ≤ h.arena.brk by omega) (show bp - 4 + 4 ≤ h.arena.memory.size by omega)
    t.pack_lt
  obtain ⟨h₂, e₂, d₂, t₂, w₂⟩ := setWord_apply_of_size (h := h₁)
    (show bp + t.size - 8 + 4 ≤ h₁.arena.brk by rw [d₁.brk]; omega)
    (show bp + t.size - 8 + 4 ≤ h₁.arena.memory.size by rw [d₁.size]; omega) t.pack_lt
  refine ⟨h₂, ?_, (d₁.trans d₂).mono ?_, t₂.trans t₁, ?_, w₂⟩
  · unfold setTag
    simp only [ge_iff_le, if_neg (Nat.not_le.mpr hw)]
    rw [bind_apply_ok (less_apply h4), bind_apply_ok e₁, bind_apply_ok (less_apply (by omega)),
      show bp + t.size - 8 = bp + t.size - 8 from rfl, e₂]
  · intro j hj
    simp only [tagWords, Set.mem_union, Set.mem_Ico] at hj ⊢
    omega
  · rw [d₂.word? (fun j _ _ hj => by simp only [Set.mem_Ico] at hj; omega), w₁]

theorem setTag_apply (bp : Nat) (t : Tag) (h8 : 8 ≤ t.size) (h4 : 4 ≤ bp)
    (hb : bp + t.size - 4 ≤ h.arena.brk) (hm : h.arena.brk ≤ h.arena.memory.size)
    (hw : t.size < wordBound) :
    ∃ h', setTag bp t h = .ok ((), h') ∧ Edits (tagWords bp t.size) h h' ∧ h'.tail = h.tail ∧
      h'.arena.word? (bp - 4) = some t.pack ∧ h'.arena.word? (bp + t.size - 8) = some t.pack :=
  setTag_apply_of_size bp t h8 h4 hb (by omega) hw

theorem setEpilogue_apply (bp : Nat) (h4 : 4 ≤ bp) (hb : bp ≤ h.arena.brk)
    (hm : h.arena.brk ≤ h.arena.memory.size) :
    ∃ h', setEpilogue bp h = .ok ((), h') ∧ Edits (Set.Ico (bp - 4) bp) h h' ∧ h'.tail = h.tail ∧
      h'.arena.word? (bp - 4) = some (Tag.allocated 0).pack := by
  obtain ⟨h₁, e₁, d₁, t₁, w₁⟩ := setWord_apply (h := h)
    (show bp - 4 + 4 ≤ h.arena.brk by omega) hm (Tag.pack_lt (Tag.allocated 0))
  refine ⟨h₁, ?_, d₁.mono fun j hj => ?_, t₁, w₁⟩
  · rw [setEpilogue, bind_apply_ok (less_apply h4), e₁]
  · simp only [Set.mem_Ico] at hj ⊢
    omega

theorem setLink_apply (bp : Nat) (which : Link) (target : Option Nat)
    (hb : which.offset bp + 4 ≤ h.arena.brk) (hm : h.arena.brk ≤ h.arena.memory.size)
    (hv : target.getD 0 < wordBound) :
    ∃ h', setLink bp which target h = .ok ((), h') ∧
      Edits (Set.Ico (which.offset bp) (which.offset bp + 4)) h h' ∧ h'.tail = h.tail ∧
      h'.arena.word? (which.offset bp) = some (target.getD 0) :=
  setWord_apply hb hm hv

/-- Writing bytes below the break edits the positions written, which then hold the bytes. -/
theorem write_apply {start : Nat} {src : ByteArray} (hb : start + src.size ≤ h.arena.brk)
    (hm : h.arena.brk ≤ h.arena.memory.size) :
    ∃ h', modifyArena (·.write start src) h = .ok ((), h') ∧
      Edits (Set.Ico start (start + src.size)) h h' ∧ h'.tail = h.tail ∧
      ∀ j, start ≤ j → j < start + src.size → h'.arena.memory[j]? = src[j - start]? := by
  obtain ⟨m, hw⟩ : ∃ m, writeBytes h.arena.memory h.arena.brk start src = .ok m := by
    unfold writeBytes
    rw [if_pos ⟨hb, by omega⟩]
    exact ⟨_, rfl⟩
  refine ⟨{ h with arena := { h.arena with memory := m } }, ?_,
    ⟨rfl, rfl, rfl, size_writeBytes hw, fun j hj => ?_⟩, rfl, fun j h1 h2 => ?_⟩
  · obtain ⟨⟨backing, memory, brk, maxBytes, attempts, refuseFrom⟩, config, tail, counters⟩ := h
    simp only at hw
    simp only [modifyArena, Arena.write, Arena.modifyMemory, hw]
    rfl
  · rw [getElem?_writeBytes hw j, if_neg (by simpa [Set.mem_Ico] using hj)]
  · rw [getElem?_writeBytes hw j, if_pos ⟨h1, h2⟩]

/-- Moving bytes within the break edits the destination, which then holds what the source
held. -/
theorem move_apply (src len dst : Nat) (hs : src + len ≤ h.arena.brk)
    (hd : dst + len ≤ h.arena.brk) (hm : h.arena.brk ≤ h.arena.memory.size) :
    ∃ h', modifyArena (·.move src len dst) h = .ok ((), h') ∧
      Edits (Set.Ico dst (dst + len)) h h' ∧ h'.tail = h.tail ∧
      ∀ j, dst ≤ j → j < dst + len → h'.arena.memory[j]? = h.arena.memory[src + (j - dst)]? := by
  obtain ⟨m, hw⟩ : ∃ m, moveBytes h.arena.memory h.arena.brk src len dst = .ok m := by
    have hr : moveBytes h.arena.memory h.arena.brk src len dst =
        writeBytes h.arena.memory h.arena.brk dst (h.arena.memory.extract src (src + len)) := by
      unfold moveBytes readBytes
      rw [if_pos ⟨hs, by omega⟩]
      rfl
    rw [hr]
    unfold writeBytes
    rw [if_pos (by simp only [ByteArray.size_extract]; omega)]
    exact ⟨_, rfl⟩
  refine ⟨{ h with arena := { h.arena with memory := m } }, ?_,
    ⟨rfl, rfl, rfl, size_moveBytes hw, fun j hj => ?_⟩, rfl, fun j h1 h2 => ?_⟩
  · obtain ⟨⟨backing, memory, brk, maxBytes, attempts, refuseFrom⟩, config, tail, counters⟩ := h
    simp only at hw
    simp only [modifyArena, Arena.move, Arena.modifyMemory, hw]
    rfl
  · rw [getElem?_moveBytes hw j, if_neg (by simpa [Set.mem_Ico] using hj)]
  · rw [getElem?_moveBytes hw j, if_pos ⟨h1, h2⟩]

end Primitives

end Heap

end Allocator
