/-! Arena memory is a byte array that the allocator reads and writes in little-endian
32-bit words. Every access names the bytes it touches and the limit below which bytes
may be used; an access past that limit, or an offset computed below zero, is a `Fault`:
the point where the allocator stops instead of answering. The word codec is stated on
byte values so that a word written and read back at the same place is the same word,
and a word write leaves every word beside it alone. Byte arrays are compared in place:
`sameBytes` is equality, and `firstDifference` finds nothing exactly when two ranges read
alike. A start extended by copies of itself reads, at every position, the start's byte at
that position modulo its length. -/
namespace Allocator

/-- Why a computation stopped without an answer. Each constructor is a place where the
allocator has no defined next step; callers report all of them the same way. -/
inductive Fault where
  /-- Bytes `start` to `stop` (exclusive) were touched, but only bytes below the limit
  may be. -/
  | outOfBounds (start stop : Nat)
  /-- An offset computation went below zero. -/
  | underflow
  /-- A value too wide for a 32-bit word was to be stored. -/
  | tooWide (value : Nat)
  /-- A walk along free-list links returned to a block it had already left, so it
  would never end. -/
  | endless
  /-- A condition that the caller had to guarantee did not hold. -/
  | unmet (condition : String)
deriving Repr, DecidableEq

/-- Bytes per word. -/
def wordBytes : Nat := 4

/-- One more than the largest value a word holds, `2^32`. It is kept as one shared value, so
that compiled code loads it instead of rebuilding the literal at every use. -/
@[noinline] def wordBound : Nat := 4294967296

/-- Subtract `b` from `a`, stopping when the result would be negative. -/
def offsetBelow (a b : Nat) : Except Fault Nat :=
  if b ≤ a then .ok (a - b) else .error .underflow

/-- The value of four bytes, least significant first. -/
@[inline] def wordValue (b0 b1 b2 b3 : UInt8) : Nat :=
  b0.toNat + 256 * (b1.toNat + 256 * (b2.toNat + 256 * b3.toNat))

/-- The word in bytes `pos` to `pos + 3` of `m`, when all four lie below `limit` and
inside `m`. -/
@[inline] def readWord? (m : ByteArray) (limit pos : Nat) : Option Nat :=
  if h : pos + 4 ≤ limit ∧ pos + 4 ≤ m.size then
    have : pos + 4 ≤ m.size := h.2
    some (wordValue m[pos] m[pos + 1] m[pos + 2] m[pos + 3])
  else none

/-- The word at `pos`, or a fault when its bytes are not all below `limit`. -/
def readWord (m : ByteArray) (limit pos : Nat) : Except Fault Nat :=
  match readWord? m limit pos with
  | some w => .ok w
  | none => .error (.outOfBounds pos (pos + 4))

/-- Byte `k` (0 to 3) of the 32-bit value `v`, least significant first. -/
def wordByte (v k : Nat) : UInt8 :=
  (v / Nat.pow 256 k % 256).toUInt8

/-- Store `v` as the word at `pos`. A value of 2^32 or more does not fit a word, and
bytes at or past `limit` may not be written. -/
def writeWord (m : ByteArray) (limit pos v : Nat) : Except Fault ByteArray :=
  if v ≥ wordBound then .error (.tooWide v)
  else if pos + 4 ≤ limit ∧ pos + 4 ≤ m.size then
    .ok ((((m.set! pos (wordByte v 0)).set! (pos + 1) (wordByte v 1)).set! (pos + 2)
      (wordByte v 2)).set! (pos + 3) (wordByte v 3))
  else .error (.outOfBounds pos (pos + 4))

theorem toNat_wordByte (v k : Nat) : (wordByte v k).toNat = v / Nat.pow 256 k % 256 := by
  simp [wordByte, Nat.toUInt8]

theorem wordValue_lt (b0 b1 b2 b3 : UInt8) : wordValue b0 b1 b2 b3 < wordBound := by
  have h0 := b0.toNat_lt
  have h1 := b1.toNat_lt
  have h2 := b2.toNat_lt
  have h3 := b3.toNat_lt
  simp only [wordValue, wordBound]
  omega

/-- Splitting a word into its four bytes and joining them again gives the word back. -/
theorem wordValue_wordByte (v : Nat) (hv : v < wordBound) :
    wordValue (wordByte v 0) (wordByte v 1) (wordByte v 2) (wordByte v 3) = v := by
  have p0 : Nat.pow 256 0 = 1 := rfl
  have p1 : Nat.pow 256 1 = 256 := rfl
  have p2 : Nat.pow 256 2 = 65536 := rfl
  have p3 : Nat.pow 256 3 = 16777216 := rfl
  simp only [wordValue, toNat_wordByte, wordBound, p0, p1, Nat.div_one, p2, p3] at *
  omega

/-- A word write succeeds only for a value that fits, at a place below the limit and
inside the array, and then it sets the four bytes of the value. -/
theorem writeWord_eq_ok {m m' : ByteArray} {limit pos v : Nat}
    (h : writeWord m limit pos v = .ok m') :
    v < wordBound ∧ pos + 4 ≤ limit ∧ pos + 4 ≤ m.size ∧
      m' = (((m.set! pos (wordByte v 0)).set! (pos + 1) (wordByte v 1)).set! (pos + 2)
        (wordByte v 2)).set! (pos + 3) (wordByte v 3) := by
  unfold writeWord at h
  split at h
  · contradiction
  · split at h
    · rename_i hv hr
      exact ⟨by omega, hr.1, hr.2, (Except.ok.inj h).symm⟩
    · contradiction

theorem size_writeWord {m m' : ByteArray} {limit pos v : Nat}
    (h : writeWord m limit pos v = .ok m') : m'.size = m.size := by
  obtain ⟨-, -, -, rfl⟩ := writeWord_eq_ok h
  simp only [ByteArray.size_set!]

/-- After a word write, the four written positions hold the bytes of the value and every
other position holds what it held before. -/
theorem getElem?_writeWord {m m' : ByteArray} {limit pos v : Nat}
    (h : writeWord m limit pos v = .ok m') (j : Nat) :
    m'[j]? = if pos ≤ j ∧ j < pos + 4 then some (wordByte v (j - pos)) else m[j]? := by
  have hsize := size_writeWord h
  obtain ⟨-, -, hs, rfl⟩ := writeWord_eq_ok h
  rw [getElem?_def, getElem?_def]
  by_cases hj : j < m.size
  · simp only [ByteArray.size_set!, hj, dite_true]
    simp (disch := (try simp only [ByteArray.size_set!]); omega) only [ByteArray.getElem_set!]
    by_cases h0 : pos = j
    · subst h0; simp
    by_cases h1 : pos + 1 = j
    · subst h1; simp
    by_cases h2 : pos + 2 = j
    · subst h2; simp
    by_cases h3 : pos + 3 = j
    · subst h3; simp
    have : ¬ (pos ≤ j ∧ j < pos + 4) := by omega
    simp [h0, h1, h2, h3, this]
  · have : ¬ (pos ≤ j ∧ j < pos + 4) := by omega
    simp [ByteArray.size_set!, hj, this]

/-- `getElem?_writeWord` for a position known to be inside the array. -/
theorem getElem_writeWord {m m' : ByteArray} {limit pos v : Nat}
    (h : writeWord m limit pos v = .ok m') (j : Nat) (hj : j < m'.size) :
    m'[j] = if pos ≤ j ∧ j < pos + 4 then wordByte v (j - pos)
      else m.get j (by rw [← size_writeWord h]; exact hj) := by
  have e := getElem?_writeWord h j
  rw [getElem?_pos m' j hj, getElem?_pos m j (by rw [← size_writeWord h]; exact hj)] at e
  split at e
  · rename_i hr; rw [if_pos hr]; exact Option.some.inj e
  · rename_i hr; rw [if_neg hr]; exact Option.some.inj e

/-- A word written at a place reads back as the same word. -/
theorem readWord?_writeWord {m m' : ByteArray} {limit pos v : Nat}
    (h : writeWord m limit pos v = .ok m') : readWord? m' limit pos = some v := by
  obtain ⟨hv, hl, hs, -⟩ := writeWord_eq_ok h
  have hsize := size_writeWord h
  unfold readWord?
  rw [dif_pos ⟨hl, by omega⟩]
  have e0 : pos ≤ pos ∧ pos < pos + 4 := by omega
  have e1 : pos ≤ pos + 1 ∧ pos + 1 < pos + 4 := by omega
  have e2 : pos ≤ pos + 2 ∧ pos + 2 < pos + 4 := by omega
  have e3 : pos ≤ pos + 3 ∧ pos + 3 < pos + 4 := by omega
  dsimp only
  rw [getElem_writeWord h pos, if_pos e0, getElem_writeWord h (pos + 1), if_pos e1,
    getElem_writeWord h (pos + 2), if_pos e2, getElem_writeWord h (pos + 3), if_pos e3,
    Nat.sub_self, Nat.add_sub_cancel_left, Nat.add_sub_cancel_left, Nat.add_sub_cancel_left,
    wordValue_wordByte v hv]

/-- A word write leaves every word that does not overlap it as it was. -/
theorem readWord?_writeWord_of_disjoint {m m' : ByteArray} {limit pos v q : Nat}
    (h : writeWord m limit pos v = .ok m') (hq : q + 4 ≤ pos ∨ pos + 4 ≤ q) :
    readWord? m' limit q = readWord? m limit q := by
  have hsize := size_writeWord h
  unfold readWord?
  by_cases hb : q + 4 ≤ limit ∧ q + 4 ≤ m.size
  · rw [dif_pos ⟨hb.1, by omega⟩, dif_pos hb]
    have e0 : ¬ (pos ≤ q ∧ q < pos + 4) := by omega
    have e1 : ¬ (pos ≤ q + 1 ∧ q + 1 < pos + 4) := by omega
    have e2 : ¬ (pos ≤ q + 2 ∧ q + 2 < pos + 4) := by omega
    have e3 : ¬ (pos ≤ q + 3 ∧ q + 3 < pos + 4) := by omega
    dsimp only
    rw [getElem_writeWord h q, if_neg e0, getElem_writeWord h (q + 1), if_neg e1,
      getElem_writeWord h (q + 2), if_neg e2, getElem_writeWord h (q + 3), if_neg e3]
    rfl
  · rw [dif_neg (by omega), dif_neg hb]

/-- The bytes `start` to `start + len` of `m`, when they lie below `limit`. -/
def readBytes (m : ByteArray) (limit start len : Nat) : Except Fault ByteArray :=
  if start + len ≤ limit ∧ start + len ≤ m.size then .ok (m.extract start (start + len))
  else .error (.outOfBounds start (start + len))

/-- Overwrite the bytes from `start` on with `src`, when they lie below `limit`. -/
def writeBytes (m : ByteArray) (limit start : Nat) (src : ByteArray) :
    Except Fault ByteArray :=
  if start + src.size ≤ limit ∧ start + src.size ≤ m.size then
    .ok (src.copySlice 0 m start src.size)
  else .error (.outOfBounds start (start + src.size))

/-- Copy `len` bytes from `src` to `dst` within `m`, as if through a separate buffer, so
overlapping ranges are copied faithfully. Both ranges must lie below `limit`. -/
def moveBytes (m : ByteArray) (limit src len dst : Nat) : Except Fault ByteArray := do
  let chunk ← readBytes m limit src len
  writeBytes m limit dst chunk

/-- Set the bytes `start` to `start + len` to `b`, when they lie below `limit`. -/
def fillBytes (m : ByteArray) (limit start len : Nat) (b : UInt8) : Except Fault ByteArray :=
  if start + len ≤ limit ∧ start + len ≤ m.size then .ok (fillRun m start len b)
  else .error (.outOfBounds start (start + len))
where
  /-- Set `len` bytes from `start` on, lowest position first. -/
  fillRun (m : ByteArray) (start : Nat) : Nat → UInt8 → ByteArray
    | 0, _ => m
    | len + 1, b => fillRun (m.set! start b) (start + 1) len b

/-- The first position from `i` on, among the next `n`, at which `a` and `b` differ; a
position that only one of them has counts as a difference. Compares in place, without
copying either array. -/
def firstDifference (a b : ByteArray) (i : Nat) : Nat → Option Nat
  | 0 => none
  | n + 1 =>
    if ha : i < a.size then
      if hb : i < b.size then
        if a[i] = b[i] then firstDifference a b (i + 1) n else some i
      else some i
    else if i < b.size then some i else none

/-- Whether two byte arrays hold the same bytes. -/
def sameBytes (a b : ByteArray) : Bool :=
  a.size == b.size && (firstDifference a b 0 a.size).isNone

/-- No difference is found exactly when the two arrays read alike at every position of
the range searched, a position past the end reading as nothing. -/
theorem firstDifference_eq_none_iff (a b : ByteArray) (i n : Nat) :
    firstDifference a b i n = none ↔ ∀ j, i ≤ j → j < i + n → a[j]? = b[j]? := by
  induction n generalizing i with
  | zero =>
    simp only [firstDifference, true_iff]
    intro j h1 h2
    omega
  | succ n ih =>
    unfold firstDifference
    by_cases ha : i < a.size
    · by_cases hb : i < b.size
      · rw [dif_pos ha, dif_pos hb]
        by_cases e : a[i] = b[i]
        · rw [if_pos e, ih]
          constructor
          · intro h j h1 h2
            by_cases hj : j = i
            · subst hj; rw [getElem?_pos a j ha, getElem?_pos b j hb, e]
            · exact h j (by omega) (by omega)
          · intro h j h1 h2
            exact h j (by omega) (by omega)
        · rw [if_neg e]
          simp only [reduceCtorEq, false_iff, Classical.not_forall]
          refine ⟨i, Nat.le_refl i, by omega, ?_⟩
          rw [getElem?_pos a i ha, getElem?_pos b i hb]
          exact fun h => e (Option.some.inj h)
      · rw [dif_pos ha, dif_neg hb]
        simp only [reduceCtorEq, false_iff, Classical.not_forall]
        refine ⟨i, Nat.le_refl i, by omega, ?_⟩
        rw [getElem?_pos a i ha, getElem?_neg b i hb]
        simp
    · rw [dif_neg ha]
      by_cases hb : i < b.size
      · rw [if_pos hb]
        simp only [reduceCtorEq, false_iff, Classical.not_forall]
        refine ⟨i, Nat.le_refl i, by omega, ?_⟩
        rw [getElem?_neg a i ha, getElem?_pos b i hb]
        simp
      · rw [if_neg hb]
        simp only [true_iff]
        intro j h1 _
        rw [getElem?_neg a j (by omega), getElem?_neg b j (by omega)]



theorem getElem?_data (a : ByteArray) (i : Nat) : a.data[i]? = a[i]? := by
  rw [getElem?_def, getElem?_def]
  rfl

/-- `sameBytes` is equality of byte arrays. -/
theorem sameBytes_iff (a b : ByteArray) : sameBytes a b = true ↔ a = b := by
  unfold sameBytes
  simp only [Bool.and_eq_true, beq_iff_eq, Option.isNone_iff_eq_none,
    firstDifference_eq_none_iff, Nat.zero_le, Nat.zero_add, true_implies]
  constructor
  · rintro ⟨hs, h⟩
    apply ByteArray.ext
    apply Array.ext_getElem?
    intro i
    rw [getElem?_data, getElem?_data]
    by_cases hi : i < a.size
    · exact h i hi
    · rw [getElem?_neg a i hi, getElem?_neg b i (by omega)]
  · rintro rfl
    exact ⟨rfl, fun _ _ => rfl⟩

/-- Reading an array with one byte pushed. -/
theorem getElem?_push_bytes (a : ByteArray) (x : UInt8) (j : Nat) :
    (a.push x)[j]? = if j < a.size then a[j]? else if j = a.size then some x else none := by
  rw [← getElem?_data, ← getElem?_data]
  show (a.data.push x)[j]? = _
  rw [Array.getElem?_push]
  by_cases hj : j < a.size
  · rw [if_neg (show j ≠ a.data.size by show j ≠ a.size; omega), if_pos hj]
  · rw [if_neg hj]
    by_cases he : j = a.size
    · rw [if_pos (show j = a.data.size from he), if_pos he]
    · rw [if_neg (show ¬ j = a.data.size from he), if_neg he]
      exact Array.getElem?_eq_none (by show a.size ≤ j; omega)

/-- Extend `b`, whose length is a whole number of periods of a periodic sequence, to the
first `n` terms of that sequence by appending copies of its own prefix; each round at
least doubles the length, so `fuel` of `n` rounds is more than enough. -/
def extendPeriodic (b : ByteArray) (n : Nat) : Nat → ByteArray
  | 0 => b
  | fuel + 1 => if n ≤ b.size then b else extendPeriodic (b ++ b.extract 0 (n - b.size)) n fuel

/-- Reading an appended array: the left part, then the right part. -/
theorem getElem?_append_bytes (a b : ByteArray) (j : Nat) :
    (a ++ b)[j]? = if j < a.size then a[j]? else b[j - a.size]? := by
  by_cases hj : j < (a ++ b).size
  · rw [getElem?_pos (a ++ b) j hj]
    by_cases ha : j < a.size
    · rw [if_pos ha, getElem?_pos a j ha, ByteArray.getElem_append_left ha]
    · rw [if_neg ha, ByteArray.getElem_append_right (by omega)]
      rw [ByteArray.size_append] at hj
      rw [getElem?_pos b (j - a.size) (by omega)]
  · rw [getElem?_neg (a ++ b) j hj]
    rw [ByteArray.size_append] at hj
    split
    · omega
    · rw [getElem?_neg b (j - a.size) (by omega)]

/-- Reading a prefix copy. -/
theorem getElem?_extract_zero (a : ByteArray) (k j : Nat) :
    (a.extract 0 k)[j]? = if j < k then a[j]? else none := by
  by_cases hj : j < (a.extract 0 k).size
  · have hs := hj
    rw [ByteArray.size_extract] at hs
    rw [getElem?_pos _ j hj, ByteArray.getElem_extract, if_pos (show j < k by omega)]
    simp only [Nat.zero_add]
    exact (getElem?_pos a j (by omega)).symm
  · have hs := hj
    rw [ByteArray.size_extract] at hs
    rw [getElem?_neg _ j hj]
    split
    · rw [getElem?_neg a j (by omega)]
    · rfl

/-- The state that `extendPeriodic` keeps: every byte read so far is the byte of `b` at
the same position modulo `b.size`, and either the array is a whole number of periods or
it already reaches `n`. -/
theorem getElem?_extendPeriodic_of (b : ByteArray) (n : Nat) :
    ∀ (fuel : Nat) (acc : ByteArray), (∀ j, j < acc.size → acc[j]? = b[j % b.size]?) →
      (acc.size % b.size = 0 ∨ n ≤ acc.size) →
      ∀ j, j < (extendPeriodic acc n fuel).size →
        (extendPeriodic acc n fuel)[j]? = b[j % b.size]? := by
  intro fuel
  induction fuel with
  | zero => intro acc hc _ j hj; exact hc j hj
  | succ fuel ih =>
    intro acc hc hw j hj
    unfold extendPeriodic at hj ⊢
    by_cases hn : n ≤ acc.size
    · rw [if_pos hn] at hj ⊢
      exact hc j hj
    · rw [if_neg hn] at hj ⊢
      have hm : acc.size % b.size = 0 := by omega
      refine ih _ ?_ ?_ j hj
      · intro i hi
        rw [ByteArray.size_append, ByteArray.size_extract] at hi
        rw [getElem?_append_bytes]
        split
        · exact hc i (by omega)
        · rw [getElem?_extract_zero, if_pos (show i - acc.size < n - acc.size by omega),
            hc (i - acc.size) (by omega)]
          have e : i = (i - acc.size) + acc.size := by omega
          have e2 : i % b.size = (i - acc.size) % b.size := by
            conv => lhs; rw [e]
            rw [Nat.add_mod, hm, Nat.add_zero, Nat.mod_mod]
          rw [e2]
      · rw [ByteArray.size_append, ByteArray.size_extract]
        by_cases hk : acc.size ≤ n - acc.size
        · left
          rw [show acc.size + (min (n - acc.size) acc.size - 0) = acc.size + acc.size by omega, Nat.add_mod,
            hm]
          simp
        · right
          omega

/-- Extending enough rounds reaches `n` bytes, or keeps a longer start as it is. -/
theorem size_extendPeriodic (n : Nat) :
    ∀ (fuel : Nat) (c : ByteArray), 0 < c.size → n ≤ c.size * Nat.pow 2 fuel →
      (extendPeriodic c n fuel).size = max n c.size := by
  intro fuel
  induction fuel with
  | zero =>
    intro c _ hf
    simp only [Nat.pow_eq, Nat.pow_zero, Nat.mul_one] at hf
    simp only [extendPeriodic]
    omega
  | succ fuel ih =>
    intro c hc hf
    unfold extendPeriodic
    by_cases hn : n ≤ c.size
    · rw [if_pos hn]; omega
    · rw [if_neg hn]
      have hs : (c ++ c.extract 0 (n - c.size)).size = c.size + min (n - c.size) c.size := by
        rw [ByteArray.size_append, ByteArray.size_extract, Nat.sub_zero]
      rw [ih _ (by omega) ?_, hs]
      · omega
      · rw [hs]
        by_cases hk : c.size ≤ n - c.size
        · rw [show c.size + min (n - c.size) c.size = c.size + c.size by omega]
          rw [Nat.pow_eq, Nat.pow_succ, ← Nat.mul_assoc, Nat.mul_two] at hf
          rw [Nat.pow_eq, Nat.add_mul]
          exact hf
        · rw [show c.size + min (n - c.size) c.size = n by omega]
          exact Nat.le_mul_of_pos_right n (Nat.two_pow_pos fuel)

/-- Extending a start `b` to `n` bytes, with enough rounds, reads at every position the
byte of `b` at that position modulo its length. -/
theorem getElem?_extendPeriodic (b : ByteArray) (n fuel : Nat) (hb : 0 < b.size)
    (hbn : b.size ≤ n) (hf : n ≤ b.size * Nat.pow 2 fuel) (j : Nat) :
    (extendPeriodic b n fuel)[j]? = if j < n then b[j % b.size]? else none := by
  have hs := size_extendPeriodic n fuel b hb hf
  split
  · exact getElem?_extendPeriodic_of b n fuel b (fun i hi => by rw [Nat.mod_eq_of_lt hi])
      (by left; exact Nat.mod_self _) j (by omega)
  · exact getElem?_neg _ j (by omega)

/-- `n` copies of the byte `b`. -/
def repeatByte (b : UInt8) (n : Nat) : ByteArray :=
  go n (ByteArray.emptyWithCapacity n)
where
  /-- Append `k` more copies to `acc`. -/
  go : Nat → ByteArray → ByteArray
    | 0, acc => acc
    | k + 1, acc => go k (acc.push b)

end Allocator
