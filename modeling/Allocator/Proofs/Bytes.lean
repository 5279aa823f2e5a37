import Allocator.Memory
import Mathlib

/-! Byte facts that the heap's proofs share. A word is a function of its four bytes, the
limit and nothing else, so two memories that hold the same four bytes read the same word;
appending bytes past the limit changes no word below it; a copy of bytes into a memory
changes exactly the positions it covers. -/
namespace Allocator

private theorem getElem_eq_of_getElem?_eq {m m' : ByteArray} {j : Nat} (e : m'[j]? = m[j]?)
    (h : j < m.size) (h' : j < m'.size) : m'[j] = m[j] :=
  Option.some.inj (by rw [← getElem?_pos m' j h', e, getElem?_pos m j h])

private theorem lt_size_iff_of_getElem?_eq {m m' : ByteArray} {j : Nat} (e : m'[j]? = m[j]?) :
    j < m'.size ↔ j < m.size := by
  constructor
  · intro h'
    rcases Nat.lt_or_ge j m.size with h | h
    · exact h
    · rw [getElem?_pos m' j h', getElem?_neg m j (by omega)] at e
      cases e
  · intro h
    rcases Nat.lt_or_ge j m'.size with h' | h'
    · exact h'
    · rw [getElem?_pos m j h, getElem?_neg m' j (by omega)] at e
      cases e

/-- A word reads the same from two memories that hold the same bytes at its four
positions. -/
theorem readWord?_congr {m m' : ByteArray} {limit q : Nat}
    (hq : ∀ j, q ≤ j → j < q + 4 → m'[j]? = m[j]?) : readWord? m' limit q = readWord? m limit q := by
  have e0 := hq q (Nat.le_refl q) (by omega)
  have e1 := hq (q + 1) (by omega) (by omega)
  have e2 := hq (q + 2) (by omega) (by omega)
  have e3 := hq (q + 3) (by omega) (by omega)
  have hs := lt_size_iff_of_getElem?_eq e3
  unfold readWord?
  by_cases hb : q + 4 ≤ limit ∧ q + 4 ≤ m.size
  · have hb' : q + 4 ≤ limit ∧ q + 4 ≤ m'.size := ⟨hb.1, by omega⟩
    rw [dif_pos hb, dif_pos hb']
    dsimp only
    congr 2
    · exact getElem_eq_of_getElem?_eq e0 (by omega) (by omega)
    · exact getElem_eq_of_getElem?_eq e1 (by omega) (by omega)
    · exact getElem_eq_of_getElem?_eq e2 (by omega) (by omega)
    · exact getElem_eq_of_getElem?_eq e3 (by omega) (by omega)
  · have hb' : ¬ (q + 4 ≤ limit ∧ q + 4 ≤ m'.size) := by omega
    rw [dif_neg hb, dif_neg hb']

/-- A word that reads at some limit reads the same at any higher limit. -/
theorem readWord?_of_le {m : ByteArray} {limit limit' q w : Nat} (hl : limit ≤ limit')
    (h : readWord? m limit q = some w) : readWord? m limit' q = some w := by
  unfold readWord? at h ⊢
  split at h
  · rename_i hb
    rw [dif_pos ⟨by omega, hb.2⟩]
    exact h
  · cases h

theorem readWord?_bounds {m : ByteArray} {limit q w : Nat} (h : readWord? m limit q = some w) :
    q + 4 ≤ limit ∧ q + 4 ≤ m.size := by
  unfold readWord? at h
  split at h
  · assumption
  · cases h

theorem readWord?_limit {m : ByteArray} {limit limit' q : Nat} (hl : q + 4 ≤ limit)
    (hl' : q + 4 ≤ limit') : readWord? m limit q = readWord? m limit' q := by
  unfold readWord?
  by_cases hm : q + 4 ≤ m.size
  · rw [dif_pos ⟨hl, hm⟩, dif_pos ⟨hl', hm⟩]
  · rw [dif_neg fun h => hm h.2, dif_neg fun h => hm h.2]

theorem readWord?_isSome {m : ByteArray} {limit q : Nat} (hl : q + 4 ≤ limit)
    (hm : q + 4 ≤ m.size) : ∃ w, readWord? m limit q = some w := by
  unfold readWord?
  rw [dif_pos ⟨hl, hm⟩]
  exact ⟨_, rfl⟩

/-- The low byte of a word that reads has the word's parity. -/
theorem readWord?_parity {m : ByteArray} {limit q w : Nat} (h : readWord? m limit q = some w) :
    ∃ hq : q < m.size, m[q].toNat % 2 = w % 2 := by
  unfold readWord? at h
  split at h
  · rename_i hb
    refine ⟨by omega, ?_⟩
    cases h
    simp only [wordValue]
    omega
  · cases h

/-- Reading a slice. -/
theorem getElem?_extract_bytes (a : ByteArray) (b e j : Nat) :
    (a.extract b e)[j]? = if j < e - b then a[b + j]? else none := by
  by_cases hj : j < (a.extract b e).size
  · have hs := hj
    rw [ByteArray.size_extract] at hs
    rw [getElem?_pos _ j hj, ByteArray.getElem_extract, if_pos (by omega)]
    exact (getElem?_pos a (b + j) (by omega)).symm
  · have hs := hj
    rw [ByteArray.size_extract] at hs
    rw [getElem?_neg _ j hj]
    split
    · rw [getElem?_neg a (b + j) (by omega)]
    · rfl

/-- After a copy of `src` into `m` at `start`, the covered positions hold the bytes of
`src` and every other position holds what it held. -/
theorem getElem?_writeBytes {m m' src : ByteArray} {limit start : Nat}
    (h : writeBytes m limit start src = .ok m') (j : Nat) :
    m'[j]? = if start ≤ j ∧ j < start + src.size then src[j - start]? else m[j]? := by
  unfold writeBytes at h
  split at h
  · rename_i hb
    cases h
    have hd : src.data.size = src.size := rfl
    have hmd : m.data.size = m.size := rfl
    rw [ByteArray.copySlice_eq_append, hd, hmd, getElem?_append_bytes, getElem?_append_bytes,
      getElem?_extract_bytes, getElem?_extract_bytes, getElem?_extract_bytes]
    simp only [ByteArray.size_append, ByteArray.size_extract, Nat.sub_zero, Nat.zero_add,
      Nat.min_self, Nat.min_eq_left (show start ≤ m.size by omega)]
    by_cases h1 : j < start
    · rw [if_pos (show j < start + src.size by omega), if_pos h1, if_pos h1,
        if_neg (show ¬ (start ≤ j ∧ j < start + src.size) by omega)]
    · by_cases h2 : j < start + src.size
      · rw [if_pos h2, if_neg h1, if_pos (show j - start < src.size by omega), if_pos ⟨by omega, h2⟩]
      · rw [if_neg h2, if_neg (show ¬ (start ≤ j ∧ j < start + src.size) by omega)]
        by_cases hj : j < m.size
        · rw [if_pos (show j - (start + src.size) < m.size - (start + src.size) by omega)]
          congr 1
          omega
        · rw [if_neg (show ¬ (j - (start + src.size) < m.size - (start + src.size)) by omega),
            getElem?_neg m j hj]
  · cases h

private theorem repeatByte_go (b : UInt8) : ∀ (k : Nat) (acc : ByteArray),
    (repeatByte.go b k acc).size = acc.size + k ∧ ∀ j, (repeatByte.go b k acc)[j]? =
      if j < acc.size then acc[j]? else if j < acc.size + k then some b else none
  | 0, acc => ⟨rfl, fun j => by
      show acc[j]? = _
      split
      · rfl
      · rw [if_neg (by omega), getElem?_neg acc j (by omega)]⟩
  | k + 1, acc => by
    obtain ⟨hs, hj⟩ := repeatByte_go b k (acc.push b)
    have hp : (acc.push b).size = acc.size + 1 := ByteArray.size_push
    refine ⟨by rw [repeatByte.go, hs, hp]; omega, fun j => ?_⟩
    rw [repeatByte.go, hj, hp, getElem?_push_bytes]
    by_cases h1 : j < acc.size
    · rw [if_pos (by omega), if_pos h1, if_pos h1]
    · by_cases h2 : j = acc.size
      · rw [if_pos (by omega), if_neg h1, if_pos h2, if_neg h1, if_pos (by omega)]
      · rw [if_neg (by omega), if_neg h1]
        by_cases h3 : j < acc.size + 1 + k
        · rw [if_pos h3, if_pos (by omega)]
        · rw [if_neg h3, if_neg (by omega)]

theorem getElem?_repeatByte (b : UInt8) (n j : Nat) :
    (repeatByte b n)[j]? = if j < n then some b else none := by
  have h0 : (ByteArray.emptyWithCapacity n).size = 0 := rfl
  have := (repeatByte_go b n (ByteArray.emptyWithCapacity n)).2 j
  rw [h0, if_neg (Nat.not_lt_zero j), Nat.zero_add] at this
  exact this

theorem size_repeatByte (b : UInt8) (n : Nat) : (repeatByte b n).size = n := by
  have h0 : (ByteArray.emptyWithCapacity n).size = 0 := rfl
  have := (repeatByte_go b n (ByteArray.emptyWithCapacity n)).1
  rw [h0, Nat.zero_add] at this
  exact this

/-- A copy into a memory keeps its size. -/
theorem size_writeBytes {m m' src : ByteArray} {limit start : Nat}
    (h : writeBytes m limit start src = .ok m') : m'.size = m.size := by
  unfold writeBytes at h
  split at h
  · rename_i hb
    cases h
    rw [ByteArray.copySlice_eq_append, ByteArray.size_append, ByteArray.size_append,
      ByteArray.size_extract, ByteArray.size_extract, ByteArray.size_extract]
    have hd : src.data.size = src.size := rfl
    have hmd : m.data.size = m.size := rfl
    rw [hd, hmd]
    omega
  · cases h

/-- After a move of `len` bytes from `src` to `dst`, the destination holds the bytes the
source held before, and every other position holds what it held. -/
theorem getElem?_moveBytes {m m' : ByteArray} {limit src len dst : Nat}
    (h : moveBytes m limit src len dst = .ok m') (j : Nat) :
    m'[j]? = if dst ≤ j ∧ j < dst + len then m[src + (j - dst)]? else m[j]? := by
  unfold moveBytes readBytes at h
  split at h
  · rename_i hb
    have hw : writeBytes m limit dst (m.extract src (src + len)) = .ok m' := h
    rw [getElem?_writeBytes hw, ByteArray.size_extract, getElem?_extract_bytes]
    by_cases hj : dst ≤ j ∧ j < dst + len
    · rw [if_pos ⟨hj.1, by omega⟩, if_pos (by omega), if_pos hj]
    · rw [if_neg (by omega), if_neg hj]
  · cases h

theorem size_moveBytes {m m' : ByteArray} {limit src len dst : Nat}
    (h : moveBytes m limit src len dst = .ok m') : m'.size = m.size := by
  unfold moveBytes readBytes at h
  split at h
  · exact size_writeBytes h
  · cases h

end Allocator
