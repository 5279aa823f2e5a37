import Allocator.Proofs.Run

/-! The block codec read back. A tag word packs a size and the allocated bit: decoding a word
and packing it again clears exactly bits 1 and 2, the bits no tag uses, and a tag whose size is
aligned and fits a word decodes from its packing unchanged. Writing a tag into a block's
header and footer, or a link into a free block's payload, succeeds wherever the words lie
within the bytes below the break; it changes those words and nothing else, and every accessor
that reads them afterwards answers what was written (`tags_and_links_read_back`).

Request sizes round at the edge of the 64-bit range: rounding to a multiple of eight succeeds
up to `2^64 - 8` and gives the least multiple at or above the request, and the block size of
a request, header and footer added and at least `minBlock`, exists up to `2^64 - 16`
(`request_sizes_round_up`). -/
namespace Allocator

/-! ### Tag words -/

/-- Below `2^32`, the word mask `~6` keeps the size bits and the low bit. Both the mask and
the value split at bit 3, where the cleared bits end. -/
theorem land_tagMask {x : Nat} (hx : x < 2 ^ 32) : x &&& 4294967289 = x / 8 * 8 + x % 2 := by
  have hc : (4294967289 : Nat) = 2 ^ 3 * (2 ^ 29 - 1) + (2 ^ 1 - 1) := by norm_num
  have hx' : x / 8 * 8 + x % 2 = 2 ^ 3 * (x / 2 ^ 3) + x % 2 ^ 1 := by
    rw [Nat.pow_one, Nat.mul_comm]
    rfl
  rw [hx']
  apply Nat.eq_of_testBit_eq
  intro j
  rw [Nat.testBit_and, hc, Nat.testBit_two_pow_mul_add _ (by norm_num),
    Nat.testBit_two_pow_mul_add _ (by omega)]
  simp only [Nat.testBit_two_pow_sub_one]
  split
  · rw [Nat.testBit_mod_two_pow, Bool.and_comm]
  · rw [Nat.testBit_div_two_pow, Nat.sub_add_cancel (by omega)]
    by_cases hj : j - 3 < 29
    · simp [hj]
    · rw [Nat.testBit_lt_two_pow (lt_of_lt_of_le hx (Nat.pow_le_pow_right (by norm_num) (by omega)))]
      simp

/-- Decoding a word and packing it again clears bits 1 and 2 and keeps the rest. -/
theorem Tag.pack_unpack_word (w : UInt32) : (Tag.unpack w.toNat).pack = (w &&& ~~~6).toNat := by
  have hw : w.toNat < 2 ^ 32 := w.toNat_lt
  rw [UInt32.toNat_and, show (~~~6 : UInt32).toNat = 4294967289 from rfl, land_tagMask hw]
  have hb : wordBound = 4294967296 := rfl
  simp only [Tag.unpack, Tag.pack, hb]
  rcases Nat.mod_two_eq_zero_or_one w.toNat with h0 | h1
  · simp only [h0, Nat.zero_ne_one, if_false]
    omega
  · simp only [h1, if_true]
    omega

example : (Tag.unpack 0b10110).pack = 16 := by decide

/-! ### Request sizes -/

theorem sizeBound_eq : sizeBound = 2 ^ 64 := rfl

theorem isLeast_roundUp (n : Nat) : IsLeast {b | 8 ∣ b ∧ n ≤ b} ((n + 7) / 8 * 8) := by
  refine ⟨⟨Nat.dvd_mul_left 8 _, by omega⟩, ?_⟩
  rintro b ⟨hb, hnb⟩
  omega

/-- Rounding succeeds exactly up to `2^64 - 8`, and gives the least multiple of eight at or
above `n`. -/
theorem align_eq_some_iff (n a : Nat) :
    align n = some a ↔ n ≤ 2 ^ 64 - 8 ∧ IsLeast {b | 8 ∣ b ∧ n ≤ b} a := by
  unfold align
  rw [sizeBound_eq]
  split
  · rw [Option.some.injEq]
    constructor
    · rintro rfl
      exact ⟨by omega, isLeast_roundUp n⟩
    · rintro ⟨-, ha⟩
      exact (isLeast_roundUp n).unique ha
  · simp only [reduceCtorEq, false_iff, not_and]
    intro h
    omega

theorem align_eq_none_iff_lt (n : Nat) : align n = none ↔ 2 ^ 64 - 8 < n := by
  rw [align_eq_none_iff, sizeBound_eq]
  omega

/-- Adjusting fails exactly past `2^64 - 16`: the header and footer fit below `2^64` up to
`2^64 - 9`, but the rounding after them only up to `2^64 - 16`. -/
theorem adjust_eq_none_iff (n : Nat) : adjust n = none ↔ 2 ^ 64 - 16 < n := by
  unfold adjust
  rw [sizeBound_eq, tagOverhead]
  split
  · rw [Option.map_eq_none_iff, align_eq_none_iff_lt]
    omega
  · simp only [true_iff]
    omega

theorem adjust_eq_map_align {n : Nat} (hn : n ≤ 2 ^ 64 - 16) :
    adjust n = (align (n + 8)).map (max · 16) := by
  unfold adjust
  rw [if_pos (by rw [sizeBound_eq, tagOverhead]; omega)]
  rfl

/-- An adjusted size passes the request with its header and footer by at most seven bytes,
unless it is `minBlock`. -/
theorem adjust_le_max {n a : Nat} (h : adjust n = some a) : a ≤ max (n + 15) 16 := by
  unfold adjust at h
  split at h
  · obtain ⟨b, hb, rfl⟩ := Option.map_eq_some_iff.mp h
    have := align_eq_some hb
    simp only [tagOverhead, minBlock] at *
    omega
  · cases h

/-- Rounding and adjusting over every request size: each succeeds exactly below its edge of
the 64-bit range, rounding gives the least multiple of eight, and an adjusted size is aligned,
at least `minBlock`, holds the request with its header and footer, and passes them by less
than eight bytes unless it is `minBlock`. -/
theorem request_sizes_round_up (n : Nat) :
    (∀ a, align n = some a ↔ n ≤ 2 ^ 64 - 8 ∧ IsLeast {b | 8 ∣ b ∧ n ≤ b} a) ∧
      (align n = none ↔ 2 ^ 64 - 8 < n) ∧
      adjust n = (if n ≤ 2 ^ 64 - 16 then (align (n + 8)).map (max · 16) else none) ∧
      ∀ a, adjust n = some a → 8 ∣ a ∧ 16 ≤ a ∧ n + 8 ≤ a ∧ a ≤ max (n + 15) 16 := by
  refine ⟨align_eq_some_iff n, align_eq_none_iff_lt n, ?_, fun a ha => ?_⟩
  · split
    · exact adjust_eq_map_align ‹_›
    · exact (adjust_eq_none_iff n).mpr (by omega)
  · obtain ⟨h8, h16, hn⟩ := adjust_eq_some ha
    exact ⟨Nat.dvd_of_mod_eq_zero h8, h16, hn, adjust_le_max ha⟩

/-! ### Boundary tags and links in the arena -/

theorem Arena.size_bytes (a : Arena) : a.bytes.size = min a.brk a.memory.size := by
  simp only [Arena.bytes, ByteArray.size_extract]
  omega

namespace Heap

variable {h : Heap}

/-- Writing an aligned tag of at least eight bytes, whose block lies within the bytes below
the break, edits its header and footer words only. Afterwards the header reads as the tag,
the next block starts `t.size` bytes on, and from there the footer before it reads as the tag
and leads back to `bp`. -/
theorem setTag_reads_back {bp : Nat} {t : Tag} (h4 : 4 ≤ bp) (hs : t.size % 8 = 0)
    (h8 : 8 ≤ t.size) (hb : bp + t.size ≤ h.arena.bytes.size) (hw : t.size < wordBound) :
    ∃ h', setTag bp t h = .ok ((), h') ∧ Edits (tagWords bp t.size) h h' ∧ h'.tail = h.tail ∧
      tagAt bp h' = .ok (t, h') ∧ nextBlock bp h' = .ok (bp + t.size, h') ∧
      tagBefore (bp + t.size) h' = .ok (t, h') ∧ prevBlock (bp + t.size) h' = .ok (bp, h') := by
  rw [Arena.size_bytes] at hb
  obtain ⟨h', e, d, ht, wh, wf⟩ := setTag_apply_of_size (h := h) bp t h8 h4 (by omega) (by omega) hw
  have hu : Tag.unpack t.pack = t := Tag.unpack_pack t hs hw
  refine ⟨h', e, d, ht, ?_, ?_, ?_, ?_⟩
  · rw [tagAt_apply h4 wh, hu]
  · rw [nextBlock_apply h4 wh, hu]
  · rw [tagBefore_apply (by omega) wf, hu]
  · rw [prevBlock_apply (by omega) wf (by rw [hu]; omega), hu, Nat.add_sub_cancel]

/-- Writing a link that is none or a non-zero offset below `2^32`, into a link word within the
bytes below the break, edits that word only, and the link reads back as written: none is
stored as 0, which no block's offset is. -/
theorem setLink_reads_back {bp : Nat} {which : Link} {target : Option Nat}
    (hb : which.offset bp + 4 ≤ h.arena.bytes.size) (ht : ∀ p ∈ target, 0 < p ∧ p < wordBound) :
    ∃ h', setLink bp which target h = .ok ((), h') ∧
      Edits (Set.Ico (which.offset bp) (which.offset bp + 4)) h h' ∧ h'.tail = h.tail ∧
      link bp which h' = .ok (target, h') := by
  rw [Arena.size_bytes] at hb
  have hv : target.getD 0 < wordBound := by
    cases target with
    | none => exact Nat.pos_of_ne_zero (by decide)
    | some p => exact (ht p rfl).2
  obtain ⟨h', e, d, htl, w⟩ := setWord_apply_of_size (h := h)
    (show which.offset bp + 4 ≤ h.arena.brk by omega) (by omega) hv
  refine ⟨h', e, d, htl, ?_⟩
  rw [link_apply w]
  cases target with
  | none => rfl
  | some p => rw [Option.getD_some, if_neg (Nat.pos_iff_ne_zero.mp (ht p rfl).1)]

end Heap

open Heap

/-- Tags and links read back as written. Over every heap: writing an aligned tag of at least
eight bytes for a block at a payload offset from 8 on, within the bytes below the break and
the 32-bit range, succeeds; the header then reads as the tag, the block after it sees the tag
in the footer before it and leads back to the block, and only the header and footer words
changed. Writing a link that is none or a non-zero 32-bit offset, into a link word below the
break, succeeds, reads back, and changes that word only. Decoding a 32-bit word and packing
it again clears bits 1 and 2, and an aligned 32-bit tag decodes from its packing. -/
theorem tags_and_links_read_back :
    (∀ (h : Heap) (bp : Nat) (t : Tag), 8 ≤ bp → t.size % 8 = 0 → 8 ≤ t.size →
        bp + t.size ≤ min h.arena.bytes.size (2 ^ 32 - 1) →
        ∃ h', setTag bp t h = .ok ((), h') ∧ tagAt bp h' = .ok (t, h') ∧
          (nextBlock bp >>= tagBefore) h' = .ok (t, h') ∧
          (nextBlock bp >>= prevBlock) h' = .ok (bp, h') ∧
          Edits (tagWords bp t.size) h h' ∧ h'.tail = h.tail) ∧
      (∀ (h : Heap) (bp : Nat) (which : Link) (target : Option Nat),
        which.offset bp + 4 ≤ h.arena.bytes.size → (∀ p ∈ target, 0 < p ∧ p < 2 ^ 32) →
        ∃ h', setLink bp which target h = .ok ((), h') ∧ link bp which h' = .ok (target, h') ∧
          Edits (Set.Ico (which.offset bp) (which.offset bp + 4)) h h' ∧ h'.tail = h.tail) ∧
      (∀ w : UInt32, (Tag.unpack w.toNat).pack = (w &&& ~~~6).toNat) ∧
      ∀ t : Tag, t.size % 8 = 0 → t.size < 2 ^ 32 → Tag.unpack t.pack = t := by
  have hb : wordBound = 2 ^ 32 := rfl
  refine ⟨fun h bp t hbp hs hsize hfit => ?_, fun h bp which target hl ht => ?_,
    Tag.pack_unpack_word, fun t hs hw => Tag.unpack_pack t hs (by rw [hb]; exact hw)⟩
  · obtain ⟨h', e, d, htl, hat, hnext, hbefore, hprev⟩ :=
      setTag_reads_back (h := h) (show 4 ≤ bp by omega) hs hsize (by omega) (by rw [hb]; omega)
    exact ⟨h', e, hat, by rw [bind_apply_ok hnext, hbefore], by rw [bind_apply_ok hnext, hprev],
      d, htl⟩
  · obtain ⟨h', e, d, htl, hlink⟩ := setLink_reads_back (h := h) hl (by rw [hb]; exact ht)
    exact ⟨h', e, hlink, d, htl⟩

end Allocator
