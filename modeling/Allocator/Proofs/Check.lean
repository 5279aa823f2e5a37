import Allocator.Proofs.Runs
import Allocator.Proofs.Verdict

/-! The consistency check passes on every heap of the invariant. Such a heap is consistent as
the check reads it (`Shape.consistent`): the words its layout holds as tags decode to those
tags, the prologue's and the epilogue's included, and its free list from the tail is its free
blocks, each once, in ascending size. The check decides consistency (`check_ok_iff`), so it
passes (`Shape.check`), and so does every reachable heap (`Heap.Reachable.check`). -/
namespace Allocator

/-- A heap of the invariant is consistent as the check reads it: the tags its layout writes
decode to the layout's blocks, and its free list is the layout's free blocks. -/
theorem Shape.consistent {h : Heap} {bs fl : List BlockInfo} (hs : Shape h bs fl) :
    Consistent h bs fl := by
  have hl := hs.layout
  have hpro : Tag.unpack (Tag.allocated 8).pack = Tag.allocated 8 :=
    unpack_pack_of_le rfl (by simp only [Tag.allocated, Allocator.addressable, wordBound]; omega)
  have hep : Tag.unpack (Tag.allocated 0).pack = Tag.allocated 0 :=
    unpack_pack_of_le rfl (by simp [Tag.allocated])
  refine ⟨⟨?_, ?_, hl.run.tiling hl.addressable, ?_, hs.separated⟩, hs.listed.chain,
    hs.listed.tail, ?_, hs.listed.sorted⟩
  · simp [Arena.tag?, hl.prologueHeader, hpro]
  · simp [Arena.tag?, hl.prologueFooter, hpro]
  · simp [Arena.tag?, hl.epilogue, hep]
  · refine (List.perm_ext_iff_of_nodup hs.listed.nodup (hl.nodup.filter _)).mpr fun c => ?_
    rw [List.mem_filter, beq_iff_eq]
    exact ⟨hs.listed.free c, fun hc => hs.complete c hc.1 hc.2⟩

theorem Shape.check {h : Heap} {bs fl : List BlockInfo} (hs : Shape h bs fl) :
    h.check = .ok () :=
  (check_ok_iff hs.layout.inMemory hs.layout.addressable).mpr ⟨bs, fl, hs.consistent⟩

theorem Heap.Reachable.check {h : Heap} (hr : h.Reachable) : h.check = .ok () := by
  obtain ⟨bs, fl, hs⟩ := hr.valid.shape
  exact hs.check

end Allocator
