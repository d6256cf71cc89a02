import CreeperKernel.ElfImage
import CreeperKernel.ExecSpace

namespace CreeperKernel.Exec

open Vmm Fork FallibleLoops WordBytes
open Pmm (pageSize)
open RadixTree (write write_apply)

/-- The words of zeroed pages with these bytes copied to the offset `off`. -/
def copied (off : Nat) (bytes : List Byte) (page : Nat) (i : Index) : Entry :=
  wordOf fun k =>
    let pos := page * pageSize + i * 8 + k
    if off ≤ pos then bytes[pos - off]?.getD 0 else 0

section Copies

variable {first count : Nat} {contents : Nat → Index → Entry}

theorem nodup_blockPages (small : first + count ≤ 2 ^ 52) : (blockPages (pageAt first) count).Nodup := by
  apply List.nodup_range.map_on
  intro i low j high same
  rw [← pageAt_add, ← pageAt_add] at same
  rw [List.mem_range] at low high
  have equal := pageAt_injective (by omega) (by omega) same
  omega

theorem storePhys_fillPages (mem : Memory) (small : first + count ≤ 2 ^ 52) {pos : Nat} (inside : pos < count * pageSize)
    (b : Byte) : storePhys (fillPages mem (pageAt first) count contents) (first * pageSize + pos) b =
      fillPages mem (pageAt first) count fun page i =>
        if page = pos / pageSize ∧ i = wordIndex pos then setByte (contents page i) (pos % 8) b else contents page i := by
  have nodup := nodup_blockPages small
  have page : (first * pageSize + pos) / pageSize = first + pos / pageSize := by
    simp only [pageSize]
    omega
  have index : wordIndex (first * pageSize + pos) = wordIndex pos := by
    simp only [wordIndex, pageSize, Fin.mk.injEq]
    omega
  have byte : (first * pageSize + pos) % 8 = pos % 8 := by
    simp only [pageSize]
    omega
  have below : pos / pageSize < count := by
    simp only [pageSize] at inside ⊢
    omega
  have here := fillPages_at mem contents nodup below
  rw [← pageAt_add] at here
  rw [storePhys, page, index, byte, here]
  funext f i
  rw [write_apply]
  by_cases block : f ∈ blockPages (pageAt first) count
  · obtain ⟨n, low, rfl⟩ := List.mem_map.mp block
    rw [List.mem_range] at low
    rw [fillPages_at mem contents nodup low, fillPages_at mem _ nodup low, ← pageAt_add]
    have same : pageAt (first + n) = pageAt (first + pos / pageSize) ↔ n = pos / pageSize := by
      constructor
      · intro equal
        have numbers := pageAt_injective (by omega) (by omega) equal
        omega
      · rintro rfl
        rfl
    simp only [same]
    by_cases on : n = pos / pageSize ∧ i = wordIndex pos
    · rw [if_pos on, if_pos on, on.1, on.2]
    · rw [if_neg on, if_neg on]
  · have other : f ≠ pageAt (first + pos / pageSize) := by
      rintro rfl
      rw [pageAt_add] at block
      exact block (List.mem_map_of_mem (List.mem_range.mpr below))
    rw [if_neg fun both => other both.1, fillPages_of_not_mem mem _ count contents block,
      fillPages_of_not_mem mem _ count _ block]

theorem memcpy_concat (mem : Memory) (dst : Nat) (bytes : List Byte) (b : Byte) :
    memcpy mem dst (bytes ++ [b]) = storePhys (memcpy mem dst bytes) (dst + bytes.length) b := by
  induction bytes generalizing mem dst with
  | nil => rfl
  | cons a rest ih =>
    rw [List.cons_append, memcpy, memcpy, ih, List.length_cons]
    congr 1
    omega

theorem copied_nil (off : Nat) : copied off [] = fun _ _ => 0 := by
  funext page i
  apply eq_of_byteOf
  intro k small
  rw [copied, byteOf_wordOf _ small]
  have zero : byteOf (0 : Entry) k = 0 := by
    apply BitVec.eq_of_getLsbD_eq
    intro j inside
    rw [getLsbD_byteOf _ k inside]
    simp
  rw [zero]
  simp

theorem copied_concat (off : Nat) (bytes : List Byte) (b : Byte) (page : Nat) (i : Index) :
    copied off (bytes ++ [b]) page i = if page = (off + bytes.length) / pageSize ∧ i = wordIndex (off + bytes.length) then
        setByte (copied off bytes page i) ((off + bytes.length) % 8) b else copied off bytes page i := by
  have wide := i.isLt
  apply eq_of_byteOf
  intro k small
  -- the byte is the new one exactly at its own place
  have place : page * pageSize + i * 8 + k = off + bytes.length ↔
      (page = (off + bytes.length) / pageSize ∧ i = wordIndex (off + bytes.length)) ∧ k = (off + bytes.length) % 8 := by
    simp only [pageSize, wordIndex, Fin.ext_iff]
    omega
  have old : page * pageSize + i * 8 + k ≠ off + bytes.length →
      byteOf (copied off (bytes ++ [b]) page i) k = byteOf (copied off bytes page i) k := by
    intro elsewhere
    rw [copied, copied, byteOf_wordOf _ small, byteOf_wordOf _ small]
    dsimp only
    by_cases front : off ≤ page * pageSize + i * 8 + k
    · rw [if_pos front, if_pos front, List.getElem?_append]
      split
      · rfl
      · rename_i past
        have beyond : 1 ≤ page * pageSize + i * 8 + k - off - bytes.length := by omega
        rw [List.getElem?_eq_none (by simpa using beyond), List.getElem?_eq_none (Nat.le_of_not_lt past)]
    · rw [if_neg front, if_neg front]
  by_cases here : page * pageSize + i * 8 + k = off + bytes.length
  · obtain ⟨on, last⟩ := place.mp here
    rw [if_pos on, byteOf_setByte _ small, if_pos last, copied, byteOf_wordOf _ small]
    dsimp only
    rw [here, if_pos (Nat.le_add_right ..), Nat.add_sub_cancel_left]
    simp
  · rw [old here]
    split
    · rename_i on
      rw [byteOf_setByte _ small, if_neg fun last => here (place.mpr ⟨on, last⟩)]
    · rfl

theorem memcpy_fillPages (mem : Memory) (small : first + count ≤ 2 ^ 52) {off : Nat} {bytes : List Byte}
    (inside : off + bytes.length ≤ count * pageSize) :
    memcpy (fillPages mem (pageAt first) count fun _ _ => 0) (first * pageSize + off) bytes =
      fillPages mem (pageAt first) count (copied off bytes) := by
  induction bytes using List.reverseRecOn with
  | nil => rw [copied_nil, memcpy]
  | append_singleton bytes b ih =>
    rw [List.length_append, List.length_singleton] at inside
    have last : off + bytes.length < count * pageSize := by omega
    rw [memcpy_concat, ih (by omega), Nat.add_assoc, storePhys_fillPages mem small last b]
    congr 1
    funext page i
    rw [copied_concat]

end Copies

/-- A segment that the image holds, in the user half. -/
structure Loadable (image : List Byte) (ph : Phdr) : Prop where
  inFile : ph.pOffset + ph.pFilesz ≤ image.length
  fits : ph.pFilesz ≤ ph.pMemsz
  low : ph.pVaddr < stackUpperUspaceAddr
  inside : ph.pVaddr + ph.pMemsz ≤ stackUpperUspaceAddr

/-- The pages of a `PT_LOAD` header as `loadSegments` takes them. -/
def Phdr.segment (image : List Byte) (ph : Phdr) : Option Segment :=
  if low : ph.pType = ptLoad ∧ ph.pVaddr < stackUpperUspaceAddr ∧ ph.pVaddr + ph.pMemsz ≤ stackUpperUspaceAddr then
    some
      { pVaddr := ph.pVaddr
        pMemsz := ph.pMemsz
        writable := ph.pfW
        executable := ph.pfX
        contents := copied ph.pageOffset (ph.source image)
        low := low.2.1
        inside := low.2.2 }
  else none

section Segments

variable {image : List Byte} {ph : Phdr} {seg : Segment} {old m : Kernel} {root : Frame}

theorem segPages_eq (good : Loadable image ph) : ph.segPages =
    if (ph.pageOffset + ph.pMemsz + pageSize - 1) / pageSize = 0 then 1
    else (ph.pageOffset + ph.pMemsz + pageSize - 1) / pageSize := by
  have inside := good.inside
  have offset : ph.pageOffset < pageSize := Nat.mod_lt _ (by decide)
  simp only [pageSize, stackUpperUspaceAddr] at inside offset
  have span : (ph.pageOffset + ph.pMemsz) % 2 ^ 64 = ph.pageOffset + ph.pMemsz := Nat.mod_eq_of_lt (by omega)
  have rounded : (ph.pageOffset + ph.pMemsz + pageSize - 1) % 2 ^ 64 = ph.pageOffset + ph.pMemsz + pageSize - 1 :=
    Nat.mod_eq_of_lt (by simp only [pageSize]; omega)
  rw [Phdr.segPages, span, rounded]

theorem segment_of_loadable (isLoad : ph.pType = ptLoad) (good : Loadable image ph) :
    ∃ seg, ph.segment image = some seg ∧ seg.vaddrAligned = ph.vaddrAligned ∧ seg.segPages = ph.segPages ∧
      seg.mapFlags = ph.mapFlags ∧ seg.contents = copied ph.pageOffset (ph.source image) :=
  ⟨_, dif_pos ⟨isLoad, good.low, good.inside⟩, rfl, (segPages_eq good).symm, rfl, rfl⟩

theorem span_le (good : Loadable image ph) : ph.pageOffset + ph.pMemsz ≤ ph.segPages * pageSize := by
  rw [segPages_eq good]
  simp only [pageSize]
  split <;> omega

theorem length_source (image : List Byte) (ph : Phdr) : (ph.source image).length = ph.pFilesz := by
  rw [Phdr.source, List.length_map, List.length_range]

theorem loadPhdr_eq (reserve : Reserve m.frames) (isLoad : ph.pType = ptLoad) (good : Loadable image ph)
    (its : ph.segment image = some seg) :
    loadPhdr root image ph m = withSome (loadSegment root seg m) fun (_, m) => pure (some m) := by
  obtain ⟨seg', same, aligned, pages, flags, contents⟩ := segment_of_loadable isLoad good
  cases its.symm.trans same
  have positive : 1 ≤ ph.segPages := pages ▸ seg.segPages_pos
  rw [loadPhdr, if_neg (not_not.mpr isLoad), loadSegment, aligned, pages, flags, contents, mapNewBlock, withSome]
  cases allocated : pmmAllocPages m ph.segPages with
  | panic reason => rfl
  | fault => rfl
  | hang => rfl
  | ok result =>
    obtain ⟨phys, middle⟩ := result
    obtain ⟨first, rfl, inside⟩ := allocPages_block reserve positive allocated
    obtain ⟨-, kept⟩ := allocPages_handed reserve positive allocated
    have small : first + ph.segPages ≤ 2 ^ 40 := Nat.le_trans inside reserve.small
    have address : (pageAt first).toNat = first * pageSize := by
      rw [pageAt_toNat (by omega), pageSize, Nat.mul_comm]
    have stored : (if 0 < ph.pFilesz then
        memcpy (fillPages middle.mem (pageAt first) ph.segPages fun _ _ => 0)
          ((pageAt first).toNat + ph.pageOffset) (ph.source image)
        else fillPages middle.mem (pageAt first) ph.segPages fun _ _ => 0) =
        fillPages middle.mem (pageAt first) ph.segPages (copied ph.pageOffset (ph.source image)) := by
      have fits := good.fits
      have span := span_le good
      have room : ph.pageOffset + (ph.source image).length ≤ ph.segPages * pageSize := by
        rw [length_source]
        omega
      have whole := memcpy_fillPages middle.mem (show first + ph.segPages ≤ 2 ^ 52 by omega) room
      by_cases some_ : 0 < ph.pFilesz
      · rw [if_pos some_, address, whole]
      · have nothing : ph.source image = [] := by
          apply List.eq_nil_of_length_eq_zero
          rw [length_source]
          omega
        rw [if_neg some_, nothing, copied_nil]
    simp only [Outcome.ok_bind, stored]
    by_cases zero : pageAt first = 0
    · rw [if_pos zero, if_pos zero]
      rfl
    · rw [if_neg zero, if_neg zero]
      cases map4kPages _ root ph.vaddrAligned (pageAt first) ph.segPages ph.mapFlags <;> rfl

theorem loadPhdrs_eq (reserve : Reserve old.frames) (building : Building old root m) {phs : List Phdr}
    (good : ∀ ph ∈ phs, ph.pType = ptLoad → Loadable image ph) :
    loadPhdrs root image phs m = loadSegments root (phs.filterMap (Phdr.segment image)) m := by
  induction phs generalizing m with
  | nil => rfl
  | cons ph rest ih =>
    have others : ∀ ph ∈ rest, ph.pType = ptLoad → Loadable image ph :=
      fun other member => good other (List.mem_cons_of_mem ph member)
    by_cases isLoad : ph.pType = ptLoad
    · obtain ⟨seg, its, -⟩ := segment_of_loadable isLoad (good ph List.mem_cons_self isLoad)
      rw [loadPhdrs, loadPhdr_eq building.reserve isLoad (good ph List.mem_cons_self isLoad) its,
        List.filterMap_cons_some its, loadSegments, withSome, withSome, withSome]
      cases loaded : loadSegment root seg m with
      | panic reason => rfl
      | fault => rfl
      | hang => rfl
      | ok result =>
        cases result with
        | none => rfl
        | some pair =>
          obtain ⟨phys, middle⟩ := pair
          obtain ⟨-, added⟩ := mapNewBlock_spec reserve building seg.mapFlags_clean seg.segPages_pos
            seg.inside_user loaded
          exact ih added.building others
    · have skipped : ph.segment image = none := dif_neg fun both => isLoad both.1
      rw [loadPhdrs, loadPhdr, if_pos isLoad, List.filterMap_cons_none skipped]
      exact ih building others

end Segments

end CreeperKernel.Exec
