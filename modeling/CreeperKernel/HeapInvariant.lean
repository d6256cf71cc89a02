import CreeperKernel.HeapAlloc
import CreeperKernel.HeapOperations

namespace CreeperKernel.Heap

open DisjointFamilies
open MappedMemory (Space)
open Pmm (pageSize mul_pageSize div_pageSize mod_pageSize)

variable {n size i pa pages va : Nat}

theorem and_mask_eq (small : n < 2 ^ 32) : n &&& 0xFFFFFFF8 = 8 * (n / 8) := by
  have mask : (0xFFFFFFF8 : Nat) = (2 ^ 29 - 1) <<< 3 := by decide
  have shifted : 8 * (n / 8) = (n >>> 3) <<< 3 := by
    rw [Nat.shiftLeft_eq, Nat.shiftRight_eq_div_pow, Nat.mul_comm]
  apply Nat.eq_of_testBit_eq
  intro i
  rw [mask, shifted, Nat.testBit_and, Nat.testBit_shiftLeft, Nat.testBit_shiftLeft,
    Nat.testBit_two_pow_sub_one, Nat.testBit_shiftRight]
  by_cases low : 3 ≤ i
  · rw [Nat.add_sub_cancel' low]
    by_cases high : i - 3 < 29
    · simp [low, high]
    · have zero : n.testBit i = false := by
        apply Nat.testBit_lt_two_pow
        exact Nat.lt_of_lt_of_le small (Nat.pow_le_pow_right (by decide) (by omega))
      simp [low, high, zero]
  · simp [low]

theorem alignUp8_eq (small : n + 7 < 2 ^ 32) : alignUp8 n = 8 * ((n + 7) / 8) := by
  rw [alignUp8, Nat.mod_eq_of_lt (by omega), and_mask_eq small]

theorem fullSize_eq (size : Nat) (small : size + 15 < 2 ^ 32) : fullSize size = 8 * ((size + 15) / 8) := by
  rw [fullSize, headerSize, Nat.mod_eq_of_lt (by omega), alignUp8_eq (by omega)]

theorem fullSize_fullSize (small : size < 2 ^ 31) : fullSize (fullSize size) = fullSize size + 8 := by
  have full := fullSize_eq size (by omega)
  rw [fullSize_eq (fullSize size) (by omega), full]
  omega

theorem mapPages_apply (table : Nat → Option Nat) (va pa count page : Nat) : mapPages table va pa count page =
      if va / pageSize ≤ page ∧ page < va / pageSize + count then some (pa / pageSize + (page - va / pageSize))
      else table page := by
  unfold mapPages
  induction count with
  | zero =>
    rw [if_neg (by omega)]
    rfl
  | succ count ih =>
    rw [List.range_succ, List.foldl_append, List.foldl_cons, List.foldl_nil]
    by_cases here : page = va / pageSize + count
    · subst here
      rw [Function.update_self, if_pos (by omega)]
      congr 1
      omega
    · rw [Function.update_of_ne here, ih]
      by_cases inside : va / pageSize ≤ page ∧ page < va / pageSize + count
      · rw [if_pos inside, if_pos (by omega)]
      · rw [if_neg inside, if_neg (by omega)]

/-- The addresses of the pages given to the heap. -/
def heapCells (h : State) : Set Nat := {a | h.table (a / pageSize) ≠ none}

/-- No frame stands behind two heap pages. -/
def TableInjective (table : Nat → Option Nat) : Prop :=
  ∀ p q frame, table p = some frame → table q = some frame → p = q

variable {h : State}

theorem space_injective (injective : TableInjective h.table) : h.space.Injective := by
  intro a b place left right
  simp only [State.space, Option.map_eq_some_iff, mul_pageSize, mod_pageSize, div_pageSize] at left right
  obtain ⟨frame, atA, rfl⟩ := left
  obtain ⟨frame', atB, same⟩ := right
  have equal : frame' = frame := by omega
  subst equal
  have pages := injective _ _ _ atA atB
  omega

/-- A pointer a caller holds. -/
structure Allocation where
  ptr : Nat
  size : Nat
  deriving DecidableEq, Repr

/-- The header and the rounded payload. -/
def Allocation.block (a : Allocation) : FreeRegion := ⟨a.ptr - headerSize, fullSize a.size⟩

structure Live (h : State) (a : Allocation) : Prop where
  positive : 0 < a.size
  small : a.size < 2 ^ 31
  proper : Proper a.block
  mapped : cells a.block ⊆ heapCells h
  apart : Disjoint (cells a.block) (freeCells h.map.freeRegions)
  header : h.space.Holds a.block.baseAddr a.size 8

structure Sound (h : State) (outstanding : List Allocation) : Prop where
  tidy : Tidy h.map.freeRegions
  count : h.map.freeRegionCount ≤ maxFreeRegions
  inside : freeCells h.map.freeRegions ⊆ heapCells h
  injective : TableInjective h.table
  live : ∀ a ∈ outstanding, Live h a
  disjoint : outstanding.Pairwise fun a b => Disjoint (cells a.block) (cells b.block)

variable {a : Allocation}

theorem Live.block_length (live : Live h a) : a.size + 8 ≤ a.block.length ∧ a.block.length ≤ a.size + 15 := by
  have small := live.small
  have full := fullSize_eq a.size (by omega)
  simp only [Allocation.block]
  omega

theorem Live.header_mem (live : Live h a) (below : i < 8) : a.block.baseAddr + i ∈ cells a.block := by
  have length := live.block_length
  rw [mem_cells]
  omega

variable {out : List Allocation}

theorem Sound.with_map (sound : Sound h out) (map : RegionMap) (new : Set Nat) (tidy : Tidy map.freeRegions)
    (count : map.freeRegionCount ≤ maxFreeRegions)
    (within : freeCells map.freeRegions ⊆ freeCells h.map.freeRegions ∪ new) (mapped : new ⊆ heapCells h)
    (untouched : ∀ a ∈ out, Disjoint (cells a.block) new) :
    Sound { h with map } out := by
  refine ⟨tidy, count, ?_, sound.injective, fun a member => ?_, sound.disjoint⟩
  · exact within.trans (Set.union_subset sound.inside mapped)
  · have live := sound.live a member
    refine ⟨live.positive, live.small, live.proper, live.mapped, ?_, live.header⟩
    apply Disjoint.mono_right within
    rw [Set.disjoint_union_right]
    exact ⟨live.apart, untouched a member⟩

theorem Sound.of_found (sound : Sound h out) {map : RegionMap} {requested : Nat} {found : Option Nat}
    (result : Found h.map requested found map) :
    Sound { h with map } out := by
  apply sound.with_map map ∅ result.tidy (by rw [result.count]; exact sound.count)
  · rw [Set.union_empty]
    exact result.cells
  · exact Set.empty_subset _
  · intro a _
    exact Set.disjoint_empty _

theorem Sound.with_bytes (sound : Sound h out) {bytes : Nat → BitVec 8}
    (headers : ∀ a ∈ out, ∀ i < 8, Space.load (State.space { h with bytes }) (a.block.baseAddr + i) = h.space.load (a.block.baseAddr + i))
    :
    Sound { h with bytes } out := by
  refine ⟨sound.tidy, sound.count, sound.inside, sound.injective, fun a member => ?_, sound.disjoint⟩
  have live := sound.live a member
  exact ⟨live.positive, live.small, live.proper, live.mapped, live.apart,
    live.header.congr (headers a member)⟩

/-- The frames `pa ..` are not behind any heap page yet. -/
structure FreshFrames (h : State) (pa pages : Nat) : Prop where
  aligned : pa % pageSize = 0
  unused : ∀ i < pages, ∀ page, h.table page ≠ some (pa / pageSize + i)

/-- The pages `va ..` lie above the first 64K and were not given to the heap yet. -/
structure FreshRange (h : State) (va pages : Nat) : Prop where
  aligned : va % pageSize = 0
  above : 0xFFFF < va
  bounded : va + pages * pageSize ≤ 2 ^ 64
  unmapped : ∀ i < pages, h.table (va / pageSize + i) = none

theorem load_zeroFrames (fresh : FreshFrames h pa pages) (a : Nat) :
    Space.load (State.space { h with bytes := zeroFrames h.bytes pa pages }) a = h.space.load a := by
  simp only [Space.load, State.space]
  cases page : h.table (a / pageSize) with
  | none => rfl
  | some frame =>
    simp only [Option.map_some, zeroFrames]
    rw [if_neg]
    rintro ⟨low, high⟩
    have aligned := fresh.aligned
    rw [mul_pageSize, mod_pageSize] at low
    rw [mul_pageSize, mod_pageSize, mul_pageSize] at high
    rw [mod_pageSize] at aligned
    apply fresh.unused (frame - pa / 4096) (by omega) (a / pageSize)
    rw [page, div_pageSize]
    congr 1
    omega

theorem Sound.zero (sound : Sound h out) (fresh : FreshFrames h pa pages) :
    Sound { h with bytes := zeroFrames h.bytes pa pages } out :=
  sound.with_bytes fun _ _ _ _ => load_zeroFrames fresh _

theorem mapPages_old {page : Nat} (range : FreshRange h va pages) (mapped : h.table page ≠ none) :
    mapPages h.table va pa pages page = h.table page := by
  rw [mapPages_apply, if_neg]
  rintro ⟨low, high⟩
  apply mapped
  have unmapped := range.unmapped (page - va / pageSize) (by omega)
  rwa [Nat.add_sub_cancel' low] at unmapped

theorem mapPages_injective (injective : TableInjective h.table) (frames : FreshFrames h pa pages) :
    TableInjective (mapPages h.table va pa pages) := by
  intro p q frame left right
  rw [mapPages_apply] at left right
  split at left
  · cases left
    split at right
    · have same := Option.some.inj right
      omega
    · exact absurd right (frames.unused _ (by omega) q)
  · split at right
    · cases right
      exact absurd left (frames.unused _ (by omega) p)
    · exact injective p q frame left right

/-- The addresses of a page range. -/
def pageCells (va pages : Nat) : Set Nat := Set.Ico va (va + pages * pageSize)

theorem page_of_cell {a : Nat} (aligned : va % pageSize = 0) (inside : a ∈ pageCells va pages) :
    va / pageSize ≤ a / pageSize ∧ a / pageSize < va / pageSize + pages := by
  obtain ⟨low, high⟩ := inside
  rw [mul_pageSize] at high
  rw [mod_pageSize] at aligned
  rw [div_pageSize va, div_pageSize a]
  omega

theorem heapCells_mapPages (aligned : va % pageSize = 0) :
    pageCells va pages ⊆ heapCells { h with table := mapPages h.table va pa pages } := by
  intro a inside
  have page := page_of_cell aligned inside
  simp only [heapCells, Set.mem_ofPred_eq, mapPages_apply, if_pos page]
  exact Option.some_ne_none _

theorem heapCells_grow (range : FreshRange h va pages) :
    heapCells h ⊆ heapCells { h with table := mapPages h.table va pa pages } := by
  intro a mapped
  simp only [heapCells, Set.mem_ofPred_eq] at mapped ⊢
  rw [mapPages_old range mapped]
  exact mapped

theorem pageCells_fresh (range : FreshRange h va pages) : Disjoint (pageCells va pages) (heapCells h) := by
  rw [Set.disjoint_left]
  intro a inside mapped
  obtain ⟨low, high⟩ := page_of_cell range.aligned inside
  apply mapped
  have unmapped := range.unmapped (a / pageSize - va / pageSize) (by omega)
  rwa [Nat.add_sub_cancel' low] at unmapped

theorem Sound.map_pages (sound : Sound h out) (va pa pages : Nat) (frames : FreshFrames h pa pages)
    (range : FreshRange h va pages) :
    Sound { h with table := mapPages h.table va pa pages } out := by
  refine ⟨sound.tidy, sound.count, sound.inside.trans (heapCells_grow range),
    mapPages_injective sound.injective frames, fun a member => ?_, sound.disjoint⟩
  have live := sound.live a member
  refine ⟨live.positive, live.small, live.proper, live.mapped.trans (heapCells_grow range),
    live.apart, live.header.congr fun i below => ?_⟩
  have mapped := live.mapped (live.header_mem below)
  simp only [Space.load, State.space, mapPages_old range mapped]

theorem Sound.force_free (sound : Sound h out) (aligned : va % pageSize = 0) (above : 0xFFFF < va)
    (positive : 0 < pages) (bounded : va + pages * pageSize ≤ 2 ^ 64) (mapped : pageCells va pages ⊆ heapCells h)
    (unowned : Disjoint (pageCells va pages) (freeCells h.map.freeRegions))
    (untouched : ∀ a ∈ out, Disjoint (cells a.block) (pageCells va pages)) :
    Sound { h with map := forceFreeNolock h.map va (pages * pageSize) } out := by
  obtain ⟨tidy, within, count⟩ :=
    forceFreeNolock_spec sound.tidy sound.count aligned above positive bounded unowned
  exact sound.with_map _ (pageCells va pages) tidy count within mapped untouched

theorem Sound.expand (sound : Sound h out) (positive : 0 < pages) (frames : FreshFrames h pa pages)
    (range : FreshRange h va pages) :
    Sound { h with
      bytes := zeroFrames h.bytes pa pages
      table := mapPages h.table va pa pages
      map := forceFreeNolock h.map va (pages * pageSize) } out := by
  have fresh := pageCells_fresh range
  have zeroed := sound.zero frames
  have mapped := zeroed.map_pages va pa pages
    ⟨frames.aligned, frames.unused⟩ ⟨range.aligned, range.above, range.bounded, range.unmapped⟩
  apply mapped.force_free range.aligned range.above positive range.bounded
  · exact heapCells_mapPages range.aligned
  · exact fresh.mono_right sound.inside
  · intro a member
    exact (fresh.mono_right (sound.live a member).mapped).symm

theorem State.storeWord_spec (injective : TableInjective h.table) {a v : Nat} (mapped : ∀ i < 8, a + i ∈ heapCells h)
    :
    ∃ bytes, h.storeWord a v = .ok { h with bytes } ∧
      (State.space { h with bytes }).Holds a v 8 ∧
      ∀ x, (x < a ∨ a + 8 ≤ x) → (State.space { h with bytes }).load x = h.space.load x := by
  have translated : ∀ i < 8, h.space.translate (a + i) ≠ none := by
    intro i below
    simpa [State.space, heapCells] using mapped i below
  obtain ⟨s, stored, same, holds, others⟩ :=
    Space.storeBytes_spec (v := v) (space_injective injective) translated
  have space : State.space { h with bytes := s.bytes } = s := by
    cases s
    cases same
    rfl
  refine ⟨s.bytes, ?_, ?_, ?_⟩
  · rw [State.storeWord, Space.storeWord, stored]
    rfl
  · rw [space]
    exact holds
  · rw [space]
    exact others

theorem Sound.add {h : State} {out : List Allocation} (sound : Sound h out) {a : Allocation}
    (live : Live h a) (apart : ∀ b ∈ out, Disjoint (cells a.block) (cells b.block)) : Sound h (a :: out) := by
  refine ⟨sound.tidy, sound.count, sound.inside, sound.injective, ?_, ?_⟩
  · intro b member
    rcases List.mem_cons.mp member with rfl | member
    · exact live
    · exact sound.live b member
  · exact List.pairwise_cons.mpr ⟨apart, sound.disjoint⟩

theorem Sound.forget {rest : List Allocation} (sound : Sound h out) (fewer : rest.Sublist out) : Sound h rest :=
  ⟨sound.tidy, sound.count, sound.inside, sound.injective,
    fun a member => sound.live a (fewer.subset member), sound.disjoint.sublist fewer⟩

theorem Tidy.cut {regs : Regions} (tidy : Tidy regs) (size : Nat) (proper : Proper (regs i))
    (shorter : size < (regs i).length) :
    let rest : FreeRegion := ⟨(regs i).baseAddr + size, (regs i).length - size⟩
    Tidy (Function.update regs i rest) ∧
      freeCells (Function.update regs i rest) ⊆ freeCells regs ∧
      Disjoint (cells ⟨(regs i).baseAddr, size⟩) (freeCells (Function.update regs i rest)) := by
  intro rest
  have bounded := proper.bounded
  have above := proper.above
  have formed : Proper rest := ⟨by simp only [rest]; omega, by simp only [rest]; omega,
    by simp only [rest]; omega⟩
  have within : cells rest ⊆ cells (regs i) ∪ ∅ := by
    intro x inside
    simp only [rest, mem_cells, Set.union_empty] at inside ⊢
    omega
  have replaced := tidy.replace (r := i) ∅ (Or.inr formed) within (by simp)
  rw [Set.union_empty] at replaced
  refine ⟨replaced.1, replaced.2, ?_⟩
  rw [Set.disjoint_left]
  intro x inside free
  obtain ⟨k, member⟩ := free
  by_cases here : k = i
  · rw [here, Function.update_self] at member
    simp only [rest, mem_cells] at inside member
    omega
  · rw [Function.update_of_ne here] at member
    have apart := tidy.apart i k (Ne.symm here)
    refine Set.disjoint_left.mp apart ?_ member
    simp only [mem_cells] at inside ⊢
    omega

theorem carve_spec (sound : Sound h out) (positive : 0 < size) (small : size < 2 ^ 31)
    (proper : Proper (h.map.freeRegions i)) (large : fullSize size + 8 ≤ (h.map.freeRegions i).length) :
    ∃ ptr h', carve h i size = .ok (ptr, h') ∧ ptr ≠ 0 ∧ Sound h' (⟨ptr, size⟩ :: out) := by
  have full := fullSize_eq size (by omega)
  have bounded := proper.bounded
  have above := proper.above
  have owned : cells (h.map.freeRegions i) ⊆ freeCells h.map.freeRegions := cells_subset_covered i
  have header : ∀ j < 8, (h.map.freeRegions i).baseAddr + j ∈ cells (h.map.freeRegions i) := by
    intro j below
    rw [mem_cells]
    omega
  obtain ⟨bytes, stored, holds, others⟩ := State.storeWord_spec (v := size) sound.injective
    fun j below => sound.inside (owned (header j below))
  have written : Sound { h with bytes } out := by
    apply sound.with_bytes
    intro a member j below
    apply others
    have live := sound.live a member
    have apart := live.apart.mono_right owned
    have outside := Set.disjoint_left.mp apart (live.header_mem below)
    rw [mem_cells] at outside
    omega
  obtain ⟨tidy, fewer, apart⟩ := sound.tidy.cut (fullSize size) proper (by omega)
  have cut := written.with_map (⟨Function.update h.map.freeRegions i
    ⟨(h.map.freeRegions i).baseAddr + fullSize size, (h.map.freeRegions i).length - fullSize size⟩,
    h.map.freeRegionCount⟩) ∅ tidy sound.count (by simpa using fewer) (Set.empty_subset _)
    fun a _ => Set.disjoint_empty _
  refine ⟨(h.map.freeRegions i).baseAddr + 8, _, ?_, by omega, cut.add ?_ ?_⟩
  · have next : ((h.map.freeRegions i).baseAddr + fullSize size) % 2 ^ 64 =
        (h.map.freeRegions i).baseAddr + fullSize size := Nat.mod_eq_of_lt (by omega)
    have rest : sub64 (h.map.freeRegions i).length (fullSize size) =
        (h.map.freeRegions i).length - fullSize size := sub64_eq (by omega) (by omega)
    have some_left : (h.map.freeRegions i).length - fullSize size ≠ 0 := by omega
    have payload : ((h.map.freeRegions i).baseAddr + headerSize) % 2 ^ 64 =
        (h.map.freeRegions i).baseAddr + 8 := Nat.mod_eq_of_lt (by rw [headerSize]; omega)
    simp only [carve, stored, Outcome.ok_bind, Outcome.pure_eq, next, rest, if_neg some_left, payload]
  · have block : cells ⟨(h.map.freeRegions i).baseAddr, fullSize size⟩ ⊆
        cells (h.map.freeRegions i) := by
      intro x inside
      simp only [mem_cells] at inside ⊢
      omega
    refine ⟨positive, small, ⟨?_, above, ?_⟩, (block.trans owned).trans sound.inside, apart, holds⟩
    · simp only [Allocation.block]
      omega
    · simp only [Allocation.block, headerSize]
      omega
  · intro b member
    have apart := ((sound.live b member).apart.mono_right owned).symm
    refine apart.mono_left ?_
    intro x inside
    simp only [Allocation.block, headerSize, mem_cells] at inside ⊢
    omega

end CreeperKernel.Heap
