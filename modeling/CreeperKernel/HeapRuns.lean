import CreeperKernel.HeapInvariant
import CreeperKernel.Transitions

namespace CreeperKernel.Heap

open MappedMemory (Space)
open Pmm (pageSize mul_pageSize div_pageSize mod_pageSize)
open Transitions (Run)

/-- What `pmm_alloc_pages_zeroed` and `kvma_alloc` may hand to the heap: nothing the
heap has already. A `va` of 0 is a failed `kvma_alloc`. -/
structure Fresh (h : State) (pa va pages : Nat) : Prop where
  frames : FreshFrames h pa pages
  range : va ≠ 0 → FreshRange h va pages

/-- The outstanding allocations after `kmalloc_impl` returned `ptr`. -/
def handOut (ptr size : Nat) (out : List Allocation) : List Allocation :=
  if ptr = 0 then out else ⟨ptr, size⟩ :: out

theorem usableRegion_some {m : RegionMap} {found : Option Nat} {i : Nat}
    (usable : usableRegion m found = some i) : found = some i := by
  unfold usableRegion at usable
  rw [Option.filter_eq_some_iff] at usable
  exact usable.1

variable {size pa va frame page : Nat}

theorem pagesNeeded_pos (positive : 0 < size) (small : size < 2 ^ 31) : 0 < pagesNeeded size := by
  have full := fullSize_eq size (by omega)
  have page : pageSize = 4096 := rfl
  rw [pagesNeeded, div_pageSize, page]
  omega

variable {out : List Allocation} {h : State}

theorem search_spec (sound : Sound h out) (positive : 0 < size) (small : size < 2 ^ 31) :
    ∃ found map, firstRegionOfSizeOrMore h.map (fullSize size) = .ok (found, map) ∧
      Sound { h with map } out ∧ map.freeRegionCount = h.map.freeRegionCount ∧
      ∀ i, usableRegion map found = some i →
        ∃ ptr h', carve { h with map } i size = .ok (ptr, h') ∧ Sound h' (handOut ptr size out) := by
  obtain ⟨found, map, searched, result⟩ := firstRegion_spec sound.tidy sound.count (fullSize size)
  have joined := sound.of_found result
  refine ⟨found, map, searched, joined, result.count, ?_⟩
  intro i usable
  obtain ⟨proper, large⟩ := result.large i (usableRegion_some usable)
  rw [fullSize_fullSize small] at large
  obtain ⟨ptr, h', carved, nonzero, sound'⟩ := carve_spec joined positive small proper large
  refine ⟨ptr, h', carved, ?_⟩
  rw [handOut, if_neg nonzero]
  exact sound'

theorem expandAndCarve_spec (sound : Sound h out) (positive : 0 < size) (small : size < 2 ^ 31)
    (fresh : Fresh h pa va (pagesNeeded size)) :
    ∃ ptr h', expandAndCarve h size pa va = .ok (ptr, h') ∧ Sound h' (handOut ptr size out) := by
  unfold expandAndCarve
  dsimp only
  split
  · exact ⟨0, _, rfl, sound.zero fresh.frames⟩
  · split
    · exact ⟨0, _, rfl, sound.zero fresh.frames⟩
    · rename_i got
      have expanded := sound.expand (pagesNeeded_pos positive small) fresh.frames (fresh.range got)
      obtain ⟨found, map, searched, joined, -, cut⟩ := search_spec expanded positive small
      rw [searched, Outcome.ok_bind]
      dsimp only
      cases usable : usableRegion map found with
      | none => exact ⟨0, _, rfl, joined⟩
      | some i => exact cut i usable

/-- `kmalloc_impl` always returns, and what it returns is a live block or 0. -/
theorem kmallocImpl_spec (sound : Sound h out) (positive : 0 < size) (small : size < 2 ^ 31)
    (fresh : Fresh h pa va (pagesNeeded size)) :
    ∃ ptr h', kmallocImpl h size pa va = .ok (ptr, h') ∧ Sound h' (handOut ptr size out) := by
  unfold kmallocImpl
  rw [if_neg (by omega), if_neg (by rw [headerSize]; omega)]
  obtain ⟨found, map, searched, joined, -, cut⟩ := search_spec sound positive small
  rw [searched, Outcome.ok_bind]
  dsimp only
  cases usable : usableRegion map found with
  | some i => exact cut i usable
  | none =>
    apply expandAndCarve_spec joined positive small
    exact ⟨⟨fresh.frames.aligned, fresh.frames.unused⟩, fun got =>
      have range := fresh.range got
      ⟨range.aligned, range.above, range.bounded, range.unmapped⟩⟩

variable {a : Allocation}

theorem Sound.apart_erase (sound : Sound h out) (held : a ∈ out) :
    ∀ b ∈ out.erase a, Disjoint (cells a.block) (cells b.block) := by
  have moved := ((List.perm_cons_erase held).pairwise_iff fun h => h.symm).mp sound.disjoint
  exact (List.pairwise_cons.mp moved).1

/-- `kfree_impl` reads the size back from the header and returns the whole block. -/
theorem kfreeImpl_spec (sound : Sound h out) (held : a ∈ out) :
    ∃ h', kfreeImpl h a.ptr = .ok h' ∧ Sound h' (out.erase a) := by
  have live := sound.live a held
  have positive := live.positive
  have small := live.small
  have above := live.proper.above
  have bounded := live.proper.bounded
  have length := live.block_length
  have base : a.block.baseAddr = a.ptr - 8 := rfl
  have address : sub64 a.ptr headerSize = a.block.baseAddr := by
    rw [headerSize, sub64_eq (by omega) (by omega), base]
  have size : (a.size + headerSize) % 2 ^ 64 = a.size + 8 := Nat.mod_eq_of_lt (by rw [headerSize]; omega)
  have block : (⟨a.block.baseAddr, alignUp8 (a.size + 8)⟩ : FreeRegion) = a.block := by
    rw [Allocation.block, fullSize, size]
  have stored := Space.loadWord_of_holds live.header (by omega)
  obtain ⟨map, returned, tidy, within, count⟩ :=
    returnBlock_spec sound.tidy sound.count live.proper live.apart
  refine ⟨{ h with map }, ?_, ?_⟩
  · unfold kfreeImpl
    rw [if_neg (by omega), address, stored]
    simp only [orFault, Outcome.ok_bind, size, if_neg (Nat.succ_ne_zero _), block, returned,
      Outcome.pure_eq]
  · apply (sound.forget List.erase_sublist).with_map map (cells a.block) tidy count within live.mapped
    intro b member
    exact (sound.apart_erase held b member).symm

theorem storeByte_spec (sound : Sound h out) (held : a ∈ out) {offset : Nat} (inside : offset < a.size) (b : BitVec 8)
    : ∃ h', h.storeByte (a.ptr + offset) b = .ok h' ∧ Sound h' out := by
  have live := sound.live a held
  have length := live.block_length
  have above := live.proper.above
  have base : a.block.baseAddr = a.ptr - 8 := rfl
  have member : a.ptr + offset ∈ cells a.block := by
    rw [mem_cells]
    omega
  have injective := space_injective sound.injective
  obtain ⟨s, stored⟩ := Space.store_some (s := h.space) (a := a.ptr + offset) (b := b)
    (by simpa [State.space, heapCells] using live.mapped member)
  have space : State.space { h with bytes := s.bytes } = s := by
    have same := Space.store_translate stored
    cases s
    cases same
    rfl
  refine ⟨{ h with bytes := s.bytes }, by rw [State.storeByte, stored]; rfl, ?_⟩
  apply sound.with_bytes
  intro c outstanding i below
  rw [space, Space.load_store injective stored, if_neg]
  intro same
  by_cases mine : c = a
  · subst mine
    omega
  · have apart := sound.apart_erase held c ((List.mem_erase_of_ne mine).mpr outstanding)
    apply Set.disjoint_left.mp apart member
    rw [← same]
    exact (sound.live c outstanding).header_mem below

/-- The pages `init_allocator` gets, each fresh when it is handed over. -/
def FreshSeeds (h : State) : List (Nat × Nat) → Prop
  | [] => True
  | (pa, va) :: rest =>
    pa = 0 ∨ Fresh h pa va 1 ∧ (va = 0 ∨ FreshSeeds (seedPage h pa va) rest)

theorem seedPage_sound (sound : Sound h out) (frames : FreshFrames h pa 1) (range : FreshRange h va 1) :
    Sound (seedPage h pa va) out := by
  have fresh := pageCells_fresh range
  have mapped := (sound.zero frames).map_pages va pa 1
    ⟨frames.aligned, frames.unused⟩ ⟨range.aligned, range.above, range.bounded, range.unmapped⟩
  unfold seedPage
  dsimp only
  split
  · rename_i room
    have cellsEq : cells ⟨va, pageSize⟩ = pageCells va 1 := by
      rw [cells, pageCells, Nat.one_mul]
    have bounded := range.bounded
    rw [Nat.one_mul] at bounded
    have proper : Proper ⟨va, pageSize⟩ := ⟨Nat.zero_lt_succ _, range.above, bounded⟩
    obtain ⟨tidy, within⟩ := sound.tidy.replace (r := h.map.freeRegionCount) (pageCells va 1)
      (Or.inr proper) (by rw [cellsEq]; exact Set.subset_union_right) (fresh.mono_right sound.inside)
    refine mapped.with_map ⟨_, h.map.freeRegionCount + 1⟩ (pageCells va 1) tidy room within
      ?_ ?_
    · exact heapCells_mapPages range.aligned
    · intro a member
      exact (fresh.mono_right (sound.live a member).mapped).symm
  · exact mapped

theorem seedPages_sound (sound : Sound h out) (seeds : List (Nat × Nat)) (fresh : FreshSeeds h seeds) :
    Sound (seedPages h seeds) out := by
  induction seeds generalizing h with
  | nil => exact sound
  | cons seed rest ih =>
    obtain ⟨pa, va⟩ := seed
    unfold seedPages
    split
    · exact sound
    · rename_i gotFrame
      rw [FreshSeeds, or_iff_right gotFrame] at fresh
      split
      · exact sound.zero fresh.1.frames
      · rename_i gotRange
        apply ih
        · exact seedPage_sound sound fresh.1.frames (fresh.1.range gotRange)
        · exact fresh.2.resolve_left gotRange

theorem boot_sound (bytes : Nat → BitVec 8) : Sound (boot bytes) [] := by
  have none_free : freeCells (boot bytes).map.freeRegions ⊆ ∅ := by
    apply DisjointFamilies.covered_subset
    intro k
    exact cells_hole.subset
  refine ⟨⟨fun k => Or.inl rfl, fun a b _ => ?_⟩, Nat.zero_le _, ?_, ?_, by simp, .nil⟩
  · simp [boot]
  · exact none_free.trans (Set.empty_subset _)
  · intro p q frame mapped
    cases mapped

/-- The heap together with the pointers its callers hold. -/
structure Session where
  heap : State
  outstanding : List Allocation

inductive Op where
  | kmalloc (size : Nat)
  | kfree (ptr : Nat)
  | write (address : Nat) (value : BitVec 8)
  deriving DecidableEq, Repr

/-- One call on the heap, or one byte written by a caller inside an allocation it
holds. -/
inductive Step : Session → Op → Session → Prop where
  | kmalloc {s : Session} {size pa va ptr : Nat} {heap : State} (positive : 0 < size)
      (small : size < 2 ^ 31) (fresh : Fresh s.heap pa va (pagesNeeded size))
      (done : kmallocImpl s.heap size pa va = .ok (ptr, heap)) :
      Step s (.kmalloc size) ⟨heap, handOut ptr size s.outstanding⟩
  | kfree {s : Session} {a : Allocation} {heap : State} (held : a ∈ s.outstanding)
      (done : kfreeImpl s.heap a.ptr = .ok heap) :
      Step s (.kfree a.ptr) ⟨heap, s.outstanding.erase a⟩
  | write {s : Session} {a : Allocation} {offset : Nat} {value : BitVec 8} {heap : State}
      (held : a ∈ s.outstanding) (inside : offset < a.size)
      (done : s.heap.storeByte (a.ptr + offset) value = .ok heap) :
      Step s (.write (a.ptr + offset) value) ⟨heap, s.outstanding⟩

variable {s' s : Session}

theorem step_sound {op : Op} (sound : Sound s.heap s.outstanding) (taken : Step s op s') : Sound s'.heap s'.outstanding := by
  cases taken with
  | kmalloc positive small fresh done =>
    obtain ⟨ptr, heap, returned, after⟩ := kmallocImpl_spec sound positive small fresh
    cases done.symm.trans returned
    exact after
  | kfree held done =>
    obtain ⟨heap, returned, after⟩ := kfreeImpl_spec sound held
    cases done.symm.trans returned
    exact after
  | write held inside done =>
    obtain ⟨heap, returned, after⟩ := storeByte_spec sound held inside _
    cases done.symm.trans returned
    exact after

theorem run_sound {ops : List Op} (run : Run Step s ops s') (sound : Sound s.heap s.outstanding) :
    Sound s'.heap s'.outstanding :=
  run.invariant (fun t => Sound t.heap t.outstanding) (fun _ _ _ => step_sound) sound

/-- The header and the bytes the caller asked for. -/
def Allocation.range (a : Allocation) : Set Nat := Set.Ico (a.ptr - 8) (a.ptr + a.size)

theorem Live.range_subset (live : Live h a) : a.range ⊆ cells a.block := by
  have length := live.block_length
  have above := live.proper.above
  have base : a.block.baseAddr = a.ptr - 8 := rfl
  intro x inside
  obtain ⟨low, high⟩ := inside
  rw [mem_cells]
  omega

/-- Kernel heap safety over whole runs, from the region map seeded by
`init_allocator`. The last two conjuncts say that the calls of the next step
return. -/
theorem heap_runs_safe (bytes : Nat → BitVec 8) (seeds : Fin kernelHeapSeedPages → Nat × Nat)
    (fresh : FreshSeeds (boot bytes) (List.ofFn seeds))
    (ops : List Op) (s : Session) (run : Run Step ⟨initAllocator (boot bytes) seeds, []⟩ ops s) :
    s.outstanding.Pairwise (fun a b => Disjoint a.range b.range) ∧
    (∀ a ∈ s.outstanding, ∀ k, (s.heap.map.freeRegions k).length ≠ 0 →
      Disjoint a.range (Set.Ico (s.heap.map.freeRegions k).baseAddr
        ((s.heap.map.freeRegions k).baseAddr + (s.heap.map.freeRegions k).length))) ∧
    (∀ a ∈ s.outstanding, ∀ x ∈ a.range, ∃ frame, s.heap.table (x / pageSize) = some frame) ∧
    (∀ a ∈ s.outstanding, s.heap.space.loadWord (a.ptr - 8) = some a.size) ∧
    (∀ size pa va, 0 < size → size < 2 ^ 31 → Fresh s.heap pa va (pagesNeeded size) →
      ∃ result, kmallocImpl s.heap size pa va = .ok result) ∧
    (∀ a ∈ s.outstanding, ∃ heap, kfreeImpl s.heap a.ptr = .ok heap) := by
  have sound := run_sound run (seedPages_sound (boot_sound bytes) (List.ofFn seeds) fresh)
  refine ⟨?_, ?_, ?_, ?_, ?_, ?_⟩
  · apply sound.disjoint.imp_of_mem
    intro a b left right apart
    exact apart.mono (sound.live a left).range_subset (sound.live b right).range_subset
  · intro a member k _
    have live := sound.live a member
    have entry : cells (s.heap.map.freeRegions k) ⊆ freeCells s.heap.map.freeRegions :=
      DisjointFamilies.cells_subset_covered k
    exact live.apart.mono live.range_subset entry
  · intro a member x inside
    have live := sound.live a member
    exact Option.ne_none_iff_exists'.mp (live.mapped (live.range_subset inside))
  · intro a member
    have live := sound.live a member
    have small := live.small
    exact Space.loadWord_of_holds live.header (by omega)
  · intro size pa va positive small given
    obtain ⟨ptr, heap, returned, -⟩ := kmallocImpl_spec sound positive small given
    exact ⟨_, returned⟩
  · intro a member
    obtain ⟨heap, returned, -⟩ := kfreeImpl_spec sound member
    exact ⟨heap, returned⟩

/-- The heap has no page from `page` on and no frame from `frame` on. -/
def Below (h : State) (page frame : Nat) : Prop :=
  ∀ p f, h.table p = some f → p < page ∧ f < frame

theorem Below.fresh (below : Below h page frame) (pages : Nat) (above : 16 ≤ page) (bounded : page + pages ≤ 2 ^ 52) :
    Fresh h (4096 * frame) (4096 * page) pages := by
  refine ⟨⟨?_, ?_⟩, fun _ => ⟨?_, ?_, ?_, ?_⟩⟩
  · exact Nat.mul_mod_right _ _
  · intro i _ p mapped
    rw [div_pageSize, Nat.mul_div_cancel_left _ (by decide)] at mapped
    have used := below p _ mapped
    omega
  · exact Nat.mul_mod_right _ _
  · omega
  · rw [mul_pageSize]
    omega
  · intro i _
    rw [div_pageSize, Nat.mul_div_cancel_left _ (by decide), Option.eq_none_iff_forall_ne_some]
    intro f mapped
    have used := below _ f mapped
    omega

theorem Below.seed (below : Below h page frame) :
    Below (seedPage h (4096 * frame) (4096 * page)) (page + 1) (frame + 1) := by
  intro p f mapped
  have table : (seedPage h (4096 * frame) (4096 * page)).table =
      mapPages h.table (4096 * page) (4096 * frame) 1 := by
    unfold seedPage
    dsimp only
    split <;> rfl
  rw [table, mapPages_apply, div_pageSize, div_pageSize, Nat.mul_div_cancel_left _ (by decide),
    Nat.mul_div_cancel_left _ (by decide)] at mapped
  split at mapped
  · cases mapped
    omega
  · have used := below p f mapped
    omega

/-- The pages a machine hands out that counts upwards. -/
def countingUp (page frame : Nat) : Fin kernelHeapSeedPages → Nat × Nat := fun i =>
  (4096 * (frame + i), 4096 * (page + i))

theorem countingUp_fresh (below : Below h page frame) (above : 16 ≤ page)
    (bounded : page + kernelHeapSeedPages ≤ 2 ^ 52) : FreshSeeds h (List.ofFn (countingUp page frame)) := by
  have bounded : page + 4 ≤ 2 ^ 52 := bounded
  have second := below.seed
  have third := second.seed
  have fourth := third.seed
  exact .inr ⟨below.fresh 1 above (by omega), .inr (.inr ⟨second.fresh 1 (by omega) (by omega),
    .inr (.inr ⟨third.fresh 1 (by omega) (by omega), .inr (.inr ⟨fourth.fresh 1 (by omega) (by omega),
    .inr trivial⟩)⟩)⟩)⟩

theorem countingUp_below (below : Below h page frame) (above : 0 < page) (nonzero : 0 < frame) :
    Below (initAllocator h (countingUp page frame)) (page + 4) (frame + 4) := by
  have seeded : initAllocator h (countingUp page frame) =
      seedPage (seedPage (seedPage (seedPage h (4096 * frame) (4096 * page))
        (4096 * (frame + 1)) (4096 * (page + 1))) (4096 * (frame + 2)) (4096 * (page + 2)))
        (4096 * (frame + 3)) (4096 * (page + 3)) := by
    have list : List.ofFn (countingUp page frame) = [(4096 * frame, 4096 * page),
      (4096 * (frame + 1), 4096 * (page + 1)), (4096 * (frame + 2), 4096 * (page + 2)),
      (4096 * (frame + 3), 4096 * (page + 3))] := rfl
    simp only [initAllocator, list, seedPages]
    repeat rw [if_neg (by omega)]
  rw [seeded]
  exact below.seed.seed.seed.seed

def pointerOf : Outcome (Nat × State) → Option Nat
  | .ok (ptr, _) => some ptr
  | _ => none

theorem eq_ok_of_pointerOf {result : Outcome (Nat × State)} {ptr : Nat}
    (returned : pointerOf result = some ptr) : ∃ heap, result = .ok (ptr, heap) := by
  cases result with
  | ok value =>
    cases returned
    exact ⟨value.2, rfl⟩
  | panic reason => cases returned
  | fault => cases returned
  | hang => cases returned

/-- A request for more than the seed pages, then a write into the new block. -/
theorem heap_runs_safe_large_block :
    ∃ s, Run Step ⟨initAllocator (boot fun _ => 0) (countingUp 0xFFFFA00000000 16), []⟩
        [.kmalloc 20000, .write (0xFFFFA00000000008 + 19999) 7] s ∧
      s.outstanding = [⟨0xFFFFA00000000008, 20000⟩] ∧
      ∀ a ∈ s.outstanding, s.heap.space.loadWord (a.ptr - 8) = some a.size := by
  have empty : Below (boot fun _ => 0) 0xFFFFA00000000 16 := by
    intro p f mapped
    cases mapped
  have next := (countingUp_below empty (by decide) (by decide)).fresh (pagesNeeded 20000)
    (by decide) (by decide)
  have returned : pointerOf (kmallocImpl
      (initAllocator (boot fun _ => 0) (countingUp 0xFFFFA00000000 16)) 20000
      (4096 * 20) (4096 * 0xFFFFA00000004)) = some 0xFFFFA00000000008 := by decide +kernel
  obtain ⟨heap, allocated⟩ := eq_ok_of_pointerOf returned
  have first := Run.single (Step.kmalloc (by decide : 0 < 20000) (by decide) next allocated)
    (s := ⟨_, []⟩)
  have fresh := countingUp_fresh empty (by decide) (by decide)
  have sound := run_sound first (seedPages_sound (boot_sound _) _ fresh)
  have held : (⟨0xFFFFA00000000008, 20000⟩ : Allocation) ∈ [⟨0xFFFFA00000000008, 20000⟩] :=
    List.mem_singleton.mpr rfl
  have inside : 19999 < (⟨0xFFFFA00000000008, 20000⟩ : Allocation).size := by decide
  obtain ⟨heap', stored, -⟩ := storeByte_spec sound held inside 7
  have run := first.snoc (.write held inside stored)
  have safe := heap_runs_safe _ _ fresh _ _ run
  exact ⟨_, run, rfl, safe.2.2.2.1⟩

end CreeperKernel.Heap
