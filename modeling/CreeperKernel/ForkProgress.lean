import CreeperKernel.ForkSpace
import CreeperKernel.PmmSequential

namespace CreeperKernel.Fork

open Vmm FallibleLoops
open Pmm (pageSize Ahead mul_pageSize)

variable {old m m' : Kernel} {root parent : Frame}

variable {room left : Nat}

theorem pmmAlloc_progress {p : Pmm.State} (ahead : Ahead p (1 + room)) :
    ∃ f p', FrameAllocator.pmmAlloc p = .ok (f, p') ∧ Ahead p' room := by
  obtain ⟨p', done, after⟩ := Pmm.pmmAlloc_ahead ahead
  refine ⟨pageAt p.bitmapNext, p', ?_, after⟩
  simp only [FrameAllocator.pmmAlloc, done, Outcome.ok_bind, Outcome.pure_eq]
  rfl

theorem pmmAllocPages_progress {count : Nat} (positive : 1 ≤ count) (ahead : Ahead m.frames (count + room)) :
    ∃ f p', pmmAllocPages m count = .ok (f, ⟨m.mem, p'⟩) ∧ f ≠ 0 ∧ Ahead p' room := by
  obtain ⟨p', done, after⟩ := Pmm.pmmAllocPages_ahead positive ahead
  refine ⟨pageAt m.frames.bitmapNext, p', ?_, ?_, after⟩
  · simp only [pmmAllocPages, done, Outcome.ok_bind, Outcome.pure_eq]
    rfl
  · intro zero
    have started := ahead.started
    have enough := ahead.enough
    have small := ahead.bounded.frames
    have same : pageAt m.frames.bitmapNext = pageAt 0 := zero
    have first := pageAt_injective (by omega) (by omega) same
    omega

theorem tableGetOrCreate_progress (table : Frame) (i : Index) (flags : Entry) (ahead : Ahead m.frames (1 + room)) :
    ∃ next m', tableGetOrCreate m table i flags = .ok (next, m') ∧ Ahead m'.frames room := by
  unfold tableGetOrCreate
  dsimp only
  split
  · obtain ⟨f, p', allocated, after⟩ := pmmAlloc_progress ahead
    rw [pmmAllocZeroed, allocated, Outcome.ok_bind]
    dsimp only
    split
    · exact ⟨_, _, rfl, after⟩
    · exact ⟨_, _, rfl, after⟩
  · have fewer := ahead.mono (Nat.le_add_left room 1)
    split
    · exact ⟨_, _, rfl, fewer⟩
    · exact ⟨_, _, rfl, fewer⟩

theorem map4k_progress (root : Frame) (va : Nat) (pa : Frame) (flags : Entry) (ahead : Ahead m.frames (3 + room)) :
    ∃ m', map4k m root va pa flags = .ok m' ∧ Ahead m'.frames room := by
  have split : 3 + room = 1 + (1 + (1 + room)) := by omega
  rw [split] at ahead
  obtain ⟨pdpt, m₁, first, ahead₁⟩ := tableGetOrCreate_progress root (pml4Index va) flags ahead
  obtain ⟨pd, m₂, second, ahead₂⟩ := tableGetOrCreate_progress pdpt (pdptIndex va) flags ahead₁
  obtain ⟨pt, m₃, third, ahead₃⟩ := tableGetOrCreate_progress pd (pdIndex va) flags ahead₂
  refine ⟨m₃.store pt (ptIndex va) (leafEntry pa flags), ?_, ahead₃⟩
  simp only [map4k, first, second, third, Outcome.ok_bind]
  rfl

/-- A page costs at most itself and three tables. -/
theorem forkCopyPage_progress (va : Nat) (e : Entry) (ahead : Ahead m.frames (4 + room)) :
    ∃ m', forkCopyPage root va e m = .ok (true, m') ∧ Ahead m'.frames room := by
  unfold forkCopyPage
  dsimp only
  split
  · have split : 4 + room = 1 + (3 + room) := by omega
    rw [split] at ahead
    obtain ⟨f, p', allocated, nonzero, after⟩ := pmmAllocPages_progress (Nat.le_refl 1) ahead
    rw [allocated, Outcome.ok_bind]
    dsimp only
    rw [if_neg nonzero]
    obtain ⟨m', mapped, last⟩ := map4k_progress (m := ⟨copyPages m.mem f (e &&& pteAddrMask) 1, p'⟩)
      root va f (e &&& ~~~pteAddrMask) after
    rw [mapped]
    exact ⟨m', rfl, last⟩
  · obtain ⟨m', mapped, last⟩ := map4k_progress root va (e &&& pteAddrMask)
      (e &&& ~~~pteAddrMask) (ahead.mono (show 3 + room ≤ 4 + room by omega))
    rw [mapped]
    exact ⟨m', rfl, last⟩

/-- The child under construction, with room for more frames. -/
structure Room (old : Kernel) (root : Frame) (room : Nat) (m : Kernel) : Prop where
  building : Building old root m
  ahead : Ahead m.frames room

/-- The frames a loop over the present entries of a table may take. -/
def entryCost (mem : Memory) (table : Frame) (cost : Frame → Nat) (i : Index) : Nat :=
  if isPresent (mem table i) then cost (frameOf (mem table i)) else 0

def leafTableCost (mem : Memory) (pt : Frame) : Nat :=
  ((List.finRange 512).map (entryCost mem pt fun _ => 4)).sum

def pdCost (mem : Memory) (pd : Frame) : Nat :=
  ((List.finRange 512).map (entryCost mem pd (leafTableCost mem))).sum

def pdptCost (mem : Memory) (pdpt : Frame) : Nat :=
  ((List.finRange 512).map (entryCost mem pdpt (pdCost mem))).sum

/-- A bound on the frames that one pass of `_fork_copy_user_pages` takes. -/
def passCost (mem : Memory) (pml4 : Frame) : Nat :=
  (lowerHalf.map (entryCost mem pml4 (pdptCost mem))).sum

theorem descend_progress (occupied : Occupied old parent) {path : List Index} {table : Frame}
    (inside : path ∈ lowerScope.paths) (here : tableAt old.mem parent path = some table) (cost : Frame → Nat)
    {indices : List Index} {inner : Index → Frame → Kernel → Outcome (Bool × Kernel)}
    (each : ∀ i ∈ indices, ∀ next, tableAt old.mem parent (path ++ [i]) = some next → ∀ left m, Room old root (cost next + left) m → ∃ m', inner i next m = .ok (true, m') ∧ Room old root left m')
    (start : Room old root ((indices.map (entryCost old.mem table cost)).sum + left) m) :
    ∃ m', forEachPresent table indices inner m = .ok (true, m') ∧ Room old root left m' := by
  refine forEach_succeeds (entryCost old.mem table cost) ?_ start
  intro i member left m room
  have same : m.mem table = old.mem table :=
    room.building.kept table (occupied.tables table ⟨path, inside, here⟩)
  rw [same]
  unfold entryCost at room
  by_cases present : isPresent (old.mem table i) = true
  · rw [if_pos present] at room
    rw [if_neg (by simpa using present)]
    refine each i member _ ?_ left m room
    exact (RadixTree.nodeAt_concat_of here).trans (entryChild_of_present present)
  · rw [if_neg present, Nat.zero_add] at room
    rw [if_pos present]
    exact ⟨m, rfl, room⟩

theorem visit_progress (occupied : Occupied old parent) (lo hi : Nat) {i4 i3 i2 : Index} {pt : Frame}
    (low : i4.val < 256) (here : tableAt old.mem parent [i4, i3, i2] = some pt)
    (start : Room old root (leafTableCost old.mem pt + left) m) : ∃ m', forEach (List.finRange 512) (fun i1 m =>
      if ¬ isPresent (m.mem pt i1) then pure (true, m) else
      if lo ≤ vaOf i4 i3 i2 i1 ∧ vaOf i4 i3 i2 i1 < hi then pure (true, m) else
      forkCopyPage root (vaOf i4 i3 i2 i1) (m.mem pt i1) m) m = .ok (true, m') ∧ Room old root left m' := by
  refine forEach_succeeds (entryCost old.mem pt fun _ => 4) ?_ start
  intro i1 _ left m room
  have user : (Slot.mk i4 i3 i2 i1).User := low
  have same : m.mem pt = old.mem pt :=
    room.building.kept pt (occupied.tables pt ⟨_, user.path_mem, here⟩)
  rw [same]
  unfold entryCost at room
  by_cases present : isPresent (old.mem pt i1) = true
  · rw [if_pos present] at room
    rw [if_neg (by simpa using present)]
    split
    · exact ⟨m, rfl, room.building, room.ahead.mono (Nat.le_add_left left 4)⟩
    · have entry : leaf old.mem parent ⟨i4, i3, i2, i1⟩ = some (old.mem pt i1) := by
        show (tableAt old.mem parent [i4, i3, i2]).bind _ = _
        rw [here, Option.bind_some, if_pos present]
      obtain ⟨m', copied, after⟩ := forkCopyPage_progress (vaOf i4 i3 i2 i1) (old.mem pt i1) room.ahead
      exact ⟨m', copied, (forkCopyPage_placed room.building occupied user entry copied).building, after⟩
  · rw [if_neg present, Nat.zero_add] at room
    rw [if_pos present]
    exact ⟨m, rfl, room⟩

theorem forkCopyUserPages_progress (occupied : Occupied old parent) (lo hi : Nat)
    (start : Room old root (passCost old.mem parent + left) m) :
    ∃ m', forkCopyUserPages parent root lo hi m = .ok (true, m') ∧ Room old root left m' := by
  have top : [] ∈ lowerScope.paths := ⟨Nat.zero_le 3, fun i first => by cases first⟩
  refine descend_progress occupied top rfl (pdptCost old.mem) ?_ start
  intro i4 lower pdpt atPdpt left m room
  have low := (mem_lowerHalf i4).mp lower
  refine descend_progress occupied (prefix_scope low 0).1 atPdpt (pdCost old.mem) ?_ room
  intro i3 _ pd atPd left m room
  refine descend_progress occupied (prefix_scope low i3).2 atPd (leafTableCost old.mem) ?_ room
  intro i2 _ pt atPt left m room
  exact visit_progress occupied lo hi low atPt room

theorem map4kPages_progress (root : Frame) (va : Nat) (pa : Frame) (flags : Entry) (indices : List Nat)
    (ahead : Ahead m.frames (3 * indices.length + room)) : ∃ m', indices.foldlM (fun m i =>
      map4k m root (va + i * pageSize) (pa + BitVec.ofNat 64 (i * pageSize)) flags) m = .ok m' ∧ Ahead m'.frames room := by
  induction indices generalizing m with
  | nil =>
    rw [List.length_nil, Nat.mul_zero, Nat.zero_add] at ahead
    exact ⟨m, rfl, ahead⟩
  | cons i rest ih =>
    have split : 3 * (i :: rest).length + room = 3 + (3 * rest.length + room) := by
      rw [List.length_cons]
      omega
    rw [split] at ahead
    obtain ⟨middle, first, after⟩ := map4k_progress root (va + i * pageSize)
      (pa + BitVec.ofNat 64 (i * pageSize)) flags ahead
    obtain ⟨m', others, last⟩ := ih after
    refine ⟨m', ?_, last⟩
    rw [List.foldlM_cons, first, Outcome.ok_bind, others]

/-- A block costs its pages and at most three tables for each of them, whatever is written to it. -/
theorem block_progress {pages : Nat} (positive : 1 ≤ pages) (ahead : Ahead m.frames (4 * pages + room)) (root : Frame)
    (va : Nat) (flags : Entry) : ∃ f p', pmmAllocPages m pages = .ok (f, ⟨m.mem, p'⟩) ∧ f ≠ 0 ∧
      ∀ mem, ∃ m', map4kPages ⟨mem, p'⟩ root va f pages flags = .ok m' ∧ Ahead m'.frames room := by
  have split : 4 * pages + room = pages + (3 * pages + room) := by omega
  rw [split] at ahead
  obtain ⟨f, p', allocated, nonzero, after⟩ := pmmAllocPages_progress positive ahead
  rw [← List.length_range (n := pages)] at after
  exact ⟨f, p', allocated, nonzero, fun mem => map4kPages_progress (m := ⟨mem, p'⟩) root va f flags (List.range pages) after⟩

theorem forkRegion_progress (reserve : Reserve old.frames) (occupied : Occupied old parent) {va pages : Nat}
    {flags : Entry} (clean : flags &&& pteAddrMask = 0) (positive : 1 ≤ pages)
    (inside : va + pages * pageSize ≤ stackUpperUspaceAddr) (found : walkLeafPhys old.mem parent va ≠ 0)
    (start : Room old root (4 * pages + left) m) :
    ∃ m', forkRegion parent root va pages flags m = .ok (true, m') ∧ Room old root left m' := by
  have user := slotsFrom_user inside
  have first : slotOf va ∈ slotsFrom va pages :=
    List.mem_map.mpr ⟨0, List.mem_range.mpr positive, by rw [Nat.zero_mul, Nat.add_zero]⟩
  have same : walkLeafPhys m.mem parent va = walkLeafPhys old.mem parent va := by
    rw [walkLeafPhys_eq, walkLeafPhys_eq, start.building.parent_leaf occupied (user _ first)]
  obtain ⟨f, p', allocated, nonzero, maps⟩ := block_progress positive start.ahead root va flags
  obtain ⟨m', mapped, last⟩ := maps (copyPages m.mem f (walkLeafPhys m.mem parent va) pages)
  have done : forkRegion parent root va pages flags m = .ok (true, m') := by
    have known : walkLeafPhys m.mem parent va ≠ 0 := by
      rw [same]
      exact found
    have block : forkCopyContigBlock root va (walkLeafPhys m.mem parent va) pages flags m =
        .ok (f, m') := by
      simp only [forkCopyContigBlock, allocated, Outcome.ok_bind, if_neg nonzero, mapped]
      rfl
    simp only [forkRegion, if_neg known, block, Outcome.ok_bind, Outcome.pure_eq]
    simpa using nonzero
  exact ⟨m', done, (forkRegion_spec reserve start.building clean user done).2.building, last⟩

/-- The frames a whole fork may take. -/
def forkCost (mem : Memory) (parent : Parent) : Nat :=
  1 + 4 * (parent.heapSize / pageSize) + 4 * defaultFileTablePages + 4 * defaultStackPageAmount +
    3 * passCost mem parent.cr3

/-- The pages `fork_process` looks up before it copies a region are mapped. -/
structure Forkable (mem : Memory) (parent : Parent) : Prop where
  heap : parent.heapLower ≠ 0 → pageSize ≤ parent.heapSize ∧
    walkLeafPhys mem parent.cr3 parent.heapLower ≠ 0
  files : parent.openedFileTable ≠ 0 → walkLeafPhys mem parent.cr3 parent.openedFileTable ≠ 0
  stack : walkLeafPhys mem parent.cr3 stackVaBase ≠ 0

theorem Room.mono {less : Nat} (start : Room old root room m) (fewer : less ≤ room) : Room old root less m :=
  ⟨start.building, start.ahead.mono fewer⟩

section Fixed

variable {parent : Parent} {left : Nat} (reserve : Reserve old.frames)
  (occupied : Occupied old parent.cr3) (forkable : Forkable old.mem parent)

include reserve occupied forkable

theorem forkHeap_progress (start : Room old root (4 * (parent.heapSize / pageSize) + left) m) :
    ∃ m', forkHeap parent root m = .ok (true, m') ∧ Room old root left m' := by
  unfold forkHeap
  split
  · exact ⟨m, rfl, start.mono (Nat.le_add_left left _)⟩
  · rename_i present
    obtain ⟨size, found⟩ := forkable.heap present
    have positive : 1 ≤ parent.heapSize / pageSize := (Nat.one_le_div_iff (by decide)).mpr size
    have inside : parent.heapLower + parent.heapSize / pageSize * pageSize ≤ stackUpperUspaceAddr :=
      (Nat.add_le_add_left (Nat.div_mul_le_self _ _) _).trans parent.heapInside
    exact forkRegion_progress reserve occupied (by decide) positive inside found start

theorem forkFileTable_progress (start : Room old root (4 * defaultFileTablePages + left) m) :
    ∃ m', forkFileTable parent root m = .ok (true, m') ∧ Room old root left m' := by
  unfold forkFileTable
  split
  · exact ⟨m, rfl, start.mono (Nat.le_add_left left _)⟩
  · rename_i present
    exact forkRegion_progress reserve occupied (by decide) (by decide) parent.filesInside
      (forkable.files present) start

theorem forkStack_progress (start : Room old root (4 * defaultStackPageAmount + left) m) :
    ∃ m', forkStack parent root m = .ok (true, m') ∧ Room old root left m' :=
  forkRegion_progress reserve occupied (by decide) (by decide) (by decide) forkable.stack start

/-- `fork_process` copies the address space when there is enough memory. -/
theorem fork_succeeds (inUse : InUse) (ahead : Ahead old.frames (forkCost old.mem parent)) :
    ∃ root m, forkAddressSpace inUse parent old = .ok (some root, m) := by
  have total : forkCost old.mem parent = 1 + (4 * (parent.heapSize / pageSize) +
      (4 * defaultFileTablePages + (4 * defaultStackPageAmount + (passCost old.mem parent.cr3 +
        (passCost old.mem parent.cr3 + (passCost old.mem parent.cr3 + 0)))))) := by
    unfold forkCost
    omega
  rw [total] at ahead
  obtain ⟨root, p', allocated, nonzero, after⟩ := pmmAllocPages_progress (Nat.le_refl 1) ahead
  obtain ⟨building, -⟩ := start_building reserve parent.cr3 allocated
  obtain ⟨m₁, heap, room₁⟩ := forkHeap_progress reserve occupied forkable ⟨building, after⟩
  obtain ⟨m₂, files, room₂⟩ := forkFileTable_progress reserve occupied forkable room₁
  obtain ⟨m₃, stack, room₃⟩ := forkStack_progress reserve occupied forkable room₂
  obtain ⟨m₄, passA, room₄⟩ :=
    forkCopyUserPages_progress occupied defaultUserHeapStart defaultUserHeapEnd room₃
  obtain ⟨m₅, passB, room₅⟩ := forkCopyUserPages_progress occupied defaultFileTableStart
    (defaultFileTableStart + defaultFileTablePages * pageSize) room₄
  obtain ⟨m, passC, -⟩ := forkCopyUserPages_progress occupied stackVaBase
    (stackVaBase + defaultStackPageBytes) room₅
  have copied : forkUserHalf parent root _ = .ok (true, m) :=
    andThen_eq_true.mpr ⟨m₁, heap, andThen_eq_true.mpr ⟨m₂, files, andThen_eq_true.mpr ⟨m₃, stack,
      andThen_eq_true.mpr ⟨m₄, passA, andThen_eq_true.mpr ⟨m₅, passB, passC⟩⟩⟩⟩⟩
  refine ⟨root, m, ?_⟩
  simp only [forkAddressSpace, allocated, Outcome.ok_bind, if_neg nonzero, copied]
  rfl

end Fixed

end CreeperKernel.Fork
