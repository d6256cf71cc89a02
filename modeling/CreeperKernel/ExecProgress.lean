import CreeperKernel.ExecSpace
import CreeperKernel.ForkProgress

namespace CreeperKernel.Exec

open Vmm Fork FallibleLoops RadixTree
open Pmm (pageSize Ahead)

variable {old m : Kernel} {root cr3 : Frame} {mem : Memory}

variable {left : Nat}

theorem mapNewBlock_progress (reserve : Reserve old.frames) (va : Nat) {pages : Nat} (flags : Entry)
    (contents : Nat → Index → Entry) (clean : flags &&& pteAddrMask = 0) (positive : 1 ≤ pages)
    (inside : va + pages * pageSize ≤ stackUpperUspaceAddr) (start : Room old root (4 * pages + left) m) :
    ∃ phys m', mapNewBlock root va pages flags contents m = .ok (some (phys, m')) ∧ Room old root left m' := by
  obtain ⟨f, p', allocated, nonzero, maps⟩ := block_progress positive start.ahead root va flags
  obtain ⟨m', mapped, last⟩ := maps (fillPages m.mem f pages contents)
  have done : mapNewBlock root va pages flags contents m = .ok (some (f, m')) := by
    simp only [mapNewBlock, allocated, Outcome.ok_bind, if_neg nonzero, mapped]
    rfl
  obtain ⟨-, added⟩ := mapNewBlock_spec reserve start.building clean positive inside done
  exact ⟨f, m', done, added.building, last⟩

def segmentsCost (segments : List Segment) : Nat := (segments.map fun seg => 4 * seg.segPages).sum

theorem loadSegments_progress (reserve : Reserve old.frames) (segments : List Segment)
    (start : Room old root (segmentsCost segments + left) m) :
    ∃ m', loadSegments root segments m = .ok (some m') ∧ Ahead m'.frames left := by
  induction segments generalizing m with
  | nil =>
    rw [segmentsCost, List.map_nil, List.sum_nil, Nat.zero_add] at start
    exact ⟨m, rfl, start.ahead⟩
  | cons seg rest ih =>
    rw [segmentsCost, List.map_cons, List.sum_cons, Nat.add_assoc] at start
    obtain ⟨f, middle, first, room⟩ := mapNewBlock_progress reserve seg.vaddrAligned seg.mapFlags
      seg.contents seg.mapFlags_clean seg.segPages_pos seg.inside_user start
    obtain ⟨m', others, after⟩ := ih room
    exact ⟨m', withSome_eq_some.mpr ⟨(f, middle), first, others⟩, after⟩

/-- The frames that loading a program may take. -/
def loadCost (program : Program) : Nat :=
  1 + program.rawPages + segmentsCost program.segments + 4 * defaultUserHeapPages +
    4 * defaultFileTablePages + 4 * defaultStackPageAmount

theorem newUsprocSpace_progress (reserve : Reserve old.frames) (kernel : Frame) (userStack : Nat → Index → Entry)
    (start : Room old root (4 * defaultUserHeapPages + (4 * defaultFileTablePages + (4 * defaultStackPageAmount + left))) m)
    : ∃ files m', newUsprocSpace kernel root userStack m = .ok (some (files, m')) ∧ Room old root left m' := by
  have shared : Room old root (4 * defaultUserHeapPages + (4 * defaultFileTablePages +
      (4 * defaultStackPageAmount + left))) ⟨shareKernelHalf m.mem root kernel, m.frames⟩ :=
    ⟨start.building.share kernel, start.ahead⟩
  obtain ⟨heap, m₁, first, room₁⟩ := mapNewBlock_progress reserve defaultUserHeapStart
    (pteUser ||| pteWritable ||| pteLocalOwned) (fun _ _ => 0) (by decide) (by decide)
    (by decide) shared
  obtain ⟨files, m₂, second, room₂⟩ := mapNewBlock_progress reserve defaultFileTableStart
    (pteWritable ||| pteLocalOwned) (fun _ _ => 0) (by decide) (by decide) (by decide) room₁
  obtain ⟨stack, m₃, third, room₃⟩ := mapNewBlock_progress reserve stackVaBase
    (pteWritable ||| pteNx ||| pteUser ||| pteLocalOwned) userStack (by decide) (by decide)
    (by decide) room₂
  exact ⟨files, m₃, withSome_eq_some.mpr ⟨_, first, withSome_eq_some.mpr ⟨_, second,
    withSome_eq_some.mpr ⟨_, third, rfl⟩⟩⟩, room₃⟩

theorem Ahead.gave {p p' : Pmm.State} {room : Nat} {b : Pmm.Block} (ahead : Ahead p room)
    (gave : Pmm.Gave p p' b) (cursor : p'.bitmapNext = p.bitmapNext) : Ahead p' room := by
  refine ⟨gave.bounded, cursor ▸ ahead.started, fun bit low high => ?_, ?_⟩
  · rw [cursor] at low
    rw [gave.total] at high
    rw [gave.cleared, ahead.clear bit low high, Bool.false_and]
  · rw [cursor, gave.total]
    exact ahead.enough

theorem loadElfFromVfs_progress (reserve : Reserve old.frames) (kernel : Frame) (program : Program)
    (stdin : Stdin) (ahead : Ahead old.frames (loadCost program)) :
    ∃ root m, loadElfFromVfs kernel program stdin old = .ok (some (root, m)) := by
  have total : loadCost program = 1 + (program.rawPages + (segmentsCost program.segments +
      (4 * defaultUserHeapPages + (4 * defaultFileTablePages + (4 * defaultStackPageAmount + 0))))) := by
    unfold loadCost
    omega
  rw [total] at ahead
  obtain ⟨root, p₁, allocated, nonzero, ahead₁⟩ := pmmAllocPages_progress (Nat.le_refl 1) ahead
  obtain ⟨blank, -⟩ := blank_building reserve allocated
  obtain ⟨raw, p₂, scratch, here, ahead₂⟩ :=
    pmmAllocPages_progress (m := ⟨zeroPage old.mem root, p₁⟩) program.rawPages_pos ahead₁
  obtain ⟨filled, first, rfl, inside, fresh⟩ :=
    scratch_spec blank program.rawPages_pos program.rawImage scratch
  obtain ⟨m₃, loaded, ahead₃⟩ := loadSegments_progress reserve program.segments ⟨filled, ahead₂⟩
  obtain ⟨building, spare⟩ := loadSegments_spec reserve filled loaded
  have unused := fun f member => spare f (fresh f member)
  have back := building.giveBack reserve inside unused
  have ahead₄ := Ahead.gave ahead₃ (building.gave inside unused) rfl
  obtain ⟨files, m₄, built, _⟩ := newUsprocSpace_progress reserve kernel program.userStack ⟨back, ahead₄⟩
  have address := scratch_address reserve program.rawPages_pos inside
  refine ⟨root, ⟨openStdin m₄.mem files stdin, m₄.frames⟩, ?_⟩
  simp only [loadElfFromVfs, allocated, Outcome.ok_bind, if_neg nonzero, scratch, if_neg here]
  exact withSome_eq_some.mpr ⟨m₃, loaded, withSome_eq_some.mpr ⟨(files, m₄),
    by rw [address]; exact built, rfl⟩⟩

/-- The file table of the old process is mapped, at pages apart from the tables that
lead to it. -/
structure TableWalk (mem : Memory) (cr3 pdpt pd pt : Frame) : Prop where
  walked : Walked mem cr3 defaultFileTableStart pdpt pd pt
  present : ∀ i : Index, i.val < defaultFileTablePages → isPresent (mem pt i) = true
  apart : ∀ i : Index, i.val < defaultFileTablePages → frameOf (mem pt i) ∉ [cr3, pdpt, pd, pt]

section Walk

variable {pdpt pd pt : Frame} (walk : TableWalk mem cr3 pdpt pd pt)

include walk

theorem TableWalk.congr {mem' : Memory} (same : ∀ f ∈ [cr3, pdpt, pd, pt], mem' f = mem f) :
    TableWalk mem' cr3 pdpt pd pt := by
  have atCr3 := same cr3 (by simp)
  have atPdpt := same pdpt (by simp)
  have atPd := same pd (by simp)
  have atPt := same pt (by simp)
  refine ⟨⟨?_, ?_, ?_⟩, ?_, ?_⟩
  · rw [atCr3]
    exact walk.walked.atPdpt
  · rw [atPdpt]
    exact walk.walked.atPd
  · rw [atPd]
    exact walk.walked.atPt
  · rw [atPt]
    exact walk.present
  · rw [atPt]
    exact walk.apart

variable {offset : Nat}

theorem TableWalk.lookup (below : offset < defaultFileTablePages * pageSize) :
    ∃ i : Index, i.val < defaultFileTablePages ∧ lookup mem cr3 (defaultFileTableStart + offset) = some (mem pt i) := by
  have entry : (ptIndex (defaultFileTableStart + offset)).val < defaultFileTablePages := by
    simp only [ptIndex, defaultFileTableStart, defaultFileTablePages, pageSize] at below ⊢
    omega
  have path : pathOf (defaultFileTableStart + offset) = pathOf defaultFileTableStart := by
    simp only [pathOf, pml4Index, pdptIndex, pdIndex, defaultFileTableStart, defaultFileTablePages,
      pageSize, List.cons.injEq, Fin.mk.injEq, and_true] at below ⊢
    omega
  refine ⟨_, entry, ?_⟩
  rw [Vmm.lookup, leafAt, path, walk.walked.tablePt, Option.bind_some, if_pos (walk.present _ entry)]

theorem TableWalk.writeVirtual (below : offset < defaultFileTablePages * pageSize) (w : Entry) :
    ∃ mem', writeVirtual mem cr3 (defaultFileTableStart + offset) w = .ok mem' ∧ TableWalk mem' cr3 pdpt pd pt := by
  obtain ⟨i, entry, found⟩ := walk.lookup below
  refine ⟨_, by rw [Exec.writeVirtual, found], walk.congr fun f member => ?_⟩
  apply write_of_ne_node
  intro same
  rw [same] at member
  exact walk.apart i entry member

theorem TableWalk.readVirtual (below : offset < defaultFileTablePages * pageSize) :
    ∃ w, readVirtual mem cr3 (defaultFileTableStart + offset) = .ok w := by
  obtain ⟨i, -, found⟩ := walk.lookup below
  exact ⟨_, by rw [Exec.readVirtual, wordAt, found]; rfl⟩

theorem TableWalk.moveFile {i : Nat} (below : i < 256) :
    ∃ mem', moveFile cr3 defaultFileTableStart defaultFileTableStart mem i = .ok mem' ∧ TableWalk mem' cr3 pdpt pd pt := by
  have inside : ∀ k < fileWords, i * fileSize + k * 8 < defaultFileTablePages * pageSize := by
    simp only [fileWords, fileSize, defaultFileTablePages, pageSize]
    omega
  have first := inside 0 (by decide)
  rw [Nat.zero_mul, Nat.add_zero] at first
  obtain ⟨fInode, head⟩ := walk.readVirtual first
  have copied : ∃ mem', copyFile cr3 (fileAddr defaultFileTableStart i)
      (fileAddr defaultFileTableStart i) mem = .ok mem' ∧ TableWalk mem' cr3 pdpt pd pt := by
    refine foldlM_succeeds (fun mem => TableWalk mem cr3 pdpt pd pt) ?_ walk
    intro k member now walk
    have here := inside k (List.mem_range.mp member)
    obtain ⟨w, read⟩ := walk.readVirtual here
    obtain ⟨next, written, after⟩ := walk.writeVirtual here w
    refine ⟨next, ?_, after⟩
    rw [fileAddr, Nat.add_assoc, read, Outcome.ok_bind, written]
  obtain ⟨middle, copy, between⟩ := copied
  have cleared : ∃ mem', clearFile cr3 (fileAddr defaultFileTableStart i) middle = .ok mem' ∧
      TableWalk mem' cr3 pdpt pd pt := by
    refine foldlM_succeeds (fun mem => TableWalk mem cr3 pdpt pd pt) ?_ between
    intro k member now walk
    rw [fileAddr, Nat.add_assoc]
    exact walk.writeVirtual (inside k (List.mem_range.mp member)) 0
  obtain ⟨last, clear, after⟩ := cleared
  rw [Exec.moveFile, fileAddr, head, Outcome.ok_bind]
  split
  · exact ⟨mem, rfl, walk⟩
  · exact ⟨last, by rw [← fileAddr, copy, Outcome.ok_bind, clear], after⟩

theorem TableWalk.moveFiles : ∃ mem', moveFiles cr3 defaultFileTableStart defaultFileTableStart mem = .ok mem' := by
  have each : ∀ i ∈ List.range 256, ∀ now, TableWalk now cr3 pdpt pd pt →
      ∃ next, Exec.moveFile cr3 defaultFileTableStart defaultFileTableStart now i = .ok next ∧
        TableWalk next cr3 pdpt pd pt :=
    fun i member now walk => walk.moveFile (List.mem_range.mp member)
  obtain ⟨mem', moved, -⟩ := foldlM_succeeds (fun mem => TableWalk mem cr3 pdpt pd pt) each walk
  exact ⟨mem', moved⟩

end Walk

/-- `exec_elf_from_vfs` gets to its end when there is enough memory. -/
theorem exec_succeeds (reserve : Reserve old.frames) (kernel : Frame) {proc : Parent}
    (program : Program) (stdin : Stdin) (table : proc.openedFileTable = defaultFileTableStart)
    {pdpt pd pt : Frame} (walk : TableWalk old.mem proc.cr3 pdpt pd pt)
    (used : ∀ f ∈ [proc.cr3, pdpt, pd, pt], ¬ Free old.frames f) (ahead : Ahead old.frames (loadCost program)) :
    ∃ newPml4 m, execElfFromVfs kernel proc program stdin old = .ok (some (newPml4, m)) := by
  obtain ⟨newPml4, loaded, done⟩ := loadElfFromVfs_progress reserve kernel program stdin ahead
  obtain ⟨files, fresh⟩ := loadElfFromVfs_spec reserve done
  have still : TableWalk loaded.mem proc.cr3 pdpt pd pt :=
    walk.congr fun f member => fresh.building.kept f (used f member)
  obtain ⟨mem, moved⟩ := still.moveFiles
  refine ⟨newPml4, ⟨mem, loaded.frames⟩, withSome_eq_some.mpr ⟨(newPml4, loaded), done, ?_⟩⟩
  dsimp only
  rw [table, moved]
  rfl

end CreeperKernel.Exec
