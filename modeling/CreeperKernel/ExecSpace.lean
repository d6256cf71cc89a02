import CreeperKernel.ExecImage
import CreeperKernel.ForkSpace

namespace CreeperKernel.Exec

open Vmm Fork FallibleLoops
open Pmm (pageSize mul_pageSize)
open RadixTree (write)

variable {old m m' : Kernel} {root : Frame}

theorem fillPages_succ (mem : Memory) (phys : Frame) (count : Nat) (contents : Nat → Index → Entry) :
    fillPages mem phys (count + 1) contents = Function.update (fillPages mem phys count contents)
        (phys + BitVec.ofNat 64 (count * pageSize)) (contents count) := by
  rw [fillPages, List.range_succ, List.foldl_append]
  rfl

theorem fillPages_of_not_mem (mem : Memory) (phys : Frame) (count : Nat)
    (contents : Nat → Index → Entry) {f : Frame} (outside : f ∉ blockPages phys count) :
    fillPages mem phys count contents f = mem f := by
  induction count with
  | zero => rfl
  | succ count ih =>
    rw [blockPages, List.range_succ, List.map_append, List.mem_append, not_or] at outside
    rw [fillPages_succ, Function.update_of_ne]
    · exact ih outside.1
    · simpa using outside.2

variable {phys files kernel : Frame} {count i : Nat}

theorem fillPages_at (mem : Memory) (contents : Nat → Index → Entry) (nodup : (blockPages phys count).Nodup)
    (below : i < count) : fillPages mem phys count contents (phys + BitVec.ofNat 64 (i * pageSize)) = contents i := by
  induction count with
  | zero => exact absurd below (Nat.not_lt_zero i)
  | succ count ih =>
    rw [blockPages, List.range_succ, List.map_append, List.map_singleton] at nodup
    rw [fillPages_succ]
    by_cases last : i = count
    · rw [last, Function.update_self]
    · have earlier : i < count := by omega
      obtain ⟨front, -, apart⟩ := List.nodup_append.mp nodup
      have member : phys + BitVec.ofNat 64 (i * pageSize) ∈ blockPages phys count :=
        List.mem_map_of_mem (List.mem_range.mpr earlier)
      rw [Function.update_of_ne (apart _ member _ (List.mem_singleton.mpr rfl))]
      exact ih front earlier

variable {contents userStack : Nat → Index → Entry}

theorem mapNewBlock_spec (reserve : Reserve old.frames) (building : Building old root m) {va pages : Nat}
    {flags : Entry} (clean : flags &&& pteAddrMask = 0) (positive : 1 ≤ pages)
    (inside : va + pages * pageSize ≤ stackUpperUspaceAddr)
    (done : mapNewBlock root va pages flags contents m = .ok (some (phys, m'))) : (blockPages phys pages).Nodup ∧
      BlockAdded old root m va pages phys flags (fillPages m.mem phys pages contents) m' := by
  obtain ⟨⟨f, middle⟩, allocated, done⟩ := Outcome.bind_eq_ok.mp done
  obtain ⟨handed, same⟩ := allocPages_handed building.reserve positive allocated
  dsimp only at done
  split at done
  · cases done
  · obtain ⟨last, mapped, done⟩ := Outcome.bind_eq_ok.mp done
    cases done
    rw [same] at mapped
    exact ⟨handed.nodup, blockAdded reserve building clean positive (slotsFrom_user inside) allocated
      (fun g outside => fillPages_of_not_mem m.mem phys pages contents outside) mapped⟩

theorem Segment.segPages_pos (seg : Segment) : 1 ≤ seg.segPages := by
  unfold Segment.segPages
  dsimp only
  split
  · exact Nat.le_refl 1
  · exact Nat.one_le_iff_ne_zero.mpr (by assumption)

theorem Program.rawPages_pos (program : Program) : 1 ≤ program.rawPages := by
  unfold Program.rawPages
  dsimp only
  split
  · exact Nat.le_refl 1
  · exact Nat.one_le_iff_ne_zero.mpr (by assumption)

theorem Segment.inside_user (seg : Segment) : seg.vaddrAligned + seg.segPages * pageSize ≤ stackUpperUspaceAddr := by
  have low := seg.low
  have high := seg.inside
  simp only [Segment.vaddrAligned, Segment.segPages, stackUpperUspaceAddr, pageSize] at low high ⊢
  split <;> omega

theorem Segment.mapFlags_clean (seg : Segment) : seg.mapFlags &&& pteAddrMask = 0 := by
  unfold Segment.mapFlags
  cases seg.writable <;> cases seg.executable <;> decide

theorem loadSegments_spec (reserve : Reserve old.frames) {segments : List Segment}
    (building : Building old root m) (done : loadSegments root segments m = .ok (some m')) :
    Building old root m' ∧ ∀ f, Spare old root m f → Spare old root m' f := by
  induction segments generalizing m with
  | nil =>
    cases done
    exact ⟨building, fun _ spare => spare⟩
  | cons seg rest ih =>
    obtain ⟨⟨f, middle⟩, first, others⟩ := withSome_eq_some.mp done
    obtain ⟨-, added⟩ := mapNewBlock_spec reserve building seg.mapFlags_clean seg.segPages_pos
      seg.inside_user first
    obtain ⟨last, spare⟩ := ih added.building others
    exact ⟨last, fun g unused => spare g (added.spare g unused)⟩

/-- The file table of the new process: four pages of its own with known contents. -/
structure FileTable (old : Kernel) (root files : Frame) (contents : Nat → Index → Entry) (m : Kernel) :
    Prop where
  building : Building old root m
  mapped : ∀ i < defaultFileTablePages, leaf m.mem root (slotOf (defaultFileTableStart + i * pageSize)) =
    some (leafEntry (files + BitVec.ofNat 64 (i * pageSize)) (pteWritable ||| pteLocalOwned))
  nodup : (blockPages files defaultFileTablePages).Nodup
  own : ∀ f ∈ blockPages files defaultFileTablePages,
    Free old.frames f ∧ ¬ Free m.frames f ∧ ¬ IsTable lowerScope m.mem root f
  contents : ∀ i < defaultFileTablePages,
    m.mem (files + BitVec.ofNat 64 (i * pageSize)) = contents i

theorem page_mem_block (files : Frame) (below : i < count) :
    files + BitVec.ofNat 64 (i * pageSize) ∈ blockPages files count :=
  List.mem_map_of_mem (List.mem_range.mpr below)

theorem mapFileTable_spec (reserve : Reserve old.frames) (building : Building old root m)
    (done : mapFileTable root m = .ok (some (files, m'))) : FileTable old root files (fun _ _ => 0) m' := by
  obtain ⟨nodup, added⟩ := mapNewBlock_spec reserve building (by decide) (by decide) (by decide) done
  refine ⟨added.building, added.mapped (by decide), nodup, ?_, ?_⟩
  · intro f member
    obtain ⟨free, used, noTable, -⟩ := added.block f member
    exact ⟨free, used, noTable⟩
  · intro i below
    rw [(added.block _ (page_mem_block _ below)).2.2.2]
    exact fillPages_at m.mem _ nodup below

theorem fileSlot_user (below : i < defaultFileTablePages) : (slotOf (defaultFileTableStart + i * pageSize)).User := by
  apply slotOf_user
  revert i
  decide

theorem mapUserStack_spec (reserve : Reserve old.frames) (table : FileTable old root files contents m)
    (done : mapUserStack root userStack m = .ok (some (phys, m'))) : FileTable old root files contents m' := by
  obtain ⟨-, added⟩ :=
    mapNewBlock_spec reserve table.building (by decide) (by decide) (by decide) done
  have content := fun f member =>
    added.content f (table.own f member).2.1 (table.own f member).2.2
  have apart : ∀ i < defaultFileTablePages, slotOf (defaultFileTableStart + i * pageSize) ∉
      slotsFrom stackVaBase defaultStackPageAmount := by
    decide +kernel
  refine ⟨added.building, ?_, table.nodup, ?_, ?_⟩
  · intro i below
    rw [added.others _ (fileSlot_user below) (apart i below)]
    exact table.mapped i below
  · intro f member
    exact ⟨(table.own f member).1, (content f member).1, (content f member).2.1⟩
  · intro i below
    rw [(content _ (page_mem_block _ below)).2.2]
    exact table.contents i below

/-- The file table that `load_elf_from_vfs` leaves: standard input in slot 0. -/
def freshFiles (stdin : Stdin) (page : Nat) (i : Index) : Entry :=
  if page = 0 then
    if i = 0 then stdin.inode else if i = 3 then stdin.iPrivate else if i = 4 then stdin.iFop else 0
  else 0

theorem openStdin_spec (table : FileTable old root files (fun _ _ => 0) m) (stdin : Stdin) :
    FileTable old root files (freshFiles stdin) ⟨openStdin m.mem files stdin, m.frames⟩ := by
  have first : files + BitVec.ofNat 64 (0 * pageSize) = files := by simp
  have member : files ∈ blockPages files defaultFileTablePages := by
    have here := page_mem_block files (show 0 < defaultFileTablePages by decide)
    rwa [first] at here
  have own : ∀ f ∈ [files], Free old.frames f ∧ ¬ Free m.frames f ∧
      ¬ IsTable lowerScope m.mem root f := by
    intro f single
    rw [List.mem_singleton.mp single]
    exact table.own files member
  have written : ∀ f, f ∉ [files] → openStdin m.mem files stdin f = m.mem f := by
    intro f outside
    have apart : f ≠ files := fun same => outside (List.mem_singleton.mpr same)
    simp only [openStdin, RadixTree.write_of_ne_node _ _ _ apart]
  have noTable := fun f single => (own f single).2.2
  have tables := (sameEntries_of_fill noTable written).tables
  have building := table.building.fill (fun f single => (own f single).1) noTable written
  refine ⟨building, ?_, table.nodup, ?_, ?_⟩
  · intro i below
    exact (tables.leaf _ (fileSlot_user below)).trans (table.mapped i below)
  · intro f inside
    obtain ⟨free, used, apart⟩ := table.own f inside
    exact ⟨free, used, fun now => apart ((IsTable.congr tables.tables f).mp now)⟩
  · intro i below
    by_cases zero : i = 0
    · have blank := table.contents 0 (by decide)
      subst zero
      rw [first] at blank ⊢
      funext j
      simp only [openStdin, RadixTree.write_apply, freshFiles, blank, true_and, if_true]
      grind
    · have other : files + BitVec.ofNat 64 (i * pageSize) ∉ [files] := by
        intro same
        have inj := List.inj_on_of_nodup_map table.nodup (List.mem_range.mpr below)
          (List.mem_range.mpr (show 0 < defaultFileTablePages by decide))
        exact zero (inj (by rw [first]; exact List.mem_singleton.mp same))
      refine (written _ other).trans ((table.contents i below).trans ?_)
      funext j
      rw [freshFiles, if_neg zero]

theorem newUsprocSpace_spec (reserve : Reserve old.frames) (building : Building old root m)
    (done : newUsprocSpace kernel root userStack m = .ok (some (files, m'))) :
    FileTable old root files (fun _ _ => 0) m' := by
  obtain ⟨⟨heap, m₁⟩, first, done⟩ := withSome_eq_some.mp done
  obtain ⟨⟨table, m₂⟩, second, done⟩ := withSome_eq_some.mp done
  obtain ⟨⟨stack, m₃⟩, third, done⟩ := withSome_eq_some.mp done
  cases done
  obtain ⟨-, added⟩ :=
    mapNewBlock_spec reserve (building.share kernel) (by decide) (by decide) (by decide) first
  exact mapUserStack_spec reserve (mapFileTable_spec reserve added.building second) third

theorem scratch_spec (building : Building old root m) (positive : 1 ≤ count) (contents : Nat → Index → Entry)
    (allocated : pmmAllocPages m count = .ok (phys, m')) :
    Building old root ⟨fillPages m'.mem phys count contents, m'.frames⟩ ∧
      ∃ first, phys = pageAt first ∧ first + count ≤ old.frames.totalPages ∧ ∀ f ∈ blockPages (pageAt first) count,
          Spare old root ⟨fillPages m'.mem phys count contents, m'.frames⟩ f := by
  obtain ⟨handed, same⟩ := allocPages_handed building.reserve positive allocated
  obtain ⟨first, rfl, inside⟩ := allocPages_block building.reserve positive allocated
  obtain ⟨took, fresh, -⟩ := building.take handed
  rw [same, ← building.total]
  have written := fun f outside =>
    fillPages_of_not_mem (f := f) m.mem (pageAt first) count contents outside
  have noTable := fun f member => (fresh f member).noTable
  have tables := (sameEntries_of_fill (m := ⟨m.mem, m'.frames⟩) noTable written).tables
  have filled := took.fill (fun f member => (fresh f member).taken) noTable written
  exact ⟨filled, first, rfl, inside, fun f member => (fresh f member).fill tables⟩

theorem scratch_address {first : Nat} (reserve : Reserve old.frames) (positive : 1 ≤ count)
    (inside : first + count ≤ old.frames.totalPages) : (pageAt first).toNat = first * pageSize := by
  have small := reserve.small
  rw [pageAt_toNat (by omega), mul_pageSize]

theorem loadElfFromVfs_spec (reserve : Reserve old.frames) {program : Program} {stdin : Stdin}
    (done : loadElfFromVfs kernel program stdin old = .ok (some (root, m))) :
    ∃ files, FileTable old root files (freshFiles stdin) m := by
  obtain ⟨⟨pml4, m₁⟩, allocated, done⟩ := Outcome.bind_eq_ok.mp done
  obtain ⟨blank, -⟩ := blank_building reserve allocated
  dsimp only at done
  split at done
  · cases done
  obtain ⟨⟨raw, m₂⟩, scratch, done⟩ := Outcome.bind_eq_ok.mp done
  obtain ⟨filled, first, rfl, inside, fresh⟩ :=
    scratch_spec blank program.rawPages_pos program.rawImage scratch
  dsimp only at done
  split at done
  · cases done
  obtain ⟨m₃, loaded, done⟩ := withSome_eq_some.mp done
  obtain ⟨⟨files, m₄⟩, built, done⟩ := withSome_eq_some.mp done
  cases done
  obtain ⟨building, spare⟩ := loadSegments_spec reserve filled loaded
  rw [scratch_address reserve program.rawPages_pos inside] at built
  have back := building.giveBack reserve inside fun f member => spare f (fresh f member)
  exact ⟨files, openStdin_spec (newUsprocSpace_spec reserve back built) stdin⟩

end CreeperKernel.Exec
