import CreeperKernel.ForkDuplicates

namespace CreeperKernel.Fork

open Vmm RadixTree
open Transitions (Run)
open Pmm (pageSize)

variable {old m m' : Kernel} {root : Frame}

variable {f child : Frame}

theorem run_pending {parent : Frame} {slots : List Slot} {s : Slot} (run : Run (Place old parent root) m slots m')
    (building : Building old root m) (user : s.User) (pending : Pending old root m s f) :
    Pending old root m' s f ∧ (s ∈ slots ∨ Spare old root m f → Spare old root m' f) := by
  induction run with
  | nil m => exact ⟨pending, fun spare => spare.resolve_left List.not_mem_nil⟩
  | @cons m middle m' t slots first _ ih =>
    obtain ⟨-, e, -, placed⟩ := first
    have visited : t = s → Spare old root middle f := by
      rintro rfl
      rcases pending.place with spare | ⟨d, here, rfl⟩
      · exact placed.spare f spare
      · exact placed.replaced d here pending.taken
    have later : Pending old root middle s f := by
      refine ⟨pending.taken, ?_⟩
      by_cases same : t = s
      · exact .inl (visited same)
      · rcases pending.place with spare | ⟨d, here, address⟩
        · exact .inl (placed.spare f spare)
        · obtain ⟨e', -, leaves⟩ := placed.entry
          exact .inr ⟨d, by rw [leaves s user, if_neg (Ne.symm same)]; exact here, address⟩
    obtain ⟨kept, spared⟩ := ih placed.building later
    refine ⟨kept, fun reason => spared ?_⟩
    rcases reason with member | spare
    · rcases List.mem_cons.mp member with rfl | member
      · exact .inr (visited rfl)
      · exact .inl member
    · exact .inr (placed.spare f spare)

theorem slotOf_stackVaBase : (slotOf stackVaBase).va = stackVaBase := by decide

variable {parent : Parent}

/-- The first frame of the block copied for the stack is replaced by the first pass. -/
theorem fork_spare (inUse : InUse) (reserve : Reserve old.frames) (occupied : Occupied old parent.cr3)
    (done : forkAddressSpace inUse parent old = .ok (some child, m)) : Building old child m ∧ ∃ f, Spare old child m f := by
  obtain ⟨m₀, m₁, m₂, passes⟩ := fork_passes inUse reserve occupied done
  have user := slotOf_user stackVaBase_low
  obtain ⟨f, pending⟩ := passes.start.base
  obtain ⟨buildingA, slotsA, runA, coversA⟩ := passes.first
  obtain ⟨buildingB, slotsB, runB, -⟩ := passes.second
  obtain ⟨buildingC, slotsC, runC, -⟩ := passes.third
  have due : slotOf stackVaBase ∈ Due old parent.cr3 defaultUserHeapStart defaultUserHeapEnd [] := by
    refine ⟨user, List.nil_prefix, passes.start.found, ?_⟩
    rw [slotOf_stackVaBase]
    decide
  obtain ⟨pendingA, spareA⟩ := run_pending runA passes.start.building user pending
  have spare₁ := spareA (.inl (coversA _ due))
  obtain ⟨pendingB, spareB⟩ := run_pending runB buildingA user pendingA
  obtain ⟨-, spareC⟩ := run_pending runC buildingB user pendingB
  exact ⟨buildingC, f, spareC (.inr (spareB (.inr spare₁)))⟩

/-- The page table of a process refers to the frame, as a table or as a page of its
user half. -/
def Referenced (mem : Memory) (pml4 f : Frame) : Prop :=
  IsTable lowerScope mem pml4 f ∨
    ∃ va < stackUpperUspaceAddr, ∃ e, lookup mem pml4 va = some e ∧ frameOf e = f

theorem Spare.not_referenced (spare : Spare old root m f) : ¬ Referenced m.mem root f := by
  rintro (table | ⟨va, low, e, here, same⟩)
  · exact spare.noTable table
  · exact spare.noPage (slotOf va) (slotOf_user low) e here same

theorem reaches_cases {mem : Memory} {pml4 : Frame} (level : Nat) {path : List Index} {table : Frame}
    (inside : path ∈ lowerScope.paths) (depth : path.length + (level + 1) = 4)
    (here : tableAt mem pml4 path = some table) (reached : Reaches mem (level + 1) table f) :
    IsTable lowerScope mem pml4 f ∨ ∃ s : Slot, s.User ∧ ∃ e, leaf mem pml4 s = some e ∧ frameOf e = f := by
  induction level generalizing path table with
  | zero =>
    obtain ⟨i, -, present, address | below⟩ := reached
    · right
      match path, depth with
      | [i4, i3, i2], _ =>
        refine ⟨⟨i4, i3, i2, i⟩, inside.2 i4 rfl, mem table i, ?_, address⟩
        show (tableAt mem pml4 [i4, i3, i2]).bind _ = _
        rw [here, Option.bind_some, if_pos present]
    · exact below.elim
  | succ level ih =>
    obtain ⟨i, member, present, below⟩ := reached
    have extended : path ++ [i] ∈ lowerScope.paths := by
      refine ⟨by rw [List.length_append, List.length_singleton]; omega, fun j first => ?_⟩
      cases path with
      | nil =>
        cases first
        have top : level + 1 + 1 = 4 := by simpa using depth
        rw [userEntries, if_pos top] at member
        exact (mem_lowerHalf i).mp member
      | cons k rest => exact inside.2 j first
    have child : tableAt mem pml4 (path ++ [i]) = some (frameOf (mem table i)) :=
      (nodeAt_concat_of here).trans (entryChild_of_present present)
    rcases below with address | deeper
    · exact .inl ⟨path ++ [i], extended, address ▸ child⟩
    · exact ih extended (by rw [List.length_append, List.length_singleton]; omega) child deeper

/-- Freeing the child's page table does not give the spare frame back. -/
theorem Spare.kept_by_release (spare : Spare old root m f) (inUse : InUse) (aligned : frameOf root = root) :
    ¬ Free (vmmPagetableFreeOwned inUse root m).frames f := by
  have top : [] ∈ lowerScope.paths := ⟨Nat.zero_le 3, fun i first => by cases first⟩
  unfold vmmPagetableFreeOwned
  split
  · exact spare.used
  · split
    · exact spare.used
    · have apart : ¬ Reaches m.mem 4 root f := by
        intro reached
        rcases reaches_cases 3 top rfl rfl reached with table | ⟨s, user, e, here, same⟩
        · exact spare.noTable table
        · exact spare.noPage s user e here same
      obtain ⟨-, used⟩ := vmmFreeUserTables_keeps 4 root m apart spare.used
      intro free
      rw [← aligned] at free
      rcases free.of_release with before | same
      · rw [aligned] at before
        exact used before
      · rw [aligned] at same
        exact spare.noTable ⟨[], top, congrArg some same⟩

/-- A fork loses a frame: it is taken from the allocator, the child's page table does
not refer to it, and freeing that page table does not give it back. -/
def LosesFrame (inUse : InUse) (old : Kernel) (child : Frame) (m : Kernel) : Prop :=
  ∃ f, Free old.frames f ∧ ¬ Free m.frames f ∧ ¬ Referenced m.mem child f ∧
    ¬ Free (vmmPagetableFreeOwned inUse child m).frames f

theorem loses_frame (inUse : InUse) (reserve : Reserve old.frames) (occupied : Occupied old parent.cr3)
    (done : forkAddressSpace inUse parent old = .ok (some child, m)) : LosesFrame inUse old child m := by
  obtain ⟨building, f, spare⟩ := fork_spare inUse reserve occupied done
  have top : [] ∈ lowerScope.paths := ⟨Nat.zero_le 3, fun i first => by cases first⟩
  have root_free := (building.tables child ⟨[], top, rfl⟩).1
  exact ⟨f, spare.taken, spare.used, spare.not_referenced,
    spare.kept_by_release inUse (root_free.aligned reserve)⟩

/-- Forking a process fresh from `load_elf_from_vfs`. -/
theorem usproc_fork_loses_frame : ∃ child m,
    forkAddressSpace ⟨pageAt 14, pageAt 1⟩ usprocParent usprocKernel = .ok (some child, m) ∧
      LosesFrame ⟨pageAt 14, pageAt 1⟩ usprocKernel child m := by
  obtain ⟨child, m, done⟩ := usproc_forks ⟨pageAt 14, pageAt 1⟩
  exact ⟨child, m, done, loses_frame _ smallPmm_reserve usproc_occupied done⟩

/-- No successful fork keeps all its frames: not every frame taken during the call
is referred to by the child's page table, and freeing that table does not give back
every frame that was free before. -/
theorem fork_never_keeps_all_frames (inUse : InUse) (parent : Parent) (old m : Kernel) (child : Frame)
    (reserve : Reserve old.frames) (occupied : Occupied old parent.cr3)
    (done : forkAddressSpace inUse parent old = .ok (some child, m)) :
    (¬ ∀ f, Free old.frames f → ¬ Free m.frames f → Referenced m.mem child f) ∧
    ¬ ∀ f, Free old.frames f → Free (vmmPagetableFreeOwned inUse child m).frames f := by
  obtain ⟨f, taken, used, unreferenced, lost⟩ := loses_frame inUse reserve occupied done
  exact ⟨fun all => unreferenced (all f taken used), fun all => lost (all f taken)⟩

theorem fork_never_keeps_all_frames_usproc : ∃ child m,
    forkAddressSpace ⟨pageAt 14, pageAt 1⟩ usprocParent usprocKernel = .ok (some child, m) ∧
      ¬ ∀ f, Free smallPmm f → ¬ Free m.frames f → Referenced m.mem child f := by
  obtain ⟨child, m, done⟩ := usproc_forks ⟨pageAt 14, pageAt 1⟩
  exact ⟨child, m, done,
    (fork_never_keeps_all_frames _ _ _ _ _ smallPmm_reserve usproc_occupied done).1⟩

end CreeperKernel.Fork
