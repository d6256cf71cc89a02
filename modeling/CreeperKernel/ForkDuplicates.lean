import CreeperKernel.ForkProgress

namespace CreeperKernel.Fork

open Vmm
open Pmm (pageSize Ahead)
open Transitions (Run)

variable {old m : Kernel} {root : Frame} {parent : Parent}

/-- No page lies in two of the skipped ranges, so the first two passes alone visit
every page of the parent. -/
theorem Passes.good {m₀ m₁ m₂ : Kernel} (passes : Passes old parent root m₀ m₁ m₂ m)
    (mapped : ∀ s, Regional parent s → leaf old.mem parent.cr3 s ≠ none) :
    Building old root m ∧ Inside old parent.cr3 root m ∧ ∀ s, s.User → Good old parent.cr3 root m s := by
  have start : Inside old parent.cr3 root m₀ := fun s user here =>
    mapped s (passes.start.domain s user here)
  obtain ⟨-, slotsA, runA, coversA⟩ := passes.first
  obtain ⟨-, slotsB, runB, coversB⟩ := passes.second
  obtain ⟨-, slotsC, runC, -⟩ := passes.third
  obtain ⟨buildingA, insideA, goodA⟩ := run_good runA passes.start.building start
  obtain ⟨buildingB, insideB, goodB⟩ := run_good runB buildingA insideA
  obtain ⟨buildingC, insideC, goodC⟩ := run_good runC buildingB insideB
  refine ⟨buildingC, insideC, fun s user => goodC s user (.inr ?_)⟩
  by_cases present : leaf old.mem parent.cr3 s = none
  · intro e here
    rw [present] at here
    cases here
  · by_cases heap : defaultUserHeapStart ≤ s.va ∧ s.va < defaultUserHeapEnd
    · have files : ¬ (defaultFileTableStart ≤ s.va ∧
          s.va < defaultFileTableStart + defaultFileTablePages * pageSize) := by
        have order : defaultUserHeapEnd < defaultFileTableStart := by decide
        omega
      exact goodB s user (.inl (coversB s ⟨user, List.nil_prefix, present, files⟩))
    · exact goodB s user (.inr (goodA s user (.inl (coversA s ⟨user, List.nil_prefix, present, heap⟩))))

/-- The pages from `va` on are mapped. -/
def MappedFrom (mem : Memory) (pml4 : Frame) (va pages : Nat) : Prop :=
  ∀ i < pages, lookup mem pml4 (va + i * pageSize) ≠ none

variable {mem : Memory}

theorem MappedFrom.slots {pml4 : Frame} {va pages : Nat} (mapped : MappedFrom mem pml4 va pages) :
    ∀ s ∈ slotsFrom va pages, leaf mem pml4 s ≠ none := by
  intro s member
  obtain ⟨i, below, rfl⟩ := List.mem_map.mp member
  exact mapped i (List.mem_range.mp below)

/-- The fixed regions of the parent are mapped. -/
structure RegionsMapped (mem : Memory) (parent : Parent) : Prop where
  heap : parent.heapLower ≠ 0 →
    MappedFrom mem parent.cr3 parent.heapLower (parent.heapSize / pageSize)
  files : parent.openedFileTable ≠ 0 →
    MappedFrom mem parent.cr3 parent.openedFileTable defaultFileTablePages
  stack : MappedFrom mem parent.cr3 stackVaBase defaultStackPageAmount

theorem RegionsMapped.slots (regions : RegionsMapped mem parent) :
    ∀ s, Regional parent s → leaf mem parent.cr3 s ≠ none := by
  rintro s (⟨present, member⟩ | ⟨present, member⟩ | member)
  · exact (regions.heap present).slots s member
  · exact (regions.files present).slots s member
  · exact regions.stack.slots s member

theorem slotOf_inj {a b : Nat} (left : a < stackUpperUspaceAddr) (right : b < stackUpperUspaceAddr)
    (same : slotOf a = slotOf b) : a / pageSize = b / pageSize := by
  simp only [slotOf, pml4Index, pdptIndex, pdIndex, ptIndex, Slot.mk.injEq, Fin.mk.injEq] at same
  rw [stackUpperUspaceAddr] at left right
  rw [Pmm.div_pageSize a, Pmm.div_pageSize b]
  omega

/-- A successful `fork_process` duplicates the user address space. `lookup` is the
leaf entry of an address; on the child's tables, which have no huge entries, and on
the parent's, where there are none either, it is the translation of the processor. -/
theorem fork_duplicates_user_space (inUse : InUse) (parent : Parent) (old m : Kernel) (child : Frame)
    (reserve : Reserve old.frames) (occupied : Occupied old parent.cr3)
    (regions : RegionsMapped old.mem parent)
    (done : forkAddressSpace inUse parent old = .ok (some child, m)) :
    Paging lowerScope m.mem child ∧
    (∀ va < stackUpperUspaceAddr,
      ((lookup m.mem child va).isSome ↔ (lookup old.mem parent.cr3 va).isSome) ∧
      ∀ e e', lookup old.mem parent.cr3 va = some e → lookup m.mem child va = some e' →
        flagsOf e' = flagsOf e ∧ m.mem (frameOf e') = old.mem (frameOf e) ∧
        (isOwned e' = false → frameOf e' = frameOf e) ∧
        (isOwned e' = true → ∀ other < stackUpperUspaceAddr,
          (∀ d, lookup old.mem parent.cr3 other = some d → frameOf d ≠ frameOf e') ∧
          ∀ d, lookup m.mem child other = some d → frameOf d = frameOf e' →
            other / pageSize = va / pageSize)) ∧
    (∀ va < stackUpperUspaceAddr, lookup m.mem parent.cr3 va = lookup old.mem parent.cr3 va) ∧
    ∀ f, ¬ Free old.frames f → m.mem f = old.mem f := by
  obtain ⟨m₀, m₁, m₂, passes⟩ := fork_passes inUse reserve occupied done
  obtain ⟨building, inside, good⟩ := passes.good regions.slots
  simp only [lookup_eq_leaf]
  refine ⟨building.paging, ?_, fun va low => building.parent_leaf occupied (slotOf_user low),
    building.kept⟩
  intro va low
  have user := slotOf_user low
  refine ⟨⟨fun mapped => ?_, fun mapped => ?_⟩, ?_⟩
  · exact Option.isSome_iff_ne_none.mpr (inside _ user (Option.isSome_iff_ne_none.mp mapped))
  · obtain ⟨e, here⟩ := Option.isSome_iff_exists.mp mapped
    obtain ⟨e', there, -⟩ := good _ user e here
    exact Option.isSome_iff_exists.mpr ⟨e', there⟩
  · intro e e' here there
    obtain ⟨d, found, duplicate⟩ := good _ user e here
    cases found.symm.trans there
    have owned : isOwned e' = isOwned e := by
      rw [← isOwned_flagsOf, duplicate.flags, isOwned_flagsOf]
    have foreign := occupied.pages _ user e here
    refine ⟨duplicate.flags, ?_, fun shared => duplicate.shared (owned ▸ shared), fun own => ?_⟩
    · cases kind : isOwned e with
      | true => exact (duplicate.owned kind).2
      | false => rw [duplicate.shared kind, building.kept _ foreign]
    · have private_page := (duplicate.owned (owned ▸ own)).1
      intro other below
      refine ⟨fun d atOther same => ?_, fun d atOther same => ?_⟩
      · rw [← same] at private_page
        exact occupied.pages _ (slotOf_user below) d atOther private_page
      · refine slotOf_inj below low (building.unshared _ _ (slotOf_user below) user d e' atOther there
          same ?_)
        rw [same]
        exact private_page

/-- The frames and flags behind the entries of a process as `load_elf_from_vfs` sets
it up: one page of program, heap, file table and stack, each behind tables of its own. -/
def usprocEntry (frame index : Nat) : Option (Nat × Entry) :=
  match frame with
  | 1 => if index = 0 then some (11, permMask) else if index = 192 then some (2, permMask)
      else if index = 252 then some (5, permMask) else if index = 255 then some (8, permMask) else none
  | 2 => if index = 0 then some (3, permMask) else none
  | 3 => if index = 0 then some (4, permMask) else none
  | 4 => if index < 16 then some (32 + index, pteUser ||| pteWritable ||| pteLocalOwned) else none
  | 5 => if index = 0 then some (6, permMask) else none
  | 6 => if index = 0 then some (7, permMask) else none
  | 7 => if index < 4 then some (48 + index, pteWritable ||| pteLocalOwned) else none
  | 8 => if index = 511 then some (9, permMask) else none
  | 9 => if index = 511 then some (10, permMask) else none
  | 10 => if 384 ≤ index then
        some (index - 320, pteWritable ||| pteNx ||| pteUser ||| pteLocalOwned) else none
  | 11 => if index = 0 then some (12, permMask) else none
  | 12 => if index = 2 then some (13, permMask) else none
  | 13 => if index = 0 then some (200, pteUser ||| pteLocalOwned) else none
  | _ => none

def usprocMem : Memory := fun f i =>
  match usprocEntry (f.toNat / pageSize) i with
  | none => 0
  | some (frame, flags) => leafEntry (pageAt frame) flags

/-- A machine with 16 MiB of memory whose first MiB is in use. -/
def smallPmm : Pmm.State :=
  { bitmap := fun byte => if byte < 32 then 0xFF else 0
    bitmapBits := 4096, bitmapNext := 256, totalPages := 4096, freePages := 3840 }

def usprocKernel : Kernel := ⟨usprocMem, smallPmm⟩

def usprocParent : Parent :=
  { cr3 := pageAt 1, heapLower := defaultUserHeapStart
    heapSize := defaultUserHeapPages * pageSize, openedFileTable := defaultFileTableStart
    heapInside := by decide, filesInside := by decide }

theorem smallPmm_test (bit : Nat) : Pmm.bitmapTest smallPmm.bitmap bit = decide (bit < 256) := by
  have word : bit / 8 < 32 ↔ bit < 256 := by omega
  have inside : bit % 8 < 8 := Nat.mod_lt bit (by decide)
  show (if bit / 8 < 32 then (0xFF : BitVec 8) else 0).getLsbD (bit % 8) = decide (bit < 256)
  by_cases low : bit < 256
  · have ones : ∀ i < 8, (0xFF : BitVec 8).getLsbD i = true := by decide
    rw [if_pos (word.mpr low), ones _ inside, decide_eq_true low]
  · have zeros : ∀ i < 8, (0 : BitVec 8).getLsbD i = false := by decide
    rw [if_neg fun yes => low (word.mp yes), zeros _ inside, decide_eq_false low]

theorem smallPmm_free (n : Nat) : n ∈ Pmm.freeFrames smallPmm ↔ 256 ≤ n ∧ n < 4096 := by
  rw [Pmm.mem_freeFrames, smallPmm_test]
  have total : smallPmm.totalPages = 4096 := rfl
  rw [total, decide_eq_false_iff_not]
  omega

theorem smallPmm_bounded : Pmm.Bounded smallPmm := ⟨rfl, by decide, by decide, by decide⟩

theorem smallPmm_reserve : Reserve smallPmm := by
  refine ⟨smallPmm_bounded, by decide, fun free => ?_⟩
  have bounds := (smallPmm_free 0).mp free
  omega

theorem smallPmm_ahead {room : Nat} (enough : 256 + room < 4096) : Ahead smallPmm room := by
  refine ⟨smallPmm_bounded, by decide, fun bit low _ => ?_, enough⟩
  have high : ¬ bit < 256 := Nat.not_lt.mpr low
  rw [smallPmm_test, decide_eq_false high]

theorem smallPmm_used {n : Nat} (low : n < 256) : ¬ Free smallPmm (pageAt n) := by
  rintro ⟨k, free, same⟩
  have bounds := (smallPmm_free k).mp free
  have equal := pageAt_injective (by omega) (by omega) same
  omega

theorem usprocEntry_spec {frame index target : Nat} {flags : Entry} (inside : index < 512)
    (found : usprocEntry frame index = some (target, flags)) : target < 256 ∧ flags &&& pteAddrMask = 0 := by
  unfold usprocEntry at found
  split at found <;> (repeat' split at found) <;>
    simp only [Option.some.injEq, Prod.mk.injEq, reduceCtorEq] at found <;>
    obtain ⟨rfl, rfl⟩ := found <;> exact ⟨by omega, by decide⟩

theorem usprocMem_used {f : Frame} {i : Index} (present : isPresent (usprocMem f i) = true) :
    ¬ Free smallPmm (frameOf (usprocMem f i)) := by
  unfold usprocMem at present ⊢
  cases found : usprocEntry (f.toNat / pageSize) i with
  | none =>
    rw [found] at present
    cases present
  | some entry =>
    obtain ⟨target, flags⟩ := entry
    obtain ⟨low, clean⟩ := usprocEntry_spec i.isLt found
    dsimp only
    rw [frameOf_leafEntry _ clean, frameOf_pageAt (by omega)]
    exact smallPmm_used low

theorem usproc_occupied : Occupied usprocKernel usprocParent.cr3 :=
  occupied_of_present (smallPmm_used (by decide)) fun _ _ present => usprocMem_used present

theorem usproc_regions : RegionsMapped usprocMem usprocParent := by
  refine ⟨fun _ => ?_, fun _ => ?_, ?_⟩
  · unfold MappedFrom
    decide +kernel
  · unfold MappedFrom
    decide +kernel
  · unfold MappedFrom
    decide +kernel

theorem usproc_forks (inUse : InUse) :
    ∃ child m, forkAddressSpace inUse usprocParent usprocKernel = .ok (some child, m) := by
  refine fork_succeeds smallPmm_reserve usproc_occupied ⟨fun _ => ?_, fun _ => ?_, ?_⟩ inUse ?_
  · decide +kernel
  · decide +kernel
  · decide +kernel
  · exact smallPmm_ahead (by decide +kernel)

/-- A process fresh from `load_elf_from_vfs` is forked. -/
theorem fork_duplicates_user_space_usproc : ∃ child m,
    forkAddressSpace ⟨pageAt 14, pageAt 1⟩ usprocParent usprocKernel = .ok (some child, m) ∧
      ∀ va < stackUpperUspaceAddr,
        (lookup m.mem child va).isSome ↔ (lookup usprocMem (pageAt 1) va).isSome := by
  obtain ⟨child, m, done⟩ := usproc_forks ⟨pageAt 14, pageAt 1⟩
  have duplicated := fork_duplicates_user_space _ _ _ _ _ smallPmm_reserve usproc_occupied
    usproc_regions done
  exact ⟨child, m, done, fun va low => (duplicated.2.1 va low).1⟩

/-- What a process finds at a page: the flags and the contents, or nothing. -/
def page (mem : Memory) (root : Frame) (s : Slot) : Option (Entry × (Index → Entry)) :=
  (leaf mem root s).map fun e => (flagsOf e, mem (frameOf e))

/-- The kernel and the PML4s of a process and its descendants. -/
structure Family where
  kernel : Kernel
  tables : List Frame

/-- One of the processes forks. A child has its heap and its file table where its parent has them. -/
inductive Forks (origin : Parent) : Family → InUse → Family → Prop where
  | fork {s : Family} {inUse : InUse} {f child : Frame} {m : Kernel} (member : f ∈ s.tables)
      (done : forkAddressSpace inUse { origin with cr3 := f } s.kernel = .ok (some child, m)) :
      Forks origin s inUse ⟨m, child :: s.tables⟩

section Families

variable {old m : Kernel} {root f : Frame} {origin : Parent} {s : Slot}

theorem Regional.user (regional : Regional origin s) : s.User := by
  have whole := Nat.div_mul_le_self origin.heapSize pageSize
  rcases regional with ⟨-, member⟩ | ⟨-, member⟩ | member
  · exact slotsFrom_user (by have := origin.heapInside; omega) s member
  · exact slotsFrom_user origin.filesInside s member
  · exact slotsFrom_user (by decide) s member

theorem Building.occupied_kept (building : Building old root m) (occupied : Occupied old f) : Occupied m f where
  tables := by
    rintro g ⟨p, inside, reached⟩ free
    have same : ∀ p ∈ lowerScope.paths, tableAt m.mem f p = tableAt old.mem f p := by
      apply RadixTree.nodeAt_congr
      intro p i t extended here
      rw [building.kept t (occupied.tables t ⟨p, lowerScope.closed extended, here⟩)]
    exact occupied.tables g ⟨p, inside, (same p inside).symm.trans reached⟩ (building.fewer g free)
  pages := by
    intro s user e here free
    rw [building.parent_leaf occupied user] at here
    exact occupied.pages s user e here (building.fewer _ free)

theorem Building.occupied_child (building : Building old root m) : Occupied m root where
  tables := fun f table => (building.tables f table).2
  pages := by
    intro s user e here free
    exact (building.leaves s user e here (building.fewer _ free)).1 free

theorem Building.page_kept (building : Building old root m) (occupied : Occupied old f) (user : s.User) :
    page m.mem f s = page old.mem f s := by
  unfold page
  rw [building.parent_leaf occupied user]
  cases here : leaf old.mem f s with
  | none => rfl
  | some e => rw [Option.map_some, Option.map_some, building.kept _ (occupied.pages s user e here)]

theorem Good.page_eq (good : Good old f root m s) (building : Building old root m) (inside : Inside old f root m)
    (occupied : Occupied old f) (user : s.User) : page m.mem root s = page old.mem f s := by
  unfold page
  cases here : leaf old.mem f s with
  | none =>
    rw [not_not.mp (mt (inside s user) (not_not.mpr here))]
    rfl
  | some e =>
    obtain ⟨e', there, duplicate⟩ := good e here
    rw [there, Option.map_some, Option.map_some, duplicate.flags]
    cases owned : isOwned e with
    | true => rw [(duplicate.owned owned).2]
    | false => rw [duplicate.shared owned, building.kept _ (occupied.pages s user e here)]

/-- Every process of the family finds in its user half what the first one found there. -/
structure Alike (old : Kernel) (origin : Parent) (s : Family) : Prop where
  reserve : Reserve s.kernel.frames
  occupied : ∀ f ∈ s.tables, Occupied s.kernel f
  pages : ∀ f ∈ s.tables, ∀ t : Slot, t.User → page s.kernel.mem f t = page old.mem origin.cr3 t

theorem Forks.keeps_alike {s s' : Family} {inUse : InUse} (step : Forks origin s inUse s')
    (regions : RegionsMapped old.mem origin) (alike : Alike old origin s) : Alike old origin s' := by
  cases step with
  | @fork f child m member done =>
    have occupied := alike.occupied f member
    obtain ⟨m₀, m₁, m₂, passes⟩ := fork_passes inUse alike.reserve occupied done
    have mapped : ∀ t, Regional origin t → leaf s.kernel.mem f t ≠ none := by
      intro t regional missing
      have same := alike.pages f member t regional.user
      rw [page, missing, page, eq_comm, Option.map_none, Option.map_eq_none_iff] at same
      exact regions.slots t regional same
    obtain ⟨building, inside, good⟩ := passes.good mapped
    refine ⟨building.reserve, List.forall_mem_cons.mpr ⟨building.occupied_child, fun g old =>
      building.occupied_kept (alike.occupied g old)⟩, List.forall_mem_cons.mpr ⟨fun t user => ?_, fun g old t user => ?_⟩⟩
    · rw [(good t user).page_eq building inside occupied user, alike.pages f member t user]
    · rw [building.page_kept (alike.occupied g old) user, alike.pages g old t user]

end Families

/-- Over any run of forks, by the first process or any of its descendants, every process of the family has at every
user address a page with the flags and the contents that the first process had there, or none where it had none. -/
theorem families_share_memory (origin : Parent) (old : Kernel) (reserve : Reserve old.frames)
    (occupied : Occupied old origin.cr3) (regions : RegionsMapped old.mem origin) (forks : List InUse) (s : Family)
    (run : Run (Forks origin) ⟨old, [origin.cr3]⟩ forks s) :
    ∀ f ∈ s.tables, ∀ va < stackUpperUspaceAddr,
      page s.kernel.mem f (slotOf va) = page old.mem origin.cr3 (slotOf va) := by
  have start : Alike old origin ⟨old, [origin.cr3]⟩ :=
    ⟨reserve, List.forall_mem_singleton.mpr occupied, List.forall_mem_singleton.mpr fun _ _ => rfl⟩
  have alike := run.invariant (Alike old origin) (fun _ _ _ good step => step.keeps_alike regions good) start
  exact fun f member va low => alike.pages f member _ (slotOf_user low)

theorem families_share_memory_usproc : ∃ child m,
    forkAddressSpace ⟨pageAt 14, pageAt 1⟩ usprocParent usprocKernel = .ok (some child, m) ∧
      ∀ va < stackUpperUspaceAddr, page m.mem child (slotOf va) = page usprocMem (pageAt 1) (slotOf va) := by
  obtain ⟨child, m, done⟩ := usproc_forks ⟨pageAt 14, pageAt 1⟩
  have forked : Forks usprocParent ⟨usprocKernel, [pageAt 1]⟩ ⟨pageAt 14, pageAt 1⟩ ⟨m, [child, pageAt 1]⟩ :=
    .fork List.mem_cons_self done
  exact ⟨child, m, done, families_share_memory usprocParent _ smallPmm_reserve usproc_occupied usproc_regions _ _
    (.single forked) child List.mem_cons_self⟩

end CreeperKernel.Fork
