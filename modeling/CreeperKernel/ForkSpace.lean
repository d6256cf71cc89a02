import CreeperKernel.ForkPasses
import CreeperKernel.ForkRegions

namespace CreeperKernel.Fork

open Vmm RadixTree FallibleLoops
open Transitions (Run)
open Pmm (pageSize mul_pageSize)

variable {old m m' : Kernel} {root parent : Frame}

/-- The page `s` of the child stands for the parent's, if the parent has one. -/
def Good (old : Kernel) (parent root : Frame) (m : Kernel) (s : Slot) : Prop :=
  ∀ e, leaf old.mem parent s = some e → ∃ e', leaf m.mem root s = some e' ∧ Duplicate old m e e'

/-- The child has no pages besides the parent's. -/
def Inside (old : Kernel) (parent root : Frame) (m : Kernel) : Prop :=
  ∀ s, s.User → leaf m.mem root s ≠ none → leaf old.mem parent s ≠ none

variable {e : Entry} {s : Slot}

theorem Placed.good (placed : Placed old root m s e m') (user : s.User) (here : leaf old.mem parent s = some e) :
    Good old parent root m' s := by
  intro d there
  cases here.symm.trans there
  obtain ⟨e', duplicate, leaves⟩ := placed.entry
  exact ⟨e', by rw [leaves s user, if_pos rfl], duplicate⟩

theorem Placed.keeps_good {t : Slot} (placed : Placed old root m s e m') (building : Building old root m)
    (inside : t.User) (here : leaf old.mem parent s = some e) (good : Good old parent root m t) :
    Good old parent root m' t := by
  by_cases same : t = s
  · subst same
    exact placed.good inside here
  · intro d there
    obtain ⟨d', atT, duplicate⟩ := good d there
    obtain ⟨e', -, leaves⟩ := placed.entry
    refine ⟨d', by rw [leaves t inside, if_neg same]; exact atT, duplicate.flags, ?_, duplicate.shared⟩
    intro owned
    obtain ⟨own, content⟩ := duplicate.owned owned
    obtain ⟨used, noTable⟩ := building.leaves t inside d' atT own
    exact ⟨own, (placed.content _ used noTable).trans content⟩

theorem Placed.keeps_inside (placed : Placed old root m s e m') (here : leaf old.mem parent s = some e)
    (within : Inside old parent root m) : Inside old parent root m' := by
  intro t inside mapped
  obtain ⟨e', -, leaves⟩ := placed.entry
  rw [leaves t inside] at mapped
  split at mapped
  · rename_i same
    rw [same, here]
    exact Option.some_ne_none e
  · exact within t inside mapped

/-- What is right about the child stays right while pages are copied, and becomes
right for every page that is visited. -/
theorem run_good {slots : List Slot} (run : Run (Place old parent root) m slots m')
    (building : Building old root m) (within : Inside old parent root m) : Building old root m' ∧ Inside old parent root m' ∧
      ∀ s, s.User → s ∈ slots ∨ Good old parent root m s → Good old parent root m' s := by
  induction run with
  | nil m => exact ⟨building, within, fun s _ good => good.resolve_left List.not_mem_nil⟩
  | cons first _ ih =>
    obtain ⟨user, e, here, placed⟩ := first
    obtain ⟨after, stays, good⟩ := ih placed.building (placed.keeps_inside here within)
    refine ⟨after, stays, fun s inside visited => good s inside ?_⟩
    rcases visited with member | before
    · rcases List.mem_cons.mp member with rfl | later
      · exact .inr (placed.good user here)
      · exact .inl later
    · exact .inr (placed.keeps_good building inside here before)

variable {middle : Kernel}

theorem blank_building (reserve : Reserve old.frames) (allocated : pmmAllocPages old 1 = .ok (root, middle)) :
    Building old root ⟨zeroPage middle.mem root, middle.frames⟩ ∧
      ∀ s, s.User → leaf (zeroPage middle.mem root) root s = none := by
  obtain ⟨handed, same⟩ := allocPages_handed reserve (Nat.le_refl 1) allocated
  rw [blockPages_one] at handed
  rw [same]
  have blank : ∀ i : Index, zeroPage old.mem root root i = 0 := by
    intro i
    simp [zeroPage]
  have only : ∀ p f, tableAt (zeroPage old.mem root) root p = some f → p = [] ∧ f = root := by
    intro p f reached
    cases p with
    | nil => exact ⟨rfl, (Option.some.inj reached).symm⟩
    | cons i rest =>
      rw [tableAt, nodeAt, blank i] at reached
      cases reached
  have noLeaf : ∀ s, leaf (zeroPage old.mem root) root s = none := by
    intro s
    have broken : tableAt (zeroPage old.mem root) root s.path = none := by
      rw [Option.eq_none_iff_forall_ne_some]
      intro f reached
      cases (only _ f reached).1
    rw [leaf, leafAt, broken]
    rfl
  have free := handed.free root (List.mem_singleton.mpr rfl)
  refine ⟨⟨handed.reserve, handed.total, fun f still => ((handed.rest f).mp still).1, ?_, ⟨?_, ?_⟩,
    ?_, ?_, ?_⟩, fun s _ => noLeaf s⟩
  · intro f foreign
    apply Function.update_of_ne
    intro same
    rw [same] at foreign
    exact foreign free
  · intro p hp q hq f left right
    rw [(only p f left).1, (only q f right).1]
  · intro p i f extended reached present
    obtain ⟨rfl, rfl⟩ := only p f reached
    dsimp only at present
    rw [blank i] at present
    cases present
  · rintro f ⟨p, inside, reached⟩
    obtain ⟨-, rfl⟩ := only p f reached
    exact ⟨free, fun still => ((handed.rest f).mp still).2 (List.mem_singleton.mpr rfl)⟩
  · intro s user e here
    rw [noLeaf s] at here
    cases here
  · intro s t user _ d e here
    rw [noLeaf s] at here
    cases here

theorem Building.sameEntries_of_share (building : Building old root m) (kernel : Frame) :
    SameEntries root m (shareKernelHalf m.mem root kernel) := by
  intro p inside f reached i low
  by_cases top : f = root
  · subst top
    -- the root is met at the empty path only
    have empty : p = [] :=
      building.paging.distinct p inside [] ⟨Nat.zero_le 3, fun i first => nomatch first⟩ f reached rfl
    simp [shareKernelHalf, Nat.not_le.mpr (low empty)]
  · rw [shareKernelHalf, Function.update_of_ne top]

theorem Building.share (building : Building old root m) (kernel : Frame) :
    Building old root ⟨shareKernelHalf m.mem root kernel, m.frames⟩ := by
  refine building.rewrite (fun f foreign => ?_) (building.sameEntries_of_share kernel)
  apply Function.update_of_ne
  intro same
  subst same
  exact foreign (building.tables f ⟨[], ⟨Nat.zero_le 3, fun i first => nomatch first⟩, rfl⟩).1

theorem start_building (reserve : Reserve old.frames) (parent : Frame)
    (allocated : pmmAllocPages old 1 = .ok (root, middle)) :
    Building old root ⟨shareKernelHalf (zeroPage middle.mem root) root parent, middle.frames⟩ ∧ ∀ s, s.User →
        leaf (shareKernelHalf (zeroPage middle.mem root) root parent) root s = none := by
  obtain ⟨building, noLeaf⟩ := blank_building reserve allocated
  refine ⟨building.share parent, fun s user => ?_⟩
  exact ((building.sameEntries_of_share parent).tables.leaf s user).trans (noLeaf s user)

variable {va : Nat}

theorem slotOf_user (low : va < stackUpperUspaceAddr) : (slotOf va).User := by
  show va / 2 ^ 39 % 512 < 256
  rw [stackUpperUspaceAddr] at low
  omega

theorem slotsFrom_user {pages : Nat} (inside : va + pages * pageSize ≤ stackUpperUspaceAddr) :
    ∀ s ∈ slotsFrom va pages, s.User := by
  intro s member
  obtain ⟨i, below, rfl⟩ := List.mem_map.mp member
  have bound := List.mem_range.mp below
  apply slotOf_user
  rw [mul_pageSize] at inside ⊢
  omega

/-- The three fixed regions, with the conditions under which they are copied. -/
def Regional (parent : Parent) (s : Slot) : Prop :=
  (parent.heapLower ≠ 0 ∧ s ∈ slotsFrom parent.heapLower (parent.heapSize / pageSize)) ∨
  (parent.openedFileTable ≠ 0 ∧ s ∈ slotsFrom parent.openedFileTable defaultFileTablePages) ∨
  s ∈ slotsFrom stackVaBase defaultStackPageAmount

/-- The child after the three block copies. -/
structure RegionsCopied (old : Kernel) (parent : Parent) (root : Frame) (m : Kernel) : Prop where
  building : Building old root m
  domain : ∀ s, s.User → leaf m.mem root s ≠ none → Regional parent s
  base : ∃ f, Pending old root m (slotOf stackVaBase) f
  found : leaf old.mem parent.cr3 (slotOf stackVaBase) ≠ none

theorem stackVaBase_low : stackVaBase < stackUpperUspaceAddr := by decide

theorem regions_copied (reserve : Reserve old.frames) {parent : Parent}
    (occupied : Occupied old parent.cr3) (building : Building old root m)
    (empty : ∀ s, s.User → leaf m.mem root s = none) {m₁ m₂ m₃ : Kernel}
    (heap : forkHeap parent root m = .ok (true, m₁)) (files : forkFileTable parent root m₁ = .ok (true, m₂))
    (stack : forkStack parent root m₂ = .ok (true, m₃)) : RegionsCopied old parent root m₃ := by
  have first : Building old root m₁ ∧ ∀ s, s.User → leaf m₁.mem root s ≠ none →
      parent.heapLower ≠ 0 ∧ s ∈ slotsFrom parent.heapLower (parent.heapSize / pageSize) := by
    unfold forkHeap at heap
    split at heap
    · cases heap
      exact ⟨building, fun s user mapped => absurd (empty s user) mapped⟩
    · rename_i present
      have inside : parent.heapLower + parent.heapSize / pageSize * pageSize ≤ stackUpperUspaceAddr :=
        (Nat.add_le_add_left (Nat.div_mul_le_self _ _) _).trans parent.heapInside
      obtain ⟨-, copied⟩ := forkRegion_spec reserve building (by decide) (slotsFrom_user inside) heap
      refine ⟨copied.building, fun s user mapped => ⟨present, ?_⟩⟩
      exact (copied.domain s user mapped).resolve_left fun before => before (empty s user)
  have second : Building old root m₂ ∧ ∀ s, s.User → leaf m₂.mem root s ≠ none →
      leaf m₁.mem root s ≠ none ∨
        parent.openedFileTable ≠ 0 ∧ s ∈ slotsFrom parent.openedFileTable defaultFileTablePages := by
    unfold forkFileTable at files
    split at files
    · cases files
      exact ⟨first.1, fun s user mapped => .inl mapped⟩
    · rename_i present
      obtain ⟨-, copied⟩ :=
        forkRegion_spec reserve first.1 (by decide) (slotsFrom_user parent.filesInside) files
      exact ⟨copied.building, fun s user mapped =>
        (copied.domain s user mapped).imp_right fun member => ⟨present, member⟩⟩
  obtain ⟨found, copied⟩ :=
    forkRegion_spec reserve second.1 (by decide) (slotsFrom_user (by decide)) stack
  refine ⟨copied.building, fun s user mapped => ?_, copied.base, ?_⟩
  · rcases copied.domain s user mapped with before | member
    · rcases second.2 s user before with earlier | member
      · exact .inl (first.2 s user earlier)
      · exact .inr (.inl member)
    · exact .inr (.inr member)
  · rw [← second.1.parent_leaf occupied (slotOf_user stackVaBase_low)]
    exact leaf_of_walkLeafPhys found

/-- The three passes that `fork_process` makes over the parent's tables. -/
structure Passes (old : Kernel) (parent : Parent) (root : Frame) (m₀ m₁ m₂ m : Kernel) : Prop where
  start : RegionsCopied old parent root m₀
  first : Covers old parent.cr3 root m₀
    (Due old parent.cr3 defaultUserHeapStart defaultUserHeapEnd []) m₁
  second : Covers old parent.cr3 root m₁ (Due old parent.cr3 defaultFileTableStart
    (defaultFileTableStart + defaultFileTablePages * pageSize) []) m₂
  third : Covers old parent.cr3 root m₂ (Due old parent.cr3 stackVaBase
    (stackVaBase + defaultStackPageBytes) []) m

theorem fork_passes (inUse : InUse) {parent : Parent} (reserve : Reserve old.frames)
    (occupied : Occupied old parent.cr3) (done : forkAddressSpace inUse parent old = .ok (some root, m)) :
    ∃ m₀ m₁ m₂, Passes old parent root m₀ m₁ m₂ m := by
  obtain ⟨⟨pml4, middle⟩, allocated, done⟩ := Outcome.bind_eq_ok.mp done
  dsimp only at done
  split at done
  · cases done
  · obtain ⟨⟨complete, last⟩, copied, done⟩ := Outcome.bind_eq_ok.mp done
    cases complete with
    | false => cases done
    | true =>
      cases done
      obtain ⟨building, empty⟩ := start_building reserve parent.cr3 allocated
      obtain ⟨m₁, heap, copied⟩ := andThen_eq_true.mp copied
      obtain ⟨m₂, files, copied⟩ := andThen_eq_true.mp copied
      obtain ⟨m₃, stack, copied⟩ := andThen_eq_true.mp copied
      obtain ⟨m₄, passA, copied⟩ := andThen_eq_true.mp copied
      obtain ⟨m₅, passB, passC⟩ := andThen_eq_true.mp copied
      have start := regions_copied reserve occupied building empty heap files stack
      have first := forkCopyUserPages_covers occupied start.building passA
      have second := forkCopyUserPages_covers occupied first.1 passB
      exact ⟨m₃, m₄, m₅, start, first, second, forkCopyUserPages_covers occupied second.1 passC⟩

end CreeperKernel.Fork
