import CreeperKernel.ElfLoading

namespace CreeperKernel.Exec

open Vmm Fork FallibleLoops
open Pmm (pageSize)

/-- The segment loop has come to its end, with a block of frames for each segment. -/
inductive BlocksLoaded (root : Frame) : List Segment → Kernel → List (Segment × Frame) → Kernel → Prop where
  | nil (m : Kernel) : BlocksLoaded root [] m [] m
  | cons {seg : Segment} {rest : List Segment} {m middle m' : Kernel} {phys : Frame} {blocks : List (Segment × Frame)}
      (first : loadSegment root seg m = .ok (some (phys, middle))) (later : BlocksLoaded root rest middle blocks m') :
      BlocksLoaded root (seg :: rest) m ((seg, phys) :: blocks) m'

/-- A user address is mapped to the frame. -/
def MappedFrame (root : Frame) (mem : Memory) (g : Frame) : Prop :=
  ∃ s, s.User ∧ ∃ e, leaf mem root s = some e ∧ frameOf e = g

/-- Every frame allocated for a segment is mapped. -/
def AllMapped (root : Frame) (mem : Memory) (blocks : List (Segment × Frame)) : Prop :=
  ∀ block ∈ blocks, ∀ g ∈ blockPages block.2 block.1.segPages, MappedFrame root mem g

section Blocks

variable {old m m' : Kernel} {root phys : Frame} {seg : Segment} {segments : List Segment} {t : Slot} {e : Entry}
  {blocks : List (Segment × Frame)}

theorem loadSegments_iff_blocks :
    loadSegments root segments m = .ok (some m') ↔ ∃ blocks, BlocksLoaded root segments m blocks m' := by
  constructor
  · intro done
    induction segments generalizing m with
    | nil =>
      cases done
      exact ⟨[], .nil _⟩
    | cons seg rest ih =>
      have ⟨⟨phys, middle⟩, first, later⟩ := withSome_eq_some.mp done
      have ⟨blocks, loaded⟩ := ih later
      exact ⟨_, .cons first loaded⟩
  · intro ⟨blocks, loaded⟩
    induction loaded with
    | nil => rfl
    | cons first _ ih => exact withSome_eq_some.mpr ⟨_, first, ih⟩

theorem loadSegment_free (building : Building old root m) (done : loadSegment root seg m = .ok (some (phys, m'))) :
    ∀ g ∈ blockPages phys seg.segPages, Free m.frames g := by
  have ⟨⟨f, middle⟩, allocated, done⟩ := Outcome.bind_eq_ok.mp done
  have ⟨handed, _⟩ := allocPages_handed building.reserve seg.segPages_pos allocated
  dsimp only at done
  split at done
  · cases done
  · have ⟨last, _, done⟩ := Outcome.bind_eq_ok.mp done
    cases done
    exact handed.free

variable (reserve : Reserve old.frames)

include reserve

theorem loadSegment_added (building : Building old root m) (done : loadSegment root seg m = .ok (some (phys, m'))) :
    BlockAdded old root m seg.vaddrAligned seg.segPages phys seg.mapFlags (fillPages m.mem phys seg.segPages seg.contents) m' :=
  (mapNewBlock_spec reserve building seg.mapFlags_clean seg.segPages_pos seg.inside_user done).2

theorem loadSegment_mapped (building : Building old root m) (done : loadSegment root seg m = .ok (some (phys, m')))
    (inside : t ∈ seg.slots) : ∃ g ∈ blockPages phys seg.segPages, ∃ e, leaf m'.mem root t = some e ∧ frameOf e = g := by
  have added := loadSegment_added reserve building done
  have ⟨i, low, same⟩ := List.mem_map.mp inside
  subst same
  have below := List.mem_range.mp low
  refine ⟨_, List.mem_map_of_mem low, _, added.mapped seg.slots_nodup i below, ?_⟩
  rw [frameOf_leafEntry _ seg.mapFlags_clean]
  exact (added.block _ (List.mem_map_of_mem low)).1.aligned reserve

theorem loadSegment_replaces (building : Building old root m) (done : loadSegment root seg m = .ok (some (phys, m')))
    (inside : t ∈ seg.slots) (here : leaf m.mem root t = some e)
    (taken : Free old.frames (frameOf e)) : Spare old root m' (frameOf e) := by
  have added := loadSegment_added reserve building done
  have user := slotsFrom_user seg.inside_user
  have ⟨used, noTable⟩ := building.leaves t (user t inside) e here taken
  have ⟨still, apart, _⟩ := added.content _ used noTable
  refine ⟨taken, still, apart, fun s inUser d there same => ?_⟩
  by_cases covered : s ∈ seg.slots
  · have ⟨g, block, d', there', frame⟩ := loadSegment_mapped reserve building done covered
    cases there.symm.trans there'
    exact used (same ▸ frame ▸ loadSegment_free building done g block)
  · rw [added.others s inUser covered] at there
    have equal := building.unshared s t inUser (user t inside) d e there here same (same ▸ taken)
    exact covered (equal ▸ inside)

variable (loaded : BlocksLoaded root segments m blocks m') (building : Building old root m)
include loaded building

theorem BlocksLoaded.spare {g : Frame} (spare : Spare old root m g) : Spare old root m' g := by
  induction loaded with
  | nil => exact spare
  | cons first _ ih =>
    have added := loadSegment_added reserve building first
    exact ih added.building (added.spare g spare)

theorem BlocksLoaded.lost (user : t.User) (here : leaf m.mem root t = some e) (taken : Free old.frames (frameOf e))
    (covered : ∃ seg ∈ segments, t ∈ seg.slots) : Spare old root m' (frameOf e) := by
  induction loaded with
  | nil =>
    have ⟨_, member, _⟩ := covered
    cases member
  | @cons seg rest m middle m' phys blocks first later ih =>
    have added := loadSegment_added reserve building first
    by_cases inside : t ∈ seg.slots
    · exact later.spare reserve added.building (loadSegment_replaces reserve building first inside here taken)
    · have ⟨other, member, its⟩ := covered
      apply ih added.building
      · rw [added.others t user inside]
        exact here
      · rcases List.mem_cons.mp member with same | member
        · exact absurd (same ▸ its) inside
        · exact ⟨other, member, its⟩

theorem BlocksLoaded.others
    (user : t.User) (outside : ∀ seg ∈ segments, t ∉ seg.slots) : leaf m'.mem root t = leaf m.mem root t := by
  induction loaded with
  | nil => rfl
  | @cons seg rest m middle m' phys blocks first later ih =>
    have added := loadSegment_added reserve building first
    rw [ih added.building fun other member => outside other (List.mem_cons_of_mem seg member)]
    exact added.others t user (outside seg List.mem_cons_self)

/-- All frames stay mapped just if no two segments share a page. -/
theorem BlocksLoaded.allMapped_iff :
    AllMapped root m'.mem blocks ↔ segments.Pairwise fun a b => ∀ t ∈ a.slots, t ∉ b.slots := by
  induction loaded with
  | nil => exact iff_of_true (fun _ none_ => absurd none_ List.not_mem_nil) .nil
  | @cons seg rest m middle m' phys blocks first later ih =>
    have added := loadSegment_added reserve building first
    have rest_ := ih added.building
    have user := slotsFrom_user seg.inside_user
    rw [List.pairwise_cons, ← rest_]
    constructor
    · intro all
      refine ⟨fun other member t inside covered => ?_, fun block member => all block (List.mem_cons_of_mem _ member)⟩
      have ⟨g, inBlock, e, here, frame⟩ := loadSegment_mapped reserve building first inside
      have taken : Free old.frames (frameOf e) := frame ▸ (added.block g inBlock).1
      have lost := later.lost reserve added.building (user t inside) here taken ⟨other, member, covered⟩
      have ⟨s, inUser, d, there, same⟩ := all (seg, phys) List.mem_cons_self g inBlock
      exact lost.noPage s inUser d there (same.trans frame.symm)
    · intro ⟨apart, others⟩ block member g inBlock
      rcases List.mem_cons.mp member with same | member
      · subst same
        have ⟨i, low, atG⟩ := List.mem_map.mp inBlock
        have below := List.mem_range.mp low
        have slot : slotOf (seg.vaddrAligned + i * pageSize) ∈ seg.slots := List.mem_map_of_mem low
        refine ⟨_, user _ slot, leafEntry (phys + BitVec.ofNat 64 (i * pageSize)) seg.mapFlags, ?_, ?_⟩
        · rw [later.others reserve added.building (user _ slot) fun other member => apart other member _ slot]
          exact added.mapped seg.slots_nodup i below
        · rw [frameOf_leafEntry _ seg.mapFlags_clean, ← atG]
          exact (added.block _ (List.mem_map_of_mem low)).1.aligned reserve
      · exact others block member g inBlock

end Blocks

/-- `load_elf_from_vfs` up to its segment loop, with frames for the PML4 and the file. -/
def beforeSegments (image : List Byte) (m : Kernel) : Outcome (Frame × Kernel) := do
  let (pml4, m) ← pmmAllocPages m 1
  let (raw, m) ← pmmAllocPages { m with mem := zeroPage m.mem pml4 } (rawPages image)
  pure (pml4, { m with mem := fillPages m.mem raw (rawPages image) (imageWords image) })

section Image

variable {image : List Byte} (good : ∀ ph ∈ phdrs image, ph.pType = ptLoad → Loadable image ph)

include good

/-- Segments share a slot just if their headers share a page. -/
theorem segmentsOf_apart_iff : ((segmentsOf image).Pairwise fun a b => ∀ t ∈ a.slots, t ∉ b.slots) ↔
    (loads image).Pairwise fun a b => ∀ page, a.Covers page → ¬ b.Covers page := by
  refine ⟨fun apart => ?_, segmentsOf_apart good⟩
  rw [segmentsOf, List.pairwise_filterMap] at apart
  rw [loads, List.pairwise_filter]
  apply List.Pairwise.imp_of_mem _ apart
  intro a b atA atB separate loadA loadB page inA inB
  have loadA : a.pType = ptLoad := by simpa using loadA
  have loadB : b.pType = ptLoad := by simpa using loadB
  obtain ⟨segA, itsA, _⟩ := segment_of_loadable loadA (good a atA loadA)
  obtain ⟨segB, itsB, _⟩ := segment_of_loadable loadB (good b atB loadB)
  have exact_ : page * pageSize / pageSize = page := Nat.mul_div_cancel page (by decide)
  have user : page * pageSize < stackUpperUspaceAddr := (good a atA loadA).user (exact_.symm ▸ inA)
  apply separate segA itsA segB itsB (slotOf (page * pageSize))
  · rw [mem_slots_iff loadA (good a atA loadA) itsA user, exact_]
    exact inA
  · rw [mem_slots_iff loadB (good b atB loadB) itsB user, exact_]
    exact inB

variable {old m : Kernel} {root : Frame}

theorem blocks_of_load (reserve : Reserve old.frames) (done : loadElfSegments image old = .ok (some (root, m))) :
    ∃ start blocks, beforeSegments image old = .ok (root, start) ∧ Building old root start ∧
      BlocksLoaded root (segmentsOf image) start blocks m := by
  have ⟨⟨pml4, m₁⟩, allocated, done⟩ := Outcome.bind_eq_ok.mp done
  dsimp only at done
  split at done
  · cases done
  have ⟨⟨raw, m₂⟩, scratch, done⟩ := Outcome.bind_eq_ok.mp done
  dsimp only at done
  split at done
  · cases done
  split at done
  · cases done
  have ⟨m₃, looped, done⟩ := withSome_eq_some.mp done
  cases done
  have start := started reserve image allocated scratch
  rw [loadPhdrs_eq reserve start.building good] at looped
  have ⟨blocks, loaded⟩ := loadSegments_iff_blocks.mp looped
  refine ⟨_, blocks, ?_, start.building, loaded⟩
  rw [beforeSegments, allocated, Outcome.ok_bind]
  dsimp only
  rw [scratch]
  rfl

end Image

/-- After the segment loop every frame allocated for a segment is still mapped just if no two
`PT_LOAD` headers have bytes in the same page. -/
theorem segments_survive_iff (old : Kernel) (reserve : Reserve old.frames) (image : List Byte)
    (good : ∀ ph ∈ phdrs image, ph.pType = ptLoad → Loadable image ph) {root : Frame} {m : Kernel}
    (done : loadElfSegments image old = .ok (some (root, m))) :
    ∃ start blocks, beforeSegments image old = .ok (root, start) ∧ BlocksLoaded root (segmentsOf image) start blocks m ∧
      (AllMapped root m.mem blocks ↔ (loads image).Pairwise fun a b => ∀ page, a.Covers page → ¬ b.Covers page) := by
  have ⟨start, blocks, begun, building, loaded⟩ := blocks_of_load good reserve done
  exact ⟨start, blocks, begun, loaded, (loaded.allMapped_iff reserve building).trans (segmentsOf_apart_iff good)⟩

theorem segments_survive_iff_sample : ∃ root m start blocks,
    loadElfSegments sampleImage usprocKernel = .ok (some (root, m)) ∧
      BlocksLoaded root (segmentsOf sampleImage) start blocks m ∧ AllMapped root m.mem blocks := by
  have ⟨root, m, done⟩ := sampleImage_loads
  have ⟨start, blocks, _, loaded, survive⟩ := segments_survive_iff usprocKernel smallPmm_reserve sampleImage sampleImage_loadable done
  refine ⟨root, m, start, blocks, done, loaded, survive.mpr ?_⟩
  rw [loads, phdrs_sampleImage]
  exact List.pairwise_singleton ..

/-- A program header of 16 bytes at this file offset and this address. -/
def headerBytes (offset vaddr : Byte) : List Byte :=
  [1, 0, 0, 0, 5, 0, 0, 0] ++ [offset, 0, 0, 0, 0, 0, 0, 0] ++ [vaddr, 0, 0x40, 0, 0, 0, 0, 0] ++
    [vaddr, 0, 0x40, 0, 0, 0, 0, 0] ++ [16, 0, 0, 0, 0, 0, 0, 0] ++ [16, 0, 0, 0, 0, 0, 0, 0] ++
    [0, 0x10, 0, 0, 0, 0, 0, 0]

/-- Two segments of 16 bytes, one behind the other, at 0x400000. -/
def sharedImage : List Byte :=
  sampleImage.take 56 ++ [2, 0, 0, 0, 0, 0, 0, 0] ++ headerBytes 0 0 ++ headerBytes 16 16

theorem phdrs_sharedImage :
    phdrs sharedImage = [⟨1, 5, 0, 0x400000, 16, 16⟩, ⟨1, 5, 16, 0x400010, 16, 16⟩] := rfl

/-- The second segment takes the page away from the frame of the first. -/
theorem shared_page_loses_frame : ∃ root m start blocks,
    (phdrs sharedImage).Pairwise (fun a b => a.pVaddr + a.pMemsz ≤ b.pVaddr) ∧
      loadElfSegments sharedImage usprocKernel = .ok (some (root, m)) ∧
      BlocksLoaded root (segmentsOf sharedImage) start blocks m ∧ ¬ AllMapped root m.mem blocks := by
  have good : ∀ ph ∈ phdrs sharedImage, ph.pType = ptLoad → Loadable sharedImage ph := by
    rw [phdrs_sharedImage]
    intro ph member _
    rcases List.mem_cons.mp member with same | member
    · rw [same]
      constructor <;> decide +kernel
    · rw [List.mem_singleton.mp member]
      constructor <;> decide +kernel
  have ends : ∃ root m, loadElfSegments sharedImage usprocKernel = .ok (some (root, m)) :=
    loadElfSegments_ends good smallPmm_reserve (by decide +kernel) (smallPmm_ahead (by decide +kernel))
  have ⟨root, m, done⟩ := ends
  have ⟨start, blocks, _, building, loaded⟩ := blocks_of_load good smallPmm_reserve done
  refine ⟨root, m, start, blocks, by rw [phdrs_sharedImage]; decide, done, loaded, fun all => ?_⟩
  have apart := (segmentsOf_apart_iff good).mp ((loaded.allMapped_iff smallPmm_reserve building).mp all)
  rw [loads, phdrs_sharedImage] at apart
  exact (List.pairwise_cons.mp apart).1 _ List.mem_cons_self 0x400 ⟨by decide, by decide⟩ ⟨by decide, by decide⟩

end CreeperKernel.Exec
