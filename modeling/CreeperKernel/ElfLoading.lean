import CreeperKernel.ElfSegments
import CreeperKernel.ExecProgress
import CreeperKernel.ForkDuplicates
import CreeperKernel.PageTableGrants

namespace CreeperKernel.Exec

open Vmm Fork FallibleLoops WordBytes Rights
open Pmm (pageSize Ahead)

section Blocks

variable {old m m' : Kernel} {root : Frame} {scope : TableScope}

variable {va pages : Nat}

theorem Mapped.ready {e : Entry} {taken : List Frame} (start : Ready scope root m)
    (mapped : Mapped scope root m va e taken m') : Ready scope root m' := by
  have handed := mapped.allocs.handed start.reserve
  refine ⟨handed.reserve, fun f table free => ?_⟩
  obtain ⟨before, outside⟩ := (handed.rest f).mp free
  rcases (mapped.nodes f).mp table with earlier | new
  · exact start.tables f earlier before
  · exact outside new

variable {flags : Entry}

theorem map4kPages_granting {pa : Frame} {count : Nat} (start : Ready lowerScope root m)
    (paging : Paging lowerScope m.mem root) (granting : Granting lowerScope root m.mem)
    (user : ∀ s ∈ slotsFrom va count, s.User) (done : Fork.map4kPages m root va pa count flags = .ok m') :
    Granting lowerScope root m'.mem := by
  have kept : Ready lowerScope root m' ∧ Paging lowerScope m'.mem root ∧ Granting lowerScope root m'.mem := by
    refine foldlM_keeps (fun m => Ready lowerScope root m ∧ Paging lowerScope m.mem root ∧
      Granting lowerScope root m.mem) ?_ ⟨start, paging, granting⟩ done
    rintro i member s s' ⟨ready, tables, grants⟩ step
    have inside : (slotOf (va + i * pageSize)).User := user _ (List.mem_map_of_mem member)
    obtain ⟨taken, mapped⟩ := map4k_spec (ready_supply lowerScope root) ready tables inside.path_mem step
    have traced := map4k_traced (ready_supply lowerScope root) ready tables inside.path_mem step
    exact ⟨Mapped.ready ready mapped, mapped.paging,
      grants.map (sameRights_leaf _ flags ptePresent (by decide) (by decide)) traced⟩
  exact kept.2.2

variable {phys : Frame} {contents : Nat → Index → Entry}

/-- `mapNewBlock` up to its `map_4k_pages`: a block has been taken and filled. -/
theorem mapNewBlock_filled (building : Building old root m) (granting : Granting lowerScope root m.mem)
    (positive : 1 ≤ pages) (done : mapNewBlock root va pages flags contents m = .ok (some (phys, m'))) :
    ∃ filled : Kernel, Building old root filled ∧ Granting lowerScope root filled.mem ∧
      filled.mem root = m.mem root ∧ Fork.map4kPages filled root va phys pages flags = .ok m' := by
  obtain ⟨⟨f, middle⟩, allocated, done⟩ := Outcome.bind_eq_ok.mp done
  obtain ⟨handed, same⟩ := allocPages_handed building.reserve positive allocated
  obtain ⟨took, fresh, -⟩ := building.take handed
  dsimp only at done
  split at done
  · cases done
  · obtain ⟨last, mapped, done⟩ := Outcome.bind_eq_ok.mp done
    cases done
    rw [same] at mapped
    have written := fun g outside => fillPages_of_not_mem (f := g) m.mem phys pages contents outside
    have noTable := fun g member => (fresh g member).noTable
    have tables := (sameEntries_of_fill (m := ⟨m.mem, middle.frames⟩) noTable written).tables
    have filled := took.fill (fun g member => (fresh g member).taken) noTable written
    refine ⟨_, filled, ?_, written root fun block => ?_, mapped⟩
    · apply granting.congr
      intro p member j _
      apply leafAt_eq (tables.tables p member)
      intro pt reached
      exact congrFun (written pt fun block => noTable pt block ⟨p, member, reached⟩) j
    · exact noTable root block ⟨[], ⟨Nat.zero_le 3, fun i first => nomatch first⟩, rfl⟩

theorem mapNewBlock_granting (building : Building old root m) (granting : Granting lowerScope root m.mem)
    (positive : 1 ≤ pages) (inside : va + pages * pageSize ≤ stackUpperUspaceAddr)
    (done : mapNewBlock root va pages flags contents m = .ok (some (phys, m'))) : Granting lowerScope root m'.mem := by
  obtain ⟨filled, ready, granted, _, mapped⟩ := mapNewBlock_filled building granting positive done
  exact map4kPages_granting ready.ready ready.paging granted (slotsFrom_user inside) mapped

theorem granting_of_blank {mem : Memory} (zeroed : ∀ i, mem root i = 0) : Granting scope root mem := by
  have nothing : ∀ p j, leafAt mem root p j = none := by
    intro p j
    cases p with
    | nil =>
      show (if isPresent (mem root j) then _ else _) = _
      rw [zeroed j]
      rfl
    | cons i p =>
      have broken : tableAt mem root (i :: p) = none := by
        rw [tableAt, RadixTree.nodeAt, zeroed i]
        rfl
      rw [leafAt, broken]
      rfl
  constructor
  · intro p j e inside here
    rw [nothing] at here
    cases here
  · intro path member deep i e here
    rw [nothing] at here
    cases here

end Blocks

/-- The pages of a segment as they are after loading. -/
def Placed (root : Frame) (mem : Memory) (seg : Segment) : Prop :=
  ∀ i < seg.segPages, ∃ f, leaf mem root (slotOf (seg.vaddrAligned + i * pageSize)) = some (leafEntry f seg.mapFlags) ∧
    frameOf f = f ∧ mem f = seg.contents i

def Segment.slots (seg : Segment) : List Slot := slotsFrom seg.vaddrAligned seg.segPages

/-- What the segment loop has done. -/
structure SegmentsLoaded (old : Kernel) (root : Frame) (m : Kernel) (segments : List Segment) (m' : Kernel) : Prop where
  building : Building old root m'
  granting : Granting lowerScope root m'.mem
  placed : ∀ seg ∈ segments, Placed root m'.mem seg
  others : ∀ t, t.User → (∀ seg ∈ segments, t ∉ seg.slots) → leaf m'.mem root t = leaf m.mem root t
  content : ∀ g, ¬ Free m.frames g → ¬ IsTable lowerScope m.mem root g → m'.mem g = m.mem g

section Loop

variable {old m m' : Kernel} {root : Frame}

variable {va : Nat}

theorem slotOf_eq_iff {va' : Nat} (low : va < 2 ^ 48) (low' : va' < 2 ^ 48) :
    slotOf va = slotOf va' ↔ va / pageSize = va' / pageSize := by
  simp only [slotOf, Slot.mk.injEq, pml4Index, pdptIndex, pdIndex, ptIndex, Fin.mk.injEq, pageSize]
  omega

theorem slotsFrom_nodup {pages : Nat} (inside : va + pages * pageSize ≤ stackUpperUspaceAddr) :
    (slotsFrom va pages).Nodup := by
  apply List.nodup_range.map_on
  intro i low j high same
  rw [List.mem_range] at low high
  simp only [pageSize, stackUpperUspaceAddr] at inside
  rw [slotOf_eq_iff (by simp only [pageSize]; omega) (by simp only [pageSize]; omega)] at same
  simp only [pageSize] at same
  omega

theorem Segment.slots_nodup (seg : Segment) : seg.slots.Nodup := slotsFrom_nodup seg.inside_user

theorem loadSegments_loaded (reserve : Reserve old.frames) {segments : List Segment}
    (apart : segments.Pairwise fun a b => ∀ t ∈ a.slots, t ∉ b.slots) (building : Building old root m)
    (granting : Granting lowerScope root m.mem) (done : loadSegments root segments m = .ok (some m')) :
    SegmentsLoaded old root m segments m' := by
  induction segments generalizing m with
  | nil =>
    cases done
    exact ⟨building, granting, fun _ member => (nomatch member), fun _ _ _ => rfl, fun _ _ _ => rfl⟩
  | cons seg rest ih =>
    obtain ⟨⟨phys, middle⟩, first, others⟩ := withSome_eq_some.mp done
    obtain ⟨nodup, added⟩ := mapNewBlock_spec reserve building seg.mapFlags_clean seg.segPages_pos
      seg.inside_user first
    have grants := mapNewBlock_granting building granting seg.segPages_pos seg.inside_user first
    obtain ⟨off, later⟩ := List.pairwise_cons.mp apart
    have after := ih later added.building grants others
    refine ⟨after.building, after.granting, ?_, ?_, ?_⟩
    · intro other member
      rcases List.mem_cons.mp member with rfl | member
      · intro i below
        have slot : slotOf (other.vaddrAligned + i * pageSize) ∈ other.slots :=
          List.mem_map_of_mem (List.mem_range.mpr below)
        have block : phys + BitVec.ofNat 64 (i * pageSize) ∈ blockPages phys other.segPages :=
          List.mem_map_of_mem (List.mem_range.mpr below)
        obtain ⟨free, used, noTable, filled⟩ := added.block _ block
        refine ⟨phys + BitVec.ofNat 64 (i * pageSize), ?_, free.aligned reserve, ?_⟩
        · rw [after.others _ (slotsFrom_user other.inside_user _ slot) fun s inRest => off s inRest _ slot]
          exact added.mapped other.slots_nodup i below
        · rw [after.content _ used noTable, filled]
          exact fillPages_at m.mem other.contents nodup below
      · exact after.placed other member
    · intro t user outside
      rw [after.others t user fun s inRest => outside s (List.mem_cons_of_mem seg inRest)]
      exact added.others t user (outside seg List.mem_cons_self)
    · intro g used noTable
      obtain ⟨still, apart, same⟩ := added.content g used noTable
      exact (after.content g still apart).trans same

end Loop

/-- A page, by its number, that a header has bytes in; one without bytes still has the page of its address. -/
def Phdr.Covers (ph : Phdr) (page : Nat) : Prop :=
  ph.pVaddr / pageSize ≤ page ∧ page ≤ (ph.pVaddr + (ph.pMemsz - 1)) / pageSize

def loads (image : List Byte) : List Phdr := (phdrs image).filter (·.pType = ptLoad)

/-- The address space under `root` is what the headers of the image ask for. -/
structure Faithful (image : List Byte) (root : Frame) (mem : Memory) : Prop where
  file : ∀ ph ∈ loads image, ∀ k < ph.pFilesz, byteAt mem root (ph.pVaddr + k) = image[ph.pOffset + k]?
  zero : ∀ ph ∈ loads image, ∀ k, ph.pFilesz ≤ k → k < ph.pMemsz → byteAt mem root (ph.pVaddr + k) = some 0
  rights : ∀ ph ∈ loads image, ∀ va, ph.Covers (va / pageSize) → ∃ entries, walkEntries mem root va = some entries ∧
    entries.all isUser = true ∧ entries.all isWritable = ph.pfW ∧ entries.any isNx = !ph.pfX
  only : ∀ va < stackUpperUspaceAddr, (∀ ph ∈ loads image, ¬ ph.Covers (va / pageSize)) →
    walkEntries mem root va = none

section Headers

variable {image : List Byte} {ph : Phdr} {seg : Segment} {root : Frame} {mem : Memory}

variable {va : Nat}

theorem byteAt_of_leaf {f : Frame} {flags : Entry} (clean : flags &&& pteAddrMask = 0) (aligned : frameOf f = f)
    (here : leaf mem root (slotOf va) = some (leafEntry f flags)) :
    byteAt mem root va = some (byteOf (mem f (wordIndex va)) (va % 8)) := by
  rw [byteAt, wordAt, lookup_eq_leaf, here, Option.map_some, Option.map_some, frameOf_leafEntry f clean, aligned]

theorem byteOf_copied {off pos : Nat} (bytes : List Byte) : byteOf (copied off bytes (pos / pageSize) (wordIndex pos)) (pos % 8) =
    if off ≤ pos then bytes[pos - off]?.getD 0 else 0 := by
  have place : pos / pageSize * pageSize + (wordIndex pos : Nat) * 8 + pos % 8 = pos := by
    simp only [wordIndex, pageSize]
    omega
  rw [copied, byteOf_wordOf _ (Nat.mod_lt pos (by decide))]
  dsimp only
  rw [place]

theorem byteAt_placed (isLoad : ph.pType = ptLoad) (good : Loadable image ph) (its : ph.segment image = some seg)
    (placed : Placed root mem seg) {k : Nat} (below : k < ph.pMemsz) :
    byteAt mem root (ph.pVaddr + k) = some (((ph.source image)[k]?).getD 0) := by
  obtain ⟨seg', same, aligned, pages, flags, contents⟩ := segment_of_loadable isLoad good
  cases its.symm.trans same
  have span := span_le good
  have split : ph.pVaddr = ph.vaddrAligned + ph.pageOffset := by
    simp only [Phdr.vaddrAligned, Phdr.pageOffset, pageSize]
    omega
  have here : (ph.pageOffset + k) / pageSize < seg.segPages := by
    rw [pages]
    simp only [pageSize] at span ⊢
    omega
  obtain ⟨f, mapped, frame, filled⟩ := placed _ here
  have inside := good.inside
  simp only [stackUpperUspaceAddr] at inside
  have slot : slotOf (ph.pVaddr + k) = slotOf (seg.vaddrAligned + (ph.pageOffset + k) / pageSize * pageSize) := by
    rw [aligned, slotOf_eq_iff (by omega)]
    · simp only [Phdr.vaddrAligned, Phdr.pageOffset, pageSize]
      omega
    · simp only [Phdr.vaddrAligned, Phdr.pageOffset, pageSize]
      omega
  rw [byteAt_of_leaf seg.mapFlags_clean frame (slot ▸ mapped), filled, contents]
  have index : wordIndex (ph.pVaddr + k) = wordIndex (ph.pageOffset + k) := by
    simp only [wordIndex, Phdr.pageOffset, pageSize, Fin.mk.injEq]
    omega
  have byte : (ph.pVaddr + k) % 8 = (ph.pageOffset + k) % 8 := by
    simp only [Phdr.pageOffset, pageSize]
    omega
  rw [index, byte, byteOf_copied, if_pos (Nat.le_add_right ..), Nat.add_sub_cancel_left]

theorem covers_iff (good : Loadable image ph) (page : Nat) :
    ph.Covers page ↔ ∃ i < ph.segPages, page * pageSize = ph.vaddrAligned + i * pageSize := by
  have pages := segPages_eq good
  split at pages
  all_goals
    rename_i amount
    rw [pages]
    simp only [Phdr.Covers, Phdr.vaddrAligned, Phdr.pageOffset, pageSize] at amount ⊢
    constructor
    · intro covers
      exact ⟨page - ph.pVaddr / 4096, by omega, by omega⟩
    · rintro ⟨i, below, same⟩
      omega

theorem Loadable.user (good : Loadable image ph) (covers : ph.Covers (va / pageSize)) : va < stackUpperUspaceAddr := by
  have low := good.low
  have inside := good.inside
  have last := covers.2
  simp only [stackUpperUspaceAddr, pageSize] at low inside last ⊢
  omega

theorem mem_slots_iff (isLoad : ph.pType = ptLoad) (good : Loadable image ph) (its : ph.segment image = some seg)
    (user : va < stackUpperUspaceAddr) : slotOf va ∈ seg.slots ↔ ph.Covers (va / pageSize) := by
  obtain ⟨seg', same, aligned, pages, -, -⟩ := segment_of_loadable isLoad good
  cases its.symm.trans same
  have inside := seg.inside_user
  rw [aligned, pages] at inside
  rw [covers_iff good, Segment.slots, slotsFrom, List.mem_map, aligned, pages]
  simp only [stackUpperUspaceAddr, pageSize] at user inside
  constructor
  · rintro ⟨i, below, equal⟩
    rw [List.mem_range] at below
    rw [slotOf_eq_iff (by simp only [pageSize]; omega) (by omega)] at equal
    refine ⟨i, below, ?_⟩
    simp only [Phdr.vaddrAligned, pageSize] at equal ⊢
    omega
  · rintro ⟨i, below, equal⟩
    refine ⟨i, List.mem_range.mpr below, ?_⟩
    rw [slotOf_eq_iff (by simp only [pageSize]; omega) (by omega)]
    simp only [Phdr.vaddrAligned, pageSize] at equal ⊢
    omega

theorem walkEntries_eq_none {scope : TableScope} (paging : Paging scope mem root) (covered : pathOf va ∈ scope.paths)
    (nothing : lookup mem root va = none) : walkEntries mem root va = none := by
  rcases walk_cases mem root va with broken | ⟨pdpt, pd, pt, walked⟩
  · unfold walkEntries
    dsimp only
    by_cases present₁ : isPresent (mem root (pml4Index va)) = true
    · rw [if_neg (not_not.mpr present₁)]
      by_cases present₂ : isPresent (mem (frameOf (mem root (pml4Index va))) (pdptIndex va)) = true
      · have ⟨_, two, _⟩ := scope_above covered
        have atPdpt : tableAt mem root [pml4Index va] = some (frameOf (mem root (pml4Index va))) := by
          simp [tableAt, RadixTree.nodeAt, entryChild_of_present present₁]
        have small := paging.small _ _ _ two atPdpt present₂
        rcases broken_walk broken with absent | absent | absent
        · rw [absent] at present₁
          cases present₁
        · rw [absent] at present₂
          cases present₂
        · rw [if_neg (not_not.mpr present₂), if_neg (by rw [small]; decide), if_pos (by rw [absent]; decide)]
      · rw [if_pos present₂]
    · rw [if_pos present₁]
  · obtain ⟨present₁, to₁⟩ := isPresent_of_entryChild walked.atPdpt
    obtain ⟨present₂, to₂⟩ := isPresent_of_entryChild walked.atPd
    obtain ⟨present₃, to₃⟩ := isPresent_of_entryChild walked.atPt
    obtain ⟨small₂, small₃⟩ := walked.small paging covered
    rw [walked.lookup_eq] at nothing
    have absent : ¬ isPresent (mem pt (ptIndex va)) = true := by
      intro present
      rw [if_pos present] at nothing
      cases nothing
    simp only [walkEntries, present₁, to₁, present₂, small₂, to₂, present₃, small₃, to₃]
    simp [absent]

theorem isLoad_of_segment (its : ph.segment image = some seg) : ph.pType = ptLoad := by
  by_contra other
  rw [Phdr.segment, dif_neg fun both => other both.1] at its
  cases its

theorem mem_loads : ph ∈ loads image ↔ ph ∈ phdrs image ∧ ph.pType = ptLoad := by
  rw [loads, List.mem_filter, decide_eq_true_iff]

end Headers

section Image

variable {image : List Byte} {old m m' : Kernel} {root : Frame}

def segmentsOf (image : List Byte) : List Segment := (phdrs image).filterMap (Phdr.segment image)

theorem segmentsOf_apart (good : ∀ ph ∈ phdrs image, ph.pType = ptLoad → Loadable image ph)
    (apart : (loads image).Pairwise fun a b => ∀ page, a.Covers page → ¬ b.Covers page) :
    (segmentsOf image).Pairwise fun a b => ∀ t ∈ a.slots, t ∉ b.slots := by
  rw [segmentsOf, List.pairwise_filterMap]
  rw [loads, List.pairwise_filter] at apart
  apply List.Pairwise.imp_of_mem _ apart
  intro a b atA atB separate segA itsA segB itsB t inA inB
  have loadA := isLoad_of_segment itsA
  have loadB := isLoad_of_segment itsB
  obtain ⟨i, below, rfl⟩ := List.mem_map.mp inA
  rw [List.mem_range] at below
  have inside := segA.inside_user
  have user : segA.vaddrAligned + i * pageSize < stackUpperUspaceAddr := by
    simp only [pageSize] at inside ⊢
    omega
  rw [mem_slots_iff loadA (good a atA loadA) itsA user] at inA
  rw [mem_slots_iff loadB (good b atB loadB) itsB user] at inB
  exact separate (by simpa using loadA) (by simpa using loadB) _ inA inB

theorem faithful_of_loaded (good : ∀ ph ∈ phdrs image, ph.pType = ptLoad → Loadable image ph)
    (empty : ∀ s, s.User → leaf m.mem root s = none) (loaded : SegmentsLoaded old root m (segmentsOf image) m') :
    Faithful image root m'.mem := by
  have segment : ∀ ph ∈ loads image, ∃ seg, Loadable image ph ∧ ph.pType = ptLoad ∧ ph.segment image = some seg ∧
      seg.mapFlags = ph.mapFlags ∧ Placed root m'.mem seg := by
    intro ph member
    obtain ⟨listed, isLoad⟩ := mem_loads.mp member
    obtain ⟨seg, its, -, -, flags, -⟩ := segment_of_loadable isLoad (good ph listed isLoad)
    exact ⟨seg, good ph listed isLoad, isLoad, its, flags, loaded.placed seg (List.mem_filterMap.mpr ⟨ph, listed, its⟩)⟩
  constructor
  · intro ph member k below
    obtain ⟨seg, fine, isLoad, its, -, placed⟩ := segment ph member
    have inFile := fine.inFile
    have fits := fine.fits
    rw [byteAt_placed isLoad fine its placed (by omega), Phdr.source, List.getElem?_map,
      List.getElem?_range below]
    show some (imageByte image (ph.pOffset + k)) = _
    rw [imageByte, List.getElem?_eq_getElem (by omega)]
    rfl
  · intro ph member k past below
    obtain ⟨seg, fine, isLoad, its, -, placed⟩ := segment ph member
    rw [byteAt_placed isLoad fine its placed below, List.getElem?_eq_none]
    · rfl
    · rw [length_source]
      exact past
  · intro ph member va covers
    obtain ⟨seg, fine, isLoad, its, flags, placed⟩ := segment ph member
    have user := fine.user covers
    have slot := (mem_slots_iff isLoad fine its user).mpr covers
    obtain ⟨i, below, same⟩ := List.mem_map.mp slot
    obtain ⟨f, mapped, -, -⟩ := placed i (List.mem_range.mp below)
    have here : lookup m'.mem root va = some (leafEntry f ph.mapFlags) := by
      rw [lookup_eq_leaf, ← same, ← flags]
      exact mapped
    have inUser : (slotOf va).User := slotOf_user user
    obtain ⟨entries, walked, writable, users, forbids⟩ :=
      loaded.granting.walk loaded.building.paging inUser.path_mem here
    obtain ⟨sameW, sameU⟩ := sameRights_leaf f ph.mapFlags ptePresent (by decide) (by decide)
    refine ⟨entries, walked, ?_, ?_, ?_⟩
    · rw [users]
      refine sameU.trans ?_
      unfold Phdr.mapFlags
      cases ph.pfW <;> cases ph.pfX <;> decide
    · rw [writable]
      refine sameW.trans ?_
      unfold Phdr.mapFlags
      cases ph.pfW <;> cases ph.pfX <;> decide
    · rw [forbids, isNx_leafEntry]
      unfold Phdr.mapFlags
      cases ph.pfW <;> cases ph.pfX <;> decide
  · intro va user uncovered
    have inUser : (slotOf va).User := slotOf_user user
    apply walkEntries_eq_none loaded.building.paging inUser.path_mem
    rw [lookup_eq_leaf, loaded.others _ inUser]
    · exact empty _ inUser
    · intro seg member inSlots
      obtain ⟨ph, listed, its⟩ := List.mem_filterMap.mp member
      have isLoad := isLoad_of_segment its
      exact uncovered ph (mem_loads.mpr ⟨listed, isLoad⟩)
        ((mem_slots_iff isLoad (good ph listed isLoad) its user).mp inSlots)

end Image

/-- The frames that the segment loop may need, and those for the PML4 and the file. -/
def elfCost (image : List Byte) : Nat := 1 + (rawPages image + segmentsCost (segmentsOf image))

theorem rawPages_pos (image : List Byte) : 1 ≤ rawPages image := by
  unfold rawPages
  dsimp only
  split
  · exact Nat.le_refl 1
  · exact Nat.one_le_iff_ne_zero.mpr (by assumption)

/-- The segment loop starts with a PML4 that maps nothing. -/
structure Started (old : Kernel) (root : Frame) (m : Kernel) : Prop where
  building : Building old root m
  granting : Granting lowerScope root m.mem
  empty : ∀ s, s.User → leaf m.mem root s = none

theorem started {old m₁ m₂ : Kernel} {root raw : Frame} (reserve : Reserve old.frames) (image : List Byte)
    (allocated : pmmAllocPages old 1 = .ok (root, m₁))
    (scratch : pmmAllocPages ⟨zeroPage m₁.mem root, m₁.frames⟩ (rawPages image) = .ok (raw, m₂)) :
    Started old root ⟨fillPages m₂.mem raw (rawPages image) (imageWords image), m₂.frames⟩ := by
  obtain ⟨blank, empty⟩ := blank_building reserve allocated
  obtain ⟨filled, first, rfl, -, -⟩ := scratch_spec blank (rawPages_pos image) (imageWords image) scratch
  obtain ⟨handed, same⟩ := allocPages_handed blank.reserve (rawPages_pos image) scratch
  obtain ⟨-, fresh, -⟩ := blank.take handed
  have written : ∀ g, g ∉ blockPages (pageAt first) (rawPages image) →
      fillPages m₂.mem (pageAt first) (rawPages image) (imageWords image) g = zeroPage m₁.mem root g := by
    intro g outside
    rw [same]
    exact fillPages_of_not_mem _ _ _ _ outside
  have apart : root ∉ blockPages (pageAt first) (rawPages image) := by
    intro member
    exact (fresh root member).noTable ⟨[], ⟨Nat.zero_le 3, fun i first => nomatch first⟩, rfl⟩
  refine ⟨filled, granting_of_blank fun i => ?_, fun s user => ?_⟩
  · show fillPages m₂.mem (pageAt first) (rawPages image) (imageWords image) root i = 0
    rw [written root apart]
    simp [zeroPage]
  · have noTable := fun g member => (fresh g member).noTable
    have tables := (sameEntries_of_fill (m := ⟨zeroPage m₁.mem root, m₂.frames⟩) noTable written).tables
    exact (tables.leaf s user).trans (empty s user)

section Progress

variable {image : List Byte} (good : ∀ ph ∈ phdrs image, ph.pType = ptLoad → Loadable image ph)

include good

variable {old : Kernel}

theorem loadElfSegments_ends (reserve : Reserve old.frames) (accepted : elf64Validate image = 0)
    (ahead : Ahead old.frames (elfCost image)) : ∃ root m, loadElfSegments image old = .ok (some (root, m)) := by
  have ⟨root, p₁, allocated, nonzero, ahead₁⟩ := pmmAllocPages_progress (Nat.le_refl 1) ahead
  have ⟨raw, p₂, scratch, here, ahead₂⟩ :=
    pmmAllocPages_progress (m := ⟨zeroPage old.mem root, p₁⟩) (rawPages_pos image) ahead₁
  have start := started reserve image allocated scratch
  rw [← Nat.add_zero (segmentsCost (segmentsOf image))] at ahead₂
  have ⟨m₃, looped, _⟩ := loadSegments_progress reserve (segmentsOf image) ⟨start.building, ahead₂⟩
  have run := (loadPhdrs_eq reserve start.building good).trans looped
  refine ⟨root, m₃, ?_⟩
  simp only [loadElfSegments, allocated, Outcome.ok_bind, if_neg nonzero, scratch, if_neg here, accepted,
    Int.lt_irrefl, if_false]
  exact withSome_eq_some.mpr ⟨m₃, run, rfl⟩

end Progress

/-- **ELF loading is faithful**: with its `PT_LOAD` entries in pages of their own, an image is
mapped as its headers ask, and given enough frames, the segment loop comes to its end. -/
theorem elf_loading_faithful (old : Kernel) (reserve : Reserve old.frames) (image : List Byte)
    (good : ∀ ph ∈ phdrs image, ph.pType = ptLoad → Loadable image ph)
    (apart : (loads image).Pairwise fun a b => ∀ page, a.Covers page → ¬ b.Covers page) :
    (∀ root m, loadElfSegments image old = .ok (some (root, m)) → Faithful image root m.mem) ∧
      (elf64Validate image = 0 → Ahead old.frames (elfCost image) →
        ∃ root m, loadElfSegments image old = .ok (some (root, m))) := by
  constructor
  · intro root m done
    obtain ⟨⟨pml4, m₁⟩, allocated, done⟩ := Outcome.bind_eq_ok.mp done
    dsimp only at done
    split at done
    · cases done
    obtain ⟨⟨raw, m₂⟩, scratch, done⟩ := Outcome.bind_eq_ok.mp done
    dsimp only at done
    split at done
    · cases done
    split at done
    · cases done
    obtain ⟨m₃, looped, done⟩ := withSome_eq_some.mp done
    cases done
    have start := started reserve image allocated scratch
    rw [loadPhdrs_eq reserve start.building good] at looped
    have loaded := loadSegments_loaded reserve (segmentsOf_apart good apart) start.building start.granting looped
    exact faithful_of_loaded good start.empty loaded
  · exact loadElfSegments_ends good reserve

/-- Three bytes of code at 0x400078, and a segment that goes on over the end of the page. -/
def sampleImage : List Byte :=
  [0x7F, 0x45, 0x4C, 0x46, 2, 1, 1, 0, 0, 0, 0, 0, 0, 0, 0, 0, 2, 0, 62, 0, 1, 0, 0, 0] ++
    [0x78, 0, 0x40, 0, 0, 0, 0, 0] ++ [0x40, 0, 0, 0, 0, 0, 0, 0] ++ [0, 0, 0, 0, 0, 0, 0, 0] ++
    [0, 0, 0, 0, 64, 0, 56, 0, 1, 0, 0, 0, 0, 0, 0, 0] ++
    [1, 0, 0, 0, 5, 0, 0, 0] ++ [0x78, 0, 0, 0, 0, 0, 0, 0] ++ [0x78, 0, 0x40, 0, 0, 0, 0, 0] ++
    [0x78, 0, 0x40, 0, 0, 0, 0, 0] ++ [3, 0, 0, 0, 0, 0, 0, 0] ++ [0, 0x10, 0, 0, 0, 0, 0, 0] ++
    [0, 0x10, 0, 0, 0, 0, 0, 0] ++ [0xF4, 0xEB, 0xFD]

theorem phdrs_sampleImage : phdrs sampleImage = [⟨1, 5, 0x78, 0x400078, 3, 0x1000⟩] := rfl

theorem sampleImage_loadable : ∀ ph ∈ phdrs sampleImage, ph.pType = ptLoad → Loadable sampleImage ph := by
  rw [phdrs_sampleImage]
  intro ph member _
  rw [List.mem_singleton.mp member]
  constructor <;> decide +kernel

theorem sampleImage_loads : ∃ root m, loadElfSegments sampleImage usprocKernel = .ok (some (root, m)) :=
  loadElfSegments_ends sampleImage_loadable smallPmm_reserve (by decide) (smallPmm_ahead (by decide +kernel))

theorem elf_loading_faithful_sample : ∃ root m, loadElfSegments sampleImage usprocKernel = .ok (some (root, m)) ∧
    Faithful sampleImage root m.mem := by
  have apart : (loads sampleImage).Pairwise fun a b => ∀ page, a.Covers page → ¬ b.Covers page := by
    rw [loads, phdrs_sampleImage]
    exact List.pairwise_singleton ..
  obtain ⟨faithful, ends⟩ := elf_loading_faithful usprocKernel smallPmm_reserve sampleImage sampleImage_loadable apart
  obtain ⟨root, m, done⟩ := ends (by decide) (smallPmm_ahead (by decide +kernel))
  exact ⟨root, m, done, faithful root m done⟩

end CreeperKernel.Exec
