import CreeperKernel.LibcHeap

namespace CreeperKernel.Libc

open Vmm Fork Exec Rights UserMemory
open Pmm (pageSize)
open Transitions (Run)

/-- The heap after the break has been moved. -/
def movedTo (heap : HeapT) (brk : BitVec 64) : HeapT := { heap with higher := brk, size := brk - heap.lower }

/-- What `sys_brk` can do. -/
inductive BrkEffect (m : Kernel) (cr3 : Frame) (heap : HeapT) (brk : BitVec 64) : HeapT → Kernel → Prop where
  | idle (asked : brk = 0 ∨ brk < heap.lower) : BrkEffect m cr3 heap brk heap m
  | lowered (nonzero : brk ≠ 0) (above : ¬ brk < heap.lower) (stays : ¬ pageUp heap.higher < pageUp brk) :
      BrkEffect m cr3 heap brk (movedTo heap brk) m
  | noMemory (nonzero : brk ≠ 0) (above : ¬ brk < heap.lower) (grows : pageUp heap.higher < pageUp brk) {m₁ : Kernel}
      (allocated : pmmAllocPages m (pagesBetween (pageUp heap.higher) (pageUp brk)) = .ok (0, m₁)) :
      BrkEffect m cr3 heap brk heap m₁
  | raised (nonzero : brk ≠ 0) (above : ¬ brk < heap.lower) (grows : pageUp heap.higher < pageUp brk) {phys : Frame}
      {m₁ m' : Kernel}
      (allocated : pmmAllocPages m (pagesBetween (pageUp heap.higher) (pageUp brk)) = .ok (phys, m₁))
      (mapped : Rights.map4kPages m₁ cr3 (pageUp heap.higher).toNat phys
        (pagesBetween (pageUp heap.higher) (pageUp brk)) heapFlags = .ok m') :
      BrkEffect m cr3 heap brk (movedTo heap brk) m'

section Effect

variable {m m' : Kernel} {cr3 : Frame} {heap heap' : HeapT} {brk value : BitVec 64}

theorem sysBrk_effect (done : sysBrk m cr3 heap brk = .ok (value, heap', m')) : BrkEffect m cr3 heap brk heap' m' := by
  unfold sysBrk at done
  split at done
  · cases done
    exact .idle (.inl (by assumption))
  rename_i nonzero
  split at done
  · cases done
    exact .idle (.inr (by assumption))
  rename_i above
  dsimp only at done
  split at done
  · rename_i grows
    obtain ⟨⟨phys, m₁⟩, allocated, done⟩ := Outcome.bind_eq_ok.mp done
    dsimp only at done
    split at done
    · rename_i zero
      cases done
      rw [zero] at allocated
      exact .noMemory nonzero above grows allocated
    · obtain ⟨m₂, mapped, done⟩ := Outcome.bind_eq_ok.mp done
      cases done
      exact .raised nonzero above grows allocated mapped
  · rename_i stays
    cases done
    exact .lowered nonzero above stays

variable {x : BitVec 64}

theorem toNat_pageUp_fits (fits : x.toNat ≤ 2 ^ 64 - 4096) : (pageUp x).toNat = (x.toNat + 4095) / 4096 * 4096 := by
  have sum : (x + 0xFFF).toNat = x.toNat + 4095 := by
    rw [BitVec.toNat_add]
    show (x.toNat + 4095) % 2 ^ 64 = _
    omega
  rw [pageUp, toNat_pageDown, sum]

/-- Close to the end of the address space, rounding up gives 0. -/
theorem pageUp_wraps (wraps : ¬ x.toNat ≤ 2 ^ 64 - 4096) : pageUp x = 0 := by
  have bound := x.isLt
  have sum : (x + 0xFFF).toNat = x.toNat + 4095 - 2 ^ 64 := by
    rw [BitVec.toNat_add]
    show (x.toNat + 4095) % 2 ^ 64 = _
    omega
  apply BitVec.eq_of_toNat_eq
  rw [pageUp, toNat_pageDown, sum]
  show _ = 0
  omega

theorem pagesBetween_mul {low high : BitVec 64} (left : low.toNat % 4096 = 0) (right : high.toNat % 4096 = 0)
    (order : low < high) : pagesBetween low high * 4096 = high.toNat - low.toNat := by
  have below : low.toNat < high.toNat := order
  rw [pagesBetween, BitVec.toNat_udiv, BitVec.toNat_sub_of_le (Nat.le_of_lt below)]
  show (high.toNat - low.toNat) / 4096 * 4096 = _
  omega

end Effect

/-- User code may read and write the page at `va`: every entry of the walk allows it. -/
def UserPage (mem : Memory) (cr3 : Frame) (va : Nat) : Prop :=
  ∃ entries, walkEntries mem cr3 va = some entries ∧ entries.all isUser = true ∧ entries.all isWritable = true

/-- What the heap of a process promises. -/
structure BreakInvariant (cr3 : Frame) (s : Heap) : Prop where
  ordered : s.heap.lower ≤ s.heap.higher
  size : s.heap.size = s.heap.higher - s.heap.lower
  mapped : ∀ page, page * pageSize < s.heap.higher.toNat → s.heap.lower.toNat < (page + 1) * pageSize →
    UserPage s.kernel.mem cr3 (page * pageSize)

/-- A process as `new_usproc` leaves it, on a machine whose memory the direct map covers. -/
structure NewProcess (cr3 : Frame) (m : Kernel) : Prop where
  started : Started cr3 m
  closed : ∀ i : Index, 256 ≤ i.val → isUser (m.mem cr3 i) = false
  installed : m.frames.totalPages ≤ 2 ^ 30

/-- The break can be rounded up to a page. -/
def Fits (brk : BitVec 64) : Prop := brk.toNat ≤ 2 ^ 64 - 4096

def FittingBrk (cr3 : Frame) (s : Heap) (brk : BitVec 64) (s' : Heap) : Prop := Step cr3 s (.brk brk) s' ∧ Fits brk

/-- The heap is mapped, it has been paid for with frames, and the kernel half of the PML4 is as it
was. -/
structure BreakSpace (cr3 : Frame) (start : Kernel) (s : Heap) : Prop where
  heap : HeapSpace cr3 s
  size : s.heap.size = s.heap.higher - s.heap.lower
  paid : (pageUp s.heap.higher).toNat + (freeSet s.kernel.frames).card * 4096 ≤
    defaultUserHeapEnd + (freeSet start.frames).card * 4096
  row : ∀ i : Index, 256 ≤ i.val → s.kernel.mem cr3 i = start.mem cr3 i

section Break

variable {cr3 : Frame} {start m : Kernel} {s s' : Heap} {brk : BitVec 64}

theorem NewProcess.breakSpace (new : NewProcess cr3 m) : BreakSpace cr3 m (newHeap m) where
  heap := new.started.heapSpace
  size := show newHeapT.size = newHeapT.higher - newHeapT.lower by decide
  paid := by
    have stop : (pageUp newHeapT.higher).toNat = defaultUserHeapEnd := by decide
    show (pageUp newHeapT.higher).toNat + (freeSet m.frames).card * 4096 ≤ _
    rw [stop]
  row := fun _ _ => rfl

/-- All memory together does not reach from the heap to the end of the user half. -/
theorem BreakSpace.limit (new : NewProcess cr3 start) (inv : BreakSpace cr3 start s) :
    (pageUp s.heap.higher).toNat + (freeSet s.kernel.frames).card * 4096 ≤ stackUpperUspaceAddr := by
  have paid := inv.paid
  have few : (freeSet start.frames).card ≤ start.frames.totalPages :=
    Finset.card_image_le.trans (Pmm.freeFrames_card_le _)
  have installed := new.installed
  have stop : defaultUserHeapEnd = 0x600000010000 := by decide
  rw [stackUpperUspaceAddr]
  omega

theorem BreakSpace.invariant (inv : BreakSpace cr3 start s) : BreakInvariant cr3 s where
  ordered := inv.heap.above
  size := inv.size
  mapped := by
    intro page low high
    have start := inv.heap.lower
    have begins : defaultUserHeapStart = 0x600000000000 := rfl
    have rounded := toNat_pageUp inv.heap.below
    have bound := inv.heap.below
    rw [Pmm.mul_pageSize] at low high
    have user : page * pageSize < stackUpperUspaceAddr := by
      rw [Pmm.mul_pageSize]
      omega
    have here := inv.heap.mapped (page * pageSize) (by rw [Pmm.mul_pageSize]; omega)
      (by rw [Pmm.mul_pageSize]; omega)
    have ⟨_, entries, walked, allUser, allWritable⟩ := inv.heap.space.userWritable user here
    exact ⟨entries, walked, allUser, allWritable⟩

theorem UserSpace.pagesMapped {m' : Kernel} (space : UserSpace cr3 m) {va : BitVec 64} {count : Nat} {pa : Frame}
    {flags : Entry} (inside : va.toNat + count * pageSize ≤ stackUpperUspaceAddr)
    (done : Rights.map4kPages m cr3 va.toNat pa count flags = .ok m') : PagesMapped lowerScope cr3 m va count m' := by
  apply map4kPages_spec space.ready space.paging _ done
  intro i below
  simp only [Pmm.mul_pageSize, stackUpperUspaceAddr] at inside
  have plain : pageOf va i = va.toNat + i * 4096 := by
    rw [pageOf, Pmm.mul_pageSize]
    omega
  have low : pageOf va i < stackUpperUspaceAddr := by
    rw [plain, stackUpperUspaceAddr]
    omega
  exact (slotOf_user low).path_mem

theorem high_row {i : Index} (high : 256 ≤ i.val) : [i] ∉ lowerScope.paths := by
  intro inside
  have low := inside.2 i rfl
  omega

theorem BreakSpace.raised_low (new : NewProcess cr3 start) (inv : BreakSpace cr3 start s) (fits : Fits brk)
    (grows : pageUp s.heap.higher < pageUp brk) {phys : Frame} {m₁ : Kernel}
    (allocated : pmmAllocPages s.kernel (pagesBetween (pageUp s.heap.higher) (pageUp brk)) = .ok (phys, m₁)) :
    1 ≤ pagesBetween (pageUp s.heap.higher) (pageUp brk) ∧
      (pageUp s.heap.higher).toNat + pagesBetween (pageUp s.heap.higher) (pageUp brk) * 4096 = (pageUp brk).toNat ∧
      (freeSet m₁.frames).card + pagesBetween (pageUp s.heap.higher) (pageUp brk) = (freeSet s.kernel.frames).card ∧
      (pageUp brk).toNat ≤ stackUpperUspaceAddr := by
  have old := toNat_pageUp inv.heap.below
  have next := toNat_pageUp_fits fits
  have order : (pageUp s.heap.higher).toNat < (pageUp brk).toNat := grows
  have pages := pagesBetween_mul (by omega) (by omega) grows
  have positive : 1 ≤ pagesBetween (pageUp s.heap.higher) (pageUp brk) := by omega
  have reserve := inv.heap.space.ready.reserve
  have counted := (allocPages_handed reserve positive allocated).1.count
  rw [blockPages, List.length_map, List.length_range] at counted
  have limit := inv.limit new
  omega

theorem BreakSpace.step (new : NewProcess cr3 start) (inv : BreakSpace cr3 start s) (taken : FittingBrk cr3 s brk s') :
    BreakSpace cr3 start s' := by
  obtain ⟨taken, fits⟩ := taken
  cases taken with
  | @brk _ value heap kernel done =>
    have next := toNat_pageUp_fits fits
    have limit := inv.limit new
    cases sysBrk_effect done with
    | idle => exact inv
    | lowered nonzero above stays =>
      have order : (pageUp brk).toNat ≤ (pageUp s.heap.higher).toNat := BitVec.not_lt.mp stays
      have kept := (inv.heap.sysBrk_accepted above (by omega) done).2.2
      refine ⟨kept, rfl, ?_, inv.row⟩
      have paid := inv.paid
      show (pageUp brk).toNat + (freeSet s.kernel.frames).card * 4096 ≤ _
      omega
    | noMemory nonzero above grows allocated =>
      have ⟨positive, _⟩ := inv.raised_low new fits grows allocated
      exact absurd rfl (inv.heap.space.alloc positive allocated).2.2
    | @raised _ _ _ phys m₁ m' allocated mapped =>
      rename_i nonzero above grows
      have ⟨positive, pages, counted, low⟩ := inv.raised_low new fits grows allocated
      have kept := (inv.heap.sysBrk_accepted above (by omega) done).2.2
      have ⟨space, same, _⟩ := inv.heap.space.alloc positive allocated
      have effect := space.pagesMapped (by rw [Pmm.mul_pageSize]; omega) mapped
      have fewer := card_freeSet_le effect.used
      refine ⟨kept, rfl, ?_, fun i high => ?_⟩
      · have paid := inv.paid
        show (pageUp brk).toNat + (freeSet kernel.frames).card * 4096 ≤ _
        omega
      · show kernel.mem cr3 i = start.mem cr3 i
        rw [effect.row i (high_row high), same]
        exact inv.row i high

/-- A break that cannot be rounded up is accepted without a page for it. -/
theorem BreakSpace.wrapped (new : NewProcess cr3 start) (inv : BreakSpace cr3 start s) (wraps : ¬ Fits brk)
    (taken : Step cr3 s (.brk brk) s') : ¬ BreakInvariant cr3 s' := by
  have large : ¬ brk.toNat ≤ 2 ^ 64 - 4096 := wraps
  have begins : s.heap.lower.toNat = 0x600000000000 := inv.heap.lower
  have zero := pageUp_wraps wraps
  intro kept
  cases taken with
  | @brk _ value heap kernel done =>
    cases sysBrk_effect done with
    | idle asked =>
      rcases asked with rfl | below
      · exact large (by decide)
      · have order : brk.toNat < s.heap.lower.toNat := below
        omega
    | lowered nonzero above stays =>
      -- the last page of the address space belongs to the kernel half
      have ⟨n, last⟩ : ∃ n, n * pageSize = 2 ^ 64 - 4096 := ⟨2 ^ 52 - 1, by decide⟩
      have low : n * pageSize < (movedTo s.heap brk).higher.toNat := by
        rw [last]
        exact Nat.lt_of_not_le large
      have high : (movedTo s.heap brk).lower.toNat < (n + 1) * pageSize := by
        rw [Nat.add_mul, last]
        show s.heap.lower.toNat < 2 ^ 64 - 4096 + 1 * 4096
        omega
      obtain ⟨entries, walked, allUser, _⟩ := kept.mapped n low high
      have first : s.kernel.mem cr3 511 ∈ entries := by
        unfold walkEntries at walked
        have index : pml4Index (2 ^ 64 - 4096) = 511 := by decide
        rw [last, index] at walked
        dsimp only at walked
        repeat' split at walked
        all_goals cases walked
        all_goals exact List.mem_cons_self
      have user := List.all_eq_true.mp allUser _ first
      rw [inv.row 511 (by decide), new.closed 511 (by decide)] at user
      cases user
    | noMemory _ _ grows =>
      rw [zero] at grows
      exact BitVec.not_lt_zero grows
    | raised _ _ grows =>
      rw [zero] at grows
      exact BitVec.not_lt_zero grows

end Break

section Start

variable {old m m' : Kernel} {root : Frame}

variable {flags : Entry} {i : Index} {va : Nat}

theorem map4kPages_row (space : UserSpace root m) {count : Nat} {pa : Frame}
    (inside : va + count * pageSize ≤ stackUpperUspaceAddr) (done : Fork.map4kPages m root va pa count flags = .ok m')
    (high : 256 ≤ i.val) : m'.mem root i = m.mem root i := by
  have each : ∀ k ∈ List.range count, ∀ middle after : Kernel,
      UserSpace root middle ∧ middle.mem root i = m.mem root i →
      map4k middle root (va + k * pageSize) (pa + BitVec.ofNat 64 (k * pageSize)) flags = .ok after →
      UserSpace root after ∧ after.mem root i = m.mem root i := by
    intro k member middle after ⟨before, same⟩ mapped
    have below := List.mem_range.mp member
    simp only [Pmm.mul_pageSize, stackUpperUspaceAddr] at inside
    have low : va + k * pageSize < stackUpperUspaceAddr := by
      simp only [Pmm.mul_pageSize, stackUpperUspaceAddr]
      omega
    have covered : pathOf (va + k * pageSize) ∈ lowerScope.paths := (slotOf_user low).path_mem
    have other : i ≠ pml4Index (va + k * pageSize) := by
      rintro rfl
      have first := covered.2 (pml4Index (va + k * pageSize)) rfl
      omega
    exact ⟨(before.map4k low mapped).1, (map4k_row before.ready before.paging covered mapped other).trans same⟩
  exact (FallibleLoops.foldlM_keeps (fun k => UserSpace root k ∧ k.mem root i = m.mem root i) each ⟨space, rfl⟩ done).2

theorem mapNewBlock_row (building : Building old root m) (granting : Granting lowerScope root m.mem) {pages : Nat}
    {contents : Nat → Index → Entry} (positive : 1 ≤ pages) (inside : va + pages * pageSize ≤ stackUpperUspaceAddr)
    {phys : Frame} (done : mapNewBlock root va pages flags contents m = .ok (some (phys, m'))) (high : 256 ≤ i.val) :
    m'.mem root i = m.mem root i := by
  obtain ⟨filled, ready, granted, same, mapped⟩ := mapNewBlock_filled building granting positive done
  rw [map4kPages_row (UserSpace.of_building ready granted) inside mapped high, same]

variable {kernel files : Frame} {userStack : Nat → Index → Entry}

theorem newUsprocSpace_row (reserve : Reserve old.frames) (building : Building old root m)
    (granting : Granting lowerScope root m.mem)
    (done : newUsprocSpace kernel root userStack m = .ok (some (files, m'))) (high : 256 ≤ i.val) :
    m'.mem root i = m.mem kernel i := by
  have ⟨_, _, _, _, _, first, second, third, ⟨_, added₁⟩, ⟨_, added₂⟩, _⟩ := newUsprocSpace_stages reserve building done
  have shared := building.share kernel
  have granting₀ := granting_share building granting kernel
  have granting₁ := mapNewBlock_granting shared granting₀ (by decide) (by decide) first
  have granting₂ := mapNewBlock_granting added₁.building granting₁ (by decide) (by decide) second
  rw [mapNewBlock_row added₂.building granting₂ (by decide) (by decide) third high,
    mapNewBlock_row added₁.building granting₁ (by decide) (by decide) second high,
    mapNewBlock_row shared granting₀ (by decide) (by decide) first high]
  show shareKernelHalf m.mem root kernel root i = m.mem kernel i
  rw [shareKernelHalf, Function.update_self, if_pos high]

/-- `new_usproc` makes such a process, if the kernel's own tables are closed to user code. -/
theorem newUsprocSpace_new (reserve : Reserve old.frames) (installed : old.frames.totalPages ≤ 2 ^ 30)
    (building : Building old root m) (granting : Granting lowerScope root m.mem)
    (closed : ∀ i : Index, 256 ≤ i.val → isUser (m.mem kernel i) = false)
    (done : newUsprocSpace kernel root userStack m = .ok (some (files, m'))) : NewProcess root m' := by
  refine ⟨newUsprocSpace_started reserve building granting done, fun i high => ?_, ?_⟩
  · rw [newUsprocSpace_row reserve building granting done high]
    exact closed i high
  · have ⟨_, _, _, _, _, _, _, _, _, _, _, added₃⟩ := newUsprocSpace_stages reserve building done
    rw [added₃.building.total]
    exact installed

end Start

/-- As long as every break can be rounded up to a page, the heap is mapped up to the break; the
first one that cannot be rounded up ends that. -/
theorem break_invariant_iff (cr3 : Frame) (m : Kernel) (new : NewProcess cr3 m) (calls : List (BitVec 64)) (s : Heap)
    (run : Run (FittingBrk cr3) (newHeap m) calls s) :
    BreakInvariant cr3 s ∧ ∀ brk s', Step cr3 s (.brk brk) s' → (BreakInvariant cr3 s' ↔ Fits brk) := by
  have inv : BreakSpace cr3 m s :=
    run.invariant (BreakSpace cr3 m) (fun _ _ _ inv taken => inv.step new taken) new.breakSpace
  refine ⟨inv.invariant, fun brk s' taken => ⟨fun kept => ?_, fun fits => ?_⟩⟩
  · by_contra wraps
    exact inv.wrapped new wraps taken kept
  · exact (inv.step new ⟨taken, fits⟩).invariant

theorem process_new : ∃ cr3 m, NewProcess cr3 m := by
  obtain ⟨root, _, _, m, blank, zeroed, _, done, _⟩ := emptyKernel_newUsprocSpace
  refine ⟨root, m, newUsprocSpace_new smallPmm_reserve (by decide) blank (granting_of_blank fun i => ?_) (fun i _ => ?_) done⟩
  · simp [zeroed, zeroPage]
  · have zero : zeroPage emptyKernel.mem root (pageAt 1) i = 0 := by
      rw [zeroPage, Function.update_apply]
      split
      · rfl
      · rfl
    rw [zeroed, zero]
    decide

/-- The break is lowered into the first page. -/
theorem break_invariant_iff_lowered : ∃ cr3 m s, NewProcess cr3 m ∧
    Run (FittingBrk cr3) (newHeap m) [0x600000000001] s ∧ BreakInvariant cr3 s ∧
    ∀ brk s', Step cr3 s (.brk brk) s' → (BreakInvariant cr3 s' ↔ Fits brk) := by
  obtain ⟨cr3, m, new⟩ := process_new
  have lowered : sysBrk m cr3 newHeapT 0x600000000001 =
    .ok (0x600000000001, { newHeapT with higher := 0x600000000001, size := 1 }, m) := rfl
  have run : Run (FittingBrk cr3) (newHeap m) [0x600000000001]
      ⟨m, { newHeapT with higher := 0x600000000001, size := 1 }, 0⟩ :=
    .single ⟨.brk lowered, show (0x600000000001 : BitVec 64).toNat ≤ _ by decide⟩
  exact ⟨cr3, m, _, new, run, break_invariant_iff cr3 m new _ _ run⟩

/-- `sys_brk(UINT64_MAX)` in a new process: the rounded break is 0, and the call succeeds. -/
theorem last_break_unmapped : ∃ cr3 m s', NewProcess cr3 m ∧
    Step cr3 (newHeap m) (.brk 0xFFFFFFFFFFFFFFFF) s' ∧ s'.heap.higher = 0xFFFFFFFFFFFFFFFF ∧ s'.kernel = m ∧
    ¬ BreakInvariant cr3 s' := by
  obtain ⟨cr3, m, new⟩ := process_new
  have moved : sysBrk m cr3 newHeapT 0xFFFFFFFFFFFFFFFF =
    .ok (0xFFFFFFFFFFFFFFFF, movedTo newHeapT 0xFFFFFFFFFFFFFFFF, m) := rfl
  have taken : Step cr3 (newHeap m) (.brk 0xFFFFFFFFFFFFFFFF) ⟨m, movedTo newHeapT 0xFFFFFFFFFFFFFFFF, 0⟩ := .brk moved
  have wraps : ¬ Fits 0xFFFFFFFFFFFFFFFF := show ¬ (0xFFFFFFFFFFFFFFFF : BitVec 64).toNat ≤ _ by decide
  exact ⟨cr3, m, _, new, taken, rfl, rfl, new.breakSpace.wrapped new wraps taken⟩

end CreeperKernel.Libc
