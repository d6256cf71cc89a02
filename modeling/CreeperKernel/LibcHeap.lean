import CreeperKernel.ElfLoading
import CreeperKernel.KernelHalf

namespace CreeperKernel.Libc

open Vmm Fork Exec Rights UserMemory
open Pmm (pageSize)
open Transitions (Run)

/-- A process as its heap sees it: memory, the pcb's `heap`, and the `current_brk`
inside mlibc's `AnonAllocate`. -/
structure Heap where
  kernel : Kernel
  heap : HeapT
  currentBrk : BitVec 64

/-- The break that `AnonAllocate` starts from: asked for once, then remembered. -/
def Heap.oldBrk (s : Heap) : BitVec 64 := if s.currentBrk = 0 then s.heap.higher else s.currentBrk

/-- `Sysdeps<AnonAllocate>`; `none` is the result `ENOMEM`. The call `syscall(SYS_BRK, 0)`
changes nothing but the remembered break. -/
def anonAllocate (cr3 : Frame) (s : Heap) (size : BitVec 64) : Outcome (Option (BitVec 64) × Heap) := do
  let (currentBrk, heap, kernel) ←
    if s.currentBrk = 0 then sysBrk s.kernel cr3 s.heap 0 else pure (s.currentBrk, s.heap, s.kernel)
  let oldBrk := currentBrk
  let newBrk := oldBrk + size
  let (ret, heap, kernel) ← sysBrk kernel cr3 heap newBrk
  if ret < newBrk then pure (none, { kernel, heap, currentBrk })
  else pure (some oldBrk, { kernel, heap, currentBrk := ret })

/-- The calls that move the break: `sys_brk` by the program itself, and the allocator. -/
inductive Call where
  | brk (brk : BitVec 64)
  | anonAllocate (size : BitVec 64)
  deriving DecidableEq, Repr

inductive Step (cr3 : Frame) : Heap → Call → Heap → Prop where
  | brk {s : Heap} {brk value : BitVec 64} {heap : HeapT} {kernel : Kernel}
      (done : sysBrk s.kernel cr3 s.heap brk = .ok (value, heap, kernel)) :
      Step cr3 s (.brk brk) { s with heap, kernel }
  | anonAllocate {s s' : Heap} {size : BitVec 64} {result : Option (BitVec 64)}
      (done : anonAllocate cr3 s size = .ok (result, s')) : Step cr3 s (.anonAllocate size) s'

/-- The CPU lets user code write at the address. -/
def UserWritable (mem : Memory) (cr3 : Frame) (va : Nat) : Prop :=
  va < stackUpperUspaceAddr ∧ ∃ entries, walkEntries mem cr3 va = some entries ∧
    entries.all isUser = true ∧ entries.all isWritable = true

/-- What a result 0 of `AnonAllocate(size, &p)` promises: the kernel has moved the break
to the end of the block, the end did not wrap around, and the block can be written. -/
structure Honest (cr3 : Frame) (size p : BitVec 64) (s' : Heap) : Prop where
  accepted : s'.heap.higher = p + size
  noWrap : p.toNat + size.toNat < 2 ^ 64
  mapped : ∀ va, p.toNat ≤ va → va < p.toNat + size.toNat → UserWritable s'.kernel.mem cr3 va

/-- The break stays in the user half: it is refused, or it is below the stack's end. -/
def Modest (s : Heap) : Call → Prop
  | .brk brk => brk < s.heap.lower ∨ brk.toNat ≤ stackUpperUspaceAddr
  | .anonAllocate size => s.oldBrk.toNat + size.toNat ≤ stackUpperUspaceAddr

def ModestStep (cr3 : Frame) (s : Heap) (call : Call) (s' : Heap) : Prop :=
  Step cr3 s call s' ∧ Modest s call

/-- The user half of an address space in which rights are as the leaf entries say. -/
structure UserSpace (cr3 : Frame) (m : Kernel) : Prop where
  ready : Ready lowerScope cr3 m
  paging : Paging lowerScope m.mem cr3
  granting : Granting lowerScope cr3 m.mem

/-- A page of the heap. -/
def HeapPage (mem : Memory) (cr3 : Frame) (va : Nat) : Prop :=
  ∃ e, lookup mem cr3 va = some e ∧ isUser e = true ∧ isWritable e = true

section Mapping

variable {cr3 : Frame} {m m' : Kernel}

variable {va count a : Nat}

theorem UserSpace.userWritable (space : UserSpace cr3 m) (low : va < stackUpperUspaceAddr)
    (page : HeapPage m.mem cr3 va) : UserWritable m.mem cr3 va := by
  obtain ⟨e, here, user, writable⟩ := page
  obtain ⟨entries, walked, allWritable, allUser, -⟩ :=
    space.granting.walk space.paging (slotOf_user low).path_mem here
  exact ⟨low, entries, walked, allUser.trans user, allWritable.trans writable⟩

theorem UserSpace.alloc (space : UserSpace cr3 m) {f : Frame} (positive : 1 ≤ count)
    (done : pmmAllocPages m count = .ok (f, m')) : UserSpace cr3 m' ∧ m'.mem = m.mem ∧ f ≠ 0 := by
  obtain ⟨handed, same⟩ := allocPages_handed space.ready.reserve positive done
  have first : f ∈ blockPages f count := by
    rw [blockPages, List.mem_map]
    exact ⟨0, List.mem_range.mpr positive, by simp⟩
  refine ⟨⟨⟨handed.reserve, ?_⟩, ?_, ?_⟩, same, (handed.free f first).ne_zero space.ready.reserve⟩
  · intro g table free
    rw [same] at table
    exact space.ready.tables g table ((handed.rest g).mp free).1
  · rw [same]
    exact space.paging
  · rw [same]
    exact space.granting

variable {flags : Entry} {pa : Frame}

theorem UserSpace.map4k (space : UserSpace cr3 m) (low : va < stackUpperUspaceAddr)
    (done : map4k m cr3 va pa flags = .ok m') : UserSpace cr3 m' ∧ ∀ a, a < stackUpperUspaceAddr → lookup m'.mem cr3 a =
      if slotOf a = slotOf va then some (leafEntry pa flags) else lookup m.mem cr3 a := by
  have covered : pathOf va ∈ lowerScope.paths := (slotOf_user low).path_mem
  have supply := ready_supply lowerScope cr3
  obtain ⟨taken, mapped⟩ := map4k_spec supply space.ready space.paging covered done
  have traced := map4k_traced supply space.ready space.paging covered done
  refine ⟨⟨Mapped.ready space.ready mapped, mapped.paging,
    space.granting.map (sameRights_leaf _ flags ptePresent (by decide) (by decide)) traced⟩, ?_⟩
  intro a user
  have same : (pathOf a = pathOf va ∧ ptIndex a = ptIndex va) ↔ slotOf a = slotOf va := by
    simp only [pathOf, slotOf, Slot.mk.injEq, List.cons.injEq, and_true]
    tauto
  have inside : pathOf a ∈ lowerScope.paths := (slotOf_user user).path_mem
  rw [lookup, mapped.leaves _ inside rfl]
  simp only [same]
  rfl

/-- Pages have been mapped one after the other from `va` on. -/
structure PagesAdded (cr3 : Frame) (m : Kernel) (va count : Nat) (pa : Frame) (flags : Entry) (m' : Kernel) : Prop where
  space : UserSpace cr3 m'
  pages : ∀ i < count, ∀ a, a < stackUpperUspaceAddr → slotOf a = slotOf (va + i * pageSize) →
    lookup m'.mem cr3 a = some (leafEntry (pa + BitVec.ofNat 64 (i * pageSize)) flags)
  others : ∀ a, a < stackUpperUspaceAddr → (∀ i < count, slotOf a ≠ slotOf (va + i * pageSize)) →
    lookup m'.mem cr3 a = lookup m.mem cr3 a

theorem UserSpace.addPages (space : UserSpace cr3 m) (inside : va + count * pageSize ≤ stackUpperUspaceAddr)
    (done : Rights.map4kPages m cr3 va pa count flags = .ok m') : PagesAdded cr3 m va count pa flags m' := by
  induction count generalizing m' with
  | zero =>
    cases done
    exact ⟨space, fun i below => absurd below (Nat.not_lt_zero i), fun _ _ _ => rfl⟩
  | succ count ih =>
    rw [Rights.map4kPages, List.range_succ] at done
    obtain ⟨middle, front, last⟩ := FallibleLoops.foldlM_concat done
    have smaller : va + count * pageSize ≤ stackUpperUspaceAddr :=
      Nat.le_trans (Nat.add_le_add_left (Nat.mul_le_mul_right _ (Nat.le_succ count)) va) inside
    have before := ih smaller front
    simp only [Pmm.mul_pageSize, stackUpperUspaceAddr] at inside
    have user : ∀ i ≤ count, va + i * pageSize < stackUpperUspaceAddr := by
      intro i below
      simp only [Pmm.mul_pageSize, stackUpperUspaceAddr]
      omega
    have plain : (va + count * pageSize) % 2 ^ 64 = va + count * pageSize := by
      simp only [Pmm.mul_pageSize]
      omega
    rw [plain] at last
    obtain ⟨after, looked⟩ := before.space.map4k (user count (Nat.le_refl count)) last
    refine ⟨after, fun i below a low same => ?_, fun a low apart => ?_⟩
    · rw [looked a low]
      by_cases final : i = count
      · rw [final] at same ⊢
        rw [if_pos same]
      · have earlier : i < count := by omega
        rw [if_neg, before.pages i earlier a low same]
        intro equal
        rw [same] at equal
        have wide : stackUpperUspaceAddr ≤ 2 ^ 48 := by decide
        have pages := (slotOf_eq_iff (Nat.lt_of_lt_of_le (user i (by omega)) wide)
          (Nat.lt_of_lt_of_le (user count (Nat.le_refl count)) wide)).mp equal
        simp only [Pmm.mul_pageSize, pageSize] at pages
        omega
    · rw [looked a low, if_neg (apart count (Nat.lt_succ_self count))]
      exact before.others a low fun i below => apart i (Nat.lt_succ_of_lt below)

theorem slot_of_between (aligned : va % pageSize = 0) (inside : va + count * pageSize ≤ stackUpperUspaceAddr)
    (low : va ≤ a) (high : a < va + count * pageSize) :
    (a - va) / 4096 < count ∧ slotOf a = slotOf (va + (a - va) / 4096 * pageSize) := by
  simp only [Pmm.mul_pageSize, pageSize, stackUpperUspaceAddr] at *
  refine ⟨by omega, (slotOf_eq_iff (by omega) (by omega)).mpr ?_⟩
  simp only [pageSize]
  omega

theorem heapPage_leaf (pa : Frame) {mem : Memory} (here : lookup mem cr3 a = some (leafEntry pa heapFlags)) :
    HeapPage mem cr3 a := by
  have rights := sameRights_leaf pa heapFlags ptePresent (by decide) (by decide)
  exact ⟨_, here, rights.2.trans (by decide), rights.1.trans (by decide)⟩

/-- Mapping heap pages adds them to those that were there. -/
structure Grown (cr3 : Frame) (m : Kernel) (va count : Nat) (m' : Kernel) : Prop where
  space : UserSpace cr3 m'
  kept : ∀ a, a < stackUpperUspaceAddr → HeapPage m.mem cr3 a → HeapPage m'.mem cr3 a
  added : ∀ a, va ≤ a → a < va + count * pageSize → HeapPage m'.mem cr3 a

theorem UserSpace.grow (space : UserSpace cr3 m) (aligned : va % pageSize = 0)
    (inside : va + count * pageSize ≤ stackUpperUspaceAddr)
    (done : Rights.map4kPages m cr3 va pa count heapFlags = .ok m') : Grown cr3 m va count m' := by
  have added := space.addPages inside done
  refine ⟨added.space, fun a low page => ?_, fun a low high => ?_⟩
  · by_cases new : ∃ i < count, slotOf a = slotOf (va + i * pageSize)
    · obtain ⟨i, below, same⟩ := new
      exact heapPage_leaf _ (added.pages i below a low same)
    · unfold HeapPage
      rw [added.others a low fun i below same => new ⟨i, below, same⟩]
      exact page
  · have ⟨below, same⟩ := slot_of_between aligned inside low high
    exact heapPage_leaf _ (added.pages _ below a (Nat.lt_of_lt_of_le high inside) same)

end Mapping

theorem toNat_pageDown (x : BitVec 64) : (pageDown x).toNat = x.toNat / 4096 * 4096 := by
  have shifted : x.toNat / 4096 * 4096 = x.toNat >>> 12 <<< 12 := by
    rw [Nat.shiftLeft_eq, Nat.shiftRight_eq_div_pow]
  have mask : (0xFFF : BitVec 64).toNat = 2 ^ 12 - 1 := by decide
  rw [shifted]
  apply Nat.eq_of_testBit_eq
  intro i
  rw [Nat.testBit_shiftLeft, Nat.testBit_shiftRight, BitVec.testBit_toNat, pageDown, BitVec.getLsbD_and,
    BitVec.getLsbD_not, ← BitVec.testBit_toNat (x := (0xFFF : BitVec 64)), mask, Nat.testBit_two_pow_sub_one]
  by_cases high : 12 ≤ i
  · have place : 12 + (i - 12) = i := by omega
    have notLow : ¬ i < 12 := by omega
    have bit : x.toNat.testBit i = x.getLsbD i := BitVec.testBit_toNat x
    by_cases inside : i < 64
    · simp only [high, place, notLow, inside, bit, decide_true, decide_false, Bool.not_false, Bool.and_true,
        Bool.true_and]
    · rw [place, bit, BitVec.getLsbD_of_ge x i (by omega), Bool.false_and, Bool.and_false]
  · have low : i < 12 := by omega
    simp only [high, low, decide_true, decide_false, Bool.not_true, Bool.and_false, Bool.false_and]

theorem toNat_pageUp {x : BitVec 64} (small : x.toNat ≤ stackUpperUspaceAddr) :
    (pageUp x).toNat = (x.toNat + 4095) / 4096 * 4096 := by
  simp only [stackUpperUspaceAddr] at small
  have sum : (x + 0xFFF).toNat = x.toNat + 4095 := by
    rw [BitVec.toNat_add]
    show (x.toNat + 4095) % 2 ^ 64 = _
    omega
  rw [pageUp, toNat_pageDown, sum]

/-- What calls of `sys_brk` that stay in the user half keep of a process: the heap is
mapped up to its break. -/
structure HeapSpace (cr3 : Frame) (s : Heap) : Prop where
  space : UserSpace cr3 s.kernel
  lower : s.heap.lower.toNat = defaultUserHeapStart
  above : s.heap.lower.toNat ≤ s.heap.higher.toNat
  below : s.heap.higher.toNat ≤ stackUpperUspaceAddr
  remembered : s.currentBrk = 0 ∨
    s.heap.lower.toNat ≤ s.currentBrk.toNat ∧ s.currentBrk.toNat ≤ stackUpperUspaceAddr
  mapped : ∀ a, s.heap.lower.toNat ≤ a → a < (pageUp s.heap.higher).toNat → HeapPage s.kernel.mem cr3 a

section Calls

variable {cr3 : Frame} {s s' : Heap} {brk value size : BitVec 64} {heap : HeapT} {kernel : Kernel}

theorem HeapSpace.oldBrk (inv : HeapSpace cr3 s) :
    s.heap.lower.toNat ≤ s.oldBrk.toNat ∧ s.oldBrk.toNat ≤ stackUpperUspaceAddr := by
  unfold Heap.oldBrk
  split
  · exact ⟨inv.above, inv.below⟩
  · rename_i asked
    exact inv.remembered.resolve_left asked

theorem sysBrk_refused (refused : brk < s.heap.lower)
    (done : sysBrk s.kernel cr3 s.heap brk = .ok (value, heap, kernel)) : heap = s.heap ∧ kernel = s.kernel := by
  unfold sysBrk at done
  split at done
  · cases done
    exact ⟨rfl, rfl⟩
  · cases done
    exact ⟨rfl, rfl⟩

/-- A break in the rest of the user half is accepted, and the heap is mapped up to it. -/
theorem HeapSpace.sysBrk_accepted (inv : HeapSpace cr3 s) (above : ¬ brk < s.heap.lower)
    (low : brk.toNat ≤ stackUpperUspaceAddr)
    (done : sysBrk s.kernel cr3 s.heap brk = .ok (value, heap, kernel)) :
    value = brk ∧ heap.higher = brk ∧ HeapSpace cr3 { s with heap, kernel } := by
  have atLeast : s.heap.lower.toNat ≤ brk.toNat := BitVec.not_lt.mp above
  have nonzero : brk ≠ 0 := by
    rintro rfl
    rw [inv.lower] at atLeast
    exact absurd atLeast (by decide)
  unfold sysBrk at done
  rw [if_neg nonzero, if_neg above] at done
  dsimp only at done
  have old := toNat_pageUp inv.below
  have new := toNat_pageUp low
  split at done
  · rename_i grows
    have order : (pageUp s.heap.higher).toNat < (pageUp brk).toNat := grows
    have pages : pagesBetween (pageUp s.heap.higher) (pageUp brk) * 4096 =
        (pageUp brk).toNat - (pageUp s.heap.higher).toNat := by
      rw [pagesBetween, BitVec.toNat_udiv, BitVec.toNat_sub_of_le (Nat.le_of_lt order)]
      show ((pageUp brk).toNat - (pageUp s.heap.higher).toNat) / 4096 * 4096 = _
      omega
    obtain ⟨⟨phys, m₁⟩, allocated, done⟩ := Outcome.bind_eq_ok.mp done
    obtain ⟨space, same, some⟩ := inv.space.alloc (by omega) allocated
    rw [if_neg some] at done
    obtain ⟨m₂, mapped, done⟩ := Outcome.bind_eq_ok.mp done
    cases done
    have inside : (pageUp s.heap.higher).toNat +
        pagesBetween (pageUp s.heap.higher) (pageUp brk) * pageSize ≤ stackUpperUspaceAddr := by
      simp only [pageSize, stackUpperUspaceAddr] at low ⊢
      omega
    have aligned : (pageUp s.heap.higher).toNat % pageSize = 0 := by
      simp only [pageSize]
      omega
    have grown := space.grow aligned inside mapped
    refine ⟨rfl, rfl, grown.space, inv.lower, atLeast, low, inv.remembered, fun a from' before => ?_⟩
    by_cases earlier : a < (pageUp s.heap.higher).toNat
    · refine grown.kept a ?_ ?_
      · simp only [pageSize] at inside
        omega
      · rw [same]
        exact inv.mapped a from' earlier
    · apply grown.added a (by omega)
      simp only [pageSize]
      change a < (pageUp brk).toNat at before
      omega
  · rename_i stays
    cases done
    refine ⟨rfl, rfl, inv.space, inv.lower, atLeast, low, inv.remembered, fun a from' before => ?_⟩
    apply inv.mapped a from'
    have order : (pageUp brk).toNat ≤ (pageUp s.heap.higher).toNat := BitVec.not_lt.mp stays
    exact Nat.lt_of_lt_of_le before order

theorem anonAllocate_eq (cr3 : Frame) (s : Heap) (size : BitVec 64) :
    anonAllocate cr3 s size = (do
      let (ret, heap, kernel) ← sysBrk s.kernel cr3 s.heap (s.oldBrk + size)
      if ret < s.oldBrk + size then pure (none, { kernel, heap, currentBrk := s.oldBrk })
      else pure (some s.oldBrk, { kernel, heap, currentBrk := ret })) := by
  unfold anonAllocate Heap.oldBrk
  split
  · rfl
  · rfl

theorem anonAllocate_of_called {old ret : BitVec 64} (asked : s.oldBrk = old)
    (called : sysBrk s.kernel cr3 s.heap (old + size) = .ok (ret, heap, kernel)) (enough : ¬ ret < old + size) :
    Libc.anonAllocate cr3 s size = .ok (some old, { kernel, heap, currentBrk := ret }) := by
  rw [anonAllocate_eq, asked, called, Outcome.ok_bind]
  exact if_neg enough

/-- A modest call of the allocator succeeds, and moves the break to the end of the block. -/
theorem HeapSpace.anonAllocate (inv : HeapSpace cr3 s) {result : Option (BitVec 64)}
    (modest : s.oldBrk.toNat + size.toNat ≤ stackUpperUspaceAddr) (done : anonAllocate cr3 s size = .ok (result, s')) :
    result = some s.oldBrk ∧ s'.heap.higher = s.oldBrk + size ∧ HeapSpace cr3 s' := by
  have bounds := inv.oldBrk
  have sum : (s.oldBrk + size).toNat = s.oldBrk.toNat + size.toNat := by
    rw [BitVec.toNat_add]
    simp only [stackUpperUspaceAddr] at modest
    omega
  have above : ¬ s.oldBrk + size < s.heap.lower := by
    rw [BitVec.lt_def, sum]
    omega
  rw [anonAllocate_eq] at done
  obtain ⟨⟨ret, heap, kernel⟩, called, done⟩ := Outcome.bind_eq_ok.mp done
  obtain ⟨rfl, higher, after⟩ := inv.sysBrk_accepted above (by rw [sum]; exact modest) called
  dsimp only at done
  rw [if_neg (BitVec.lt_irrefl _)] at done
  cases done
  exact ⟨rfl, higher, after.space, after.lower, after.above, after.below,
    .inr ⟨higher ▸ after.above, higher ▸ after.below⟩, after.mapped⟩

theorem ModestStep.keeps {call : Call} (inv : HeapSpace cr3 s) (taken : ModestStep cr3 s call s') : HeapSpace cr3 s' := by
  obtain ⟨taken, modest⟩ := taken
  cases taken with
  | @brk brk value heap kernel done =>
    by_cases refused : brk < s.heap.lower
    · obtain ⟨rfl, rfl⟩ := sysBrk_refused refused done
      exact inv
    · exact (inv.sysBrk_accepted refused (modest.resolve_left refused) done).2.2
  | anonAllocate done => exact (inv.anonAllocate modest done).2.2

end Calls

/-- A process as `new_usproc` leaves it: its heap is mapped for user code. -/
structure Started (cr3 : Frame) (m : Kernel) : Prop where
  space : UserSpace cr3 m
  mapped : ∀ a, defaultUserHeapStart ≤ a → a < defaultUserHeapEnd → HeapPage m.mem cr3 a

def newHeapT : HeapT :=
  ⟨BitVec.ofNat 64 defaultUserHeapEnd, BitVec.ofNat 64 defaultUserHeapStart,
    BitVec.ofNat 64 (defaultUserHeapPages * pageSize)⟩

def newHeap (m : Kernel) : Heap := ⟨m, newHeapT, 0⟩

theorem Started.heapSpace {cr3 : Frame} {m : Kernel} (started : Started cr3 m) :
    HeapSpace cr3 (newHeap m) where
  space := started.space
  lower := show newHeapT.lower.toNat = _ by decide
  above := show newHeapT.lower.toNat ≤ newHeapT.higher.toNat by decide
  below := show newHeapT.higher.toNat ≤ _ by decide
  remembered := .inl rfl
  mapped := by
    intro a low high
    have start : newHeapT.lower.toNat = defaultUserHeapStart := by decide
    have stop : (pageUp newHeapT.higher).toNat = defaultUserHeapEnd := by decide
    exact started.mapped a (start ▸ low) (stop ▸ high)

section Start

variable {old m m' : Kernel} {root : Frame}

theorem granting_share (building : Building old root m) (granting : Granting lowerScope root m.mem)
    (kernel : Frame) : Granting lowerScope root (shareKernelHalf m.mem root kernel) := by
  have same := building.sameEntries_of_share kernel
  apply granting.congr
  intro p member j inner
  apply leafAt_eq (same.tables.tables p member)
  intro pt reached
  apply same p member pt reached j
  rintro rfl
  rcases inner with extended | deep
  · exact extended.2 j rfl
  · cases deep

theorem UserSpace.of_building (building : Building old root m)
    (granting : Granting lowerScope root m.mem) : UserSpace root m :=
  ⟨building.ready, building.paging, granting⟩

variable {a : Nat}

theorem lookup_of_added {va pages : Nat} {f : Frame} {flags : Entry} {mem : Memory}
    (added : BlockAdded old root m va pages f flags mem m') (apart : defaultUserHeapEnd ≤ va)
    (inside : va + pages * pageSize ≤ stackUpperUspaceAddr) (high : a < defaultUserHeapEnd) :
    lookup m'.mem root a = lookup m.mem root a := by
  have user : a < stackUpperUspaceAddr := Nat.lt_trans high (by decide)
  have other : slotOf a ∉ slotsFrom va pages := by
    intro member
    obtain ⟨i, below, same⟩ := List.mem_map.mp member
    have bound := List.mem_range.mp below
    have stop : defaultUserHeapEnd = 105553116332032 := by decide
    simp only [pageSize, stackUpperUspaceAddr] at inside user same
    have pages := (slotOf_eq_iff (by omega) (by omega)).mp same
    simp only [pageSize] at pages
    omega
  rw [lookup_eq_leaf, added.others _ (slotOf_user user) other]
  rfl

def newHeapFlags : Entry := pteUser ||| pteWritable ||| pteLocalOwned

variable {kernel files : Frame} {userStack : Nat → Index → Entry}

theorem newUsprocSpace_stages (reserve : Reserve old.frames) (building : Building old root m)
    (done : newUsprocSpace kernel root userStack m = .ok (some (files, m'))) : ∃ heap m₁ table m₂ stack,
    mapUserHeap root { m with mem := shareKernelHalf m.mem root kernel } = .ok (some (heap, m₁)) ∧
    mapFileTable root m₁ = .ok (some (table, m₂)) ∧ mapUserStack root userStack m₂ = .ok (some (stack, m')) ∧
    (∃ mem, BlockAdded old root { m with mem := shareKernelHalf m.mem root kernel } defaultUserHeapStart
      defaultUserHeapPages heap newHeapFlags mem m₁) ∧
    (∃ mem, BlockAdded old root m₁ defaultFileTableStart defaultFileTablePages table (pteWritable ||| pteLocalOwned) mem m₂) ∧
    ∃ mem, BlockAdded old root m₂ stackVaBase defaultStackPageAmount stack
      (pteWritable ||| pteNx ||| pteUser ||| pteLocalOwned) mem m' := by
  obtain ⟨⟨heap, m₁⟩, first, done⟩ := FallibleLoops.withSome_eq_some.mp done
  obtain ⟨⟨table, m₂⟩, second, done⟩ := FallibleLoops.withSome_eq_some.mp done
  obtain ⟨⟨stack, m₃⟩, third, done⟩ := FallibleLoops.withSome_eq_some.mp done
  cases done
  have ⟨_, added₁⟩ := mapNewBlock_spec reserve (building.share kernel) (by decide) (by decide) (by decide) first
  have ⟨_, added₂⟩ := mapNewBlock_spec reserve added₁.building (by decide) (by decide) (by decide) second
  have ⟨_, added₃⟩ := mapNewBlock_spec reserve added₂.building (by decide) (by decide) (by decide) third
  exact ⟨heap, m₁, files, m₂, stack, first, second, third, ⟨_, added₁⟩, ⟨_, added₂⟩, _, added₃⟩

theorem newUsprocSpace_heap (reserve : Reserve old.frames) (building : Building old root m)
    (done : newUsprocSpace kernel root userStack m = .ok (some (files, m'))) (low : defaultUserHeapStart ≤ a)
    (high : a < defaultUserHeapEnd) : ∃ f, lookup m'.mem root a = some (leafEntry f newHeapFlags) := by
  have ⟨_, _, _, _, _, _, _, _, ⟨_, added₁⟩, ⟨_, added₂⟩, _, added₃⟩ := newUsprocSpace_stages reserve building done
  rw [lookup_of_added added₃ (by decide) (by decide) high, lookup_of_added added₂ (by decide) (by decide) high]
  have ⟨number, same⟩ : (a - defaultUserHeapStart) / 4096 < defaultUserHeapPages ∧
      slotOf a = slotOf (defaultUserHeapStart + (a - defaultUserHeapStart) / 4096 * pageSize) :=
    slot_of_between (by decide) (by decide) low high
  rw [lookup_eq_leaf, same]
  exact ⟨_, added₁.mapped (slotsFrom_nodup (by decide)) _ number⟩

theorem newUsprocSpace_started (reserve : Reserve old.frames) (building : Building old root m)
    (granting : Granting lowerScope root m.mem)
    (done : newUsprocSpace kernel root userStack m = .ok (some (files, m'))) : Started root m' := by
  refine ⟨?_, fun a low high => ?_⟩
  · have ⟨_, _, _, _, _, first, second, third, ⟨_, added₁⟩, ⟨_, added₂⟩, _, added₃⟩ := newUsprocSpace_stages reserve building done
    have granting₀ := granting_share building granting kernel
    have granting₁ := mapNewBlock_granting (building.share kernel) granting₀ (by decide) (by decide) first
    have granting₂ := mapNewBlock_granting added₁.building granting₁ (by decide) (by decide) second
    have granting₃ := mapNewBlock_granting added₂.building granting₂ (by decide) (by decide) third
    exact .of_building added₃.building granting₃
  · have ⟨f, mapped⟩ := newUsprocSpace_heap reserve building done low high
    have rights := sameRights_leaf f newHeapFlags ptePresent (by decide) (by decide)
    exact ⟨_, mapped, rights.2.trans (by decide), rights.1.trans (by decide)⟩

end Start

/-- After calls that keep the break in the user half, a result 0 of the allocator is
honest exactly if the end of the block is in the user half too. -/
theorem anon_allocate_honest_iff (cr3 : Frame) (m : Kernel) (started : Started cr3 m) (calls : List Call)
    (s : Heap) (run : Run (ModestStep cr3) (newHeap m) calls s) (size p : BitVec 64) (s' : Heap)
    (done : anonAllocate cr3 s size = .ok (some p, s')) :
    Honest cr3 size p s' ↔ s.oldBrk.toNat + size.toNat ≤ stackUpperUspaceAddr := by
  have inv : HeapSpace cr3 s :=
    run.invariant (HeapSpace cr3) (fun _ _ _ inv taken => taken.keeps inv) started.heapSpace
  have bounds := inv.oldBrk
  have pointer : p = s.oldBrk := by
    rw [anonAllocate_eq] at done
    obtain ⟨⟨ret, heap, kernel⟩, -, done⟩ := Outcome.bind_eq_ok.mp done
    dsimp only at done
    split at done
    · cases done
    · cases done
      rfl
  subst pointer
  constructor
  · intro honest
    by_cases none : size.toNat = 0
    · omega
    · have last := (honest.mapped (s.oldBrk.toNat + size.toNat - 1) (by omega) (by omega)).1
      omega
  · intro modest
    obtain ⟨-, higher, after⟩ := inv.anonAllocate modest done
    have sum : (s.oldBrk + size).toNat = s.oldBrk.toNat + size.toNat := by
      rw [BitVec.toNat_add]
      simp only [stackUpperUspaceAddr] at modest
      omega
    have start : s'.heap.lower.toNat = s.heap.lower.toNat := after.lower.trans inv.lower.symm
    have stop := toNat_pageUp after.below
    rw [higher, sum] at stop
    refine ⟨higher, ?_, fun va low high => ?_⟩
    · simp only [stackUpperUspaceAddr] at modest
      omega
    · apply after.space.userWritable (by omega)
      apply after.mapped va (by omega)
      rw [higher, stop]
      omega

/-- A machine with 16 MiB and nothing in memory. -/
def emptyKernel : Kernel := ⟨fun _ _ => 0, smallPmm⟩

theorem emptyKernel_newUsprocSpace : ∃ root files m m', Building emptyKernel root m ∧ m.mem = zeroPage emptyKernel.mem root ∧
    (∀ s, s.User → leaf m.mem root s = none) ∧
    newUsprocSpace (pageAt 1) root (fun _ _ => 0) m = .ok (some (files, m')) ∧ Room emptyKernel root 4 m' := by
  have reserve : Reserve emptyKernel.frames := smallPmm_reserve
  have ahead : Pmm.Ahead emptyKernel.frames (1 + (4 * defaultUserHeapPages + (4 * defaultFileTablePages +
    (4 * defaultStackPageAmount + 4)))) := smallPmm_ahead (by decide)
  obtain ⟨root, p', allocated, -, after⟩ := pmmAllocPages_progress (Nat.le_refl 1) ahead
  obtain ⟨blank, noLeaf⟩ := blank_building reserve allocated
  obtain ⟨files, m, done, room⟩ := newUsprocSpace_progress reserve (pageAt 1) (fun _ _ => 0) ⟨blank, after⟩
  exact ⟨root, files, _, m, blank, rfl, noLeaf, done, room⟩

theorem process_started : ∃ cr3 m, Started cr3 m := by
  obtain ⟨root, _, _, m, blank, zeroed, _, done, _⟩ := emptyKernel_newUsprocSpace
  refine ⟨root, m, newUsprocSpace_started smallPmm_reserve blank (granting_of_blank fun i => ?_) done⟩
  simp [zeroed, zeroPage]

/-- The break is lowered to the first page, and the rest of the page is allocated. -/
theorem anon_allocate_honest_iff_page : ∃ cr3 m s s', Started cr3 m ∧
    Run (ModestStep cr3) (newHeap m) [.brk 0x600000000001] s ∧
    anonAllocate cr3 s 0xFFF = .ok (some 0x600000000001, s') ∧ Honest cr3 0xFFF 0x600000000001 s' := by
  obtain ⟨cr3, m, started⟩ := process_started
  have lowered : sysBrk m cr3 newHeapT 0x600000000001 =
    .ok (0x600000000001, { newHeapT with higher := 0x600000000001, size := 1 }, m) := rfl
  have run : Run (ModestStep cr3) (newHeap m) [.brk 0x600000000001]
      ⟨m, { newHeapT with higher := 0x600000000001, size := 1 }, 0⟩ :=
    .single ⟨.brk lowered, .inr (show (0x600000000001 : BitVec 64).toNat ≤ _ by decide)⟩
  have raised : sysBrk m cr3 { newHeapT with higher := 0x600000000001, size := 1 } (0x600000000001 + 0xFFF) =
    .ok (0x600000001000, { newHeapT with higher := 0x600000001000, size := 0x1000 }, m) := rfl
  have asked : Heap.oldBrk ⟨m, { newHeapT with higher := 0x600000000001, size := 1 }, 0⟩ =
    0x600000000001 := rfl
  have done := anonAllocate_of_called asked raised (by decide)
  have honest := (anon_allocate_honest_iff cr3 m started _ _ run _ _ _ done).mpr
    (show (0x600000000001 : BitVec 64).toNat + (0xFFF : BitVec 64).toNat ≤ stackUpperUspaceAddr by decide)
  exact ⟨cr3, m, _, _, started, run, done, honest⟩

/-- A size that takes the new break around to 1: the kernel answers `-E_INVAL`, which is
not less than 1. -/
theorem refused_break_passes : ∃ cr3 m s', Started cr3 m ∧
    anonAllocate cr3 (newHeap m) (0 - 0x60000000FFFF) = .ok (some 0x600000010000, s') ∧
    ¬ Honest cr3 (0 - 0x60000000FFFF) 0x600000010000 s' := by
  obtain ⟨cr3, m, started⟩ := process_started
  have refused : sysBrk m cr3 newHeapT (newHeapT.higher + (0 - 0x60000000FFFF)) =
    .ok (-eInval, newHeapT, m) := rfl
  have asked : (newHeap m).oldBrk = newHeapT.higher := rfl
  have done := anonAllocate_of_called asked refused (by decide)
  refine ⟨cr3, m, _, started, done, fun honest => ?_⟩
  have accepted : newHeapT.higher = 0x600000010000 + (0 - 0x60000000FFFF) := honest.accepted
  revert accepted
  decide

end CreeperKernel.Libc
