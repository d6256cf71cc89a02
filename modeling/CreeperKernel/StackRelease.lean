import CreeperKernel.ForkDuplicates
import CreeperKernel.ThreadStacks

namespace CreeperKernel.Stacks

open Vmm
open Fork (Kernel Parent Occupied RegionsMapped defaultStackPageAmount defaultStackPageBytes stackVaBase
  stackUpperUspaceAddr walkLeafPhys)
open Pmm (pageSize mul_pageSize pmmFreePages bitmapTest bitmapTest_clearRange Block)

structure StackRecord where
  top : Nat
  bottom : Nat
  size : Nat

/-- What `new_usproc`, `new_thread` and `fork_process` record in `user_stack` for the block at `top`. -/
def stackRecord (top : Nat) : StackRecord := ⟨top, (top + defaultStackPageBytes) % 2 ^ 64, defaultStackPageBytes⟩

def addrToPage (addr : Nat) : Nat := addr / pageSize

/-- The fields that `usthread_exit` reads; `ofKernel` tells that the process is `kernel_proc`. -/
structure Exiting where
  ofKernel : Bool
  zombie : Bool
  userStack : StackRecord

/-- `usthread_exit`, without the lists of threads. `pmm_free_pages` is given a page number where it takes an
address. -/
def usthreadExit (p : Pmm.State) (t : Exiting) : Pmm.State × Exiting :=
  if t.ofKernel then (p, t) else
  if t.zombie then (p, t) else
  let t := { t with zombie := true }
  if t.userStack.top ≠ 0 then
    (pmmFreePages p (addrToPage t.userStack.top) (addrToPage t.userStack.size), { t with userStack := ⟨0, 0, 0⟩ })
  else (p, t)

/-- The frames behind the pages of a stack at `va`. -/
def backing (mem : Memory) (root : Frame) (va : Nat) : Set Nat :=
  {f | ∃ i < defaultStackPageAmount, pageDirVirtToPhys mem root (pageFrom va i) ≠ notMapped ∧
    f = (pageDirVirtToPhys mem root (pageFrom va i)).toNat / pageSize}

/-- The frames in `own` are free afterwards, and no other one has changed. -/
structure FreesExactly (p p' : Pmm.State) (own : Set Nat) : Prop where
  freed : ∀ f ∈ own, bitmapTest p'.bitmap f = false
  others : ∀ f ∉ own, bitmapTest p'.bitmap f = bitmapTest p.bitmap f

/-- The frames that the exit of a thread releases: the page number of the block is divided once more. -/
def released (top : Nat) : Block := ⟨addrToPage (addrToPage top), defaultStackPageAmount⟩

theorem mem_released (top f : Nat) : f ∈ (released top).frames ↔ top / 2 ^ 24 ≤ f ∧ f < top / 2 ^ 24 + 128 := by
  have number : addrToPage (addrToPage top) = top / 2 ^ 24 := Nat.div_div_eq_div_mul top pageSize pageSize
  rw [released, Block.mem_frames, number]
  rfl

section Exit

variable {p : Pmm.State} {t : Exiting} {top : Nat}

theorem usthreadExit_bitmap (user : t.ofKernel = false) (alive : t.zombie = false) (record : t.userStack = stackRecord top)
    (block : top ≠ 0) (f : Nat) : bitmapTest (usthreadExit p t).1.bitmap f =
      (bitmapTest p.bitmap f && !decide (f ∈ (released top).frames)) := by
  have count : addrToPage defaultStackPageBytes = defaultStackPageAmount := by decide
  have top' : t.userStack.top = top := by rw [record]; rfl
  have size : t.userStack.size = defaultStackPageBytes := by rw [record]; rfl
  have given : (usthreadExit p t).1 = pmmFreePages p (addrToPage top) defaultStackPageAmount := by
    simp only [usthreadExit, user, alive, top', size, count, Bool.false_eq_true, if_false, if_pos block]
  rw [given]
  exact bitmapTest_clearRange p.bitmap (addrToPage (addrToPage top)) defaultStackPageAmount f

/-- The last frame of a block is never among those released for it. -/
theorem last_frame_kept (block : top ≠ 0) (aligned : top % pageSize = 0) :
    addrToPage top + (defaultStackPageAmount - 1) ∉ (released top).frames := by
  have count : defaultStackPageAmount = 128 := rfl
  have size : pageSize = 4096 := rfl
  simp only [released, Block.mem_frames, addrToPage, size] at aligned ⊢
  omega

end Exit

/-- Where the stack of a new thread is mapped. -/
def stackVa (start : Start) : Constructor → Nat
  | .newUsproc => stackPage 0
  | .newThread => start.rsp

section Created

variable {m m' : Machine (List Frame)} {root top : Frame} {way : Constructor} {start : Start}

theorem mem_backing (ready : Ready m root top) {mem : Memory} {va i : Nat} (below : i < defaultStackPageAmount)
    (aligned : va % pageSize = 0) (translated : pageDirVirtToPhys mem root (pageFrom va i) =
      top + BitVec.ofNat 64 (i * pageSize) ||| BitVec.ofNat 64 (pageFrom va i % 2 ^ 12)) :
    addrToPage top.toNat + i ∈ backing mem root va := by
  have size : va % 4096 = 0 := aligned
  have multiple : top.toNat % 4096 = 0 := ready.aligned
  have inside := ready.inside
  have bound : top.toNat + i * pageSize < 2 ^ 52 := by
    rw [mul_pageSize] at inside ⊢
    omega
  have offset : pageFrom va i % 2 ^ 12 = 0 := by
    rw [pageFrom, mul_pageSize]
    omega
  have page : pageDirVirtToPhys mem root (pageFrom va i) = top + BitVec.ofNat 64 (i * pageSize) := by
    rw [translated, offset]
    exact BitVec.or_zero
  refine ⟨i, below, ?_, ?_⟩
  · rw [translated, ← frameOf_page ready.aligned bound, offset]
    exact frameOf_or_ne_notMapped _ (by decide)
  · rw [page, BitVec.toNat_add, BitVec.toNat_ofNat]
    rw [mul_pageSize] at bound ⊢
    show addrToPage top.toNat + i = _ / 4096
    rw [addrToPage, show top.toNat / pageSize = top.toNat / 4096 from rfl]
    omega

theorem Created.backed (ready : Ready m root top) (created : Created m root top way start m') {i : Nat}
    (below : i < defaultStackPageAmount) : addrToPage top.toNat + i ∈ backing m'.mem root (stackVa start way) := by
  cases created with
  | newThread done =>
    have ⟨_, _, aligned, free, pages⟩ := newThreadStack_maps ready done
    apply mem_backing ready below aligned
    exact pages.translation ready.formed free (by decide) ready.aligned ready.inside below rfl
  | newUsproc fits done =>
    have ⟨_, mapped⟩ := newUsprocStack_maps ready done
    have place : pageFrom (stackPage 0) i = stackPage i := by
      have count : defaultStackPageAmount = 128 := rfl
      rw [pageFrom, (stackPage_eq below).1, (stackPage_eq (show 0 < defaultStackPageAmount by decide)).1]
      simp only [mul_pageSize]
      omega
    apply mem_backing ready below (show stackPage 0 % pageSize = 0 by decide)
    rw [place]
    exact mapped.translation ready below rfl

/-- A thread of these two never frees its own stack exactly: while the last frame of the block is in use, it stays so. -/
theorem Created.exit_never_exact (ready : Ready m root top) (created : Created m root top way start m') (block : top ≠ 0)
    {p : Pmm.State} (used : bitmapTest p.bitmap (addrToPage top.toNat + (defaultStackPageAmount - 1)) = true) :
    ¬ FreesExactly p (usthreadExit p ⟨false, false, stackRecord top.toNat⟩).1 (backing m'.mem root (stackVa start way)) := by
  have nonzero : top.toNat ≠ 0 := fun zero => block (BitVec.eq_of_toNat_eq zero)
  intro exact_
  have freed := exact_.freed _ (created.backed ready (show defaultStackPageAmount - 1 < defaultStackPageAmount by decide))
  have after := usthreadExit_bitmap (p := p) (t := ⟨false, false, stackRecord top.toNat⟩) rfl rfl rfl nonzero
  rw [after, used] at freed
  simp [last_frame_kept nonzero ready.aligned] at freed

end Created

/-- As many numbers as fit into a range, all different and in it, are all of it. -/
theorem filled_range {g : Nat → Nat} {n k f : Nat} (apart : Set.InjOn g (Set.Iio n))
    (inside : ∀ i < n, k ≤ g i ∧ g i < k + n) (member : k ≤ f ∧ f < k + n) : ∃ i < n, g i = f := by
  have maps : Set.MapsTo g (Finset.range n) (Finset.Ico k (k + n)) := by
    intro i below
    simpa using inside i (by simpa using below)
  have onto := Finset.surjOn_of_injOn_of_card_le g maps (by simpa using apart) (by simp)
  obtain ⟨i, below, same⟩ := onto (by simpa using member : f ∈ (Finset.Ico k (k + n) : Set Nat))
  exact ⟨i, by simpa using below, same⟩

section Forked

variable {inUse : InUse} {parent : Parent} {old m : Kernel} {root : Frame}

/-- `new_stack_phys` of a `fork_process` that succeeds: the child records it as its stack. -/
def newStackPhys (parent : Parent) (m : Kernel) : Outcome Frame := do
  let (newPml4, m) ← pmmAllocPages m 1
  let m := { m with mem := Fork.shareKernelHalf (zeroPage m.mem newPml4) newPml4 parent.cr3 }
  let (_, m) ← Fork.forkHeap parent newPml4 m
  let (_, m) ← Fork.forkFileTable parent newPml4 m
  let (newStackPhys, _) ← Fork.forkCopyContigBlock newPml4 stackVaBase
    (walkLeafPhys m.mem parent.cr3 stackVaBase) defaultStackPageAmount stackFlags m
  pure newStackPhys

/-- What `fork_process` starts from: the regions of the parent are mapped, and its stack is its own. -/
structure ForkReady (parent : Parent) (old : Kernel) : Prop where
  reserve : Reserve old.frames
  occupied : Occupied old parent.cr3
  regions : RegionsMapped old.mem parent
  own : ∀ i < defaultStackPageAmount, ∀ e, lookup old.mem parent.cr3 (stackVaBase + i * pageSize) = some e → isOwned e = true

/-- The frame of page `i` of a stack, as a number. -/
def stackFrame (mem : Memory) (root : Frame) (va i : Nat) : Nat :=
  (pageDirVirtToPhys mem root (pageFrom va i)).toNat / pageSize

/-- The pages of a forked stack are in frames of their own. -/
theorem forked_frames (ready : ForkReady parent old) (done : Fork.forkAddressSpace inUse parent old = .ok (some root, m)) :
    (∀ i < defaultStackPageAmount, stackFrame m.mem root stackVaBase i ∈ backing m.mem root stackVaBase) ∧
      Set.InjOn (stackFrame m.mem root stackVaBase) (Set.Iio defaultStackPageAmount) := by
  obtain ⟨m₀, m₁, m₂, passes⟩ := Fork.fork_passes inUse ready.reserve ready.occupied done
  obtain ⟨building, -, good⟩ := passes.good ready.regions.slots
  have count : defaultStackPageAmount = 128 := rfl
  have base : stackVaBase = 0x7FFFFFF80000 := rfl
  have page : ∀ i < defaultStackPageAmount, pageFrom stackVaBase i = stackVaBase + i * pageSize ∧
      stackVaBase + i * pageSize < stackUpperUspaceAddr := by
    intro i below
    show _ ∧ _ < 0x800000000000
    rw [pageFrom, mul_pageSize]
    omega
  have each : ∀ i < defaultStackPageAmount, ∃ e, Fork.leaf m.mem root (Fork.slotOf (stackVaBase + i * pageSize)) = some e ∧
      Free old.frames (frameOf e) ∧ pageDirVirtToPhys m.mem root (pageFrom stackVaBase i) = frameOf e := by
    intro i below
    obtain ⟨same, low⟩ := page i below
    have user := Fork.slotOf_user low
    obtain ⟨e, here⟩ := Option.ne_none_iff_exists'.mp (ready.regions.stack i below)
    obtain ⟨e', there, duplicate⟩ := good _ user e here
    refine ⟨e', there, (duplicate.owned (ready.own i below e here)).1, ?_⟩
    have offset : (stackVaBase + i * pageSize) % 2 ^ 12 = 0 := by
      rw [mul_pageSize]
      omega
    rw [same, pageDirVirtToPhys_eq building.paging user.path_mem, Fork.lookup_eq_leaf, there, offset]
    exact BitVec.or_zero
  refine ⟨fun i below => ?_, fun i left j right same => ?_⟩
  · obtain ⟨e, -, -, phys⟩ := each i below
    refine ⟨i, below, ?_, rfl⟩
    rw [phys, ← BitVec.or_zero (x := frameOf e)]
    exact frameOf_or_ne_notMapped e (show 0 < 2 ^ 30 by decide)
  · obtain ⟨d, here, own, phys⟩ := each i left
    obtain ⟨e, there, -, phys'⟩ := each j right
    have frames : frameOf d = frameOf e := by
      rw [stackFrame, stackFrame, phys, phys', frameOf_eq_pageAt, frameOf_eq_pageAt, pageAt_toNat (by omega),
        pageAt_toNat (by omega)] at same
      rw [frameOf_eq_pageAt, frameOf_eq_pageAt]
      rw [show pageSize = 4096 from rfl] at same
      congr 1
      omega
    have slots := Fork.slotOf_inj (page i left).2 (page j right).2 (building.unshared _ _ (Fork.slotOf_user (page i left).2)
      (Fork.slotOf_user (page j right).2) d e here there frames own)
    rw [mul_pageSize, mul_pageSize, show pageSize = 4096 from rfl] at slots
    omega

end Forked

/-- A user thread of one of the three constructors: whether it was forked, the page table, the block on record and
where the stack is mapped. -/
inductive UserThread : Bool → Memory → Frame → Frame → Nat → Prop
  | created {m m' : Machine (List Frame)} {root top : Frame} {way : Constructor} {start : Start} (ready : Ready m root top)
      (created : Created m root top way start m') : UserThread false m'.mem root top (stackVa start way)
  | forked {inUse : InUse} {parent : Parent} {old m : Kernel} {root top : Frame} (ready : ForkReady parent old)
      (done : Fork.forkAddressSpace inUse parent old = .ok (some root, m)) (recorded : newStackPhys parent old = .ok top) :
      UserThread true m.mem root top stackVaBase

/-- While the frames of its stack are in use, the exit of a user thread frees exactly these just if it was forked and the
frames that the passes of `fork_process` got for the stack happen to be the 128 from number `top / 2^24` on. -/
theorem exit_frees_own_stack_iff {forked : Bool} {mem : Memory} {root top : Frame} {va : Nat}
    (thread : UserThread forked mem root top va) (block : top ≠ 0) {p : Pmm.State}
    (used : ∀ f ∈ backing mem root va, bitmapTest p.bitmap f = true) :
    FreesExactly p (usthreadExit p ⟨false, false, stackRecord top.toNat⟩).1 (backing mem root va) ↔
      forked = true ∧ backing mem root va = {f | top.toNat / 2 ^ 24 ≤ f ∧ f < top.toNat / 2 ^ 24 + 128} := by
  have nonzero : top.toNat ≠ 0 := fun zero => block (BitVec.eq_of_toNat_eq zero)
  have after := usthreadExit_bitmap (p := p) (t := ⟨false, false, stackRecord top.toNat⟩) rfl rfl rfl nonzero
  constructor
  · intro exact_
    cases thread with
    | created ready created =>
      have last := created.backed ready (show defaultStackPageAmount - 1 < defaultStackPageAmount by decide)
      exact absurd exact_ (created.exit_never_exact ready block (used _ last))
    | forked ready done recorded =>
      obtain ⟨backed, apart⟩ := forked_frames ready done
      have inside : ∀ f ∈ backing _ root stackVaBase, _ := fun f own => (mem_released top.toNat f).mp (by
        have freed := exact_.freed f own
        rw [after, used f own] at freed
        simpa using freed)
      refine ⟨rfl, Set.Subset.antisymm inside fun f member => ?_⟩
      obtain ⟨i, below, same⟩ := filled_range apart (fun i below => inside _ (backed i below)) member
      exact same ▸ backed i below
  · rintro ⟨-, same⟩
    have own : ∀ f, f ∈ backing mem root va ↔ f ∈ (released top.toNat).frames := by
      intro f
      rw [same, mem_released]
      rfl
    refine ⟨fun f member => ?_, fun f other => ?_⟩
    · rw [after, decide_eq_true ((own f).mp member), Bool.not_true, Bool.and_false]
    · rw [after, decide_eq_false fun member => other ((own f).mpr member), Bool.not_false, Bool.and_true]

/-- An allocator that has given out every frame. -/
def allUsed : Pmm.State := ⟨fun _ => 255#8, 4096, 0, 4096, 0⟩

theorem allUsed_test (f : Nat) : bitmapTest allUsed.bitmap f = true := by
  have each : ∀ bit < 8, (255#8).getLsbD bit = true := by decide
  exact each (f % 8) (Nat.mod_lt f (by decide))

/-- The stack of this thread is the frames 5 to 132; its exit frees 0 to 127. -/
theorem exit_frees_other_frames : ∃ start m', Created direct (pageAt 1) (pageAt 5) .newThread start m' ∧
    ¬ FreesExactly allUsed (usthreadExit allUsed ⟨false, false, stackRecord (pageAt 5).toNat⟩).1
      (backing m'.mem (pageAt 1) start.rsp) := by
  obtain ⟨start, m', created⟩ := direct_thread
  exact ⟨start, m', created, created.exit_never_exact direct_ready (by decide) (allUsed_test _)⟩

theorem exit_frees_own_stack_iff_direct : ∃ start m', Created direct (pageAt 1) (pageAt 5) .newUsproc start m' ∧
    ¬ FreesExactly allUsed (usthreadExit allUsed ⟨false, false, stackRecord (pageAt 5).toNat⟩).1
      (backing m'.mem (pageAt 1) (stackVa start .newUsproc)) := by
  obtain ⟨start, m', created⟩ := direct_usproc
  refine ⟨start, m', created, fun exact_ => ?_⟩
  have never := (exit_frees_own_stack_iff (.created direct_ready created) (by decide) fun f _ => allUsed_test f).mp exact_
  cases never.1

end CreeperKernel.Stacks
