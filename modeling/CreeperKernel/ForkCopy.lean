import CreeperKernel.FallibleLoops
import CreeperKernel.PageTableRelease

namespace CreeperKernel.Fork

open Vmm FallibleLoops
open Pmm (pageSize)

def defaultUserHeapStart : Nat := 0x600000000000
def defaultUserHeapPages : Nat := 16
def defaultUserHeapEnd : Nat := defaultUserHeapStart + defaultUserHeapPages * pageSize
def defaultFileTableStart : Nat := 0x7E0000000000
def defaultFileTablePages : Nat := 4
def defaultStackPageAmount : Nat := 128
def defaultStackPageBytes : Nat := defaultStackPageAmount <<< 12
def stackUpperUspaceAddr : Nat := 0x800000000000

def stackVaBase : Nat := stackUpperUspaceAddr - defaultStackPageBytes

/-- Memory and physical allocator while `fork_process` runs. -/
abbrev Kernel := Machine Pmm.State

/-- What `fork_process` reads of the parent's pcb to copy its address space. The
heap and the file table of a user process lie in the user half. -/
structure Parent where
  cr3 : Frame
  heapLower : Nat
  heapSize : Nat
  openedFileTable : Nat
  heapInside : heapLower + heapSize ≤ stackUpperUspaceAddr
  filesInside : openedFileTable + defaultFileTablePages * pageSize ≤ stackUpperUspaceAddr

/-- `_walk_leaf_phys`: the page behind `va`, or 0. -/
def walkLeafPhys (mem : Memory) (pml4 : Frame) (va : Nat) : Frame :=
  if ¬ isPresent (mem pml4 (pml4Index va)) then 0 else
  let pdpt := frameOf (mem pml4 (pml4Index va))
  if ¬ isPresent (mem pdpt (pdptIndex va)) then 0 else
  let pd := frameOf (mem pdpt (pdptIndex va))
  if ¬ isPresent (mem pd (pdIndex va)) then 0 else
  let pt := frameOf (mem pd (pdIndex va))
  let pte := mem pt (ptIndex va)
  if ¬ isPresent pte then 0 else frameOf pte

def copyPage (mem : Memory) (dst src : Frame) : Memory := Function.update mem dst (mem src)

/-- `memcpy` of whole pages through the direct map. It copies upwards, so page by
page is byte by byte even where the two blocks overlap. -/
def copyPages (mem : Memory) (dst src : Frame) (count : Nat) : Memory :=
  (List.range count).foldl (fun mem i =>
    copyPage mem (dst + BitVec.ofNat 64 (i * pageSize)) (src + BitVec.ofNat 64 (i * pageSize))) mem

def map4kPages (m : Kernel) (pml4 : Frame) (va : Nat) (pa : Frame) (count : Nat) (flags : Entry) :
    Outcome Kernel :=
  (List.range count).foldlM (fun m i =>
    map4k m pml4 (va + i * pageSize) (pa + BitVec.ofNat 64 (i * pageSize)) flags) m

/-- The address `_fork_copy_user_pages` puts together from its four indices. -/
def vaOf (i4 i3 i2 i1 : Index) : Nat :=
  i4.val <<< 39 ||| i3.val <<< 30 ||| i2.val <<< 21 ||| i1.val <<< 12

/-- The innermost round of `_fork_copy_user_pages`: one present leaf entry of the
parent. -/
def forkCopyPage (newPml4 : Frame) (va : Nat) (pte : Entry) (m : Kernel) :
    Outcome (Bool × Kernel) :=
  let oldPa := pte &&& pteAddrMask
  let flags := pte &&& ~~~pteAddrMask
  if isOwned pte then do
    let (newPa, m) ← pmmAllocPages m 1
    if newPa = 0 then pure (false, m)
    else do
      let m ← map4k { m with mem := copyPages m.mem newPa oldPa 1 } newPml4 va newPa flags
      pure (true, m)
  else do
    let m ← map4k m newPml4 va oldPa flags
    pure (true, m)

/-- A loop of `_fork_copy_user_pages` over the present entries of a table; `inner`
gets the index and the table behind the entry. -/
def forEachPresent (table : Frame) (indices : List Index)
    (inner : Index → Frame → Kernel → Outcome (Bool × Kernel)) : Kernel → Outcome (Bool × Kernel) :=
  forEach indices fun i m =>
    if ¬ isPresent (m.mem table i) then pure (true, m)
    else inner i (frameOf (m.mem table i)) m

def forkCopyUserPages (oldPml4 newPml4 : Frame) (skipLo skipHi : Nat) : Kernel → Outcome (Bool × Kernel) :=
  forEachPresent oldPml4 lowerHalf fun i4 pdpt =>
    forEachPresent pdpt (List.finRange 512) fun i3 pd =>
      forEachPresent pd (List.finRange 512) fun i2 pt =>
        forEach (List.finRange 512) fun i1 m =>
          let pte := m.mem pt i1
          if ¬ isPresent pte then pure (true, m) else
          let va := vaOf i4 i3 i2 i1
          if skipLo ≤ va ∧ va < skipHi then pure (true, m) else
          forkCopyPage newPml4 va pte m

/-- `_fork_copy_contig_block`; the address 0 stands for failure. -/
def forkCopyContigBlock (newPml4 : Frame) (vaBase : Nat) (oldPhysBase : Frame) (pageCount : Nat)
    (flags : Entry) (m : Kernel) : Outcome (Frame × Kernel) := do
  let (newPhys, m) ← pmmAllocPages m pageCount
  if newPhys = 0 then pure (0, m)
  else do
    let m := { m with mem := copyPages m.mem newPhys oldPhysBase pageCount }
    let m ← map4kPages m newPml4 vaBase newPhys pageCount flags
    pure (newPhys, m)

/-- How `fork_process` copies each of its three fixed regions. -/
def forkRegion (oldPml4 newPml4 : Frame) (va pages : Nat) (flags : Entry) (m : Kernel) :
    Outcome (Bool × Kernel) :=
  let oldPhys := walkLeafPhys m.mem oldPml4 va
  if oldPhys = 0 then pure (false, m)
  else do
    let (newPhys, m) ← forkCopyContigBlock newPml4 va oldPhys pages flags m
    pure (newPhys ≠ 0, m)

def forkHeap (parent : Parent) (newPml4 : Frame) (m : Kernel) : Outcome (Bool × Kernel) :=
  if parent.heapLower = 0 then pure (true, m)
  else forkRegion parent.cr3 newPml4 parent.heapLower (parent.heapSize / pageSize)
    (pteUser ||| pteWritable ||| pteLocalOwned) m

def forkFileTable (parent : Parent) (newPml4 : Frame) (m : Kernel) : Outcome (Bool × Kernel) :=
  if parent.openedFileTable = 0 then pure (true, m)
  else forkRegion parent.cr3 newPml4 parent.openedFileTable defaultFileTablePages
    (pteWritable ||| pteLocalOwned) m

def forkStack (parent : Parent) (newPml4 : Frame) (m : Kernel) : Outcome (Bool × Kernel) :=
  forkRegion parent.cr3 newPml4 stackVaBase defaultStackPageAmount
    (pteWritable ||| pteNx ||| pteUser ||| pteLocalOwned) m

/-- `for (int i = 256; i < 512; i++) new_pml4[i] = old_pml4[i];` -/
def shareKernelHalf (mem : Memory) (newPml4 oldPml4 : Frame) : Memory :=
  Function.update mem newPml4 fun i => if 256 ≤ i.val then mem oldPml4 i else mem newPml4 i

def forkUserHalf (parent : Parent) (newPml4 : Frame) (m : Kernel) : Outcome (Bool × Kernel) :=
  andThen (forkHeap parent newPml4 m) fun m =>
  andThen (forkFileTable parent newPml4 m) fun m =>
  andThen (forkStack parent newPml4 m) fun m =>
  andThen (forkCopyUserPages parent.cr3 newPml4 defaultUserHeapStart defaultUserHeapEnd m) fun m =>
  andThen (forkCopyUserPages parent.cr3 newPml4 defaultFileTableStart
    (defaultFileTableStart + defaultFileTablePages * pageSize) m) fun m =>
  forkCopyUserPages parent.cr3 newPml4 stackVaBase (stackVaBase + defaultStackPageBytes) m

/-- The address space part of `fork_process`: the child's PML4, or `none` after
`_fork_cleanup_proc`. -/
def forkAddressSpace (inUse : InUse) (parent : Parent) (m : Kernel) :
    Outcome (Option Frame × Kernel) := do
  let (newPml4, m) ← pmmAllocPages m 1
  let m := { m with mem := zeroPage m.mem newPml4 }
  if newPml4 = 0 then pure (none, m)
  else do
    let m := { m with mem := shareKernelHalf m.mem newPml4 parent.cr3 }
    let (done, m) ← forkUserHalf parent newPml4 m
    if done then pure (some newPml4, m)
    else pure (none, vmmPagetableFreeOwned inUse newPml4 m)

end CreeperKernel.Fork
