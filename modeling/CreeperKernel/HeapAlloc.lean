import CreeperKernel.HeapRegions
import CreeperKernel.MappedMemory

namespace CreeperKernel.Heap

open MappedMemory (Space)
open Pmm (pageSize)

/-- The allocator with the memory it works on: the pages of the kernel page table
that were mapped for the heap, and the physical bytes behind them. -/
structure State where
  map : RegionMap
  table : Nat → Option Nat
  bytes : Nat → BitVec 8

def kernelHeapSeedPages : Nat := 4

/-- The region map and the heap's part of the page table at boot. -/
def boot (bytes : Nat → BitVec 8) : State := ⟨⟨fun _ => .hole, 0⟩, fun _ => none, bytes⟩

def State.space (h : State) : Space where
  translate := fun a => (h.table (a / pageSize)).map fun frame => frame * pageSize + a % pageSize
  bytes := h.bytes

/-- A memory access of the kernel faults where no heap page is mapped. -/
def orFault {α : Type} : Option α → Outcome α
  | some value => .ok value
  | none => .fault

def State.storeWord (h : State) (a v : Nat) : Outcome State := do
  let space ← orFault (h.space.storeWord a v)
  pure { h with bytes := space.bytes }

def State.storeByte (h : State) (a : Nat) (b : BitVec 8) : Outcome State := do
  let space ← orFault (h.space.store a b)
  pure { h with bytes := space.bytes }

/-- `memset(PHYS_2_HHDM(phys), 0, count * PMM_PAGE_SIZE)` -/
def zeroFrames (bytes : Nat → BitVec 8) (phys count : Nat) : Nat → BitVec 8 := fun place =>
  if phys ≤ place ∧ place < phys + count * pageSize then 0 else bytes place

def mapPages (table : Nat → Option Nat) (va pa count : Nat) : Nat → Option Nat :=
  (List.range count).foldl
    (fun table i => Function.update table (va / pageSize + i) (some (pa / pageSize + i))) table

/-- One round of `init_allocator`; `pa` and `va` are what `pmm_alloc_zeroed` and
`kvma_alloc` return. -/
def seedPage (h : State) (pa va : Nat) : State :=
  let h := { h with bytes := zeroFrames h.bytes pa 1, table := mapPages h.table va pa 1 }
  if h.map.freeRegionCount < maxFreeRegions then
    { h with map := ⟨Function.update h.map.freeRegions h.map.freeRegionCount ⟨va, pageSize⟩,
      h.map.freeRegionCount + 1⟩ }
  else h

/-- The loop of `init_allocator` stops at the first page it does not get. -/
def seedPages (h : State) : List (Nat × Nat) → State
  | [] => h
  | (pa, va) :: rest =>
    if pa = 0 then h
    else if va = 0 then { h with bytes := zeroFrames h.bytes pa 1 }
    else seedPages (seedPage h pa va) rest

def initAllocator (h : State) (pages : Fin kernelHeapSeedPages → Nat × Nat) : State :=
  seedPages h (List.ofFn pages)

/-- Writing the header and cutting the block off the front of slot `i`. -/
def carve (h : State) (i size : Nat) : Outcome (Nat × State) := do
  let region := h.map.freeRegions i
  let header := region.baseAddr
  let h ← h.storeWord header size
  let region : FreeRegion :=
    ⟨(region.baseAddr + fullSize size) % 2 ^ 64, sub64 region.length (fullSize size)⟩
  let regs := Function.update h.map.freeRegions i region
  let map : RegionMap :=
    if region.length = 0 then
      ⟨shiftDown regs i h.map.freeRegionCount, h.map.freeRegionCount - 1⟩
    else ⟨regs, h.map.freeRegionCount⟩
  pure ((header + headerSize) % 2 ^ 64, { h with map })

/-- `region && region->base_addr > 0xFFFF` -/
def usableRegion (m : RegionMap) (found : Option Nat) : Option Nat :=
  found.filter fun i => 0xFFFF < (m.freeRegions i).baseAddr

def pagesNeeded (size : Nat) : Nat := (fullSize size + pageSize - 1) / pageSize

/-- The path of `kmalloc_impl` that takes new pages and searches again. -/
def expandAndCarve (h : State) (size pa va : Nat) : Outcome (Nat × State) :=
  let pages := pagesNeeded size
  let h := { h with bytes := zeroFrames h.bytes pa pages }
  if pa = 0 then .ok (0, h)
  else if va = 0 then .ok (0, h)
  else do
    let h := { h with
      table := mapPages h.table va pa pages
      map := forceFreeNolock h.map va (pages * pageSize) }
    let (found, map) ← firstRegionOfSizeOrMore h.map (fullSize size)
    match usableRegion map found with
    | some i => carve { h with map } i size
    | none => pure (0, { h with map })

/-- `kmalloc_impl`. `pa` and `va` are what `pmm_alloc_pages_zeroed` and
`kvma_alloc` return, should the call need pages; the returned pointer is 0 on
failure. -/
def kmallocImpl (h : State) (size pa va : Nat) : Outcome (Nat × State) :=
  if size = 0 then .ok (0, h)
  else if size > 2 ^ 64 - 1 - headerSize then .ok (0, h)
  else do
    let (found, map) ← firstRegionOfSizeOrMore h.map (fullSize size)
    match usableRegion map found with
    | some i => carve { h with map } i size
    | none => expandAndCarve { h with map } size pa va

def kfreeImpl (h : State) (ptr : Nat) : Outcome State :=
  if ptr = 0 then .ok h
  else do
    let stored ← orFault (h.space.loadWord (sub64 ptr headerSize))
    let size := (stored + headerSize) % 2 ^ 64
    if size = 0 then pure h
    else do
      let map ← returnBlock h.map ⟨sub64 ptr headerSize, alignUp8 size⟩
      pure { h with map }

end CreeperKernel.Heap
