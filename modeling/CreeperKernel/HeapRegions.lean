import CreeperKernel.PmmBitmap

namespace CreeperKernel.Heap

open Pmm (pageSize)

abbrev maxFreeRegions : Nat := 102

structure FreeRegion where
  baseAddr : Nat
  length : Nat
  deriving DecidableEq, Repr

def FreeRegion.hole : FreeRegion := ⟨0, 0⟩

/-- `base_addr + length` in `uintptr_t`. -/
def FreeRegion.stop (r : FreeRegion) : Nat := (r.baseAddr + r.length) % 2 ^ 64

abbrev Regions := Nat → FreeRegion

structure RegionMap where
  freeRegions : Regions
  freeRegionCount : Nat

def sub64 (a b : Nat) : Nat := (a + 2 ^ 64 - b) % 2 ^ 64

/-- `(n + 7) & ~7U`. The mask is an `unsigned int`, so it also cuts off the upper
half of the word. -/
def alignUp8 (n : Nat) : Nat := ((n + 7) % 2 ^ 64) &&& 0xFFFFFFF8

def headerSize : Nat := 8

/-- `(size + sizeof(uintptr_t) + 7) & ~7U` -/
def fullSize (size : Nat) : Nat := alignUp8 ((size + headerSize) % 2 ^ 64)

/-- `for (k = start; k < bound - 1; k++) free_regions[k] = free_regions[k + 1];` -/
def shiftDown (regs : Regions) (start bound : Nat) : Regions :=
  (List.range' start (bound - 1 - start)).foldl
    (fun regs k => Function.update regs k (regs (k + 1))) regs

/-- Shifting over slot `j` and clearing the last slot of the range. -/
def dropSlot (regs : Regions) (j bound : Nat) : Regions :=
  Function.update (shiftDown regs j bound) (bound - 1) .hole

/-- The inner loop of `force_free_nolock`. `slot` is the slot the `region` pointer
was taken from; a merge below `i` moves the entry but not the pointer. Every round
lowers `free_region_count - j` by one, so the count at the start is enough fuel. -/
def absorbNeighbours (slot : Nat) : Nat → Nat → Nat → RegionMap → RegionMap
  | 0, _, _, m => m
  | fuel + 1, i, j, m =>
    if j < m.freeRegionCount then
      if j = i then absorbNeighbours slot fuel i (j + 1) m
      else
        let region := m.freeRegions slot
        let other := m.freeRegions j
        if region.baseAddr ≤ other.stop ∧ other.baseAddr ≤ region.stop then
          let mergeStart := if region.baseAddr < other.baseAddr then region.baseAddr else other.baseAddr
          let mergeEnd := if other.stop < region.stop then region.stop else other.stop
          let regs := Function.update m.freeRegions slot ⟨mergeStart, sub64 mergeEnd mergeStart⟩
          absorbNeighbours slot fuel (if j < i then i - 1 else i) j
            ⟨dropSlot regs j m.freeRegionCount, m.freeRegionCount - 1⟩
        else absorbNeighbours slot fuel i (j + 1) m
    else m

/-- The outer loop of `force_free_nolock` over the slots still to be looked at. -/
def forceFreeScan (newStart newEnd : Nat) (m : RegionMap) : List Nat → RegionMap
  | [] =>
    if m.freeRegionCount < maxFreeRegions then
      ⟨Function.update m.freeRegions m.freeRegionCount ⟨newStart, sub64 newEnd newStart⟩,
        m.freeRegionCount + 1⟩
    else m
  | i :: rest =>
    let region := m.freeRegions i
    if region.baseAddr ≤ newEnd ∧ newStart ≤ region.stop then
      let mergedStart := if newStart < region.baseAddr then newStart else region.baseAddr
      let mergedEnd := if region.stop < newEnd then newEnd else region.stop
      let regs := Function.update m.freeRegions i ⟨mergedStart, sub64 mergedEnd mergedStart⟩
      absorbNeighbours i m.freeRegionCount i 0 ⟨regs, m.freeRegionCount⟩
    else forceFreeScan newStart newEnd m rest

def forceFreeNolock (m : RegionMap) (address size : Nat) : RegionMap :=
  let newStart := address / pageSize * pageSize
  let newEnd := (address + size + 0xFFF) % 2 ^ 64 / pageSize * pageSize
  if newEnd ≤ 0x10000 then m
  else
    let newStart := if newStart < 0x10000 then 0x10000 else newStart
    forceFreeScan newStart newEnd m (List.range m.freeRegionCount)

/-- The locals of `first_region_of_size_or_more` while it follows a chain. -/
structure Chain where
  currSize : Nat
  merged : Nat → Bool
  changed : Bool

def chainStep (regs : Regions) (currBase : Nat) (c : Chain) (j : Nat) : Chain :=
  if c.merged j ∨ (regs j).length = 0 then c
  else if (regs j).baseAddr = (currBase + c.currSize) % 2 ^ 64 then
    ⟨(c.currSize + (regs j).length) % 2 ^ 64, Function.update c.merged j true, true⟩
  else c

/-- One `for` loop over the slots, with `changed` cleared before it. -/
def chainPass (m : RegionMap) (currBase : Nat) (c : Chain) : Chain :=
  (List.range m.freeRegionCount).foldl (chainStep m.freeRegions currBase) { c with changed := false }

def followChain (m : RegionMap) (currBase : Nat) : Nat → Chain → Outcome Chain
  | 0, _ => .hang
  | fuel + 1, c =>
    let c := chainPass m currBase c
    if c.changed then followChain m currBase fuel c else .ok c

/-- The slots of a chain folded into slot `i`. -/
def joinChain (m : RegionMap) (i : Nat) (c : Chain) : RegionMap :=
  ⟨fun k =>
    if k = i then ⟨(m.freeRegions i).baseAddr, c.currSize⟩
    else if k < m.freeRegionCount ∧ c.merged k then .hole
    else m.freeRegions k, m.freeRegionCount⟩

def firstRegionScan (m : RegionMap) (requestedSize : Nat) : List Nat → Outcome (Option Nat × RegionMap)
  | [] => .ok (none, m)
  | i :: rest =>
    if (m.freeRegions i).length = 0 then firstRegionScan m requestedSize rest
    else do
      let c ← followChain m (m.freeRegions i).baseAddr (maxFreeRegions + 1)
        ⟨(m.freeRegions i).length, fun k => decide (k = i), false⟩
      if requestedSize ≤ c.currSize then .ok (some i, joinChain m i c)
      else firstRegionScan m requestedSize rest

/-- The index stands for the returned pointer. -/
def firstRegionOfSizeOrMore (m : RegionMap) (size : Nat) : Outcome (Option Nat × RegionMap) :=
  firstRegionScan m (fullSize size) (List.range m.freeRegionCount)

/-- `kfree_impl`'s search for an unused slot. -/
def placeFree (regs : Regions) (block : FreeRegion) : Option Regions :=
  ((List.range maxFreeRegions).find? fun k => (regs k).length == 0).map
    fun k => Function.update regs k block

def swapSlots (regs : Regions) (i j : Nat) : Regions :=
  Function.update (Function.update regs i (regs j)) j (regs i)

def sortStep (i : Nat) (regs : Regions) (j : Nat) : Regions :=
  if (regs j).length = 0 then regs
  else if (regs i).length = 0 ∨ (regs j).baseAddr < (regs i).baseAddr then swapSlots regs i j
  else regs

def sortRegions (regs : Regions) : Regions :=
  (List.range (maxFreeRegions - 1)).foldl
    (fun regs i => (List.range' (i + 1) (maxFreeRegions - (i + 1))).foldl (sortStep i) regs) regs

/-- The inner merge loop of `kfree_impl`; a merge looks at the same slot again. -/
def mergeInto (i : Nat) : Nat → Nat → Regions → Outcome Regions
  | 0, _, _ => .hang
  | fuel + 1, j, regs =>
    if j < maxFreeRegions then
      if (regs j).length = 0 then mergeInto i fuel (j + 1) regs
      else if (regs i).stop = (regs j).baseAddr then
        mergeInto i fuel j (dropSlot (Function.update regs i
          ⟨(regs i).baseAddr, ((regs i).length + (regs j).length) % 2 ^ 64⟩) j maxFreeRegions)
      else mergeInto i fuel (j + 1) regs
    else .ok regs

def mergeRegions (regs : Regions) : List Nat → Outcome Regions
  | [] => .ok regs
  | i :: rest =>
    if (regs i).length = 0 then mergeRegions regs rest
    else do
      let regs ← mergeInto i (2 * maxFreeRegions + 1) (i + 1) regs
      mergeRegions regs rest

def recount (regs : Regions) : Nat :=
  ((List.range maxFreeRegions).filter fun k => 0 < (regs k).length).length

/-- What `kfree_impl` does to the region map. A block that finds no slot leaks. -/
def returnBlock (m : RegionMap) (block : FreeRegion) : Outcome RegionMap :=
  match placeFree m.freeRegions block with
  | none => .ok m
  | some regs => do
    let regs ← mergeRegions (sortRegions regs) (List.range (maxFreeRegions - 1))
    pure ⟨regs, recount regs⟩

end CreeperKernel.Heap
