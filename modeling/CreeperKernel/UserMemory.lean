import CreeperKernel.ForkCopy
import CreeperKernel.PageRights

namespace CreeperKernel.UserMemory

open Vmm RadixTree
open Fork (Kernel)
open Pmm (pageSize)
open Rights (walkEntries indices)

def pageDown (x : BitVec 64) : BitVec 64 := x &&& ~~~(0xFFF : BitVec 64)

/-- `(x + PAGE_SIZE_4K - 1) & ~(PAGE_SIZE_4K - 1)`, which wraps around. -/
def pageUp (x : BitVec 64) : BitVec 64 := pageDown (x + 0xFFF)

/-- The number of pages from `low` up to `high`, both page aligned. -/
def pagesBetween (low high : BitVec 64) : Nat := ((high - low) / 0x1000).toNat

def pageOf (va : BitVec 64) (i : Nat) : Nat := (va.toNat + i * pageSize) % 2 ^ 64

structure HeapT where
  higher : BitVec 64
  lower : BitVec 64
  size : BitVec 64
  deriving DecidableEq, Repr

def eNomem : BitVec 64 := 12
def eInval : BitVec 64 := 22

/-- The flags of the heap pages that `sys_brk` maps. -/
def heapFlags : Entry := pteWritable ||| pteUser ||| pteLocalOwned ||| pteNx

/-- `sys_brk` with its return value. Nothing is unmapped when the heap shrinks. -/
def sysBrk (m : Kernel) (cr3 : Frame) (heap : HeapT) (brk : BitVec 64) :
    Outcome (BitVec 64 × HeapT × Kernel) :=
  if brk = 0 then pure (heap.higher, heap, m) else
  if brk < heap.lower then pure (-eInval, heap, m) else
  let oldPage := pageUp heap.higher
  let newPage := pageUp brk
  let moved : HeapT := { heap with higher := brk, size := brk - heap.lower }
  if oldPage < newPage then do
    let pages := pagesBetween oldPage newPage
    let (phys, m) ← pmmAllocPages m pages
    if phys = 0 then pure (-eNomem, heap, m) else do
    let m ← Rights.map4kPages m cr3 oldPage.toNat phys pages heapFlags
    pure (moved.higher, moved, m)
  else pure (moved.higher, moved, m)

/-- An entry in memory, by its table and its index. -/
abbrev Word := Frame × Index

/-- The words of the entries that the CPU's walk along these indices goes through, if it
finds a page. A huge page may end it one or two levels early. -/
def walkWords (mem : Memory) : Frame → List Index → Option (List Word)
  | _, [] => some []
  | n, i :: path =>
    if ¬ isPresent (mem n i) then none
    else if isHuge (mem n i) ∧ (path.length = 1 ∨ path.length = 2) then some [(n, i)]
    else (walkWords mem (frameOf (mem n i)) path).map ((n, i) :: ·)

theorem walkEntries_eq (mem : Memory) (root : Frame) (va : Nat) : walkEntries mem root va =
    (walkWords mem root (indices va)).map (List.map fun w => mem w.1 w.2) := by
  simp only [walkEntries, indices, walkWords, and_false, ↓reduceIte, List.length_cons, List.length_nil,
    Nat.reduceAdd, Nat.reduceEqDiff, or_true, or_false, and_true]
  split
  · rfl
  · split
    · rfl
    · split
      · rfl
      · split
        · rfl
        · split
          · rfl
          · split <;> rfl

end CreeperKernel.UserMemory
