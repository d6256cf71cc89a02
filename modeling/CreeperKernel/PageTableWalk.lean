import CreeperKernel.Outcome
import CreeperKernel.PageTableEntries
import CreeperKernel.RadixTree

namespace CreeperKernel.Vmm

open RadixTree (write)

abbrev Index := Fin 512

/-- Numerals of `Index` in definitions refer to this one proof. -/
instance index_neZero : @NeZero Nat Zero.ofOfNat0 512 := ⟨by decide⟩

/-- Physical memory, page by page, as the direct map shows it. -/
abbrev Memory := Frame → Index → Entry

/-- The physical allocator as the page-table code sees it. -/
class FrameAllocator (σ : Type) where
  pmmAlloc : σ → Outcome (Frame × σ)
  pmmFree : σ → Frame → σ

structure Machine (σ : Type) where
  mem : Memory
  frames : σ

def pml4Index (va : Nat) : Index := ⟨va / 2 ^ 39 % 512, Nat.mod_lt _ (by decide)⟩
def pdptIndex (va : Nat) : Index := ⟨va / 2 ^ 30 % 512, Nat.mod_lt _ (by decide)⟩
def pdIndex (va : Nat) : Index := ⟨va / 2 ^ 21 % 512, Nat.mod_lt _ (by decide)⟩
def ptIndex (va : Nat) : Index := ⟨va / 2 ^ 12 % 512, Nat.mod_lt _ (by decide)⟩

variable {σ : Type} [FrameAllocator σ]

def Machine.store (m : Machine σ) (table : Frame) (idx : Index) (e : Entry) : Machine σ :=
  { m with mem := write m.mem table idx e }

/-- `pmm_free` from the paging code. -/
def Machine.release (m : Machine σ) (phys : Frame) : Machine σ :=
  { m with frames := FrameAllocator.pmmFree m.frames phys }

def zeroPage (mem : Memory) (phys : Frame) : Memory := Function.update mem phys fun _ => 0

/-- `pmm_alloc_zeroed`: address 0 counts as failure and is returned as it is. -/
def pmmAllocZeroed (m : Machine σ) : Outcome (Frame × Machine σ) := do
  let (phys, frames) ← FrameAllocator.pmmAlloc m.frames
  if phys = 0 then pure (0, { m with frames })
  else pure (phys, { mem := zeroPage m.mem phys, frames })

def tableGetOrCreate (m : Machine σ) (table : Frame) (idx : Index) (flags : Entry) :
    Outcome (Frame × Machine σ) :=
  let permBits := flags &&& permMask
  if ¬ isPresent (m.mem table idx) then do
    let (phys, m) ← pmmAllocZeroed m
    let m := m.store table idx ((phys &&& pteAddrMask) ||| ptePresent ||| permBits)
    pure (m.mem table idx &&& pteAddrMask, m)
  else if m.mem table idx &&& permBits ≠ permBits then
    let m := m.store table idx (m.mem table idx ||| permBits)
    pure (m.mem table idx &&& pteAddrMask, m)
  else pure (m.mem table idx &&& pteAddrMask, m)

/-- `map_4k_nolock`. The lock and `invlpg` are left out. -/
def map4k (m : Machine σ) (pml4 : Frame) (va : Nat) (pa : Frame) (flags : Entry) :
    Outcome (Machine σ) := do
  let (pdpt, m) ← tableGetOrCreate m pml4 (pml4Index va) flags
  let (pd, m) ← tableGetOrCreate m pdpt (pdptIndex va) flags
  let (pt, m) ← tableGetOrCreate m pd (pdIndex va) flags
  pure (m.store pt (ptIndex va) ((pa &&& pteAddrMask) ||| flags ||| ptePresent))

/-- `unmap_4k_nolock` with `free_phys` set. -/
def unmap4k (m : Machine σ) (pml4 : Frame) (va : Nat) : Machine σ :=
  let pml4e := m.mem pml4 (pml4Index va)
  if ¬ isPresent pml4e then m else
  let pdpt := frameOf pml4e
  let pdpte := m.mem pdpt (pdptIndex va)
  if ¬ isPresent pdpte then m else
  let pd := frameOf pdpte
  let pde := m.mem pd (pdIndex va)
  if ¬ isPresent pde then m else
  if isHuge pde then m else
  let pt := frameOf pde
  let pte := m.mem pt (ptIndex va)
  if ¬ isPresent pte then m else
  let pa := frameOf pte
  let owned := isOwned pte
  let m := m.store pt (ptIndex va) 0
  if owned then m.release pa else m

def tableIsEmpty (mem : Memory) (table : Frame) : Bool := decide (∀ i, mem table i = 0)

/-- The bottom-up freeing of empty tables at the end of `vmm_unmap_page`. -/
def pruneTables (m : Machine σ) (pml4 pdpt pd pt : Frame) (va : Nat) : Machine σ :=
  if ¬ tableIsEmpty m.mem pt then m else
  let m := (m.store pd (pdIndex va) 0).release pt
  if ¬ tableIsEmpty m.mem pd then m else
  let m := (m.store pdpt (pdptIndex va) 0).release pd
  if ¬ tableIsEmpty m.mem pdpt then m else
  (m.store pml4 (pml4Index va) 0).release pdpt

/-- `vmm_unmap_page` with `pml4` in CR3. -/
def vmmUnmapPage (m : Machine σ) (pml4 : Frame) (va : Nat) : Machine σ :=
  let pml4e := m.mem pml4 (pml4Index va)
  if ¬ isPresent pml4e then m else
  let pdpt := frameOf pml4e
  let pdpte := m.mem pdpt (pdptIndex va)
  if ¬ isPresent pdpte ∨ isHuge pdpte then m else
  let pd := frameOf pdpte
  let pde := m.mem pd (pdIndex va)
  if ¬ isPresent pde ∨ isHuge pde then m else
  let pt := frameOf pde
  pruneTables (m.store pt (ptIndex va) 0) pml4 pdpt pd pt va

/-- `HHDM_VBASE`, where the direct map of physical memory starts. -/
def hhdmVbase : Nat := 0xFFFF800000000000

def notMapped : BitVec 64 := BitVec.allOnes 64

def pageDirVirtToPhys (mem : Memory) (pml4 : Frame) (va : Nat) : BitVec 64 :=
  let pml4e := mem pml4 (pml4Index va)
  if ¬ isPresent pml4e then notMapped else
  let pdpte := mem (frameOf pml4e) (pdptIndex va)
  if ¬ isPresent pdpte then notMapped else
  if isHuge pdpte then frameOf pdpte ||| BitVec.ofNat 64 (va % 2 ^ 30) else
  let pde := mem (frameOf pdpte) (pdIndex va)
  if ¬ isPresent pde then notMapped else
  if isHuge pde then frameOf pde ||| BitVec.ofNat 64 (va % 2 ^ 21) else
  let pte := mem (frameOf pde) (ptIndex va)
  if ¬ isPresent pte then notMapped else
  frameOf pte ||| BitVec.ofNat 64 (va % 2 ^ 12)

end CreeperKernel.Vmm
