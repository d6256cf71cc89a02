import CreeperKernel.ForkCopy

namespace CreeperKernel.Exec

open Vmm Fork FallibleLoops
open Pmm (pageSize)
open RadixTree (write)

/-- A `PT_LOAD` header, with what `memset` and `memcpy` leave in the pages of the
segment. Segments of a user program lie in the user half. -/
structure Segment where
  pVaddr : Nat
  pMemsz : Nat
  writable : Bool
  executable : Bool
  contents : Nat → Index → Entry
  low : pVaddr < stackUpperUspaceAddr
  inside : pVaddr + pMemsz ≤ stackUpperUspaceAddr

def Segment.vaddrAligned (seg : Segment) : Nat := seg.pVaddr / pageSize * pageSize

def Segment.segPages (seg : Segment) : Nat :=
  let segPages := (seg.pVaddr % pageSize + seg.pMemsz + pageSize - 1) / pageSize
  if segPages = 0 then 1 else segPages

def Segment.mapFlags (seg : Segment) : Entry :=
  ptePresent ||| pteUser ||| pteLocalOwned ||| (if seg.writable then pteWritable else 0) |||
    (if seg.executable then 0 else pteNx)

/-- An image that `elf64_validate` accepts and that was read completely, and the
stack that `_setup_user_stack_args` prepares for it. -/
structure Program where
  imageSize : Nat
  rawImage : Nat → Index → Entry
  segments : List Segment
  userStack : Nat → Index → Entry

def Program.rawPages (program : Program) : Nat :=
  let rawPages := (program.imageSize + pageSize - 1) / pageSize
  if rawPages = 0 then 1 else rawPages

/-- The inode behind `/dev/input/input0`. -/
structure Stdin where
  inode : Entry
  iFop : Entry
  iPrivate : Entry
  nonzero : inode ≠ 0

/-- Writing whole pages through the direct map. -/
def fillPages (mem : Memory) (phys : Frame) (count : Nat) (contents : Nat → Index → Entry) : Memory :=
  (List.range count).foldl (fun mem i =>
    Function.update mem (phys + BitVec.ofNat 64 (i * pageSize)) (contents i)) mem

/-- How each block of a new process is made: `pmm_alloc_pages`, the writes to the
pages, and `map_4k_pages`. The address 0 counts as failure; what is given back then
does not matter here. -/
def mapNewBlock (pml4 : Frame) (va pages : Nat) (flags : Entry) (contents : Nat → Index → Entry)
    (m : Kernel) : Outcome (Option (Frame × Kernel)) := do
  let (phys, m) ← pmmAllocPages m pages
  let m := { m with mem := fillPages m.mem phys pages contents }
  if phys = 0 then pure none
  else do
    let m ← map4kPages m pml4 va phys pages flags
    pure (some (phys, m))

def loadSegment (pml4 : Frame) (seg : Segment) (m : Kernel) : Outcome (Option (Frame × Kernel)) :=
  mapNewBlock pml4 seg.vaddrAligned seg.segPages seg.mapFlags seg.contents m

def loadSegments (pml4 : Frame) (segments : List Segment) (m : Kernel) : Outcome (Option Kernel) :=
  match segments with
  | [] => pure (some m)
  | seg :: rest => withSome (loadSegment pml4 seg m) fun (_, m) => loadSegments pml4 rest m

def mapUserHeap (pml4 : Frame) (m : Kernel) : Outcome (Option (Frame × Kernel)) :=
  mapNewBlock pml4 defaultUserHeapStart defaultUserHeapPages
    (pteUser ||| pteWritable ||| pteLocalOwned) (fun _ _ => 0) m

def mapFileTable (pml4 : Frame) (m : Kernel) : Outcome (Option (Frame × Kernel)) :=
  mapNewBlock pml4 defaultFileTableStart defaultFileTablePages
    (pteWritable ||| pteLocalOwned) (fun _ _ => 0) m

def mapUserStack (pml4 : Frame) (userStack : Nat → Index → Entry) (m : Kernel) :
    Outcome (Option (Frame × Kernel)) :=
  mapNewBlock pml4 stackVaBase defaultStackPageAmount
    (pteWritable ||| pteNx ||| pteUser ||| pteLocalOwned) userStack m

/-- The address space part of `new_usproc`: it returns the physical address of the
file table. -/
def newUsprocSpace (kernelPagedirPhys pml4 : Frame) (userStack : Nat → Index → Entry) (m : Kernel) :
    Outcome (Option (Frame × Kernel)) :=
  withSome (mapUserHeap pml4 { m with mem := shareKernelHalf m.mem pml4 kernelPagedirPhys })
    fun (_, m) =>
  withSome (mapFileTable pml4 m) fun (files, m) =>
  withSome (mapUserStack pml4 userStack m) fun (_, m) => pure (some (files, m))

/-- `devfs_indev_open` on slot 0 of the file table at `files`. A `file` is eight
words: inode, position, flags, private data, operations, and three reserved ones. -/
def openStdin (mem : Memory) (files : Frame) (stdin : Stdin) : Memory :=
  write (write (write (write mem files 0 stdin.inode) files 1 0) files 4 stdin.iFop) files 3
    stdin.iPrivate

/-- The address space part of `load_elf_from_vfs`: the new PML4, or `none` for a
negative result. -/
def loadElfFromVfs (kernelPagedirPhys : Frame) (program : Program) (stdin : Stdin) (m : Kernel) :
    Outcome (Option (Frame × Kernel)) := do
  let (pml4, m) ← pmmAllocPages m 1
  let m := { m with mem := zeroPage m.mem pml4 }
  if pml4 = 0 then pure none
  else do
    let (raw, m) ← pmmAllocPages m program.rawPages
    let m := { m with mem := fillPages m.mem raw program.rawPages program.rawImage }
    if raw = 0 then pure none
    else
      withSome (loadSegments pml4 program.segments m) fun m =>
      withSome (newUsprocSpace kernelPagedirPhys pml4 program.userStack
        { m with frames := Pmm.pmmFreePages m.frames raw.toNat program.rawPages }) fun (files, m) =>
      pure (some (pml4, { m with mem := openStdin m.mem files stdin }))

/-- The place of an address within its page, in words. -/
def wordIndex (va : Nat) : Index := ⟨va / 8 % 512, Nat.mod_lt _ (by decide)⟩

/-- A word of memory at a virtual address, with `cr3` loaded. -/
def wordAt (mem : Memory) (cr3 : Frame) (va : Nat) : Option Entry :=
  (lookup mem cr3 va).map fun e => mem (frameOf e) (wordIndex va)

def readVirtual (mem : Memory) (cr3 : Frame) (va : Nat) : Outcome Entry :=
  match wordAt mem cr3 va with
  | none => .fault
  | some w => .ok w

def writeVirtual (mem : Memory) (cr3 : Frame) (va : Nat) (w : Entry) : Outcome Memory :=
  match lookup mem cr3 va with
  | none => .fault
  | some e => .ok (write mem (frameOf e) (wordIndex va) w)

def fileSize : Nat := 64

def fileWords : Nat := fileSize / 8

def fileAddr (table i : Nat) : Nat := table + i * fileSize

/-- What the system calls read of an open file. -/
structure FileView where
  fInode : Entry
  fPos : Entry
  fFlags : BitVec 32
  fdFlags : BitVec 32
  fOps : Entry
  deriving DecidableEq

/-- Entry `i` of the file table at the address `table`. -/
def fileAt (mem : Memory) (cr3 : Frame) (table i : Nat) : Option FileView := do
  let fInode ← wordAt mem cr3 (fileAddr table i)
  let fPos ← wordAt mem cr3 (fileAddr table i + 8)
  let flags ← wordAt mem cr3 (fileAddr table i + 16)
  let fOps ← wordAt mem cr3 (fileAddr table i + 32)
  pure { fInode, fPos, fFlags := flags.setWidth 32, fdFlags := (flags >>> 32).setWidth 32, fOps }

def copyFile (cr3 : Frame) (dst src : Nat) (mem : Memory) : Outcome Memory :=
  (List.range fileWords).foldlM (fun mem k => do
    let w ← readVirtual mem cr3 (src + k * 8)
    writeVirtual mem cr3 (dst + k * 8) w) mem

def clearFile (cr3 : Frame) (dst : Nat) (mem : Memory) : Outcome Memory :=
  (List.range fileWords).foldlM (fun mem k => writeVirtual mem cr3 (dst + k * 8) 0) mem

def moveFile (cr3 : Frame) (src dst : Nat) (mem : Memory) (i : Nat) : Outcome Memory := do
  let fInode ← readVirtual mem cr3 (fileAddr src i)
  if fInode = 0 then pure mem
  else do
    let mem ← copyFile cr3 (fileAddr dst i) (fileAddr src i) mem
    clearFile cr3 (fileAddr src i) mem

/-- The descriptor loop of `exec_elf_from_vfs`. It runs with the page table of the
old process loaded. -/
def moveFiles (cr3 : Frame) (src dst : Nat) (mem : Memory) : Outcome Memory :=
  (List.range 256).foldlM (moveFile cr3 src dst) mem

/-- The memory part of `exec_elf_from_vfs` called by `proc`: the new PML4, or `none`
when the program could not be loaded. -/
def execElfFromVfs (kernelPagedirPhys : Frame) (proc : Parent) (program : Program) (stdin : Stdin)
    (m : Kernel) : Outcome (Option (Frame × Kernel)) :=
  withSome (loadElfFromVfs kernelPagedirPhys program stdin m) fun (newPml4, m) => do
    let mem ← moveFiles proc.cr3 proc.openedFileTable defaultFileTableStart m.mem
    pure (some (newPml4, { m with mem }))

end CreeperKernel.Exec
