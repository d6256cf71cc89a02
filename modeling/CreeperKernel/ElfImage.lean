import CreeperKernel.ExecImage
import CreeperKernel.WordBytes

namespace CreeperKernel.Exec

open Vmm Fork FallibleLoops WordBytes
open Pmm (pageSize)
open RadixTree (write)

abbrev Byte := BitVec 8

/-- A byte of `raw`. The pages were zeroed before the file was read into them. -/
def imageByte (image : List Byte) (offset : Nat) : Byte := image[offset]?.getD 0

/-- A little-endian field of some bytes. -/
def field (image : List Byte) (offset : Nat) : Nat → Nat
  | 0 => 0
  | width + 1 => (imageByte image offset).toNat + 256 * field image (offset + 1) width

def eType (image : List Byte) : Nat := field image 16 2
def eMachine (image : List Byte) : Nat := field image 18 2
def ePhoff (image : List Byte) : Nat := field image 32 8
def ePhnum (image : List Byte) : Nat := field image 56 2

def eNoexec : Int := 8

def elf64Validate (image : List Byte) : Int :=
  if imageByte image 0 ≠ 0x7F ∨ imageByte image 1 ≠ 0x45 ∨ imageByte image 2 ≠ 0x4C ∨ imageByte image 3 ≠ 0x46 then
    -eNoexec
  else if imageByte image 4 ≠ 2 then -eNoexec
  else if imageByte image 5 ≠ 1 then -eNoexec
  else if eMachine image ≠ 62 then -eNoexec
  else if eType image ≠ 2 then -eNoexec
  else if ePhnum image = 0 ∨ ePhoff image = 0 then -eNoexec
  else 0

structure Phdr where
  pType : Nat
  pFlags : Nat
  pOffset : Nat
  pVaddr : Nat
  pFilesz : Nat
  pMemsz : Nat

def phdrSize : Nat := 56

def phdrAt (image : List Byte) (i : Nat) : Phdr :=
  let ph := ePhoff image + i * phdrSize
  { pType := field image ph 4
    pFlags := field image (ph + 4) 4
    pOffset := field image (ph + 8) 8
    pVaddr := field image (ph + 16) 8
    pFilesz := field image (ph + 32) 8
    pMemsz := field image (ph + 40) 8 }

def phdrs (image : List Byte) : List Phdr := (List.range (ePhnum image)).map (phdrAt image)

def ptLoad : Nat := 1

def Phdr.pfW (ph : Phdr) : Bool := ph.pFlags.testBit 1

def Phdr.pfX (ph : Phdr) : Bool := ph.pFlags.testBit 0

def Phdr.vaddrAligned (ph : Phdr) : Nat := ph.pVaddr / pageSize * pageSize

def Phdr.pageOffset (ph : Phdr) : Nat := ph.pVaddr % pageSize

def Phdr.segPages (ph : Phdr) : Nat :=
  let segSpan := (ph.pageOffset + ph.pMemsz) % 2 ^ 64
  let segPages := (segSpan + pageSize - 1) % 2 ^ 64 / pageSize
  if segPages = 0 then 1 else segPages

def Phdr.mapFlags (ph : Phdr) : Entry :=
  ptePresent ||| pteUser ||| pteLocalOwned ||| (if ph.pfW then pteWritable else 0) ||| (if ph.pfX then 0 else pteNx)

/-- A store of one byte through the direct map. -/
def storePhys (mem : Memory) (addr : Nat) (b : Byte) : Memory :=
  write mem (pageAt (addr / pageSize)) (wordIndex addr)
    (setByte (mem (pageAt (addr / pageSize)) (wordIndex addr)) (addr % 8) b)

/-- `memcpy` of these bytes to the physical address `dst`. -/
def memcpy (mem : Memory) (dst : Nat) : List Byte → Memory
  | [] => mem
  | b :: rest => memcpy (storePhys mem dst b) (dst + 1) rest

/-- The bytes that the file has for a segment. -/
def Phdr.source (ph : Phdr) (image : List Byte) : List Byte :=
  (List.range ph.pFilesz).map fun k => imageByte image (ph.pOffset + k)

/-- One round of the segment loop; `none` is the return with `-E_NOMEM`. -/
def loadPhdr (pml4 : Frame) (image : List Byte) (ph : Phdr) (m : Kernel) : Outcome (Option Kernel) :=
  if ph.pType ≠ ptLoad then pure (some m) else do
  let (segPhys, m) ← pmmAllocPages m ph.segPages
  let m := { m with mem := fillPages m.mem segPhys ph.segPages fun _ _ => 0 }
  if segPhys = 0 then pure none else do
  let mem := if 0 < ph.pFilesz then memcpy m.mem (segPhys.toNat + ph.pageOffset) (ph.source image) else m.mem
  let m ← map4kPages { m with mem } pml4 ph.vaddrAligned segPhys ph.segPages ph.mapFlags
  pure (some m)

def loadPhdrs (pml4 : Frame) (image : List Byte) : List Phdr → Kernel → Outcome (Option Kernel)
  | [], m => pure (some m)
  | ph :: rest, m => withSome (loadPhdr pml4 image ph m) fun m => loadPhdrs pml4 image rest m

/-- The pages that the file is read into. -/
def imageWords (image : List Byte) (page : Nat) (i : Index) : Entry :=
  wordOf fun k => imageByte image (page * pageSize + i * 8 + k)

def rawPages (image : List Byte) : Nat :=
  let rawPages := (image.length + pageSize - 1) / pageSize
  if rawPages = 0 then 1 else rawPages

/-- `load_elf_from_vfs` up to the end of the segment loop, for a file that was read
completely; `none` for a negative result. -/
def loadElfSegments (image : List Byte) (m : Kernel) : Outcome (Option (Frame × Kernel)) := do
  let (pml4, m) ← pmmAllocPages m 1
  let m := { m with mem := zeroPage m.mem pml4 }
  if pml4 = 0 then pure none
  else do
    let (raw, m) ← pmmAllocPages m (rawPages image)
    let m := { m with mem := fillPages m.mem raw (rawPages image) (imageWords image) }
    if raw = 0 then pure none
    else if elf64Validate image < 0 then pure none
    else withSome (loadPhdrs pml4 image (phdrs image) m) fun m => pure (some (pml4, m))

/-- The byte at a virtual address, with `cr3` loaded. -/
def byteAt (mem : Memory) (cr3 : Frame) (va : Nat) : Option Byte :=
  (wordAt mem cr3 va).map fun w => byteOf w (va % 8)

end CreeperKernel.Exec
