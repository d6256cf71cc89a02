import CreeperKernel.ByteBlocks

namespace CreeperKernel.RamFiles

open ByteBlocks Overwrites

abbrev Byte := BitVec 8

/-- The kernel's view of memory. -/
abbrev Memory := BitVec 64 → Byte

def eInval : BitVec 64 := 22

structure RamfileInfo where
  start : BitVec 64
  size : BitVec 64
  fixedSize : Bool
  deriving DecidableEq

/-- An inode whose `i_private` is the `ramfile_info`. -/
structure Inode where
  iSize : BitVec 64
  info : RamfileInfo
  deriving DecidableEq

def seekSet : BitVec 32 := 0
def seekCur : BitVec 32 := 1
def seekEnd : BitVec 32 := 2

/-- `ramfile_lseek`: the result and the new `f_pos`. -/
def ramfileLseek (inode : Inode) (fPos offset : BitVec 64) (origin : BitVec 32) : BitVec 64 × BitVec 64 :=
  if origin = seekSet then (offset, offset)
  else if origin = seekCur then (fPos + offset, fPos + offset)
  else if origin = seekEnd then (inode.iSize + offset, inode.iSize + offset)
  else (-eInval, fPos)

/-- What a read returns: the value, the bytes in the buffer and the new `*offset`. -/
structure ReadResult where
  ret : BitVec 64
  bytes : List Byte
  offset : BitVec 64
  deriving DecidableEq

def ramfileRead (mem : Memory) (inode : Inode) (count offset : BitVec 64) : ReadResult :=
  let info := inode.info
  if info.start = 0 then ⟨-eInval, [], offset⟩ else
  if info.size = 0 then ⟨0, [], offset⟩ else
  -- the difference is unsigned
  let bytesLeft := info.size - offset
  let bytesToRead := if count < bytesLeft then count else bytesLeft
  ⟨bytesToRead, load mem (info.start + offset) bytesToRead.toNat, offset + bytesToRead⟩

def content (mem : Memory) (info : RamfileInfo) : List Byte := load mem info.start info.size.toNat

/-- A read returns the bytes of the file from `offset` up to `offset + count`, as far as there are
any, and moves the offset by their number. -/
structure ReadsFile (mem : Memory) (inode : Inode) (count offset : BitVec 64) (result : ReadResult) : Prop where
  bytes : result.bytes = ((content mem inode.info).drop offset.toNat).take count.toNat
  ret : result.ret.toNat = result.bytes.length
  atEnd : inode.info.size.toNat ≤ offset.toNat → result.ret = 0
  offset : result.offset = offset + result.ret

section Reading

variable {mem : Memory} {inode : Inode} {count offset : BitVec 64}

theorem toNat_min (x y : BitVec 64) : (if x < y then x else y).toNat = min x.toNat y.toNat := by
  split
  · rename_i less
    have order : x.toNat < y.toNat := less
    omega
  · rename_i more
    have order : y.toNat ≤ x.toNat := BitVec.not_lt.mp more
    omega

theorem address_eq (start offset : BitVec 64) : start + offset = start + BitVec.ofNat 64 offset.toNat := by
  rw [BitVec.ofNat_toNat, BitVec.setWidth_eq]

theorem ramfileRead_inside (allocated : inode.info.start ≠ 0) (some' : inode.info.size ≠ 0)
    (inside : offset.toNat ≤ inode.info.size.toNat) :
    ReadsFile mem inode count offset (ramfileRead mem inode count offset) := by
  have left : (inode.info.size - offset).toNat = inode.info.size.toNat - offset.toNat :=
    BitVec.toNat_sub_of_le inside
  have number := toNat_min count (inode.info.size - offset)
  rw [left] at number
  unfold ramfileRead
  rw [if_neg allocated, if_neg some']
  refine ⟨?_, ?_, fun ended => ?_, rfl⟩
  · dsimp only
    rw [number, content, take_drop_load _ _ inside, address_eq]
  · rw [length_load]
  · apply BitVec.eq_of_toNat_eq
    dsimp only
    rw [number, Nat.sub_eq_zero_of_le ended, Nat.min_zero]
    rfl

theorem ramfileRead_nothing (allocated : inode.info.start ≠ 0) (nothing : inode.info.size = 0 ∨ count = 0) :
    ReadsFile mem inode count offset (ramfileRead mem inode count offset) := by
  have result : ramfileRead mem inode count offset = ⟨0, [], offset⟩ := by
    unfold ramfileRead
    rw [if_neg allocated]
    split
    · rfl
    · rename_i some'
      have none : count = 0 := nothing.resolve_left some'
      have zero : (if count < inode.info.size - offset then count else inode.info.size - offset) = 0 := by
        apply BitVec.eq_of_toNat_eq
        rw [toNat_min, none]
        exact Nat.zero_min _
      dsimp only
      rw [zero]
      simp
  rw [result]
  refine ⟨?_, rfl, fun _ => rfl, (BitVec.add_zero offset).symm⟩
  rcases nothing with empty | none
  · rw [content, empty]
    simp
  · rw [none]
    rfl

/-- Behind the end, the number of bytes left wraps around and is not zero. -/
theorem ramfileRead_behind (allocated : inode.info.start ≠ 0) (some' : inode.info.size ≠ 0) (asked : count ≠ 0)
    (behind : inode.info.size.toNat < offset.toNat) : (ramfileRead mem inode count offset).ret ≠ 0 := by
  have left : inode.info.size - offset ≠ 0 := by
    intro none
    have zero : (inode.info.size - offset).toNat = 0 := congrArg BitVec.toNat none
    have bound := offset.isLt
    rw [BitVec.toNat_sub] at zero
    omega
  unfold ramfileRead
  rw [if_neg allocated, if_neg some']
  dsimp only
  split
  · exact asked
  · exact left

end Reading

/-- A read stays inside the file exactly if it does not start behind the end, or has nothing to do. -/
theorem ramfile_read_exact_iff (mem : Memory) (inode : Inode) (allocated : inode.info.start ≠ 0)
    (count offset : BitVec 64) :
    ReadsFile mem inode count offset (ramfileRead mem inode count offset) ↔
      offset.toNat ≤ inode.info.size.toNat ∨ inode.info.size = 0 ∨ count = 0 := by
  constructor
  · intro reads
    by_contra outside
    obtain ⟨behind, some', asked⟩ := not_or.mp outside |>.imp id not_or.mp
    have more := Nat.lt_of_not_le behind
    exact ramfileRead_behind allocated some' asked more (reads.atEnd (Nat.le_of_lt more))
  · rintro (inside | nothing)
    · by_cases empty : inode.info.size = 0
      · exact ramfileRead_nothing allocated (.inl empty)
      · exact ramfileRead_inside allocated empty inside
    · exact ramfileRead_nothing allocated nothing

/-- Memory that holds the text `hello` at 0x1000, and a `*` two bytes behind it. -/
def helloMemory : Memory := store (fun _ => 0) 0x1000 [0x68, 0x65, 0x6C, 0x6C, 0x6F, 0, 0x2A]

def helloInode : Inode := ⟨5, 0x1000, 5, true⟩

theorem ramfile_read_exact_iff_tail : helloInode.info.start ≠ 0 ∧
    ReadsFile helloMemory helloInode 10 2 (ramfileRead helloMemory helloInode 10 2) ∧
    (ramfileRead helloMemory helloInode 10 2).bytes = [0x6C, 0x6C, 0x6F] :=
  ⟨by decide, (ramfile_read_exact_iff _ helloInode (by decide) 10 2).mpr (.inl (by decide)), by decide⟩

/-- `lseek(fd, 6, SEEK_SET)` and `read(fd, buf, 1)`: the byte is not one of the file. -/
theorem read_behind_end : ramfileLseek helloInode 0 6 seekSet = (6, 6) ∧
    (ramfileRead helloMemory helloInode 1 6).bytes = [0x2A] ∧
    ¬ ReadsFile helloMemory helloInode 1 6 (ramfileRead helloMemory helloInode 1 6) := by
  refine ⟨rfl, by decide, fun reads => ?_⟩
  have none := reads.atEnd (by decide)
  revert none
  decide

end CreeperKernel.RamFiles
