import Mathlib.Data.BitVec

namespace CreeperKernel.Vmm

/-- A page-table entry, and any other 64-bit word of a page. -/
abbrev Entry := BitVec 64

abbrev Frame := BitVec 64

def ptePresent : Entry := 1 <<< 0
def pteWritable : Entry := 1 <<< 1
def pteUser : Entry := 1 <<< 2
def pteHuge : Entry := 1 <<< 7
def pteLocalOwned : Entry := 1 <<< 9
def pteNx : Entry := 1 <<< 63
def pteAddrMask : Entry := 0x000FFFFFFFFFF000

/-- The permission bits that `table_get_or_create` hands on to the upper levels. -/
def permMask : Entry := pteWritable ||| pteUser ||| pteLocalOwned

def isPresent (e : Entry) : Bool := e &&& ptePresent != 0
def isHuge (e : Entry) : Bool := e &&& pteHuge != 0
def isOwned (e : Entry) : Bool := e &&& pteLocalOwned != 0

/-- `e & PTE_ADDR_MASK` -/
def frameOf (e : Entry) : Frame := e &&& pteAddrMask

theorem and_twoPow_ne_zero (e : Entry) {i : Nat} (inside : i < 64) : (e &&& BitVec.twoPow 64 i != 0) = e.getLsbD i := by
  rw [BitVec.and_twoPow]
  cases e.getLsbD i with
  | false => simp
  | true =>
    simp only [↓reduceIte, bne_iff_ne]
    intro zero
    have bit := congrArg (fun x => x.getLsbD i) zero
    simp [inside] at bit

theorem isPresent_eq (e : Entry) : isPresent e = e.getLsbD 0 :=
  and_twoPow_ne_zero e (i := 0) (by decide)

theorem isHuge_eq (e : Entry) : isHuge e = e.getLsbD 7 :=
  and_twoPow_ne_zero e (i := 7) (by decide)

theorem isOwned_eq (e : Entry) : isOwned e = e.getLsbD 9 :=
  and_twoPow_ne_zero e (i := 9) (by decide)

@[simp] theorem isPresent_zero : isPresent 0#64 = false := by decide

theorem isPresent_or (a b : Entry) : isPresent (a ||| b) = (isPresent a || isPresent b) := by
  simp [isPresent_eq]

theorem isHuge_or (a b : Entry) : isHuge (a ||| b) = (isHuge a || isHuge b) := by
  simp [isHuge_eq]

theorem isOwned_or (a b : Entry) : isOwned (a ||| b) = (isOwned a || isOwned b) := by
  simp [isOwned_eq]

theorem frameOf_or (a b : Entry) : frameOf (a ||| b) = frameOf a ||| frameOf b := by
  apply BitVec.eq_of_getLsbD_eq
  intro i _
  simp only [frameOf, BitVec.getLsbD_and, BitVec.getLsbD_or, Bool.and_or_distrib_right]

@[simp] theorem frameOf_frameOf (e : Entry) : frameOf (frameOf e) = frameOf e := by
  simp only [frameOf, BitVec.and_assoc, BitVec.and_self]

theorem isPresent_and (a b : Entry) : isPresent (a &&& b) = (isPresent a && isPresent b) := by
  simp [isPresent_eq]

theorem isHuge_and (a b : Entry) : isHuge (a &&& b) = (isHuge a && isHuge b) := by
  simp [isHuge_eq]

@[simp] theorem isHuge_frameOf (e : Entry) : isHuge (frameOf e) = false := by
  have mask : isHuge pteAddrMask = false := by decide
  simp [frameOf, isHuge_and, mask]

@[simp] theorem isPresent_perms (flags : Entry) : isPresent (flags &&& permMask) = false := by
  have mask : isPresent permMask = false := by decide
  simp [isPresent_and, mask]

@[simp] theorem isHuge_perms (flags : Entry) : isHuge (flags &&& permMask) = false := by
  have mask : isHuge permMask = false := by decide
  simp [isHuge_and, mask]

@[simp] theorem frameOf_perms (flags : Entry) : frameOf (flags &&& permMask) = 0 := by
  have apart : permMask &&& pteAddrMask = 0 := by decide
  rw [frameOf, BitVec.and_assoc, apart]
  exact BitVec.and_zero

@[simp] theorem frameOf_ptePresent : frameOf ptePresent = 0 := by decide
@[simp] theorem isPresent_ptePresent : isPresent ptePresent = true := by decide
@[simp] theorem isHuge_ptePresent : isHuge ptePresent = false := by decide

/-- The entry `table_get_or_create` installs for a new table. -/
def tableEntry (phys : Frame) (flags : Entry) : Entry :=
  (phys &&& pteAddrMask) ||| ptePresent ||| (flags &&& permMask)

/-- The entry `map_4k` installs for a page. -/
def leafEntry (pa : Frame) (flags : Entry) : Entry := (pa &&& pteAddrMask) ||| flags ||| ptePresent

@[simp] theorem isPresent_tableEntry (phys : Frame) (flags : Entry) : isPresent (tableEntry phys flags) = true := by
  simp [tableEntry, isPresent_or]

@[simp] theorem isHuge_tableEntry (phys : Frame) (flags : Entry) : isHuge (tableEntry phys flags) = false := by
  have address : isHuge (phys &&& pteAddrMask) = false := isHuge_frameOf phys
  simp [tableEntry, isHuge_or, address]

@[simp] theorem frameOf_tableEntry (phys : Frame) (flags : Entry) : frameOf (tableEntry phys flags) = frameOf phys := by
  have address : frameOf (phys &&& pteAddrMask) = frameOf phys := frameOf_frameOf phys
  simp [tableEntry, frameOf_or, address]

@[simp] theorem isPresent_leafEntry (pa : Frame) (flags : Entry) : isPresent (leafEntry pa flags) = true := by
  simp [leafEntry, isPresent_or]

theorem frameOf_leafEntry (pa : Frame) {flags : Entry} (clean : flags &&& pteAddrMask = 0) :
    frameOf (leafEntry pa flags) = frameOf pa := by
  have address : frameOf (pa &&& pteAddrMask) = frameOf pa := frameOf_frameOf pa
  have none : frameOf flags = 0 := clean
  simp [leafEntry, frameOf_or, address, none]

end CreeperKernel.Vmm
