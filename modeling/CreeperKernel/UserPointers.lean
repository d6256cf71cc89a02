import CreeperKernel.FileCalls

namespace CreeperKernel.UserPointers

open Vfs (eInval eNomem eAcces slot)

abbrev Word := BitVec 64

def eChild : Int := 10
def eRange : Int := 34

def userVaddrLimit : Nat := 0x800000000000

/-- The bytes that the loops of `copy_to_user` and `copy_from_user` reach through the user's pointer. There is no check. -/
def copied (pointer : Word) (n : Nat) : List Word := (List.range n).map fun i => pointer + BitVec.ofNat 64 i

/-- What a call returns, and the addresses it wrote through the user's pointer or read into what the user can see. -/
structure Reply where
  value : Int
  touched : List Word

def fail (e : Int) : Reply := ⟨-e, []⟩

/-- What the calls on a descriptor find: the file table, a file with the operation in the entry, memory for the kernel's
copy, the access mode, and what the operation returns. `shown` bytes are printed by the log. -/
structure Found where
  table : Bool
  operation : Bool
  kbuf : Bool
  permitted : Bool
  ret : Int
  shown : Nat

/-- The checks of the calls on a descriptor. -/
def onFile (fd : Int) (buf : Word) (found : Found) (body : Reply) : Reply :=
  if buf = 0 then fail eInval
  else if found.table = false then fail eInval
  else if slot fd = none then fail eInval
  else if found.operation = false then fail eInval
  else if found.kbuf = false then fail eNomem
  else body

def Found.result (found : Found) : Int := if found.permitted then found.ret else -eAcces

def sysRead (fd : Int) (buf : Word) (found : Found) : Reply :=
  onFile fd buf found ⟨found.result, if 0 < found.result then copied buf found.result.toNat else []⟩

/-- `sys_write`. The log prints the buffer itself. The copy for a file is seen by the user once `write` has taken it. -/
def sysWrite (fd : Int) (buf count : Word) (found : Found) : Reply :=
  if fd = 1 ∨ fd = 2 then ⟨count.toInt, copied buf found.shown⟩
  else onFile fd buf found ⟨found.result, if 0 ≤ found.result then copied buf count.toNat else []⟩

/-- `sys_getcwd`; `path` is the length of what `kpath_reverse` gave, without its end. -/
def sysGetcwd (buf size : Word) (cwd : Bool) (path : Option Nat) : Reply :=
  if buf = 0 ∨ size = 0 then fail eInval
  else if cwd = false then fail eInval
  else match path with
  | none => fail eNomem
  | some len => if size.toNat < len + 1 then fail eRange else ⟨buf.toInt, copied buf (len + 1)⟩

def utsnameSize : Nat := 5 * 65

def sysUname (ptr : Word) : Reply := if ptr = 0 then fail eInval else ⟨0, copied ptr utsnameSize⟩

def sysGetdents64 (fd : Int) (dirp count : Word) (found : Found) : Reply :=
  if count = 0 then fail eInval
  else onFile fd dirp found ⟨found.ret, if 0 < found.ret then copied dirp found.ret.toNat else []⟩

/-- How the search for a child in `sys_wait4` ends. -/
inductive WaitEnd where
  | noChild
  | badPid
  | running
  | zombie (pid : Nat)

/-- `sys_wait4`, from where the search for a child has ended. -/
def sysWait4 (wstatus : Word) : WaitEnd → Reply
  | .noChild => fail eChild
  | .badPid => fail eInval
  | .running => ⟨0, []⟩
  | .zombie pid => ⟨pid, if wstatus ≠ 0 then copied wstatus 4 else []⟩

/-- The clocks of `sys_clock_gettime`, first those that count from boot. -/
def clocks : List Int := [7, 1, 6, 4, 0, 5]

def timespecSize : Nat := 16

def sysClockGettime (clock : Int) (timSp : Word) : Reply :=
  if clock ∈ clocks then ⟨0, copied timSp timespecSize⟩ else fail eInval

/-- `copy_size` in `sys_getgroups`, an `int` that `copy_to_user` takes as `unsigned long`. -/
def groupsCopied (size : Word) (ngroups : BitVec 32) : Nat :=
  let grpSize : BitVec 32 := 4 * ngroups
  let copySize : BitVec 32 := if size < grpSize.signExtend 64 then size.setWidth 32 else grpSize
  (copySize.signExtend 64).toNat

def sysGetgroups (size list : Word) (ngroups : BitVec 32) : Reply := ⟨ngroups.toInt, copied list (groupsCopied size ngroups)⟩

/-- A call with its arguments and what the rest of the kernel answers to it. -/
inductive Call where
  | read (fd : Int) (buf count : Word) (found : Found)
  | write (fd : Int) (buf count : Word) (found : Found)
  | getcwd (buf size : Word) (cwd : Bool) (path : Option Nat)
  | uname (ptr : Word)
  | getdents64 (fd : Int) (dirp count : Word) (found : Found)
  | wait4 (wstatus : Word) (result : WaitEnd)
  | clockGettime (clock : Int) (timSp : Word)
  | getgroups (size list : Word) (ngroups : BitVec 32)

def Call.reply : Call → Reply
  | .read fd buf _ found => sysRead fd buf found
  | .write fd buf count found => sysWrite fd buf count found
  | .getcwd buf size cwd path => sysGetcwd buf size cwd path
  | .uname ptr => sysUname ptr
  | .getdents64 fd dirp count found => sysGetdents64 fd dirp count found
  | .wait4 wstatus result => sysWait4 wstatus result
  | .clockGettime clock timSp => sysClockGettime clock timSp
  | .getgroups size list ngroups => sysGetgroups size list ngroups

/-- The user's buffer: where it starts, and its length. -/
def Call.buffer : Call → Word × Nat
  | .read _ buf count _ => (buf, count.toNat)
  | .write _ buf count _ => (buf, count.toNat)
  | .getcwd buf size _ _ => (buf, size.toNat)
  | .uname ptr => (ptr, utsnameSize)
  | .getdents64 _ dirp count _ => (dirp, count.toNat)
  | .wait4 wstatus _ => (wstatus, 4)
  | .clockGettime _ timSp => (timSp, timespecSize)
  | .getgroups size list _ => (list, size.toNat)

/-- Some byte of the buffer lies at or above the limit, counted without wrapping. -/
def Call.Outside (c : Call) : Prop := 0 < c.buffer.2 ∧ userVaddrLimit < c.buffer.1.toNat + c.buffer.2

/-- The call failed and left the kernel's half alone. -/
structure Reply.Safe (r : Reply) : Prop where
  negative : r.value < 0
  below : ∀ a ∈ r.touched, a.toNat < userVaddrLimit

/-- The descriptor leads to no file with the operation, or there is no memory for the copy. -/
def Found.Refuses (found : Found) (fd : Int) (buf : Word) : Prop :=
  buf = 0 ∨ found.table = false ∨ slot fd = none ∨ found.operation = false ∨ found.kbuf = false

/-- The call fails for a reason other than where the buffer lies. A count or a number of groups above the signed range is
returned as it is and reads as a negative number. -/
def Call.Refused : Call → Prop
  | .read fd buf _ found => found.Refuses fd buf ∨ found.result < 0
  | .write fd buf count found =>
    if fd = 1 ∨ fd = 2 then 2 ^ 63 ≤ count.toNat ∧ ∀ a ∈ copied buf found.shown, a.toNat < userVaddrLimit
    else found.Refuses fd buf ∨ found.result < 0
  | .getcwd buf size cwd path => buf = 0 ∨ size = 0 ∨ cwd = false ∨ ∀ len ∈ path, size.toNat < len + 1
  | .uname ptr => ptr = 0
  | .getdents64 fd dirp count found => count = 0 ∨ found.Refuses fd dirp ∨ found.ret < 0
  | .wait4 _ result => result = .noChild ∨ result = .badPid
  | .clockGettime clock _ => clock ∉ clocks
  | .getgroups size list ngroups =>
    2 ^ 31 ≤ ngroups.toNat ∧ ∀ a ∈ copied list (groupsCopied size ngroups), a.toNat < userVaddrLimit

section Replies

variable {r : Reply} {e : Int} {buf : Word}

theorem fail_safe (positive : 0 < e) : (fail e).Safe :=
  ⟨by show -e < 0; omega, fun _ none_ => absurd none_ List.not_mem_nil⟩

theorem not_safe_of_nonneg (served : 0 ≤ r.value) : ¬ r.Safe := fun safe => absurd safe.negative (by omega)

theorem mem_copied {n : Nat} (positive : 0 < n) : buf ∈ copied buf n :=
  List.mem_map.mpr ⟨0, List.mem_range.mpr positive, BitVec.add_zero buf⟩

theorem operation_safe_iff {ret : Int} {touched : List Word} (nothing : ret < 0 → touched = []) :
    (Reply.mk ret touched).Safe ↔ ret < 0 := by
  constructor
  · exact fun safe => safe.negative
  · intro negative
    refine ⟨negative, fun a member => ?_⟩
    rw [nothing negative] at member
    exact absurd member List.not_mem_nil

end Replies

theorem onFile_safe_iff (fd : Int) (buf : Word) (found : Found) (body : Reply) :
    (onFile fd buf found body).Safe ↔ found.Refuses fd buf ∨ body.Safe := by
  have inval : (fail eInval).Safe := fail_safe (by decide)
  have nomem : (fail eNomem).Safe := fail_safe (by decide)
  unfold onFile Found.Refuses
  split_ifs with h₁ h₂ h₃ h₄ h₅
  · exact iff_of_true inval (by tauto)
  · exact iff_of_true inval (by tauto)
  · exact iff_of_true inval (by tauto)
  · exact iff_of_true inval (by tauto)
  · exact iff_of_true nomem (by tauto)
  · tauto

theorem sysRead_safe_iff (fd : Int) (buf : Word) (found : Found) :
    (sysRead fd buf found).Safe ↔ found.Refuses fd buf ∨ found.result < 0 := by
  rw [sysRead, onFile_safe_iff, operation_safe_iff fun negative => if_neg (by omega)]

theorem sysWrite_safe_iff (fd : Int) (buf count : Word) (found : Found) : (sysWrite fd buf count found).Safe ↔
    if fd = 1 ∨ fd = 2 then 2 ^ 63 ≤ count.toNat ∧ ∀ a ∈ copied buf found.shown, a.toNat < userVaddrLimit
    else found.Refuses fd buf ∨ found.result < 0 := by
  unfold sysWrite
  by_cases console : fd = 1 ∨ fd = 2
  · rw [if_pos console, if_pos console]
    have sign : count.toInt < 0 ↔ 2 ^ 63 ≤ count.toNat := by
      rw [BitVec.toInt_neg_iff]
      omega
    constructor
    · exact fun safe => ⟨sign.mp safe.negative, safe.below⟩
    · exact fun ⟨large, below⟩ => ⟨sign.mpr large, below⟩
  · rw [if_neg console, if_neg console, onFile_safe_iff, operation_safe_iff fun negative => if_neg (by omega)]

theorem sysGetdents64_safe_iff (fd : Int) (dirp count : Word) (found : Found) :
    (sysGetdents64 fd dirp count found).Safe ↔ count = 0 ∨ found.Refuses fd dirp ∨ found.ret < 0 := by
  unfold sysGetdents64
  by_cases empty : count = 0
  · rw [if_pos empty]
    exact iff_of_true (fail_safe (by decide)) (.inl empty)
  · rw [if_neg empty, onFile_safe_iff, operation_safe_iff fun negative => if_neg (by omega)]
    exact (or_iff_right empty).symm

/-- The pointer that `sys_getcwd` returns can read as a negative number, but then it was written through. -/
theorem sysGetcwd_safe_iff (buf size : Word) (cwd : Bool) (path : Option Nat) : (sysGetcwd buf size cwd path).Safe ↔
    buf = 0 ∨ size = 0 ∨ cwd = false ∨ ∀ len ∈ path, size.toNat < len + 1 := by
  have inval : (fail eInval).Safe := fail_safe (by decide)
  unfold sysGetcwd
  split_ifs with h₁ h₂
  · exact iff_of_true inval (by tauto)
  · exact iff_of_true inval (by tauto)
  · cases path with
    | none => exact iff_of_true (fail_safe (by decide)) (.inr (.inr (.inr fun _ none_ => nomatch none_)))
    | some len =>
      dsimp only
      split_ifs with small
      · refine iff_of_true (fail_safe (by decide)) (.inr (.inr (.inr fun other same => ?_)))
        cases same
        exact small
      · apply iff_of_false
        · intro safe
          have below := safe.below buf (mem_copied (Nat.succ_pos len))
          have negative : buf.toInt < 0 := safe.negative
          rw [BitVec.toInt_neg_iff] at negative
          simp only [userVaddrLimit] at below
          omega
        · intro refused
          rcases refused with zero | zero | none_ | short
          · exact h₁ (.inl zero)
          · exact h₁ (.inr zero)
          · exact h₂ none_
          · exact small (short len rfl)

theorem sysGetgroups_safe_iff (size list : Word) (ngroups : BitVec 32) : (sysGetgroups size list ngroups).Safe ↔
    2 ^ 31 ≤ ngroups.toNat ∧ ∀ a ∈ copied list (groupsCopied size ngroups), a.toNat < userVaddrLimit := by
  have sign : ngroups.toInt < 0 ↔ 2 ^ 31 ≤ ngroups.toNat := by
    rw [BitVec.toInt_neg_iff]
    omega
  constructor
  · exact fun safe => ⟨sign.mp safe.negative, safe.below⟩
  · exact fun ⟨large, below⟩ => ⟨sign.mpr large, below⟩

theorem sysWait4_safe_iff (wstatus : Word) (result : WaitEnd) :
    (sysWait4 wstatus result).Safe ↔ result = .noChild ∨ result = .badPid := by
  cases result with
  | noChild => exact iff_of_true (fail_safe (by decide)) (.inl rfl)
  | badPid => exact iff_of_true (fail_safe (by decide)) (.inr rfl)
  | running => exact iff_of_false (not_safe_of_nonneg (Int.le_refl 0)) (by simp)
  | zombie pid => exact iff_of_false (not_safe_of_nonneg (Int.natCast_nonneg pid)) (by simp)

/-- Wherever its buffer lies, a call is safe just if it fails for another reason: no call looks at the range. -/
theorem user_pointers_guarded_iff (c : Call) : c.reply.Safe ↔ c.Refused := by
  cases c with
  | read fd buf count found => exact sysRead_safe_iff fd buf found
  | write fd buf count found => exact sysWrite_safe_iff fd buf count found
  | getcwd buf size cwd path => exact sysGetcwd_safe_iff buf size cwd path
  | uname ptr =>
    show (sysUname ptr).Safe ↔ ptr = 0
    unfold sysUname
    split_ifs with zero
    · exact iff_of_true (fail_safe (by decide)) zero
    · exact iff_of_false (not_safe_of_nonneg (Int.le_refl 0)) zero
  | getdents64 fd dirp count found => exact sysGetdents64_safe_iff fd dirp count found
  | wait4 wstatus result => exact sysWait4_safe_iff wstatus result
  | clockGettime clock timSp =>
    show (sysClockGettime clock timSp).Safe ↔ clock ∉ clocks
    unfold sysClockGettime
    split_ifs with known
    · exact iff_of_false (not_safe_of_nonneg (Int.le_refl 0)) (not_not_intro known)
    · exact iff_of_true (fail_safe (by decide)) known
  | getgroups size list ngroups => exact sysGetgroups_safe_iff size list ngroups

/-- `uname` with a pointer into the kernel writes there and returns 0. -/
theorem uname_writes_kernel : (Call.uname 0xFFFF800000000000).Outside ∧ ¬ (Call.uname 0xFFFF800000000000).reply.Safe ∧
    (0xFFFF800000000000 : Word) ∈ (Call.uname 0xFFFF800000000000).reply.touched :=
  ⟨⟨by decide, by decide⟩, not_safe_of_nonneg (Int.le_refl 0), mem_copied (by decide)⟩

end CreeperKernel.UserPointers
