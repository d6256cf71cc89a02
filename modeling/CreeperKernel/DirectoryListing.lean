import CreeperKernel.Paging
import CreeperKernel.PathReversal

namespace CreeperKernel.Vfs

open Overwrites (overwrite take_overwrite length_overwrite)
open Paging (page pages)

/-- `offsetof(struct linux_dirent64, d_name)`: after `d_ino`, `d_off`, `d_reclen` and `d_type` -/
def nameOffset : Nat := 19

def dtDir : Byte := 4
def dtReg : Byte := 8

def dirent64Align (x : Nat) : Nat := (x + 7) / 8 * 8

/-- How much of the buffer the record for a name takes up. -/
def recordLength (name : Name) : Nat := dirent64Align (nameOffset + name.length + 1)

def littleEndian {w : Nat} (v : BitVec w) : List Byte := (List.range (w / 8)).map fun k => v.extractLsb' (8 * k) 8

/-- What a record says of its entry. -/
structure Entry where
  inode : Option Ptr
  dType : Byte
  name : Name

/-- The bytes written for the entry at index `idx`. The bytes up to the end of its record keep
what the buffer held. -/
def Entry.bytes (entry : Entry) (idx : Nat) : List Byte :=
  littleEndian (BitVec.ofNat 64 (entry.inode.getD 0)) ++ littleEndian (BitVec.ofNat 64 (idx + 1)) ++
    littleEndian (BitVec.ofNat 16 (recordLength entry.name)) ++ [entry.dType] ++ entry.name ++ [0]

/-- The fields of `struct file` that `vfs_getdents64` uses. The position counts the entries of
a list in memory, the sizes below count bytes there, and none of them overflows. -/
structure DirFile where
  fInode : Option Ptr
  fPos : Int
  deriving DecidableEq, Repr

/-- A write to the caller's buffer. -/
def putBytes (buf : List Byte) (bpos : Nat) (bytes : List Byte) : Except Stop (List Byte) :=
  if bpos + bytes.length ≤ buf.length then .ok (overwrite buf bpos bytes) else .error .dangling

/-- How a loop over entries ends: the function returns in it, perhaps with another position,
or it goes on behind it. -/
inductive Scan where
  | returned (ret : Int) (fPos : Option Int)
  | reached (idx bpos : Nat)

section Loops

variable (fs : Fs) (target : Int) (count : Nat)

def virtualLoop : List (Ptr × Name) → Nat → Nat → List Byte → Except Stop (Scan × List Byte)
  | [], idx, bpos, buf => .ok (.reached idx bpos, buf)
  | (p, name) :: rest, idx, bpos, buf =>
    if idx < target then virtualLoop rest (idx + 1) bpos buf
    else if bpos + recordLength name > count then
      if bpos = 0 then .ok (.returned (-eInval) none, buf) else .ok (.returned bpos (some idx), buf)
    else do
      let d ← fs.dentry p
      let buf ← putBytes buf bpos (Entry.bytes { inode := d.inode, dType := dtDir, name } idx)
      virtualLoop rest (idx + 1) (bpos + recordLength name) buf

def childType (child : Dentry) : Except Stop Byte :=
  match child.inode with
  | none => .ok dtReg
  | some i => do
    let inode ← fs.inode i
    .ok (if sIsdir inode.iMode then dtDir else dtReg)

def childLoop : List Ptr → Nat → Nat → List Byte → Except Stop (Scan × List Byte)
  | [], idx, bpos, buf => .ok (.reached idx bpos, buf)
  | p :: rest, idx, bpos, buf =>
    if idx < target then childLoop rest (idx + 1) bpos buf
    else do
      let child ← fs.dentry p
      if bpos + recordLength child.name > count then
        if bpos = 0 then .ok (.returned (-eInval) none, buf) else .ok (.reached idx bpos, buf)
      else do
        let dType ← childType fs child
        let buf ← putBytes buf bpos (Entry.bytes { inode := child.inode, dType, name := child.name } idx)
        childLoop rest (idx + 1) (bpos + recordLength child.name) buf

end Loops

/-- `vfs_getdents64` of a file and a buffer of `count` bytes, either of which may be NULL. -/
def vfsGetdents64 (fs : Fs) (file : Option DirFile) (buf : Option (List Byte)) (count : Nat) :
    Except Stop (Int × Option DirFile × Option (List Byte)) :=
  match file, buf with
  | some file, some buf =>
    match file.fInode with
    | none => .ok (-eInval, some file, some buf)
    | some i => do
      let inode ← fs.inode i
      if sIsdir inode.iMode then
        match inode.iDentry with
        | none => .ok (-eInval, some file, some buf)
        | some dir => do
          let d ← fs.dentry dir
          let (scan, buf) ←
            virtualLoop fs file.fPos count [(dir, dot), (d.parent.getD dir, dotdot)] 0 0 buf
          match scan with
          | .returned ret fPos => .ok (ret, some { file with fPos := fPos.getD file.fPos }, some buf)
          | .reached idx bpos => do
            let (scan, buf) ← childLoop fs file.fPos count d.children idx bpos buf
            match scan with
            | .returned ret fPos => .ok (ret, some { file with fPos := fPos.getD file.fPos }, some buf)
            | .reached idx bpos => .ok (bpos, some { file with fPos := idx }, some buf)
      else .ok (-eNotdir, some file, some buf)
  | file, buf => .ok (-eInval, file, buf)

/-- Some calls one after the other on the same file, each with a buffer: what each returns,
and the bytes it says it has written. -/
def listDirectory (fs : Fs) : Option DirFile → List (Nat × List Byte) → Except Stop (List (Int × List Byte))
  | _, [] => .ok []
  | file, (count, buf) :: rest => do
    let (ret, file, after) ← vfsGetdents64 fs file (some buf) count
    let later ← listDirectory fs file rest
    .ok ((ret, (after.getD []).take ret.toNat) :: later)

/-- A record as its reader sees it. -/
structure Record where
  dReclen : Nat
  dType : Byte
  dName : Name
  deriving DecidableEq, Repr

/-- The record at the start of some bytes, and the bytes after it. Its length is a multiple of
8 and its name ends inside it. -/
def readRecord (bytes : List Byte) : Option (Record × List Byte) :=
  match bytes.drop 16 with
  | low :: high :: dType :: _ =>
    let dReclen := low.toNat + 256 * high.toNat
    let name := (bytes.take dReclen).drop nameOffset
    if dReclen % 8 = 0 ∧ dReclen ≤ bytes.length ∧ 0 ∈ name then
      some ({ dReclen, dType, dName := stringIn name }, bytes.drop dReclen)
    else none
  | _ => none

/-- Bytes split into records by their lengths, at most `fuel` of them. -/
def splitRecords : Nat → List Byte → Option (List Record)
  | _, [] => some []
  | 0, _ :: _ => none
  | fuel + 1, byte :: more => do
    let (record, rest) ← readRecord (byte :: more)
    let records ← splitRecords fuel rest
    some (record :: records)

def recordsOf (bytes : List Byte) : Option (List Record) := splitRecords bytes.length bytes

section Records

theorem length_littleEndian {w : Nat} (v : BitVec w) : (littleEndian v).length = w / 8 := by
  rw [littleEndian, List.length_map, List.length_range]

theorem littleEndian_word (v : BitVec 16) : littleEndian v = [v.extractLsb' 0 8, v.extractLsb' 8 8] := rfl

theorem word_of_littleEndian (v : BitVec 16) : (v.extractLsb' 0 8).toNat + 256 * (v.extractLsb' 8 8).toNat = v.toNat := by
  have bound := v.isLt
  simp only [BitVec.extractLsb'_toNat, Nat.shiftRight_eq_div_pow]
  omega

theorem recordLength_spec (name : Name) :
    nameOffset + name.length + 1 ≤ recordLength name ∧ recordLength name ≤ nameOffset + name.length + 8 ∧
      recordLength name % 8 = 0 := by
  simp only [recordLength, dirent64Align]
  omega

variable (entry : Entry) (idx : Nat)

theorem bytes_eq : ∃ front, front.length = 16 ∧ entry.bytes idx = front ++
    ((BitVec.ofNat 16 (recordLength entry.name)).extractLsb' 0 8 ::
      (BitVec.ofNat 16 (recordLength entry.name)).extractLsb' 8 8 :: entry.dType :: (entry.name ++ [0])) := by
  refine ⟨littleEndian (BitVec.ofNat 64 (entry.inode.getD 0)) ++ littleEndian (BitVec.ofNat 64 (idx + 1)), ?_, ?_⟩
  · rw [List.length_append, length_littleEndian, length_littleEndian]
  · simp only [Entry.bytes, littleEndian_word, List.append_assoc, List.cons_append, List.nil_append]

theorem length_bytes : (entry.bytes idx).length = nameOffset + entry.name.length + 1 := by
  obtain ⟨front, length, whole⟩ := bytes_eq entry idx
  rw [whole]
  simp only [List.length_append, length, List.length_cons, List.length_nil, nameOffset]
  omega

/-- What a reader sees of an entry. -/
def Entry.record : Record := { dReclen := recordLength entry.name, dType := entry.dType, dName := entry.name }

theorem stringIn_append {name : Name} (terminated : 0 ∉ name) (pad : List Byte) : stringIn (name ++ 0 :: pad) = name := by
  rw [stringIn, List.takeWhile_append_of_pos]
  · simp
  · intro byte member
    rw [decide_eq_true_eq]
    rintro rfl
    exact terminated member

theorem readRecord_bytes {pad rest : List Byte} (terminated : 0 ∉ entry.name)
    (short : entry.name.length < 65000) (whole : (entry.bytes idx ++ pad).length = recordLength entry.name) :
    readRecord (entry.bytes idx ++ pad ++ rest) = some (entry.record, rest) := by
  obtain ⟨lower, upper, aligned⟩ := recordLength_spec entry.name
  obtain ⟨front, length, parts⟩ := bytes_eq entry idx
  have word : ((BitVec.ofNat 16 (recordLength entry.name)).extractLsb' 0 8).toNat +
      256 * ((BitVec.ofNat 16 (recordLength entry.name)).extractLsb' 8 8).toNat = recordLength entry.name := by
    rw [word_of_littleEndian, BitVec.toNat_ofNat, Nat.mod_eq_of_lt]
    simp only [nameOffset] at upper
    omega
  generalize (BitVec.ofNat 16 (recordLength entry.name)).extractLsb' 0 8 = low at word parts
  generalize (BitVec.ofNat 16 (recordLength entry.name)).extractLsb' 8 8 = high at word parts
  have tail : (entry.bytes idx ++ pad ++ rest).drop 16 = low :: high :: entry.dType :: (entry.name ++ 0 :: (pad ++ rest)) := by
    rw [parts, ← length]
    simp only [List.append_assoc, List.drop_left, List.cons_append, List.nil_append]
  have name : ((entry.bytes idx ++ pad ++ rest).take (recordLength entry.name)).drop nameOffset =
      entry.name ++ 0 :: pad := by
    rw [← whole, List.take_left, parts]
    have here : nameOffset = (front ++ [low, high, entry.dType]).length := by
      simp only [List.length_append, length, List.length_cons, List.length_nil, nameOffset]
    have regroup : front ++ (low :: high :: entry.dType :: (entry.name ++ [0])) ++ pad =
        (front ++ [low, high, entry.dType]) ++ (entry.name ++ 0 :: pad) := by
      simp only [List.append_assoc, List.cons_append, List.nil_append]
    rw [regroup, here, List.drop_left]
  have after : (entry.bytes idx ++ pad ++ rest).drop (recordLength entry.name) = rest := by
    rw [← whole, List.drop_left]
  rw [readRecord, tail]
  simp only [word, name, after]
  rw [if_pos, stringIn_append terminated]
  · rfl
  · refine ⟨aligned, ?_, by simp⟩
    rw [List.length_append, whole]
    omega

end Records

/-- The bytes are the records of these entries, the first of them with index `idx`. -/
def Encodes : Nat → List Entry → List Byte → Prop
  | _, [], bytes => bytes = []
  | idx, entry :: rest, bytes => ∃ pad later, bytes = entry.bytes idx ++ pad ++ later ∧
      (entry.bytes idx ++ pad).length = recordLength entry.name ∧ Encodes (idx + 1) rest later

/-- A name that fits a record. -/
def Entry.Fits (entry : Entry) : Prop := 0 ∉ entry.name ∧ entry.name.length < 65000

def Entry.size (entry : Entry) : Nat := recordLength entry.name

theorem Encodes.length {idx : Nat} {entries : List Entry} {bytes : List Byte} (encodes : Encodes idx entries bytes) :
    bytes.length = (entries.map Entry.size).sum := by
  induction entries generalizing idx bytes with
  | nil =>
    rw [show bytes = [] from encodes]
    rfl
  | cons entry rest ih =>
    obtain ⟨pad, later, rfl, whole, further⟩ := encodes
    rw [List.length_append, whole, ih further, List.map_cons, List.sum_cons]
    rfl

theorem Encodes.splitRecords {idx fuel : Nat} {entries : List Entry} {bytes : List Byte}
    (encodes : Encodes idx entries bytes) (fit : ∀ entry ∈ entries, entry.Fits) (enough : bytes.length ≤ fuel) :
    splitRecords fuel bytes = some (entries.map Entry.record) := by
  induction entries generalizing idx bytes fuel with
  | nil =>
    rw [show bytes = [] from encodes, Vfs.splitRecords]
    rfl
  | cons entry rest ih =>
    obtain ⟨pad, later, rfl, whole, further⟩ := encodes
    obtain ⟨terminated, short⟩ := fit entry List.mem_cons_self
    have read : readRecord (entry.bytes idx ++ pad ++ later) = some (entry.record, later) :=
      readRecord_bytes entry idx terminated short whole
    have positive := (recordLength_spec entry.name).1
    rw [List.length_append, whole] at enough
    obtain ⟨fuel, rfl⟩ : ∃ n, fuel = n + 1 := ⟨fuel - 1, by omega⟩
    have rest_ : Vfs.splitRecords fuel later = some (rest.map Entry.record) :=
      ih further (fun e member => fit e (List.mem_cons_of_mem entry member)) (by omega)
    cases bytes : entry.bytes idx ++ pad ++ later with
    | nil =>
      have empty := congrArg List.length bytes
      rw [List.length_append, whole, List.length_nil] at empty
      omega
    | cons byte more =>
      rw [Vfs.splitRecords, ← bytes, read]
      simp only [Option.bind_eq_bind, Option.bind_some, rest_, List.map_cons]

/-- Both loops at once, from the first entry that is not skipped: where they stop, and whether
they have run out of room. -/
def emit (count : Nat) : List Entry → Nat → Nat → List Byte → (Nat × Nat × Bool) × List Byte
  | [], idx, bpos, buf => ((idx, bpos, false), buf)
  | entry :: rest, idx, bpos, buf =>
    if bpos + entry.size > count then ((idx, bpos, true), buf)
    else emit count rest (idx + 1) (bpos + entry.size) (overwrite buf bpos (entry.bytes idx))

/-- What `emit` writes: the records of a page, behind what the buffer held. -/
structure Emitted (count : Nat) (entries : List Entry) (idx bpos : Nat) (buf : List Byte)
    (result : (Nat × Nat × Bool) × List Byte) (taken : List Entry) : Prop where
  index : result.1.1 = idx + taken.length
  place : result.1.2.1 = bpos + (taken.map Entry.size).sum
  short : result.1.2.2 = true ↔ taken ≠ entries
  length : result.2.length = buf.length
  bytes : ∃ bytes, Encodes idx taken bytes ∧ result.2.take result.1.2.1 = buf.take bpos ++ bytes

theorem emit_emitted (count : Nat) (entries : List Entry) {idx bpos : Nat} {buf : List Byte}
    (room : bpos ≤ count) (large : count ≤ buf.length) :
    Emitted count entries idx bpos buf (emit count entries idx bpos buf) (page Entry.size (count - bpos) entries) := by
  induction entries generalizing idx bpos buf with
  | nil => exact ⟨rfl, rfl, by simp [emit, page], rfl, [], rfl, by simp [emit]⟩
  | cons entry rest ih =>
    rw [emit, page]
    by_cases full : bpos + entry.size > count
    · rw [if_pos full, if_neg (by omega)]
      exact ⟨rfl, rfl, by simp, rfl, [], rfl, by simp⟩
    · rw [if_neg full, if_pos (by omega)]
      obtain ⟨lower, -, -⟩ := recordLength_spec entry.name
      have size : entry.size = recordLength entry.name := rfl
      have inside : bpos + (entry.bytes idx).length ≤ buf.length := by
        rw [length_bytes]
        omega
      have kept := length_overwrite inside
      have later : Emitted count rest (idx + 1) (bpos + entry.size) (overwrite buf bpos (entry.bytes idx))
          (emit count rest (idx + 1) (bpos + entry.size) (overwrite buf bpos (entry.bytes idx)))
          (page Entry.size (count - (bpos + entry.size)) rest) := ih (by omega) (by omega)
      rw [Nat.sub_add_eq] at later
      refine ⟨?_, ?_, ?_, later.length.trans kept, ?_⟩
      · rw [later.index, List.length_cons]
        omega
      · rw [later.place, List.map_cons, List.sum_cons]
        omega
      · rw [later.short]
        simp
      · obtain ⟨bytes, encodes, taken⟩ := later.bytes
        rw [taken, take_overwrite (by omega) (by rw [length_bytes]; omega)]
        refine ⟨_, ⟨_, bytes, rfl, ?_, encodes⟩, List.append_assoc ..⟩
        rw [List.length_append, List.length_take, List.length_drop, length_bytes]
        omega

theorem putBytes_entry {entry : Entry} {idx bpos count : Nat} {buf : List Byte} (fits : ¬ bpos + entry.size > count)
    (large : count ≤ buf.length) : putBytes buf bpos (entry.bytes idx) = .ok (overwrite buf bpos (entry.bytes idx)) ∧
      count ≤ (overwrite buf bpos (entry.bytes idx)).length := by
  obtain ⟨lower, -, -⟩ := recordLength_spec entry.name
  have size : entry.size = recordLength entry.name := rfl
  have inside : bpos + (entry.bytes idx).length ≤ buf.length := by
    rw [length_bytes]
    omega
  exact ⟨if_pos inside, by rw [length_overwrite inside]; exact large⟩

section Loops

variable {fs : Fs} {target : Int} {count : Nat} {buf : List Byte} {idx bpos : Nat} {entries : List Entry}

/-- The entry of `.` or `..` -/
def VirtualEntry (fs : Fs) (item : Ptr × Name) (entry : Entry) : Prop :=
  ∃ d, fs.dentries item.1 = some d ∧ entry = { inode := d.inode, dType := dtDir, name := item.2 }

def ChildEntry (fs : Fs) (p : Ptr) (entry : Entry) : Prop :=
  ∃ child, fs.dentries p = some child ∧ childType fs child = .ok entry.dType ∧
    entry.inode = child.inode ∧ entry.name = child.name

theorem virtualLoop_skip (front rest : List (Ptr × Name))
    (before : (idx + front.length : Int) ≤ target) : virtualLoop fs target count (front ++ rest) idx bpos buf =
      virtualLoop fs target count rest (idx + front.length) bpos buf := by
  induction front generalizing idx with
  | nil => rfl
  | cons item front ih =>
    rw [List.length_cons] at before
    rw [List.cons_append, virtualLoop, if_pos (by omega), ih (by push_cast at before ⊢; omega), List.length_cons]
    congr 1
    omega

theorem childLoop_skip (front rest : List Ptr)
    (before : (idx + front.length : Int) ≤ target) : childLoop fs target count (front ++ rest) idx bpos buf =
      childLoop fs target count rest (idx + front.length) bpos buf := by
  induction front generalizing idx with
  | nil => rfl
  | cons item front ih =>
    rw [List.length_cons] at before
    rw [List.cons_append, childLoop, if_pos (by omega), ih (by push_cast at before ⊢; omega), List.length_cons]
    congr 1
    omega

/-- How the first loop ends when it stops at `idx`, with or without having run out of room. -/
def virtualEnd : Nat × Nat × Bool → Scan
  | (idx, bpos, true) => if bpos = 0 then .returned (-eInval) none else .returned bpos (some idx)
  | (idx, bpos, false) => .reached idx bpos

def childEnd : Nat × Nat × Bool → Scan
  | (idx, bpos, true) => if bpos = 0 then .returned (-eInval) none else .reached idx bpos
  | (idx, bpos, false) => .reached idx bpos

theorem virtualLoop_emit {items : List (Ptr × Name)}
    (reads : List.Forall₂ (VirtualEntry fs) items entries) (here : target ≤ idx) (large : count ≤ buf.length) :
    virtualLoop fs target count items idx bpos buf =
      .ok (virtualEnd (emit count entries idx bpos buf).1, (emit count entries idx bpos buf).2) := by
  induction reads generalizing idx bpos buf with
  | nil => rfl
  | @cons item entry items entries read _ ih =>
    obtain ⟨d, live, rfl⟩ := read
    rw [virtualLoop, if_neg (by omega), emit, Entry.size]
    by_cases full : bpos + recordLength item.2 > count
    · rw [if_pos full, if_pos full, virtualEnd]
      split <;> rfl
    · obtain ⟨put, still⟩ := putBytes_entry (show ¬ bpos + Entry.size ⟨d.inode, dtDir, item.2⟩ > count from full) large
      rw [if_neg full, if_neg full, dentry_eq_ok.mpr live]
      show (putBytes buf bpos _).bind _ = _
      rw [put]
      exact ih (by push_cast; omega) still

theorem childLoop_emit {items : List Ptr}
    (reads : List.Forall₂ (ChildEntry fs) items entries) (here : target ≤ idx) (large : count ≤ buf.length) :
    childLoop fs target count items idx bpos buf =
      .ok (childEnd (emit count entries idx bpos buf).1, (emit count entries idx bpos buf).2) := by
  induction reads generalizing idx bpos buf with
  | nil => rfl
  | @cons p entry items entries read _ ih =>
    obtain ⟨dInode, dType, name⟩ := entry
    obtain ⟨child, live, type, rfl, rfl⟩ := read
    rw [childLoop, if_neg (by omega), emit, Entry.size, dentry_eq_ok.mpr live]
    show (if bpos + recordLength child.name > count then _ else _) = _
    by_cases full : bpos + recordLength child.name > count
    · rw [if_pos full, if_pos full, childEnd]
      split <;> rfl
    · obtain ⟨put, still⟩ := putBytes_entry (show ¬ bpos + Entry.size ⟨child.inode, dType, child.name⟩ > count from full) large
      rw [if_neg full, if_neg full, type]
      show (putBytes buf bpos _).bind _ = _
      rw [put]
      exact ih (by push_cast; omega) still

theorem emit_append (front back : List Entry) (idx bpos : Nat) (buf : List Byte) :
    emit count (front ++ back) idx bpos buf =
      match emit count front idx bpos buf with
      | ((idx, bpos, true), buf) => ((idx, bpos, true), buf)
      | ((idx, bpos, false), buf) => emit count back idx bpos buf := by
  induction front generalizing idx bpos buf with
  | nil => rfl
  | cons entry front ih =>
    rw [List.cons_append, emit, emit]
    split
    · rfl
    · exact ih ..

end Loops

/-- A directory that can be listed: its inode `i`, its dentry `d` at `dir`, its parent and its
children are there, and the names of the children are C strings that fit a record. -/
structure Listable (fs : Fs) (i dir : Ptr) (d : Dentry) : Prop where
  inode : ∃ x, fs.inodes i = some x ∧ sIsdir x.iMode = true ∧ x.iDentry = some dir
  live : fs.dentries dir = some d
  parent : ∀ p, d.parent = some p → ∃ e, fs.dentries p = some e
  children : ∀ c ∈ d.children, ∃ child, fs.dentries c = some child ∧ 0 ∉ child.name ∧ child.name.length < 65000 ∧
    ∀ j, child.inode = some j → ∃ x, fs.inodes j = some x

/-- The entries of a directory, in the order in which they are listed. -/
structure HasEntries (fs : Fs) (dir : Ptr) (d : Dentry) (virt kids : List Entry) : Prop where
  virt : List.Forall₂ (VirtualEntry fs) [(dir, dot), (d.parent.getD dir, dotdot)] virt
  kids : List.Forall₂ (ChildEntry fs) d.children kids

section Calls

variable {fs : Fs} {i dir : Ptr} {d : Dentry} {virt kids : List Entry} {count : Nat} {buf : List Byte}

/-- What a call returns when the entries from its position on have been written. -/
def answer (i : Ptr) (target : Nat) : (Nat × Nat × Bool) × List Byte → Int × Option DirFile × Option (List Byte)
  | ((idx, bpos, short), buf) =>
    if short = true ∧ bpos = 0 then (-eInval, some { fInode := some i, fPos := target }, some buf)
    else (bpos, some { fInode := some i, fPos := idx }, some buf)

def afterVirtual (fs : Fs) (file : DirFile) (count : Nat) (children : List Ptr) :
    Scan × List Byte → Except Stop (Int × Option DirFile × Option (List Byte))
  | (.returned ret fPos, buf) => .ok (ret, some { file with fPos := fPos.getD file.fPos }, some buf)
  | (.reached idx bpos, buf) => do
    let (scan, buf) ← childLoop fs file.fPos count children idx bpos buf
    match scan with
    | .returned ret fPos => .ok (ret, some { file with fPos := fPos.getD file.fPos }, some buf)
    | .reached idx bpos => .ok (bpos, some { file with fPos := idx }, some buf)

theorem vfsGetdents64_eq (listable : Listable fs i dir d) (fPos : Int) :
    vfsGetdents64 fs (some { fInode := some i, fPos }) (some buf) count =
      (virtualLoop fs fPos count [(dir, dot), (d.parent.getD dir, dotdot)] 0 0 buf).bind
        (afterVirtual fs { fInode := some i, fPos } count d.children) := by
  obtain ⟨x, there, isdir, home⟩ := listable.inode
  simp only [vfsGetdents64, inode_eq_ok.mpr there, isdir, home, dentry_eq_ok.mpr listable.live, bind, Except.bind, if_true]
  cases virtualLoop fs fPos count [(dir, dot), (d.parent.getD dir, dotdot)] 0 0 buf with
  | error stop => rfl
  | ok result =>
    obtain ⟨scan, buf⟩ := result
    cases scan <;> rfl

theorem afterVirtual_skip {file : DirFile} {front rest : List Ptr} {idx bpos : Nat}
    (before : (idx + front.length : Int) ≤ file.fPos) : afterVirtual fs file count (front ++ rest) (.reached idx bpos, buf) =
      afterVirtual fs file count rest (.reached (idx + front.length) bpos, buf) := by
  rw [afterVirtual, childLoop_skip front rest before, afterVirtual]

theorem afterVirtual_reached {children : List Ptr} {target idx bpos : Nat}
    (reads : List.Forall₂ (ChildEntry fs) children kids) (here : target ≤ idx) (large : count ≤ buf.length) :
    afterVirtual fs { fInode := some i, fPos := target } count children (.reached idx bpos, buf) =
      .ok (answer i target (emit count kids idx bpos buf)) := by
  rw [afterVirtual, childLoop_emit reads (Int.ofNat_le.mpr here) large]
  obtain ⟨⟨idx', bpos', short⟩, buf'⟩ := emit count kids idx bpos buf
  cases short with
  | false => rfl
  | true =>
    simp only [childEnd, answer, true_and]
    by_cases start : bpos' = 0
    · simp only [if_pos start]
      rfl
    · simp only [if_neg start]
      rfl

/-- A call lists what fits of the entries from its position on. -/
theorem vfsGetdents64_emit (listable : Listable fs i dir d) (entries : HasEntries fs dir d virt kids)
    {target : Nat} (within : target ≤ (virt ++ kids).length) (large : count ≤ buf.length) :
    vfsGetdents64 fs (some { fInode := some i, fPos := target }) (some buf) count =
      .ok (answer i target (emit count ((virt ++ kids).drop target) target 0 buf)) := by
  have two : virt.length = 2 := entries.virt.length_eq.symm
  rw [vfsGetdents64_eq listable]
  by_cases front : target ≤ 2
  · -- the position is at `.`, at `..` or at the first child
    have split : [(dir, dot), (d.parent.getD dir, dotdot)] =
        [(dir, dot), (d.parent.getD dir, dotdot)].take target ++
          [(dir, dot), (d.parent.getD dir, dotdot)].drop target := (List.take_append_drop ..).symm
    have skipped : ([(dir, dot), (d.parent.getD dir, dotdot)].take target).length = target := by
      rw [List.length_take]
      simp only [List.length_cons, List.length_nil]
      omega
    have reads := List.forall₂_drop target entries.virt
    rw [split, virtualLoop_skip _ _ (by rw [skipped]; simp), skipped, Nat.zero_add,
      virtualLoop_emit reads (Int.le_refl _) large, List.drop_append_of_le_length (by omega), emit_append]
    have written : Emitted count (virt.drop target) target 0 buf (emit count (virt.drop target) target 0 buf) _ :=
      emit_emitted count _ (Nat.zero_le count) large
    show afterVirtual fs _ count d.children _ = _
    generalize emit count (virt.drop target) target 0 buf = result at written ⊢
    obtain ⟨⟨idx, bpos, short⟩, buf'⟩ := result
    have later : target ≤ idx := by
      rw [show idx = _ from written.index]
      exact Nat.le_add_right ..
    have same : buf'.length = buf.length := written.length
    cases short with
    | false => exact afterVirtual_reached entries.kids later (show count ≤ buf'.length by omega)
    | true =>
      simp only [virtualEnd, answer, true_and]
      by_cases start : bpos = 0
      · simp only [if_pos start]
        rfl
      · simp only [if_neg start]
        rfl
  · have skipped : virtualLoop fs target count [(dir, dot), (d.parent.getD dir, dotdot)] 0 0 buf =
        .ok (.reached 2 0, buf) := by
      rw [virtualLoop, if_pos (by omega), virtualLoop, if_pos (by omega)]
      rfl
    have members : kids.length = d.children.length := entries.kids.length_eq.symm
    rw [List.length_append] at within
    have length : (d.children.take (target - 2)).length = target - 2 := by
      rw [List.length_take]
      omega
    have reads := List.forall₂_drop (target - 2) entries.kids
    have above : (virt ++ kids).drop target = kids.drop (target - 2) := by
      rw [List.drop_append, List.drop_of_length_le (by omega), two]
      rfl
    rw [skipped, above]
    show afterVirtual fs { fInode := some i, fPos := target } count d.children (.reached 2 0, buf) = _
    rw [← List.take_append_drop (target - 2) d.children, afterVirtual_skip (by rw [length]; push_cast; omega), length]
    have at_ : 2 + (target - 2) = target := by omega
    rw [at_]
    exact afterVirtual_reached reads (Nat.le_refl _) large

end Calls

/-- What a call has returned: the number of bytes, within its `count`, that make up the records
of these entries. -/
structure Answers (count : Nat) (result : Int × List Byte) (taken : List Entry) : Prop where
  length : result.1 = result.2.length
  bounded : result.2.length ≤ count
  encodes : ∃ idx, Encodes idx taken result.2

/-- The answers to some calls, and the entries that each of them lists. -/
inductive Answered : List (Nat × List Byte) → List (Int × List Byte) → List (List Entry) → Prop where
  | nil : Answered [] [] []
  | cons {count : Nat} {buf : List Byte} {result : Int × List Byte} {taken : List Entry}
      {calls : List (Nat × List Byte)} {results : List (Int × List Byte)} {listed : List (List Entry)}
      (first : Answers count result taken) (rest : Answered calls results listed) :
      Answered ((count, buf) :: calls) (result :: results) (taken :: listed)

section Runs

variable {fs : Fs} {i dir : Ptr} {d : Dentry} {virt kids : List Entry} {results : List (Int × List Byte)}
    {calls : List (Nat × List Byte)} {listed : List (List Entry)} {taken : List Entry}

theorem size_pos (entry : Entry) : 0 < entry.size := by
  have lower := (recordLength_spec entry.name).1
  show 0 < recordLength entry.name
  omega

theorem sum_size_eq_zero : (taken.map Entry.size).sum = 0 ↔ taken = [] := by
  cases taken with
  | nil => exact iff_of_true rfl rfl
  | cons entry rest =>
    have positive := size_pos entry
    rw [List.map_cons, List.sum_cons]
    exact iff_of_false (by omega) (by simp)

theorem answer_of_emitted {count target : Nat} {buf : List Byte} {entries : List Entry}
    {result : (Nat × Nat × Bool) × List Byte}
    (emitted : Emitted count entries target 0 buf result taken) (some_ : taken = [] → entries = []) :
    answer i target result = ((((taken.map Entry.size).sum : Nat) : Int),
      some { fInode := some i, fPos := (target + taken.length : Nat) }, some result.2) := by
  obtain ⟨⟨idx, bpos, short⟩, after⟩ := result
  have index : idx = target + taken.length := emitted.index
  have place : bpos = 0 + (taken.map Entry.size).sum := emitted.place
  rw [Nat.zero_add] at place
  rw [answer, if_neg]
  · rw [index, place]
  · intro refused
    have left : taken ≠ entries := emitted.short.mp refused.1
    have empty : taken = [] := sum_size_eq_zero.mp (place.symm.trans refused.2)
    exact left (empty.trans (some_ empty).symm)

/-- The calls hand out the entries page by page. -/
theorem listDirectory_pages (listable : Listable fs i dir d) (entries : HasEntries fs dir d virt kids)
    (calls : List (Nat × List Byte))
    (fit : ∀ call ∈ calls, call.1 ≤ call.2.length ∧ ∀ entry ∈ virt ++ kids, entry.size ≤ call.1)
    {target : Nat} (within : target ≤ (virt ++ kids).length) :
    ∃ results, listDirectory fs (some { fInode := some i, fPos := target }) calls = .ok results ∧
      Answered calls results (pages Entry.size (calls.map Prod.fst) ((virt ++ kids).drop target)) := by
  induction calls generalizing target with
  | nil => exact ⟨[], rfl, .nil⟩
  | cons call calls ih =>
    obtain ⟨count, buf⟩ := call
    obtain ⟨large, first⟩ := fit (count, buf) List.mem_cons_self
    have emitted : Emitted count ((virt ++ kids).drop target) target 0 buf _ _ :=
      emit_emitted count _ (Nat.zero_le count) large
    rw [Nat.sub_zero] at emitted
    have fits : ∀ entry ∈ (virt ++ kids).drop target, entry.size ≤ count :=
      fun entry left => first entry (List.mem_of_mem_drop left)
    have done := vfsGetdents64_emit listable entries within large
    rw [answer_of_emitted emitted (Paging.page_eq_nil_iff Entry.size fits).mp] at done
    have bounded := Paging.sum_page_le Entry.size count ((virt ++ kids).drop target)
    have whole := Paging.page_append_drop Entry.size count ((virt ++ kids).drop target)
    rw [List.map_cons, pages]
    generalize page Entry.size count ((virt ++ kids).drop target) = taken at *
    have total := congrArg List.length whole
    rw [List.length_append, List.length_drop, List.length_drop] at total
    obtain ⟨results, later, answered⟩ := ih (fun call member => fit call (List.mem_cons_of_mem _ member))
      (show target + taken.length ≤ (virt ++ kids).length by omega)
    obtain ⟨bytes, encodes, written⟩ := emitted.bytes
    rw [emitted.place, List.take_zero, List.nil_append, Nat.zero_add] at written
    refine ⟨((((taken.map Entry.size).sum : Nat) : Int), bytes) :: results, ?_, ?_⟩
    · simp only [listDirectory, done, later, bind, Except.bind, Option.getD_some, Int.toNat_natCast, written]
    · rw [List.drop_drop]
      apply Answered.cons _ answered
      rw [← encodes.length] at bounded ⊢
      exact ⟨rfl, bounded, target, encodes⟩

theorem Answered.sizes (answered : Answered calls results listed) :
    List.Forall₂ (fun call result => result.1 = result.2.length ∧ result.2.length ≤ call.1) calls results := by
  induction answered with
  | nil => exact .nil
  | cons first _ ih => exact .cons ⟨first.length, first.bounded⟩ ih

theorem Answered.recordsOf (answered : Answered calls results listed) (fit : ∀ taken ∈ listed, ∀ entry ∈ taken, entry.Fits) :
    results.map (fun result => recordsOf result.2) = listed.map fun taken => some (taken.map Entry.record) := by
  induction answered with
  | nil => rfl
  | cons first _ ih =>
    obtain ⟨idx, encodes⟩ := first.encodes
    have split := encodes.splitRecords (fit _ List.mem_cons_self) (Nat.le_refl _)
    rw [List.map_cons, List.map_cons, ih fun taken member => fit taken (List.mem_cons_of_mem _ member)]
    exact congrArg (· :: _) split

theorem Answered.zero_iff (answered : Answered calls results listed) {k : Nat} {result : Int × List Byte}
    (at_ : results[k]? = some result) : ∃ taken, listed[k]? = some taken ∧ (result.1 = 0 ↔ taken = []) := by
  induction answered generalizing k with
  | nil => cases at_
  | @cons _ _ _ taken _ _ _ first _ ih =>
    cases k with
    | zero =>
      rw [List.getElem?_cons_zero, Option.some.injEq] at at_
      subst at_
      refine ⟨taken, rfl, ?_⟩
      obtain ⟨idx, encodes⟩ := first.encodes
      rw [first.length, encodes.length, ← sum_size_eq_zero]
      exact Int.natCast_eq_zero
    | succ k => exact ih at_

end Runs

/-- Whether a dentry is a directory. -/
def isDirectory (fs : Fs) (p : Ptr) : Bool :=
  match fs.dentries p with
  | none => false
  | some d => (d.inode.bind fs.inodes).any fun x => sIsdir x.iMode

def nameOf (fs : Fs) (p : Ptr) : Name := ((fs.dentries p).map Dentry.name).getD []

/-- What is to be listed of a directory: each name, and whether it is a directory. -/
def expected (fs : Fs) (d : Dentry) : List (Name × Bool) :=
  (dot, true) :: (dotdot, true) :: d.children.map fun c => (nameOf fs c, isDirectory fs c)

/-- What a record says: its name, and whether its type is that of a directory. -/
def Record.view (record : Record) : Name × Bool := (record.dName, record.dType == dtDir)

section Listing

variable {fs : Fs} {i dir : Ptr} {d : Dentry}

theorem childEntry_exists {c : Ptr} {child : Dentry} (live : fs.dentries c = some child)
    (inodes : ∀ j, child.inode = some j → ∃ x, fs.inodes j = some x) :
    ∃ entry, ChildEntry fs c entry ∧ entry.name = child.name ∧ (entry.dType == dtDir) = isDirectory fs c := by
  cases behind : child.inode with
  | none =>
    refine ⟨⟨none, dtReg, child.name⟩, ⟨child, live, ?_, behind.symm, rfl⟩, rfl, ?_⟩
    · rw [childType, behind]
    · simp only [isDirectory, live, behind, Option.bind_none, Option.any_none]
      rfl
  | some j =>
    obtain ⟨x, there⟩ := inodes j behind
    refine ⟨⟨some j, if sIsdir x.iMode then dtDir else dtReg, child.name⟩, ⟨child, live, ?_, behind.symm, rfl⟩, rfl, ?_⟩
    · simp only [childType, behind, inode_eq_ok.mpr there, bind, Except.bind]
    · simp only [isDirectory, live, behind, Option.bind_some, there, Option.any_some]
      cases sIsdir x.iMode <;> rfl

theorem Listable.hasEntries (listable : Listable fs i dir d) : ∃ virt kids, HasEntries fs dir d virt kids ∧
      (virt ++ kids).map (fun entry => (entry.name, entry.dType == dtDir)) = expected fs d ∧
      ∀ entry ∈ virt ++ kids, entry.Fits := by
  have above : ∃ e, fs.dentries (d.parent.getD dir) = some e := by
    cases up : d.parent with
    | none => exact ⟨d, listable.live⟩
    | some p => exact listable.parent p up
  have below : ∀ children : List Ptr, (∀ c ∈ children, c ∈ d.children) → ∃ kids,
      List.Forall₂ (ChildEntry fs) children kids ∧
      kids.map (fun entry => (entry.name, entry.dType == dtDir)) = children.map (fun c => (nameOf fs c, isDirectory fs c)) ∧
      ∀ entry ∈ kids, entry.Fits := by
    intro children
    induction children with
    | nil => exact fun _ => ⟨[], .nil, rfl, fun _ member => nomatch member⟩
    | cons c rest ih =>
      intro members
      obtain ⟨kids, reads, same, fit⟩ := ih fun p member => members p (List.mem_cons_of_mem c member)
      obtain ⟨child, live, terminated, short, inodes⟩ := listable.children c (members c List.mem_cons_self)
      obtain ⟨entry, read, name, type⟩ := childEntry_exists live inodes
      refine ⟨entry :: kids, .cons read reads, ?_, ?_⟩
      · rw [List.map_cons, List.map_cons, same, name, type, nameOf, live]
        rfl
      · intro e member
        rcases List.mem_cons.mp member with rfl | member
        · rw [Entry.Fits, name]
          exact ⟨terminated, short⟩
        · exact fit e member
  obtain ⟨up, parent⟩ := above
  obtain ⟨kids, reads, same, fit⟩ := below d.children fun _ member => member
  refine ⟨[⟨d.inode, dtDir, dot⟩, ⟨up.inode, dtDir, dotdot⟩], kids, ⟨?_, reads⟩, ?_, ?_⟩
  · exact .cons ⟨d, listable.live, rfl⟩ (.cons ⟨up, parent, rfl⟩ .nil)
  · rw [List.map_append, same]
    rfl
  · intro e member
    rcases List.mem_append.mp member with virtual_ | child
    · rcases List.mem_cons.mp virtual_ with rfl | virtual_
      · exact ⟨show 0 ∉ dot by decide, show dot.length < 65000 by decide⟩
      · rw [List.mem_singleton] at virtual_
        rw [virtual_]
        exact ⟨show 0 ∉ dotdot by decide, show dotdot.length < 65000 by decide⟩
    · exact fit e child

/-- Listing a directory from its start: every call returns whole records within its `count`,
together they are `.`, `..` and the children in order, and a call returns 0 exactly when all of
them have been listed, which takes no more calls than there are entries. -/
theorem getdents64_round_trip (listable : Listable fs i dir d) (calls : List (Nat × List Byte))
    (buffers : ∀ call ∈ calls, call.1 ≤ call.2.length)
    (rooms : ∀ call ∈ calls, ∀ entry ∈ expected fs d, recordLength entry.1 ≤ call.1) :
    ∃ (results : List (Int × List Byte)) (listed : List (List Record)),
      listDirectory fs (some { fInode := some i, fPos := 0 }) calls = .ok results ∧
      List.Forall₂ (fun call result => result.1 = result.2.length ∧ result.2.length ≤ call.1) calls results ∧
      results.map (fun result => recordsOf result.2) = listed.map some ∧
      (∀ records ∈ listed, ∀ record ∈ records, record.dReclen % 8 = 0) ∧
      (∀ k, (listed.take k).flatten.map Record.view <+: expected fs d) ∧
      (∀ k result, results[k]? = some result →
        (result.1 = 0 ↔ (listed.take k).flatten.map Record.view = expected fs d)) ∧
      ((expected fs d).length ≤ calls.length → listed.flatten.map Record.view = expected fs d) := by
  obtain ⟨virt, kids, entries, same, fit⟩ := listable.hasEntries
  have fits : ∀ call ∈ calls, call.1 ≤ call.2.length ∧ ∀ entry ∈ virt ++ kids, entry.size ≤ call.1 := by
    intro call member
    refine ⟨buffers call member, fun entry listed => ?_⟩
    have named : (entry.name, entry.dType == dtDir) ∈ expected fs d := by
      rw [← same]
      exact List.mem_map.mpr ⟨entry, listed, rfl⟩
    exact rooms call member _ named
  obtain ⟨results, done, answered⟩ := listDirectory_pages listable entries calls fits (Nat.zero_le _)
  rw [List.drop_zero] at answered
  have fitting : ∀ room ∈ calls.map Prod.fst, ∀ entry ∈ virt ++ kids, entry.size ≤ room := by
    intro room member entry listed
    obtain ⟨call, at_, rfl⟩ := List.mem_map.mp member
    exact (fits call at_).2 entry listed
  generalize parts_eq : pages Entry.size (calls.map Prod.fst) (virt ++ kids) = parts at answered
  have within : ∀ k, ∃ rest, (parts.take k).flatten ++ rest = virt ++ kids := by
    rw [← parts_eq]
    exact Paging.flatten_take_pages Entry.size (calls.map Prod.fst) (virt ++ kids)
  have handed : ∀ taken ∈ parts, ∀ entry ∈ taken, entry ∈ virt ++ kids := by
    intro taken member entry in_
    obtain ⟨rest, whole⟩ := within parts.length
    rw [List.take_length] at whole
    rw [← whole]
    exact List.mem_append_left rest (List.mem_flatten.mpr ⟨taken, member, in_⟩)
  -- what the records of some pages say
  have view : ∀ some_ : List (List Entry), (some_.map (·.map Entry.record)).flatten.map Record.view =
      some_.flatten.map fun entry => (entry.name, entry.dType == dtDir) := by
    intro some_
    rw [← List.map_flatten, List.map_map]
    rfl
  refine ⟨results, parts.map (·.map Entry.record), done, answered.sizes, ?_, ?_, ?_, ?_, ?_⟩
  · rw [answered.recordsOf fun taken member entry in_ => fit entry (handed taken member entry in_), List.map_map]
    rfl
  · intro records member record in_
    obtain ⟨taken, -, rfl⟩ := List.mem_map.mp member
    obtain ⟨entry, -, rfl⟩ := List.mem_map.mp in_
    exact (recordLength_spec entry.name).2.2
  · intro k
    obtain ⟨rest, whole⟩ := within k
    rw [← List.map_take, view, ← same, ← whole, List.map_append]
    exact List.prefix_append ..
  · intro k result at_
    obtain ⟨taken, page_, empty⟩ := answered.zero_iff at_
    rw [← parts_eq] at page_
    have nothing := Paging.pages_eq_nil_iff Entry.size fitting page_
    rw [parts_eq] at nothing
    rw [empty, nothing, ← List.map_take, view, ← same]
    obtain ⟨rest, whole⟩ := within k
    constructor
    · intro all
      rw [all]
    · intro all
      -- the pages are the front of the entries, and as many as there are
      have lengths := congrArg List.length all
      rw [List.length_map, List.length_map, ← whole, List.length_append] at lengths
      have none_ : rest = [] := List.eq_nil_of_length_eq_zero (by omega)
      rw [none_, List.append_nil] at whole
      exact whole
  · intro enough
    rw [view, ← same, ← parts_eq, Paging.flatten_pages Entry.size fitting]
    rw [← same, List.length_map] at enough
    rw [List.length_map]
    exact enough

end Listing

theorem sysTree_listable :
    Listable sysTree 0 0 { name := [], parent := none, inode := some 0, children := [1] } where
  inode := ⟨_, rfl, rfl, rfl⟩
  live := rfl
  parent := fun _ impossible => nomatch impossible
  children := by
    intro c member
    rw [List.mem_singleton] at member
    subst member
    refine ⟨_, rfl, by decide, by decide, fun j behind => ?_⟩
    cases behind
    exact ⟨_, rfl⟩

/-- The root with `/sys` in it, listed by four calls with room for one record each. -/
theorem getdents64_round_trip_sys : ∃ (results : List (Int × List Byte)) (listed : List (List Record)),
    listDirectory sysTree (some { fInode := some 0, fPos := 0 }) (List.replicate 4 (24, List.replicate 24 0xFF)) =
      .ok results ∧ results.map Prod.fst = [24, 24, 24, 0] ∧
    results.map (fun result => recordsOf result.2) = listed.map some ∧
    listed.flatten.map Record.view = [(dot, true), (dotdot, true), (str sys, true)] := by
  have each : ∀ call ∈ List.replicate 4 (24, List.replicate 24 (0xFF : Byte)), call = (24, List.replicate 24 0xFF) :=
    fun call member => (List.mem_replicate.mp member).2
  obtain ⟨results, listed, done, -, split, -, -, -, all⟩ := getdents64_round_trip sysTree_listable
    (List.replicate 4 (24, List.replicate 24 0xFF))
    (fun call member => by rw [each call member]; decide)
    (fun call member => by rw [each call member]; decide)
  have returns : (listDirectory sysTree (some { fInode := some 0, fPos := 0 })
      (List.replicate 4 (24, List.replicate 24 0xFF))).map (·.map Prod.fst) = .ok [24, 24, 24, 0] := by
    decide +kernel
  rw [done] at returns
  exact ⟨results, listed, done, Except.ok.inj returns, split, all (by decide)⟩

end CreeperKernel.Vfs
