import CreeperKernel.FileEffects

namespace CreeperKernel.Descriptors

open Vfs
open Transitions (Run)

def eSpipe : Int := 29

def seekSet : BitVec 32 := 0
def seekCur : BitVec 32 := 1
def seekEnd : BitVec 32 := 2

/-- The kernel below the file tables: the objects of the file system, and all the rest, such as
what the files and devices hold and the memory of the process. -/
abbrev Below (δ : Type) := Fs × δ

/-- What the calls on a descriptor are made of: the kernel heap, the memory of the process, the
`read` and `write` of each table of operations, the `i_size` of an inode and the log. Each of
them may use and change the whole kernel below the tables, or never return. -/
structure Backend (δ : Type) where
  kmalloc : Proc → BitVec 64 → Below δ → Except Stop (Bool × Below δ)
  kfree : Below δ → Except Stop (Below δ)
  copyFromUser : BitVec 64 → BitVec 64 → Below δ → Except Stop (Option (List Byte) × Below δ)
  copyToUser : BitVec 64 → List Byte → Below δ → Except Stop (Bool × Below δ)
  read : FileOperations → File → BitVec 64 → Below δ → Except Stop ((DeviceReply × List Byte) × Below δ)
  write : FileOperations → File → List Byte → BitVec 64 → Below δ → Except Stop (DeviceReply × Below δ)
  iSize : Ptr → Below δ → Except Stop (BitVec 64)
  sysLog : Int → BitVec 64 → BitVec 64 → Below δ → Except Stop (Below δ)

def movePos (n : Int) (pos : BitVec 64) (proc : Proc) : Proc :=
  { proc with openedFileTable := proc.openedFileTable.map fun table fd =>
      if (fd.val : Int) = n then { table fd with fPos := pos } else table fd }

structure Machine (δ : Type) where
  world : World
  rest : δ

namespace Machine

variable {δ : Type} (m : Machine δ) (pid : Nat)

def below : Below δ := (m.world.fs, m.rest)

/-- The machine after a call on the descriptor `n` that leaves its position at `pos`. -/
def leave (n : Int) (pos : BitVec 64) (k : Below δ) : Machine δ :=
  { world := { fs := k.1, procs := m.world.procs.modify pid (movePos n pos) }, rest := k.2 }

def entry (n : Int) : Option File := do
  let proc ← m.world.procs[pid]?
  let table ← proc.openedFileTable
  let fd ← slot n
  some (table fd)

end Machine

section Calls

variable {δ : Type} (b : Backend δ) (m : Machine δ) (pid : Nat)

/-- The part of a call that acts on the entry `fd`, which must be in use. Of the entry only the
position is written. -/
def withEntry (fd : Int) (body : Proc → File → Ptr → Below δ → Except Stop (DeviceReply × Below δ)) :
    Except Stop (Int × Machine δ) := do
  let proc ← m.world.current pid
  match proc.openedFileTable, slot fd with
  | some table, some index =>
    match (table index).fInode with
    | none => .ok (-eInval, m)
    | some i => do
      let (reply, k) ← body proc (table index) i m.below
      .ok (reply.ret, m.leave pid fd reply.fPos k)
  | _, _ => .ok (-eInval, m)

def readFile (buf count : BitVec 64) (proc : Proc) (file : File) (_ : Ptr) (k : Below δ) :
    Except Stop (DeviceReply × Below δ) :=
  match file.fOps with
  | none => .ok (⟨-eInval, file.fPos⟩, k)
  | some ops => do
    let (kbuf, k) ← b.kmalloc proc count k
    if !kbuf then .ok (⟨-eNomem, file.fPos⟩, k) else do
    let access := file.fFlags &&& oAccmode
    if access ≠ oRdonly ∧ access ≠ oRdwr then do
      let k ← b.kfree k
      .ok (⟨-eAcces, file.fPos⟩, k)
    else do
      let ((reply, data), k) ← b.read ops file count k
      if 0 < reply.ret then do
        let (copied, k) ← b.copyToUser buf (data.take reply.ret.toNat) k
        let k ← b.kfree k
        .ok (⟨if copied then reply.ret else -eFault, reply.fPos⟩, k)
      else do
        let k ← b.kfree k
        .ok (reply, k)

def writeFile (buf count : BitVec 64) (proc : Proc) (file : File) (_ : Ptr) (k : Below δ) :
    Except Stop (DeviceReply × Below δ) :=
  match file.fOps with
  | none => .ok (⟨-eInval, file.fPos⟩, k)
  | some ops => do
    let (kbuf, k) ← b.kmalloc proc count k
    if !kbuf then .ok (⟨-eNomem, file.fPos⟩, k) else do
    match ← b.copyFromUser buf count k with
    | (none, k) => do
      let k ← b.kfree k
      .ok (⟨-eFault, file.fPos⟩, k)
    | (some data, k) => do
      let access := file.fFlags &&& oAccmode
      if access ≠ oWronly ∧ access ≠ oRdwr then do
        let k ← b.kfree k
        .ok (⟨-eAcces, file.fPos⟩, k)
      else do
        let (reply, k) ← b.write ops file data count k
        let k ← b.kfree k
        .ok (reply, k)

def ramfileLseek (offset : BitVec 64) (origin : BitVec 32) (file : File) (i : Ptr) (k : Below δ) :
    Except Stop (DeviceReply × Below δ) :=
  if origin = seekSet then .ok (⟨offset.toInt, offset⟩, k)
  else if origin = seekCur then .ok (⟨(file.fPos + offset).toInt, file.fPos + offset⟩, k)
  else if origin = seekEnd then do
    let size ← b.iSize i k
    .ok (⟨(size + offset).toInt, size + offset⟩, k)
  else .ok (⟨-eInval, file.fPos⟩, k)

/-- The `lseek` of all device files. -/
def chardevLseek (file : File) (k : Below δ) : Except Stop (DeviceReply × Below δ) :=
  .ok (⟨-eSpipe, file.fPos⟩, k)

def lseekFile (offset : BitVec 64) (origin : BitVec 32) (_ : Proc) (file : File) (i : Ptr) (k : Below δ) :
    Except Stop (DeviceReply × Below δ) :=
  match file.fOps with
  | none => .ok (⟨-eInval, file.fPos⟩, k)
  | some .ramFile => ramfileLseek b offset origin file i k
  | some _ => chardevLseek file k

def sysRead (fd : Int) (buf count : BitVec 64) : Except Stop (Int × Machine δ) :=
  if buf = 0 then .ok (-eInval, m) else withEntry m pid fd (readFile b buf count)

def sysWrite (fd : Int) (buf count : BitVec 64) : Except Stop (Int × Machine δ) :=
  -- the standard streams go to the log, whatever the table holds for them
  if fd = 1 ∨ fd = 2 then do
    let k ← b.sysLog fd buf count m.below
    .ok (count.toInt, { world := { m.world with fs := k.1 }, rest := k.2 })
  else if buf = 0 then .ok (-eInval, m)
  else withEntry m pid fd (writeFile b buf count)

/-- `sys_lseek`, which takes its descriptor unsigned. -/
def sysLseek (fd : Int) (offset : BitVec 64) (origin : BitVec 32) : Except Stop (Int × Machine δ) :=
  if 0 ≤ fd ∧ fd < 3 then .ok (-eSpipe, m) else withEntry m pid fd (lseekFile b offset origin)

end Calls

section Duplicates

variable {δ : Type} (b : Backend δ) (m : Machine δ) (pid : Nat) (n old : Int)

/-- Two calls from one state, on the descriptors `n` and `old`, have the same effect: both
return the same, leave the kernel below the tables the same, move only the position of their
own descriptor, and that to the same place. Or both do not return, for the same reason. -/
def Alike (one other : Except Stop (Int × Machine δ)) : Prop :=
  (∃ ret pos k, one = .ok (ret, m.leave pid n pos k) ∧ other = .ok (ret, m.leave pid old pos k)) ∨
    ∃ stop, one = .error stop ∧ other = .error stop

/-- The calls on `n` do what they do on `old`. -/
structure Equivalent : Prop where
  read : ∀ buf count, Alike m pid n old (sysRead b m pid n buf count) (sysRead b m pid old buf count)
  write : ∀ buf count, Alike m pid n old (sysWrite b m pid n buf count) (sysWrite b m pid old buf count)
  lseek : ∀ offset origin,
    Alike m pid n old (sysLseek b m pid n offset origin) (sysLseek b m pid old offset origin)

/-- `sys_dup` of `old` returned `n`, or `sys_dup2` put it there, and left the machine as `m'`. The
`release` of a file that `sys_dup2` closes changes its entry alone. -/
structure Duplicated (m' : Machine δ) : Prop where
  made : sysDup m.world pid old = .ok (n, m'.world) ∨ sysDup2 m.world pid old n = .ok (n, m'.world) ∧ n ≠ old
  succeeded : 0 ≤ n
  rest : m'.rest = m.rest

/-- The descriptor `n` is open on a device file. -/
def OnDevice : Prop := ∃ file ops, m.entry pid n = some file ∧ file.fOps = some ops ∧ ops ≠ .ramFile

end Duplicates

section Entries

variable {δ : Type} {b : Backend δ} {m m' : Machine δ} {pid : Nat} {n old : Int} {proc : Proc} {file : File}
    {index : Fin tableEntries} {table : Table} {i : Ptr} {w w' : World}

theorem slot_eq_some {fd : Int} (found : slot fd = some index) : (index.val : Int) = fd := by
  unfold slot at found
  split at found
  · rename_i inside
    cases found
    show ((fd.toNat : Nat) : Int) = fd
    omega
  · cases found

theorem slot_val (index : Fin tableEntries) : slot index.val = some index := by
  have small := index.isLt
  unfold slot
  rw [dif_pos ⟨by omega, by omega⟩]
  rfl

theorem current_of_get {w : World} (found : w.procs[pid]? = some proc) (alive : proc.alive = true) :
    w.current pid = .ok proc := by
  unfold World.current
  rw [found]
  exact if_pos alive

/-- Two descriptors of a process are open on the same file, at the same position. -/
structure Shared (m : Machine δ) (pid : Nat) (n old : Int) (proc : Proc) (file : File) (i : Ptr) : Prop where
  caller : m.world.current pid = .ok proc
  first : m.entry pid n = some file
  second : m.entry pid old = some file
  used : file.fInode = some i

theorem entry_eq_some (found : m.entry pid n = some file) :
    ∃ proc table index, m.world.procs[pid]? = some proc ∧ proc.openedFileTable = some table ∧
      slot n = some index ∧ table index = file := by
  simpa [Machine.entry, Option.bind_eq_some_iff] using found

theorem movePos_eq (has : proc.openedFileTable = some table)
    (at' : slot n = some index) (pos : BitVec 64) :
    movePos n pos proc =
      { proc with openedFileTable := some (Function.update table index { table index with fPos := pos }) } := by
  unfold movePos
  rw [has, Option.map_some]
  congr 2
  funext fd
  by_cases here : fd = index
  · rw [here, if_pos (slot_eq_some at'), Function.update_self]
  · rw [if_neg fun same => here (Fin.ext (by have := slot_eq_some at'; omega)), Function.update_of_ne here]

theorem leave_pos (found : m.entry pid n = some file) (k : Below δ) :
    m.leave pid n file.fPos k = { world := { m.world with fs := k.1 }, rest := k.2 } := by
  obtain ⟨proc, table, index, process, has, at', same⟩ := entry_eq_some found
  have kept : movePos n file.fPos proc = proc := by
    rw [movePos_eq has at', ← same, Function.update_eq_self, ← has]
  have procs : m.world.procs.modify pid (movePos n file.fPos) = m.world.procs := by
    apply List.ext_getElem?
    intro q
    rw [List.getElem?_modify]
    by_cases here : pid = q
    · rw [← here, process]
      simp [kept]
    · simp [here]
  unfold Machine.leave
  rw [procs]

theorem leave_self (found : m.entry pid n = some file) : m.leave pid n file.fPos m.below = m :=
  leave_pos found m.below

theorem leave_eq (process : m.world.procs[pid]? = some proc)
    (has : proc.openedFileTable = some table) (at' : slot n = some index) (pos : BitVec 64) (k : Below δ) :
    m.leave pid n pos k =
      { world := ({ m.world with fs := k.1 } : World).setProc pid
          { proc with openedFileTable := some (Function.update table index { table index with fPos := pos }) }
        rest := k.2 } := by
  unfold Machine.leave World.setProc
  rw [List.modify_eq_set_getElem?, process]
  show Machine.mk { fs := k.1, procs := m.world.procs.set pid (movePos n pos proc) } k.2 = _
  rw [movePos_eq has at']

theorem withEntry_of_entry {body : Proc → File → Ptr → Below δ → Except Stop (DeviceReply × Below δ)}
    (caller : m.world.current pid = .ok proc) (found : m.entry pid n = some file) (used : file.fInode = some i) :
    withEntry m pid n body =
      (body proc file i m.below).map fun result => (result.1.ret, m.leave pid n result.1.fPos result.2) := by
  obtain ⟨proc', table, index, process, has, at', same⟩ := entry_eq_some found
  have : proc' = proc := by
    have := (current_eq_ok caller).1
    rw [process] at this
    exact Option.some.inj this
  subst this same
  unfold withEntry
  rw [caller]
  show (match proc'.openedFileTable, slot n with
    | some table, some index => _
    | _, _ => _) = _
  rw [has, at']
  simp only [used]
  cases body proc' (table index) i m.below <;> rfl

theorem withEntry_alike (shared : Shared m pid n old proc file i)
    (body : Proc → File → Ptr → Below δ → Except Stop (DeviceReply × Below δ)) :
    Alike m pid n old (withEntry m pid n body) (withEntry m pid old body) := by
  rw [withEntry_of_entry shared.caller shared.first shared.used,
    withEntry_of_entry shared.caller shared.second shared.used]
  cases body proc file i m.below with
  | ok result => exact .inl ⟨_, _, _, rfl, rfl⟩
  | error stop => exact .inr ⟨stop, rfl, rfl⟩

theorem alike_of_returned (shared : Shared m pid n old proc file i) (ret : Int) :
    Alike m pid n old (.ok (ret, m)) (.ok (ret, m)) :=
  .inl ⟨ret, file.fPos, m.below, by rw [leave_self shared.first], by rw [leave_self shared.second]⟩

theorem not_alike_of_ret {ret ret' : Int} {m₁ m₂ : Machine δ} (differ : ret ≠ ret') :
    ¬ Alike m pid n old (.ok (ret, m₁)) (.ok (ret', m₂)) := by
  intro alike
  rcases alike with ⟨r, pos, k, one, other⟩ | ⟨stop, one, -⟩
  · apply differ
    cases one
    cases other
    rfl
  · cases one

/-- What `sys_dup` and `sys_dup2` do when they succeed: the entry `target` becomes a copy of the
entry `from'`. -/
structure Copies (w w' : World) (pid : Nat) (from' target : Fin tableEntries) (table : Table) (i : Ptr) : Prop where
  apart : target ≠ from'
  used : (table from').fInode = some i
  copied : ∃ proc fs, w.current pid = .ok proc ∧ proc.openedFileTable = some table ∧
    w' = ({ w with fs } : World).setProc pid
      { proc with openedFileTable := some (Function.update table target (table from')) }

theorem sysDup_copies (done : sysDup w pid old = .ok (n, w')) (succeeded : 0 ≤ n) :
    ∃ from' target table i, slot old = some from' ∧ slot n = some target ∧ Copies w w' pid from' target table i := by
  obtain ⟨proc, caller, done⟩ := bind_eq_ok.mp done
  split at done
  · cases done
    exact absurd succeeded (by decide)
  · rename_i table has
    split at done
    · cases done
      exact absurd succeeded (by decide)
    · rename_i from' given
      split at done
      · cases done
        exact absurd succeeded (by decide)
      · rename_i i used
        dsimp only at done
        split at done
        · cases done
          exact absurd succeeded (by decide)
        · rename_i target found
          obtain ⟨fs, counts, done⟩ := bind_eq_ok.mp done
          cases done
          -- the entry copied is in use and the one found is not
          have apart : target ≠ from' := by
            intro same
            have free := freeSlot_free found
            rw [same, used] at free
            cases free
          exact ⟨from', target, table, i, given, slot_val target, apart, used, proc, fs, caller, has, rfl⟩

theorem sysDup2_copies (done : sysDup2 w pid old n = .ok (n, w')) (succeeded : 0 ≤ n) (differ : n ≠ old) :
    ∃ from' target table i, slot old = some from' ∧ slot n = some target ∧ Copies w w' pid from' target table i := by
  obtain ⟨proc, caller, done⟩ := bind_eq_ok.mp done
  split at done
  · rename_i table from' target has given wanted
    have apart : target ≠ from' := by
      intro same
      have := slot_eq_some given
      have := slot_eq_some wanted
      rw [same] at this
      omega
    split at done
    · cases done
      exact absurd succeeded (by decide)
    · rename_i i used
      rw [if_neg apart.symm] at done
      -- whether or not the file open there is released first
      split at done
      all_goals
        obtain ⟨fs₁, released, done⟩ := bind_eq_ok.mp done
        obtain ⟨fs, counts, done⟩ := bind_eq_ok.mp done
        cases done
        exact ⟨from', target, table, i, given, wanted, apart, used, proc, fs, caller, has, rfl⟩
  · cases done
    exact absurd succeeded (by decide)

theorem Copies.shared {from' target : Fin tableEntries} (copies : Copies m.world m'.world pid from' target table i) :
    (∃ proc, Shared m' pid target.val from'.val proc (table from') i) ∧ m.entry pid from'.val = some (table from') := by
  obtain ⟨proc, fs, caller, has, after⟩ := copies.copied
  obtain ⟨process, alive⟩ := current_eq_ok caller
  obtain ⟨inside, -⟩ := List.getElem?_eq_some_iff.mp process
  have now : m'.world.procs[pid]? =
      some { proc with openedFileTable := some (Function.update table target (table from')) } := by
    rw [after]
    exact List.getElem?_set_self inside
  have entries (fd : Fin tableEntries) :
      m'.entry pid fd.val = some (Function.update table target (table from') fd) := by
    simp only [Machine.entry, now, slot_val, Option.bind_eq_bind, Option.bind_some]
  constructor
  · refine ⟨_, current_of_get now alive, ?_, ?_, copies.used⟩
    · rw [entries, Function.update_self]
    · rw [entries, Function.update_of_ne copies.apart.symm]
  · simp only [Machine.entry, process, has, slot_val, Option.bind_eq_bind, Option.bind_some]

theorem Duplicated.shared (duplicated : Duplicated m pid n old m') :
    ∃ proc file i, Shared m' pid n old proc file i ∧ m.entry pid old = some file := by
  have copied : ∃ from' target table i, slot old = some from' ∧ slot n = some target ∧
      Copies m.world m'.world pid from' target table i := by
    rcases duplicated.made with dup | ⟨dup, differ⟩
    · exact sysDup_copies dup duplicated.succeeded
    · exact sysDup2_copies dup duplicated.succeeded differ
  obtain ⟨from', target, table, i, given, wanted, copies⟩ := copied
  obtain ⟨⟨proc, shared⟩, before⟩ := copies.shared
  rw [slot_eq_some given, slot_eq_some wanted] at shared
  rw [slot_eq_some given] at before
  exact ⟨proc, table from', i, shared, before⟩

end Entries

section Numbers

variable {δ : Type} {b : Backend δ} {m m' : Machine δ} {pid : Nat} {n old : Int} {proc : Proc} {file : File} {i : Ptr}

theorem read_alike (shared : Shared m pid n old proc file i) (buf count : BitVec 64) :
    Alike m pid n old (sysRead b m pid n buf count) (sysRead b m pid old buf count) := by
  unfold sysRead
  split
  · exact alike_of_returned shared _
  · exact withEntry_alike shared _

theorem write_alike (shared : Shared m pid n old proc file i) (high : 3 ≤ old) (stream : n ≠ 1 ∧ n ≠ 2)
    (buf count : BitVec 64) : Alike m pid n old (sysWrite b m pid n buf count) (sysWrite b m pid old buf count) := by
  unfold sysWrite
  rw [if_neg (show ¬ (n = 1 ∨ n = 2) by omega), if_neg (show ¬ (old = 1 ∨ old = 2) by omega)]
  split
  · exact alike_of_returned shared _
  · exact withEntry_alike shared _

theorem lseek_alike (shared : Shared m pid n old proc file i) (high : 3 ≤ old) (also : 3 ≤ n) (offset : BitVec 64)
    (origin : BitVec 32) : Alike m pid n old (sysLseek b m pid n offset origin) (sysLseek b m pid old offset origin) := by
  unfold sysLseek
  rw [if_neg (by omega), if_neg (by omega)]
  exact withEntry_alike shared _

theorem lseek_alike_of_device {ops : FileOperations} (shared : Shared m pid n old proc file i) (high : 3 ≤ old)
    (input : n = 0) (device : file.fOps = some ops) (char : ops ≠ .ramFile) (offset : BitVec 64) (origin : BitVec 32) :
    Alike m pid n old (sysLseek b m pid n offset origin) (sysLseek b m pid old offset origin) := by
  have refused : lseekFile b offset origin proc file i m.below = .ok (⟨-eSpipe, file.fPos⟩, m.below) := by
    unfold lseekFile
    rw [device]
    cases ops
    case ramFile => exact absurd rfl char
    all_goals rfl
  unfold sysLseek
  rw [if_pos (by omega), if_neg (by omega), withEntry_of_entry shared.caller shared.second shared.used, refused]
  exact .inl ⟨-eSpipe, file.fPos, m.below, by rw [leave_self shared.first], rfl⟩

/-- A write of nothing from NULL tells the standard streams from any other descriptor. -/
theorem write_differs (high : 3 ≤ old) (stream : n = 1 ∨ n = 2) :
    ¬ Alike m pid n old (sysWrite b m pid n 0 0) (sysWrite b m pid old 0 0) := by
  unfold sysWrite
  rw [if_pos stream, if_neg (by omega), if_pos rfl]
  cases b.sysLog n 0 0 m.below with
  | ok k => exact not_alike_of_ret (by decide)
  | error stop =>
    intro alike
    rcases alike with ⟨ret, pos, k, one, -⟩ | ⟨stop, -, other⟩
    · cases one
    · cases other

/-- A seek to the start tells standard input from any descriptor that is not of a device. -/
theorem lseek_differs (shared : Shared m pid n old proc file i) (high : 3 ≤ old) (input : n = 0)
    (regular : file.fOps = none ∨ file.fOps = some .ramFile) :
    ¬ Alike m pid n old (sysLseek b m pid n 0 seekSet) (sysLseek b m pid old 0 seekSet) := by
  unfold sysLseek
  rw [if_pos (by omega), if_neg (by omega), withEntry_of_entry shared.caller shared.second shared.used]
  rcases regular with none' | ram
  · have : lseekFile b 0 seekSet proc file i m.below = .ok (⟨-eInval, file.fPos⟩, m.below) := by
      unfold lseekFile
      rw [none']
    rw [this]
    exact not_alike_of_ret (show -eSpipe ≠ -eInval by decide)
  · have : lseekFile b 0 seekSet proc file i m.below = .ok (⟨0, 0⟩, m.below) := by
      unfold lseekFile
      rw [ram]
      exact if_pos rfl
    rw [this]
    exact not_alike_of_ret (show -eSpipe ≠ 0 by decide)

/-- A duplicate of a descriptor behaves like the descriptor exactly when its number is none of
the standard streams', or it is standard input and of a device. -/
theorem duplicate_equivalent_iff {δ : Type} (b : Backend δ) (m m' : Machine δ) (pid : Nat) (n old : Int)
    (high : 3 ≤ old) (duplicated : Duplicated m pid n old m') :
    Equivalent b m' pid n old ↔ 3 ≤ n ∨ n = 0 ∧ OnDevice m pid old := by
  obtain ⟨proc, file, i, shared, before⟩ := duplicated.shared
  have succeeded := duplicated.succeeded
  constructor
  · intro equivalent
    by_cases also : 3 ≤ n
    · exact .inl also
    · have input : n = 0 := by
        by_contra stream
        exact write_differs high (by omega) (equivalent.write 0 0)
      refine .inr ⟨input, ?_⟩
      by_contra regular
      apply lseek_differs shared high input _ (equivalent.lseek 0 seekSet)
      match found : file.fOps with
      | none => exact .inl rfl
      | some ops =>
        have ram : ops = .ramFile := by
          by_contra char
          exact regular ⟨file, ops, before, found, char⟩
        exact .inr (by rw [ram])
  · intro fine
    rcases fine with also | ⟨input, file', ops, same, device, char⟩
    · exact ⟨read_alike shared, write_alike shared high (by omega), lseek_alike shared high also⟩
    · rw [before] at same
      cases same
      exact ⟨read_alike shared, write_alike shared high (by omega), lseek_alike_of_device shared high input device char⟩

/-- `/tmp/a` is created by an open. -/
def openTmp : List Event := [⟨0, [], .open_ (some (absolute [['t', 'm', 'p'], ['a']])) (oCreat ||| oRdwr) 0o644⟩]

theorem exists_dup2_of_endsWith {n : Int}
    (ends : endsWith (fun w => endsWith (fun opened => endsWith (fun after => decide (after.1 = n)) (sysDup2 opened 0 3 n))
      (runFiles w openTmp)) bootWorld = true) :
    ∃ w opened w', bootWorld = .ok w ∧ Run FileStep w openTmp opened ∧ sysDup2 opened 0 3 n = .ok (n, w') := by
  obtain ⟨w, boots, ends⟩ := exists_of_endsWith ends
  obtain ⟨opened, opens, ends⟩ := exists_of_endsWith ends
  obtain ⟨⟨ret, w'⟩, dup, same⟩ := exists_of_endsWith ends
  have same : ret = n := of_decide_eq_true same
  subst same
  exact ⟨w, opened, w', boots, run_of_runFiles opens, dup⟩

/-- After boot, a file is opened and its descriptor duplicated to number 5. -/
theorem duplicate_equivalent_iff_five : ∃ w opened w', bootWorld = .ok w ∧ Run FileStep w openTmp opened ∧
    sysDup2 opened 0 3 5 = .ok (5, w') ∧ ∀ b : Backend Unit, Equivalent b ⟨w', ()⟩ 0 5 3 := by
  obtain ⟨w, opened, w', boots, opens, dup⟩ := exists_dup2_of_endsWith (n := 5) (by decide +kernel)
  refine ⟨w, opened, w', boots, opens, dup, fun b => ?_⟩
  apply (duplicate_equivalent_iff b ⟨opened, ()⟩ ⟨w', ()⟩ 0 5 3 (by decide) ⟨.inr ⟨dup, by decide⟩, by decide, rfl⟩).mpr
  exact .inl (by decide)

/-- After boot, a file is opened and standard output directed to it: what is written there goes to
the log, whatever reads and writes of files do. -/
theorem redirected_output_differs : ∃ w opened w', bootWorld = .ok w ∧ Run FileStep w openTmp opened ∧
    sysDup2 opened 0 3 1 = .ok (1, w') ∧ ∀ b : Backend Unit, ¬ Equivalent b ⟨w', ()⟩ 0 1 3 := by
  obtain ⟨w, opened, w', boots, opens, dup⟩ := exists_dup2_of_endsWith (n := 1) (by decide +kernel)
  refine ⟨w, opened, w', boots, opens, dup, fun b equivalent => ?_⟩
  exact write_differs (by decide) (.inl rfl) (equivalent.write 0 0)

end Numbers

section Files

variable (w : World) (pid : Nat) (heap : List Bool) (device : DeviceReply) (faults : Bool) {index : Fin tableEntries}
    {fd : Int} {table : Table} {proc : Proc}

/-- The calls with nothing but the objects of the file system below: RAM files report how far
they are read or written, and devices answer as given. -/
def fileBackend : Backend Unit where
  kmalloc proc count k :=
    if count = 0 then .ok (false, k)
    else .ok ((k.1.seenBy proc heap).kmalloc.1.isSome, (k.1.seenBy proc heap).kmalloc.2, ())
  kfree k := .ok k
  copyFromUser _ _ k := .ok (if faults then none else some [], k)
  copyToUser _ _ k := .ok (!faults, k)
  read ops file count k :=
    if ops = .ramFile then do
      let i ← Fs.deref file.fInode
      let (ret, pos) ← ramfileRead k.1 i file.fPos count
      .ok ((⟨ret, pos⟩, []), k)
    else .ok ((device, []), k)
  write ops file _ count k :=
    if ops = .ramFile then do
      let i ← Fs.deref file.fInode
      let (ret, pos) ← ramfileWrite k.1 i file.fPos count
      .ok (⟨ret, pos⟩, k)
    else .ok (device, k)
  iSize _ _ := .ok 0
  sysLog _ _ _ k := .ok k

def lift (result : Except Stop (Int × World)) : Except Stop (Int × Machine Unit) :=
  result.map fun after => (after.1, ⟨after.2, ()⟩)

variable {w pid heap device faults}

theorem withEntry_eq_withFile {body : Proc → File → Ptr → Below Unit → Except Stop (DeviceReply × Below Unit)}
    {call : Proc → Table → Fin tableEntries → Ptr → Except Stop (Int × World)}
    (same : ∀ proc table index i, w.current pid = .ok proc → proc.openedFileTable = some table →
      slot fd = some index → (table index).fInode = some i →
      (body proc (table index) i (⟨w, ()⟩ : Machine Unit).below).map (fun result =>
        (result.1.ret, (⟨w, ()⟩ : Machine Unit).leave pid fd result.1.fPos result.2)) = lift (call proc table index i)) :
    withEntry ⟨w, ()⟩ pid fd body = lift (withFile w pid fd call) := by
  unfold withEntry withFile
  cases caller : w.current pid with
  | error stop => rfl
  | ok proc =>
    simp only [bind, Except.bind]
    cases has : proc.openedFileTable with
    | none => rfl
    | some table =>
      cases given : slot fd with
      | none => rfl
      | some index =>
        cases used : (table index).fInode with
        | none => simp only [used]; rfl
        | some i =>
          simp only [used]
          have := same proc table index i caller has given used
          rw [← this]
          cases body proc (table index) i (⟨w, ()⟩ : Machine Unit).below <;> rfl

theorem lift_leave (caller : w.current pid = .ok proc)
    (has : proc.openedFileTable = some table) (given : slot fd = some index) (pos : BitVec 64) (fs : Fs) :
    (⟨w, ()⟩ : Machine Unit).leave pid fd pos (fs, ()) =
      ⟨({ w with fs } : World).setProc pid
        { proc with openedFileTable := some (Function.update table index { table index with fPos := pos }) }, ()⟩ :=
  leave_eq (m := (⟨w, ()⟩ : Machine Unit)) (current_eq_ok caller).1 has given pos (fs, ())

theorem lift_leave_pos
    (caller : w.current pid = .ok proc) (has : proc.openedFileTable = some table) (given : slot fd = some index) (fs : Fs) :
    (⟨w, ()⟩ : Machine Unit).leave pid fd (table index).fPos (fs, ()) = ⟨{ w with fs }, ()⟩ := by
  apply leave_pos
  simp [Machine.entry, (current_eq_ok caller).1, has, given]

/-- `sys_write` of the file model is the call over this backend. -/
theorem sysWrite_files (fd : Int) (buf count : BitVec 64) :
    sysWrite (fileBackend heap device faults) ⟨w, ()⟩ pid fd buf count =
      lift (Vfs.sysWrite w pid heap fd (decide (buf ≠ 0)) count device faults) := by
  unfold sysWrite Vfs.sysWrite
  by_cases stream : fd = 1 ∨ fd = 2
  · rw [if_pos stream, if_pos stream]
    rfl
  by_cases null : buf = 0
  · rw [if_neg stream, if_neg stream, if_pos null, if_pos (by simp [null])]
    rfl
  rw [if_neg stream, if_neg stream, if_neg null, if_neg (by simpa using null)]
  apply withEntry_eq_withFile
  intro proc table index i caller has given used
  have stays := lift_leave_pos caller has given
  have moves := lift_leave caller has given
  unfold writeFile
  simp only [fileBackend, transfer, bind, Except.bind, Machine.below, Except.map, lift]
  cases kind : (table index).fOps with
  | none => simp [stays]
  | some ops =>
    by_cases empty : count = 0#64
    · simp [empty, stays]
    rcases (w.fs.seenBy proc heap).kmalloc with ⟨kbuf, fs⟩
    cases kbuf with
    | none => simp [empty, stays]
    | some kbuf =>
      cases faults with
      | true => simp [empty, stays]
      | false =>
        by_cases access : (table index).fFlags &&& oAccmode ≠ oWronly ∧ (table index).fFlags &&& oAccmode ≠ oRdwr
        · simp [empty, access, stays]
        · by_cases ram : ops = .ramFile
          · cases written : ramfileWrite fs i (table index).fPos count <;>
              simp [empty, access, used, Fs.deref, ram, written, moves, kind]
          · simp [empty, access, ram, moves, kind]

/-- `sys_read` of the file model is the call over this backend. -/
theorem sysRead_files (fd : Int) (buf count : BitVec 64) :
    sysRead (fileBackend heap device faults) ⟨w, ()⟩ pid fd buf count =
      lift (Vfs.sysRead w pid heap fd (decide (buf ≠ 0)) count device faults) := by
  unfold sysRead Vfs.sysRead
  by_cases null : buf = 0
  · rw [if_pos null, if_pos (by simp [null])]
    rfl
  rw [if_neg null, if_neg (by simpa using null)]
  apply withEntry_eq_withFile
  intro proc table index i caller has given used
  have stays := lift_leave_pos caller has given
  have moves := lift_leave caller has given
  unfold readFile
  simp only [fileBackend, transfer, bind, Except.bind, Machine.below, Except.map, lift]
  cases kind : (table index).fOps with
  | none => simp [stays]
  | some ops =>
    by_cases empty : count = 0#64
    · simp [empty, stays]
    rcases (w.fs.seenBy proc heap).kmalloc with ⟨kbuf, fs⟩
    cases kbuf with
    | none => simp [empty, stays]
    | some kbuf =>
      by_cases access : (table index).fFlags &&& oAccmode ≠ oRdonly ∧ (table index).fFlags &&& oAccmode ≠ oRdwr
      · simp [empty, access, stays]
      · by_cases ram : ops = .ramFile
        · cases copied : ramfileRead fs i (table index).fPos count with
          | error stop => simp [empty, access, used, Fs.deref, ram, copied]
          | ok reply =>
            by_cases some' : 0 < reply.1 <;> cases faults <;>
              simp [empty, access, used, Fs.deref, ram, copied, moves, kind, some']
        · by_cases some' : 0 < device.ret <;> cases faults <;>
            simp [empty, access, ram, moves, kind, some']

end Files

end CreeperKernel.Descriptors
