import CreeperKernel.VfsPaths

namespace CreeperKernel.Vfs

/-- `struct file`, an entry of a process's file table. -/
structure File where
  fInode : Option Ptr
  fPos : BitVec 64
  fFlags : BitVec 32
  privateData : Option Ptr
  fOps : Option FileOperations
  deriving DecidableEq, Repr

def File.empty : File := { fInode := none, fPos := 0, fFlags := 0, privateData := none, fOps := none }

def tableEntries : Nat := 256

abbrev Table := Fin tableEntries → File

/-- A process: `alive` is false from `usproc_exit` on. -/
structure Proc where
  alive : Bool
  openedFileTable : Option Table
  cwdI : Option Ptr
  uid : Nat
  gid : Nat

structure World where
  fs : Fs
  procs : List Proc

def oAccmode : BitVec 32 := 0o10000003
def oRdonly : BitVec 32 := 0
def oWronly : BitVec 32 := 1
def oRdwr : BitVec 32 := 2
def oCreat : BitVec 32 := 0o100
def atFdcwd : Int := -100
def atRemovedir : BitVec 32 := 0x200
def eFault : Int := 14

namespace World

/-- The process `pid`, which must be there and alive to make a call. -/
def current (w : World) (pid : Nat) : Except Stop Proc :=
  match w.procs[pid]? with
  | some proc => if proc.alive then .ok proc else .error .dangling
  | none => .error .dangling

def setProc (w : World) (pid : Nat) (proc : Proc) : World := { w with procs := w.procs.set pid proc }

@[simp] theorem setProc_fs (w : World) (pid : Nat) (proc : Proc) : (w.setProc pid proc).fs = w.fs := rfl

end World

/-- The file system as a process sees it that runs with the memory `heap` says. -/
def Fs.seenBy (fs : Fs) (proc : Proc) (heap : List Bool) : Fs := { fs with uid := proc.uid, gid := proc.gid, heap }

def pathResolveStart (fs : Fs) (proc : Proc) (path : Name) : Except Stop (Option Ptr) :=
  if path.head? = some slash then do
    let root ← fs.dentry fs.rootDentry
    .ok root.inode
  else .ok proc.cwdI

/-- The entry `fd` of a file table, if there is one. A negative `fd` is a large number when it
is compared with the size of the table. -/
def slot (fd : Int) : Option (Fin tableEntries) :=
  if h : 0 ≤ fd ∧ fd < tableEntries then some ⟨fd.toNat, by omega⟩ else none

def resolveAt (fs : Fs) (proc : Proc) (dfd : Int) (path : Name) : Except Stop (Option Ptr) :=
  if path.head? = some slash then pathResolveStart fs proc path
  else if dfd = atFdcwd then .ok proc.cwdI
  else match slot dfd, proc.openedFileTable with
    | some fd, some table =>
      match (table fd).fInode with
      | none => .ok none
      | some i => do
        let inode ← fs.inode i
        if sIsdir inode.iMode then .ok (some i) else .ok none
    | _, _ => .ok none

/-- The first unused entry of a table, from index `first` on. -/
def freeSlot (table : Table) (first : Nat) : Option (Fin tableEntries) :=
  (List.finRange tableEntries).find? fun fd => first ≤ fd.val && (table fd).fInode.isNone

section Calls

variable (w : World) (pid : Nat) (heap : List Bool)

/-- The end of `sys_open`: the entry `fd` is filled in for the dentry `d`. The `open` of all
file operations takes over position, operations and `i_private` of the inode, and succeeds. -/
def install (fs : Fs) (proc : Proc) (table : Table) (fd : Fin tableEntries) (flags : BitVec 32) (d : Ptr) :
    Except Stop (Int × World) := do
  let i ← fs.inodeOf d
  let inode ← fs.inode i
  let file : File :=
    { fInode := some i, fPos := 0, fFlags := flags
      privateData := if inode.iFop.isSome then inode.iPrivate else none, fOps := inode.iFop }
  let fs := fs.setInode i { inode with iCount := inode.iCount + 1 }
  .ok (fd.val, { w with fs }.setProc pid { proc with openedFileTable := some (Function.update table fd file) })

/-- `sys_open` and `sys_openat` from where they have their `start`. -/
def openFrom (fs : Fs) (proc : Proc) (table : Table) (start : Option Ptr) (path : Name) (flags mode : BitVec 32) :
    Except Stop (Int × World) :=
  match start with
  | none => .ok (-eInval, { w with fs })
  | some start =>
    match freeSlot table 3 with
    | none => .ok (-eInval, { w with fs })
    | some fd => do
      let (found, fs) ← kpathLookup fs start path
      match found with
      | some d => install w pid fs proc table fd flags d
      | none =>
        if flags &&& oCreat = 0 then .ok (-eInval, { w with fs }) else do
        let (ret, fs) ← kpathCreate fs start path (mode.setWidth 16 ||| sIfreg) false
        if ret < 0 then .ok (ret, { w with fs }) else do
        let (found, fs) ← kpathLookup fs start path
        match found with
        | none => .ok (-eInval, { w with fs })
        | some d => install w pid fs proc table fd flags d

/-- The start of a call that is given a path: a NULL path is refused. -/
def withPath (filename : Option Name)
    (body : Fs → Proc → Name → Except Stop (Int × World)) : Except Stop (Int × World) := do
  let proc ← w.current pid
  match filename with
  | none => .ok (-eInval, w)
  | some path => body (w.fs.seenBy proc heap) proc path

/-- The opening calls, which differ in where a relative path starts. -/
def openPath (resolve : Fs → Proc → Name → Except Stop (Option Ptr)) (filename : Option Name) (flags mode : BitVec 32) :
    Except Stop (Int × World) :=
  withPath w pid heap filename fun fs proc path =>
    match proc.openedFileTable with
    | none => .ok (-eInval, w)
    | some table => do
      let start ← resolve fs proc path
      openFrom w pid fs proc table start path flags mode

def sysOpen (filename : Option Name) (flags mode : BitVec 32) : Except Stop (Int × World) :=
  openPath w pid heap pathResolveStart filename flags mode

def sysOpenat (dfd : Int) (filename : Option Name) (flags mode : BitVec 32) : Except Stop (Int × World) :=
  openPath w pid heap (resolveAt · · dfd ·) filename flags mode

/-- The calls that hand their start and path to one operation on paths. -/
def onPath (resolve : Fs → Proc → Name → Except Stop (Option Ptr)) (filename : Option Name)
    (operation : Fs → Ptr → Name → Except Stop (Int × Fs)) : Except Stop (Int × World) :=
  withPath w pid heap filename fun fs proc path => do
    match ← resolve fs proc path with
    | none => .ok (-eInval, w)
    | some start => do
      let (ret, fs) ← operation fs start path
      .ok (ret, { w with fs })

def sysMkdir (path : Option Name) (mode : BitVec 32) : Except Stop (Int × World) :=
  onPath w pid heap pathResolveStart path fun fs start path => kpathMkdir fs start path (mode.setWidth 16)

def sysMkdirat (dfd : Int) (path : Option Name) (mode : BitVec 32) : Except Stop (Int × World) :=
  onPath w pid heap (fun fs proc path => resolveAt fs proc dfd path) path fun fs start path =>
    kpathMkdir fs start path (mode.setWidth 16)

def sysCreate (path : Option Name) (mode : BitVec 32) : Except Stop (Int × World) :=
  onPath w pid heap pathResolveStart path fun fs start path => kpathCreate fs start path (mode.setWidth 16) false

/-- `split_path` and what follows it: it copies the path, the parent path and the name, and
refuses an empty name. -/
def onSplit (operation : Fs → Ptr → Name → Name → Except Stop (Int × Fs)) (fs : Fs) (start : Ptr) (path : Name) :
    Except Stop (Int × Fs) :=
  match fs.kmalloc with
  | (none, fs) => .ok (-eNomem, fs)
  | (some _, fs) =>
    match fs.kmalloc with
    | (none, fs) => .ok (-eNomem, fs)
    | (some _, fs) =>
      if (splitLast path).2 = [] then .ok (-eInval, fs) else
      match fs.kmalloc with
      | (none, fs) => .ok (-eNomem, fs)
      | (some _, fs) => operation fs start (splitLast path).1 (splitLast path).2

def sysRmdir (path : Option Name) : Except Stop (Int × World) :=
  onPath w pid heap pathResolveStart path (onSplit kpathRmdir)

def sysUnlink (path : Option Name) : Except Stop (Int × World) :=
  onPath w pid heap pathResolveStart path (onSplit pathUnlink)

/-- `sys_chdir` from its start on: the new directory keeps the count of its lookup, the old one keeps its own. -/
def chdirTo (fs : Fs) (proc : Proc) (start : Ptr) (path : Name) : Except Stop (Int × World) := do
  let (found, fs) ← kpathLookup fs start path
  match found with
  | none => .ok (-eNoent, { w with fs })
  | some d => do
    let i ← fs.inodeOf d
    let inode ← fs.inode i
    if sIsdir inode.iMode then .ok (0, { w with fs }.setProc pid { proc with cwdI := some i })
    else .ok (-eNotdir, { w with fs })

def sysChdir (path : Option Name) : Except Stop (Int × World) :=
  withPath w pid heap path fun fs proc path => do
    match ← pathResolveStart fs proc path with
    | none => .ok (-eInval, w)
    | some start => chdirTo w pid fs proc start path

/-- The permission bits that `sys_access` checks, in the place of the owner's. -/
def permBits (proc : Proc) (inode : Inode) : UMode :=
  if proc.uid = 0 then 0o711
  else if proc.uid = inode.iUid then inode.iMode &&& 0o700
  else if proc.gid = inode.iGid then (inode.iMode &&& 0o070) <<< 3
  else (inode.iMode &&& 0o007) <<< 6

/-- The check of `sys_access` for the wanted accesses (4 to read, 2 to write, 1 to execute). -/
def accessAllowed (bits : UMode) (mode : BitVec 32) : Bool :=
  (mode &&& 4 = 0 || bits &&& 0o400 ≠ 0) && (mode &&& 2 = 0 || bits &&& 0o200 ≠ 0) &&
    (mode &&& 1 = 0 || bits &&& 0o100 ≠ 0)

def accessAt (fs : Fs) (proc : Proc) (start : Ptr) (path : Name) (mode : BitVec 32) : Except Stop (Int × World) := do
  let (found, fs) ← kpathLookup fs start path
  match found with
  | none => .ok (-eNoent, { w with fs })
  | some d => do
    let i ← fs.inodeOf d
    let inode ← fs.inode i
    if mode = 0 ∨ accessAllowed (permBits proc inode) mode then .ok (0, { w with fs })
    else .ok (-eAcces, { w with fs })

def sysAccess (path : Option Name) (mode : BitVec 32) : Except Stop (Int × World) :=
  withPath w pid heap path fun fs proc path => do
    match ← pathResolveStart fs proc path with
    | none => .ok (-eInval, w)
    | some start => accessAt w fs proc start path mode

/-- The start of a call that is given a descriptor: the table and its entry in use. -/
def withFile (fd : Int) (body : Proc → Table → Fin tableEntries → Ptr → Except Stop (Int × World)) :
    Except Stop (Int × World) := do
  let proc ← w.current pid
  match proc.openedFileTable with
  | none => .ok (-eInval, w)
  | some table =>
    match slot fd with
    | none => .ok (-eInval, w)
    | some fd =>
      match (table fd).fInode with
      | none => .ok (-eInval, w)
      | some i => body proc table fd i

/-- `atomic_fetch_add` or `atomic_fetch_sub` on the count of an inode. -/
def addCount (fs : Fs) (i : Ptr) (by_ : Int) : Except Stop Fs := do
  let inode ← fs.inode i
  .ok (fs.setInode i { inode with iCount := inode.iCount + by_ })

def sysClose (fd : Int) : Except Stop (Int × World) :=
  withFile w pid fd fun proc table fd i => do
    let fs ← addCount w.fs i (-1)
    .ok (0, { w with fs }.setProc pid { proc with openedFileTable := some (Function.update table fd File.empty) })

def sysDup (oldfd : Int) : Except Stop (Int × World) :=
  withFile w pid oldfd fun proc table oldfd i =>
    match freeSlot table 0 with
    | none => .ok (-eMfile, w)
    | some newfd => do
      let fs ← addCount w.fs i 1
      .ok (newfd.val, { w with fs }.setProc pid
        { proc with openedFileTable := some (Function.update table newfd (table oldfd)) })

def sysDup2 (oldfd newfd : Int) : Except Stop (Int × World) := do
  let proc ← w.current pid
  match proc.openedFileTable, slot oldfd, slot newfd with
  | some table, some old, some new =>
    match (table old).fInode with
    | none => .ok (-eInval, w)
    | some i =>
      if old = new then .ok (newfd, w) else do
      let fs ← match (table new).fInode with
        | none => .ok w.fs
        | some j => addCount w.fs j (-1)
      let fs ← addCount fs i 1
      .ok (newfd, { w with fs }.setProc pid
        { proc with openedFileTable := some (Function.update table new (table old)) })
  | _, _, _ => .ok (-eInval, w)

/-- What a device returns for a read or a write, and where it leaves the position. -/
structure DeviceReply where
  ret : Int
  fPos : BitVec 64

/-- The `ramfile_info` of an open file, and its contents if it has any, must not have been
released. -/
def fileInfo (fs : Fs) (i : Ptr) : Except Stop (Option RamfileInfo) := do
  let inode ← fs.inode i
  match inode.iPrivate with
  | none => .ok none
  | some p => do
    let info ← Fs.deref (fs.infos p)
    if info.start ≠ 0 ∧ info.start ∈ fs.freed then .error .dangling else .ok (some info)

/-- `ramfile_read`: how many bytes it copies. The contents are not part of the model. -/
def ramfileRead (fs : Fs) (i : Ptr) (pos count : BitVec 64) : Except Stop (Int × BitVec 64) := do
  match ← fileInfo fs i with
  | none => .error .dangling
  | some info =>
    if info.start = 0 then .ok (-eInval, pos)
    else if info.size = 0 then .ok (0, pos)
    else
      let left := BitVec.ofNat 64 info.size - pos
      let copied := if count < left then count else left
      .ok ((copied.setWidth 32).toInt, pos + copied)

/-- `ramfile_write`. A file that has to grow is reallocated, and `krealloc_impl` calls
`kmalloc` with the lock of the heap held. -/
def ramfileWrite (fs : Fs) (i : Ptr) (pos count : BitVec 64) : Except Stop (Int × BitVec 64) := do
  match ← fileInfo fs i with
  | none => .ok (-eInval, pos)
  | some info =>
    if info.fixedSize then
      if info.start = 0 then .ok (-eInval, pos)
      else if info.size < pos.toNat then .ok (-eInval, pos)
      else
        let available := BitVec.ofNat 64 info.size - pos
        let written := if count < available then count else available
        .ok ((written.setWidth 32).toInt, pos + written)
    else if count = 0 then .ok (0, pos)
    else if pos + count < pos then .ok (-eInval, pos)
    else if (pos + count).toNat ≤ info.size then .ok ((count.setWidth 32).toInt, pos + count)
    else .error .deadlock

/-- The common body of `sys_read` and `sys_write` from where they have the entry `fd`. `faults`
says that the memory of the process cannot be read or written. -/
def transfer (proc : Proc) (table : Table) (fd : Fin tableEntries) (fs : Fs)
    (operation : Except Stop (Int × BitVec 64)) (faulted : Int → Bool) : Except Stop (Int × World) := do
  let (ret, pos) ← operation
  let w := { w with fs }.setProc pid
    { proc with openedFileTable := some (Function.update table fd { table fd with fPos := pos }) }
  .ok (if faulted ret then -eFault else ret, w)

def sysRead (fd : Int) (buf : Bool) (count : BitVec 64) (device : DeviceReply) (faults : Bool) :
    Except Stop (Int × World) :=
  if !buf then .ok (-eInval, w) else
  withFile w pid fd fun proc table fd i =>
    let file := table fd
    match file.fOps with
    | none => .ok (-eInval, w)
    | some ops =>
      let fs := w.fs.seenBy proc heap
      -- `kmalloc` of nothing returns NULL
      if count = 0 then .ok (-eNomem, w) else
      match fs.kmalloc with
      | (none, fs) => .ok (-eNomem, { w with fs })
      | (some _, fs) =>
        let access := file.fFlags &&& oAccmode
        if access ≠ oRdonly ∧ access ≠ oRdwr then .ok (-eAcces, { w with fs }) else
        let operation := if ops = .ramFile then ramfileRead fs i file.fPos count
          else .ok (device.ret, device.fPos)
        transfer w pid proc table fd fs operation fun ret => faults && decide (0 < ret)

def sysWrite (fd : Int) (buf : Bool) (count : BitVec 64) (device : DeviceReply) (faults : Bool) :
    Except Stop (Int × World) :=
  -- the standard streams go to the log
  if fd = 1 ∨ fd = 2 then .ok (count.toInt, w) else
  if !buf then .ok (-eInval, w) else
  withFile w pid fd fun proc table fd i =>
    let file := table fd
    match file.fOps with
    | none => .ok (-eInval, w)
    | some ops =>
      let fs := w.fs.seenBy proc heap
      if count = 0 then .ok (-eNomem, w) else
      match fs.kmalloc with
      | (none, fs) => .ok (-eNomem, { w with fs })
      | (some _, fs) =>
        if faults then .ok (-eFault, { w with fs }) else
        let access := file.fFlags &&& oAccmode
        if access ≠ oWronly ∧ access ≠ oRdwr then .ok (-eAcces, { w with fs }) else
        let operation := if ops = .ramFile then ramfileWrite fs i file.fPos count
          else .ok (device.ret, device.fPos)
        transfer w pid proc table fd fs operation fun _ => false

/-- `fork_process`, as far as the files go: the child's table and working directory are those
of the parent. `copied` is false if the child cannot be made. -/
def forkProcess (copied : Bool) : Except Stop (Int × World) := do
  let proc ← w.current pid
  if copied then .ok (w.procs.length, { w with procs := w.procs ++ [proc] })
  else .ok (-eNomem, w)

/-- `sys_exit`, as far as the files go: `usproc_exit` forgets the table. -/
def sysExit : Except Stop (Int × World) := do
  let proc ← w.current pid
  .ok (0, w.setProc pid { proc with alive := false, openedFileTable := none })

end Calls

end CreeperKernel.Vfs
