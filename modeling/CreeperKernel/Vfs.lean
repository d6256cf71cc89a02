import CreeperKernel.Tokens
import Mathlib.Data.BitVec

namespace CreeperKernel.Vfs

abbrev Byte := BitVec 8

instance : LawfulBEq Byte := instLawfulBEq

/-- A C string without its terminator. -/
abbrev Name := List Byte

/-- The address of an object on the kernel heap. Addresses are not used again. -/
abbrev Ptr := Nat

abbrev UMode := BitVec 16

def slash : Byte := 0x2F
def dot : Name := [0x2E]
def dotdot : Name := [0x2E, 0x2E]

def str (s : List Char) : Name := s.map fun c => BitVec.ofNat 8 c.toNat

def sIfmt : UMode := 0xF000
def sIfdir : UMode := 0x4000
def sIfreg : UMode := 0x8000
def sIfchr : UMode := 0x2000

def sIsdir (mode : UMode) : Bool := mode &&& sIfmt == sIfdir

def eNoent : Int := 2
def eNomem : Int := 12
def eAcces : Int := 13
def eExist : Int := 17
def eNotdir : Int := 20
def eIsdir : Int := 21
def eInval : Int := 22
def eMfile : Int := 24
def eNotempty : Int := 66

/-- `def_vfs_i_ops` and `ram_dir_iops` -/
inductive InodeOperations where
  | defVfs
  | ramDir
  deriving DecidableEq, Repr

/-- `ram_file_fops` and the tables of the device files -/
inductive FileOperations where
  | ramFile
  | devnull
  | devzero
  | devfull
  | devrandom
  | devmem
  | devport
  | devtty
  | indev
  deriving DecidableEq, Repr

structure Inode where
  iDentry : Option Ptr
  iMode : UMode
  iUid : Nat
  iGid : Nat
  iCount : Int
  iOp : Option InodeOperations
  iFop : Option FileOperations
  iPrivate : Option Ptr
  deriving DecidableEq, Repr

structure Dentry where
  name : Name
  parent : Option Ptr
  inode : Option Ptr
  /-- `d_children`, in list order -/
  children : List Ptr
  deriving DecidableEq, Repr

structure RamfileInfo where
  start : Nat
  size : Nat
  fixedSize : Bool
  deriving DecidableEq, Repr

/-- Why a kernel routine does not come to an end: it calls through a NULL operation table or
entry, it uses a NULL or released object or memory outside of one, it waits for a lock it
holds, or it is still in its loop. -/
inductive Stop where
  | nullOp
  | dangling
  | deadlock
  | endless
  deriving DecidableEq, Repr

/-- The objects of the file system. `heap` says which of the coming `kmalloc` calls succeed
(all, once it is used up), `uid` and `gid` are those of the current process. -/
structure Fs where
  dentries : Ptr → Option Dentry
  inodes : Ptr → Option Inode
  infos : Ptr → Option RamfileInfo
  /-- the data buffers handed to `kfree` -/
  freed : List Nat
  rootDentry : Ptr
  fresh : Ptr
  heap : List Bool
  uid : Nat
  gid : Nat

namespace Fs

def kmalloc (fs : Fs) : Option Ptr × Fs :=
  match fs.heap with
  | [] => (some fs.fresh, { fs with fresh := fs.fresh + 1 })
  | true :: heap => (some fs.fresh, { fs with fresh := fs.fresh + 1, heap })
  | false :: heap => (none, { fs with heap })

def deref {α : Type} (object : Option α) : Except Stop α :=
  match object with
  | some x => .ok x
  | none => .error .dangling

def dentry (fs : Fs) (p : Ptr) : Except Stop Dentry := deref (fs.dentries p)
def inode (fs : Fs) (p : Ptr) : Except Stop Inode := deref (fs.inodes p)

def setDentry (fs : Fs) (p : Ptr) (d : Dentry) : Fs :=
  { fs with dentries := Function.update fs.dentries p (some d) }

def setInode (fs : Fs) (p : Ptr) (i : Inode) : Fs :=
  { fs with inodes := Function.update fs.inodes p (some i) }

def setInfo (fs : Fs) (p : Ptr) (info : RamfileInfo) : Fs :=
  { fs with infos := Function.update fs.infos p (some info) }

def freeDentry (fs : Fs) (p : Ptr) : Fs := { fs with dentries := Function.update fs.dentries p none }
def freeInode (fs : Fs) (p : Ptr) : Fs := { fs with inodes := Function.update fs.inodes p none }

/-- `kfree` of `i_private`, which may be NULL -/
def freeInfo (fs : Fs) (p : Option Ptr) : Fs :=
  match p with
  | none => fs
  | some p => { fs with infos := Function.update fs.infos p none }

def inodeOf (fs : Fs) (p : Ptr) : Except Stop Ptr := do
  let d ← fs.dentry p
  deref d.inode

end Fs

/-- The first of these dentries with this name. -/
def findNamed (fs : Fs) (name : Name) : List Ptr → Except Stop (Option Ptr)
  | [] => .ok none
  | c :: rest => do
    let d ← fs.dentry c
    if d.name = name then .ok (some c) else findNamed fs name rest

def vfsLookup (fs : Fs) (dir : Ptr) (name : Name) : Except Stop (Option Ptr) := do
  let inode ← fs.inode dir
  let home ← Fs.deref inode.iDentry
  let d ← fs.dentry home
  findNamed fs name d.children

/-- `vfs_create`. It has no use for its `excl`. -/
def vfsCreate (fs : Fs) (dir dentry : Ptr) (mode : UMode) : Except Stop (Int × Fs) := do
  let parent ← fs.inode dir
  let home ← Fs.deref parent.iDentry
  let d ← fs.dentry home
  let new ← fs.dentry dentry
  match ← findNamed fs new.name d.children with
  | some _ => .ok (-eExist, fs)
  | none =>
    match fs.kmalloc with
    | (none, fs) => .ok (-eNomem, fs)
    | (some i, fs) =>
      let fs := fs.setInode i
        { iDentry := some dentry, iMode := mode, iUid := fs.uid, iGid := fs.gid, iCount := 0
          iOp := parent.iOp, iFop := parent.iFop, iPrivate := none }
      let fs := fs.setDentry dentry { new with inode := some i, children := [] }
      .ok (0, fs.setDentry home { d with children := dentry :: d.children })

def vfsMkdir (fs : Fs) (dir dentry : Ptr) (mode : UMode) : Except Stop (Int × Fs) :=
  vfsCreate fs dir dentry (sIfdir ||| (mode &&& ~~~sIfmt))

def ramfileInodeCreate (fs : Fs) (dir dentry : Ptr) (mode : UMode) (excl : Bool) :
    Except Stop (Int × Fs) := do
  let new ← fs.dentry dentry
  if excl && new.inode.isSome then .ok (-eExist, fs) else do
  let (res, fs) ← vfsCreate fs dir dentry (sIfreg ||| (mode &&& ~~~sIfmt))
  if res < 0 then .ok (res, fs) else do
  let made ← fs.dentry dentry
  let i ← Fs.deref made.inode
  match fs.kmalloc with
  | (none, fs) => .ok (-eNomem, (fs.freeInode i).setDentry dentry { made with inode := none })
  | (some info, fs) => do
    let inode ← fs.inode i
    let fs := fs.setInfo info { start := 0, size := 0, fixedSize := false }
    .ok (0, fs.setInode i
      { inode with iPrivate := some info, iFop := some .ramFile, iOp := some .ramDir })

def ramfileInodeMkdir (fs : Fs) (dir dentry : Ptr) (mode : UMode) : Except Stop (Int × Fs) := do
  let (res, fs) ← vfsCreate fs dir dentry (sIfdir ||| (mode &&& ~~~sIfmt))
  if res < 0 then .ok (res, fs) else do
  let i ← fs.inodeOf dentry
  let inode ← fs.inode i
  .ok (0, fs.setInode i { inode with iOp := some .ramDir, iFop := none, iPrivate := none })

/-- `hlist_del` of a dentry found below the directory `dir`, followed by `kfree` of its name
and of the dentry itself. -/
def unlinkDentry (fs : Fs) (dir target : Ptr) : Except Stop Fs := do
  let inode ← fs.inode dir
  let home ← Fs.deref inode.iDentry
  let d ← fs.dentry home
  .ok ((fs.setDentry home { d with children := d.children.erase target }).freeDentry target)

def ramfileInodeRmdir (fs : Fs) (dir : Ptr) (name : Name) : Except Stop (Int × Fs) := do
  match ← vfsLookup fs dir name with
  | none => .ok (-eNoent, fs)
  | some target => do
    let d ← fs.dentry target
    let i ← Fs.deref d.inode
    let inode ← fs.inode i
    if ¬ sIsdir inode.iMode then .ok (-eNotdir, fs) else
    if d.children ≠ [] then .ok (-eNotempty, fs) else do
    let fs ← unlinkDentry fs dir target
    .ok (0, (fs.freeInfo inode.iPrivate).freeInode i)

/-- `kfree` of a RAM file's contents and of its `ramfile_info`, whoever has it open. -/
def freeContents (fs : Fs) (priv : Option Ptr) : Except Stop Fs :=
  match priv with
  | none => .ok fs
  | some p => do
    let info ← Fs.deref (fs.infos p)
    let fs := if ¬ info.fixedSize ∧ info.start ≠ 0 then { fs with freed := info.start :: fs.freed } else fs
    .ok (fs.freeInfo (some p))

def ramfileInodeUnlink (fs : Fs) (dir : Ptr) (name : Name) : Except Stop (Int × Fs) := do
  match ← vfsLookup fs dir name with
  | none => .ok (-eNoent, fs)
  | some target => do
    let i ← fs.inodeOf target
    let inode ← fs.inode i
    if sIsdir inode.iMode then .ok (-eIsdir, fs) else do
    let fs ← unlinkDentry fs dir target
    let fs ← freeContents fs inode.iPrivate
    let count := inode.iCount - 1
    if count ≤ 0 then .ok (0, fs.freeInode i)
    else .ok (0, fs.setInode i { inode with iCount := count })

/-- `dir->i_op`, which must not be NULL for a call through it -/
def operations (fs : Fs) (dir : Ptr) : Except Stop InodeOperations := do
  let inode ← fs.inode dir
  match inode.iOp with
  | none => .error .nullOp
  | some ops => .ok ops

/-- `dir->i_op->lookup`: both tables have `vfs_lookup`. -/
def callLookup (fs : Fs) (dir : Ptr) (name : Name) : Except Stop (Option Ptr) := do
  let _ ← operations fs dir
  vfsLookup fs dir name

def callCreate (fs : Fs) (dir dentry : Ptr) (mode : UMode) (excl : Bool) : Except Stop (Int × Fs) := do
  match ← operations fs dir with
  | .defVfs => vfsCreate fs dir dentry mode
  | .ramDir => ramfileInodeCreate fs dir dentry mode excl

def callMkdir (fs : Fs) (dir dentry : Ptr) (mode : UMode) : Except Stop (Int × Fs) := do
  match ← operations fs dir with
  | .defVfs => vfsMkdir fs dir dentry mode
  | .ramDir => ramfileInodeMkdir fs dir dentry mode

/-- `dir->i_op->rmdir`, an entry that `def_vfs_i_ops` lacks -/
def callRmdir (fs : Fs) (dir : Ptr) (name : Name) : Except Stop (Int × Fs) := do
  match ← operations fs dir with
  | .defVfs => .error .nullOp
  | .ramDir => ramfileInodeRmdir fs dir name

/-- `dir->i_op->unlink`, an entry that `def_vfs_i_ops` lacks -/
def callUnlink (fs : Fs) (dir : Ptr) (name : Name) : Except Stop (Int × Fs) := do
  match ← operations fs dir with
  | .defVfs => .error .nullOp
  | .ramDir => ramfileInodeUnlink fs dir name

def walk (fs : Fs) : Ptr → List Name → Except Stop (Option Ptr)
  | curr, [] => .ok (some curr)
  | curr, token :: rest =>
    if token = dot then walk fs curr rest
    else if token = dotdot then do
      let d ← fs.dentry curr
      walk fs (d.parent.getD curr) rest
    else do
      let i ← fs.inodeOf curr
      match ← callLookup fs i token with
      | none => .ok none
      | some next => walk fs next rest

/-- `kpath_lookup`: the dentry it finds has its count raised. -/
def kpathLookup (fs : Fs) (start : Ptr) (path : Name) : Except Stop (Option Ptr × Fs) :=
  match fs.kmalloc with
  | (none, fs) => .ok (none, fs)
  | (some _, fs) => do
    let inode ← fs.inode start
    let first ← Fs.deref inode.iDentry
    match ← walk fs first (Tokens.tokens slash path) with
    | none => .ok (none, fs)
    | some curr => do
      let i ← fs.inodeOf curr
      let inode ← fs.inode i
      .ok (some curr, fs.setInode i { inode with iCount := inode.iCount + 1 })

/-- The parent path and the name that `kpath_create`, `kpath_mkdir` and `split_path` cut a
path into at its last slash. -/
def splitLast (path : Name) : Name × Name :=
  match Tokens.lastIndex slash path with
  | none => (dot, path)
  | some 0 => ([slash], path.drop 1)
  | some i => (path.take i, path.drop (i + 1))

/-- A zeroed dentry with a copy of `name`. -/
def newDentry (fs : Fs) (name : Name) (parent : Ptr) : Option Ptr × Fs :=
  match fs.kmalloc with
  | (none, fs) => (none, fs)
  | (some node, fs) =>
    match fs.kmalloc with
    | (none, fs) => (none, fs)
    | (some _, fs) =>
      (some node, fs.setDentry node { name, parent := some parent, inode := none, children := [] })

/-- The common body of `kpath_create` and `kpath_mkdir`, which differ in the operation they
call on the parent directory. -/
def kpathNew (make : Fs → Ptr → Ptr → Except Stop (Int × Fs)) (fs : Fs) (start : Ptr) (path : Name) :
    Except Stop (Int × Fs) :=
  match fs.kmalloc with
  | (none, fs) => .ok (-eNomem, fs)
  | (some _, fs) => do
    let (found, fs) ← kpathLookup fs start (splitLast path).1
    match found with
    | none => .ok (-eNoent, fs)
    | some dir =>
      match newDentry fs (splitLast path).2 dir with
      | (none, fs) => .ok (-eNomem, fs)
      | (some node, fs) => do
        let i ← fs.inodeOf dir
        let (ret, fs) ← make fs i node
        .ok (ret, if ret < 0 then fs.freeDentry node else fs)

def kpathCreate (fs : Fs) (start : Ptr) (path : Name) (mode : UMode) (excl : Bool) :
    Except Stop (Int × Fs) :=
  kpathNew (fun fs dir node => callCreate fs dir node mode excl) fs start path

def kpathMkdir (fs : Fs) (start : Ptr) (path : Name) (mode : UMode) : Except Stop (Int × Fs) :=
  kpathNew (fun fs dir node => callMkdir fs dir node mode) fs start path

/-- The loop of `kpath_create_force`: a component that is missing is created, as a directory
unless it is the last one. -/
def forceWalk (mode : UMode) (excl : Bool) : Fs → Ptr → List Name → Except Stop (Int × Fs)
  | fs, _, [] => .ok (0, fs)
  | fs, curr, token :: rest =>
    if token = dot then forceWalk mode excl fs curr rest
    else if token = dotdot then do
      let d ← fs.dentry curr
      forceWalk mode excl fs (d.parent.getD curr) rest
    else do
      let i ← fs.inodeOf curr
      match ← callLookup fs i token with
      | some next => forceWalk mode excl fs next rest
      | none =>
        match newDentry fs token curr with
        | (none, fs) => .ok (-eNomem, fs)
        | (some node, fs) => do
          let (ret, fs) ← if rest = [] then callCreate fs i node mode excl
            else callMkdir fs i node (sIfdir ||| 0o755)
          if ret < 0 then .ok (ret, fs.freeDentry node)
          else forceWalk mode excl fs node rest

def forceStart (fs : Fs) (start : Ptr) (path : Name) : Except Stop Ptr :=
  if path.head? = some slash then .ok fs.rootDentry
  else do
    let inode ← fs.inode start
    Fs.deref inode.iDentry

def kpathCreateForce (fs : Fs) (start : Ptr) (path : Name) (mode : UMode) (excl : Bool) :
    Except Stop (Int × Fs) := do
  let curr ← forceStart fs start path
  match fs.kmalloc with
  | (none, fs) => .ok (-eNomem, fs)
  | (some _, fs) => forceWalk mode excl fs curr (Tokens.tokens slash path)

/-- The common body of `kpath_rmdir` and `path_unlink`. The dentry they pass on only carries
the name; `path_unlink` does not release it. -/
def kpathRemove (remove : Fs → Ptr → Name → Except Stop (Int × Fs)) (fs : Fs) (start : Ptr)
    (path name : Name) : Except Stop (Int × Fs) := do
  let (found, fs) ← kpathLookup fs start path
  match found with
  | none => .ok (-eNoent, fs)
  | some dir =>
    match fs.kmalloc with
    | (none, fs) => .ok (-eNomem, fs)
    | (some _, fs) => do
      let i ← fs.inodeOf dir
      remove fs i name

def kpathRmdir (fs : Fs) (start : Ptr) (path name : Name) : Except Stop (Int × Fs) :=
  kpathRemove callRmdir fs start path name

def pathUnlink (fs : Fs) (start : Ptr) (path name : Name) : Except Stop (Int × Fs) :=
  kpathRemove callUnlink fs start path name

/-- The inode that `k_ramfile_create`, `k_ramfile_mkdir` and `k_devfs_create` fill in once the
path has been created. -/
def lookupInode (fs : Fs) (path : Name) : Except Stop (Option Ptr × Fs) := do
  let root ← fs.inodeOf fs.rootDentry
  let (found, fs) ← kpathLookup fs root path
  match found with
  | none => .ok (none, fs)
  | some d => do
    let d ← fs.dentry d
    .ok (d.inode, fs)

def kRamfileCreate (fs : Fs) (path : Name) (start size : Nat) (mode : UMode) (fixedSize excl : Bool) :
    Except Stop (Int × Fs) := do
  let root ← fs.inodeOf fs.rootDentry
  let (res, fs) ← kpathCreate fs root path mode excl
  if res < 0 then .ok (res, fs) else do
  let (found, fs) ← lookupInode fs path
  match found with
  | none => .ok (-eNoent, fs)
  | some i =>
    match fs.kmalloc with
    | (none, fs) => .ok (-eNomem, fs)
    | (some p, fs) => do
      let inode ← fs.inode i
      let fs := fs.setInfo p { start, size, fixedSize }
      .ok (0, fs.setInode i { inode with iPrivate := some p, iFop := some .ramFile, iOp := some .ramDir })

def kRamfileMkdir (fs : Fs) (path : Name) (mode : UMode) : Except Stop (Int × Fs) := do
  let root ← fs.inodeOf fs.rootDentry
  let (res, fs) ← kpathMkdir fs root path mode
  if res < 0 then .ok (res, fs) else do
  let (found, fs) ← lookupInode fs path
  match found with
  | none => .ok (-eNoent, fs)
  | some i => do
    let inode ← fs.inode i
    .ok (0, fs.setInode i { inode with iFop := some .ramFile, iOp := some .ramDir })

def kDevfsCreate (fs : Fs) (path : Name) (fops : FileOperations) (mode : UMode) :
    Except Stop (Int × Fs) := do
  let root ← fs.inodeOf fs.rootDentry
  let (res, fs) ← kpathCreateForce fs root path mode false
  if res < 0 then .ok (res, fs) else do
  let (found, fs) ← lookupInode fs path
  match found with
  | none => .ok (-eNoent, fs)
  | some i => do
    let inode ← fs.inode i
    .ok (0, fs.setInode i { inode with iPrivate := none, iFop := some fops, iOp := none })

end CreeperKernel.Vfs
