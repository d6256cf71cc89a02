import CreeperKernel.Vfs

namespace CreeperKernel.Vfs

/-- `tmp_root_dentry` and `tmp_root_inode`, before anything has been created. -/
def tmpRoot : Fs :=
  { dentries := Function.update (fun _ => none) 0
      (some { name := [], parent := none, inode := some 0, children := [] })
    inodes := Function.update (fun _ => none) 0
      (some { iDentry := some 0, iMode := sIfdir ||| 0o777, iUid := 0, iGid := 0, iCount := 9999
              iOp := some .defVfs, iFop := none, iPrivate := none })
    infos := fun _ => none
    freed := []
    rootDentry := 0
    fresh := 1
    heap := []
    uid := 0
    gid := 0 }

/-- A path of lower-case components, as the source writes it. -/
def absolute (components : List (List Char)) : Name :=
  components.flatMap fun c => slash :: str c

def sys : List Char := ['s', 'y', 's']
def dev : List Char := ['d', 'e', 'v']
def cls : List Char := ['c', 'l', 'a', 's', 's']

/-- A directory below the root, made at boot. -/
def bootMkdir (fs : Fs) (path : Name) (mode : UMode) : Except Stop (Int × Fs) := do
  let root ← fs.inodeOf fs.rootDentry
  kpathMkdir fs root path mode

/-- `sysfs_init`: the results of the calls are not looked at. -/
def sysfsInit (fs : Fs) : Except Stop Fs :=
  [[sys], [sys, ['d', 'e', 'v', 'i', 'c', 'e', 's']], [sys, cls], [sys, cls, ['b', 'l', 'o', 'c', 'k']],
    [sys, cls, ['i', 'n', 'p', 'u', 't']]].foldlM
    (fun fs path => do
      let (_, fs) ← bootMkdir fs (absolute path) 0o755
      .ok fs) fs

/-- The device files of `devfs_init`, in order. -/
def deviceFiles : List (List Char × FileOperations × UMode) :=
  [(['n', 'u', 'l', 'l'], .devnull, 0o666), (['z', 'e', 'r', 'o'], .devzero, 0o666),
    (['f', 'u', 'l', 'l'], .devfull, 0o666), (['r', 'a', 'n', 'd', 'o', 'm'], .devrandom, 0o666),
    (['u', 'r', 'a', 'n', 'd', 'o', 'm'], .devrandom, 0o666), (['m', 'e', 'm'], .devmem, 0o600),
    (['p', 'o', 'r', 't'], .devport, 0o600), (['t', 't', 'y'], .devtty, 0o666 ||| sIfchr)]

def devfsFiles (fs : Fs) : List (List Char × FileOperations × UMode) → Except Stop (Int × Fs)
  | [] => .ok (0, fs)
  | (name, fops, mode) :: rest => do
    let (res, fs) ← kDevfsCreate fs (absolute [dev, name]) fops mode
    if res < 0 then .ok (res, fs) else devfsFiles fs rest

def devfsInit (fs : Fs) : Except Stop (Int × Fs) := do
  let (res, fs) ← bootMkdir fs (absolute [dev]) 0o755
  if res < 0 then .ok (res, fs) else devfsFiles fs deviceFiles

/-- The file system when the first process starts, the initrd apart. -/
def bootFs : Except Stop Fs := do
  let fs ← sysfsInit tmpRoot
  let (_, fs) ← devfsInit fs
  let (_, fs) ← kRamfileMkdir fs (absolute [['t', 'm', 'p']]) 0o666
  .ok fs

end CreeperKernel.Vfs
