import CreeperKernel.VfsBoot

namespace CreeperKernel.Initrd

open CreeperKernel.Vfs

/-- The size of `struct tar_header`, and where its `size` starts. -/
def headerSize : Nat := 512
def sizeField : Nat := 124

def tarSizeLoop : List Byte → BitVec 32 → BitVec 32 → BitVec 32
  | [], size, _ => size
  | digit :: rest, size, count => tarSizeLoop rest (size + (digit.signExtend 32 - 0x30) * count) (count * 8)

/-- `get_tar_size`, of the eleven digits of a size field -/
def getTarSize (digits : List Byte) : BitVec 32 := tarSizeLoop digits.reverse 0 1

/-- How far the data of this size, padded to whole blocks, reaches. -/
def stride (size : BitVec 32) : Nat := (((size + 511) / 512) * 512).toNat

/-- A byte of the module the boot loader has put into memory. -/
def byteAt (image : List Byte) (at_ : Nat) : Except Stop Byte := Fs.deref image[at_]?

def sizeDigits (image : List Byte) (header : Nat) : Except Stop (List Byte) :=
  if header + sizeField + 11 ≤ image.length then .ok ((image.drop (header + sizeField)).take 11)
  else .error .dangling

/-- The C string that starts at `at_`. -/
def cstr (image : List Byte) (at_ : Nat) : Except Stop Name :=
  if 0 ∈ image.drop at_ then .ok ((image.drop at_).takeWhile (· ≠ 0)) else .error .dangling

def countTarEntries (image : List Byte) : Nat → Nat → Except Stop Nat
  | 0, _ => .error .dangling
  | fuel + 1, header => do
    let first ← byteAt image header
    if first = 0 then .ok 0 else do
    let digits ← sizeDigits image header
    let count ← countTarEntries image fuel (header + headerSize + stride (getTarSize digits))
    .ok (count + 1)

def tarHeaders (image : List Byte) : Nat → Nat → Except Stop (List Nat)
  | 0, _ => .ok []
  | total + 1, header => do
    let first ← byteAt image header
    if first = 0 then .ok [] else do
    let digits ← sizeDigits image header
    let rest ← tarHeaders image total (header + headerSize + stride (getTarSize digits))
    .ok (header :: rest)

/-- `parse_tar`: the number of headers and the table of them. A header takes up more than one
byte, so the walk is at the end of the module after as many headers as it has bytes. -/
def parseTar (fs : Fs) (image : List Byte) : Except Stop (Int × List Nat × Fs) := do
  let total ← countTarEntries image (image.length + 1) 0
  if total = 0 then .ok (0, [], fs) else
  match fs.kmalloc with
  | (none, fs) => .ok (-eNomem, [], fs)
  | (some _, fs) => do
    let headers ← tarHeaders image total 0
    .ok (headers.length, headers, fs)

def memmove (image : List Byte) (dst src count : Nat) : List Byte :=
  image.take dst ++ (image.drop src).take count ++ image.drop (dst + count)

def dropSlashes (at_ : Nat) : Nat → List Byte → Except Stop (List Byte)
  | 0, image => .ok image
  | fuel + 1, image => do
    let first ← byteAt image at_
    if first = slash then do
      let rest ← cstr image (at_ + 1)
      dropSlashes at_ fuel (memmove image at_ (at_ + 1) (rest.length + 1))
    else .ok image

/-- `normalize_tar_path`: the name at `at_` is rewritten in place. Each round of its loop
makes the string shorter. -/
def normalizeTarPath (image : List Byte) (at_ : Nat) : Except Stop (List Byte) := do
  let first ← byteAt image at_
  let second ← if first = 0x2E then byteAt image (at_ + 1) else .ok 0
  let image ← if second = slash then do
      let rest ← cstr image (at_ + 2)
      .ok (memmove image at_ (at_ + 2) (rest.length + 1))
    else .ok image
  dropSlashes at_ (image.length + 1) image

/-- One component of `ensure_parent_dirs`: the directory is made unless it exists. -/
def enterDirectory (fs : Fs) (dir : Ptr) (component : Name) : Except Stop (Option Ptr × Fs) := do
  let i ← fs.inodeOf dir
  let (res, fs) ← kpathMkdir fs i component 0o777
  if res < 0 ∧ res ≠ -eExist then .ok (none, fs) else do
  let i ← fs.inodeOf dir
  kpathLookup fs i component

/-- The loop of `ensure_parent_dirs` over the bytes of `dirpath`; `component` holds the bytes
since the last slash. -/
def parentDirs : Fs → Ptr → Name → List Byte → Except Stop (Option Ptr × Fs)
  | fs, dir, component, [] =>
    if component = [] then .ok (some dir, fs) else enterDirectory fs dir (component.take 255)
  | fs, dir, component, byte :: rest =>
    if byte ≠ slash then parentDirs fs dir (component ++ [byte]) rest
    else if component = [] then parentDirs fs dir [] rest
    else do
      let (next, fs) ← enterDirectory fs dir (component.take 255)
      match next with
      | none => .ok (none, fs)
      | some dir => parentDirs fs dir [] rest

def ensureParentDirs (fs : Fs) (base : Ptr) (path : Name) : Except Stop (Option Ptr × Fs) :=
  match Tokens.lastIndex slash path with
  | none => .ok (some base, fs)
  | some i => parentDirs fs base [] (path.take (min i 255))

def leaf (path : Name) : Name :=
  match Tokens.lastIndex slash path with
  | none => path
  | some i => path.drop (i + 1)

/-- A dentry and an inode for a file of the archive, whose contents lie at `start`. The
results of `kmalloc` and of `create` are not looked at. -/
def addFile (fs : Fs) (parent : Ptr) (name : Name) (start size : Nat) : Except Stop Fs :=
  match fs.kmalloc with
  | (none, _) => .error .dangling
  | (some node, fs) => do
    let fs := fs.setDentry node { name, parent := some parent, inode := none, children := [] }
    let dir ← fs.inodeOf parent
    let (_, fs) ← callCreate fs dir node 0o777 true
    match fs.kmalloc with
    | (none, _) => .error .dangling
    | (some p, fs) => do
      let fs := fs.setInfo p { start, size, fixedSize := true }
      let i ← fs.inodeOf node
      let inode ← fs.inode i
      .ok (fs.setInode i { inode with iPrivate := some p, iFop := some .ramFile })

/-- One round of the loop of `initrd_init`. -/
def addEntry (base : Nat) (top : Ptr) (fs : Fs) (image : List Byte) (header : Nat) :
    Except Stop (Fs × List Byte) := do
  let image ← normalizeTarPath image header
  let path ← cstr image header
  if path = [] ∨ path.getLast? = some slash then .ok (fs, image) else do
  let (parent, fs) ← ensureParentDirs fs top path
  match parent with
  | none => .ok (fs, image)
  | some parent => do
    let digits ← sizeDigits image header
    let fs ← addFile fs parent (leaf path) (base + header + headerSize) (getTarSize digits).toNat
    .ok (fs, image)

def addEntries (base : Nat) (top : Ptr) : Fs → List Byte → List Nat → Except Stop Fs
  | fs, _, [] => .ok fs
  | fs, image, header :: rest => do
    let (fs, image) ← addEntry base top fs image header
    addEntries base top fs image rest

def initrd : List Char := ['i', 'n', 'i', 't', 'r', 'd']

/-- `initrd_init`, from where it has found the module `image` at address `base`. -/
def initrdInit (fs : Fs) (base : Nat) (image : List Byte) : Except Stop (Int × Fs) := do
  let (nheaders, headers, fs) ← parseTar fs image
  if nheaders < 0 then .ok (nheaders, fs) else do
  let root ← fs.inodeOf fs.rootDentry
  let (res, fs) ← kpathMkdir fs root (absolute [initrd]) 0o777
  if res < 0 then .ok (res, fs) else do
  let root ← fs.inodeOf fs.rootDentry
  let (dir, fs) ← kpathLookup fs root (absolute [initrd, []])
  match dir with
  | none => .ok (-eNoent, fs)
  | some top => do
    let fs ← addEntries base top fs image headers
    .ok (0, fs)

/-- The tree after boot, with an initrd of no entries. -/
def bootTree : Except Stop Fs := do
  let fs ← bootFs
  let (_, fs) ← initrdInit fs 0 (List.replicate 512 0)
  .ok fs

end CreeperKernel.Initrd
