import CreeperKernel.VfsPaths

namespace CreeperKernel.Vfs

/-- `vfs_rmdir`. Its test of the child list is the wrong way round. -/
def vfsRmdir (fs : Fs) (dir : Ptr) (name : Name) : Except Stop (Int × Fs) := do
  match ← vfsLookup fs dir name with
  | none => .ok (-eNoent, fs)
  | some target => do
    let d ← fs.dentry target
    let i ← Fs.deref d.inode
    let inode ← fs.inode i
    if ¬ sIsdir inode.iMode then .ok (-eNotdir, fs) else
    if d.children = [] then .ok (-eNotempty, fs) else do
    let fs ← unlinkDentry fs dir target
    .ok (0, fs.freeInode i)

/-- The directory has a child of this name, with this dentry and inode. -/
structure Child (fs : Fs) (dir : Ptr) (name : Name) (target : Ptr) (d : Dentry) (inode : Inode) : Prop where
  found : vfsLookup fs dir name = .ok (some target)
  dentry : fs.dentries target = some d
  inode : ∃ i, d.inode = some i ∧ fs.inodes i = some inode

/-- The name can be looked up in the directory: it has no child of this name, or one with an inode. -/
def Searchable (fs : Fs) (dir : Ptr) (name : Name) : Prop :=
  vfsLookup fs dir name = .ok none ∨ ∃ target d inode, Child fs dir name target d inode

/-- The child is unlinked from the list of the directory and released; the order of the others is kept, and
other dentries are untouched. -/
def Unlinks (fs : Fs) (dir target : Ptr) (fs' : Fs) : Prop :=
  ∃ x home d, fs.inodes dir = some x ∧ x.iDentry = some home ∧ fs.dentries home = some d ∧
    fs'.dentries = Function.update (Function.update fs.dentries home
      (some { d with children := d.children.erase target })) target none

/-- The directory is removed exactly if it is there and empty. -/
structure RemovesEmpty (fs : Fs) (dir : Ptr) (name : Name) (ret : Int) (fs' : Fs) : Prop where
  zero : ret = 0 ↔ ∃ target d inode, Child fs dir name target d inode ∧ sIsdir inode.iMode = true ∧ d.children = []
  removed : ret = 0 → ∃ target d inode, Child fs dir name target d inode ∧ Unlinks fs dir target fs'
  failed : ret ≠ 0 → fs' = fs

/-- The two implementations return the same, and both remove exactly empty directories. -/
def RmdirsAgree (fs : Fs) (dir : Ptr) (name : Name) : Prop :=
  ∃ ret fs₁ fs₂, vfsRmdir fs dir name = .ok (ret, fs₁) ∧ ramfileInodeRmdir fs dir name = .ok (ret, fs₂) ∧
    RemovesEmpty fs dir name ret fs₁ ∧ RemovesEmpty fs dir name ret fs₂

section Outcomes

variable {fs : Fs} {dir target : Ptr} {name : Name} {d : Dentry} {inode : Inode}

theorem Child.unique {target' : Ptr} {d' : Dentry} {inode' : Inode} (child : Child fs dir name target d inode)
    (other : Child fs dir name target' d' inode') : target' = target ∧ d' = d ∧ inode' = inode := by
  cases child.found.symm.trans other.found
  cases child.dentry.symm.trans other.dentry
  have ⟨i, its, live⟩ := child.inode
  have ⟨j, its', live'⟩ := other.inode
  cases its.symm.trans its'
  cases live.symm.trans live'
  exact ⟨rfl, rfl, rfl⟩

theorem RemovesEmpty.refused {ret : Int} (nonzero : ret ≠ 0)
    (kept : ∀ target d inode, Child fs dir name target d inode → ¬ (sIsdir inode.iMode = true ∧ d.children = [])) :
    RemovesEmpty fs dir name ret fs where
  zero := ⟨fun zero => absurd zero nonzero, fun ⟨target, d, inode, child, empty⟩ => absurd empty (kept target d inode child)⟩
  removed := fun zero => absurd zero nonzero
  failed := fun _ => rfl

theorem rmdirs_missing (missing : vfsLookup fs dir name = .ok none) : RmdirsAgree fs dir name := by
  have refused : RemovesEmpty fs dir name (-eNoent) fs :=
    .refused (by decide) fun target d inode child => nomatch missing.symm.trans child.found
  refine ⟨-eNoent, fs, fs, ?_, ?_, refused, refused⟩
  · simp only [vfsRmdir, missing, bind, Except.bind]
  · simp only [ramfileInodeRmdir, missing, bind, Except.bind]

theorem Child.vfsRmdir (child : Child fs dir name target d inode) : ∃ i, d.inode = some i ∧
    vfsRmdir fs dir name = (if ¬ sIsdir inode.iMode then .ok (-eNotdir, fs) else
      if d.children = [] then .ok (-eNotempty, fs) else
      (unlinkDentry fs dir target).bind fun fs => .ok (0, fs.freeInode i)) := by
  have ⟨i, its, live⟩ := child.inode
  refine ⟨i, its, ?_⟩
  simp only [Vfs.vfsRmdir, child.found, Fs.dentry, Fs.inode, child.dentry, its, live, Fs.deref, bind, Except.bind]

theorem Child.ramfileInodeRmdir (child : Child fs dir name target d inode) : ∃ i, d.inode = some i ∧
    ramfileInodeRmdir fs dir name = (if ¬ sIsdir inode.iMode then .ok (-eNotdir, fs) else
      if d.children ≠ [] then .ok (-eNotempty, fs) else
      (unlinkDentry fs dir target).bind fun fs => .ok (0, (fs.freeInfo inode.iPrivate).freeInode i)) := by
  have ⟨i, its, live⟩ := child.inode
  refine ⟨i, its, ?_⟩
  simp only [Vfs.ramfileInodeRmdir, child.found, Fs.dentry, Fs.inode, child.dentry, its, live, Fs.deref, bind, Except.bind]

theorem Child.rmdirs_file (child : Child fs dir name target d inode) (file : ¬ sIsdir inode.iMode = true) :
    RmdirsAgree fs dir name := by
  have refused : RemovesEmpty fs dir name (-eNotdir) fs := .refused (by decide) fun target' d' inode' other both => by
    have ⟨_, _, same⟩ := child.unique other
    exact file (same ▸ both.1)
  have ⟨_, _, first⟩ := child.vfsRmdir
  have ⟨_, _, second⟩ := child.ramfileInodeRmdir
  rw [if_pos file] at first second
  exact ⟨-eNotdir, fs, fs, first, second, refused, refused⟩

/-- The directory that a call of `vfs_rmdir` finds is taken for empty if it is not, and the other way round. -/
theorem Child.rmdirs_directory (child : Child fs dir name target d inode) (isdir : sIsdir inode.iMode = true) :
    ¬ RmdirsAgree fs dir name := by
  intro ⟨ret, fs₁, fs₂, first, second, removes, _⟩
  have ⟨_, _, computed⟩ := child.vfsRmdir
  have ⟨_, _, computed'⟩ := child.ramfileInodeRmdir
  rw [if_neg (not_not.mpr isdir)] at computed computed'
  rw [computed] at first
  rw [computed'] at second
  by_cases empty : d.children = []
  · rw [if_pos empty] at first
    cases first
    exact absurd (removes.zero.mpr ⟨target, d, inode, child, isdir, empty⟩) (by decide)
  · rw [if_pos empty] at second
    cases second
    rw [if_neg empty] at first
    cases unlinked : unlinkDentry fs dir target with
    | error stop =>
      rw [unlinked] at first
      cases first
    | ok fs' =>
      rw [unlinked] at first
      cases first

end Outcomes

/-- `vfs_rmdir` and `ramfile_inode_rmdir` agree and remove exactly empty directories, unless the child is a
directory. -/
theorem rmdirs_agree_iff {fs : Fs} {dir : Ptr} {name : Name} (searchable : Searchable fs dir name) :
    RmdirsAgree fs dir name ↔ ¬ ∃ target d inode, Child fs dir name target d inode ∧ sIsdir inode.iMode = true := by
  rcases searchable with missing | ⟨target, d, inode, child⟩
  · exact ⟨fun _ ⟨_, _, _, child, _⟩ => (nomatch missing.symm.trans child.found), fun _ => rmdirs_missing missing⟩
  · constructor
    · intro agree ⟨target', d', inode', other, isdir⟩
      exact other.rmdirs_directory isdir agree
    · intro file
      exact child.rmdirs_file fun isdir => file ⟨target, d, inode, child, isdir⟩

/-- The root with a file `a`. -/
def rootWithFile : Fs :=
  match vfsCreate (newDentry tmpRoot (str ['a']) 0).2 0 1 (sIfreg ||| 0o644) with
  | .ok (_, fs) => fs
  | .error _ => tmpRoot

theorem rmdirs_agree_iff_file : ∃ target d inode, Child rootWithFile 0 (str ['a']) target d inode ∧
    RmdirsAgree rootWithFile 0 (str ['a']) := by
  have child : Child rootWithFile 0 (str ['a']) 1 _ _ := ⟨rfl, rfl, _, rfl, rfl⟩
  refine ⟨1, _, _, child, (rmdirs_agree_iff (.inr ⟨1, _, _, child⟩)).mpr ?_⟩
  rintro ⟨target, d, inode, other, isdir⟩
  obtain ⟨-, -, rfl⟩ := child.unique other
  exact absurd isdir (by decide)

/-- Both calls on the empty directory `/a`, which `kpath_mkdir` has made. -/
def rmdirsOfEmpty : Except Stop (Fs × Int × Int) := do
  let (_, fs) ← bootMkdir tmpRoot (absolute [['a']]) 0o755
  let (first, _) ← vfsRmdir fs 0 (str ['a'])
  let (second, _) ← ramfileInodeRmdir fs 0 (str ['a'])
  .ok (fs, first, second)

theorem empty_directory_refused : ∃ fs, rmdirsOfEmpty = .ok (fs, -66, 0) ∧ ¬ RmdirsAgree fs 0 (str ['a']) := by
  have ⟨⟨fs, first, second⟩, done, check⟩ := exists_of_endsWith (show endsWith
    (fun r : Fs × Int × Int => decide (r.2 = (-66, 0))) rmdirsOfEmpty = true by decide +kernel)
  cases of_decide_eq_true check
  refine ⟨fs, done, fun ⟨ret, fs₁, fs₂, one, two, _⟩ => ?_⟩
  have ⟨⟨_, fs'⟩, _, done⟩ := bind_eq_ok.mp done
  have ⟨⟨first, _⟩, one', done⟩ := bind_eq_ok.mp done
  have ⟨⟨second, _⟩, two', done⟩ := bind_eq_ok.mp done
  cases done
  cases one.symm.trans one'
  cases two.symm.trans two'

end CreeperKernel.Vfs
