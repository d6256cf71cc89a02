import CreeperKernel.LinkedTrees
import CreeperKernel.VfsPaths

namespace CreeperKernel.Vfs

open LinkedTrees (Cell Tree)

def Dentry.cell (d : Dentry) : Cell Ptr Name := { name := d.name, parent := d.parent, children := d.children }

def Fs.cells (fs : Fs) (p : Ptr) : Option (Cell Ptr Name) := (fs.dentries p).map Dentry.cell

/-- The inode behind a dentry is one of a directory. -/
def IsDirectory (fs : Fs) (p : Ptr) : Prop :=
  ∃ i x, fs.inodeOf p = .ok i ∧ fs.inodes i = some x ∧ sIsdir x.iMode = true

/-- The dentries form a tree, each has an inode that refers back to it, and only directories
have children. -/
structure DirectoryTree (fs : Fs) : Prop where
  tree : Tree fs.cells fs.rootDentry
  backed : ∀ p d, fs.dentries p = some d → ∃ i x, d.inode = some i ∧ fs.inodes i = some x ∧ x.iDentry = some p
  directories : ∀ p d, fs.dentries p = some d → d.children ≠ [] → IsDirectory fs p

variable {fs fs' : Fs} {p : Ptr}

theorem cells_eq {d : Dentry} (live : fs.dentries p = some d) : fs.cells p = some d.cell := by
  rw [Fs.cells, live, Option.map_some]

theorem cells_eq_some {x : Cell Ptr Name} (live : fs.cells p = some x) : ∃ d, fs.dentries p = some d ∧ d.cell = x :=
  Option.map_eq_some_iff.mp live

theorem map_update (dentries : Ptr → Option Dentry) (p : Ptr) (d : Option Dentry) :
    (fun q => (Function.update dentries p d q).map Dentry.cell) =
      Function.update (fun q => (dentries q).map Dentry.cell) p (d.map Dentry.cell) := by
  funext q
  by_cases same : q = p
  · subst same
    simp only [Function.update_self]
  · simp only [Function.update_of_ne same]

section Inodes

variable {fs fs' : Fs}

/-- Changes of inodes that the tree does not see. -/
structure SameShape (fs fs' : Fs) : Prop where
  dentries : fs'.dentries = fs.dentries
  inodes : ∀ i x, fs.inodes i = some x → ∃ y, fs'.inodes i = some y ∧ y.iDentry = x.iDentry ∧ y.iMode = x.iMode
  rootDentry : fs'.rootDentry = fs.rootDentry

theorem Same.shape (same : Same fs fs') : SameShape fs fs' :=
  ⟨same.dentries, fun i x live => ⟨x, by rw [same.inodes]; exact live, rfl, rfl⟩, same.rootDentry⟩

variable {i p : Ptr}

theorem SameShape.of_update (dentries : fs'.dentries = fs.dentries) (rootDentry : fs'.rootDentry = fs.rootDentry)
    {x y : Inode} (live : fs.inodes i = some x) (inodes : fs'.inodes = Function.update fs.inodes i (some y))
    (home : y.iDentry = x.iDentry) (mode : y.iMode = x.iMode) : SameShape fs fs' := by
  refine ⟨dentries, fun j z there => ?_, rootDentry⟩
  by_cases same : j = i
  · subst same
    cases live.symm.trans there
    exact ⟨y, by rw [inodes, Function.update_self], home, mode⟩
  · exact ⟨z, by rw [inodes, Function.update_of_ne same]; exact there, rfl, rfl⟩

theorem SameShape.isDirectory (same : SameShape fs fs') (isdir : IsDirectory fs p) : IsDirectory fs' p := by
  obtain ⟨i, x, behind, live, mode⟩ := isdir
  obtain ⟨y, there, -, sameMode⟩ := same.inodes i x live
  exact ⟨i, y, (inodeOf_congr same.dentries p).trans behind, there, sameMode ▸ mode⟩

theorem SameShape.keeps_tree (same : SameShape fs fs') (tree : DirectoryTree fs) : DirectoryTree fs' where
  tree := by
    have cells : fs'.cells = fs.cells := by
      funext p
      simp only [Fs.cells, same.dentries]
    rw [cells, same.rootDentry]
    exact tree.tree
  backed := by
    intro p d live
    rw [same.dentries] at live
    obtain ⟨i, x, its, there, back⟩ := tree.backed p d live
    obtain ⟨y, there', home, -⟩ := same.inodes i x there
    exact ⟨i, y, its, there', home.trans back⟩
  directories := by
    intro p d live more
    rw [same.dentries] at live
    exact same.isDirectory (tree.directories p d live more)

theorem DirectoryTree.inode_inj (tree : DirectoryTree fs) {q : Ptr} {d e : Dentry} (first : fs.dentries p = some d)
    (second : fs.dentries q = some e) (its : d.inode = some i) (too : e.inode = some i) : p = q := by
  obtain ⟨j, x, its', there, back⟩ := tree.backed p d first
  obtain ⟨k, y, too', there', back'⟩ := tree.backed q e second
  cases its.symm.trans its'
  cases too.symm.trans too'
  cases there.symm.trans there'
  cases back.symm.trans back'
  rfl

end Inodes

section Additions

variable {fs fs' : Fs} {dir home node i : Ptr} {name : Name} {inode : Inode}
    (added : Added fs dir home node i name inode fs')
include added

theorem Added.home_eq (tree : DirectoryTree fs) : home = dir := by
  obtain ⟨j, x, behind, live, back⟩ := added.owner
  obtain ⟨d, there, its⟩ := inodeOf_eq_ok.mp behind
  obtain ⟨k, y, its', live', back'⟩ := tree.backed dir d there
  cases its.symm.trans its'
  cases live.symm.trans live'
  cases back.symm.trans back'
  rfl

/-- The dentries after the addition: the parent with one child more, the new one and those
there were. -/
theorem Added.dentries_cases (tree : DirectoryTree fs) {p : Ptr} {d : Dentry} (live : fs'.dentries p = some d) :
    (p = node ∧ d = { name, parent := some dir, inode := some i, children := [] }) ∨
      ∃ e, fs.dentries p = some e ∧ d.inode = e.inode ∧ (p ≠ dir → d.children = e.children) := by
  cases added.home_eq tree
  obtain ⟨parent, atDir, -, after⟩ := added.place
  rw [after] at live
  by_cases atParent : p = dir
  · subst atParent
    rw [Function.update_self] at live
    cases live
    exact .inr ⟨parent, atDir, rfl, fun other => absurd rfl other⟩
  · rw [Function.update_of_ne atParent] at live
    by_cases atNode : p = node
    · subst atNode
      rw [Function.update_self] at live
      cases live
      exact .inl ⟨rfl, rfl⟩
    · rw [Function.update_of_ne atNode] at live
      exact .inr ⟨d, live, rfl, fun _ => rfl⟩

theorem Added.inodes_of_live (fresh : Fresh fs) {j : Ptr} {x : Inode}
    (live : fs.inodes j = some x) : fs'.inodes j = some x := by
  rw [added.inodes, Function.update_of_ne, live]
  intro same
  rw [same, fresh.inodes i added.newInode.1] at live
  cases live

theorem Added.cells (tree : DirectoryTree fs) :
    ∃ d, fs.dentries dir = some d ∧ (∀ c ∈ d.children, ∀ x, fs.cells c = some x → x.name ≠ name) ∧
      fs'.cells = LinkedTrees.inserted fs.cells dir node d.cell name := by
  cases added.home_eq tree
  obtain ⟨d, atDir, alone, after⟩ := added.place
  refine ⟨d, atDir, fun c member x live => ?_, ?_⟩
  · obtain ⟨e, there, same⟩ := cells_eq_some live
    rw [← same]
    exact alone c member e there
  · show (fun q => (fs'.dentries q).map Dentry.cell) = _
    rw [after, map_update, map_update]
    rfl

theorem Added.keeps_tree (fresh : Fresh fs) (tree : DirectoryTree fs)
    (isdir : IsDirectory fs dir) : DirectoryTree fs' where
  tree := by
    obtain ⟨d, atDir, alone, after⟩ := added.cells tree
    rw [after, added.rootDentry]
    apply Tree.insert (cells_eq atDir) _ tree.tree alone
    rw [Fs.cells, fresh.dentries node added.newNode.1, Option.map_none]
  backed := by
    intro p d live
    rcases added.dentries_cases tree live with ⟨rfl, rfl⟩ | ⟨e, old, same, -⟩
    · exact ⟨i, inode, rfl, by rw [added.inodes, Function.update_self], added.back⟩
    · obtain ⟨j, x, its, there, back⟩ := tree.backed p e old
      exact ⟨j, x, same.trans its, added.inodes_of_live fresh there, back⟩
  directories := by
    have keeps : ∀ p e d, fs.dentries p = some e → fs'.dentries p = some d → d.inode = e.inode → IsDirectory fs p →
        IsDirectory fs' p := by
      intro p e d old live same was
      obtain ⟨j, x, behind, there, mode⟩ := was
      obtain ⟨e', old', its⟩ := inodeOf_eq_ok.mp behind
      cases old.symm.trans old'
      exact ⟨j, x, inodeOf_eq_ok.mpr ⟨d, live, same.trans its⟩, added.inodes_of_live fresh there, mode⟩
    intro p d live more
    rcases added.dentries_cases tree live with ⟨rfl, rfl⟩ | ⟨e, old, same, list⟩
    · exact absurd rfl more
    · by_cases atDir : p = dir
      · subst atDir
        exact keeps p e d old live same isdir
      · exact keeps p e d old live same (tree.directories p e old (list atDir ▸ more))

end Additions

section Removals

variable {fs fs' : Fs} {home node i : Ptr}

theorem Removed.dentries_cases (removed : Removed fs home node i fs') {p : Ptr} {d : Dentry}
    (live : fs'.dentries p = some d) :
    p ≠ node ∧ ∃ e, fs.dentries p = some e ∧ d.inode = e.inode ∧ (d.children ≠ [] → e.children ≠ []) := by
  obtain ⟨parent, x, atHome, -, -, -, -, after⟩ := removed.place
  rw [after] at live
  have other : p ≠ node := by
    intro same
    rw [same, Function.update_self] at live
    cases live
  rw [Function.update_of_ne other] at live
  refine ⟨other, ?_⟩
  by_cases atParent : p = home
  · subst atParent
    rw [Function.update_self] at live
    cases live
    refine ⟨parent, atHome, rfl, fun more none_ => more ?_⟩
    show parent.children.erase node = []
    rw [none_]
    rfl
  · rw [Function.update_of_ne atParent] at live
    exact ⟨d, live, rfl, id⟩

theorem Removed.inodes_of_ne (removed : Removed fs home node i fs') {j : Ptr} (other : j ≠ i) :
    fs'.inodes j = fs.inodes j := by
  obtain ⟨v, -, after, -⟩ := removed.inode
  rcases after with after | after <;> rw [after, Function.update_of_ne other]

theorem Removed.leaf (removed : Removed fs home node i fs') (tree : DirectoryTree fs) :
    ∃ d x, fs.dentries home = some d ∧ node ∈ d.children ∧ fs.dentries node = some x ∧ x.inode = some i ∧
      x.children = [] ∧ fs'.cells = LinkedTrees.removed fs.cells home node d.cell := by
  obtain ⟨d, x, atHome, member, atNode, its, empty, after⟩ := removed.place
  refine ⟨d, x, atHome, member, atNode, its, ?_, ?_⟩
  · -- a directory has been checked to be empty, and a file has no children
    by_contra more
    obtain ⟨j, y, behind, live, mode⟩ := tree.directories node x atNode more
    obtain ⟨x', atNode', its'⟩ := inodeOf_eq_ok.mp behind
    cases atNode.symm.trans atNode'
    cases its.symm.trans its'
    exact more (empty y live mode)
  · show (fun q => (fs'.dentries q).map Dentry.cell) = _
    rw [after, map_update, map_update]
    rfl

theorem Removed.keeps_tree (removed : Removed fs home node i fs') (tree : DirectoryTree fs) : DirectoryTree fs' := by
  obtain ⟨d, x, atHome, member, atNode, its, bare, after⟩ := removed.leaf tree
  have apart : ∀ p e, fs.dentries p = some e → p ≠ node → e.inode ≠ some i := by
    intro p e old other same
    exact other (tree.inode_inj old atNode same its)
  refine ⟨?_, ?_, ?_⟩
  · rw [after, removed.rootDentry]
    exact Tree.remove (cells_eq atHome) member (cells_eq atNode) bare tree.tree
  · intro p e live
    obtain ⟨other, e', old, same, -⟩ := removed.dentries_cases live
    obtain ⟨j, y, its', there, back⟩ := tree.backed p e' old
    refine ⟨j, y, same.trans its', ?_, back⟩
    rw [removed.inodes_of_ne, there]
    intro equal
    exact apart p e' old other (equal ▸ its')
  · intro p e live more
    obtain ⟨other, e', old, same, list⟩ := removed.dentries_cases live
    obtain ⟨j, y, behind, there, mode⟩ := tree.directories p e' old (list more)
    obtain ⟨e'', old', its'⟩ := inodeOf_eq_ok.mp behind
    cases old.symm.trans old'
    refine ⟨j, y, inodeOf_eq_ok.mpr ⟨e, live, same.trans its'⟩, ?_, mode⟩
    rw [removed.inodes_of_ne, there]
    intro equal
    exact apart p e' old other (equal ▸ its')

end Removals

/-- The file system between calls. -/
structure Sound (fs : Fs) : Prop where
  fresh : Fresh fs
  tree : DirectoryTree fs

/-- The edits that keep the tree: a dentry is added to a directory, and none is lost. -/
def Edit.Fits (fs : Fs) : Edit → Prop
  | .add dir _ _ _ _ _ => IsDirectory fs dir
  | .lose _ _ => False
  | _ => True

theorem Same.keeps_sound (same : Same fs fs') (sound : Sound fs) : Sound fs' :=
  ⟨same.keeps_fresh sound.fresh, same.shape.keeps_tree sound.tree⟩

theorem EditStep.keeps_sound {e : Edit} (step : EditStep fs e fs') (sound : Sound fs) (fits : e.Fits fs) : Sound fs' := by
  refine ⟨step.keeps_fresh sound.fresh, ?_⟩
  cases step with
  | count n live =>
    apply SameShape.keeps_tree _ sound.tree
    exact .of_update rfl rfl live rfl rfl rfl
  | add added => exact added.keeps_tree sound.fresh sound.tree fits
  | remove removed => exact removed.keeps_tree sound.tree
  | retable retabled =>
    obtain ⟨x, y, live, after, home, mode, -⟩ := retabled.inode
    exact (SameShape.of_update retabled.dentries retabled.rootDentry live after home mode).keeps_tree sound.tree
  | lose => exact absurd fits id

end CreeperKernel.Vfs
