import CreeperKernel.VfsEdits

namespace CreeperKernel.Vfs

/-- `vfs_create` has put the dentry `node` into the list of the dentry `home` of the directory
`dir`, with the new inode `i`. -/
structure Linked (fs : Fs) (dir home node i : Ptr) (inode : Inode) (fs' : Fs) : Prop
    extends NewInode fs node i inode fs' where
  owner : ∃ parent, fs.inodes dir = some parent ∧ parent.iDentry = some home
  place : ∃ d new, fs.dentries home = some d ∧ fs.dentries node = some new ∧
    findNamed fs new.name d.children = .ok none ∧
    fs'.dentries = Function.update (Function.update fs.dentries node
      (some { new with inode := some i, children := [] })) home (some { d with children := node :: d.children })

variable {fs fs' : Fs} {node dir home i c : Ptr}

theorem vfsCreate_cases {mode : UMode} {ret : Int} (done : vfsCreate fs dir node mode = .ok (ret, fs')) :
    (ret < 0 ∧ Same fs fs') ∨
      (ret = 0 ∧ ∃ home i inode, Linked fs dir home node i inode fs' ∧ inode.iMode = mode ∧ inode.iPrivate = none) := by
  obtain ⟨parent, owner, done⟩ := bind_eq_ok.mp done
  obtain ⟨home, at_, done⟩ := bind_eq_ok.mp done
  obtain ⟨d, place, done⟩ := bind_eq_ok.mp done
  obtain ⟨new, self, done⟩ := bind_eq_ok.mp done
  obtain ⟨found, searched, done⟩ := bind_eq_ok.mp done
  rw [inode_eq_ok] at owner
  rw [deref_eq_ok] at at_
  rw [dentry_eq_ok] at place self
  cases found with
  | some c =>
    cases done
    exact .inl ⟨by decide, .refl fs⟩
  | none =>
    dsimp only at done
    split at done
    · rename_i fs₁ failed
      cases done
      exact .inl ⟨by decide, (kmalloc_same failed).1⟩
    · rename_i i fs₁ allocated
      cases done
      obtain ⟨same, new'⟩ := kmalloc_same allocated
      obtain ⟨rfl, later⟩ := new' i rfl
      refine .inr ⟨rfl, home, fs.fresh,
        { iDentry := some node, iMode := mode, iUid := fs₁.uid, iGid := fs₁.gid, iCount := 0
          iOp := parent.iOp, iFop := parent.iFop, iPrivate := none },
        ⟨⟨?_, rfl, rfl, .inl ⟨rfl, same.infos⟩, same.freed, same.rootDentry, ⟨Nat.le_refl _, later⟩, same.heap⟩,
        ⟨parent, owner, at_⟩, ⟨d, new, place, self, searched, ?_⟩⟩, rfl, rfl⟩
      · simp only [Fs.setDentry, Fs.setInode, same.inodes]
      · simp only [Fs.setDentry, Fs.setInode, same.dentries]

/-- The results of the `create` and `mkdir` operations: nothing, a linked dentry, or a linked
dentry whose inode has been released again for want of memory, which only some operations
can come to (`short`). -/
inductive Made (short : Prop) (fs : Fs) (dir node : Ptr) : Int → Fs → Prop where
  | refused {ret : Int} {fs' : Fs} (negative : ret < 0) (same : Same fs fs') : Made short fs dir node ret fs'
  | linked {home i : Ptr} {inode : Inode} {fs' : Fs} (linked : Linked fs dir home node i inode fs') :
      Made short fs dir node 0 fs'
  | stripped {home i : Ptr} {inode : Inode} {d : Dentry} {fs₁ fs₂ fs' : Fs} {ret : Int} (may : short) (negative : ret < 0)
      (linked : Linked fs dir home node i inode fs₁) (same : Same fs₁ fs₂) (made : fs₁.dentries node = some d)
      (after : fs' = (fs₂.freeInode i).setDentry node { d with inode := none })
      (bare : fs₁.infos = fs.infos) (starved : fs₁.heap ≠ []) : Made short fs dir node ret fs'

variable {inode : Inode}

theorem Linked.retable {fs₁ : Fs} {inode' : Inode} (linked : Linked fs dir home node i inode fs₁)
    (dentries : fs'.dentries = fs₁.dentries) (inodes : fs'.inodes = Function.update fs₁.inodes i (some inode'))
    (back : inode'.iDentry = inode.iDentry) (count : inode'.iCount = inode.iCount)
    (infos : NewInfo fs inode' fs') (freed : fs'.freed = fs₁.freed) (rootDentry : fs'.rootDentry = fs₁.rootDentry) (later : fs₁.fresh ≤ fs'.fresh)
    (heap : fs₁.heap = [] → fs'.heap = []) : Linked fs dir home node i inode' fs' where
  owner := linked.owner
  place := by
    obtain ⟨d, new, place, self, alone, after⟩ := linked.place
    exact ⟨d, new, place, self, alone, dentries.trans after⟩
  inodes := by rw [inodes, linked.inodes, Function.update_idem]
  back := back.trans linked.back
  count := count.trans linked.count
  infos := infos
  freed := freed.trans linked.freed
  rootDentry := rootDentry.trans linked.rootDentry
  newInode := ⟨linked.newInode.1, Nat.lt_of_lt_of_le linked.newInode.2 later⟩
  heap := fun enough => heap (linked.heap enough)

section Linked

variable (linked : Linked fs dir home node i inode fs')
include linked

theorem Linked.inode_node (apart : home ≠ node) : ∃ d, fs'.dentries node = some d ∧ d.inode = some i := by
  obtain ⟨d, new, -, -, -, after⟩ := linked.place
  refine ⟨{ new with inode := some i, children := [] }, ?_, rfl⟩
  rw [after, Function.update_of_ne apart.symm, Function.update_self]

theorem Linked.inode_live : fs'.inodes i = some inode := by
  rw [linked.inodes, Function.update_self]

theorem Linked.bare_infos (bare : inode.iPrivate = none) : fs'.infos = fs.infos := by
  rcases linked.infos with ⟨-, same⟩ | ⟨p, some_, -⟩
  · exact same
  · rw [bare] at some_
    cases some_

theorem Linked.later : fs.fresh ≤ fs'.fresh :=
  Nat.le_of_lt (Nat.lt_of_le_of_lt linked.newInode.1 linked.newInode.2)

end Linked

section Makers

variable {fs fs' : Fs} {dir node : Ptr} {mode : UMode} {ret : Int}

/-- The dentry lists are not those of the new dentry itself. -/
def HomesApart (fs : Fs) (node : Ptr) : Prop := ∀ i x p, fs.inodes i = some x → x.iDentry = some p → p ≠ node

theorem Linked.apart {home i : Ptr} {inode : Inode} (linked : Linked fs dir home node i inode fs')
    (apart : HomesApart fs node) : home ≠ node := by
  obtain ⟨parent, owner, at_⟩ := linked.owner
  exact apart dir parent home owner at_

variable {short : Prop}

theorem vfsCreate_made (done : vfsCreate fs dir node mode = .ok (ret, fs')) : Made short fs dir node ret fs' := by
  rcases vfsCreate_cases done with ⟨negative, same⟩ | ⟨rfl, home, i, inode, linked, -⟩
  · exact .refused negative same
  · exact .linked linked

/-- The operations of a ramfile go on where `vfs_create` has linked the dentry. -/
theorem made_of_created {rest : Except Stop (Int × Fs)} {res : Int} {fs₁ : Fs}
    (created : vfsCreate fs dir node mode = .ok (res, fs₁))
    (done : (if res < 0 then .ok (res, fs₁) else rest) = .ok (ret, fs'))
    (more : ∀ home i inode, Linked fs dir home node i inode fs₁ → inode.iPrivate = none → rest = .ok (ret, fs') →
      Made short fs dir node ret fs') : Made short fs dir node ret fs' := by
  rcases vfsCreate_cases created with ⟨negative, same⟩ | ⟨rfl, home, i, inode, linked, -, bare⟩
  · rw [if_pos negative] at done
    cases done
    exact .refused negative same
  · exact more home i inode linked bare done

theorem ramfileInodeMkdir_made (apart : HomesApart fs node)
    (done : ramfileInodeMkdir fs dir node mode = .ok (ret, fs')) : Made short fs dir node ret fs' := by
  obtain ⟨⟨res, fs₁⟩, created, done⟩ := bind_eq_ok.mp done
  apply made_of_created created done
  intro home i inode linked bare done
  obtain ⟨j, behind, done⟩ := bind_eq_ok.mp done
  obtain ⟨inode', live, done⟩ := bind_eq_ok.mp done
  cases done
  obtain ⟨d, made, itself⟩ := linked.inode_node (linked.apart apart)
  obtain ⟨d', made', its⟩ := inodeOf_eq_ok.mp behind
  cases made.symm.trans made'
  cases itself.symm.trans its
  cases (inode_eq_ok.mp live).symm.trans linked.inode_live
  exact .linked (linked.retable rfl rfl rfl rfl (.inl ⟨rfl, linked.bare_infos bare⟩) rfl rfl (Nat.le_refl _) id)

variable {excl : Bool}

theorem ramfileInodeCreate_made (apart : HomesApart fs node)
    (done : ramfileInodeCreate fs dir node mode excl = .ok (ret, fs')) : Made True fs dir node ret fs' := by
  obtain ⟨new, self, done⟩ := bind_eq_ok.mp done
  split at done
  · cases done
    exact .refused (by decide) (.refl fs)
  · obtain ⟨⟨res, fs₁⟩, created, done⟩ := bind_eq_ok.mp done
    apply made_of_created created done
    intro home i inode linked bare done
    obtain ⟨d, made, done⟩ := bind_eq_ok.mp done
    obtain ⟨j, its, done⟩ := bind_eq_ok.mp done
    obtain ⟨d', made', itself⟩ := linked.inode_node (linked.apart apart)
    rw [dentry_eq_ok] at made
    rw [deref_eq_ok] at its
    cases made.symm.trans made'
    cases its.symm.trans itself
    have infos := linked.bare_infos bare
    split at done
    · rename_i fs₂ failed
      cases done
      have starved : fs₁.heap ≠ [] := by
        intro enough
        rw [kmalloc_of_heap_nil enough] at failed
        cases failed
      exact .stripped trivial (by decide) linked (kmalloc_same failed).1 made rfl infos starved
    · rename_i p fs₂ allocated
      obtain ⟨same, new'⟩ := kmalloc_same allocated
      obtain ⟨rfl, later⟩ := new' p rfl
      obtain ⟨inode', live, done⟩ := bind_eq_ok.mp done
      cases done
      rw [inode_eq_ok, same.inodes] at live
      cases live.symm.trans linked.inode_live
      have inodes : (Fs.setInode (fs₂.setInfo fs₁.fresh { start := 0, size := 0, fixedSize := false }) i
          { inode with iPrivate := some fs₁.fresh, iFop := some .ramFile, iOp := some .ramDir }).inodes =
          Function.update fs₁.inodes i
            (some { inode with iPrivate := some fs₁.fresh, iFop := some .ramFile, iOp := some .ramDir }) := by
        simp only [Fs.setInode, Fs.setInfo, same.inodes]
      refine .linked (linked.retable same.dentries inodes rfl rfl (.inr ⟨fs₁.fresh, rfl, linked.later, later, ?_⟩)
        same.freed same.rootDentry same.fresh same.heap)
      simp only [Fs.setInode, Fs.setInfo, same.infos, infos]

theorem callCreate_made (apart : HomesApart fs node) (done : callCreate fs dir node mode excl = .ok (ret, fs')) :
    Made True fs dir node ret fs' := by
  obtain ⟨ops, -, done⟩ := bind_eq_ok.mp done
  cases ops with
  | defVfs => exact vfsCreate_made done
  | ramDir => exact ramfileInodeCreate_made apart done

theorem callMkdir_made (apart : HomesApart fs node) (done : callMkdir fs dir node mode = .ok (ret, fs')) :
    Made short fs dir node ret fs' := by
  obtain ⟨ops, -, done⟩ := bind_eq_ok.mp done
  cases ops with
  | defVfs => exact vfsCreate_made done
  | ramDir => exact ramfileInodeMkdir_made apart done

end Makers

variable {children : List Ptr} {name : Name}

theorem findNamed_eq_none (searched : findNamed fs name children = .ok none) :
    ∀ c ∈ children, ∃ d, fs.dentries c = some d ∧ d.name ≠ name := by
  induction children with
  | nil => exact fun c member => nomatch member
  | cons first rest ih =>
    obtain ⟨d, live, searched⟩ := bind_eq_ok.mp searched
    rw [dentry_eq_ok] at live
    split at searched
    · cases searched
    · rename_i other
      intro c member
      rcases List.mem_cons.mp member with rfl | later
      · exact ⟨d, live, other⟩
      · exact ih searched c later

/-- A dentry that a search returns is in the list, has the name and is the first that does. -/
theorem findNamed_eq_some (searched : findNamed fs name children = .ok (some c)) :
    c ∈ children ∧ ∃ d, fs.dentries c = some d ∧ d.name = name := by
  induction children with
  | nil => cases searched
  | cons first rest ih =>
    obtain ⟨d, live, searched⟩ := bind_eq_ok.mp searched
    rw [dentry_eq_ok] at live
    split at searched
    · rename_i same
      cases searched
      exact ⟨List.mem_cons_self, d, live, same⟩
    · obtain ⟨member, rest_⟩ := ih searched
      exact ⟨List.mem_cons_of_mem _ member, rest_⟩

theorem findNamed_of_unique {d : Dentry} (live : fs.dentries c = some d) (member : c ∈ children)
    (all : ∀ a ∈ children, ∃ x, fs.dentries a = some x ∧ (x.name = d.name → a = c)) :
    findNamed fs d.name children = .ok (some c) := by
  induction children with
  | nil => cases member
  | cons first rest ih =>
    obtain ⟨x, there, only⟩ := all first List.mem_cons_self
    simp only [findNamed, dentry_eq_ok.mpr there, bind, Except.bind]
    split
    · rename_i same
      rw [only same]
    · rename_i other
      have later : c ∈ rest := by
        rcases List.mem_cons.mp member with rfl | later
        · cases live.symm.trans there
          exact absurd rfl other
        · exact later
      exact ih later fun a listed => all a (List.mem_cons_of_mem _ listed)

section Creation

variable {fs fs₁ fs₂ : Fs} {dir node j : Ptr} {name : Name} {ret : Int}

theorem homesApart_of_fresh (fresh : Fresh fs) (same : fs₁.inodes = fs.inodes) : HomesApart fs₁ fs.fresh := by
  intro i x p live home
  rw [same] at live
  exact Nat.ne_of_lt (fresh.homes i x p live home)

/-- The file system before and after `newDentry`, seen from the objects there were before. -/
structure Noded (fs : Fs) (name : Name) (dir node : Ptr) (fs₁ : Fs) : Prop where
  dentries : fs₁.dentries = Function.update fs.dentries node
    (some { name, parent := some dir, inode := none, children := [] })
  inodes : fs₁.inodes = fs.inodes
  infos : fs₁.infos = fs.infos
  freed : fs₁.freed = fs.freed
  rootDentry : fs₁.rootDentry = fs.rootDentry
  newNode : node = fs.fresh ∧ node < fs₁.fresh
  uid : fs₁.uid = fs.uid
  gid : fs₁.gid = fs.gid
  heap : fs.heap = [] → fs₁.heap = []

theorem newDentry_noded (done : newDentry fs name dir = (some node, fs₁)) : Noded fs name dir node fs₁ := by
  rcases newDentry_cases done with ⟨impossible, -⟩ | ⟨at_, later, fs₀, same, equal, rfl⟩
  · cases impossible
  · cases at_
    refine ⟨?_, same.inodes, same.infos, same.freed, same.rootDentry, ⟨rfl, ?_⟩, same.uid, same.gid, same.heap⟩
    · simp only [Fs.setDentry, same.dentries]
    · exact later

theorem Noded.later (noded : Noded fs name dir node fs₁) : fs.fresh ≤ fs₁.fresh :=
  Nat.le_trans (Nat.le_of_eq noded.newNode.1.symm) (Nat.le_of_lt noded.newNode.2)

variable {p i home : Ptr}

theorem Noded.dentries_of_ne (noded : Noded fs name dir node fs₁) (other : p ≠ node) : fs₁.dentries p = fs.dentries p := by
  rw [noded.dentries, Function.update_of_ne other]

theorem Noded.unused (noded : Noded fs name dir node fs₁) (fresh : Fresh fs) : fs.dentries node = none :=
  fresh.dentries node (Nat.le_of_eq noded.newNode.1.symm)

variable {d : Dentry}

theorem Noded.dentries_of_live (noded : Noded fs name dir node fs₁) (fresh : Fresh fs) (live : fs.dentries p = some d) :
    fs₁.dentries p = some d := by
  rw [noded.dentries_of_ne, live]
  intro same
  rw [same, noded.unused fresh] at live
  cases live

theorem Noded.apart (noded : Noded fs name dir node fs₁) (fresh : Fresh fs) : HomesApart fs₁ node :=
  noded.newNode.1 ▸ homesApart_of_fresh fresh noded.inodes

theorem Noded.inodeOf (noded : Noded fs name dir node fs₁) (fresh : Fresh fs) (behind : fs.inodeOf p = .ok i) :
    fs₁.inodeOf p = .ok i := by
  obtain ⟨d, live, its⟩ := inodeOf_eq_ok.mp behind
  exact inodeOf_eq_ok.mpr ⟨d, noded.dentries_of_live fresh live, its⟩

variable {inode : Inode}

theorem Linked.home_live (noded : Noded fs name dir node fs₁) (fresh : Fresh fs)
    (linked : Linked fs₁ j home node i inode fs₂) : ∃ d, fs.dentries home = some d ∧
      (∀ c ∈ d.children, ∀ x, fs.dentries c = some x → x.name ≠ name) ∧
      fs₂.dentries = Function.update (Function.update fs.dentries node
        (some { name, parent := some dir, inode := some i, children := [] }))
        home (some { d with children := node :: d.children }) := by
  obtain ⟨d, new, home', self, alone, after⟩ := linked.place
  rw [noded.dentries_of_ne (linked.apart (noded.apart fresh))] at home'
  rw [noded.dentries, Function.update_self] at self
  cases self
  refine ⟨d, home', fun c member x live => ?_, ?_⟩
  · obtain ⟨y, found, other⟩ := findNamed_eq_none alone c member
    cases (noded.dentries_of_live fresh live).symm.trans found
    exact other
  · rw [after, noded.dentries, Function.update_idem]

theorem Linked.added (noded : Noded fs name dir node fs₁) (fresh : Fresh fs) (parent : fs.inodeOf dir = .ok j)
    (linked : Linked fs₁ j home node i inode fs₂) :
    Added fs dir home node i name inode fs₂ where
  owner := by
    obtain ⟨x, live, its⟩ := linked.owner
    exact ⟨j, x, parent, noded.inodes ▸ live, its⟩
  place := linked.home_live noded fresh
  inodes := noded.inodes ▸ linked.inodes
  back := linked.back
  count := linked.count
  infos := by
    rcases linked.infos with ⟨bare, same⟩ | ⟨p, its, new, later, same⟩
    · exact .inl ⟨bare, noded.infos ▸ same⟩
    · exact .inr ⟨p, its, Nat.le_trans noded.later new, later, noded.infos ▸ same⟩
  freed := linked.freed.trans noded.freed
  rootDentry := linked.rootDentry.trans noded.rootDentry
  newNode := ⟨Nat.le_of_eq noded.newNode.1.symm, Nat.lt_of_lt_of_le noded.newNode.2 linked.later⟩
  newInode := ⟨Nat.le_trans noded.later linked.newInode.1, linked.newInode.2⟩
  heap := fun enough => linked.heap (noded.heap enough)

theorem Linked.lost {fs₃ : Fs} (noded : Noded fs name dir node fs₁) (fresh : Fresh fs)
    (linked : Linked fs₁ j home node i inode fs₂) (same : Same fs₂ fs₃) (bare : fs₂.infos = fs₁.infos) :
    Lost fs home node (((fs₃.freeInode i).setDentry node d).freeDentry node) where
  place := by
    obtain ⟨d, live, -, after⟩ := linked.home_live noded fresh
    have apart := linked.apart (noded.apart fresh)
    refine ⟨d, live, ?_⟩
    simp only [Fs.freeDentry, Fs.setDentry, Fs.freeInode, same.dentries, after, Function.update_idem]
    rw [Function.update_comm apart, Function.update_idem, ← noded.unused fresh, Function.update_eq_self]
  inodes := by
    have unused : fs.inodes i = none := fresh.inodes i (Nat.le_trans noded.later linked.newInode.1)
    simp only [Fs.freeDentry, Fs.setDentry, Fs.freeInode, same.inodes, linked.inodes, noded.inodes,
      Function.update_idem]
    rw [← unused, Function.update_eq_self]
  infos := same.infos.trans (bare.trans noded.infos)
  freed := same.freed.trans (linked.freed.trans noded.freed)
  rootDentry := same.rootDentry.trans (linked.rootDentry.trans noded.rootDentry)
  newNode := ⟨Nat.le_of_eq noded.newNode.1.symm,
    Nat.lt_of_lt_of_le noded.newNode.2 (Nat.le_trans linked.later same.fresh)⟩

theorem Noded.refused (noded : Noded fs name dir node fs₁) (fresh : Fresh fs) (same : Same fs₁ fs₂) :
    Same fs (fs₂.freeDentry node) where
  dentries := by
    simp only [Fs.freeDentry, same.dentries, noded.dentries, Function.update_idem]
    rw [← noded.unused fresh, Function.update_eq_self]
  inodes := same.inodes.trans noded.inodes
  infos := same.infos.trans noded.infos
  freed := same.freed.trans noded.freed
  rootDentry := same.rootDentry.trans noded.rootDentry
  uid := same.uid.trans noded.uid
  gid := same.gid.trans noded.gid
  fresh := Nat.le_trans noded.later same.fresh
  heap := fun enough => same.heap (noded.heap enough)

/-- What creating a component does to the tree. -/
inductive Grown (short : Prop) (fs : Fs) (dir node : Ptr) (name : Name) : Int → Fs → Prop where
  | refused {ret : Int} {fs' : Fs} (negative : ret < 0) (same : Same fs fs') : Grown short fs dir node name ret fs'
  | added {home i : Ptr} {inode : Inode} {fs' : Fs} (added : Added fs dir home node i name inode fs') :
      Grown short fs dir node name 0 fs'
  | lost {home : Ptr} {ret : Int} {fs' : Fs} (may : short) (negative : ret < 0) (lost : Lost fs home node fs')
      (starved : fs.heap ≠ []) : Grown short fs dir node name ret fs'

theorem Made.grown {short : Prop} (noded : Noded fs name dir node fs₁) (fresh : Fresh fs) (parent : fs.inodeOf dir = .ok j)
    (made : Made short fs₁ j node ret fs₂) :
    Grown short fs dir node name ret (if ret < 0 then fs₂.freeDentry node else fs₂) := by
  cases made with
  | refused negative same =>
    rw [if_pos negative]
    exact .refused negative (noded.refused fresh same)
  | linked linked => exact .added (linked.added noded fresh parent)
  | stripped may negative linked same made after bare starved =>
    rw [if_pos negative, after]
    exact .lost may negative (linked.lost noded fresh same bare) fun enough => starved (linked.heap (noded.heap enough))

end Creation

end CreeperKernel.Vfs
