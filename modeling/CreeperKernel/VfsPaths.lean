import CreeperKernel.VfsOperations
import CreeperKernel.VfsBoot

namespace CreeperKernel.Vfs

variable {fs fs' : Fs} {path name : Name} {d start i target dir : Ptr}

theorem Resolves.congr (same : SameWalk fs fs') (resolves : Resolves fs' start path d) : Resolves fs start path d := by
  obtain ⟨inode, first, started, home, walked⟩ := resolves
  have here := same.inodes start
  rw [started, Option.map_some] at here
  obtain ⟨inode', started', pair⟩ := Option.map_eq_some_iff.mp here.symm
  simp only [Prod.mk.injEq] at pair
  exact ⟨inode', first, started', pair.1.trans home, (walk_congr same first _).symm.trans walked⟩

theorem kpathLookup_edits {found : Option Ptr} (done : kpathLookup fs start path = .ok (found, fs')) :
    (found = none ∧ Same fs fs') ∨ ∃ d i, found = some d ∧ Resolves fs start path d ∧
      fs.inodeOf d = .ok i ∧ Edits fs [.count i 1] fs' := by
  rcases kpathLookup_cases done with unfound | ⟨d, i, inode, rfl, resolves, behind, reached, same⟩
  · exact .inl unfound
  · exact .inr ⟨d, i, rfl, resolves, behind, .single (.refl fs) (.count 1 reached) same⟩

/-- What `kpath_create` and `kpath_mkdir` do to the tree. -/
inductive NewEdits (short : Prop) (fs : Fs) (start : Ptr) (path : Name) : Int → List Edit → Prop where
  | unfound {ret : Int} (negative : ret < 0) : NewEdits short fs start path ret []
  | refused {d i : Ptr} {ret : Int} (negative : ret < 0) (parent : Resolves fs start (splitLast path).1 d)
      (behind : fs.inodeOf d = .ok i) : NewEdits short fs start path ret [.count i 1]
  | added {d i home node j : Ptr} {inode : Inode} (parent : Resolves fs start (splitLast path).1 d)
      (behind : fs.inodeOf d = .ok i) :
      NewEdits short fs start path 0 [.count i 1, .add d home node j (splitLast path).2 inode]
  | lost {d i home node : Ptr} {ret : Int} (may : short) (negative : ret < 0) (starved : fs.heap ≠ [])
      (parent : Resolves fs start (splitLast path).1 d) (behind : fs.inodeOf d = .ok i) :
      NewEdits short fs start path ret [.count i 1, .lose home node]

variable {ret n : Int} {short : Prop}

theorem Grown.newEdits {fs₁ : Fs} {node : Ptr} (looked : Edits fs [.count i 1] fs₁)
    (enough : fs.heap = [] → fs₁.heap = []) (parent : Resolves fs start (splitLast path).1 d)
    (behind : fs.inodeOf d = .ok i) (grown : Grown short fs₁ d node (splitLast path).2 ret fs') :
    ∃ es, NewEdits short fs start path ret es ∧ Edits fs es fs' := by
  cases grown with
  | refused negative same => exact ⟨_, .refused negative parent behind, looked.append (.nil same)⟩
  | added added => exact ⟨_, .added parent behind, looked.append (.single (.refl _) (.add added) (.refl _))⟩
  | lost may negative lost starved =>
    exact ⟨_, .lost may negative (fun none_ => starved (enough none_)) parent behind,
      looked.append (.single (.refl _) (.lose lost) (.refl _))⟩

theorem EditStep.heap (step : EditStep fs (.count i n) fs') : fs'.heap = fs.heap := by
  cases step
  rfl

theorem heap_of_counted (edits : Edits fs [.count i n] fs') : fs.heap = [] → fs'.heap = [] := by
  cases edits with
  | cons before first rest =>
    cases rest with
    | nil after => exact fun enough => after.heap (first.heap.trans (before.heap enough))

theorem dentries_of_counted (edits : Edits fs [.count i n] fs') : fs'.dentries = fs.dentries := by
  cases edits with
  | cons before first rest =>
    cases rest with
    | nil after =>
      cases first
      exact after.dentries.trans before.dentries

theorem kpathNew_edits {make : Fs → Ptr → Ptr → Except Stop (Int × Fs)}
    (makes : ∀ {fs dir node ret fs'}, HomesApart fs node → make fs dir node = .ok (ret, fs') → Made short fs dir node ret fs')
    (fresh : Fresh fs) (done : kpathNew make fs start path = .ok (ret, fs')) :
    ∃ es, NewEdits short fs start path ret es ∧ Edits fs es fs' := by
  unfold kpathNew at done
  split at done
  · rename_i fs₁ failed
    cases done
    exact ⟨[], .unfound (by decide), .nil (kmalloc_same failed).1⟩
  · rename_i p fs₁ copied
    have same := (kmalloc_same copied).1
    obtain ⟨⟨found, fs₂⟩, looked, done⟩ := bind_eq_ok.mp done
    rcases kpathLookup_edits looked with ⟨rfl, same'⟩ | ⟨d, i, rfl, resolves, behind, edits⟩
    · cases done
      exact ⟨[], .unfound (by decide), .nil (same.trans same')⟩
    · have parent := resolves.congr same.walk
      rw [inodeOf_congr same.dentries] at behind
      have counted : Edits fs [.count i 1] fs₂ := (Edits.nil same).append edits
      have behind' : fs₂.inodeOf d = .ok i := (inodeOf_congr (dentries_of_counted counted) d).trans behind
      dsimp only at done
      split at done
      · rename_i fs₃ failed
        cases done
        rcases newDentry_cases failed with ⟨-, same₃⟩ | ⟨impossible, -⟩
        · exact ⟨_, .refused (by decide) parent behind, counted.append (.nil same₃)⟩
        · cases impossible
      · rename_i node fs₃ noded
        have fresh₂ := counted.keeps_fresh fresh
        have noded := newDentry_noded noded
        obtain ⟨j, its, done⟩ := bind_eq_ok.mp done
        cases its.symm.trans (noded.inodeOf fresh₂ behind')
        obtain ⟨⟨ret', fs₄⟩, made, done⟩ := bind_eq_ok.mp done
        cases done
        exact ((makes (noded.apart fresh₂) made).grown noded fresh₂ behind').newEdits counted
          (heap_of_counted counted) parent behind

variable {mode : UMode}

theorem kpathCreate_edits (fresh : Fresh fs) {excl : Bool} (done : kpathCreate fs start path mode excl = .ok (ret, fs')) :
    ∃ es, NewEdits True fs start path ret es ∧ Edits fs es fs' :=
  kpathNew_edits callCreate_made fresh done

theorem kpathMkdir_edits (fresh : Fresh fs) (done : kpathMkdir fs start path mode = .ok (ret, fs')) :
    ∃ es, NewEdits False fs start path ret es ∧ Edits fs es fs' :=
  kpathNew_edits callMkdir_made fresh done

theorem vfsLookup_eq_some (found : vfsLookup fs dir name = .ok (some target)) : ∃ inode home d, fs.inodes dir = some inode ∧
      inode.iDentry = some home ∧ fs.dentries home = some d ∧ target ∈ d.children ∧
      ∃ x, fs.dentries target = some x ∧ x.name = name := by
  obtain ⟨inode, live, found⟩ := bind_eq_ok.mp found
  obtain ⟨home, its, found⟩ := bind_eq_ok.mp found
  obtain ⟨d, at_, found⟩ := bind_eq_ok.mp found
  rw [inode_eq_ok] at live
  rw [deref_eq_ok] at its
  rw [dentry_eq_ok] at at_
  exact ⟨inode, home, d, live, its, at_, findNamed_eq_some found⟩

theorem unlinkDentry_eq_ok {home : Ptr} {inode : Inode} {d : Dentry} (live : fs.inodes dir = some inode)
    (its : inode.iDentry = some home) (at_ : fs.dentries home = some d) (done : unlinkDentry fs dir target = .ok fs')
    :
    fs' = (fs.setDentry home { d with children := d.children.erase target }).freeDentry target := by
  have read : fs.inode dir = .ok inode := inode_eq_ok.mpr live
  have owner : Fs.deref inode.iDentry = .ok home := deref_eq_ok.mpr its
  have list : fs.dentry home = .ok d := dentry_eq_ok.mpr at_
  simp only [unlinkDentry, read, owner, list, bind, Except.bind, Except.ok.injEq] at done
  exact done.symm

/-- The `ramfile_info` behind `i_private` has been released, perhaps with the contents. -/
structure Released (fs : Fs) (priv : Option Ptr) (fs' : Fs) : Prop where
  dentries : fs'.dentries = fs.dentries
  inodes : fs'.inodes = fs.inodes
  infos : priv = none ∧ fs'.infos = fs.infos ∨ ∃ p, priv = some p ∧ fs'.infos = Function.update fs.infos p none
  freed : fs'.freed = fs.freed ∨ ∃ p info, priv = some p ∧ fs.infos p = some info ∧
    info.fixedSize = false ∧ info.start ≠ 0 ∧ fs'.freed = info.start :: fs.freed
  rootDentry : fs'.rootDentry = fs.rootDentry
  fresh : fs'.fresh = fs.fresh
  heap : fs'.heap = fs.heap

theorem freeInfo_released (fs : Fs) (priv : Option Ptr) : Released fs priv (fs.freeInfo priv) := by
  cases priv with
  | none => exact ⟨rfl, rfl, .inl ⟨rfl, rfl⟩, .inl rfl, rfl, rfl, rfl⟩
  | some p => exact ⟨rfl, rfl, .inr ⟨p, rfl, rfl⟩, .inl rfl, rfl, rfl, rfl⟩

theorem freeContents_released {priv : Option Ptr} (done : freeContents fs priv = .ok fs') : Released fs priv fs' := by
  cases priv with
  | none =>
    cases done
    exact ⟨rfl, rfl, .inl ⟨rfl, rfl⟩, .inl rfl, rfl, rfl, rfl⟩
  | some p =>
    obtain ⟨info, live, done⟩ := bind_eq_ok.mp done
    rw [deref_eq_ok] at live
    cases done
    split
    · rename_i own
      refine ⟨rfl, rfl, .inr ⟨p, rfl, rfl⟩, .inr ⟨p, info, rfl, live, ?_, own.2, rfl⟩, rfl, rfl, rfl⟩
      exact Bool.not_eq_true _ ▸ own.1
    · exact ⟨rfl, rfl, .inr ⟨p, rfl, rfl⟩, .inl rfl, rfl, rfl, rfl⟩

/-- What the `rmdir` and `unlink` operations do. -/
inductive Taken (fs : Fs) (dir : Ptr) (name : Name) : Int → Fs → Prop where
  | refused {ret : Int} (negative : ret < 0) : Taken fs dir name ret fs
  | removed {home node i : Ptr} {fs' : Fs} (target : vfsLookup fs dir name = .ok (some node))
      (removed : Removed fs home node i fs') : Taken fs dir name 0 fs'

section Removal

variable {fs fs₁ fs₂ fs' : Fs} {dir target i : Ptr} {name : Name} {inode : Inode} {ret : Int}

/-- The common end of `ramfile_inode_rmdir` and `ramfile_inode_unlink`. -/
theorem removed_of_released {d : Dentry} (searched : vfsLookup fs dir name = .ok (some target))
    (live : fs.dentries target = some d) (its : d.inode = some i) (reached : fs.inodes i = some inode)
    (empty : sIsdir inode.iMode = true → d.children = []) (unlinked : unlinkDentry fs dir target = .ok fs₁)
    (released : Released fs₁ inode.iPrivate fs₂) {y : Option Inode}
    (last : y = none ∨ y = some { inode with iCount := inode.iCount - 1 })
    (after : fs' = { fs₂ with inodes := Function.update fs₂.inodes i y }) : Taken fs dir name 0 fs' := by
  obtain ⟨owner, home, list, atDir, back, atHome, member, -⟩ := vfsLookup_eq_some searched
  cases unlinkDentry_eq_ok atDir back atHome unlinked
  subst after
  apply Taken.removed searched
  refine ⟨⟨list, d, atHome, member, live, its, fun v found isdir => ?_, released.dentries⟩,
    ⟨inode, reached, ?_, released.infos⟩, ?_, released.rootDentry, Nat.le_of_eq released.fresh.symm,
    fun enough => released.heap.trans enough⟩
  · cases reached.symm.trans found
    exact empty isdir
  · show Function.update fs₂.inodes i y = Function.update fs.inodes i none ∨
      Function.update fs₂.inodes i y = Function.update fs.inodes i (some { inode with iCount := inode.iCount - 1 })
    rw [released.inodes]
    rcases last with rfl | rfl
    · exact .inl rfl
    · exact .inr rfl
  · rcases released.freed with kept | ⟨p, info, priv, stored, own, some_, more⟩
    · exact .inl kept
    · exact .inr ⟨inode, p, info, reached, priv, stored, own, some_, more⟩

theorem ramfileInodeRmdir_taken (done : ramfileInodeRmdir fs dir name = .ok (ret, fs')) : Taken fs dir name ret fs' := by
  obtain ⟨found, searched, done⟩ := bind_eq_ok.mp done
  cases found with
  | none =>
    cases done
    exact .refused (by decide)
  | some target =>
    obtain ⟨d, live, done⟩ := bind_eq_ok.mp done
    obtain ⟨i, its, done⟩ := bind_eq_ok.mp done
    obtain ⟨inode, reached, done⟩ := bind_eq_ok.mp done
    rw [dentry_eq_ok] at live
    rw [deref_eq_ok] at its
    rw [inode_eq_ok] at reached
    split at done
    · cases done
      exact .refused (by decide)
    · split at done
      · cases done
        exact .refused (by decide)
      · rename_i _ empty
        obtain ⟨fs₁, unlinked, done⟩ := bind_eq_ok.mp done
        cases done
        exact removed_of_released searched live its reached (fun _ => not_not.mp empty) unlinked
          (freeInfo_released _ _) (.inl rfl) rfl

theorem ramfileInodeUnlink_taken (done : ramfileInodeUnlink fs dir name = .ok (ret, fs')) : Taken fs dir name ret fs' := by
  obtain ⟨found, searched, done⟩ := bind_eq_ok.mp done
  cases found with
  | none =>
    cases done
    exact .refused (by decide)
  | some target =>
    obtain ⟨i, behind, done⟩ := bind_eq_ok.mp done
    obtain ⟨inode, reached, done⟩ := bind_eq_ok.mp done
    obtain ⟨d, live, its⟩ := inodeOf_eq_ok.mp behind
    rw [inode_eq_ok] at reached
    split at done
    · cases done
      exact .refused (by decide)
    · rename_i file
      obtain ⟨fs₁, unlinked, done⟩ := bind_eq_ok.mp done
      obtain ⟨fs₂, released, done⟩ := bind_eq_ok.mp done
      have released := freeContents_released released
      have empty : sIsdir inode.iMode = true → d.children = [] := fun isdir => absurd isdir file
      dsimp only at done
      split at done
      · cases done
        exact removed_of_released searched live its reached empty unlinked released (.inl rfl) rfl
      · cases done
        exact removed_of_released searched live its reached empty unlinked released (.inr rfl) rfl

theorem callRmdir_taken (done : callRmdir fs dir name = .ok (ret, fs')) : Taken fs dir name ret fs' := by
  obtain ⟨ops, -, done⟩ := bind_eq_ok.mp done
  cases ops with
  | defVfs => cases done
  | ramDir => exact ramfileInodeRmdir_taken done

theorem callUnlink_taken (done : callUnlink fs dir name = .ok (ret, fs')) : Taken fs dir name ret fs' := by
  obtain ⟨ops, -, done⟩ := bind_eq_ok.mp done
  cases ops with
  | defVfs => cases done
  | ramDir => exact ramfileInodeUnlink_taken done

end Removal

/-- What `kpath_rmdir` and `path_unlink` do to the tree. -/
inductive RemoveEdits (fs : Fs) (start : Ptr) (path name : Name) : Int → List Edit → Prop where
  | unfound {ret : Int} (negative : ret < 0) : RemoveEdits fs start path name ret []
  | refused {d i : Ptr} {ret : Int} (negative : ret < 0) (found : Resolves fs start path d)
      (behind : fs.inodeOf d = .ok i) : RemoveEdits fs start path name ret [.count i 1]
  | removed {d i home node j : Ptr} (found : Resolves fs start path d) (behind : fs.inodeOf d = .ok i)
      (target : vfsLookup fs i name = .ok (some node)) (its : fs.inodeOf node = .ok j) :
      RemoveEdits fs start path name 0 [.count i 1, .remove home node j]

theorem kpathRemove_edits {remove : Fs → Ptr → Name → Except Stop (Int × Fs)}
    (takes : ∀ {fs dir name ret fs'}, remove fs dir name = .ok (ret, fs') → Taken fs dir name ret fs')
    (done : kpathRemove remove fs start path name = .ok (ret, fs')) :
    ∃ es, RemoveEdits fs start path name ret es ∧ Edits fs es fs' := by
  obtain ⟨⟨found, fs₁⟩, looked, done⟩ := bind_eq_ok.mp done
  rcases kpathLookup_edits looked with ⟨rfl, same⟩ | ⟨d, i, rfl, resolves, behind, edits⟩
  · cases done
    exact ⟨[], .unfound (by decide), .nil same⟩
  · dsimp only at done
    split at done
    · rename_i fs₂ failed
      cases done
      exact ⟨_, .refused (by decide) resolves behind, edits.append (.nil (kmalloc_same failed).1)⟩
    · rename_i p fs₂ named
      have same := (kmalloc_same named).1
      have walks := (kpathLookup_sameWalk looked).trans same.walk
      obtain ⟨j, there, done⟩ := bind_eq_ok.mp done
      rw [inodeOf_congr walks.dentries, behind] at there
      cases there
      cases takes done with
      | refused negative => exact ⟨_, .refused negative resolves behind, edits.append (.nil same)⟩
      | removed target removed =>
        rw [vfsLookup_congr walks] at target
        obtain ⟨-, x, -, -, atNode, its, -⟩ := removed.place
        rw [walks.dentries] at atNode
        exact ⟨_, .removed resolves behind target (inodeOf_eq_ok.mpr ⟨x, atNode, its⟩), edits.append (.cons same (.remove removed) (.nil (.refl _)))⟩

theorem kpathRmdir_edits (done : kpathRmdir fs start path name = .ok (ret, fs')) :
    ∃ es, RemoveEdits fs start path name ret es ∧ Edits fs es fs' :=
  kpathRemove_edits callRmdir_taken done

theorem pathUnlink_edits (done : pathUnlink fs start path name = .ok (ret, fs')) :
    ∃ es, RemoveEdits fs start path name ret es ∧ Edits fs es fs' :=
  kpathRemove_edits callUnlink_taken done

/-- The computation comes to an end with a result that passes `check`. -/
def endsWith {α : Type} (check : α → Bool) : Except Stop α → Bool
  | .ok x => check x
  | .error _ => false

theorem exists_of_endsWith {α : Type} {check : α → Bool} {result : Except Stop α}
    (ends : endsWith check result = true) : ∃ x, result = .ok x ∧ check x = true := by
  cases result with
  | ok x => exact ⟨x, rfl, ends⟩
  | error stop => cases ends

theorem tmpRoot_fresh : Fresh tmpRoot where
  dentries := Unused.update (fun _ _ => rfl) (Nat.lt_succ_self 0)
  inodes := Unused.update (fun _ _ => rfl) (Nat.lt_succ_self 0)
  infos := fun _ _ => rfl
  homes := by
    intro i x p live home
    simp only [tmpRoot, Function.update_apply] at live
    split at live
    · cases live
      cases home
      exact Nat.lt_succ_self 0
    · cases live

end CreeperKernel.Vfs
