import CreeperKernel.Transitions
import CreeperKernel.VfsTree

namespace CreeperKernel.Vfs

open Transitions (Run)

variable {fs' fs : Fs}

theorem lookupInode_edits {path : Name} {found : Option Ptr} (done : lookupInode fs path = .ok (found, fs')) :
    Same fs fs' ∨ ∃ i, Edits fs [.count i 1] fs' := by
  obtain ⟨root, -, done⟩ := bind_eq_ok.mp done
  obtain ⟨⟨d, fs₁⟩, looked, done⟩ := bind_eq_ok.mp done
  rcases kpathLookup_edits looked with ⟨rfl, same⟩ | ⟨d, i, rfl, -, -, edits⟩
  · cases done
    exact .inl same
  · obtain ⟨x, -, done⟩ := bind_eq_ok.mp done
    cases done
    exact .inr ⟨i, edits⟩

section Soundness

variable {fs fs' : Fs} {start : Ptr} {path : Name} {ret : Int}

variable {es : List Edit}

theorem Edits.keeps_sound (edits : Edits fs es fs') (sound : Sound fs) (fits : ∀ fs, ∀ e ∈ es, e.Fits fs) : Sound fs' :=
  edits.invariant Sound (fun _ _ sound same => same.keeps_sound sound)
    (fun fs e _ member sound step => step.keeps_sound sound (fits fs e member)) sound

variable {n : Int} {i : Ptr}

theorem sound_of_counted (edits : Edits fs [.count i n] fs') (sound : Sound fs) : Sound fs' := by
  apply edits.keeps_sound sound
  intro fs e member
  rw [List.mem_singleton] at member
  rw [member]
  trivial

theorem EditStep.isDirectory_of_count {p : Ptr} (step : EditStep fs (.count i n) fs') (isdir : IsDirectory fs p) :
    IsDirectory fs' p := by
  cases step with
  | count n live =>
    apply SameShape.isDirectory _ isdir
    exact .of_update rfl rfl live rfl rfl rfl

/-- `kpath_create` and `kpath_mkdir` keep the tree when the parent they find is a directory and
the memory does not run out halfway. -/
theorem NewEdits.keeps_sound {short : Prop} (new : NewEdits short fs start path ret es) (edits : Edits fs es fs')
    (sound : Sound fs) (enough : short → fs.heap = [])
    (parent : ∀ d, Resolves fs start (splitLast path).1 d → IsDirectory fs d) : Sound fs' := by
  cases new with
  | unfound =>
    cases edits with
    | nil same => exact same.keeps_sound sound
  | refused => exact sound_of_counted edits sound
  | added found =>
    cases edits with
    | cons before first rest =>
      cases rest with
      | cons between second rest =>
        cases rest with
        | nil after =>
          have isdir := between.shape.isDirectory
            (first.isDirectory_of_count (before.shape.isDirectory (parent _ found)))
          have middle := between.keeps_sound (first.keeps_sound (before.keeps_sound sound) trivial)
          exact after.keeps_sound (second.keeps_sound middle isdir)
  | lost may _ starved => exact absurd (enough may) starved

theorem RemoveEdits.keeps_sound {name : Name} (removes : RemoveEdits fs start path name ret es)
    (edits : Edits fs es fs') (sound : Sound fs) : Sound fs' := by
  apply edits.keeps_sound sound
  intro fs e member
  cases removes with
  | unfound => cases member
  | refused =>
    rw [List.mem_singleton] at member
    rw [member]
    trivial
  | removed =>
    rcases List.mem_cons.mp member with rfl | member
    · trivial
    · rw [List.mem_singleton] at member
      rw [member]
      trivial

end Soundness

/-- Whenever the loop of `kpath_create_force` creates a component, the dentry it creates it
under is a directory. -/
def ForceCareful (mode : UMode) (excl : Bool) : Fs → Ptr → List Name → Prop
  | _, _, [] => True
  | fs, curr, token :: rest =>
    if token = dot then ForceCareful mode excl fs curr rest
    else if token = dotdot then
      ∀ d, fs.dentries curr = some d → ForceCareful mode excl fs (d.parent.getD curr) rest
    else ∀ i found, fs.inodeOf curr = .ok i → callLookup fs i token = .ok found →
      match found with
      | some next => ForceCareful mode excl fs next rest
      | none => IsDirectory fs curr ∧ ∀ node fs₁ ret fs₂, newDentry fs token curr = (some node, fs₁) →
          (if rest = [] then callCreate fs₁ i node mode excl
            else callMkdir fs₁ i node (sIfdir ||| 0o755)) = .ok (ret, fs₂) →
          ¬ ret < 0 → ForceCareful mode excl fs₂ node rest

theorem forceWalk_keeps_sound (mode : UMode) (excl : Bool) (tokens : List Name) {curr : Ptr} {ret : Int}
    (sound : Sound fs) (enough : fs.heap = []) (careful : ForceCareful mode excl fs curr tokens)
    (done : forceWalk mode excl fs curr tokens = .ok (ret, fs')) : Sound fs' := by
  induction tokens generalizing fs curr with
  | nil =>
    cases done
    exact sound
  | cons token rest ih =>
    rw [forceWalk] at done
    rw [ForceCareful] at careful
    split at done
    · rename_i isDot
      rw [if_pos isDot] at careful
      exact ih sound enough careful done
    · rename_i notDot
      rw [if_neg notDot] at careful
      split at done
      · rename_i isDotdot
        rw [if_pos isDotdot] at careful
        obtain ⟨d, live, done⟩ := bind_eq_ok.mp done
        exact ih sound enough (careful d (dentry_eq_ok.mp live)) done
      · rename_i notDotdot
        rw [if_neg notDotdot] at careful
        obtain ⟨i, behind, done⟩ := bind_eq_ok.mp done
        obtain ⟨found, looked, done⟩ := bind_eq_ok.mp done
        have careful := careful i found behind looked
        cases found with
        | some next => exact ih sound enough careful done
        | none =>
          dsimp only at done
          split at done
          · rename_i fs₁ failed
            cases done
            rcases newDentry_cases failed with ⟨-, same⟩ | ⟨impossible, -⟩
            · exact same.keeps_sound sound
            · cases impossible
          · rename_i node fs₁ created
            have noded := newDentry_noded created
            obtain ⟨res, fs₂, made, done⟩ : ∃ res fs₂, (if rest = [] then callCreate fs₁ i node mode excl
                else callMkdir fs₁ i node (sIfdir ||| 0o755)) = .ok (res, fs₂) ∧
                (if res < 0 then .ok (res, fs₂.freeDentry node) else forceWalk mode excl fs₂ node rest) =
                  .ok (ret, fs') := by
              by_cases last : rest = []
              · simp only [if_pos last] at done ⊢
                obtain ⟨⟨res, fs₂⟩, made, done⟩ := bind_eq_ok.mp done
                exact ⟨res, fs₂, made, done⟩
              · simp only [if_neg last] at done ⊢
                obtain ⟨⟨res, fs₂⟩, made, done⟩ := bind_eq_ok.mp done
                exact ⟨res, fs₂, made, done⟩
            have grown : Grown True fs curr node token res (if res < 0 then fs₂.freeDentry node else fs₂) := by
              apply Made.grown noded sound.fresh behind
              split at made
              · exact callCreate_made (noded.apart sound.fresh) made
              · exact callMkdir_made (noded.apart sound.fresh) made
            split at done
            · rename_i negative
              cases done
              rw [if_pos negative] at grown
              cases grown with
              | refused _ same => exact same.keeps_sound sound
              | added => cases negative
              | lost _ _ _ starved => exact absurd enough starved
            · rename_i positive
              rw [if_neg positive] at grown
              cases grown with
              | refused negative => exact absurd negative positive
              | lost _ negative => exact absurd negative positive
              | added added =>
                have step := EditStep.add added
                exact ih (step.keeps_sound sound careful.1) (added.heap enough)
                  (careful.2 node fs₁ 0 fs₂ created made positive) done

inductive TreeCall where
  | create (start : Ptr) (path : Name) (mode : UMode) (excl : Bool)
  | mkdir (start : Ptr) (path : Name) (mode : UMode)
  | createForce (start : Ptr) (path : Name) (mode : UMode) (excl : Bool)
  | ramfileCreate (path : Name) (start size : Nat) (mode : UMode) (fixedSize excl : Bool)
  | ramfileMkdir (path : Name) (mode : UMode)
  | rmdir (start : Ptr) (path name : Name)
  | unlink (start : Ptr) (path name : Name)

def TreeCall.run (fs : Fs) : TreeCall → Except Stop (Int × Fs)
  | .create start path mode excl => kpathCreate fs start path mode excl
  | .mkdir start path mode => kpathMkdir fs start path mode
  | .createForce start path mode excl => kpathCreateForce fs start path mode excl
  | .ramfileCreate path start size mode fixedSize excl => kRamfileCreate fs path start size mode fixedSize excl
  | .ramfileMkdir path mode => kRamfileMkdir fs path mode
  | .rmdir start path name => kpathRmdir fs start path name
  | .unlink start path name => pathUnlink fs start path name

/-- A call, with the outcomes of the allocations it makes. -/
structure TreeEvent where
  call : TreeCall
  heap : List Bool

def TreeStep (fs : Fs) (event : TreeEvent) (fs' : Fs) : Prop :=
  ∃ ret, event.call.run { fs with heap := event.heap } = .ok (ret, fs')

def runTree (fs : Fs) : List TreeEvent → Except Stop Fs
  | [] => .ok fs
  | event :: rest => do
    let (_, fs) ← event.call.run { fs with heap := event.heap }
    runTree fs rest

theorem run_of_runTree {events : List TreeEvent} (done : runTree fs events = .ok fs') : Run TreeStep fs events fs' := by
  induction events generalizing fs with
  | nil =>
    cases done
    exact .nil _
  | cons event rest ih =>
    obtain ⟨⟨ret, middle⟩, first, done⟩ := bind_eq_ok.mp done
    exact .cons ⟨ret, first⟩ (ih done)

/-- The parent that `path` names is a directory, if it exists. -/
def ParentIsDirectory (fs : Fs) (start : Ptr) (path : Name) : Prop :=
  ∀ d, Resolves fs start (splitLast path).1 d → IsDirectory fs d

/-- Components are created under directories only, and no call that creates a file runs out
of memory. -/
def TreeCareful (fs : Fs) (event : TreeEvent) : Prop :=
  match event.call with
  | .create start path _ _ => event.heap = [] ∧ ParentIsDirectory fs start path
  | .mkdir start path _ => ParentIsDirectory fs start path
  | .createForce start path mode excl => event.heap = [] ∧
      ∀ curr, forceStart fs start path = .ok curr →
        ForceCareful mode excl ({ fs with heap := [] } : Fs).kmalloc.2 curr (Tokens.tokens slash path)
  | .ramfileCreate path _ _ _ _ _ => event.heap = [] ∧
      ∀ root, fs.inodeOf fs.rootDentry = .ok root → ParentIsDirectory fs root path
  | .ramfileMkdir path _ => ∀ root, fs.inodeOf fs.rootDentry = .ok root → ParentIsDirectory fs root path
  | .rmdir _ _ _ | .unlink _ _ _ => True

section Retables

variable {fs fs₁ : Fs} {i : Ptr} {x y : Inode}

theorem retabled_setInode (live : fs.inodes i = some x) (home : y.iDentry = x.iDentry) (mode : y.iMode = x.iMode)
    (count : y.iCount = x.iCount) : Retabled fs i (fs.setInode i y) :=
  ⟨rfl, ⟨x, y, live, rfl, home, mode, count⟩, .inl rfl, rfl, Nat.le_refl _, id⟩

theorem retabled_setInfo {p : Ptr} {info : RamfileInfo} (allocated : fs.kmalloc = (some p, fs₁))
    (live : fs₁.inodes i = some x) (home : y.iDentry = x.iDentry) (mode : y.iMode = x.iMode)
    (count : y.iCount = x.iCount) : Retabled fs i ((fs₁.setInfo p info).setInode i y) := by
  obtain ⟨same, new⟩ := kmalloc_same allocated
  obtain ⟨rfl, later⟩ := new p rfl
  rw [same.inodes] at live
  refine ⟨same.dentries, ⟨x, y, live, ?_, home, mode, count⟩, .inr ⟨fs.fresh, info, Nat.le_refl _, later, ?_⟩,
    same.rootDentry, same.fresh, same.heap⟩
  · simp only [Fs.setInode, Fs.setInfo, same.inodes]
  · simp only [Fs.setInode, Fs.setInfo, same.infos]

theorem Retabled.keeps_sound (retabled : Retabled fs i fs₁) (sound : Sound fs) : Sound fs₁ :=
  (EditStep.retable retabled).keeps_sound sound trivial

end Retables

section Calls

variable {fs fs' : Fs} {path : Name} {mode : UMode} {ret : Int}

theorem lookupInode_keeps_sound {found : Option Ptr} (sound : Sound fs)
    (done : lookupInode fs path = .ok (found, fs')) : Sound fs' := by
  rcases lookupInode_edits done with same | ⟨i, edits⟩
  · exact same.keeps_sound sound
  · exact sound_of_counted edits sound

variable {excl : Bool}

theorem kRamfileCreate_keeps_sound {start size : Nat} {fixedSize : Bool} (sound : Sound fs) (enough : fs.heap = [])
    (parent : ∀ root, fs.inodeOf fs.rootDentry = .ok root → ParentIsDirectory fs root path)
    (done : kRamfileCreate fs path start size mode fixedSize excl = .ok (ret, fs')) : Sound fs' := by
  obtain ⟨root, behind, done⟩ := bind_eq_ok.mp done
  obtain ⟨⟨res, fs₁⟩, created, done⟩ := bind_eq_ok.mp done
  obtain ⟨es, new, edits⟩ := kpathCreate_edits sound.fresh created
  have sound₁ := new.keeps_sound edits sound (fun _ => enough) (parent root behind)
  dsimp only at done
  split at done
  · cases done
    exact sound₁
  · obtain ⟨⟨found, fs₂⟩, looked, done⟩ := bind_eq_ok.mp done
    have sound₂ := lookupInode_keeps_sound sound₁ looked
    cases found with
    | none =>
      cases done
      exact sound₂
    | some i =>
      dsimp only at done
      split at done
      · rename_i fs₃ failed
        cases done
        exact (kmalloc_same failed).1.keeps_sound sound₂
      · rename_i p fs₃ allocated
        obtain ⟨inode, live, done⟩ := bind_eq_ok.mp done
        cases done
        apply Retabled.keeps_sound _ sound₂
        · exact i
        · exact retabled_setInfo allocated (inode_eq_ok.mp live) rfl rfl rfl

theorem kRamfileMkdir_keeps_sound (sound : Sound fs)
    (parent : ∀ root, fs.inodeOf fs.rootDentry = .ok root → ParentIsDirectory fs root path)
    (done : kRamfileMkdir fs path mode = .ok (ret, fs')) : Sound fs' := by
  obtain ⟨root, behind, done⟩ := bind_eq_ok.mp done
  obtain ⟨⟨res, fs₁⟩, created, done⟩ := bind_eq_ok.mp done
  obtain ⟨es, new, edits⟩ := kpathMkdir_edits sound.fresh created
  have sound₁ := new.keeps_sound edits sound (fun never => never.elim) (parent root behind)
  dsimp only at done
  split at done
  · cases done
    exact sound₁
  · obtain ⟨⟨found, fs₂⟩, looked, done⟩ := bind_eq_ok.mp done
    have sound₂ := lookupInode_keeps_sound sound₁ looked
    cases found with
    | none =>
      cases done
      exact sound₂
    | some i =>
      obtain ⟨inode, live, done⟩ := bind_eq_ok.mp done
      cases done
      apply Retabled.keeps_sound _ sound₂
      · exact i
      · exact retabled_setInode (inode_eq_ok.mp live) rfl rfl rfl

variable {start : Ptr}

theorem kpathCreateForce_keeps_sound (sound : Sound fs) (enough : fs.heap = [])
    (careful : ∀ curr, forceStart fs start path = .ok curr → ForceCareful mode excl fs.kmalloc.2 curr (Tokens.tokens slash path))
    (done : kpathCreateForce fs start path mode excl = .ok (ret, fs')) : Sound fs' := by
  obtain ⟨curr, first, done⟩ := bind_eq_ok.mp done
  have careful := careful curr first
  rw [kmalloc_of_heap_nil enough] at careful done
  have same := (kmalloc_same (kmalloc_of_heap_nil enough)).1
  exact forceWalk_keeps_sound mode excl _ (same.keeps_sound sound) (same.heap enough) careful done

theorem ParentIsDirectory.of_heap (parent : ParentIsDirectory fs start path) (heap : List Bool) :
    ParentIsDirectory { fs with heap } start path :=
  fun d resolves => parent d (resolves.congr (sameWalk_heap fs heap))

theorem Sound.of_heap (sound : Sound fs) (heap : List Bool) : Sound { fs with heap } :=
  ⟨sound.fresh.of_heap heap, ⟨sound.tree.tree, sound.tree.backed, sound.tree.directories⟩⟩

end Calls

theorem TreeStep.keeps_sound {event : TreeEvent} (step : TreeStep fs event fs') (careful : TreeCareful fs event)
    (sound : Sound fs) : Sound fs' := by
  obtain ⟨call, heap⟩ := event
  obtain ⟨ret, done⟩ := step
  have sound' := sound.of_heap heap
  cases call with
  | create start path mode excl =>
    obtain ⟨es, new, edits⟩ := kpathCreate_edits sound'.fresh done
    exact new.keeps_sound edits sound' (fun _ => careful.1) (ParentIsDirectory.of_heap careful.2 heap)
  | mkdir start path mode =>
    obtain ⟨es, new, edits⟩ := kpathMkdir_edits sound'.fresh done
    exact new.keeps_sound edits sound' (fun never => never.elim) (ParentIsDirectory.of_heap careful heap)
  | createForce start path mode excl =>
    obtain ⟨rfl, careful⟩ := careful
    exact kpathCreateForce_keeps_sound sound' rfl careful done
  | ramfileCreate path start size mode fixedSize excl =>
    exact kRamfileCreate_keeps_sound sound' careful.1
      (fun root behind => (careful.2 root behind).of_heap heap) done
  | ramfileMkdir path mode =>
    exact kRamfileMkdir_keeps_sound sound' (fun root behind => (careful root behind).of_heap heap) done
  | rmdir start path name =>
    obtain ⟨es, removes, edits⟩ := kpathRmdir_edits done
    exact removes.keeps_sound edits sound'
  | unlink start path name =>
    obtain ⟨es, removes, edits⟩ := pathUnlink_edits done
    exact removes.keeps_sound edits sound'

theorem tmpRoot_sound : Sound tmpRoot := by
  have only : ∀ p d, tmpRoot.dentries p = some d → p = 0 ∧ d = { name := [], parent := none, inode := some 0, children := [] } := by
    intro p d live
    simp only [tmpRoot, Function.update_apply] at live
    split at live
    · rename_i same
      cases live
      exact ⟨same, rfl⟩
    · cases live
  refine ⟨tmpRoot_fresh, ?_, ?_, ?_⟩
  · have cells : tmpRoot.cells = Function.update (fun _ => none) 0
        (some { name := [], parent := none, children := [] }) := map_update _ _ _
    rw [cells]
    exact LinkedTrees.Tree.single []
  · intro p d live
    obtain ⟨rfl, rfl⟩ := only p d live
    exact ⟨0, _, rfl, rfl, rfl⟩
  · intro p d live more
    obtain ⟨rfl, rfl⟩ := only p d live
    exact absurd rfl more

/-- The directory tree is kept from boot on, as long as components are created under
directories and file creation does not run out of memory. -/
theorem directory_tree_kept (events : List TreeEvent) (fs : Fs)
    (run : Run (fun fs event fs' => TreeStep fs event fs' ∧ TreeCareful fs event) tmpRoot events fs) :
    DirectoryTree fs := by
  have sound := run.invariant Sound (fun _ _ _ sound step => step.1.keeps_sound step.2 sound) tmpRoot_sound
  exact sound.tree

/-- The first dentry and the first inode are a directory. -/
def rootIsDirectory (fs : Fs) : Bool :=
  match fs.dentries 0, fs.inodes 0 with
  | some d, some x => d.inode == some 0 && x.iDentry == some 0 && sIsdir x.iMode
  | _, _ => false

theorem rootIsDirectory_iff : rootIsDirectory fs = true ↔ ∃ d x, fs.dentries 0 = some d ∧ fs.inodes 0 = some x ∧
    d.inode = some 0 ∧ x.iDentry = some 0 ∧ sIsdir x.iMode = true := by
  unfold rootIsDirectory
  split
  · rename_i d x live there
    simp [live, there, and_assoc]
  · rename_i other
    constructor
    · intro impossible
      cases impossible
    · rintro ⟨d, x, live, there, -⟩
      exact (other d x live there).elim

theorem parentIsDirectory_root {path : Name} (root : rootIsDirectory fs = true)
    (above : Tokens.tokens slash (splitLast path).1 = []) : ParentIsDirectory fs 0 path := by
  obtain ⟨d, x, live, there, its, back, isdir⟩ := rootIsDirectory_iff.mp root
  rintro p ⟨y, first, started, home, walked⟩
  cases started.symm.trans there
  cases home.symm.trans back
  rw [above] at walked
  cases walked
  exact ⟨0, x, inodeOf_eq_ok.mpr ⟨d, live, its⟩, there, isdir⟩

/-- Two directories and a file, made in the root. -/
def threeInRoot : List TreeEvent :=
  [⟨.mkdir 0 (absolute [sys]) 0o755, []⟩, ⟨.mkdir 0 (absolute [dev]) 0o755, []⟩,
    ⟨.create 0 (absolute [['a']]) (sIfreg ||| 0o644) true, []⟩]

theorem directory_tree_kept_sys : ∃ fs, Run (fun fs event fs' => TreeStep fs event fs' ∧ TreeCareful fs event) tmpRoot
    threeInRoot fs ∧ DirectoryTree fs := by
  have ends : endsWith (fun x => rootIsDirectory x.2 && endsWith (fun y => rootIsDirectory y.2 && endsWith (fun _ => true)
      (kpathCreate { y.2 with heap := [] } 0 (absolute [['a']]) (sIfreg ||| 0o644) true))
      (kpathMkdir { x.2 with heap := [] } 0 (absolute [dev]) 0o755))
      (kpathMkdir tmpRoot 0 (absolute [sys]) 0o755) = true := by decide +kernel
  obtain ⟨x, first, ends⟩ := exists_of_endsWith ends
  obtain ⟨root, ends⟩ := Bool.and_eq_true_iff.mp ends
  obtain ⟨y, second, ends⟩ := exists_of_endsWith ends
  obtain ⟨root', ends⟩ := Bool.and_eq_true_iff.mp ends
  obtain ⟨z, third, -⟩ := exists_of_endsWith ends
  have run : Run (fun fs event fs' => TreeStep fs event fs' ∧ TreeCareful fs event) tmpRoot threeInRoot z.2 :=
    .cons ⟨⟨x.1, first⟩, parentIsDirectory_root (by decide) (by decide)⟩
      (.cons ⟨⟨y.1, second⟩, parentIsDirectory_root root (by decide)⟩
        (.single ⟨⟨z.1, third⟩, rfl, parentIsDirectory_root root' (by decide)⟩))
  exact ⟨z.2, run, directory_tree_kept _ z.2 run⟩

/-- A dentry of a file that has children. -/
def fileWithChildren (fs : Fs) (p : Ptr) : Bool :=
  match fs.dentries p with
  | none => false
  | some d => !d.children.isEmpty && ((d.inode.bind fs.inodes).map fun x => !sIsdir x.iMode).getD false

theorem not_directoryTree {p : Ptr} (bad : fileWithChildren fs p = true) : ¬ DirectoryTree fs := by
  intro tree
  unfold fileWithChildren at bad
  split at bad
  · cases bad
  · rename_i d live
    rw [Bool.and_eq_true] at bad
    have more : d.children ≠ [] := by
      intro none_
      rw [none_] at bad
      cases bad.1
    obtain ⟨i, x, behind, there, mode⟩ := tree.directories p d live more
    obtain ⟨e, live', its⟩ := inodeOf_eq_ok.mp behind
    cases live.symm.trans live'
    have file := bad.2
    simp only [its, Option.bind_some, there, Option.map_some, mode, Bool.not_true, Option.getD_some] at file
    cases file

/-- Two files, the second below the first. -/
def fileBelowFile : List TreeEvent :=
  [⟨.create 0 (absolute [['a']]) (sIfreg ||| 0o644) true, []⟩,
    ⟨.create 0 (absolute [['a'], ['b']]) (sIfreg ||| 0o644) true, []⟩]

/-- `kpath_create` of `/a` and then of `/a/b`: the file `a` has inherited `create` from the
root, and gets a child. -/
theorem file_gets_child : ∃ fs, Run TreeStep tmpRoot fileBelowFile fs ∧ ¬ DirectoryTree fs := by
  have ends : endsWith (fileWithChildren · 3) (runTree tmpRoot fileBelowFile) = true := by decide +kernel
  obtain ⟨fs, done, bad⟩ := exists_of_endsWith ends
  exact ⟨fs, run_of_runTree done, not_directoryTree bad⟩

end CreeperKernel.Vfs
