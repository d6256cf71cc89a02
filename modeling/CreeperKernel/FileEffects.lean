import CreeperKernel.FileCalls
import CreeperKernel.Initrd
import CreeperKernel.Transitions

namespace CreeperKernel.Vfs

open Transitions (Run)

inductive Call where
  | open_ (path : Option Name) (flags mode : BitVec 32)
  | openat (dfd : Int) (path : Option Name) (flags mode : BitVec 32)
  | create (path : Option Name) (mode : BitVec 32)
  | mkdir (path : Option Name) (mode : BitVec 32)
  | mkdirat (dfd : Int) (path : Option Name) (mode : BitVec 32)
  | rmdir (path : Option Name)
  | unlink (path : Option Name)
  | chdir (path : Option Name)
  | access (path : Option Name) (mode : BitVec 32)
  | read (fd : Int) (buf : Bool) (count : BitVec 64) (device : DeviceReply) (faults : Bool)
  | write (fd : Int) (buf : Bool) (count : BitVec 64) (device : DeviceReply) (faults : Bool)
  | close (fd : Int)
  | dup (oldfd : Int)
  | dup2 (oldfd newfd : Int)
  | fork (copied : Bool)
  | exit

/-- A call of the process `pid`, with the outcomes of the allocations it makes. -/
structure Event where
  pid : Nat
  heap : List Bool
  call : Call

def perform (w : World) (event : Event) : Except Stop (Int × World) :=
  match event.call with
  | .open_ path flags mode => sysOpen w event.pid event.heap path flags mode
  | .openat dfd path flags mode => sysOpenat w event.pid event.heap dfd path flags mode
  | .create path mode => sysCreate w event.pid event.heap path mode
  | .mkdir path mode => sysMkdir w event.pid event.heap path mode
  | .mkdirat dfd path mode => sysMkdirat w event.pid event.heap dfd path mode
  | .rmdir path => sysRmdir w event.pid event.heap path
  | .unlink path => sysUnlink w event.pid event.heap path
  | .chdir path => sysChdir w event.pid event.heap path
  | .access path mode => sysAccess w event.pid event.heap path mode
  | .read fd buf count device faults => sysRead w event.pid event.heap fd buf count device faults
  | .write fd buf count device faults => sysWrite w event.pid event.heap fd buf count device faults
  | .close fd => sysClose w event.pid fd
  | .dup oldfd => sysDup w event.pid oldfd
  | .dup2 oldfd newfd => sysDup2 w event.pid oldfd newfd
  | .fork copied => forkProcess w event.pid copied
  | .exit => sysExit w event.pid

/-- One call that comes to an end. -/
def FileStep (w : World) (event : Event) (w' : World) : Prop := ∃ ret, perform w event = .ok (ret, w')

def runFiles (w : World) : List Event → Except Stop World
  | [] => .ok w
  | event :: rest => do
    let (_, w) ← perform w event
    runFiles w rest

theorem run_of_runFiles {events : List Event} {w w' : World} (done : runFiles w events = .ok w') :
    Run FileStep w events w' := by
  induction events generalizing w with
  | nil =>
    cases done
    exact .nil _
  | cons event rest ih =>
    obtain ⟨⟨ret, middle⟩, first, done⟩ := bind_eq_ok.mp done
    exact .cons ⟨ret, first⟩ (ih done)

/-- A process of root's, with no files open and no working directory. -/
def idle : Proc := { alive := true, openedFileTable := some fun _ => File.empty, cwdI := none, uid := 0, gid := 0 }

def bootWorld : Except Stop World := do
  let fs ← Initrd.bootTree
  .ok { fs, procs := [idle] }

section Cases

variable {w w' : World} {pid : Nat} {heap : List Bool} {ret : Int} {filename : Option Name}
    {resolve : Fs → Proc → Name → Except Stop (Option Ptr)} {fs fs' : Fs}

theorem current_eq_ok {proc : Proc} (caller : w.current pid = .ok proc) : w.procs[pid]? = some proc ∧ proc.alive = true := by
  unfold World.current at caller
  split at caller
  · rename_i p found
    split at caller
    · rename_i alive
      cases caller
      exact ⟨found, alive⟩
    · cases caller
  · cases caller

theorem withPath_cases {body : Fs → Proc → Name → Except Stop (Int × World)}
    (done : withPath w pid heap filename body = .ok (ret, w')) :
    w' = w ∨ ∃ proc path, w.current pid = .ok proc ∧ filename = some path ∧
      body (w.fs.seenBy proc heap) proc path = .ok (ret, w') := by
  obtain ⟨proc, caller, done⟩ := bind_eq_ok.mp done
  cases filename with
  | none =>
    cases done
    exact .inl rfl
  | some path => exact .inr ⟨proc, path, caller, rfl, done⟩

theorem onPath_cases
    {operation : Fs → Ptr → Name → Except Stop (Int × Fs)}
    (done : onPath w pid heap resolve filename operation = .ok (ret, w')) :
    w' = w ∨ ∃ proc path start fs', w.current pid = .ok proc ∧ filename = some path ∧
      resolve (w.fs.seenBy proc heap) proc path = .ok (some start) ∧
      operation (w.fs.seenBy proc heap) start path = .ok (ret, fs') ∧ w' = { w with fs := fs' } := by
  rcases withPath_cases done with same | ⟨proc, path, caller, given, done⟩
  · exact .inl same
  · obtain ⟨start, resolved, done⟩ := bind_eq_ok.mp done
    cases start with
    | none =>
      cases done
      exact .inl rfl
    | some start =>
      obtain ⟨⟨res, fs'⟩, operated, done⟩ := bind_eq_ok.mp done
      cases done
      exact .inr ⟨proc, path, start, fs', caller, given, resolved, operated, rfl⟩

theorem onSplit_cases {operation : Fs → Ptr → Name → Name → Except Stop (Int × Fs)} {start : Ptr}
    {path : Name} (done : onSplit operation fs start path = .ok (ret, fs')) :
    Same fs fs' ∨ ∃ fs₁, Same fs fs₁ ∧ operation fs₁ start (splitLast path).1 (splitLast path).2 = .ok (ret, fs') := by
  unfold onSplit at done
  split at done
  · rename_i fs₁ failed
    cases done
    exact .inl (kmalloc_same failed).1
  · rename_i p fs₁ copied
    have same₁ := (kmalloc_same copied).1
    split at done
    · rename_i fs₂ failed
      cases done
      exact .inl (same₁.trans (kmalloc_same failed).1)
    · rename_i q fs₂ copied₂
      have same₂ := same₁.trans (kmalloc_same copied₂).1
      split at done
      · cases done
        exact .inl same₂
      · split at done
        · rename_i fs₃ failed
          cases done
          exact .inl (same₂.trans (kmalloc_same failed).1)
        · rename_i r fs₃ copied₃
          exact .inr ⟨fs₃, same₂.trans (kmalloc_same copied₃).1, done⟩

theorem withFile_cases {fd : Int} {body : Proc → Table → Fin tableEntries → Ptr → Except Stop (Int × World)}
    (done : withFile w pid fd body = .ok (ret, w')) :
    w' = w ∨ ∃ proc table fd i, w.current pid = .ok proc ∧ proc.openedFileTable = some table ∧
      (table fd).fInode = some i ∧ body proc table fd i = .ok (ret, w') := by
  obtain ⟨proc, caller, done⟩ := bind_eq_ok.mp done
  split at done
  · cases done
    exact .inl rfl
  · rename_i table has
    split at done
    · cases done
      exact .inl rfl
    · rename_i fd _
      split at done
      · cases done
        exact .inl rfl
      · rename_i i used
        exact .inr ⟨proc, table, fd, i, caller, has, used, done⟩

theorem openPath_cases {flags mode : BitVec 32} (done : openPath w pid heap resolve filename flags mode = .ok (ret, w')) :
    w' = w ∨ ∃ proc path table start, w.current pid = .ok proc ∧ filename = some path ∧
      proc.openedFileTable = some table ∧ resolve (w.fs.seenBy proc heap) proc path = .ok start ∧
      openFrom w pid (w.fs.seenBy proc heap) proc table start path flags mode = .ok (ret, w') := by
  rcases withPath_cases done with same | ⟨proc, path, caller, given, done⟩
  · exact .inl same
  · split at done
    · cases done
      exact .inl rfl
    · rename_i table has
      obtain ⟨start, from_, done⟩ := bind_eq_ok.mp done
      exact .inr ⟨proc, path, table, start, caller, given, has, from_, done⟩

/-- What `sys_access` and `sys_chdir` do: a lookup, after which the working directory may be
another. -/
inductive Looked (w : World) (pid : Nat) (heap : List Bool) (path : Name) (moves : Prop) : World → Prop where
  | kept {proc : Proc} {start : Ptr} {found : Option Ptr} {fs₁ : Fs} (caller : w.current pid = .ok proc)
      (from_ : pathResolveStart w.fs proc path = .ok (some start))
      (looked : kpathLookup (w.fs.seenBy proc heap) start path = .ok (found, fs₁))
      (stays : moves → ∀ d i inode, found = some d → fs₁.inodeOf d = .ok i → fs₁.inodes i = some inode →
        ¬ sIsdir inode.iMode = true) : Looked w pid heap path moves { w with fs := fs₁ }
  | moved {proc : Proc} {start d i : Ptr} {fs₁ : Fs} {inode : Inode} (may : moves) (caller : w.current pid = .ok proc)
      (from_ : pathResolveStart w.fs proc path = .ok (some start))
      (looked : kpathLookup (w.fs.seenBy proc heap) start path = .ok (some d, fs₁)) (behind : fs₁.inodeOf d = .ok i)
      (reached : fs₁.inodes i = some inode) (isdir : sIsdir inode.iMode = true) :
      Looked w pid heap path moves (({ w with fs := fs₁ } : World).setProc pid { proc with cwdI := some i })

theorem sysChdir_cases (done : sysChdir w pid heap filename = .ok (ret, w')) :
    w' = w ∨ ∃ path, filename = some path ∧ Looked w pid heap path True w' := by
  rcases withPath_cases done with same | ⟨proc, path, caller, given, done⟩
  · exact .inl same
  · obtain ⟨start, from_, done⟩ := bind_eq_ok.mp done
    cases start with
    | none =>
      cases done
      exact .inl rfl
    | some start =>
      obtain ⟨⟨found, fs₁⟩, looked, done⟩ := bind_eq_ok.mp done
      refine .inr ⟨path, given, ?_⟩
      cases found with
      | none =>
        cases done
        exact .kept caller from_ looked fun _ d _ _ impossible => nomatch impossible
      | some d =>
        obtain ⟨i, behind, done⟩ := bind_eq_ok.mp done
        obtain ⟨inode, reached, done⟩ := bind_eq_ok.mp done
        split at done
        · rename_i isdir
          cases done
          exact .moved trivial caller from_ looked behind (inode_eq_ok.mp reached) isdir
        · rename_i file
          cases done
          refine .kept caller from_ looked ?_
          intro _ d' i' inode' same behind' reached'
          cases same
          cases behind.symm.trans behind'
          cases (inode_eq_ok.mp reached).symm.trans reached'
          exact file

theorem sysAccess_cases {mode : BitVec 32} (done : sysAccess w pid heap filename mode = .ok (ret, w')) :
    w' = w ∨ ∃ path, filename = some path ∧ Looked w pid heap path False w' := by
  rcases withPath_cases done with same | ⟨proc, path, caller, given, done⟩
  · exact .inl same
  · obtain ⟨start, from_, done⟩ := bind_eq_ok.mp done
    cases start with
    | none =>
      cases done
      exact .inl rfl
    | some start =>
      obtain ⟨⟨found, fs₁⟩, looked, done⟩ := bind_eq_ok.mp done
      refine .inr ⟨path, given, ?_⟩
      cases found with
      | none =>
        cases done
        exact .kept caller from_ looked False.elim
      | some d =>
        obtain ⟨i, -, done⟩ := bind_eq_ok.mp done
        obtain ⟨inode, -, done⟩ := bind_eq_ok.mp done
        split at done <;> cases done <;> exact .kept caller from_ looked False.elim

theorem addCount_step {i : Ptr} {n : Int} (done : addCount fs i n = .ok fs') : EditStep fs (.count i n) fs' := by
  obtain ⟨inode, live, done⟩ := bind_eq_ok.mp done
  cases done
  exact .count n (inode_eq_ok.mp live)

/-- What `sys_close`, `sys_dup` and `sys_dup2` do: one entry of a table is given another file,
and the counts follow. -/
inductive Assigned (w : World) (pid : Nat) : World → Prop where
  | unchanged : Assigned w pid w
  | closed {proc : Proc} {table : Table} {fd : Fin tableEntries} {i : Ptr} {fs' : Fs}
      (caller : w.current pid = .ok proc) (has : proc.openedFileTable = some table)
      (used : (table fd).fInode = some i) (counts : addCount w.fs i (-1) = .ok fs') :
      Assigned w pid (({ w with fs := fs' } : World).setProc pid
        { proc with openedFileTable := some (Function.update table fd File.empty) })
  | copied {proc : Proc} {table : Table} {old new : Fin tableEntries} {i : Ptr} {fs' : Fs}
      (caller : w.current pid = .ok proc) (has : proc.openedFileTable = some table)
      (used : (table old).fInode = some i) (free : (table new).fInode = none)
      (counts : addCount w.fs i 1 = .ok fs') :
      Assigned w pid (({ w with fs := fs' } : World).setProc pid
        { proc with openedFileTable := some (Function.update table new (table old)) })
  | replaced {proc : Proc} {table : Table} {old new : Fin tableEntries} {i j : Ptr} {fs₁ fs' : Fs}
      (caller : w.current pid = .ok proc) (has : proc.openedFileTable = some table)
      (used : (table old).fInode = some i) (held : (table new).fInode = some j)
      (releases : addCount w.fs j (-1) = .ok fs₁) (counts : addCount fs₁ i 1 = .ok fs') :
      Assigned w pid (({ w with fs := fs' } : World).setProc pid
        { proc with openedFileTable := some (Function.update table new (table old)) })

theorem sysClose_assigned {fd : Int} (done : sysClose w pid fd = .ok (ret, w')) : Assigned w pid w' := by
  rcases withFile_cases done with rfl | ⟨proc, table, fd, i, caller, has, used, done⟩
  · exact .unchanged
  · obtain ⟨fs₁, counts, done⟩ := bind_eq_ok.mp done
    cases done
    exact .closed caller has used counts

theorem freeSlot_free {table : Table} {first : Nat} {fd : Fin tableEntries} (found : freeSlot table first = some fd) :
    (table fd).fInode = none := by
  have free := List.find?_some found
  rw [Bool.and_eq_true, Option.isNone_iff_eq_none] at free
  exact free.2

theorem sysDup_assigned {oldfd : Int} (done : sysDup w pid oldfd = .ok (ret, w')) : Assigned w pid w' := by
  rcases withFile_cases done with rfl | ⟨proc, table, fd, i, caller, has, used, done⟩
  · exact .unchanged
  · split at done
    · cases done
      exact .unchanged
    · rename_i newfd slot_
      obtain ⟨fs₁, counts, done⟩ := bind_eq_ok.mp done
      cases done
      exact .copied caller has used (freeSlot_free slot_) counts

theorem sysDup2_assigned {oldfd newfd : Int} (done : sysDup2 w pid oldfd newfd = .ok (ret, w')) : Assigned w pid w' := by
  obtain ⟨proc, caller, done⟩ := bind_eq_ok.mp done
  split at done
  · rename_i table old new has _ _
    split at done
    · cases done
      exact .unchanged
    · rename_i i used
      split at done
      · cases done
        exact .unchanged
      · split at done
        · rename_i free
          obtain ⟨fs₁, self, done⟩ := bind_eq_ok.mp done
          cases self
          obtain ⟨fs₂, counts, done⟩ := bind_eq_ok.mp done
          cases done
          exact .copied caller has used free counts
        · rename_i j held
          obtain ⟨fs₁, releases, done⟩ := bind_eq_ok.mp done
          obtain ⟨fs₂, counts, done⟩ := bind_eq_ok.mp done
          cases done
          exact .replaced caller has used held releases counts
  · cases done
    exact .unchanged

theorem addCount_edits {i : Ptr} {n : Int} (done : addCount fs i n = .ok fs') : Edits fs [.count i n] fs' :=
  .single (.refl fs) (addCount_step done) (.refl fs')

end Cases

/-- What the lookups and the creation of `sys_open` do to the tree. -/
inductive OpenEdits (fs : Fs) (start : Ptr) (path : Name) (creat : Prop) : List Edit → Prop where
  | unfound : OpenEdits fs start path creat []
  | found {d i : Ptr} (resolves : Resolves fs start path d) (behind : fs.inodeOf d = .ok i) :
      OpenEdits fs start path creat [.count i 1]
  | created {fs₁ : Fs} {ret : Int} {es : List Edit} (asked : creat)
      (missing : kpathLookup fs start path = .ok (none, fs₁)) (new : NewEdits True fs₁ start path ret es) :
      OpenEdits fs start path creat es
  | reopened {fs₁ : Fs} {es : List Edit} {i : Ptr} (asked : creat)
      (missing : kpathLookup fs start path = .ok (none, fs₁)) (new : NewEdits True fs₁ start path 0 es) : OpenEdits fs start path creat (es ++ [.count i 1])

/-- A descriptor has been opened: the entry `fd` refers to the inode `i` of a dentry. -/
structure Opened (w : World) (pid : Nat) (proc : Proc) (table : Table) (fs₁ : Fs) (w' : World) (i : Ptr) : Prop where
  entry : ∃ fd d inode file, (table fd).fInode = none ∧ fs₁.inodeOf d = .ok i ∧ fs₁.inodes i = some inode ∧
    file.fInode = some i ∧ w' = ({ w with fs := counted fs₁ i inode } : World).setProc pid
      { proc with openedFileTable := some (Function.update table fd file) }

section Opening

variable {w w' : World} {pid : Nat} {ret : Int} {fs : Fs} {proc : Proc} {table : Table}

theorem install_opened {fd : Fin tableEntries} {flags : BitVec 32} {d : Ptr} (free : (table fd).fInode = none)
    (done : install w pid fs proc table fd flags d = .ok (ret, w')) : ∃ i, Opened w pid proc table fs w' i := by
  obtain ⟨i, behind, done⟩ := bind_eq_ok.mp done
  obtain ⟨inode, live, done⟩ := bind_eq_ok.mp done
  cases done
  exact ⟨i, ⟨fd, d, inode, _, free, behind, inode_eq_ok.mp live, rfl, rfl⟩⟩

theorem openFrom_cases {start : Option Ptr} {path : Name} {flags mode : BitVec 32} (fresh : Fresh fs)
    (done : openFrom w pid fs proc table start path flags mode = .ok (ret, w')) :
    w' = { w with fs } ∨ ∃ s es fs₁, start = some s ∧ (freeSlot table 3).isSome ∧
      OpenEdits fs s path (flags &&& oCreat ≠ 0) es ∧ Edits fs es fs₁ ∧
      (w' = { w with fs := fs₁ } ∨ es ≠ [] ∧ ∃ i, Opened w pid proc table fs₁ w' i) := by
  unfold openFrom at done
  split at done
  · cases done
    exact .inl rfl
  · rename_i s
    split at done
    · cases done
      exact .inl rfl
    · rename_i fd slot_
      have free := freeSlot_free slot_
      have room : (freeSlot table 3).isSome := by rw [slot_]; rfl
      obtain ⟨⟨found, fs₁⟩, looked, done⟩ := bind_eq_ok.mp done
      rcases kpathLookup_edits looked with ⟨rfl, same⟩ | ⟨d, i, rfl, resolves, behind, edits⟩
      · dsimp only at done
        split at done
        · cases done
          exact .inr ⟨s, [], fs₁, rfl, room, .unfound, .nil same, .inl rfl⟩
        · rename_i asked
          obtain ⟨⟨res, fs₂⟩, created, done⟩ := bind_eq_ok.mp done
          obtain ⟨es, new, edits⟩ := kpathCreate_edits (same.keeps_fresh fresh) created
          have total : Edits fs es fs₂ := (Edits.nil same).append edits
          dsimp only at done
          split at done
          · cases done
            exact .inr ⟨s, es, fs₂, rfl, room, .created asked looked new, total, .inl rfl⟩
          · rename_i positive
            have success : res = 0 := by
              cases new with
              | unfound negative => exact absurd negative positive
              | refused negative => exact absurd negative positive
              | added => rfl
              | lost _ negative => exact absurd negative positive
            subst success
            obtain ⟨⟨found, fs₃⟩, again, done⟩ := bind_eq_ok.mp done
            rcases kpathLookup_edits again with ⟨rfl, same₃⟩ | ⟨d, i, rfl, resolves, behind, edits₃⟩
            · cases done
              exact .inr ⟨s, es, fs₃, rfl, room, .created asked looked new, by simpa using total.append (.nil same₃), .inl rfl⟩
            · exact .inr ⟨s, es ++ [.count i 1], fs₃, rfl, room, .reopened asked looked new, total.append edits₃,
                .inr ⟨by simp, install_opened free done⟩⟩
      · exact .inr ⟨s, [.count i 1], fs₁, rfl, room, .found resolves behind, edits,
          .inr ⟨by simp, install_opened free done⟩⟩

end Opening

/-- The same objects, seen by another process or with other memory. -/
def SameObjects (fs fs₀ : Fs) : Prop := ∃ uid gid heap, fs₀ = { fs with uid, gid, heap }

theorem SameObjects.refl (fs : Fs) : SameObjects fs fs := ⟨fs.uid, fs.gid, fs.heap, rfl⟩

theorem sameObjects_seenBy (fs : Fs) (proc : Proc) (heap : List Bool) : SameObjects fs (fs.seenBy proc heap) :=
  ⟨proc.uid, proc.gid, heap, rfl⟩

theorem SameObjects.keeps_fresh {fs fs₀ : Fs} (same : SameObjects fs fs₀) (fresh : Fresh fs) : Fresh fs₀ := by
  obtain ⟨uid, gid, heap, rfl⟩ := same
  exact ⟨fresh.dentries, fresh.inodes, fresh.infos, fresh.homes⟩

theorem SameObjects.walk {fs fs₀ : Fs} (same : SameObjects fs fs₀) : SameWalk fs fs₀ := by
  obtain ⟨uid, gid, heap, rfl⟩ := same
  exact ⟨rfl, fun _ => rfl⟩

/-- The call may create the last component of `path`, from `start`. -/
inductive MayCreate (w : World) (event : Event) : Ptr → Name → Prop where
  | create {proc : Proc} {path : Name} {mode : BitVec 32} {start : Ptr} (call : event.call = .create (some path) mode)
      (caller : w.current event.pid = .ok proc) (from_ : pathResolveStart w.fs proc path = .ok (some start)) :
      MayCreate w event start path
  | mkdir {proc : Proc} {path : Name} {mode : BitVec 32} {start : Ptr} (call : event.call = .mkdir (some path) mode)
      (caller : w.current event.pid = .ok proc) (from_ : pathResolveStart w.fs proc path = .ok (some start)) :
      MayCreate w event start path
  | mkdirat {proc : Proc} {dfd : Int} {path : Name} {mode : BitVec 32} {start : Ptr}
      (call : event.call = .mkdirat dfd (some path) mode) (caller : w.current event.pid = .ok proc)
      (from_ : resolveAt w.fs proc dfd path = .ok (some start)) : MayCreate w event start path
  | open_ {proc : Proc} {path : Name} {flags mode : BitVec 32} {start : Ptr} {fs₁ : Fs}
      (call : event.call = .open_ (some path) flags mode) (caller : w.current event.pid = .ok proc)
      (from_ : pathResolveStart w.fs proc path = .ok (some start)) (asked : flags &&& oCreat ≠ 0)
      (missing : kpathLookup (w.fs.seenBy proc event.heap) start path = .ok (none, fs₁)) : MayCreate w event start path
  | openat {proc : Proc} {dfd : Int} {path : Name} {flags mode : BitVec 32} {start : Ptr} {fs₁ : Fs}
      (call : event.call = .openat dfd (some path) flags mode) (caller : w.current event.pid = .ok proc)
      (from_ : resolveAt w.fs proc dfd path = .ok (some start)) (asked : flags &&& oCreat ≠ 0)
      (missing : kpathLookup (w.fs.seenBy proc event.heap) start path = .ok (none, fs₁)) : MayCreate w event start path

/-- The call may remove the dentry `node` with the inode `j`. -/
inductive MayRemove (w : World) (event : Event) (node j : Ptr) : Prop where
  | mk {proc : Proc} {path : Name} {start d i : Ptr} (call : event.call = .rmdir (some path) ∨ event.call = .unlink (some path))
      (caller : w.current event.pid = .ok proc) (from_ : pathResolveStart w.fs proc path = .ok (some start))
      (parent : Resolves w.fs start (splitLast path).1 d) (behind : w.fs.inodeOf d = .ok i)
      (target : vfsLookup w.fs i (splitLast path).2 = .ok (some node)) (its : w.fs.inodeOf node = .ok j) :
      MayRemove w event node j

/-- The edits that a call may make, seen from the state before it. -/
def MayEdit (w : World) (event : Event) : Edit → Prop
  | .count _ _ => True
  | .add d _ _ _ name _ => ∃ start path, MayCreate w event start path ∧ Resolves w.fs start (splitLast path).1 d ∧
      name = (splitLast path).2
  | .remove _ node j => MayRemove w event node j
  | .retable _ => False
  | .lose _ _ => event.heap ≠ []

section Steps

variable {w w' : World} {event : Event} {ret : Int} {path : Name} {proc : Proc} {table : Table} {filename : Option Name}
    {device : DeviceReply} {buf faults : Bool} {count : BitVec 64} {es : List Edit} {short : Prop} {start : Ptr}
    {pid : Nat}

theorem NewEdits.mayEdit {fs₀ : Fs}
    (new : NewEdits short fs₀ start path ret es) (walk : SameWalk w.fs fs₀) (heap : event.heap = [] → fs₀.heap = [])
    (creates : MayCreate w event start path) : ∀ e ∈ es, MayEdit w event e := by
  intro e member
  cases new with
  | unfound => cases member
  | refused =>
    rw [List.mem_singleton] at member
    rw [member]
    trivial
  | added parent =>
    rcases List.mem_cons.mp member with rfl | member
    · trivial
    · rw [List.mem_singleton] at member
      rw [member]
      exact ⟨start, path, creates, parent.congr walk, rfl⟩
  | lost _ _ starved =>
    rcases List.mem_cons.mp member with rfl | member
    · trivial
    · rw [List.mem_singleton] at member
      rw [member]
      exact fun enough => starved (heap enough)

/-- What the calls do to the file system. -/
structure StepEdits (w : World) (event : Event) (w' : World) : Prop where
  intro ::
  edits : ∃ fs₀ es, SameObjects w.fs fs₀ ∧ Edits fs₀ es w'.fs ∧ ∀ e ∈ es, MayEdit w event e

theorem StepEdits.unchanged (same : w'.fs = w.fs) : StepEdits w event w' :=
  ⟨w.fs, [], .refl w.fs, by rw [same]; exact .nil (.refl w.fs), fun _ member => nomatch member⟩

theorem StepEdits.counts {fs₀ : Fs} (same : SameObjects w.fs fs₀) (edits : Edits fs₀ es w'.fs)
    (all : ∀ e ∈ es, ∃ i n, e = .count i n) : StepEdits w event w' := by
  refine ⟨fs₀, es, same, edits, fun e member => ?_⟩
  obtain ⟨i, n, rfl⟩ := all e member
  trivial

theorem stepEdits_of_new {resolve : Fs → Proc → Name → Except Stop (Option Ptr)}
    {operation : Fs → Ptr → Name → Except Stop (Int × Fs)} (fresh : Fresh w.fs)
    (operates : ∀ {fs start path ret fs'}, Fresh fs → operation fs start path = .ok (ret, fs') →
      ∃ es, NewEdits short fs start path ret es ∧ Edits fs es fs')
    (creates : ∀ {proc path start}, w.current event.pid = .ok proc → filename = some path →
      resolve (w.fs.seenBy proc event.heap) proc path = .ok (some start) → MayCreate w event start path)
    (done : onPath w event.pid event.heap resolve filename operation = .ok (ret, w')) : StepEdits w event w' := by
  rcases onPath_cases done with same | ⟨proc, path, start, fs', caller, given, from_, operated, rfl⟩
  · exact .unchanged (by rw [same])
  · have seen := sameObjects_seenBy w.fs proc event.heap
    obtain ⟨es, new, edits⟩ := operates (seen.keeps_fresh fresh) operated
    exact ⟨_, es, seen, edits, new.mayEdit seen.walk id (creates caller given from_)⟩

theorem stepEdits_of_remove {operation : Fs → Ptr → Name → Name → Except Stop (Int × Fs)}
    (operates : ∀ {fs start path name ret fs'}, operation fs start path name = .ok (ret, fs') →
      ∃ es, RemoveEdits fs start path name ret es ∧ Edits fs es fs')
    (calls : ∀ path, filename = some path → event.call = .rmdir (some path) ∨ event.call = .unlink (some path))
    (done : onPath w event.pid event.heap pathResolveStart filename (onSplit operation) = .ok (ret, w')) :
    StepEdits w event w' := by
  rcases onPath_cases done with same | ⟨proc, path, start, fs', caller, given, from_, operated, rfl⟩
  · exact .unchanged (by rw [same])
  · have seen := sameObjects_seenBy w.fs proc event.heap
    rcases onSplit_cases operated with same | ⟨fs₁, same, operated⟩
    · exact ⟨_, [], seen, .nil same, fun _ member => nomatch member⟩
    · obtain ⟨es, removes, edits⟩ := operates operated
      have walk := seen.walk.trans same.walk
      refine ⟨_, es, seen, (Edits.nil same).append edits, fun e member => ?_⟩
      cases removes with
      | unfound => cases member
      | refused =>
        rw [List.mem_singleton] at member
        rw [member]
        trivial
      | removed parent behind target its =>
        rcases List.mem_cons.mp member with rfl | member
        · trivial
        · rw [List.mem_singleton] at member
          rw [member]
          rw [inodeOf_congr walk.dentries] at behind its
          rw [vfsLookup_congr walk] at target
          exact .mk (calls path given) caller from_ (parent.congr walk) behind target its

theorem Opened.counted {fs₁ : Fs} {i : Ptr} (opened : Opened w pid proc table fs₁ w' i) : Edits fs₁ [.count i 1] w'.fs := by
  obtain ⟨fd, d, inode, file, -, -, live, -, rfl⟩ := opened.entry
  exact .single (.refl fs₁) (.count 1 live) (.refl _)

theorem stepEdits_of_open {start : Option Ptr} {flags mode : BitVec 32}
    (fresh : Fresh w.fs) (creates : ∀ s fs₁, start = some s → flags &&& oCreat ≠ 0 →
      kpathLookup (w.fs.seenBy proc event.heap) s path = .ok (none, fs₁) → MayCreate w event s path)
    (done : openFrom w event.pid (w.fs.seenBy proc event.heap) proc table start path flags mode = .ok (ret, w')) :
    StepEdits w event w' := by
  have seen := sameObjects_seenBy w.fs proc event.heap
  rcases openFrom_cases (seen.keeps_fresh fresh) done with rfl | ⟨s, es, fs₁, rfl, -, opens, edits, result⟩
  · exact ⟨_, [], seen, .nil (.refl _), fun _ member => nomatch member⟩
  · have may : ∀ e ∈ es, MayEdit w event e := by
      have same : ∀ {fs₂}, kpathLookup (w.fs.seenBy proc event.heap) s path = .ok (none, fs₂) →
          SameWalk w.fs fs₂ ∧ (event.heap = [] → fs₂.heap = []) := by
        intro fs₂ missing
        rcases kpathLookup_edits missing with ⟨-, same⟩ | ⟨_, _, impossible, -⟩
        · exact ⟨seen.walk.trans same.walk, same.heap⟩
        · cases impossible
      cases opens with
      | unfound => exact fun _ member => nomatch member
      | found =>
        intro e member
        rw [List.mem_singleton] at member
        rw [member]
        trivial
      | created asked missing new =>
        exact new.mayEdit (same missing).1 (same missing).2 (creates s _ rfl asked missing)
      | reopened asked missing new =>
        have before := new.mayEdit (same missing).1 (same missing).2 (creates s _ rfl asked missing)
        exact List.forall_mem_append.mpr ⟨before, List.forall_mem_singleton.mpr trivial⟩
    rcases result with rfl | ⟨-, i, opened⟩
    · exact ⟨_, es, seen, edits, may⟩
    · refine ⟨_, es ++ [.count i 1], seen, edits.append opened.counted, ?_⟩
      exact List.forall_mem_append.mpr ⟨may, List.forall_mem_singleton.mpr trivial⟩

theorem stepEdits_of_lookup {fs₁ : Fs} {found : Option Ptr}
    (looked : kpathLookup (w.fs.seenBy proc event.heap) start path = .ok (found, fs₁)) (same : w'.fs = fs₁) :
    StepEdits w event w' := by
  have seen := sameObjects_seenBy w.fs proc event.heap
  rcases kpathLookup_edits looked with ⟨-, unchanged⟩ | ⟨d, i, -, -, -, edits⟩
  · exact ⟨_, [], seen, same ▸ .nil unchanged, fun _ member => nomatch member⟩
  · apply StepEdits.counts seen (same ▸ edits)
    intro e member
    rw [List.mem_singleton] at member
    exact ⟨i, 1, member⟩

theorem transfer_fs {fd : Fin tableEntries} {fs : Fs}
    {operation : Except Stop (Int × BitVec 64)} {faulted : Int → Bool}
    (done : transfer w pid proc table fd fs operation faulted = .ok (ret, w')) :
    ∃ pos, w' = ({ w with fs } : World).setProc pid
      { proc with openedFileTable := some (Function.update table fd { table fd with fPos := pos }) } := by
  obtain ⟨⟨res, pos⟩, -, done⟩ := bind_eq_ok.mp done
  cases done
  exact ⟨pos, rfl⟩

/-- What `sys_read` and `sys_write` do: they move the position of a descriptor. -/
inductive Sought (w : World) (event : Event) : World → Prop where
  | unchanged : Sought w event w
  | refused {proc : Proc} {fs : Fs} (caller : w.current event.pid = .ok proc)
      (same : Same (w.fs.seenBy proc event.heap) fs) : Sought w event { w with fs }
  | moved {proc : Proc} {table : Table} {fd : Fin tableEntries} {fs : Fs} {pos : BitVec 64}
      (caller : w.current event.pid = .ok proc) (has : proc.openedFileTable = some table)
      (same : Same (w.fs.seenBy proc event.heap) fs) :
      Sought w event (({ w with fs } : World).setProc event.pid
        { proc with openedFileTable := some (Function.update table fd { table fd with fPos := pos }) })

theorem sysRead_sought {fd : Int}
    (done : sysRead w event.pid event.heap fd buf count device faults = .ok (ret, w')) : Sought w event w' := by
  unfold sysRead at done
  split at done
  · cases done
    exact .unchanged
  · rcases withFile_cases done with rfl | ⟨proc, table, fd, i, caller, has, -, done⟩
    · exact .unchanged
    · dsimp only at done
      split at done
      · cases done
        exact .unchanged
      · split at done
        · cases done
          exact .unchanged
        · split at done
          · rename_i fs₁ failed
            cases done
            exact .refused caller (kmalloc_same failed).1
          · rename_i p fs₁ allocated
            have same := (kmalloc_same allocated).1
            split at done
            · cases done
              exact .refused caller same
            · obtain ⟨pos, rfl⟩ := transfer_fs done
              exact .moved caller has same

theorem sysWrite_sought {fd : Int}
    (done : sysWrite w event.pid event.heap fd buf count device faults = .ok (ret, w')) : Sought w event w' := by
  unfold sysWrite at done
  split at done
  · cases done
    exact .unchanged
  · split at done
    · cases done
      exact .unchanged
    · rcases withFile_cases done with rfl | ⟨proc, table, fd, i, caller, has, -, done⟩
      · exact .unchanged
      · dsimp only at done
        split at done
        · cases done
          exact .unchanged
        · split at done
          · cases done
            exact .unchanged
          · split at done
            · rename_i fs₁ failed
              cases done
              exact .refused caller (kmalloc_same failed).1
            · rename_i p fs₁ allocated
              have same := (kmalloc_same allocated).1
              split at done
              · cases done
                exact .refused caller same
              · split at done
                · cases done
                  exact .refused caller same
                · obtain ⟨pos, rfl⟩ := transfer_fs done
                  exact .moved caller has same

theorem Sought.stepEdits (sought : Sought w event w') : StepEdits w event w' := by
  cases sought with
  | unchanged => exact .unchanged rfl
  | refused _ same => exact ⟨_, [], sameObjects_seenBy .., .nil same, fun _ member => nomatch member⟩
  | moved _ _ same => exact ⟨_, [], sameObjects_seenBy .., .nil same, fun _ member => nomatch member⟩

theorem stepEdits_of_addCount {i : Ptr} {n : Int} (edits : Edits w.fs [.count i n] w'.fs) : StepEdits w event w' := by
  apply StepEdits.counts (.refl w.fs) edits
  intro e member
  rw [List.mem_singleton] at member
  exact ⟨i, n, member⟩

theorem Looked.stepEdits {moves : Prop} (looked : Looked w event.pid event.heap path moves w') : StepEdits w event w' := by
  cases looked with
  | kept _ _ found _ => exact stepEdits_of_lookup found rfl
  | moved _ _ _ found => exact stepEdits_of_lookup found rfl

theorem Assigned.stepEdits (assigned : Assigned w event.pid w') : StepEdits w event w' := by
  cases assigned with
  | unchanged => exact .unchanged rfl
  | closed _ _ _ counts => exact stepEdits_of_addCount (addCount_edits counts)
  | copied _ _ _ _ counts => exact stepEdits_of_addCount (addCount_edits counts)
  | replaced _ _ _ _ releases counts =>
    apply StepEdits.counts (.refl w.fs) ((addCount_edits releases).append (addCount_edits counts))
    intro e member
    rcases List.mem_cons.mp member with rfl | member
    · exact ⟨_, _, rfl⟩
    · exact ⟨_, _, List.mem_singleton.mp member⟩

/-- What any call does to the file system: edits that it may make. -/
theorem FileStep.edits (step : FileStep w event w') (fresh : Fresh w.fs) : StepEdits w event w' := by
  obtain ⟨pid, heap, call⟩ := event
  obtain ⟨ret, done⟩ := step
  cases call with
  | open_ path flags mode =>
    rcases openPath_cases done with rfl | ⟨proc, path, table, start, caller, rfl, -, from_, done⟩
    · exact .unchanged rfl
    · apply stepEdits_of_open fresh _ done
      rintro s fs₁ rfl asked missing
      exact .open_ rfl caller from_ asked missing
  | openat dfd path flags mode =>
    have done : openPath w pid heap (resolveAt · · dfd ·) path flags mode = .ok (ret, w') := done
    rcases openPath_cases done with rfl | ⟨proc, path, table, start, caller, rfl, -, from_, done⟩
    · exact .unchanged rfl
    · apply stepEdits_of_open fresh _ done
      rintro s fs₁ rfl asked missing
      exact .openat rfl caller from_ asked missing
  | create path mode =>
    apply stepEdits_of_new fresh (fun fresh made => kpathCreate_edits fresh made) _ done
    rintro proc path start caller rfl from_
    exact .create rfl caller from_
  | mkdir path mode =>
    apply stepEdits_of_new fresh (fun fresh made => kpathMkdir_edits fresh made) _ done
    rintro proc path start caller rfl from_
    exact .mkdir rfl caller from_
  | mkdirat dfd path mode =>
    have done : onPath w pid heap (fun fs proc path => resolveAt fs proc dfd path) path
        (fun fs start path => kpathMkdir fs start path (mode.setWidth 16)) = .ok (ret, w') := done
    apply stepEdits_of_new fresh (fun fresh made => kpathMkdir_edits fresh made) _ done
    rintro proc path start caller rfl from_
    exact .mkdirat rfl caller from_
  | rmdir path =>
    apply stepEdits_of_remove kpathRmdir_edits _ done
    rintro path rfl
    exact .inl rfl
  | unlink path =>
    apply stepEdits_of_remove pathUnlink_edits _ done
    rintro path rfl
    exact .inr rfl
  | chdir path =>
    rcases sysChdir_cases done with rfl | ⟨path, rfl, looked⟩
    · exact .unchanged rfl
    · exact looked.stepEdits
  | access path mode =>
    rcases sysAccess_cases done with rfl | ⟨path, rfl, looked⟩
    · exact .unchanged rfl
    · exact looked.stepEdits
  | read fd buf count device faults => exact (sysRead_sought done).stepEdits
  | write fd buf count device faults => exact (sysWrite_sought done).stepEdits
  | close fd => exact (sysClose_assigned done).stepEdits
  | dup oldfd => exact (sysDup_assigned done).stepEdits
  | dup2 oldfd newfd => exact (sysDup2_assigned done).stepEdits
  | fork copied =>
    obtain ⟨proc, -, done⟩ := bind_eq_ok.mp done
    split at done <;> cases done <;> exact .unchanged rfl
  | exit =>
    obtain ⟨proc, -, done⟩ := bind_eq_ok.mp done
    cases done
    exact .unchanged rfl

theorem FileStep.keeps_fresh (step : FileStep w event w') (fresh : Fresh w.fs) : Fresh w'.fs := by
  obtain ⟨⟨fs₀, es, same, edits, -⟩⟩ := step.edits fresh
  exact edits.keeps_fresh (same.keeps_fresh fresh)

end Steps

end CreeperKernel.Vfs
