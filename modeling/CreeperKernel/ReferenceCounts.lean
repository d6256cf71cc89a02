import CreeperKernel.FileEffects
import CreeperKernel.VfsTreeRuns
import Mathlib.Algebra.BigOperators.Fin

namespace CreeperKernel.Vfs

open Transitions (Run)

/-- `i_count`, and 0 for an inode that is not there. -/
def countOf (fs : Fs) (i : Ptr) : Int := ((fs.inodes i).map Inode.iCount).getD 0

/-- Whether an entry refers to the inode `i`. -/
def File.refs (file : File) (i : Ptr) : Int := if file.fInode = some i then 1 else 0

def tableRefs (table : Table) (i : Ptr) : Int := ∑ fd, (table fd).refs i

/-- The open descriptors and the working directory of a live process that refer to `i`. -/
def Proc.refs (proc : Proc) (i : Ptr) : Int :=
  if proc.alive then (proc.openedFileTable.map (tableRefs · i)).getD 0 + if proc.cwdI = some i then 1 else 0 else 0

def World.refs (w : World) (i : Ptr) : Int := (w.procs.map (·.refs i)).sum

/-- Every count has changed as the references have. -/
def Exact (w w' : World) : Prop := ∀ i, countOf w'.fs i - countOf w.fs i = w'.refs i - w.refs i

theorem Exact.trans {w middle w' : World} (front : Exact w middle) (back : Exact middle w') : Exact w w' := by
  intro i
  have first := front i
  have second := back i
  omega

section Counts

variable {fs fs' : Fs}

theorem Same.countOf (same : Same fs fs') (i : Ptr) : countOf fs' i = Vfs.countOf fs i := by
  rw [Vfs.countOf, Vfs.countOf, same.inodes]

theorem SameObjects.countOf {fs₀ : Fs} (same : SameObjects fs fs₀) (i : Ptr) : countOf fs₀ i = Vfs.countOf fs i := by
  obtain ⟨uid, gid, heap, rfl⟩ := same
  rfl

variable {n : Int} {j : Ptr}

theorem countOf_of_count (step : EditStep fs (.count j n) fs') (i : Ptr) :
    countOf fs' i = countOf fs i + if i = j then n else 0 := by
  cases step with
  | count n live =>
    by_cases same : i = j
    · subst same
      simp [countOf, Fs.setInode, live]
    · simp [countOf, Fs.setInode, same]

theorem countOf_of_counted (edits : Edits fs [.count j n] fs') (i : Ptr) :
    countOf fs' i = countOf fs i + if i = j then n else 0 := by
  cases edits with
  | cons before first rest =>
    cases rest with
    | nil after => rw [after.countOf, countOf_of_count first, before.countOf]

end Counts

section References

variable {w : World} {pid : Nat} {proc proc' : Proc}

theorem refs_setProc (caller : w.current pid = .ok proc) (proc' : Proc) (i : Ptr) :
    (w.setProc pid proc').refs i = w.refs i - proc.refs i + proc'.refs i := by
  obtain ⟨found, -⟩ := current_eq_ok caller
  obtain ⟨inside, at_⟩ := List.getElem?_eq_some_iff.mp found
  rw [World.refs, World.setProc, List.map_set, List.sum_set', dif_pos (by rw [List.length_map]; exact inside)]
  rw [World.refs, List.getElem_map, at_]
  omega

theorem tableRefs_update (table : Table) (fd : Fin tableEntries) (file : File) (i : Ptr) :
    tableRefs (Function.update table fd file) i = tableRefs table i - (table fd).refs i + file.refs i := by
  have after : (fun k => (Function.update table fd file k).refs i) =
      Function.update (fun k => (table k).refs i) fd (file.refs i) := by
    funext k
    by_cases same : k = fd
    · subst same
      simp only [Function.update_self]
    · simp only [Function.update_of_ne same]
  rw [tableRefs, after, Finset.sum_update_of_mem (Finset.mem_univ fd), tableRefs,
    ← Finset.add_sum_erase Finset.univ (fun k => (table k).refs i) (Finset.mem_univ fd), Finset.sdiff_singleton_eq_erase]
  omega

theorem refs_assign (caller : w.current pid = .ok proc) {table : Table} (has : proc.openedFileTable = some table)
    (fd : Fin tableEntries) (file : File) (fs' : Fs) (i : Ptr) :
    (({ w with fs := fs' } : World).setProc pid
      { proc with openedFileTable := some (Function.update table fd file) }).refs i =
      w.refs i - (table fd).refs i + file.refs i := by
  have caller' : ({ w with fs := fs' } : World).current pid = .ok proc := caller
  have alive := (current_eq_ok caller).2
  rw [refs_setProc caller']
  simp only [Proc.refs, alive, has, Option.map_some, Option.getD_some, if_true, tableRefs_update]
  show w.refs i - _ + _ = _
  omega

end References

/-- Nothing is found at `path` nor, if it is to be created, at its parent. -/
def NothingFound (fs : Fs) (start : Ptr) (path : Name) (creat : Prop) : Prop :=
  (∀ d, ¬ Resolves fs start path d) ∧ (creat → ∀ d, ¬ Resolves fs start (splitLast path).1 d)

/-- A process without open descriptors and working directory. -/
def Proc.Bare (proc : Proc) : Prop :=
  proc.cwdI = none ∧ ∀ table, proc.openedFileTable = some table → ∀ fd, (table fd).fInode = none

/-- When the counts follow the references: no lookup of an open or an access finds anything, a
working directory is set where there was none, and only bare processes fork or exit. -/
def CountCareful (w : World) (event : Event) : Prop :=
  match event.call with
  | .open_ (some path) flags _ => ∀ proc table start, w.current event.pid = .ok proc →
      proc.openedFileTable = some table → (freeSlot table 3).isSome →
      pathResolveStart w.fs proc path = .ok (some start) → NothingFound w.fs start path (flags &&& oCreat ≠ 0)
  | .openat dfd (some path) flags _ => ∀ proc table start, w.current event.pid = .ok proc →
      proc.openedFileTable = some table → (freeSlot table 3).isSome →
      resolveAt w.fs proc dfd path = .ok (some start) → NothingFound w.fs start path (flags &&& oCreat ≠ 0)
  | .access (some path) _ => ∀ proc start d, w.current event.pid = .ok proc →
      pathResolveStart w.fs proc path = .ok (some start) → ¬ Resolves w.fs start path d
  | .chdir (some path) => ∀ proc start d, w.current event.pid = .ok proc →
      pathResolveStart w.fs proc path = .ok (some start) → Resolves w.fs start path d →
      IsDirectory w.fs d ∧ proc.cwdI = none
  | .fork true | .exit => ∀ proc, w.current event.pid = .ok proc → proc.Bare
  | .open_ none _ _ | .openat _ none _ _ | .access none _ | .chdir none | .fork false | .close _ | .dup _ | .dup2 _ _ =>
    True
  | _ => False

section Steps

variable {w w' : World} {event : Event}

theorem exact_of_unchanged (same : w' = w) : Exact w w' := by
  intro i
  rw [same]
  omega

theorem exact_of_same {fs₀ fs₁ : Fs} (seen : SameObjects w.fs fs₀) (same : Same fs₀ fs₁) :
    Exact w { w with fs := fs₁ } := by
  intro i
  show countOf fs₁ i - countOf w.fs i = w.refs i - w.refs i
  rw [same.countOf, seen.countOf]
  omega

variable {fs : Fs} {path : Name} {creat : Prop} {start : Ptr}

theorem edits_nil_of_nothingFound {es : List Edit} (opens : OpenEdits fs start path creat es)
    (nothing : NothingFound fs start path creat) : es = [] := by
  have unparented : ∀ {fs₁ ret es}, creat → kpathLookup fs start path = .ok (none, fs₁) →
      NewEdits True fs₁ start path ret es → ret < 0 ∧ es = [] := by
    intro fs₁ ret es asked missing new
    have walks := kpathLookup_sameWalk missing
    cases new with
    | unfound negative => exact ⟨negative, rfl⟩
    | refused _ parent => exact absurd (parent.congr walks) (nothing.2 asked _)
    | added parent => exact absurd (parent.congr walks) (nothing.2 asked _)
    | lost _ _ _ parent => exact absurd (parent.congr walks) (nothing.2 asked _)
  cases opens with
  | unfound => rfl
  | found resolves => exact absurd resolves (nothing.1 _)
  | created asked missing new => exact (unparented asked missing new).2
  | reopened asked missing new =>
    have negative := (unparented asked missing new).1
    omega

theorem NothingFound.seenBy (proc : Proc) (heap : List Bool) (nothing : NothingFound fs start path creat) :
    NothingFound (fs.seenBy proc heap) start path creat := by
  have walks := (sameObjects_seenBy fs proc heap).walk
  exact ⟨fun d resolves => nothing.1 d (resolves.congr walks),
    fun asked d resolves => nothing.2 asked d (resolves.congr walks)⟩

variable {pid : Nat} {proc : Proc}

theorem exact_of_open {heap : List Bool} {table : Table} {start : Option Ptr} {flags mode : BitVec 32} {ret : Int}
    (fresh : Fresh w.fs)
    (nothing : ∀ s, start = some s → (freeSlot table 3).isSome → NothingFound w.fs s path (flags &&& oCreat ≠ 0))
    (done : openFrom w pid (w.fs.seenBy proc heap) proc table start path flags mode = .ok (ret, w')) : Exact w w' := by
  have seen := sameObjects_seenBy w.fs proc heap
  rcases openFrom_cases (seen.keeps_fresh fresh) done with rfl | ⟨s, es, fs₁, from_, room, opens, edits, result⟩
  · exact exact_of_same seen (.refl _)
  · have none_ := edits_nil_of_nothingFound opens ((nothing s from_ room).seenBy proc heap)
    subst none_
    cases edits with
    | nil same =>
      rcases result with rfl | ⟨some_, -⟩
      · exact exact_of_same seen same
      · exact absurd rfl some_

theorem exact_of_access (looked : Looked w event.pid event.heap path False w')
    (nothing : ∀ proc start d, w.current event.pid = .ok proc → pathResolveStart w.fs proc path = .ok (some start) → ¬ Resolves w.fs start path d) :
    Exact w w' := by
  cases looked with
  | @kept proc start found fs₁ caller from_ looked =>
    have seen := sameObjects_seenBy w.fs proc event.heap
    rcases kpathLookup_edits looked with ⟨-, same⟩ | ⟨d, i, -, resolves, -⟩
    · exact exact_of_same seen same
    · exact absurd (resolves.congr seen.walk) (nothing proc start d caller from_)
  | moved may => exact may.elim

theorem exact_of_chdir (looked : Looked w event.pid event.heap path True w')
    (first : ∀ proc start d, w.current event.pid = .ok proc → pathResolveStart w.fs proc path = .ok (some start) → Resolves w.fs start path d → IsDirectory w.fs d ∧ proc.cwdI = none) :
    Exact w w' := by
  cases looked with
  | @kept proc start found fs₁ caller from_ looked stays =>
    have seen := sameObjects_seenBy w.fs proc event.heap
    rcases kpathLookup_cases looked with ⟨-, same⟩ | ⟨d, i, inode, rfl, resolves, behind, reached, same⟩
    · exact exact_of_same seen same
    · -- a directory that was found has become the working directory
      obtain ⟨isdir, -⟩ := first proc start d caller from_ (resolves.congr seen.walk)
      obtain ⟨j, x, behind', live, mode⟩ := isdir
      cases behind.symm.trans behind'
      cases reached.symm.trans live
      have after : fs₁.inodes i = some { inode with iCount := inode.iCount + 1 } := by
        simp only [same.inodes, counted, Fs.setInode, Function.update_self]
      have behind₁ : fs₁.inodeOf d = .ok i := (inodeOf_congr same.dentries d).trans behind
      have file := stays trivial d i _ rfl behind₁ after
      exact absurd mode file
  | @moved proc start d i fs₁ inode _ caller from_ looked behind =>
    have seen := sameObjects_seenBy w.fs proc event.heap
    rcases kpathLookup_edits looked with ⟨impossible, -⟩ | ⟨d', j, same, resolves, behind', edits⟩
    · cases impossible
    · cases same
      obtain ⟨-, none_⟩ := first proc start d caller from_ (resolves.congr seen.walk)
      rw [inodeOf_congr (dentries_of_counted edits), behind'] at behind
      cases behind
      intro k
      have caller' : ({ w with fs := fs₁ } : World).current event.pid = .ok proc := caller
      have alive := (current_eq_ok caller).2
      rw [World.setProc_fs, countOf_of_counted edits, seen.countOf, refs_setProc caller']
      simp only [Proc.refs, alive, none_, if_true, Option.some.injEq, reduceCtorEq, if_false]
      show _ = w.refs k - _ + _ - w.refs k
      by_cases here : k = i
      · rw [if_pos here, if_pos here.symm]
        omega
      · rw [if_neg here, if_neg (Ne.symm here)]
        omega

variable {file : File}

theorem File.refs_of_eq {i : Ptr} (its : file.fInode = some i) (k : Ptr) : file.refs k = if k = i then 1 else 0 := by
  unfold File.refs
  rw [its]
  by_cases same : k = i
  · rw [if_pos same, if_pos (by rw [same])]
  · rw [if_neg same, if_neg fun equal => same (Option.some.inj equal).symm]

theorem File.refs_of_none (free : file.fInode = none) (k : Ptr) : file.refs k = 0 := by
  rw [File.refs, free, if_neg (by simp)]

theorem Assigned.exact (assigned : Assigned w pid w') : Exact w w' := by
  cases assigned with
  | unchanged => exact exact_of_unchanged rfl
  | closed caller has used counts =>
    intro k
    rw [refs_assign caller has, File.refs_of_eq used, File.refs_of_none rfl]
    rw [World.setProc_fs, countOf_of_count (addCount_step counts)]
    split <;> omega
  | copied caller has used free counts =>
    intro k
    rw [refs_assign caller has, File.refs_of_eq used, File.refs_of_none free]
    rw [World.setProc_fs, countOf_of_count (addCount_step counts)]
    omega
  | replaced caller has used held releases counts =>
    intro k
    rw [refs_assign caller has, File.refs_of_eq used, File.refs_of_eq held]
    rw [World.setProc_fs, countOf_of_count (addCount_step counts), countOf_of_count (addCount_step releases)]
    split <;> split <;> omega

theorem Proc.Bare.refs (bare : proc.Bare) (i : Ptr) : proc.refs i = 0 := by
  unfold Proc.refs
  split
  · rw [bare.1, if_neg (by simp)]
    cases has : proc.openedFileTable with
    | none => rfl
    | some table =>
      have empty : tableRefs table i = 0 :=
        Finset.sum_eq_zero fun fd _ => File.refs_of_none (bare.2 table has fd) i
      rw [Option.map_some, Option.getD_some, empty]
      rfl
  · rfl

theorem FileStep.exact (step : FileStep w event w') (fresh : Fresh w.fs) (careful : CountCareful w event) : Exact w w' := by
  obtain ⟨pid, heap, call⟩ := event
  obtain ⟨ret, done⟩ := step
  cases call with
  | open_ path flags mode =>
    rcases openPath_cases done with rfl | ⟨proc, path, table, start, caller, rfl, has, from_, done⟩
    · exact exact_of_unchanged rfl
    · apply exact_of_open fresh _ done
      rintro s rfl room
      exact careful proc table s caller has room from_
  | openat dfd path flags mode =>
    have done : openPath w pid heap (resolveAt · · dfd ·) path flags mode = .ok (ret, w') := done
    rcases openPath_cases done with rfl | ⟨proc, path, table, start, caller, rfl, has, from_, done⟩
    · exact exact_of_unchanged rfl
    · apply exact_of_open fresh _ done
      rintro s rfl room
      exact careful proc table s caller has room from_
  | access path mode =>
    rcases sysAccess_cases done with rfl | ⟨path, rfl, looked⟩
    · exact exact_of_unchanged rfl
    · exact exact_of_access looked careful
  | chdir path =>
    rcases sysChdir_cases done with rfl | ⟨path, rfl, looked⟩
    · exact exact_of_unchanged rfl
    · exact exact_of_chdir looked careful
  | close fd => exact (sysClose_assigned done).exact
  | dup oldfd => exact (sysDup_assigned done).exact
  | dup2 oldfd newfd => exact (sysDup2_assigned done).exact
  | fork copied =>
    obtain ⟨proc, caller, done⟩ := bind_eq_ok.mp done
    cases copied with
    | false =>
      cases done
      exact exact_of_unchanged rfl
    | true =>
      cases done
      intro i
      have none_ := (careful proc caller).refs i
      simp only [World.refs, List.map_append, List.sum_append, List.map_cons, List.map_nil, List.sum_cons,
        List.sum_nil, none_]
      omega
  | exit =>
    obtain ⟨proc, caller, done⟩ := bind_eq_ok.mp done
    cases done
    intro i
    have none_ := (careful proc caller).refs i
    rw [refs_setProc caller, none_]
    simp only [Proc.refs, Bool.false_eq_true, if_false, World.setProc]
    omega
  | create | mkdir | mkdirat | rmdir | unlink | read | write => exact careful.elim

end Steps

/-- The counts change as the references do, as long as every call is one of those that keep
them exact. -/
theorem counts_stay_exact (w : World) (fresh : Fresh w.fs) (events : List Event) (w' : World)
    (run : Run (fun w event w' => FileStep w event w' ∧ CountCareful w event) w events w') : Exact w w' := by
  have kept := run.invariant (fun v => Fresh v.fs ∧ Exact w v)
    (fun _ _ _ good step => ⟨step.1.keeps_fresh good.1, good.2.trans (step.1.exact good.1 step.2)⟩)
    ⟨fresh, exact_of_unchanged rfl⟩
  exact kept.2

/-- A process that has the root open as descriptor 3, and no working directory. -/
def holding : World where
  fs := tmpRoot
  procs := [{ idle with openedFileTable := some fun fd => { File.empty with fInode := if fd.val = 3 then some 0 else none } }]

/-- It goes to the root, duplicates its descriptor and closes the first one. -/
theorem counts_stay_exact_holding : ∃ w', Run (fun w event w' => FileStep w event w' ∧ CountCareful w event) holding
    [⟨0, [], .chdir (some [slash])⟩, ⟨0, [], .dup 3⟩, ⟨0, [], .close 3⟩] w' ∧ Exact holding w' := by
  have returns : endsWith (fun r => endsWith (fun r => endsWith (fun _ => true) (perform r.2 ⟨0, [], .close 3⟩))
      (perform r.2 ⟨0, [], .dup 3⟩)) (perform holding ⟨0, [], .chdir (some [slash])⟩) = true := by decide +kernel
  obtain ⟨⟨ret, w₁⟩, first, returns⟩ := exists_of_endsWith returns
  obtain ⟨⟨ret₂, w₂⟩, second, returns⟩ := exists_of_endsWith returns
  obtain ⟨⟨ret₃, w'⟩, third, -⟩ := exists_of_endsWith returns
  have careful : CountCareful holding ⟨0, [], .chdir (some [slash])⟩ := by
    intro proc start d caller from_ resolves
    cases caller
    cases from_
    obtain ⟨inode, first, started, home, walked⟩ := resolves
    cases started
    cases home
    cases walked
    exact ⟨⟨0, _, rfl, rfl, rfl⟩, rfl⟩
  have run : Run (fun w event w' => FileStep w event w' ∧ CountCareful w event) holding _ w' :=
    .cons ⟨⟨ret, first⟩, careful⟩ (.cons ⟨⟨ret₂, second⟩, trivial⟩ (.single ⟨⟨ret₃, third⟩, trivial⟩))
  exact ⟨w', run, counts_stay_exact _ tmpRoot_fresh _ w' run⟩

/-- `/tmp` is opened and closed again. -/
def openAndClose : List Event :=
  [⟨0, [], .open_ (some (absolute [['t', 'm', 'p']])) 0 0⟩, ⟨0, [], .close 3⟩]

/-- After boot, opening and closing `/tmp` leaves its count one higher: the lookup of
`sys_open` has raised it too. -/
theorem open_close_leaks_count : ∃ w w', bootWorld = .ok w ∧ Run FileStep w openAndClose w' ∧ ¬ Exact w w' := by
  have ends : endsWith (fun w => endsWith (fun w' =>
      countOf w'.fs 75 - countOf w.fs 75 ≠ w'.refs 75 - w.refs 75) (runFiles w openAndClose)) bootWorld = true := by
    decide +kernel
  obtain ⟨w, boots, ends⟩ := exists_of_endsWith ends
  obtain ⟨w', done, drift⟩ := exists_of_endsWith ends
  exact ⟨w, w', boots, run_of_runFiles done, fun same => of_decide_eq_true drift (same 75)⟩

end CreeperKernel.Vfs
