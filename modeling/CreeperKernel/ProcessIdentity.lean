import CreeperKernel.ProcessExec
import CreeperKernel.ProcessIds

namespace CreeperKernel.Sched

open IntrusiveLists

variable {s s' : Table} {proc thread : Ptr}

/-- The ids held by processes and threads that are not zombies. The kernel process and
its boot thread, which share the reserved id 0, are left out. -/
def liveId (s : Table) : Holder → Option Nat
  | .proc p =>
    if s.pcbUsed p = true ∧ p ≠ s.kernelProc ∧ (s.pcb p).zombie = false then some (s.pcb p).pid
    else none
  | .thread t =>
    if s.tcbUsed t = true ∧ t ≠ s.bootThread ∧ (s.tcb t).state ≠ .zombie then some (s.tcb t).tid
    else none

variable {id fuel : Nat}

theorem liveId_proc {p : Ptr} : liveId s (.proc p) = some id ↔
    s.pcbUsed p = true ∧ p ≠ s.kernelProc ∧ (s.pcb p).zombie = false ∧ (s.pcb p).pid = id := by
  simp [liveId, and_assoc]

theorem liveId_thread {t : Ptr} : liveId s (.thread t) = some id ↔
    s.tcbUsed t = true ∧ t ≠ s.bootThread ∧ (s.tcb t).state ≠ .zombie ∧ (s.tcb t).tid = id := by
  simp [liveId, and_assoc]

/-- The ids are in order, and so are the thread lists. -/
structure Sound (s : Table) : Prop where
  ids : Registry (liveId s) s
  rostered : Rostered s

theorem Sound.aborted (sound : Sound s) (aborted : Aborted s s') : Sound s' := by
  obtain ⟨-, kernelProc, bootThread⟩ := aborted.fixed
  refine ⟨sound.ids.shrink ?_ (fun _ id _ => aborted.tidFree id) (fun _ _ _ => by rw [aborted.idTable]),
    sound.rostered.aborted aborted⟩
  intro a id here
  cases a with
  | proc p =>
    rw [liveId_proc, kernelProc, aborted.pcbUsed] at here
    rw [aborted.pcb p here.1] at here
    exact liveId_proc.mpr here
  | thread t =>
    rw [liveId_thread, bootThread, aborted.tcbUsed] at here
    rw [aborted.tcb t here.1] at here
    exact liveId_thread.mpr here

section Birth

variable {parent : Option Ptr} {state : ThreadState} {proc thread : KernelPtr} {pid tid : Nat}

theorem Born.liveProc (rostered : Rostered s) (born : Born s parent state proc thread pid tid s') :
    liveId s' (.proc proc) = some pid := by
  rw [liveId_proc, born.pcbUsed, born.pcb, born.fixed.2.1, Function.update_self, Function.update_self]
  refine ⟨rfl, fun same => ?_, rfl, rfl⟩
  have used := rostered.kernel
  rw [← same, born.newPcb] at used
  cases used

theorem Born.liveThread (rostered : Rostered s) (running : state ≠ .zombie)
    (born : Born s parent state proc thread pid tid s') : liveId s' (.thread thread) = some tid := by
  rw [liveId_thread, born.tcbUsed, born.tcb, born.fixed.2.2, Function.update_self, Function.update_self]
  refine ⟨rfl, fun same => ?_, running, rfl⟩
  have used := rostered.boot
  rw [← same, born.newTcb] at used
  cases used

theorem Sound.born (sound : Sound s) (running : state ≠ .zombie)
    (born : Born s parent state proc thread pid tid s') : Sound s' := by
  refine ⟨sound.ids.birth born (born.liveProc sound.rostered) (born.liveThread sound.rostered running) ?_,
    sound.rostered.born born⟩
  obtain ⟨-, kernelProc, bootThread⟩ := born.fixed
  intro a notProc notThread id here
  cases a with
  | proc p =>
    have other : p ≠ proc.val := fun same => notProc (congrArg _ same)
    rw [liveId_proc, born.pcbUsed, born.pcb, kernelProc, Function.update_of_ne other,
      Function.update_of_ne other] at here
    exact liveId_proc.mpr here
  | thread t =>
    have other : t ≠ thread.val := fun same => notThread (congrArg _ same)
    rw [liveId_thread, born.tcbUsed, born.tcb, bootThread, Function.update_of_ne other,
      Function.update_of_ne other] at here
    exact liveId_thread.mpr here

end Birth

variable {supply : Supply}

theorem Sound.made (sound : Sound s) {parent : Option Ptr} {state : ThreadState} (running : state ≠ .zombie)
    (fresh : supply.Fresh s) {result : Option (Ptr × Ptr)} (done : makeProcess s parent state supply = (result, s')) :
    Sound s' := by
  rcases makeProcess_spec fresh done with ⟨-, aborted⟩ | ⟨p, t, pid, tid, -, -, born⟩
  · exact sound.aborted aborted
  · exact sound.born running born

variable {exitCode : Int}

theorem Exited.less (exited : Exited s proc exitCode s') (a : Holder) (id : Nat) (here : liveId s' a = some id) :
    liveId s a = some id := by
  have rest := exited.rest
  have kernelProc : s'.kernelProc = s.kernelProc := by rw [rest]
  have bootThread : s'.bootThread = s.bootThread := by rw [rest]
  have pcbUsed : s'.pcbUsed = s.pcbUsed := by rw [rest]
  have tcbUsed : s'.tcbUsed = s.tcbUsed := by rw [rest]
  cases a with
  | proc p =>
    rw [liveId_proc, exited.pcb, kernelProc, pcbUsed] at here
    by_cases same : p = proc
    · subst same
      rw [Function.update_self] at here
      cases here.2.2.1
    · rw [Function.update_of_ne same] at here
      exact liveId_proc.mpr here
  | thread t =>
    rw [liveId_thread, bootThread, tcbUsed, (exited.tcb t).1] at here
    obtain ⟨used, user, alive, name⟩ := here
    refine liveId_thread.mpr ⟨used, user, fun dead => ?_, name⟩
    rcases exited.others t with same | ended
    · exact alive (same.trans dead)
    · exact alive ended

theorem Sound.exited (sound : Sound s) (exited : Exited s proc exitCode s') : Sound s' := by
  have rest := exited.rest
  exact ⟨sound.ids.shrink exited.less (fun _ _ _ => by rw [rest]) (fun _ _ _ => by rw [rest]),
    sound.rostered.exited exited⟩

/-- No process or thread but zombies holds an id of the process or of its threads. -/
def SafeReap (s : Table) (proc : Ptr) : Prop :=
  ∀ a, liveId s a ≠ some (s.pcb proc).pid ∧
    ∀ t, s.tcbUsed t = true → (s.tcb t).process = proc → liveId s a ≠ some (s.tcb t).tid

section Reaping

variable (less : ∀ a id, liveId s' a = some id → liveId s a = some id)

include less

theorem Sound.returned (sound : Sound s) (unheld : ∀ a, liveId s a ≠ some id) (rostered : Rostered s')
    (bitmap : s'.tidBitmap = freeTid s.tidBitmap id) (idTable : s'.idTable = Function.update s.idTable id 0) : Sound s' := by
  have apart : ∀ a other, liveId s' a = some other → id ≠ other := by
    intro a other here same
    rw [← same] at here
    exact unheld a (less a _ here)
  refine ⟨sound.ids.shrink less ?_ ?_, rostered⟩
  · intro a other here
    rw [bitmap, tidFree_freeTid_of_ne _ (apart a other here)]
  · intro a other here
    rw [idTable, Function.update_of_ne (Ne.symm (apart a other here))]

theorem SafeReap.shrink (safe : SafeReap s proc) (pcb : s'.pcb = s.pcb) (tcb : s'.tcb = s.tcb)
    (fewer : ∀ t, s'.tcbUsed t = true → s.tcbUsed t = true) : SafeReap s' proc := by
  refine fun a => ⟨fun here => ?_, fun t here mine held => ?_⟩
  · rw [pcb] at here
    exact (safe a).1 (less a _ here)
  · rw [tcb] at mine held
    exact (safe a).2 t (fewer t here) mine (less a _ held)

end Reaping

theorem Sound.threadReaped (sound : Sound s) (used : s.tcbUsed thread = true)
    (safe : SafeReap s (s.tcb thread).process) (reaped : ThreadReaped s thread s') :
    Sound s' ∧ SafeReap s' (s.tcb thread).process := by
  have rest := reaped.rest
  have ⟨tcb, pcb, kernelProc, bootThread⟩ := reaped.kept
  have pcbUsed : s'.pcbUsed = s.pcbUsed := by rw [rest]
  have idTable : s'.idTable = Function.update s.idTable (s.tcb thread).tid 0 := by rw [rest]
  have bitmap : s'.tidBitmap = freeTid s.tidBitmap (s.tcb thread).tid := by rw [rest]
  have fewer : ∀ t, s'.tcbUsed t = true → s.tcbUsed t = true := fun t here => ((reaped.still t).mp here).2
  have less : ∀ a id, liveId s' a = some id → liveId s a = some id := by
    intro a id here
    cases a with
    | proc p =>
      rw [liveId_proc, pcb, kernelProc, pcbUsed] at here
      exact liveId_proc.mpr here
    | thread t =>
      rw [liveId_thread, tcb, bootThread] at here
      exact liveId_thread.mpr ⟨fewer t here.1, here.2⟩
  have unheld : ∀ a, liveId s a ≠ some (s.tcb thread).tid := fun a => (safe a).2 thread used rfl
  exact ⟨sound.returned less unheld (sound.rostered.threadReaped used reaped) bitmap idTable, safe.shrink less pcb tcb fewer⟩

theorem Sound.procReaped (sound : Sound s) (safe : SafeReap s proc) (reaped : ProcReaped s proc s') :
    Sound s' ∧ SafeReap s' proc := by
  have rest := reaped.rest
  have ⟨tcb, pcb, tcbUsed, kernelProc, bootThread⟩ := reaped.kept
  have idTable : s'.idTable = Function.update s.idTable (s.pcb proc).pid 0 := by rw [rest]
  have bitmap : s'.tidBitmap = freeTid s.tidBitmap (s.pcb proc).pid := by rw [rest]
  have less : ∀ a id, liveId s' a = some id → liveId s a = some id := by
    intro a id here
    cases a with
    | proc p =>
      rw [liveId_proc, pcb, kernelProc] at here
      exact liveId_proc.mpr ⟨((reaped.still p).mp here.1).2, here.2⟩
    | thread t =>
      rw [liveId_thread, tcb, bootThread, tcbUsed] at here
      exact liveId_thread.mpr here
  have unheld : ∀ a, liveId s a ≠ some (s.pcb proc).pid := fun a => (safe a).1
  exact ⟨sound.returned less unheld (sound.rostered.procReaped reaped) bitmap idTable,
    safe.shrink less pcb tcb fun t here => tcbUsed ▸ here⟩

/-- Reaping is safe when the ids it gives back are held by zombies only. -/
theorem Sound.reaped (sound : Sound s) (safe : SafeReap s proc) (done : reapUsProcThreads s proc fuel = .ok s') :
    Sound s' := by
  induction fuel generalizing s with
  | zero => cases done
  | succ fuel ih =>
    unfold reapUsProcThreads at done
    split at done
    · cases done
      exact sound
    · rename_i thread first
      obtain ⟨middle, round, rest⟩ := Outcome.bind_eq_ok.mp done
      obtain ⟨used, rfl⟩ := sound.rostered.first_thread first
      have after : Sound middle ∧ SafeReap middle (s.tcb thread).process := by
        rcases reapUsThread_spec round with ⟨-, rfl⟩ | ⟨between, reaped, last⟩
        · exact ⟨sound, safe⟩
        · obtain ⟨sound', safe'⟩ := sound.threadReaped used safe reaped
          rcases last with ⟨rfl, -⟩ | buried
          · exact ⟨sound', safe'⟩
          · exact sound'.procReaped safe' buried
      exact ih after.1 after.2 rest

/-- The ids after `exec_elf_from_vfs` moved those of the calling thread. -/
def movedId (s : Table) (thread newproc mainthread : Ptr) : Holder → Option Nat :=
  Function.update (Function.update (Function.update (Function.update (liveId s)
    (.proc newproc) (some (s.pcb (s.tcb thread).process).pid)) (.proc (s.tcb thread).process) none)
    (.thread mainthread) (some (s.tcb thread).tid)) (.thread thread) none

theorem Registry.moved (registry : Registry (liveId s) s) {newproc mainthread : KernelPtr} {pid tid : Nat}
    (newPid : liveId s (.proc newproc) = some pid) (newTid : liveId s (.thread mainthread) = some tid)
    (oldPid : liveId s (.proc (s.tcb thread).process) = some (s.pcb (s.tcb thread).process).pid)
    (oldTid : liveId s (.thread thread) = some (s.tcb thread).tid)
    (otherProc : (s.tcb thread).process ≠ newproc) (otherThread : thread ≠ mainthread)
    (replaced : Replaced s thread newproc mainthread s') : Registry (movedId s thread newproc mainthread) s' := by
  have pidIs := (liveId_proc.mp newPid).2.2.2
  have tidIs := (liveId_thread.mp newTid).2.2.2
  have first := registry.move
    (idTableSetProc (idTableClear s pid) (s.pcb (s.tcb thread).process).pid newproc) oldPid newPid
    (fun same => otherProc (Holder.proc.inj same)) rfl
    (idLookup_proc (registry.taken _ _ oldPid).1 (Function.update_self _ _ _))
    (fun i notNew notOld => by
      simp [idTableSetProc, idTableClear, Function.update_of_ne notNew, Function.update_of_ne notOld])
  have kept : ∀ t, Function.update (Function.update (liveId s) (.proc newproc.val)
      (some (s.pcb (s.tcb thread).process).pid)) (.proc (s.tcb thread).process) none (.thread t) =
      liveId s (.thread t) := by
    intro t
    simp
  apply first.move s' ((kept thread).trans oldTid) ((kept mainthread).trans newTid)
  · exact fun same => otherThread (Holder.thread.inj same)
  · rw [replaced.rest]
    rfl
  · exact idLookup_thread (registry.taken _ _ oldTid).1 (by rw [replaced.idTable, Function.update_self])
  · intro i notNew notOld
    rw [replaced.idTable, Function.update_of_ne notNew, tidIs, Function.update_of_ne notOld, pidIs]
    rfl

variable {mainthread newproc : Ptr}

theorem Replaced.less (rostered : Rostered s) (used : s.tcbUsed thread = true)
    (replaced : Replaced s thread newproc mainthread s') (a : Holder) (id : Nat) (here : liveId s' a = some id) :
    movedId s thread newproc mainthread a = some id := by
  have rest := replaced.rest
  have kernelProc : s'.kernelProc = s.kernelProc := by rw [rest]
  have bootThread : s'.bootThread = s.bootThread := by rw [rest]
  have pcbUsed : s'.pcbUsed = s.pcbUsed := by rw [rest]
  have tcbUsed : s'.tcbUsed = s.tcbUsed := by rw [rest]
  cases a with
  | proc p =>
    rw [liveId_proc, kernelProc, pcbUsed, replaced.pcb] at here
    obtain ⟨allocated, user, alive, name⟩ := here
    have notOld : p ≠ (s.tcb thread).process := by
      rintro rfl
      rw [Function.update_self] at alive
      cases alive
    rw [Function.update_of_ne notOld] at alive name
    by_cases new : p = newproc
    · subst new
      rw [Function.update_self] at name
      simp only [movedId, ne_eq, reduceCtorEq, not_false_eq_true, Function.update_of_ne,
        Holder.proc.injEq, notOld, Function.update_self]
      exact congrArg some name
    · rw [Function.update_of_ne new] at alive name
      simp only [movedId, ne_eq, reduceCtorEq, not_false_eq_true, Function.update_of_ne,
        Holder.proc.injEq, notOld, new]
      exact liveId_proc.mpr ⟨allocated, user, alive, name⟩
  | thread t =>
    rw [liveId_thread, bootThread, tcbUsed, replaced.tid] at here
    obtain ⟨allocated, user, alive, name⟩ := here
    have notOld : t ≠ thread := by
      rintro rfl
      obtain ⟨ts, chain, members⟩ := rostered.roster (s.tcb t).process
      exact alive (replaced.ended ts chain t ((members t).mpr ⟨used, rfl⟩))
    by_cases new : t = mainthread
    · subst new
      rw [if_pos rfl] at name
      simp [movedId, notOld, name]
    · rw [if_neg new] at name
      simp only [movedId, ne_eq, reduceCtorEq, not_false_eq_true, Function.update_of_ne,
        Holder.thread.injEq, notOld, new]
      refine liveId_thread.mpr ⟨allocated, user, fun dead => ?_, name⟩
      rcases replaced.others t with same | zombie
      · exact alive (same.trans dead)
      · exact alive zombie

theorem Rostered.replaced (rostered : Rostered s) (replaced : Replaced s thread newproc mainthread s') : Rostered s' := by
  have rest := replaced.rest
  refine rostered.congr (by rw [rest]) (by rw [rest]) (by rw [rest]) (fun t _ => replaced.process t) ?_
    (by rw [rest]) (by rw [rest])
  intro t here dead
  by_cases mine : (s.tcb t).process = (s.tcb thread).process
  · obtain ⟨ts, chain, members⟩ := rostered.roster (s.tcb thread).process
    exact replaced.ended ts chain t ((members t).mpr ⟨here, mine⟩)
  · rw [replaced.pcb, Function.update_of_ne mine, Function.update_apply] at dead
    have before : (s.pcb (s.tcb t).process).zombie = true := by
      split at dead
      · rename_i new
        rw [new]
        exact dead
      · exact dead
    rcases replaced.others t with same | zombie
    · rw [same]
      exact rostered.zombies t here before
    · exact zombie

theorem Sound.replaced (sound : Sound s) {newproc mainthread : KernelPtr} {pid tid : Nat}
    (newPid : liveId s (.proc newproc) = some pid) (newTid : liveId s (.thread mainthread) = some tid)
    (owner : (s.tcb mainthread).process = newproc) (used : s.tcbUsed thread = true)
    (running : (s.tcb thread).state ≠ .zombie) (user : (s.tcb thread).process ≠ s.kernelProc)
    (otherProc : (s.tcb thread).process ≠ newproc) (replaced : Replaced s thread newproc mainthread s') : Sound s' := by
  have otherThread : thread ≠ mainthread.val := by
    intro same
    rw [same] at otherProc
    exact otherProc owner
  have notBoot : thread ≠ s.bootThread := by
    intro same
    rw [same] at user
    exact user sound.rostered.bootProcess
  have alive : (s.pcb (s.tcb thread).process).zombie = false := by
    by_contra dead
    exact running (sound.rostered.zombies thread used (by simpa using dead))
  have oldPid := liveId_proc.mpr ⟨sound.rostered.process thread used, user, alive, rfl⟩
  have oldTid := liveId_thread.mpr ⟨used, notBoot, running, rfl⟩
  have moved := sound.ids.moved newPid newTid oldPid oldTid otherProc otherThread replaced
  exact ⟨moved.shrink (replaced.less sound.rostered used) (fun _ _ _ => rfl) (fun _ _ _ => rfl),
    sound.rostered.replaced replaced⟩

theorem Sound.exec (sound : Sound s) {image : Image} {result : ExecResult} (caller : Active s thread)
    (fresh : supply.Fresh s) (done : execElf fuel s thread image supply = .ok (result, s')) : Sound s' := by
  unfold execElf at done
  split at done <;> rename_i loaded <;>
    rcases loadElf_spec fresh loaded with
      ⟨same, aborted⟩ | ⟨proc, main, pid, tid, state, -, running, born, same⟩
  · cases done
    exact sound.aborted aborted
  · cases done
    exact sound.born running born
  · cases same
  · cases done
    exact sound.born running born
  · cases same
  · rename_i newpid middle
    have newpidIs : newpid = pid := by simpa using same
    have sound' := sound.born running born
    obtain ⟨-, kernelProc, -⟩ := born.fixed
    have otherThread : thread ≠ main.val := by
      intro same
      have used := caller.used
      rw [same, born.newTcb] at used
      cases used
    have tcb : middle.tcb thread = s.tcb thread := by
      rw [born.tcb, Function.update_of_ne otherThread]
    have otherProc : (s.tcb thread).process ≠ proc.val := sound.rostered.enlisted.no_threads born.newPcb _ caller.used
    rw [newpidIs, sound'.ids.found _ _ (born.liveProc sound.rostered)] at done
    replace done : replaceProcess fuel middle thread proc = .ok (result, s') := done
    have alive : (middle.pcb (middle.tcb thread).process).zombie = false := by
      rw [tcb, born.pcb, Function.update_of_ne otherProc]
      by_contra dead
      have zombie := sound.rostered.zombies thread caller.used (by simpa using dead)
      rw [caller.running] at zombie
      cases zombie
    have user : (middle.tcb thread).process ≠ middle.kernelProc := by
      rw [tcb, kernelProc]
      exact caller.user
    have apart : (middle.tcb thread).process ≠ proc.val := by
      rw [tcb]
      exact otherProc
    obtain ⟨-, replaced⟩ := replaceProcess_spec born.first apart user alive done
    apply sound'.replaced (born.liveProc sound.rostered) (born.liveThread sound.rostered running) _ _ _ user
      apart replaced
    · rw [born.tcb, Function.update_self]
    · rw [born.tcbUsed, Function.update_of_ne otherThread]
      exact caller.used
    · rw [tcb, caller.running]
      decide

end CreeperKernel.Sched
