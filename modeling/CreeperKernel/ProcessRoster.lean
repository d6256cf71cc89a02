import CreeperKernel.FallibleLoops
import CreeperKernel.ProcessBirth

namespace CreeperKernel.Sched

open IntrusiveLists FallibleLoops

variable {s s' : Table} {proc thread : Ptr}

/-- The thread list of each process holds its allocated threads. -/
structure Enlisted (s : Table) : Prop where
  roster : ∀ p, ∃ ts, Chain s.threads (.inl p) ts ∧
    ∀ t, t ∈ ts ↔ s.tcbUsed t = true ∧ (s.tcb t).process = p
  process : ∀ t, s.tcbUsed t = true → s.pcbUsed (s.tcb t).process = true
  kernel : s.pcbUsed s.kernelProc = true

/-- The thread lists of a system whose boot thread lives and whose zombie processes
get no new threads. -/
structure Rostered (s : Table) : Prop where
  roster : ∀ p, ∃ ts, Chain s.threads (.inl p) ts ∧
    ∀ t, t ∈ ts ↔ s.tcbUsed t = true ∧ (s.tcb t).process = p
  process : ∀ t, s.tcbUsed t = true → s.pcbUsed (s.tcb t).process = true
  zombies : ∀ t, s.tcbUsed t = true → (s.pcb (s.tcb t).process).zombie = true →
    (s.tcb t).state = .zombie
  kernel : s.pcbUsed s.kernelProc = true
  boot : s.tcbUsed s.bootThread = true
  bootProcess : (s.tcb s.bootThread).process = s.kernelProc

theorem Rostered.enlisted (rostered : Rostered s) : Enlisted s :=
  ⟨rostered.roster, rostered.process, rostered.kernel⟩

theorem Enlisted.congr (enlisted : Enlisted s) (threads : s'.threads = s.threads)
    (tcbUsed : s'.tcbUsed = s.tcbUsed) (pcbUsed : s'.pcbUsed = s.pcbUsed)
    (process : ∀ t, s.tcbUsed t = true → (s'.tcb t).process = (s.tcb t).process)
    (kernelProc : s'.kernelProc = s.kernelProc) : Enlisted s' := by
  refine ⟨fun p => ?_, ?_, ?_⟩
  · obtain ⟨ts, chain, members⟩ := enlisted.roster p
    refine ⟨ts, by rw [threads]; exact chain, fun t => ?_⟩
    rw [tcbUsed, members t]
    constructor
    · rintro ⟨used, here⟩
      exact ⟨used, (process t used).trans here⟩
    · rintro ⟨used, here⟩
      exact ⟨used, (process t used).symm.trans here⟩
  · intro t used
    rw [tcbUsed] at used
    rw [pcbUsed, process t used]
    exact enlisted.process t used
  · rw [pcbUsed, kernelProc]
    exact enlisted.kernel

theorem Rostered.congr (rostered : Rostered s) (threads : s'.threads = s.threads)
    (tcbUsed : s'.tcbUsed = s.tcbUsed) (pcbUsed : s'.pcbUsed = s.pcbUsed)
    (process : ∀ t, s.tcbUsed t = true → (s'.tcb t).process = (s.tcb t).process)
    (zombies : ∀ t, s.tcbUsed t = true → (s'.pcb (s.tcb t).process).zombie = true → (s'.tcb t).state = .zombie)
    (kernelProc : s'.kernelProc = s.kernelProc) (bootThread : s'.bootThread = s.bootThread) : Rostered s' := by
  have lists := rostered.enlisted.congr threads tcbUsed pcbUsed process kernelProc
  refine ⟨lists.roster, lists.process, ?_, lists.kernel, ?_, ?_⟩
  · intro t used zombie
    rw [tcbUsed] at used
    rw [process t used] at zombie
    exact zombies t used zombie
  · rw [tcbUsed, bootThread]
    exact rostered.boot
  · rw [bootThread, process _ rostered.boot, kernelProc]
    exact rostered.bootProcess

theorem Enlisted.aborted (enlisted : Enlisted s) (aborted : Aborted s s') : Enlisted s' := by
  obtain ⟨-, kernelProc, -⟩ := aborted.fixed
  have tcb : ∀ t, s'.tcbUsed t = true → s'.tcb t = s.tcb t := by
    intro t used
    rw [aborted.tcbUsed] at used
    exact aborted.tcb t used
  refine ⟨fun p => ?_, ?_, ?_⟩
  · obtain ⟨ts, chain, members⟩ := enlisted.roster p
    refine ⟨ts, aborted.threads p ts chain (fun t member => ((members t).mp member).1) ?_, ?_⟩
    · intro unused
      apply List.eq_nil_iff_forall_not_mem.mpr
      intro t member
      obtain ⟨used, rfl⟩ := (members t).mp member
      rw [enlisted.process t used] at unused
      cases unused
    · intro t
      rw [members t]
      constructor
      · rintro ⟨used, here⟩
        rw [aborted.tcbUsed, aborted.tcb t used]
        exact ⟨used, here⟩
      · rintro ⟨used, here⟩
        rw [tcb t used] at here
        rw [aborted.tcbUsed] at used
        exact ⟨used, here⟩
  · intro t used
    rw [tcb t used, aborted.pcbUsed]
    rw [aborted.tcbUsed] at used
    exact enlisted.process t used
  · rw [aborted.pcbUsed, kernelProc]
    exact enlisted.kernel

theorem Rostered.aborted (rostered : Rostered s) (aborted : Aborted s s') : Rostered s' := by
  obtain ⟨-, kernelProc, bootThread⟩ := aborted.fixed
  have lists := rostered.enlisted.aborted aborted
  refine ⟨lists.roster, lists.process, ?_, lists.kernel, ?_, ?_⟩
  · intro t used zombie
    rw [aborted.tcbUsed] at used
    rw [aborted.tcb t used] at zombie ⊢
    rw [aborted.pcb _ (rostered.process t used)] at zombie
    exact rostered.zombies t used zombie
  · rw [aborted.tcbUsed, bootThread]
    exact rostered.boot
  · rw [bootThread, aborted.tcb _ rostered.boot, kernelProc]
    exact rostered.bootProcess

theorem Enlisted.no_threads (enlisted : Enlisted s) (unused : s.pcbUsed proc = false) (t : Ptr)
    (used : s.tcbUsed t = true) : (s.tcb t).process ≠ proc := by
  intro same
  have here := enlisted.process t used
  rw [same, unused] at here
  cases here

theorem Rostered.first_thread (rostered : Rostered s) (first : s.threads.first proc = some thread) :
    s.tcbUsed thread = true ∧ (s.tcb thread).process = proc := by
  obtain ⟨ts, chain, members⟩ := rostered.roster proc
  cases ts with
  | nil =>
    have empty : s.threads.first proc = none := chain
    rw [empty] at first
    cases first
  | cons x ts =>
    have here : s.threads.first proc = some x := chain.1
    rw [here] at first
    cases first
    exact (members thread).mp List.mem_cons_self

theorem Enlisted.no_thread_of_first (enlisted : Enlisted s) (empty : s.threads.first proc = none) (t : Ptr)
    (used : s.tcbUsed t = true) : (s.tcb t).process ≠ proc := by
  intro mine
  obtain ⟨ts, chain, members⟩ := enlisted.roster proc
  have here := (members t).mpr ⟨used, mine⟩
  cases ts with
  | nil => exact absurd here List.not_mem_nil
  | cons x ts =>
    have first : s.threads.first proc = some x := chain.1
    rw [empty] at first
    cases first

section Birth

variable {parent : Option Ptr} {state : ThreadState} {proc thread : KernelPtr} {pid tid : Nat}

section Old

variable (born : Born s parent state proc thread pid tid s')
include born

theorem Born.old_thread {t : Ptr}
    (used : s.tcbUsed t = true) : t ≠ thread.val ∧ s'.tcb t = s.tcb t := by
  have other : t ≠ thread.val := by
    intro same
    rw [same, born.newTcb] at used
    cases used
  exact ⟨other, by rw [born.tcb, Function.update_of_ne other]⟩

theorem Born.old_process {p : Ptr}
    (used : s.pcbUsed p = true) : p ≠ proc.val ∧ s'.pcbUsed p = true ∧ s'.pcb p = s.pcb p := by
  have other : p ≠ proc.val := by
    intro same
    rw [same, born.newPcb] at used
    cases used
  rw [born.pcbUsed, born.pcb, Function.update_of_ne other, Function.update_of_ne other]
  exact ⟨other, used, rfl⟩

theorem Born.used_thread (t : Ptr) :
    s'.tcbUsed t = true ↔ t = thread.val ∨ s.tcbUsed t = true := by
  rw [born.tcbUsed, Function.update_apply]
  split
  · rename_i same
    simp [same]
  · rename_i apart
    simp [apart]

end Old

theorem Enlisted.born (enlisted : Enlisted s) (born : Born s parent state proc thread pid tid s') : Enlisted s' := by
  obtain ⟨-, kernelProc, -⟩ := born.fixed
  have newTcb : s'.tcb thread = ⟨tid, state, 0, proc⟩ := by
    rw [born.tcb, Function.update_self]
  refine ⟨fun p => ?_, ?_, ?_⟩
  · rw [born.threads]
    obtain ⟨ts, chain, members⟩ := enlisted.roster p
    have outside : thread.val ∉ ts := fun member => (born.old_thread ((members _).mp member).1).1 rfl
    by_cases same : p = proc.val
    · subst same
      refine ⟨[thread.val], ((chain_clearHead _ _).clearNode List.not_mem_nil).addHead
        List.not_mem_nil, fun t => ?_⟩
      rw [List.mem_singleton, born.used_thread]
      constructor
      · rintro rfl
        exact ⟨.inl rfl, by rw [newTcb]⟩
      · rintro ⟨rfl | old, here⟩
        · rfl
        · rw [(born.old_thread old).2] at here
          exact absurd here (enlisted.no_threads born.newPcb t old)
    · refine ⟨ts, ?_, fun t => ?_⟩
      · refine ((chain.clearHead same).clearNode outside).addHead_other same outside ?_
        intro x _
        simp [clearNode, clearHead, Links.set, Links.setPprev]
      · rw [members t, born.used_thread]
        constructor
        · rintro ⟨old, here⟩
          exact ⟨.inr old, by rw [(born.old_thread old).2]; exact here⟩
        · rintro ⟨rfl | old, here⟩
          · rw [newTcb] at here
            exact absurd here.symm same
          · rw [(born.old_thread old).2] at here
            exact ⟨old, here⟩
  · intro t here
    rcases (born.used_thread t).mp here with rfl | old
    · rw [newTcb, born.pcbUsed, Function.update_self]
    · rw [(born.old_thread old).2]
      exact (born.old_process (enlisted.process t old)).2.1
  · rw [kernelProc]
    exact (born.old_process enlisted.kernel).2.1

theorem Rostered.born (rostered : Rostered s) (born : Born s parent state proc thread pid tid s') : Rostered s' := by
  obtain ⟨-, kernelProc, bootThread⟩ := born.fixed
  have lists := rostered.enlisted.born born
  refine ⟨lists.roster, lists.process, ?_, lists.kernel, ?_, ?_⟩
  · intro t here zombie
    rcases (born.used_thread t).mp here with rfl | old
    · rw [born.tcb, born.pcb, Function.update_self, Function.update_self] at zombie
      cases zombie
    · rw [(born.old_thread old).2] at zombie ⊢
      rw [(born.old_process (rostered.process t old)).2.2] at zombie
      exact rostered.zombies t old zombie
  · rw [bootThread]
    exact (born.used_thread _).mpr (.inr rostered.boot)
  · rw [bootThread, (born.old_thread rostered.boot).2, kernelProc]
    exact rostered.bootProcess

end Birth

/-- What `usproc_exit` does to a running process. -/
structure Exited (s : Table) (proc : Ptr) (exitCode : Int) (s' : Table) : Prop where
  pcb : s'.pcb = Function.update s.pcb proc { s.pcb proc with exitCode, zombie := true }
  tcb : ∀ t, (s'.tcb t).tid = (s.tcb t).tid ∧ (s'.tcb t).process = (s.tcb t).process
  ended : ∀ ts, Chain s.threads (.inl proc) ts → ∀ t ∈ ts, (s'.tcb t).state = .zombie
  others : ∀ t, (s'.tcb t).state = (s.tcb t).state ∨ (s'.tcb t).state = .zombie
  rest : s' = { s with pcb := s'.pcb, tcb := s'.tcb, runQueue := s'.runQueue }

variable {exitCode : Int}

theorem usthreadExitLocked_spec (done : usthreadExitLocked s thread exitCode = .ok s') :
    ∃ runQueue, s' = { s with
      runQueue
      tcb := Function.update s.tcb thread { s.tcb thread with exitCode, state := .zombie } } := by
  obtain ⟨runQueue, -, same⟩ := Outcome.bind_eq_ok.mp done
  cases same
  refine ⟨runQueue, ?_⟩
  simp [Table.setTcb]

variable {current : Ptr}

theorem endThreads_spec {ts : List Ptr}
    (done : ts.foldlM (fun s t => if (s.tcb t).state = .zombie then pure s else usthreadExitLocked s t (if t = current then exitCode else -1)) s = .ok s')
    :
    (∀ t, (s'.tcb t).tid = (s.tcb t).tid ∧ (s'.tcb t).process = (s.tcb t).process) ∧
      (∀ t ∈ ts, (s'.tcb t).state = .zombie) ∧
      (∀ t, (s'.tcb t).state = (s.tcb t).state ∨ (s'.tcb t).state = .zombie) ∧
      s' = { s with tcb := s'.tcb, runQueue := s'.runQueue } := by
  induction ts generalizing s with
  | nil =>
    cases done
    exact ⟨fun _ => ⟨rfl, rfl⟩, fun t member => absurd member List.not_mem_nil, fun _ => .inl rfl, rfl⟩
  | cons x ts ih =>
    rw [List.foldlM_cons] at done
    obtain ⟨middle, first, others⟩ := Outcome.bind_eq_ok.mp done
    obtain ⟨names, ended, states, rest⟩ := ih others
    have round : (middle.tcb x).state = .zombie ∧
        (∀ t, (middle.tcb t).tid = (s.tcb t).tid ∧ (middle.tcb t).process = (s.tcb t).process) ∧
        (∀ t, (middle.tcb t).state = (s.tcb t).state ∨ (middle.tcb t).state = .zombie) ∧
        middle = { s with tcb := middle.tcb, runQueue := middle.runQueue } := by
      split at first
      · rename_i dead
        cases first
        exact ⟨dead, fun _ => ⟨rfl, rfl⟩, fun _ => .inl rfl, rfl⟩
      · obtain ⟨runQueue, rfl⟩ := usthreadExitLocked_spec first
        refine ⟨by simp, fun t => ?_, fun t => ?_, rfl⟩
        · by_cases same : t = x
          · subst same
            simp
          · simp [Function.update_of_ne same]
        · by_cases same : t = x
          · subst same
            simp
          · simp [Function.update_of_ne same]
    obtain ⟨dead, names', states', rest'⟩ := round
    refine ⟨fun t => ?_, fun t member => ?_, fun t => ?_, ?_⟩
    · exact ⟨(names t).1.trans (names' t).1, (names t).2.trans (names' t).2⟩
    · rcases List.mem_cons.mp member with rfl | later
      · rcases states t with same | zombie
        · rw [same]
          exact dead
        · exact zombie
      · exact ended t later
    · rcases states t with same | zombie
      · rw [same]
        exact states' t
      · exact .inr zombie
    · rw [rest, rest']

variable {fuel : Nat}

theorem nodes_eq {η : Type} {l : Links η Ptr} {h : η} {ns found : List Ptr} (chain : Chain l (.inl h) ns)
    (done : nodes l fuel h = .ok found) : found = ns := by
  unfold nodes at done
  split at done
  · cases done
  · rename_i walked
    cases done
    exact chain.walk_eq walked

theorem usprocExit_spec (done : usprocExit fuel current s proc exitCode = .ok s') :
    ((proc = s.kernelProc ∨ (s.pcb proc).zombie = true) ∧ s' = s) ∨
      (proc ≠ s.kernelProc ∧ (s.pcb proc).zombie = false ∧ Exited s proc exitCode s') := by
  unfold usprocExit at done
  split at done
  · rename_i kernel
    cases done
    exact .inl ⟨.inl kernel, rfl⟩
  · rename_i user
    split at done
    · rename_i dead
      cases done
      exact .inl ⟨.inr dead, rfl⟩
    · rename_i alive
      obtain ⟨ts, listed, done⟩ := Outcome.bind_eq_ok.mp done
      obtain ⟨middle, ended, done⟩ := Outcome.bind_eq_ok.mp done
      cases done
      obtain ⟨names, dead, states, rest⟩ := endThreads_spec ended
      have pcb : middle.pcb = s.pcb := by rw [rest]
      refine .inr ⟨user, by simpa using alive, ?_, names, ?_, states, ?_⟩
      · simp [Table.setPcb, pcb]
      · intro found chain t member
        rw [← nodes_eq chain listed] at member
        exact dead t member
      · show ({ middle with pcb := _ } : Table) = _
        rw [rest]
        rfl

theorem Rostered.exited (rostered : Rostered s) (exited : Exited s proc exitCode s') : Rostered s' := by
  have rest := exited.rest
  refine rostered.congr (by rw [rest]) (by rw [rest]) (by rw [rest]) (fun t _ => (exited.tcb t).2) ?_
    (by rw [rest]) (by rw [rest])
  intro t used zombie
  by_cases mine : (s.tcb t).process = proc
  · obtain ⟨ts, chain, members⟩ := rostered.roster proc
    exact exited.ended ts chain t ((members t).mpr ⟨used, mine⟩)
  · rw [exited.pcb, Function.update_of_ne mine] at zombie
    rcases exited.others t with same | dead
    · rw [same]
      exact rostered.zombies t used zombie
    · exact dead

structure ThreadReaped (s : Table) (thread : Ptr) (s' : Table) : Prop where
  zombie : (s.tcb thread).state = .zombie
  user : (s.tcb thread).process ≠ s.kernelProc
  removed : del s.threads thread = some s'.threads
  rest : s' = { s with
    threads := s'.threads
    idTable := Function.update s.idTable (s.tcb thread).tid 0
    tidBitmap := freeTid s.tidBitmap (s.tcb thread).tid
    tcbUsed := Function.update s.tcbUsed thread false }

structure ProcReaped (s : Table) (proc : Ptr) (s' : Table) : Prop where
  zombie : (s.pcb proc).zombie = true
  user : proc ≠ s.kernelProc
  empty : s.threads.first proc = none
  orphan : (s.pcb proc).parent = none → s'.children = s.children
  child : (s.pcb proc).parent ≠ none → del s.children proc = some s'.children
  removed : del s.processes proc = some s'.processes
  rest : s' = { s with
    processes := s'.processes
    children := s'.children
    processListDepth := s.processListDepth - 1
    idTable := Function.update s.idTable (s.pcb proc).pid 0
    tidBitmap := freeTid s.tidBitmap (s.pcb proc).pid
    pcbUsed := Function.update s.pcbUsed proc false }

section Reaped

variable {s s' : Table} {thread proc : Ptr}

theorem ThreadReaped.kept (reaped : ThreadReaped s thread s') : s'.tcb = s.tcb ∧ s'.pcb = s.pcb ∧
    s'.kernelProc = s.kernelProc ∧ s'.bootThread = s.bootThread := by
  refine ⟨?_, ?_, ?_, ?_⟩ <;> rw [reaped.rest]

theorem ThreadReaped.still (reaped : ThreadReaped s thread s') (t : Ptr) :
    s'.tcbUsed t = true ↔ t ≠ thread ∧ s.tcbUsed t = true := by
  rw [reaped.rest]
  by_cases same : t = thread
  · simp [same]
  · simp [same]

theorem ProcReaped.kept (reaped : ProcReaped s proc s') : s'.tcb = s.tcb ∧ s'.pcb = s.pcb ∧ s'.tcbUsed = s.tcbUsed ∧
    s'.kernelProc = s.kernelProc ∧ s'.bootThread = s.bootThread := by
  refine ⟨?_, ?_, ?_, ?_, ?_⟩ <;> rw [reaped.rest]

theorem ProcReaped.still (reaped : ProcReaped s proc s') (p : Ptr) :
    s'.pcbUsed p = true ↔ p ≠ proc ∧ s.pcbUsed p = true := by
  rw [reaped.rest]
  by_cases same : p = proc
  · simp [same]
  · simp [same]

end Reaped

theorem unlink_eq_ok {η : Type} [DecidableEq η] {l l' : Links η Ptr} {n : Ptr}
    (done : unlink l n = .ok l') : del l n = some l' := by
  unfold unlink at done
  split at done
  · cases done
  · cases done
    assumption

/-- Nothing happens to the kernel process, a live process, or one that has threads left. -/
theorem reapUsProc_spec (done : reapUsProc s proc = .ok s') :
    ((proc = s.kernelProc ∨ (s.pcb proc).zombie = false ∨ s.threads.first proc ≠ none) ∧ s' = s) ∨ ProcReaped s proc s' := by
  unfold reapUsProc at done
  split at done
  · rename_i kernel
    cases done
    exact .inl ⟨.inl kernel, rfl⟩
  · rename_i user
    split at done
    · rename_i alive
      cases done
      exact .inl ⟨.inr (.inl (by simpa using alive)), rfl⟩
    · rename_i zombie
      split at done
      · rename_i staffed
        cases done
        exact .inl ⟨.inr (.inr (Option.isSome_iff_ne_none.mp staffed)), rfl⟩
      · rename_i empty
        obtain ⟨processes, taken, done⟩ := Outcome.bind_eq_ok.mp done
        obtain ⟨middle, linked, done⟩ := Outcome.bind_eq_ok.mp done
        cases done
        right
        unfold unlinkSibling at linked
        split at linked
        · rename_i parent
          obtain ⟨children, removed, same⟩ := Outcome.bind_eq_ok.mp linked
          cases same
          exact ⟨by simpa using zombie, user, by simpa using empty,
            fun none => by simp [none] at parent, fun _ => unlink_eq_ok removed, unlink_eq_ok taken, rfl⟩
        · rename_i parent
          cases linked
          exact ⟨by simpa using zombie, user, by simpa using empty, fun _ => rfl,
            fun some => absurd (by simpa using parent) some, unlink_eq_ok taken, rfl⟩

/-- A zombie thread is removed, and with the last one its process. -/
theorem reapUsThread_spec (done : reapUsThread s thread = .ok s') :
    (((s.tcb thread).process = s.kernelProc ∨ (s.tcb thread).state ≠ .zombie) ∧ s' = s) ∨
      ∃ middle, ThreadReaped s thread middle ∧ ((s' = middle ∧ ((middle.pcb (s.tcb thread).process).zombie = false ∨
          middle.threads.first (s.tcb thread).process ≠ none)) ∨ ProcReaped middle (s.tcb thread).process s') := by
  unfold reapUsThread at done
  dsimp only at done
  split at done
  · rename_i kernel
    cases done
    exact .inl ⟨.inl kernel, rfl⟩
  · rename_i user
    split at done
    · rename_i alive
      cases done
      exact .inl ⟨.inr alive, rfl⟩
    · rename_i zombie
      obtain ⟨threads, removed, done⟩ := Outcome.bind_eq_ok.mp done
      refine .inr ⟨((idTableClear { s with threads } (s.tcb thread).tid).freeTid (s.tcb thread).tid).freeTcb
        thread, ⟨by simpa using zombie, user, unlink_eq_ok removed, rfl⟩, ?_⟩
      split at done
      · rcases reapUsProc_spec done with ⟨kernel | rest, same⟩ | reaped
        · exact absurd kernel user
        · exact .inl ⟨same, rest⟩
        · exact .inr reaped
      · rename_i staffed
        cases done
        refine .inl ⟨rfl, ?_⟩
        by_cases dead : (s.pcb (s.tcb thread).process).zombie = true
        · right
          intro empty
          exact staffed ⟨Option.isNone_iff_eq_none.mpr empty, dead⟩
        · left
          exact Bool.eq_false_iff.mpr dead

theorem Enlisted.dismissed (enlisted : Enlisted s) (used : s.tcbUsed thread = true)
    (removed : del s.threads thread = some s'.threads) (tcb : s'.tcb = s.tcb)
    (tcbUsed : s'.tcbUsed = Function.update s.tcbUsed thread false) (pcbUsed : s'.pcbUsed = s.pcbUsed)
    (kernelProc : s'.kernelProc = s.kernelProc) : Enlisted s' := by
  have still : ∀ t, s'.tcbUsed t = true ↔ t ≠ thread ∧ s.tcbUsed t = true := by
    intro t
    rw [tcbUsed, Function.update_apply]
    split
    · rename_i same
      simp [same]
    · rename_i other
      simp [other]
  refine ⟨fun p => ?_, ?_, ?_⟩
  · obtain ⟨own, list, mine⟩ := enlisted.roster (s.tcb thread).process
    have here : thread ∈ own := (mine thread).mpr ⟨used, rfl⟩
    obtain ⟨ts, chain, members⟩ := enlisted.roster p
    by_cases same : p = (s.tcb thread).process
    · subst same
      obtain ⟨l, gone, after⟩ := chain.del_mem ((members thread).mpr ⟨used, rfl⟩)
      cases gone.symm.trans removed
      refine ⟨ts.erase thread, after, fun t => ?_⟩
      rw [chain.nodup.mem_erase_iff, members t, still, tcb, and_assoc]
    · refine ⟨ts, chain.del_other list same here removed, fun t => ?_⟩
      rw [members t, still, tcb]
      constructor
      · rintro ⟨old, inside⟩
        refine ⟨⟨fun isThread => ?_, old⟩, inside⟩
        rw [isThread] at inside
        exact same inside.symm
      · rintro ⟨⟨-, old⟩, inside⟩
        exact ⟨old, inside⟩
  · intro t here
    rw [tcb, pcbUsed]
    exact enlisted.process t ((still t).mp here).2
  · rw [pcbUsed, kernelProc]
    exact enlisted.kernel

theorem Enlisted.threadReaped (enlisted : Enlisted s) (used : s.tcbUsed thread = true)
    (reaped : ThreadReaped s thread s') : Enlisted s' := by
  have rest := reaped.rest
  apply enlisted.dismissed used reaped.removed <;> rw [rest]

theorem Rostered.threadReaped (rostered : Rostered s) (used : s.tcbUsed thread = true)
    (reaped : ThreadReaped s thread s') : Rostered s' := by
  have ⟨tcb, pcb, kernelProc, bootThread⟩ := reaped.kept
  have notBoot : s.bootThread ≠ thread := by
    intro same
    apply reaped.user
    rw [← same]
    exact rostered.bootProcess
  have lists := rostered.enlisted.threadReaped used reaped
  refine ⟨lists.roster, lists.process, ?_, lists.kernel, ?_, ?_⟩
  · intro t here
    rw [tcb, pcb]
    exact rostered.zombies t ((reaped.still t).mp here).2
  · rw [reaped.still, bootThread]
    exact ⟨notBoot, rostered.boot⟩
  · rw [bootThread, tcb, kernelProc]
    exact rostered.bootProcess

theorem Enlisted.procReaped (enlisted : Enlisted s) (reaped : ProcReaped s proc s') : Enlisted s' := by
  have ⟨tcb, _, tcbUsed, kernelProc, _⟩ := reaped.kept
  have threads : s'.threads = s.threads := by rw [reaped.rest]
  refine ⟨fun p => ?_, ?_, ?_⟩
  · rw [threads, tcbUsed, tcb]
    exact enlisted.roster p
  · intro t used
    rw [tcbUsed] at used
    rw [tcb, reaped.still]
    exact ⟨enlisted.no_thread_of_first reaped.empty t used, enlisted.process t used⟩
  · rw [kernelProc, reaped.still]
    exact ⟨Ne.symm reaped.user, enlisted.kernel⟩

theorem Rostered.procReaped (rostered : Rostered s) (reaped : ProcReaped s proc s') : Rostered s' := by
  have ⟨tcb, pcb, tcbUsed, kernelProc, bootThread⟩ := reaped.kept
  have lists := rostered.enlisted.procReaped reaped
  refine ⟨lists.roster, lists.process, ?_, lists.kernel, ?_, ?_⟩
  · rw [tcbUsed, tcb, pcb]
    exact rostered.zombies
  · rw [tcbUsed, bootThread]
    exact rostered.boot
  · rw [bootThread, tcb, kernelProc]
    exact rostered.bootProcess

end CreeperKernel.Sched
