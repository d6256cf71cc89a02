import CreeperKernel.ThreadCalls

namespace CreeperKernel.Sched

open IntrusiveLists
open Relation (ReflTransGen)

variable {s s' : Table} {proc thread : Ptr} {call : LifeCall}

variable {state : ThreadState}

theorem Enlisted.recruited (enlisted : Enlisted s) (known : s.pcbUsed proc = true) {thread : KernelPtr} {tid : Nat}
    (recruited : Recruited s proc state thread tid s') : Enlisted s' := by
  have rest := recruited.rest
  have tcb : s'.tcb = Function.update s.tcb thread ⟨tid, state, 0, proc⟩ := by rw [rest]
  have tcbUsed : s'.tcbUsed = Function.update s.tcbUsed thread true := by rw [rest]
  have pcbUsed : s'.pcbUsed = s.pcbUsed := by rw [rest]
  have threads : s'.threads = addHead (clearNode s.threads thread) thread proc := by rw [rest]
  have other : ∀ t, s.tcbUsed t = true → t ≠ thread.val := by
    intro t used same
    rw [same, recruited.newTcb] at used
    cases used
  have outside : ∀ (p : Ptr) (ts : List Ptr), (∀ t, t ∈ ts ↔ s.tcbUsed t = true ∧ (s.tcb t).process = p) → thread.val ∉ ts :=
    fun p ts members member => other _ ((members _).mp member).1 rfl
  refine ⟨fun p => ?_, ?_, ?_⟩
  · obtain ⟨ts, chain, members⟩ := enlisted.roster p
    have cleared := chain.clearNode (outside p ts members)
    rw [threads, tcbUsed, tcb]
    by_cases mine : p = proc
    · subst mine
      refine ⟨thread.val :: ts, cleared.addHead (outside p ts members), fun t => ?_⟩
      rw [List.mem_cons, members t]
      by_cases new : t = thread.val
      · subst new
        simp
      · rw [Function.update_of_ne new, Function.update_of_ne new]
        exact or_iff_right new
    · obtain ⟨own, list, mates⟩ := enlisted.roster proc
      have list' := list.clearNode (outside proc own mates)
      refine ⟨ts, cleared.addHead_other mine (outside p ts members) (cleared.first_apart list' mine),
        fun t => ?_⟩
      rw [members t]
      by_cases new : t = thread.val
      · subst new
        simp [recruited.newTcb, Ne.symm mine]
      · rw [Function.update_of_ne new, Function.update_of_ne new]
  · intro t used
    rw [tcbUsed, Function.update_apply] at used
    rw [pcbUsed, tcb, Function.update_apply]
    split at used
    · rename_i new
      rw [if_pos new]
      exact known
    · rename_i old
      rw [if_neg old]
      exact enlisted.process t used
  · rw [rest]
    exact enlisted.kernel

variable {exitCode : Int}

theorem Enlisted.threadExited (enlisted : Enlisted s) (exited : ThreadExited s thread exitCode s') : Enlisted s' := by
  have rest := exited.rest
  have process : ∀ t, (s'.tcb t).process = (s.tcb t).process := by
    intro t
    rw [rest]
    dsimp only
    rw [Function.update_apply]
    split
    · rename_i same
      rw [same]
    · rfl
  apply enlisted.congr _ _ _ (fun t _ => process t)
  all_goals rw [rest]

/-- The call does not start a thread as a zombie. -/
def LifeCall.StartsAlive : LifeCall → Prop
  | .newThread _ startingState _ => startingState &&& tcbStateZombie = 0
  | _ => True

theorem ofBits_ne_zombie {bits : BitVec 16} (clear : bits &&& tcbStateZombie = 0) : ThreadState.ofBits bits ≠ .zombie := by
  unfold ThreadState.ofBits
  rw [if_neg (not_not.mpr clear)]
  split <;> simp

/-- The process that the call takes away: `reap_us_proc` a zombie without threads, and
`reap_us_thread` the zombie whose last thread it takes. -/
def LifeCall.reaped (s : Table) : LifeCall → Option Ptr
  | .reapUsProc proc =>
    if proc ≠ s.kernelProc ∧ (s.pcb proc).zombie = true ∧ s.threads.first proc = none then some proc else none
  | .reapUsThread thread =>
    let proc := (s.tcb thread).process
    if proc ≠ s.kernelProc ∧ (s.tcb thread).state = .zombie ∧ (s.pcb proc).zombie = true ∧
      s.threads.first proc = some thread ∧ s.threads.next thread = none then some proc else none
  | _ => none

/-- No call takes away a process that still has children. -/
def Childless (s : Table) (call : LifeCall) : Prop :=
  ∀ p, call.reaped s = some p → s.children.first p = none

theorem Enlisted.last_thread (enlisted : Enlisted s) (used : s.tcbUsed thread = true)
    (removed : del s.threads thread = some s'.threads) (empty : s'.threads.first (s.tcb thread).process = none) :
    s.threads.first (s.tcb thread).process = some thread ∧ s.threads.next thread = none := by
  obtain ⟨ts, chain, members⟩ := enlisted.roster (s.tcb thread).process
  have here : thread ∈ ts := (members thread).mpr ⟨used, rfl⟩
  obtain ⟨l, gone, after⟩ := chain.del_mem here
  cases gone.symm.trans removed
  have none : ts.erase thread = [] := after.unique (empty : Chain s'.threads (.inl _) [])
  have alone : ts = [thread] := by
    rcases List.erase_eq_nil_iff.mp none with nil | one
    · rw [nil] at here
      exact absurd here List.not_mem_nil
    · exact one
  rw [alone] at chain
  exact ⟨chain.1, chain.2.2⟩

/-- What the calls are made of. `alive` and `childless` stand for what a caller may know
about threads that start and processes that are taken away. -/
inductive Effect (alive childless : Prop) : Table → Table → Prop where
  | aborted {s s' : Table} (aborted : Aborted s s') : Effect alive childless s s'
  | born {s s' : Table} {parent : Option Ptr} {state : ThreadState} {proc thread : KernelPtr} {pid tid : Nat}
      (known : ∀ p, parent = some p → s.pcbUsed p = true) (running : state ≠ .zombie)
      (born : Born s parent state proc thread pid tid s') : Effect alive childless s s'
  | recruited {s s' : Table} {proc : Ptr} {state : ThreadState} {thread : KernelPtr} {tid : Nat}
      (known : s.pcbUsed proc = true) (running : alive → state ≠ .zombie)
      (recruited : Recruited s proc state thread tid s') : Effect alive childless s s'
  | threadExited {s s' : Table} {thread : Ptr} {exitCode : Int} (used : s.tcbUsed thread = true)
      (user : (s.tcb thread).process ≠ s.kernelProc) (exited : ThreadExited s thread exitCode s') :
      Effect alive childless s s'
  | procExited (s : Table) (proc : Ptr) (exitCode : Int) :
      Effect alive childless s (s.setPcb proc { s.pcb proc with exitCode, zombie := true })
  | threadReaped {s s' : Table} {thread : Ptr} (used : s.tcbUsed thread = true)
      (reaped : ThreadReaped s thread s') : Effect alive childless s s'
  | procReaped {s s' : Table} {proc : Ptr} (used : s.pcbUsed proc = true)
      (alone : childless → s.children.first proc = none) (reaped : ProcReaped s proc s') :
      Effect alive childless s s'
  | killed {s s' : Table} {thread : Ptr} (used : s.tcbUsed thread = true) (killed : Killed s thread s') :
      Effect alive childless s s'

variable {alive childless : Prop}

theorem makeProcess_effect {parent : Option Ptr} {supply : Supply} (known : ∀ p, parent = some p → s.pcbUsed p = true)
    (running : state ≠ .zombie) (fresh : supply.Fresh s) {result : Option (Ptr × Ptr)}
    (done : makeProcess s parent state supply = (result, s')) : Effect alive childless s s' := by
  rcases makeProcess_spec fresh done with ⟨-, aborted⟩ | ⟨_, _, _, _, -, -, born⟩
  · exact .aborted aborted
  · exact .born known running born

variable {current : Ptr}

theorem endThreads_effects {ts : List Ptr} (mine : ∀ t ∈ ts, s.tcbUsed t = true ∧ (s.tcb t).process ≠ s.kernelProc)
    (done : ts.foldlM (fun s t => if (s.tcb t).state = .zombie then pure s else usthreadExitLocked s t (if t = current then exitCode else -1)) s = .ok s')
    : ReflTransGen (Effect alive childless) s s' := by
  induction ts generalizing s with
  | nil =>
    cases done
    exact .refl
  | cons x ts ih =>
    rw [List.foldlM_cons] at done
    obtain ⟨middle, first, others⟩ := Outcome.bind_eq_ok.mp done
    obtain ⟨used, user⟩ := mine x List.mem_cons_self
    have later : ∀ t ∈ ts, s.tcbUsed t = true ∧ (s.tcb t).process ≠ s.kernelProc :=
      fun t member => mine t (List.mem_cons_of_mem x member)
    split at first
    · cases first
      exact ih later others
    · rename_i running
      have exited := usthreadExitLocked_exits running first
      apply ReflTransGen.head (.threadExited used user exited)
      apply ih _ others
      intro t member
      rw [exited.rest]
      dsimp only
      rw [Function.update_apply]
      split
      · exact ⟨(later t member).1, user⟩
      · exact later t member

theorem usprocExit_effects (enlisted : Enlisted s) {fuel : Nat}
    (done : usprocExit fuel current s proc exitCode = .ok s') : ReflTransGen (Effect alive childless) s s' := by
  unfold Sched.usprocExit at done
  split at done
  · cases done
    exact .refl
  · rename_i user
    split at done
    · cases done
      exact .refl
    · obtain ⟨ts, walked, done⟩ := Outcome.bind_eq_ok.mp done
      obtain ⟨middle, ended, done⟩ := Outcome.bind_eq_ok.mp done
      cases done
      obtain ⟨found, chain, members⟩ := enlisted.roster proc
      obtain rfl := nodes_eq chain walked
      have mine : ∀ t ∈ ts, s.tcbUsed t = true ∧ (s.tcb t).process ≠ s.kernelProc := by
        intro t member
        obtain ⟨used, owner⟩ := (members t).mp member
        exact ⟨used, by rw [owner]; exact user⟩
      exact (endThreads_effects mine ended).tail (.procExited middle proc exitCode)

theorem reapUsThread_effects (enlisted : Enlisted s) (used : s.tcbUsed thread = true)
    (done : reapUsThread s thread = .ok s') : ReflTransGen (Effect alive (Childless s (.reapUsThread thread))) s s' := by
  rcases reapUsThread_spec done with ⟨-, rfl⟩ | ⟨middle, reaped, ⟨rfl, -⟩ | buried⟩
  · exact .refl
  · exact .single (.threadReaped used reaped)
  · apply ReflTransGen.tail (.single (.threadReaped used reaped))
    have rest := reaped.rest
    have pcb : middle.pcb = s.pcb := by rw [rest]
    apply Effect.procReaped _ _ buried
    · rw [rest]
      exact enlisted.process thread used
    · intro childless
      have dead := buried.zombie
      rw [pcb] at dead
      have last := enlisted.last_thread used reaped.removed buried.empty
      rw [rest]
      exact childless _ (if_pos ⟨reaped.user, reaped.zombie, dead, last⟩)

theorem reapUsProc_effects (used : s.pcbUsed proc = true) (done : reapUsProc s proc = .ok s') :
    ReflTransGen (Effect alive (Childless s (.reapUsProc proc))) s s' := by
  rcases reapUsProc_spec done with ⟨-, rfl⟩ | reaped
  · exact .refl
  · apply ReflTransGen.single
    apply Effect.procReaped used _ reaped
    intro childless
    exact childless proc (if_pos ⟨reaped.user, reaped.zombie, reaped.empty⟩)

theorem LifeStep.effects (enlisted : Enlisted s) (step : LifeStep s call s') :
    ReflTransGen (Effect call.StartsAlive (Childless s call)) s s' := by
  obtain ⟨allowed, fuel, done⟩ := step
  cases call with
  | newThread proc startingState supply =>
    cases done
    obtain ⟨known, fresh⟩ := allowed
    have owner : s.pcbUsed (proc.getD s.kernelProc) = true := by
      cases proc with
      | none => exact enlisted.kernel
      | some p => exact known p rfl
    apply ReflTransGen.single
    rcases newThread_spec fresh rfl with aborted | ⟨_, _, recruited⟩
    · exact .aborted aborted
    · exact .recruited owner ofBits_ne_zombie recruited
  | newUsproc parent supply =>
    cases done
    have fresh : Supply.Fresh { supply with frame := true } s := ⟨allowed.2.pcb, allowed.2.tcb⟩
    exact .single (makeProcess_effect allowed.1 (by decide) fresh rfl)
  | forkProcess parent supply =>
    cases done
    have known : ∀ p, some parent = some p → s.pcbUsed p = true := by
      intro p same
      rw [← Option.some.inj same]
      exact allowed.1
    unfold Sched.forkProcess
    split
    · exact .refl
    · split <;> rename_i made <;> exact .single (makeProcess_effect known (by decide) allowed.2 made)
  | usthreadExit thread exitCode =>
    rcases usthreadExit_spec done with rfl | ⟨user, exited⟩
    · exact .refl
    · exact .single (.threadExited allowed user exited)
  | usprocExit current proc exitCode => exact usprocExit_effects enlisted done
  | reapUsThread thread => exact reapUsThread_effects enlisted allowed done
  | reapUsProc proc => exact reapUsProc_effects allowed done
  | killKtask thread =>
    rcases killKtask_spec done with rfl | killed
    · exact .refl
    · exact .single (.killed allowed killed)

theorem LifeStep.keeps (inv : Table → Prop) (step : LifeStep s call s') (enlisted : Enlisted s)
    (kept : ∀ before after, inv before → Effect call.StartsAlive (Childless s call) before after → inv after)
    (start : inv s) : inv s' := by
  have effects := step.effects enlisted
  clear step
  induction effects with
  | refl => exact start
  | tail _ effect ih => exact kept _ _ ih effect

theorem Enlisted.effect (enlisted : Enlisted s) (effect : Effect alive childless s s') : Enlisted s' := by
  cases effect with
  | aborted aborted => exact enlisted.aborted aborted
  | born known running born => exact enlisted.born born
  | recruited known running recruited => exact enlisted.recruited known recruited
  | threadExited used user exited => exact enlisted.threadExited exited
  | procExited proc exitCode => exact enlisted.congr rfl rfl rfl (fun _ _ => rfl) rfl
  | threadReaped used reaped => exact enlisted.threadReaped used reaped
  | procReaped used alone reaped => exact enlisted.procReaped reaped
  | killed used killed =>
    have rest := killed.rest
    apply enlisted.dismissed used killed.removed <;> rw [rest]

end CreeperKernel.Sched
