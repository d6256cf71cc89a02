import CreeperKernel.ProcessCalls
import CreeperKernel.ProcessRoster

namespace CreeperKernel.Sched

open IntrusiveLists
open Transitions (Run)

def tcbStateRunnable : BitVec 16 := 0x0001
def tcbStateZombie : BitVec 16 := 0x0004

/-- What the table keeps of the bits of `tcb_t.state`. -/
def ThreadState.ofBits (bits : BitVec 16) : ThreadState :=
  if bits &&& tcbStateZombie ≠ 0 then .zombie
  else if bits &&& tcbStateRunnable ≠ 0 then .runnable
  else .startingUp

/-- What the allocators answer to `new_thread`: the object, the kernel stack, and the
user stack with its place in the address space. -/
structure ThreadSupply where
  tcb : Option KernelPtr
  kernelStack : Bool
  userStack : Bool

/-- `new_thread`. Without a process it makes a kernel thread, which has no user stack. -/
def newThread (s : Table) (proc : Option Ptr) (startingState : BitVec 16) (supply : ThreadSupply) :
    Option Ptr × Table :=
  let process := proc.getD s.kernelProc
  match supply.tcb with
  | none => (none, s)
  | some thread =>
    let s := s.allocTcb thread process
    if ¬ supply.kernelStack then (none, s.freeTcb thread)
    else
      match s.getUnusedTid with
      | none => (none, s.freeTcb thread)
      | some (tid, s) =>
        let s := s.setTcb thread { s.tcb thread with tid, state := .ofBits startingState }
        if proc.isSome ∧ ¬ supply.userStack then (none, (s.freeTid tid).freeTcb thread)
        else
          let s := { s with threads := addHead s.threads thread process }
          let s := { s with runQueue := addHead s.runQueue thread () }
          (some thread, idTableSetThread s tid thread)

/-- `usthread_exit`. The user stack it gives back is not part of the table. -/
def usthreadExit (s : Table) (thread : Ptr) (exitCode : Int) : Outcome Table :=
  if (s.tcb thread).process = s.kernelProc then pure s
  else if (s.tcb thread).state = .zombie then pure s
  else usthreadExitLocked s thread exitCode

def killKtask (s : Table) (thread : Ptr) : Outcome Table :=
  if (s.tcb thread).process ≠ s.kernelProc then pure s
  else do
    -- `_unlink_thread`
    let runQueue ← unlink s.runQueue thread
    let s := { s with runQueue }
    let threads ← unlink s.threads thread
    let s := { s with threads }
    let s := idTableClear s (s.tcb thread).tid
    pure ((s.freeTid (s.tcb thread).tid).freeTcb thread)

/-- The calls that make and end threads and processes, with what the allocators answer
and the thread that runs. -/
inductive LifeCall where
  | newThread (proc : Option Ptr) (startingState : BitVec 16) (supply : ThreadSupply)
  | newUsproc (parent : Option Ptr) (supply : Supply)
  | forkProcess (parent : Ptr) (supply : Supply)
  | usthreadExit (thread : Ptr) (exitCode : Int)
  | usprocExit (current proc : Ptr) (exitCode : Int)
  | reapUsThread (thread : Ptr)
  | reapUsProc (proc : Ptr)
  | killKtask (thread : Ptr)

/-- The objects passed are allocated, and `kmalloc` hands out memory that is not in use. -/
def LifeCall.Allowed (s : Table) : LifeCall → Prop
  | .newThread proc _ supply =>
    (∀ p ∈ proc, s.pcbUsed p = true) ∧ ∀ t ∈ supply.tcb, s.tcbUsed t.val = false
  | .newUsproc parent supply => (∀ p ∈ parent, s.pcbUsed p = true) ∧ supply.Fresh s
  | .forkProcess parent supply => s.pcbUsed parent = true ∧ supply.Fresh s
  | .usthreadExit thread _ | .reapUsThread thread | .killKtask thread => s.tcbUsed thread = true
  | .usprocExit _ proc _ | .reapUsProc proc => s.pcbUsed proc = true

def LifeCall.perform (fuel : Nat) (s : Table) : LifeCall → Outcome Table
  | .newThread proc startingState supply => .ok (Sched.newThread s proc startingState supply).2
  | .newUsproc parent supply => .ok (Sched.newUsproc s parent supply).2
  | .forkProcess parent supply => .ok (Sched.forkProcess s parent supply).2
  | .usthreadExit thread exitCode => Sched.usthreadExit s thread exitCode
  | .usprocExit current proc exitCode => Sched.usprocExit fuel current s proc exitCode
  | .reapUsThread thread => Sched.reapUsThread s thread
  | .reapUsProc proc => Sched.reapUsProc s proc
  | .killKtask thread => Sched.killKtask s thread

structure LifeStep (s : Table) (call : LifeCall) (s' : Table) : Prop where
  allowed : call.Allowed s
  done : ∃ fuel, call.perform fuel s = .ok s'

/-- Deciding by the value, where instance search would try all addresses. -/
def decidableForallMem {α : Type} (value : Option α) (p : α → Bool) : Decidable (∀ a ∈ value, p a = true) :=
  decidable_of_iff (value.all p = true) (Option.all_eq_true p value)

instance (s : Table) : (call : LifeCall) → Decidable (call.Allowed s)
  | .newThread proc _ supply =>
    have := decidableForallMem proc s.pcbUsed
    have := decidableForallMem supply.tcb fun t : KernelPtr => !s.tcbUsed t
    have : Decidable (∀ t ∈ supply.tcb, s.tcbUsed t.val = false) :=
      decidable_of_iff (∀ t ∈ supply.tcb, (!s.tcbUsed t.val) = true) (by simp only [Bool.not_eq_true'])
    inferInstanceAs (Decidable (_ ∧ _))
  | .newUsproc parent supply =>
    have := decidableForallMem parent s.pcbUsed
    inferInstanceAs (Decidable (_ ∧ supply.Fresh s))
  | .forkProcess parent supply => inferInstanceAs (Decidable (s.pcbUsed parent = true ∧ supply.Fresh s))
  | .usthreadExit thread _ | .reapUsThread thread | .killKtask thread =>
    inferInstanceAs (Decidable (s.tcbUsed thread = true))
  | .usprocExit _ proc _ | .reapUsProc proc => inferInstanceAs (Decidable (s.pcbUsed proc = true))

/-- The calls one after the other; `none` when one of them cannot happen, does not pass
the check or does not end. -/
def performLife (check : Table → LifeCall → Bool) (fuel : Nat) (s : Table) : List LifeCall → Option Table
  | [] => some s
  | call :: calls =>
    if call.Allowed s ∧ check s call = true then
      match call.perform fuel s with
      | .ok middle => performLife check fuel middle calls
      | _ => none
    else none

variable {s s' : Table} {thread : Ptr}

theorem run_of_performLife {check : Table → LifeCall → Bool} {fuel : Nat} {calls : List LifeCall}
    (done : performLife check fuel s calls = some s') :
    Run (fun s call s' => LifeStep s call s' ∧ check s call = true) s calls s' := by
  induction calls generalizing s with
  | nil =>
    cases done
    exact .nil _
  | cons call calls ih =>
    obtain ⟨⟨allowed, passed⟩, done⟩ := Option.ite_none_right_eq_some.mp done
    split at done
    · rename_i middle first
      exact .cons ⟨⟨allowed, fuel, first⟩, passed⟩ (ih done)
    · cases done

structure Recruited (s : Table) (proc : Ptr) (state : ThreadState) (thread : KernelPtr) (tid : Nat)
    (s' : Table) : Prop where
  newTcb : s.tcbUsed thread = false
  issued : Issued s.tidBitmap s.tid0Used tid s'.tidBitmap
  rest : s' = { s with
    tcb := Function.update s.tcb thread ⟨tid, state, 0, proc⟩
    tcbUsed := Function.update s.tcbUsed thread true
    threads := addHead (clearNode s.threads thread) thread proc
    runQueue := addHead (clearNode s.runQueue thread) thread ()
    idTable := Function.update s.idTable tid thread
    tidBitmap := s'.tidBitmap
    waiting := Function.update s.waiting thread none }

theorem aborted_thread (new : s.tcbUsed thread = false) {bitmap : TidBitmap}
    (free : ∀ id, tidFree bitmap id = tidFree s.tidBitmap id) (tcb : Tcb) :
    Aborted s { s with
      tcb := Function.update s.tcb thread tcb
      threads := clearNode s.threads thread
      runQueue := clearNode s.runQueue thread
      tidBitmap := bitmap
      waiting := Function.update s.waiting thread none } := by
  have apart : ∀ t, s.tcbUsed t = true → t ≠ thread := by
    intro t used same
    rw [same, new] at used
    cases used
  constructor
  case tcb => exact fun t used => Function.update_of_ne (apart t used) _ _
  case waiting => exact fun t used => Function.update_of_ne (apart t used) _ _
  case threads =>
    intro p ts chain members _
    exact chain.clearNode fun member => apart thread (members thread member) rfl
  case runQueue =>
    intro ts chain members
    exact chain.clearNode fun member => apart thread (members thread member) rfl
  case tidFree => exact free
  case children => exact fun _ _ _ chain _ => chain
  case processes => exact fun _ chain _ => chain
  all_goals simp

theorem newThread_spec {proc : Option Ptr} {startingState : BitVec 16} {supply : ThreadSupply}
    (fresh : ∀ t ∈ supply.tcb, s.tcbUsed t.val = false) {result : Option Ptr}
    (done : newThread s proc startingState supply = (result, s')) :
    Aborted s s' ∨ ∃ thread tid, Recruited s (proc.getD s.kernelProc) (.ofBits startingState) thread tid s' := by
  unfold newThread at done
  cases made : supply.tcb with
  | none =>
    rw [made] at done
    cases done
    exact .inl (.refl s)
  | some thread =>
    have new : s.tcbUsed thread = false := fresh thread made
    rw [made] at done
    dsimp only at done
    have undone : Aborted s ((s.allocTcb thread (proc.getD s.kernelProc)).freeTcb thread) := by
      have aborted := aborted_thread new (fun _ => rfl) ⟨0, .startingUp, 0, proc.getD s.kernelProc⟩
      simp only [Table.allocTcb, Table.freeTcb, update_release new]
      exact aborted
    split at done
    · cases done
      exact .inl undone
    · split at done
      · cases done
        exact .inl undone
      · rename_i tid s₁ gotTid
        obtain ⟨bitmap, issued, rfl⟩ := getUnusedTid_eq_some gotTid
        split at done
        · cases done
          left
          have free : ∀ id, tidFree (freeTid bitmap tid) id = tidFree s.tidBitmap id := issued.free
          have aborted := aborted_thread new free
            ⟨tid, .ofBits startingState, 0, proc.getD s.kernelProc⟩
          simp only [Table.setTcb, Table.allocTcb, Table.freeTid, Table.freeTcb, update_release new,
            Function.update_self, Function.update_idem]
          exact aborted
        · cases done
          right
          refine ⟨thread, tid, new, issued, ?_⟩
          simp [Table.setTcb, Table.allocTcb, idTableSetThread]

/-- What killing a kernel thread does to the table. -/
structure Killed (s : Table) (thread : Ptr) (s' : Table) : Prop where
  kernel : (s.tcb thread).process = s.kernelProc
  dequeued : del s.runQueue thread = some s'.runQueue
  removed : del s.threads thread = some s'.threads
  rest : s' = { s with
    runQueue := s'.runQueue
    threads := s'.threads
    idTable := Function.update s.idTable (s.tcb thread).tid 0
    tidBitmap := freeTid s.tidBitmap (s.tcb thread).tid
    tcbUsed := Function.update s.tcbUsed thread false }

theorem killKtask_spec (done : killKtask s thread = .ok s') : s' = s ∨ Killed s thread s' := by
  unfold killKtask at done
  split at done
  · cases done
    exact .inl rfl
  · rename_i kernel
    obtain ⟨runQueue, dequeued, done⟩ := Outcome.bind_eq_ok.mp done
    obtain ⟨threads, removed, done⟩ := Outcome.bind_eq_ok.mp done
    cases done
    exact .inr ⟨by simpa using kernel, unlink_eq_ok dequeued, unlink_eq_ok removed, rfl⟩

structure ThreadExited (s : Table) (thread : Ptr) (exitCode : Int) (s' : Table) : Prop where
  running : (s.tcb thread).state ≠ .zombie
  dequeued : del s.runQueue thread = some s'.runQueue
  rest : s' = { s with
    runQueue := s'.runQueue
    tcb := Function.update s.tcb thread { s.tcb thread with exitCode, state := .zombie } }

variable {exitCode : Int}

theorem usthreadExitLocked_exits (running : (s.tcb thread).state ≠ .zombie)
    (done : usthreadExitLocked s thread exitCode = .ok s') : ThreadExited s thread exitCode s' := by
  obtain ⟨runQueue, dequeued, same⟩ := Outcome.bind_eq_ok.mp done
  cases same
  refine ⟨running, unlink_eq_ok dequeued, ?_⟩
  simp [Table.setTcb]

theorem usthreadExit_spec (done : usthreadExit s thread exitCode = .ok s') :
    s' = s ∨ ((s.tcb thread).process ≠ s.kernelProc ∧ ThreadExited s thread exitCode s') := by
  unfold usthreadExit at done
  split at done
  · cases done
    exact .inl rfl
  · rename_i user
    split at done
    · cases done
      exact .inl rfl
    · rename_i running
      exact .inr ⟨user, usthreadExitLocked_exits running done⟩

end CreeperKernel.Sched
