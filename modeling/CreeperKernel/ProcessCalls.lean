import CreeperKernel.ProcessTable
import CreeperKernel.Transitions

namespace CreeperKernel.Sched

open Transitions (Run)

/-- The choices behind a step: who calls what, and what the allocators answer. -/
inductive Call where
  | newUsproc (parent : Option Ptr) (supply : Supply)
  | load (image : Image) (supply : Supply)
  | fork (thread : Ptr) (supply : Supply)
  | exec (thread : Ptr) (image : Image) (supply : Supply)
  | exit (current proc : Ptr) (exitCode : Int)
  | wait4 (thread : Ptr) (pid : Int) (nohang : Bool)
  | resume (thread : Ptr)
  | reaper

instance (supply : Supply) (s : Table) : Decidable (supply.Fresh s) :=
  decidable_of_iff ((supply.pcb.all fun p : KernelPtr => !s.pcbUsed p.val) ∧
      (supply.tcb.all fun t : KernelPtr => !s.tcbUsed t.val)) <| by
    simp only [Option.all_eq_true, Bool.not_eq_true']
    exact ⟨fun both => ⟨both.1, both.2⟩, fun fresh => ⟨fresh.pcb, fresh.tcb⟩⟩

instance (s : Table) (thread : Ptr) : Decidable (Active s thread) :=
  decidable_of_iff (s.tcbUsed thread = true ∧ (s.tcb thread).state = .runnable ∧
      (s.tcb thread).process ≠ s.kernelProc ∧ s.waiting thread = none)
    ⟨fun ⟨used, running, user, notWaiting⟩ => ⟨used, running, user, notWaiting⟩,
      fun active => ⟨active.used, active.running, active.user, active.notWaiting⟩⟩

/-- A step as a function of the choices behind it; `none` when the call cannot happen
or does not come to an end. -/
def perform (fuel : Nat) (s : Table) : Call → Option (Event × Table)
  | .newUsproc parent supply =>
    if (∀ p ∈ parent, s.pcbUsed p = true) ∧ supply.Fresh s then
      let (result, s') := Sched.newUsproc s parent supply
      some (.newUsproc parent (result.map fun (proc, _) => (proc, (s'.pcb proc).pid)), s')
    else none
  | .load image supply =>
    if supply.Fresh s then
      let (result, s') := loadElf s s.kernelProc image supply
      some (.load (if result = .failed then none else supply.pcb.map Subtype.val), s')
    else none
  | .fork thread supply =>
    if Active s thread ∧ supply.Fresh s then
      let (result, s') := forkProcess s (s.tcb thread).process supply
      some (.fork (s.tcb thread).process
        (result.bind fun pid => supply.pcb.map fun child => (child.val, pid)), s')
    else none
  | .exec thread image supply =>
    if Active s thread ∧ supply.Fresh s then
      match execElf fuel s thread image supply with
      | .ok (result, s') => some (.exec (s.tcb thread).process result, s')
      | _ => none
    else none
  | .exit current proc exitCode =>
    if s.pcbUsed proc then
      match usprocExit fuel current s proc exitCode with
      | .ok s' => some (.exit proc (s.pcb proc).pid exitCode, s')
      | _ => none
    else none
  | .wait4 thread pid nohang =>
    if Active s thread then
      match sysWait4 fuel s thread pid nohang with
      | .ok (result, s') => some (.wait4 (s.tcb thread).process pid result, s')
      | _ => none
    else none
  | .resume thread =>
    if s.tcbUsed thread = true ∧ (s.tcb thread).state = .runnable then
      match s.waiting thread with
      | none => none
      | some wait =>
        match waitRound fuel s thread wait.pid wait.nohang with
        | .ok (result, s') => some (.wait4 (s.tcb thread).process wait.pid result, s')
        | _ => none
    else none
  | .reaper =>
    match Sched.reaper fuel s with
    | .ok s' => some (.reaper, s')
    | _ => none

variable {fuel : Nat} {s s' : Table} {call : Call} {event : Event}

theorem step_of_perform (done : perform fuel s call = some (event, s')) : Step s event s' := by
  unfold perform at done
  cases call with
  | newUsproc parent supply =>
    obtain ⟨⟨known, fresh⟩, same⟩ := Option.ite_none_right_eq_some.mp done
    cases same
    exact .newUsproc known fresh rfl
  | load image supply =>
    obtain ⟨fresh, same⟩ := Option.ite_none_right_eq_some.mp done
    cases same
    exact .load fresh rfl
  | fork thread supply =>
    obtain ⟨⟨caller, fresh⟩, same⟩ := Option.ite_none_right_eq_some.mp done
    cases same
    exact .fork caller fresh rfl
  | exec thread image supply =>
    obtain ⟨⟨caller, fresh⟩, same⟩ := Option.ite_none_right_eq_some.mp done
    split at same
    · cases same
      exact .exec fuel caller fresh (by assumption)
    · cases same
  | exit current proc exitCode =>
    obtain ⟨used, same⟩ := Option.ite_none_right_eq_some.mp done
    split at same
    · cases same
      exact .exit fuel used (by assumption)
    · cases same
  | wait4 thread pid nohang =>
    obtain ⟨caller, same⟩ := Option.ite_none_right_eq_some.mp done
    split at same
    · cases same
      exact .wait4 fuel caller (by assumption)
    · cases same
  | resume thread =>
    obtain ⟨⟨used, running⟩, same⟩ := Option.ite_none_right_eq_some.mp done
    split at same
    · cases same
    · rename_i wait waiting
      split at same
      · cases same
        exact .resume fuel used running waiting (by assumption)
      · cases same
  | reaper =>
    dsimp only at done
    split at done
    · cases done
      exact .reaper fuel (by assumption)
    · cases done

def performAll (fuel : Nat) (s : Table) : List Call → Option (List Event × Table)
  | [] => some ([], s)
  | call :: calls => do
    let (event, middle) ← perform fuel s call
    let (events, s') ← performAll fuel middle calls
    pure (event :: events, s')

theorem run_of_performAll {calls : List Call} {events : List Event}
    (done : performAll fuel s calls = some (events, s')) : Run Step s events s' := by
  induction calls generalizing s events with
  | nil =>
    cases done
    exact .nil _
  | cons call calls ih =>
    obtain ⟨⟨event, middle⟩, first, rest⟩ := Option.bind_eq_some_iff.mp done
    obtain ⟨⟨events, last⟩, later, same⟩ := Option.bind_eq_some_iff.mp rest
    cases same
    exact .cons (step_of_perform first) (ih later)

/-- The objects of the small runs on fixed inputs. -/
def kernelObject (n : Fin 16) : KernelPtr :=
  ⟨0xFFFF800000000000#64 + BitVec.ofNat 64 (4096 * n), by revert n; decide⟩

/-- Numerals of objects in definitions refer to this one proof. -/
instance objects_neZero : @NeZero Nat Zero.ofOfNat0 16 := ⟨by decide⟩

def smallBoot : Table := bootTable (kernelObject 0) (kernelObject 1) (kernelObject 2)

/-- Everything a new process needs is there. -/
def plentiful (pcb tcb : Fin 16) : Supply :=
  ⟨some (kernelObject pcb), true, some (kernelObject tcb), true, true⟩

end CreeperKernel.Sched
