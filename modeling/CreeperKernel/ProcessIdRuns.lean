import CreeperKernel.ProcessBoot
import CreeperKernel.ProcessCalls
import CreeperKernel.ProcessIdentity

namespace CreeperKernel.Sched

open IntrusiveLists
open Transitions (Run)

variable {s s' : Table} {thread : Ptr} {event : Event}

/-- A step that reaps a process takes no id away from a process or thread that is
still alive. -/
def Careful (s : Table) : Event → Prop
  | .wait4 parent pid _ => ∀ fuel children zombie, nodes s.children fuel parent = .ok children →
      waitTarget s pid children = some zombie → SafeReap s zombie
  | .reaper => ∀ fuel orphan, reaperTarget fuel s = .ok (some orphan) → SafeReap s orphan
  | _ => True

/-- The steps that may reap a process. -/
def Event.reaps : Event → Bool
  | .wait4 .. => true
  | .reaper => true
  | _ => false

theorem Sound.setWaiting (sound : Sound s) (waiting : Ptr → Option Wait) :
    Sound { s with waiting := waiting } :=
  ⟨⟨sound.ids.distinct, sound.ids.taken, sound.ids.found⟩, { sound.rostered with }⟩

variable {nohang : Bool} {pid : Int} {fuel : Nat} {result : WaitResult}

theorem Sound.waitRound (sound : Sound s) (careful : Careful s (.wait4 (s.tcb thread).process pid result))
    (done : waitRound fuel s thread pid nohang = .ok (result, s')) : Sound s' := by
  obtain ⟨children, listed, done⟩ := Outcome.bind_eq_ok.mp done
  split at done
  · rename_i zombie target
    obtain ⟨reaped, round, same⟩ := Outcome.bind_eq_ok.mp done
    cases same
    have safe : SafeReap s zombie := careful fuel children zombie listed target
    have after := sound.setWaiting (Function.update s.waiting thread none)
    exact after.reaped safe round
  · split at done
    · cases done
      exact sound.setWaiting _
    · split at done <;> cases done <;> exact sound.setWaiting _

theorem Sound.sysWait4 (sound : Sound s) (careful : Careful s (.wait4 (s.tcb thread).process pid result))
    (done : sysWait4 fuel s thread pid nohang = .ok (result, s')) : Sound s' := by
  unfold Sched.sysWait4 at done
  dsimp only at done
  split at done
  · cases done
    exact sound
  · split at done
    · cases done
      exact sound
    · split at done
      · cases done
        exact sound
      · exact sound.waitRound careful done

theorem Sound.reaper (sound : Sound s) (careful : Careful s .reaper) (done : reaper fuel s = .ok s') : Sound s' := by
  obtain ⟨target, picked, done⟩ := Outcome.bind_eq_ok.mp done
  cases target with
  | none =>
    cases done
    exact sound
  | some orphan => exact sound.reaped (careful fuel orphan picked) done

theorem Sound.step (sound : Sound s) (careful : Careful s event) (step : Step s event s') : Sound s' := by
  cases step with
  | newUsproc known fresh done =>
    have running : ThreadState.startingUp ≠ .zombie := by decide
    rename_i supply _
    have fresh' : Supply.Fresh { supply with frame := true } s := ⟨fresh.pcb, fresh.tcb⟩
    exact sound.made running fresh' done
  | load fresh done =>
    rcases loadElf_spec fresh done with ⟨-, aborted⟩ | ⟨_, _, _, _, _, -, running, born, -⟩
    · exact sound.aborted aborted
    · exact sound.born running born
  | fork caller fresh done =>
    have running : ThreadState.runnable ≠ .zombie := by decide
    unfold forkProcess at done
    split at done
    · cases done
      exact sound
    · split at done <;> rename_i made <;> cases done <;> exact sound.made running fresh made
  | exec fuel caller fresh done => exact sound.exec caller fresh done
  | exit fuel used done =>
    rcases usprocExit_spec done with ⟨-, rfl⟩ | ⟨-, -, exited⟩
    · exact sound
    · exact sound.exited exited
  | wait4 fuel caller done => exact sound.sysWait4 careful done
  | resume fuel used running waiting done => exact sound.waitRound careful done
  | reaper fuel done => exact sound.reaper careful done

theorem Booted.sound {kernelProc bootThread : Ptr} {reaperThread : KernelPtr}
    (booted : Booted kernelProc bootThread reaperThread s) : Sound s := by
  refine ⟨booted.registry fun a id here => ?_, booted.rostered⟩
  cases a with
  | proc p =>
    obtain ⟨used, user, -⟩ := liveId_proc.mp here
    rw [booted.kernel] at user
    exact absurd ((booted.pcbUsed p).mp used) user
  | thread t =>
    obtain ⟨used, notBoot, -, name⟩ := liveId_thread.mp here
    rw [booted.first] at notBoot
    have reaper : t = reaperThread.val := ((booted.tcbUsed t).mp used).resolve_left notBoot
    rw [reaper, booted.reaper] at name
    exact ⟨congrArg _ reaper, name.symm⟩

/-- In every run in which no reaped process or thread has an id that a live one holds,
the ids of the live ones are distinct, taken, and lead back to their holders. -/
theorem careful_run_keeps_ids (kernelProc bootThread reaperThread : KernelPtr)
    (apart : bootThread ≠ reaperThread) (events : List Event) (s : Table)
    (run : Run (fun s event s' => Step s event s' ∧ Careful s event)
      (bootTable kernelProc bootThread reaperThread) events s) : Registry (liveId s) s := by
  have start : Sound (bootTable kernelProc bootThread reaperThread) :=
    (booted_bootTable kernelProc.val fun same => apart (Subtype.ext same)).sound
  exact (run.invariant Sound (fun _ _ _ sound taken => sound.step taken.2 taken.1) start).ids

/-- The first program replaces itself, and the reaper takes its old process away. -/
def execThenReap : List Call :=
  [.load ⟨true, true⟩ (plentiful 3 4), .exec (kernelObject 4) ⟨true, true⟩ (plentiful 5 6), .reaper]

/-- The running process has pid 2, which is free and found nowhere. -/
theorem reaper_frees_live_pid : ∃ events s, Run Step smallBoot events s ∧
    liveId s (.proc (kernelObject 5)) = some 2 ∧ tidFree s.tidBitmap 2 = true ∧ idLookup s 2 = none ∧
    ¬ Registry (liveId s) s := by
  have seen : (performAll 8 smallBoot execThenReap).map (fun r =>
      (liveId r.2 (.proc (kernelObject 5)), tidFree r.2.tidBitmap 2, idLookup r.2 2)) =
      some (some 2, true, none) := by decide +kernel
  obtain ⟨⟨events, s⟩, done, same⟩ := Option.map_eq_some_iff.mp seen
  simp only [Prod.mk.injEq] at same
  obtain ⟨held, free, lost⟩ := same
  refine ⟨events, s, run_of_performAll done, held, free, lost, fun registry => ?_⟩
  have taken := (registry.taken _ _ held).2
  rw [free] at taken
  cases taken

theorem careful_of_not_reaping (quiet : event.reaps = false) (s : Table) : Careful s event := by
  cases event with
  | wait4 => cases quiet
  | reaper => cases quiet
  | newUsproc | load | fork | exec | exit => exact trivial

/-- The process that replaced itself keeps its pid as long as nothing is reaped. -/
theorem careful_run_keeps_ids_exec : ∃ events s,
    Run (fun s event s' => Step s event s' ∧ Careful s event) smallBoot events s ∧
    liveId s (.proc (kernelObject 5)) = some 2 ∧ Registry (liveId s) s := by
  have seen : (performAll 8 smallBoot (execThenReap.take 2)).map (fun r =>
      (r.1.all fun event => !event.reaps, liveId r.2 (.proc (kernelObject 5)))) =
      some (true, some 2) := by decide +kernel
  obtain ⟨⟨events, s⟩, done, same⟩ := Option.map_eq_some_iff.mp seen
  simp only [Prod.mk.injEq, List.all_eq_true, Bool.not_eq_true'] at same
  have run := (run_of_performAll done).restrict fun event member => careful_of_not_reaping (same.1 event member)
  refine ⟨events, s, run, same.2, ?_⟩
  exact careful_run_keeps_ids (kernelObject 0) (kernelObject 1) (kernelObject 2) (by decide) events s run

end CreeperKernel.Sched
