import CreeperKernel.ProcessRoster

namespace CreeperKernel.Sched

open IntrusiveLists

variable {s s' : Table} {thread newproc mainthread : Ptr}

theorem Born.first {parent : Option Ptr} {state : ThreadState} {proc thread : KernelPtr} {pid tid : Nat}
    (born : Born s parent state proc thread pid tid s') : s'.threads.first proc = some thread.val := by
  show s'.threads.get (.inl proc) = _
  rw [born.threads, addHead_get, if_pos rfl]

/-- `load_elf_from_vfs` either makes nothing or leaves a new process, whose main thread
starts running only at the very end. -/
theorem loadElf_spec {current : Ptr} {image : Image} {supply : Supply} (fresh : supply.Fresh s)
    {result : LoadResult} (done : loadElf s current image supply = (result, s')) :
    (result = .failed ∧ Aborted s s') ∨ ∃ proc thread pid tid state, supply.pcb = some proc ∧ state ≠ .zombie ∧
        Born s (some current) state proc thread pid tid s' ∧ (result = .leftBehind ∨ result = .loaded pid) := by
  unfold loadElf at done
  split at done
  · cases done
    exact .inl ⟨rfl, .refl s⟩
  · have made : Supply.Fresh { supply with frame := true } s := ⟨fresh.pcb, fresh.tcb⟩
    split at done
    · rename_i after failed
      cases done
      rcases makeProcess_spec made failed with ⟨-, aborted⟩ | ⟨_, _, _, _, -, same, -⟩
      · exact .inl ⟨rfl, aborted⟩
      · cases same
    · rename_i p _ after created
      rcases makeProcess_spec made created with ⟨same, -⟩ | ⟨proc, main, pid, tid, object, same, born⟩
      · cases same
      · cases same
        have name : (after.pcb proc).pid = pid := by
          rw [born.pcb, Function.update_self]
        have state : { after.tcb main with state := .runnable } =
            (⟨tid, .runnable, 0, proc⟩ : Tcb) := by
          rw [born.tcb, Function.update_self]
        rw [born.first] at done
        right
        split at done
        · cases done
          exact ⟨proc, main, pid, tid, .startingUp, object, by decide, born, .inl rfl⟩
        · dsimp only at done
          rw [state, name] at done
          cases done
          refine ⟨proc, main, pid, tid, .runnable, object, by decide, ?_, .inr rfl⟩
          refine { born with tcb := ?_ }
          show Function.update after.tcb main.val _ = _
          rw [born.tcb, Function.update_idem]

/-- What the second half of `exec_elf_from_vfs` does: the new process and its main
thread take over both ids, and the old process becomes an orphaned zombie. -/
structure Replaced (s : Table) (thread newproc mainthread : Ptr) (s' : Table) : Prop where
  pcb : s'.pcb = Function.update
    (Function.update s.pcb newproc { s.pcb newproc with pid := (s.pcb (s.tcb thread).process).pid })
    (s.tcb thread).process
    { s.pcb (s.tcb thread).process with exitCode := -1, zombie := true, parent := none }
  tid : ∀ t, (s'.tcb t).tid = if t = mainthread then (s.tcb thread).tid else (s.tcb t).tid
  process : ∀ t, (s'.tcb t).process = (s.tcb t).process
  ended : ∀ ts, Chain s.threads (.inl (s.tcb thread).process) ts → ∀ t ∈ ts,
    (s'.tcb t).state = .zombie
  others : ∀ t, (s'.tcb t).state = (s.tcb t).state ∨ (s'.tcb t).state = .zombie
  idTable : s'.idTable = Function.update (Function.update (Function.update (Function.update
    s.idTable (s.pcb newproc).pid 0) (s.pcb (s.tcb thread).process).pid (newproc &&& ~~~idTagMask))
    (s.tcb mainthread).tid 0) (s.tcb thread).tid mainthread
  rest : s' = { s with
    pcb := s'.pcb, tcb := s'.tcb, runQueue := s'.runQueue, children := s'.children,
    idTable := s'.idTable }

/-- The table when `exec_elf_from_vfs` calls `usproc_exit`. -/
def takenOver (s : Table) (thread newproc mainthread parent : Ptr) : Table :=
  { s with
    pcb := Function.update s.pcb newproc
      { s.pcb newproc with pid := (s.pcb (s.tcb thread).process).pid }
    tcb := Function.update s.tcb mainthread { s.tcb mainthread with tid := (s.tcb thread).tid }
    idTable := Function.update (Function.update (Function.update (Function.update
      s.idTable (s.pcb newproc).pid 0) (s.pcb (s.tcb thread).process).pid (newproc &&& ~~~idTagMask))
      (s.tcb mainthread).tid 0) (s.tcb thread).tid mainthread
    children := addHead s.children newproc parent }

theorem replaced_of_exited {parent : Ptr} {after : Table} (children : Links Ptr Ptr)
    (otherProc : (s.tcb thread).process ≠ newproc)
    (exited : Exited (takenOver s thread newproc mainthread parent) (s.tcb thread).process (-1) after) :
    Replaced s thread newproc mainthread (Table.setPcb { after with children } (s.tcb thread).process
      { after.pcb (s.tcb thread).process with parent := none, zombie := true }) := by
  have pcb := exited.pcb
  have rest := exited.rest
  have before : (takenOver s thread newproc mainthread parent).pcb (s.tcb thread).process =
      s.pcb (s.tcb thread).process := Function.update_of_ne otherProc _ _
  have renamed : ∀ t, ((takenOver s thread newproc mainthread parent).tcb t).process = (s.tcb t).process ∧
      ((takenOver s thread newproc mainthread parent).tcb t).state = (s.tcb t).state ∧
      ((takenOver s thread newproc mainthread parent).tcb t).tid =
        if t = mainthread then (s.tcb thread).tid else (s.tcb t).tid := by
    intro t
    unfold takenOver
    by_cases same : t = mainthread
    · subst same
      simp
    · simp [same]
  rw [before] at pcb
  refine ⟨?_, fun t => (exited.tcb t).1.trans (renamed t).2.2, fun t => (exited.tcb t).2.trans (renamed t).1,
    exited.ended, fun t => ?_, ?_, ?_⟩
  · show Function.update after.pcb _ _ = _
    rw [pcb, Function.update_idem, Function.update_self]
    rfl
  · rw [← (renamed t).2.1]
    exact exited.others t
  · show after.idTable = _
    rw [rest]
    rfl
  · show ({ after with pcb := _, children := _ } : Table) = _
    rw [rest]
    rfl

theorem replaceProcess_spec {fuel : Nat} {result : ExecResult} (first : s.threads.first newproc = some mainthread)
    (otherProc : (s.tcb thread).process ≠ newproc) (user : (s.tcb thread).process ≠ s.kernelProc)
    (alive : (s.pcb (s.tcb thread).process).zombie = false)
    (done : replaceProcess fuel s thread newproc = .ok (result, s')) :
    result = .replaced ∧ Replaced s thread newproc mainthread s' := by
  unfold replaceProcess at done
  simp only [idTableClear, idTableSetProc, idTableSetThread, Table.setPcb, Table.setTcb, first,
    Function.update_self, Function.update_of_ne otherProc] at done
  split at done
  · cases done
  · rename_i parent _
    obtain ⟨after, ended, done⟩ := Outcome.bind_eq_ok.mp done
    obtain ⟨children, -, done⟩ := Outcome.bind_eq_ok.mp done
    cases done
    refine ⟨rfl, ?_⟩
    rcases usprocExit_spec ended with ⟨stopped, -⟩ | ⟨-, -, exited⟩
    · exfalso
      rcases stopped with kernel | dead
      · exact user kernel
      · simp [Function.update_of_ne otherProc, alive] at dead
    · exact replaced_of_exited children otherProc exited

end CreeperKernel.Sched
