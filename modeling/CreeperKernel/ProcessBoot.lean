import CreeperKernel.ProcessIds
import CreeperKernel.ProcessRoster

namespace CreeperKernel.Sched

open IntrusiveLists

/-- The table that the first user process finds: the kernel process with its boot
thread and the reaper. -/
structure Booted (kernelProc bootThread reaperThread : Ptr) (s : Table) : Prop where
  pcb : ∀ p, s.pcb p = ⟨0, false, 0, none⟩
  boot : s.tcb bootThread = ⟨0, .runnable, 0, kernelProc⟩
  reaper : s.tcb reaperThread = ⟨1, .runnable, 0, kernelProc⟩
  pcbUsed : ∀ p, s.pcbUsed p = true ↔ p = kernelProc
  tcbUsed : ∀ t, s.tcbUsed t = true ↔ t = bootThread ∨ t = reaperThread
  threads : Chain s.threads (.inl kernelProc) [reaperThread, bootThread]
  noThreads : ∀ p, p ≠ kernelProc → Chain s.threads (.inl p) []
  noChildren : ∀ p, Chain s.children (.inl p) []
  idTable : s.idTable 1 = reaperThread
  taken : tidFree s.tidBitmap 1 = false
  tid0Used : s.tid0Used = true
  kernel : s.kernelProc = kernelProc
  first : s.bootThread = bootThread
  waiting : ∀ t, s.waiting t = none

variable (kernelProc : Ptr) {bootThread reaperThread : Ptr} {s : Table}

theorem bootTable_eq (kernelProc bootThread reaperThread : Ptr) :
    bootTable kernelProc bootThread reaperThread =
      let s := (schedulerInit kernelProc bootThread).allocTcb reaperThread kernelProc
      { s with
        tidBitmap := WordBitmap.clear initialTidBitmap 1
        tcb := Function.update s.tcb reaperThread ⟨1, .runnable, 0, kernelProc⟩
        threads := addHead s.threads reaperThread kernelProc
        runQueue := addHead s.runQueue reaperThread ()
        idTable := Function.update s.idTable 1 reaperThread } := by
  have issued : ((schedulerInit kernelProc bootThread).allocTcb reaperThread kernelProc).getUnusedTid =
      some (1, { (schedulerInit kernelProc bootThread).allocTcb reaperThread kernelProc with
        tidBitmap := WordBitmap.clear initialTidBitmap 1 }) := by
    show Option.map _ (getUnusedTid initialTidBitmap true) = _
    rw [getUnusedTid_initial]
    rfl
  unfold bootTable ktaskStart
  dsimp only
  rw [show (schedulerInit kernelProc bootThread).kernelProc = kernelProc from rfl, issued]
  simp [idTableSetThread, Table.setTcb, Table.allocTcb]
  rfl

theorem booted_bootTable (apart : bootThread ≠ reaperThread) :
    Booted kernelProc bootThread reaperThread (bootTable kernelProc bootThread reaperThread) := by
  have zeroed : ∀ p : Ptr, Function.update (fun _ => (⟨0, false, 0, none⟩ : Pcb)) kernelProc
      ⟨0, false, 0, none⟩ p = ⟨0, false, 0, none⟩ := by
    intro p
    simp
  have threads : Chain (schedulerInit kernelProc bootThread).threads (.inl kernelProc) [bootThread] := by
    refine Chain.addHead (Chain.clearNode (chain_clearHead _ _) List.not_mem_nil) List.not_mem_nil
  have others : ∀ p, p ≠ kernelProc → Chain (schedulerInit kernelProc bootThread).threads (.inl p) [] := by
    intro p other
    refine Chain.addHead_other (Chain.clearNode (Chain.clearHead rfl other) List.not_mem_nil) other
      List.not_mem_nil (by simp)
  rw [bootTable_eq]
  refine ⟨zeroed, ?_, Function.update_self _ _ _, ?_, ?_, ?_, ?_, ?_, ?_, ?_, rfl, rfl, rfl, ?_⟩
  · simp [apart, schedulerInit, Table.allocTcb, Table.allocPcb, Table.setTcb, idTableSetProc, emptyTable]
  · intro p
    simp [schedulerInit, Table.allocTcb, Table.allocPcb, Table.setTcb, idTableSetProc, emptyTable,
      Function.update_apply]
  · intro p
    simp [schedulerInit, Table.allocTcb, Table.allocPcb, Table.setTcb, idTableSetProc, emptyTable,
      Function.update_apply, or_comm]
  · refine Chain.addHead (threads.clearNode ?_) ?_
    · simpa using Ne.symm apart
    · simpa using Ne.symm apart
  · intro p other
    exact ((others p other).clearNode List.not_mem_nil).addHead_other other List.not_mem_nil (by simp)
  · intro p
    show Chain (clearHead (clearNode _ _) _) _ _
    by_cases same : p = kernelProc
    · subst same
      exact chain_clearHead _ _
    · refine Chain.clearHead (Chain.clearNode rfl List.not_mem_nil) same
  · dsimp only
    rw [Function.update_self]
  · show tidFree (WordBitmap.clear initialTidBitmap 1) 1 = false
    decide +kernel
  · intro t
    simp [schedulerInit, Table.allocTcb, Table.allocPcb, Table.setTcb, idTableSetProc, emptyTable]

variable {kernelProc}

theorem Booted.rostered (booted : Booted kernelProc bootThread reaperThread s) : Rostered s := by
  have owner : ∀ t, s.tcbUsed t = true → (s.tcb t).process = kernelProc := by
    intro t used
    rcases (booted.tcbUsed t).mp used with rfl | rfl
    · rw [booted.boot]
    · rw [booted.reaper]
  refine ⟨fun p => ?_, ?_, ?_, ?_, ?_, ?_⟩
  · by_cases same : p = kernelProc
    · subst same
      refine ⟨_, booted.threads, fun t => ?_⟩
      rw [List.mem_pair, or_comm, ← booted.tcbUsed t]
      exact ⟨fun used => ⟨used, owner t used⟩, fun both => both.1⟩
    · refine ⟨_, booted.noThreads p same, fun t => ?_⟩
      constructor
      · exact fun member => absurd member List.not_mem_nil
      · rintro ⟨used, mine⟩
        exact absurd (mine.symm.trans (owner t used)) same
  · intro t used
    rw [owner t used]
    exact (booted.pcbUsed _).mpr rfl
  · intro t _ dead
    rw [booted.pcb] at dead
    cases dead
  · rw [booted.kernel]
    exact (booted.pcbUsed _).mpr rfl
  · rw [booted.first]
    exact (booted.tcbUsed _).mpr (.inl rfl)
  · rw [booted.first, booted.boot, booted.kernel]

theorem Booted.registry {reaperThread : KernelPtr} (booted : Booted kernelProc bootThread reaperThread s)
    {held : Holder → Option Nat}
    (alone : ∀ a id, held a = some id → a = .thread reaperThread ∧ id = 1) : Registry held s where
  distinct a b id left right := (alone a id left).1.trans (alone b id right).1.symm
  taken a id here := by
    rw [(alone a id here).2]
    exact ⟨by decide, booted.taken⟩
  found a id here := by
    obtain ⟨rfl, rfl⟩ := alone a id here
    exact idLookup_thread (by decide) booted.idTable

end CreeperKernel.Sched
