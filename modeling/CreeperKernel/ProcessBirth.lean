import CreeperKernel.ProcessTable

namespace CreeperKernel.Sched

open IntrusiveLists

variable {s s' : Table}

/-- What a failed `new_usproc` or `fork_process` leaves: fields of objects that are not
in use may have changed. -/
structure Aborted (s s' : Table) : Prop where
  pcb : ∀ p, s.pcbUsed p = true → s'.pcb p = s.pcb p
  tcb : ∀ t, s.tcbUsed t = true → s'.tcb t = s.tcb t
  pcbUsed : s'.pcbUsed = s.pcbUsed
  tcbUsed : s'.tcbUsed = s.tcbUsed
  threads : ∀ p ts, Chain s.threads (.inl p) ts → (∀ t ∈ ts, s.tcbUsed t = true) →
    (s.pcbUsed p = false → ts = []) → Chain s'.threads (.inl p) ts
  children : ∀ p cs, s.pcbUsed p = true → Chain s.children (.inl p) cs →
    (∀ c ∈ cs, s.pcbUsed c = true) → Chain s'.children (.inl p) cs
  runQueue : ∀ ts, Chain s.runQueue (.inl ()) ts → (∀ t ∈ ts, s.tcbUsed t = true) →
    Chain s'.runQueue (.inl ()) ts
  processes : ∀ ps, Chain s.processes (.inl ()) ps → (∀ p ∈ ps, s.pcbUsed p = true) →
    Chain s'.processes (.inl ()) ps
  processListDepth : s'.processListDepth = s.processListDepth
  idTable : s'.idTable = s.idTable
  tidFree : ∀ id, tidFree s'.tidBitmap id = tidFree s.tidBitmap id
  waiting : ∀ t, s.tcbUsed t = true → s'.waiting t = s.waiting t
  fixed : s'.tid0Used = s.tid0Used ∧ s'.kernelProc = s.kernelProc ∧ s'.bootThread = s.bootThread

structure Born (s : Table) (parent : Option Ptr) (state : ThreadState) (proc thread : KernelPtr)
    (pid tid : Nat) (s' : Table) : Prop where
  newPcb : s.pcbUsed proc = false
  newTcb : s.tcbUsed thread = false
  ids : ∃ bitmap, Issued s.tidBitmap s.tid0Used pid bitmap ∧
    Issued bitmap s.tid0Used tid s'.tidBitmap
  pcb : s'.pcb = Function.update s.pcb proc ⟨pid, false, 0, parent⟩
  tcb : s'.tcb = Function.update s.tcb thread ⟨tid, state, 0, proc⟩
  pcbUsed : s'.pcbUsed = Function.update s.pcbUsed proc true
  tcbUsed : s'.tcbUsed = Function.update s.tcbUsed thread true
  threads : s'.threads = addHead (clearNode (clearHead s.threads proc) thread) thread proc
  children : s'.children = match parent with
    | none => clearHead (clearNode s.children proc) proc
    | some parent => addHead (clearHead (clearNode s.children proc) proc) proc parent
  runQueue : s'.runQueue = addHead (clearNode s.runQueue thread) thread ()
  processes : s'.processes = addHead (clearNode s.processes proc) proc ()
  processListDepth : s'.processListDepth = s.processListDepth + 1
  idTable : s'.idTable =
    Function.update (Function.update s.idTable pid (proc.val &&& ~~~idTagMask)) tid thread
  waiting : s'.waiting = Function.update s.waiting thread none
  fixed : s'.tid0Used = s.tid0Used ∧ s'.kernelProc = s.kernelProc ∧ s'.bootThread = s.bootThread

theorem getUnusedTid_eq_some {id : Nat} (done : s.getUnusedTid = some (id, s')) :
    ∃ bitmap, Issued s.tidBitmap s.tid0Used id bitmap ∧ s' = { s with tidBitmap := bitmap } := by
  obtain ⟨⟨found, bitmap⟩, issued, same⟩ := Option.map_eq_some_iff.mp done
  cases same
  exact ⟨bitmap, getUnusedTid_spec issued, rfl⟩

theorem Issued.free {bitmap bitmap' : TidBitmap} {tid0Used : Bool} {id : Nat}
    (issued : Issued bitmap tid0Used id bitmap') (other : Nat) :
    tidFree (freeTid bitmap' id) other = tidFree bitmap other := by
  rw [tidFree_freeTid bitmap' issued.small, issued.marked]
  by_cases same : id = other
  · subst same
    simp [issued.wasFree]
  · simp [same]

theorem Aborted.refl (s : Table) : Aborted s s :=
  ⟨fun _ _ => rfl, fun _ _ => rfl, rfl, rfl, fun _ _ chain _ _ => chain, fun _ _ _ chain _ => chain,
    fun _ chain _ => chain, fun _ chain _ => chain, rfl, rfl, fun _ => rfl, fun _ _ => rfl, rfl, rfl, rfl⟩

theorem aborted_of (proc : Ptr) (thread : Option Ptr) (newPcb : s.pcbUsed proc = false)
    (newTcb : ∀ t, thread = some t → s.tcbUsed t = false)
    (pcb : ∀ p, p ≠ proc → s'.pcb p = s.pcb p) (tcb : ∀ t, thread ≠ some t → s'.tcb t = s.tcb t)
    (pcbUsed : s'.pcbUsed = s.pcbUsed) (tcbUsed : s'.tcbUsed = s.tcbUsed)
    (threads : s'.threads = match thread with
      | none => clearHead s.threads proc
      | some t => clearNode (clearHead s.threads proc) t)
    (children : s'.children = clearHead (clearNode s.children proc) proc)
    (runQueue : s'.runQueue = match thread with
      | none => s.runQueue
      | some t => clearNode s.runQueue t)
    (processes : s'.processes = clearNode s.processes proc)
    (processListDepth : s'.processListDepth = s.processListDepth)
    (idTable : s'.idTable = s.idTable) (free : ∀ id, tidFree s'.tidBitmap id = tidFree s.tidBitmap id)
    (waiting : ∀ t, thread ≠ some t → s'.waiting t = s.waiting t)
    (fixed : s'.tid0Used = s.tid0Used ∧ s'.kernelProc = s.kernelProc ∧ s'.bootThread = s.bootThread) :
    Aborted s s' := by
  have other : ∀ p, s.pcbUsed p = true → p ≠ proc := by
    intro p used same
    rw [same, newPcb] at used
    cases used
  have apart : ∀ t, s.tcbUsed t = true → thread ≠ some t := by
    intro t used same
    rw [newTcb t same] at used
    cases used
  refine ⟨fun p used => pcb p (other p used), fun t used => tcb t (apart t used), pcbUsed, tcbUsed, ?_, ?_,
    ?_, ?_, processListDepth, idTable, free, fun t used => waiting t (apart t used), fixed⟩
  · intro p ts chain members empty
    rw [threads]
    have cleared : Chain (clearHead s.threads proc) (.inl p) ts := by
      by_cases same : p = proc
      · subst same
        rw [empty newPcb]
        exact chain_clearHead _ _
      · exact chain.clearHead same
    cases thread with
    | none => exact cleared
    | some t => exact cleared.clearNode fun member => apart t (members t member) rfl
  · intro p cs used chain members
    rw [children]
    refine Chain.clearHead (chain.clearNode fun member => ?_) (other p used)
    exact other proc (members proc member) rfl
  · intro ts chain members
    rw [runQueue]
    cases thread with
    | none => exact chain
    | some t => exact chain.clearNode fun member => apart t (members t member) rfl
  · intro ps chain members
    rw [processes]
    exact chain.clearNode fun member => other proc (members proc member) rfl

theorem update_release {α : Type} [DecidableEq α] {used : α → Bool} {x : α} (new : used x = false) :
    Function.update (Function.update used x true) x false = used := by
  rw [Function.update_idem, ← new, Function.update_eq_self]

/-- A process with its pid, before it has a thread. -/
def prepared (s : Table) (proc : Ptr) (parent : Option Ptr) (pid : Nat) (bitmap : TidBitmap) : Table :=
  { s with
    pcb := Function.update s.pcb proc ⟨pid, false, 0, parent⟩
    pcbUsed := Function.update s.pcbUsed proc true
    processes := clearNode s.processes proc
    threads := clearHead s.threads proc
    children := clearHead (clearNode s.children proc) proc
    tidBitmap := bitmap }

theorem prepared_eq (s : Table) (proc : Ptr) (parent : Option Ptr) (pid : Nat) (bitmap : TidBitmap) :
    Table.setPcb { s.allocPcb proc with tidBitmap := bitmap } proc
      { (s.allocPcb proc).pcb proc with pid, parent } = prepared s proc parent pid bitmap := by
  have zeroed : (s.allocPcb proc).pcb proc = ⟨0, false, 0, none⟩ := Function.update_self _ _ _
  rw [zeroed]
  simp only [Table.setPcb, Table.allocPcb, prepared, Function.update_idem]

variable {result : Option (Ptr × Ptr)} {parent : Option Ptr} {supply : Supply} {state : ThreadState}

theorem makeMainThread_spec {proc : KernelPtr} (fresh : supply.Fresh s) (newPcb : s.pcbUsed proc = false) {pid : Nat}
    {bitmap : TidBitmap} (issued : Issued s.tidBitmap s.tid0Used pid bitmap)
    (done : makeMainThread (prepared s proc parent pid bitmap) proc state supply = (result, s')) :
    (result = none ∧ Aborted s s') ∨ ∃ (thread : KernelPtr) (tid : Nat), result = some (proc.val, thread.val) ∧
        Born s parent state proc thread pid tid s' := by
  have name : ((prepared s proc parent pid bitmap).pcb proc).pid = pid := by
    simp [prepared]
  have pcb : ∀ p, p ≠ proc.val → (prepared s proc parent pid bitmap).pcb p = s.pcb p :=
    fun p other => Function.update_of_ne other _ _
  unfold makeMainThread at done
  rw [name] at done
  cases madeTcb : supply.tcb with
  | none =>
    rw [madeTcb] at done
    cases done
    exact .inl ⟨rfl, aborted_of proc none newPcb (by simp) pcb (fun _ _ => rfl)
      (update_release newPcb) rfl rfl rfl rfl rfl rfl rfl issued.free (fun _ _ => rfl) ⟨rfl, rfl, rfl⟩⟩
  | some thread =>
    have newTcb := fresh.tcb thread madeTcb
    have isNew : ∀ t, some thread.val = some t → s.tcbUsed t = false := by
      intro t same
      cases same
      exact newTcb
    have tcb : ∀ t, some thread.val ≠ some t →
        Function.update s.tcb thread ⟨0, .startingUp, 0, proc.val⟩ t = s.tcb t :=
      fun t other => Function.update_of_ne (fun same => other (congrArg some same.symm)) _ _
    have waiting : ∀ t, some thread.val ≠ some t →
        Function.update s.waiting thread none t = s.waiting t :=
      fun t other => Function.update_of_ne (fun same => other (congrArg some same.symm)) _ _
    have undone : Aborted s (((((prepared s proc parent pid bitmap).allocTcb thread proc).freeTcb
        thread).freeTid pid).freePcb proc) :=
      aborted_of proc (some thread.val) newPcb isNew pcb tcb (update_release newPcb)
        (update_release newTcb) rfl rfl rfl rfl rfl rfl issued.free waiting ⟨rfl, rfl, rfl⟩
    rw [madeTcb] at done
    dsimp only at done
    split at done
    · cases done
      exact .inl ⟨rfl, undone⟩
    · split at done
      · cases done
        exact .inl ⟨rfl, undone⟩
      · rename_i tid s₂ gotTid
        obtain ⟨bitmap₂, issued₂, rfl⟩ := getUnusedTid_eq_some gotTid
        replace issued₂ : Issued bitmap s.tid0Used tid bitmap₂ := issued₂
        split at done
        · cases done
          refine .inl ⟨rfl, aborted_of proc (some thread.val) newPcb isNew pcb tcb
            (update_release newPcb) (update_release newTcb) rfl rfl rfl rfl rfl rfl (fun id => ?_) waiting
            ⟨rfl, rfl, rfl⟩⟩
          show tidFree (freeTid (freeTid bitmap₂ tid) pid) id = tidFree s.tidBitmap id
          rw [tidFree_freeTid _ issued.small, issued₂.free, ← tidFree_freeTid bitmap issued.small,
            issued.free]
        · cases done
          refine .inr ⟨thread, tid, rfl, newPcb, newTcb, ⟨bitmap, issued, ?_⟩, ?_, ?_, ?_, ?_, ?_, ?_,
            ?_, ?_, ?_, ?_, ?_, ?_⟩
          · cases parent <;>
              simpa [linkProcess, prepared, Table.setTcb, Table.allocTcb, idTableSetProc,
                idTableSetThread] using issued₂
          all_goals cases parent <;>
            simp [linkProcess, prepared, Table.setTcb, Table.allocTcb, idTableSetProc,
              idTableSetThread]

theorem makeProcess_spec (fresh : supply.Fresh s) (done : makeProcess s parent state supply = (result, s')) :
    (result = none ∧ Aborted s s') ∨ ∃ proc thread pid tid, supply.pcb = some proc ∧ result = some (proc.val, thread.val) ∧
        Born s parent state proc thread pid tid s' := by
  unfold makeProcess at done
  cases madePcb : supply.pcb with
  | none =>
    rw [madePcb] at done
    cases done
    exact .inl ⟨rfl, .refl s⟩
  | some proc =>
    have newPcb := fresh.pcb proc madePcb
    rw [madePcb] at done
    dsimp only at done
    split at done
    · cases done
      refine .inl ⟨rfl, aborted_of proc none newPcb (by simp) ?_ (fun _ _ => rfl)
        (update_release newPcb) rfl rfl rfl rfl rfl rfl rfl (fun _ => rfl) (fun _ _ => rfl) ⟨rfl, rfl, rfl⟩⟩
      exact fun p other => Function.update_of_ne other _ _
    · rename_i pid s₁ gotPid
      obtain ⟨bitmap, issued, rfl⟩ := getUnusedTid_eq_some gotPid
      rw [prepared_eq] at done
      split at done
      · cases done
        refine .inl ⟨rfl, aborted_of proc none newPcb (by simp) ?_ (fun _ _ => rfl)
          (update_release newPcb) rfl rfl rfl rfl rfl rfl rfl issued.free (fun _ _ => rfl) ⟨rfl, rfl, rfl⟩⟩
        exact fun p other => Function.update_of_ne other _ _
      · rcases makeMainThread_spec fresh newPcb issued done with aborted | ⟨thread, tid, same, born⟩
        · exact .inl aborted
        · exact .inr ⟨proc, thread, pid, tid, rfl, same, born⟩

end CreeperKernel.Sched
