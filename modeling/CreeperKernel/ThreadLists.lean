import CreeperKernel.ProcessIds
import CreeperKernel.ThreadEffects

namespace CreeperKernel.Sched

open IntrusiveLists
open Transitions (Run)

variable {s s' : Table} {proc thread : Ptr}

/-- The ids taken from the bitmap. The boot thread has number 0, which is never issued,
and the kernel process counts as having none. -/
def issuedId (s : Table) : Holder → Option Nat
  | .proc p => if s.pcbUsed p = true ∧ p ≠ s.kernelProc then some (s.pcb p).pid else none
  | .thread t => if s.tcbUsed t = true ∧ (s.tcb t).tid ≠ 0 then some (s.tcb t).tid else none

variable {id tid pid : Nat}

theorem issuedId_proc {p : Ptr} : issuedId s (.proc p) = some id ↔
    s.pcbUsed p = true ∧ p ≠ s.kernelProc ∧ (s.pcb p).pid = id := by
  simp [issuedId, and_assoc]

theorem issuedId_thread {t : Ptr} : issuedId s (.thread t) = some id ↔
    s.tcbUsed t = true ∧ (s.tcb t).tid ≠ 0 ∧ (s.tcb t).tid = id := by
  simp [issuedId, and_assoc]

/-- Every process and thread has a number to itself. -/
structure Numbered (s : Table) : Prop where
  ids : Registry (issuedId s) s
  reserved : s.tid0Used = true
  named : ∀ p, s.pcbUsed p = true → p ≠ s.kernelProc → (s.pcb p).pid ≠ 0

theorem Numbered.id_ne_zero (numbered : Numbered s) {a : Holder} (here : issuedId s a = some id) : id ≠ 0 := by
  cases a with
  | proc p =>
    obtain ⟨used, user, name⟩ := issuedId_proc.mp here
    rw [← name]
    exact numbered.named p used user
  | thread t =>
    obtain ⟨-, positive, name⟩ := issuedId_thread.mp here
    rw [← name]
    exact positive

theorem Numbered.congr (numbered : Numbered s) (pcbUsed : s'.pcbUsed = s.pcbUsed)
    (tcbUsed : s'.tcbUsed = s.tcbUsed) (pid : ∀ p, s.pcbUsed p = true → (s'.pcb p).pid = (s.pcb p).pid)
    (tid : ∀ t, s.tcbUsed t = true → (s'.tcb t).tid = (s.tcb t).tid)
    (bits : ∀ id, tidFree s'.tidBitmap id = tidFree s.tidBitmap id) (table : s'.idTable = s.idTable)
    (kernelProc : s'.kernelProc = s.kernelProc) (tid0Used : s'.tid0Used = s.tid0Used) : Numbered s' := by
  refine ⟨?_, tid0Used.trans numbered.reserved, ?_⟩
  · apply numbered.ids.shrink
    · intro a id here
      cases a with
      | proc p =>
        rw [issuedId_proc, pcbUsed, kernelProc] at here
        rw [pid p here.1] at here
        exact issuedId_proc.mpr here
      | thread t =>
        rw [issuedId_thread, tcbUsed] at here
        rw [tid t here.1] at here
        exact issuedId_thread.mpr here
    · exact fun _ id _ => bits id
    · intro _ _ _
      rw [table]
  · intro p used user
    rw [pcbUsed] at used
    rw [kernelProc] at user
    rw [pid p used]
    exact numbered.named p used user

variable {parent : Option Ptr} {state : ThreadState}

theorem Numbered.born (numbered : Numbered s) (enlisted : Enlisted s) {proc thread : KernelPtr}
    (born : Born s parent state proc thread pid tid s') : Numbered s' := by
  obtain ⟨tid0Used, kernelProc, -⟩ := born.fixed
  obtain ⟨bitmap, first, second⟩ := born.ids
  have newPcb : s'.pcb proc = ⟨pid, false, 0, parent⟩ := by rw [born.pcb, Function.update_self]
  have newUsed : s'.pcbUsed proc = true := by rw [born.pcbUsed, Function.update_self]
  have user : proc.val ≠ s.kernelProc := (born.old_process enlisted.kernel).1.symm
  have positive : tid ≠ 0 := second.notReserved numbered.reserved
  refine ⟨numbered.ids.birth born ?_ ?_ ?_, tid0Used.trans numbered.reserved, ?_⟩
  · rw [issuedId_proc, newPcb, kernelProc]
    exact ⟨newUsed, user, rfl⟩
  · rw [issuedId_thread, born.tcb, born.tcbUsed, Function.update_self, Function.update_self]
    exact ⟨rfl, positive, rfl⟩
  · intro a notProc notThread id here
    cases a with
    | proc p =>
      have other : p ≠ proc.val := fun same => notProc (congrArg _ same)
      rw [issuedId_proc, born.pcbUsed, born.pcb, kernelProc, Function.update_of_ne other,
        Function.update_of_ne other] at here
      exact issuedId_proc.mpr here
    | thread t =>
      have other : t ≠ thread.val := fun same => notThread (congrArg _ same)
      rw [issuedId_thread, born.tcbUsed, born.tcb, Function.update_of_ne other,
        Function.update_of_ne other] at here
      exact issuedId_thread.mpr here
  · intro p used notKernel
    rw [kernelProc] at notKernel
    by_cases new : p = proc.val
    · rw [new, newPcb]
      exact first.notReserved numbered.reserved
    · rw [born.pcbUsed, Function.update_of_ne new] at used
      rw [born.pcb, Function.update_of_ne new]
      exact numbered.named p used notKernel

theorem Numbered.recruited (numbered : Numbered s) {thread : KernelPtr}
    (recruited : Recruited s proc state thread tid s') : Numbered s' := by
  have rest := recruited.rest
  have tcb : s'.tcb = Function.update s.tcb thread ⟨tid, state, 0, proc⟩ := by rw [rest]
  have tcbUsed : s'.tcbUsed = Function.update s.tcbUsed thread true := by rw [rest]
  have issued : Registry (Function.update (issuedId s) (.thread thread) (some tid)) s' := by
    apply numbered.ids.issue s' recruited.issued
    · apply idLookup_thread recruited.issued.small
      rw [rest]
      exact Function.update_self _ _ _
    · intro i other
      rw [rest]
      exact Function.update_of_ne other _ _
  refine ⟨issued.shrink ?_ (fun _ _ _ => rfl) (fun _ _ _ => rfl), by rw [rest]; exact numbered.reserved, ?_⟩
  · intro a id here
    cases a with
    | proc p =>
      rw [Function.update_of_ne (by simp)]
      rw [rest] at here
      exact here
    | thread t =>
      by_cases new : t = thread.val
      · subst new
        rw [issuedId_thread, tcb, Function.update_self] at here
        rw [Function.update_self]
        exact congrArg some here.2.2
      · rw [Function.update_of_ne fun same => new (Holder.thread.inj same)]
        rw [issuedId_thread, tcbUsed, tcb, Function.update_of_ne new, Function.update_of_ne new] at here
        exact issuedId_thread.mpr here
  · rw [rest]
    exact numbered.named

/-- A thread gives its number back. Number 0 is nobody's. -/
theorem Numbered.dismissed (numbered : Numbered s) (used : s.tcbUsed thread = true)
    (tcb : s'.tcb = s.tcb) (pcb : s'.pcb = s.pcb) (pcbUsed : s'.pcbUsed = s.pcbUsed)
    (tcbUsed : s'.tcbUsed = Function.update s.tcbUsed thread false)
    (bits : s'.tidBitmap = freeTid s.tidBitmap (s.tcb thread).tid)
    (table : s'.idTable = Function.update s.idTable (s.tcb thread).tid 0)
    (kernelProc : s'.kernelProc = s.kernelProc) (tid0Used : s'.tid0Used = s.tid0Used) : Numbered s' := by
  have less : ∀ a id, issuedId s' a = some id → issuedId s a = some id ∧ a ≠ .thread thread := by
    intro a id here
    cases a with
    | proc p =>
      rw [issuedId_proc, pcbUsed, pcb, kernelProc] at here
      exact ⟨issuedId_proc.mpr here, by simp⟩
    | thread t =>
      rw [issuedId_thread, tcbUsed, tcb, Function.update_apply] at here
      split at here
      · exact absurd here.1 (by simp)
      · rename_i other
        exact ⟨issuedId_thread.mpr here, fun same => other (Holder.thread.inj same)⟩
  refine ⟨?_, tid0Used.trans numbered.reserved, ?_⟩
  · apply numbered.ids.release (fun a id here => (less a id here).1) _ bits table
    intro a id here same
    obtain ⟨before, other⟩ := less a id here
    have positive : (s.tcb thread).tid ≠ 0 := by
      rw [same]
      exact numbered.id_ne_zero before
    exact other (numbered.ids.distinct _ _ id before (issuedId_thread.mpr ⟨used, positive, same⟩))
  · rw [pcbUsed, pcb, kernelProc]
    exact numbered.named

theorem Numbered.procReaped (numbered : Numbered s) (used : s.pcbUsed proc = true)
    (reaped : ProcReaped s proc s') : Numbered s' := by
  have rest := reaped.rest
  have ⟨_, pcb, _, kernelProc, _⟩ := reaped.kept
  have less : ∀ a id, issuedId s' a = some id → issuedId s a = some id ∧ a ≠ .proc proc := by
    intro a id here
    cases a with
    | proc p =>
      rw [issuedId_proc, pcb, kernelProc] at here
      obtain ⟨other, before⟩ := (reaped.still p).mp here.1
      exact ⟨issuedId_proc.mpr ⟨before, here.2⟩, fun same => other (Holder.proc.inj same)⟩
    | thread t =>
      rw [rest] at here
      exact ⟨here, by simp⟩
  refine ⟨?_, by rw [rest]; exact numbered.reserved, ?_⟩
  · apply numbered.ids.release (fun a id here => (less a id here).1) _ (by rw [rest]) (by rw [rest])
    intro a id here same
    obtain ⟨before, other⟩ := less a id here
    exact other (numbered.ids.distinct _ _ id before (issuedId_proc.mpr ⟨used, reaped.user, same⟩))
  · intro p here user
    rw [kernelProc] at user
    rw [pcb]
    exact numbered.named p ((reaped.still p).mp here).2 user

/-- There are no more processes than numbers, and the kernel's. -/
theorem Numbered.few (numbered : Numbered s) {ps : List Ptr} (nodup : ps.Nodup)
    (used : ∀ p ∈ ps, s.pcbUsed p = true) : ps.length ≤ maxTid + 1 := by
  have users : (ps.erase s.kernelProc).length ≤ maxTid := by
    have inside : (ps.erase s.kernelProc).map (fun p => (s.pcb p).pid) ⊆ List.range maxTid := by
      intro id member
      obtain ⟨p, here, name⟩ := List.mem_map.mp member
      obtain ⟨user, listed⟩ := nodup.mem_erase_iff.mp here
      rw [List.mem_range]
      exact (numbered.ids.taken _ id (issuedId_proc.mpr ⟨used p listed, user, name⟩)).1
    have distinct : ((ps.erase s.kernelProc).map fun p => (s.pcb p).pid).Nodup := by
      apply List.Nodup.map_on _ (nodup.erase _)
      intro p left q right same
      obtain ⟨leftUser, leftListed⟩ := nodup.mem_erase_iff.mp left
      obtain ⟨rightUser, rightListed⟩ := nodup.mem_erase_iff.mp right
      apply Holder.proc.inj
      exact numbered.ids.distinct _ _ _ (issuedId_proc.mpr ⟨used p leftListed, leftUser, same⟩)
        (issuedId_proc.mpr ⟨used q rightListed, rightUser, rfl⟩)
    have bound := (distinct.subperm inside).length_le
    rwa [List.length_map, List.length_range] at bound
  have shorter : ps.length - 1 ≤ (ps.erase s.kernelProc).length := List.le_length_erase
  omega

/-- The run queue holds the threads that are not zombies. -/
def Queued (s : Table) : Prop :=
  ∃ ts, Chain s.runQueue (.inl ()) ts ∧ ∀ t, t ∈ ts ↔ s.tcbUsed t = true ∧ (s.tcb t).state ≠ .zombie

/-- The process list holds all processes, and its depth is known. -/
def Counted (s : Table) : Prop :=
  ∃ ps, Chain s.processes (.inl ()) ps ∧ (∀ p, p ∈ ps ↔ s.pcbUsed p = true) ∧
    s.processListDepth.toNat = ps.length

theorem Queued.congr (queued : Queued s) (runQueue : s'.runQueue = s.runQueue)
    (same : ∀ t, s'.tcbUsed t = true ∧ (s'.tcb t).state ≠ .zombie ↔
      s.tcbUsed t = true ∧ (s.tcb t).state ≠ .zombie) : Queued s' := by
  obtain ⟨ts, chain, members⟩ := queued
  exact ⟨ts, by rw [runQueue]; exact chain, fun t => (members t).trans (same t).symm⟩

theorem Queued.joined (queued : Queued s) (new : s.tcbUsed thread = false)
    (runQueue : s'.runQueue = addHead (clearNode s.runQueue thread) thread ())
    (tcbUsed : s'.tcbUsed = Function.update s.tcbUsed thread true)
    (tcb : ∀ t, t ≠ thread → s'.tcb t = s.tcb t) (alive : (s'.tcb thread).state ≠ .zombie) : Queued s' := by
  obtain ⟨ts, chain, members⟩ := queued
  have outside : thread ∉ ts := by
    intro member
    rw [((members thread).mp member).1] at new
    cases new
  refine ⟨thread :: ts, ?_, fun t => ?_⟩
  · rw [runQueue]
    exact (chain.clearNode outside).addHead outside
  · rw [List.mem_cons, members t, tcbUsed, Function.update_apply]
    split
    · rename_i same
      subst same
      simp [alive]
    · rename_i other
      simp [other, tcb t other]

theorem Queued.left (queued : Queued s) (used : s.tcbUsed thread = true)
    (running : (s.tcb thread).state ≠ .zombie) (dequeued : del s.runQueue thread = some s'.runQueue)
    (others : ∀ t, t ≠ thread → (s'.tcbUsed t = s.tcbUsed t ∧ s'.tcb t = s.tcb t))
    (gone : ¬ (s'.tcbUsed thread = true ∧ (s'.tcb thread).state ≠ .zombie)) : Queued s' := by
  obtain ⟨ts, chain, members⟩ := queued
  obtain ⟨l, removed, after⟩ := chain.del_mem ((members thread).mpr ⟨used, running⟩)
  cases removed.symm.trans dequeued
  refine ⟨ts.erase thread, after, fun t => ?_⟩
  rw [chain.nodup.mem_erase_iff]
  by_cases same : t = thread
  · subst same
    simp only [ne_eq, not_true_eq_false, false_and, false_iff]
    exact gone
  · rw [members t, (others t same).1, (others t same).2]
    exact and_iff_right same

variable {exitCode : Int}

theorem Queued.threadExited (queued : Queued s) (used : s.tcbUsed thread = true)
    (exited : ThreadExited s thread exitCode s') : Queued s' := by
  have rest := exited.rest
  apply queued.left used exited.running exited.dequeued
  · intro t other
    rw [rest]
    exact ⟨rfl, Function.update_of_ne other _ _⟩
  · rw [rest]
    simp

theorem Counted.congr (counted : Counted s) (processes : s'.processes = s.processes)
    (pcbUsed : s'.pcbUsed = s.pcbUsed) (depth : s'.processListDepth = s.processListDepth) : Counted s' := by
  obtain ⟨ps, chain, members, length⟩ := counted
  refine ⟨ps, by rw [processes]; exact chain, fun p => ?_, by rw [depth]; exact length⟩
  rw [pcbUsed]
  exact members p

theorem Counted.born (counted : Counted s) (numbered : Numbered s) {proc thread : KernelPtr}
    (born : Born s parent state proc thread pid tid s') : Counted s' := by
  obtain ⟨ps, chain, members, length⟩ := counted
  have outside : proc.val ∉ ps := fun member => (born.old_process ((members _).mp member)).1 rfl
  refine ⟨proc :: ps, ?_, fun p => ?_, ?_⟩
  · rw [born.processes]
    exact (chain.clearNode outside).addHead outside
  · rw [List.mem_cons, members p, born.pcbUsed, Function.update_apply]
    split
    · rename_i same
      simp [same]
    · rename_i other
      simp [other]
  · have few := numbered.few chain.nodup fun p member => (members p).mp member
    simp only [maxTid] at few
    rw [born.processListDepth, BitVec.toNat_add, length, List.length_cons]
    exact Nat.mod_eq_of_lt (by simp; omega)

theorem Counted.procReaped (counted : Counted s) (used : s.pcbUsed proc = true)
    (reaped : ProcReaped s proc s') : Counted s' := by
  obtain ⟨ps, chain, members, length⟩ := counted
  have here : proc ∈ ps := (members proc).mpr used
  obtain ⟨l, removed, after⟩ := chain.del_mem here
  cases removed.symm.trans reaped.removed
  have depth : s'.processListDepth = s.processListDepth - 1 := by rw [reaped.rest]
  refine ⟨ps.erase proc, after, fun p => ?_, ?_⟩
  · rw [chain.nodup.mem_erase_iff, members p, reaped.still]
  · have positive : 0 < ps.length := List.length_pos_of_mem here
    have bound := s.processListDepth.isLt
    rw [length] at bound
    have one : (1 : BitVec 16).toNat = 1 := rfl
    rw [depth, BitVec.toNat_sub, length, List.length_erase_of_mem here, one]
    omega

/-- All lists agree with the objects. Kernel threads do not become zombies. -/
structure Listed (s : Table) : Prop where
  enlisted : Enlisted s
  queued : Queued s
  counted : Counted s
  numbered : Numbered s
  kernelRuns : ∀ t, s.tcbUsed t = true → (s.tcb t).process = s.kernelProc → (s.tcb t).state ≠ .zombie

theorem Listed.aborted (listed : Listed s) (aborted : Aborted s s') : Listed s' := by
  obtain ⟨tid0Used, kernelProc, -⟩ := aborted.fixed
  refine ⟨listed.enlisted.aborted aborted, ?_, ?_, ?_, ?_⟩
  · obtain ⟨ts, chain, members⟩ := listed.queued
    refine ⟨ts, aborted.runQueue ts chain fun t member => ((members t).mp member).1, fun t => ?_⟩
    rw [members t, aborted.tcbUsed]
    apply and_congr_right
    intro used
    rw [aborted.tcb t used]
  · obtain ⟨ps, chain, members, length⟩ := listed.counted
    refine ⟨ps, aborted.processes ps chain fun p member => (members p).mp member, fun p => ?_, ?_⟩
    · rw [members p, aborted.pcbUsed]
    · rw [aborted.processListDepth, length]
  · apply listed.numbered.congr aborted.pcbUsed aborted.tcbUsed _ _ aborted.tidFree aborted.idTable
      kernelProc tid0Used
    · intro p used
      rw [aborted.pcb p used]
    · intro t used
      rw [aborted.tcb t used]
  · intro t used mine
    rw [aborted.tcbUsed] at used
    rw [aborted.tcb t used] at mine ⊢
    exact listed.kernelRuns t used (mine.trans kernelProc)

theorem Listed.born (listed : Listed s) {proc thread : KernelPtr} (alive : state ≠ .zombie)
    (born : Born s parent state proc thread pid tid s') : Listed s' := by
  refine ⟨listed.enlisted.born born, ?_, listed.counted.born listed.numbered born,
    listed.numbered.born listed.enlisted born, ?_⟩
  · apply listed.queued.joined born.newTcb born.runQueue born.tcbUsed
    · intro t other
      rw [born.tcb, Function.update_of_ne other]
    · rw [born.tcb, Function.update_self]
      exact alive
  · intro t used mine
    rcases (born.used_thread t).mp used with rfl | old
    · rw [born.tcb, Function.update_self]
      exact alive
    · rw [(born.old_thread old).2] at mine ⊢
      exact listed.kernelRuns t old (mine.trans born.fixed.2.1)

theorem Listed.recruited (listed : Listed s) (known : s.pcbUsed proc = true) {thread : KernelPtr}
    (alive : state ≠ .zombie) (recruited : Recruited s proc state thread tid s') : Listed s' := by
  have rest := recruited.rest
  have tcb : s'.tcb = Function.update s.tcb thread ⟨tid, state, 0, proc⟩ := by rw [rest]
  have tcbUsed : s'.tcbUsed = Function.update s.tcbUsed thread true := by rw [rest]
  have kernelProc : s'.kernelProc = s.kernelProc := by rw [rest]
  refine ⟨listed.enlisted.recruited known recruited, ?_, ?_, listed.numbered.recruited recruited, ?_⟩
  · apply listed.queued.joined recruited.newTcb (by rw [rest]) (by rw [rest])
    · intro t other
      rw [tcb, Function.update_of_ne other]
    · rw [tcb, Function.update_self]
      exact alive
  · apply listed.counted.congr <;> rw [rest]
  · intro t used mine
    rw [tcb, kernelProc] at mine
    rw [tcb]
    by_cases new : t = thread.val
    · rw [new, Function.update_self]
      exact alive
    · rw [tcbUsed, Function.update_of_ne new] at used
      rw [Function.update_of_ne new] at mine ⊢
      exact listed.kernelRuns t used mine

theorem Listed.threadExited (listed : Listed s) (used : s.tcbUsed thread = true)
    (user : (s.tcb thread).process ≠ s.kernelProc) (exited : ThreadExited s thread exitCode s') : Listed s' := by
  have rest := exited.rest
  have tcb : s'.tcb = Function.update s.tcb thread { s.tcb thread with exitCode, state := .zombie } := by
    rw [rest]
  have same : ∀ t, (s'.tcb t).tid = (s.tcb t).tid ∧ (s'.tcb t).process = (s.tcb t).process := by
    intro t
    rw [tcb, Function.update_apply]
    split
    · rename_i isThread
      subst isThread
      exact ⟨rfl, rfl⟩
    · exact ⟨rfl, rfl⟩
  refine ⟨listed.enlisted.threadExited exited, listed.queued.threadExited used exited, ?_, ?_, ?_⟩
  · apply listed.counted.congr <;> rw [rest]
  · apply listed.numbered.congr _ _ (fun _ _ => by rw [rest]) (fun t _ => (same t).1) (fun _ => by rw [rest])
    all_goals rw [rest]
  · intro t here mine
    have before : (s.tcb t).process = s.kernelProc := by
      rw [← (same t).2, mine, rest]
    have other : t ≠ thread := by
      rintro rfl
      exact user before
    rw [tcb, Function.update_of_ne other]
    rw [rest] at here
    exact listed.kernelRuns t here before

theorem Listed.procExited (listed : Listed s) (proc : Ptr) (exitCode : Int) :
    Listed (s.setPcb proc { s.pcb proc with exitCode, zombie := true }) := by
  have pid : ∀ p, (Function.update s.pcb proc { s.pcb proc with exitCode, zombie := true } p).pid =
      (s.pcb p).pid := by
    intro p
    rw [Function.update_apply]
    split
    · rename_i same
      rw [same]
    · rfl
  exact ⟨listed.enlisted.congr rfl rfl rfl (fun _ _ => rfl) rfl, listed.queued, listed.counted,
    listed.numbered.congr rfl rfl (fun p _ => pid p) (fun _ _ => rfl) (fun _ => rfl) rfl rfl rfl,
    listed.kernelRuns⟩

theorem Listed.threadReaped (listed : Listed s) (used : s.tcbUsed thread = true)
    (reaped : ThreadReaped s thread s') : Listed s' := by
  have rest := reaped.rest
  refine ⟨listed.enlisted.threadReaped used reaped, ?_, ?_, ?_, ?_⟩
  · apply listed.queued.congr (by rw [rest])
    intro t
    rw [rest]
    dsimp only
    rw [Function.update_apply]
    split
    · rename_i same
      simp [same, reaped.zombie]
    · rfl
  · apply listed.counted.congr <;> rw [rest]
  · apply listed.numbered.dismissed used <;> rw [rest]
  · intro t here
    rw [rest]
    exact listed.kernelRuns t ((reaped.still t).mp here).2

theorem Listed.procReaped (listed : Listed s) (used : s.pcbUsed proc = true)
    (reaped : ProcReaped s proc s') : Listed s' := by
  have rest := reaped.rest
  refine ⟨listed.enlisted.procReaped reaped, ?_, listed.counted.procReaped used reaped,
    listed.numbered.procReaped used reaped, ?_⟩
  · apply listed.queued.congr (by rw [rest])
    intro t
    rw [rest]
  · rw [rest]
    exact listed.kernelRuns

theorem Listed.killed (listed : Listed s) (used : s.tcbUsed thread = true) (killed : Killed s thread s') : Listed s' := by
  have rest := killed.rest
  have tcbUsed : s'.tcbUsed = Function.update s.tcbUsed thread false := by rw [rest]
  have running := listed.kernelRuns thread used killed.kernel
  refine ⟨?_, ?_, ?_, ?_, ?_⟩
  · apply listed.enlisted.dismissed used killed.removed <;> rw [rest]
  · apply listed.queued.left used running killed.dequeued
    · intro t other
      rw [rest]
      exact ⟨Function.update_of_ne other _ _, rfl⟩
    · rw [rest]
      simp
  · apply listed.counted.congr <;> rw [rest]
  · apply listed.numbered.dismissed used <;> rw [rest]
  · intro t here
    rw [tcbUsed, Function.update_apply] at here
    split at here
    · cases here
    · rw [rest]
      exact listed.kernelRuns t here

theorem Listed.effect (listed : Listed s) {alive childless : Prop} (starts : alive)
    (effect : Effect alive childless s s') : Listed s' := by
  cases effect with
  | aborted aborted => exact listed.aborted aborted
  | born known running born => exact listed.born running born
  | recruited known running recruited => exact listed.recruited known (running starts) recruited
  | threadExited used user exited => exact listed.threadExited used user exited
  | procExited proc exitCode => exact listed.procExited proc exitCode
  | threadReaped used reaped => exact listed.threadReaped used reaped
  | procReaped used alone reaped => exact listed.procReaped used reaped
  | killed used killed => exact listed.killed used killed

theorem Listed.step (listed : Listed s) {call : LifeCall} (alive : call.StartsAlive)
    (step : LifeStep s call s') : Listed s' :=
  step.keeps Listed listed.enlisted (fun _ _ before effect => before.effect alive effect) listed

theorem listed_schedulerInit (kernelProc bootThread : Ptr) : Listed (schedulerInit kernelProc bootThread) := by
  have pcbUsed : ∀ p, (schedulerInit kernelProc bootThread).pcbUsed p = true ↔ p = kernelProc := by
    intro p
    simp [schedulerInit, Table.allocTcb, Table.allocPcb, Table.setTcb, idTableSetProc, emptyTable,
      Function.update_apply]
  have tcbUsed : ∀ t, (schedulerInit kernelProc bootThread).tcbUsed t = true ↔ t = bootThread := by
    intro t
    simp [schedulerInit, Table.allocTcb, Table.allocPcb, Table.setTcb, idTableSetProc, emptyTable,
      Function.update_apply]
  have boot : (schedulerInit kernelProc bootThread).tcb bootThread = ⟨0, .runnable, 0, kernelProc⟩ := by
    simp [schedulerInit, Table.allocTcb, Table.allocPcb, Table.setTcb, idTableSetProc, emptyTable]
  have noIds : ∀ {a id}, issuedId (schedulerInit kernelProc bootThread) a ≠ some id := by
    intro a id here
    cases a with
    | proc p =>
      obtain ⟨used, user, -⟩ := issuedId_proc.mp here
      exact user ((pcbUsed p).mp used)
    | thread t =>
      obtain ⟨used, positive, -⟩ := issuedId_thread.mp here
      rw [(tcbUsed t).mp used, boot] at positive
      exact positive rfl
  refine ⟨⟨fun p => ?_, ?_, (pcbUsed _).mpr rfl⟩, ⟨[bootThread], ?_, fun t => ?_⟩,
    ⟨[kernelProc], ?_, fun p => ?_, rfl⟩, ⟨⟨?_, ?_, ?_⟩, rfl, ?_⟩, ?_⟩
  · by_cases same : p = kernelProc
    · subst same
      refine ⟨[bootThread], Chain.addHead (Chain.clearNode (chain_clearHead _ _) List.not_mem_nil)
        List.not_mem_nil, fun t => ?_⟩
      rw [List.mem_singleton, tcbUsed, iff_self_and]
      rintro rfl
      rw [boot]
    · refine ⟨[], Chain.addHead_other (Chain.clearNode (Chain.clearHead rfl same) List.not_mem_nil) same
        List.not_mem_nil (by simp), fun t => ?_⟩
      rw [tcbUsed]
      constructor
      · exact fun member => absurd member List.not_mem_nil
      · rintro ⟨rfl, mine⟩
        rw [boot] at mine
        exact absurd mine.symm same
  · intro t used
    rw [(tcbUsed t).mp used, boot]
    exact (pcbUsed _).mpr rfl
  · exact Chain.addHead (Chain.clearNode rfl List.not_mem_nil) List.not_mem_nil
  · rw [List.mem_singleton, tcbUsed, iff_self_and]
    rintro rfl
    rw [boot]
    simp
  · exact Chain.addHead (Chain.clearNode rfl List.not_mem_nil) List.not_mem_nil
  · rw [List.mem_singleton, pcbUsed]
  · exact fun _ _ _ here => absurd here noIds
  · exact fun _ _ here => absurd here noIds
  · exact fun _ _ here => absurd here noIds
  · intro p used user
    exact absurd ((pcbUsed p).mp used) user
  · intro t used _
    rw [(tcbUsed t).mp used, boot]
    simp

/-- Each thread is on the list of its process and, unless it is a zombie, on the run
queue, once each; both and the process list are well formed, and the depth counts the
processes. -/
structure ListsKept (s : Table) : Prop where
  threads : ∀ p, ∃ ts, Chain s.threads (.inl p) ts ∧ ts.Nodup ∧
    ∀ t, t ∈ ts ↔ s.tcbUsed t = true ∧ (s.tcb t).process = p
  process : ∀ t, s.tcbUsed t = true → s.pcbUsed (s.tcb t).process = true
  runQueue : ∃ ts, Chain s.runQueue (.inl ()) ts ∧ ts.Nodup ∧
    ∀ t, t ∈ ts ↔ s.tcbUsed t = true ∧ (s.tcb t).state ≠ .zombie
  processes : ∃ ps, Chain s.processes (.inl ()) ps ∧ ps.Nodup ∧ (∀ p, p ∈ ps ↔ s.pcbUsed p = true) ∧
    s.processListDepth.toNat = ps.length

theorem Listed.kept (listed : Listed s) : ListsKept s := by
  refine ⟨fun p => ?_, listed.enlisted.process, ?_, ?_⟩
  · obtain ⟨ts, chain, members⟩ := listed.enlisted.roster p
    exact ⟨ts, chain, chain.nodup, members⟩
  · obtain ⟨ts, chain, members⟩ := listed.queued
    exact ⟨ts, chain, chain.nodup, members⟩
  · obtain ⟨ps, chain, members, depth⟩ := listed.counted
    exact ⟨ps, chain, chain.nodup, members, depth⟩

/-- Whatever sequence of calls makes and ends threads and processes, if no thread starts
as a zombie the lists agree with the threads and processes there are. -/
theorem thread_lists_kept (kernelProc bootThread : KernelPtr) (calls : List LifeCall) (s : Table)
    (alive : ∀ call ∈ calls, call.StartsAlive)
    (run : Run LifeStep (schedulerInit kernelProc bootThread) calls s) : ListsKept s := by
  have good := run.restrict fun call member _ => alive call member
  have listed : Listed s :=
    good.invariant Listed (fun _ _ _ listed taken => listed.step taken.2 taken.1)
      (listed_schedulerInit kernelProc bootThread)
  exact listed.kept

/-- A user process is started, gets a second thread, ends, and is reaped. -/
def twoThreads : List LifeCall :=
  [.newUsproc (some (kernelObject 0)) (plentiful 2 3),
    .newThread (some (kernelObject 2)) tcbStateRunnable ⟨some (kernelObject 4), true, true⟩,
    .usprocExit (kernelObject 3) (kernelObject 2) 7, .reapUsThread (kernelObject 3),
    .reapUsThread (kernelObject 4)]

theorem thread_lists_kept_two_threads : ∃ s,
    Run LifeStep (schedulerInit (kernelObject 0) (kernelObject 1)) twoThreads s ∧
      s.pcbUsed (kernelObject 2) = false ∧ ListsKept s := by
  have seen : (performLife (fun _ _ => true) 8 (schedulerInit (kernelObject 0) (kernelObject 1)) twoThreads).map
      (fun s => s.pcbUsed (kernelObject 2)) = some false := by decide +kernel
  obtain ⟨s, done, gone⟩ := Option.map_eq_some_iff.mp seen
  have run := (run_of_performLife done).mono fun _ _ _ taken => taken.1
  refine ⟨s, run, gone, thread_lists_kept (kernelObject 0) (kernelObject 1) twoThreads s ?_ run⟩
  intro call member
  simp only [twoThreads, List.mem_cons, List.not_mem_nil, or_false] at member
  rcases member with rfl | rfl | rfl | rfl | rfl
  all_goals simp only [LifeCall.StartsAlive]
  decide

/-- A thread that starts as a zombie is on the run queue all the same. -/
theorem zombie_start_is_queued : ∃ s,
    Run LifeStep (schedulerInit (kernelObject 0) (kernelObject 1))
      [.newThread none tcbStateZombie ⟨some (kernelObject 2), true, true⟩] s ∧
    (s.tcb (kernelObject 2)).state = .zombie ∧ s.runQueue.first () = some (kernelObject 2).val ∧
    ¬ ListsKept s := by
  have seen : (performLife (fun _ _ => true) 8 (schedulerInit (kernelObject 0) (kernelObject 1))
      [.newThread none tcbStateZombie ⟨some (kernelObject 2), true, true⟩]).map
      (fun s => ((s.tcb (kernelObject 2)).state, s.runQueue.first ())) =
      some (.zombie, some (kernelObject 2).val) := by decide +kernel
  obtain ⟨s, done, same⟩ := Option.map_eq_some_iff.mp seen
  simp only [Prod.mk.injEq] at same
  obtain ⟨zombie, first⟩ := same
  refine ⟨s, (run_of_performLife done).mono fun _ _ _ taken => taken.1, zombie, first, fun kept => ?_⟩
  obtain ⟨ts, chain, -, members⟩ := kept.runQueue
  have listed : (kernelObject 2).val ∈ ts := by
    cases ts with
    | nil => cases first.symm.trans chain
    | cons x ts =>
      cases first.symm.trans chain.1
      exact List.mem_cons_self
  exact ((members _).mp listed).2 zombie

end CreeperKernel.Sched
