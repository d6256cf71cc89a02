import CreeperKernel.ProcessIdRuns

namespace CreeperKernel.Sched

open IntrusiveLists
open Relation (ReflTransGen)

/-- What `exec_elf_from_vfs` hands on to the new process. `cwd` is an inode. -/
structure Cred where
  uid : Nat
  gid : Nat
  cwd : Option Ptr
  deriving DecidableEq

/-- The search in `sched_next_process_core`, from `node` on. -/
def schedNext (s : Table) (current : Ptr) : Nat → Option Ptr → Outcome Ptr
  | 0, _ => .hang
  | fuel + 1, node =>
    match node.or (s.runQueue.first ()) with
    | none => .ok current
    | some cand =>
      if (s.tcb cand).state = .runnable then .ok cand
      else if cand = current then .ok current
      else schedNext s current fuel (s.runQueue.next cand)

def schedNextProcessCore (fuel : Nat) (s : Table) (current : Ptr) : Outcome Ptr :=
  schedNext s current fuel (s.runQueue.next current)

/-- The statements of `exec_elf_from_vfs` and, from `create` to `release`, of
`load_elf_from_vfs`. `new` and `main` are the local variables for the new process and
its thread. -/
inductive ExecPc where
  | lookup
  | disable
  | create
  | enterDir (new : Ptr)
  | openStdin (new : Ptr)
  | enable (new : Ptr)
  | release (new : Ptr)
  | find (pid : Nat)
  | clearPid (new : Ptr)
  | setPid (new : Ptr)
  | enterPid (new : Ptr)
  | mainThread (new : Ptr)
  | moveFiles (new main : Ptr)
  | copyCwd (new main : Ptr)
  | dropCwd (new main : Ptr)
  | copyUid (new main : Ptr)
  | copyGid (new main : Ptr)
  | clearTid (new main : Ptr)
  | setTid (new main : Ptr)
  | enterTid (new main : Ptr)
  | joinSiblings (new : Ptr)
  | exitOld
  | leaveSiblings
  | dropParent
  | bury
  | enableAgain
  | returned
  deriving DecidableEq

/-- The system in the middle of an exec. -/
structure Execing where
  table : Table
  cred : Ptr → Cred
  interrupts : Bool
  current : Ptr
  pc : ExecPc

/-- What the call depends on: its thread, the inode of the directory that holds the
program (if there is such a program), and how loading goes. -/
structure ExecInput where
  thread : Ptr
  dir : Option Ptr
  image : Image
  supply : Supply

def ExecInput.proc (input : ExecInput) (c : Execing) : Ptr := (c.table.tcb input.thread).process

/-- The next statement of the call. `moveFiles` works on file tables, which are not
part of this state. -/
def execStep (fuel : Nat) (input : ExecInput) (c : Execing) : Outcome Execing :=
  let proc := input.proc c
  match c.pc with
  | .lookup => .ok { c with pc := if input.dir.isSome then .disable else .returned }
  | .disable => .ok { c with interrupts := false, pc := .create }
  | .create =>
    if ¬ input.image.valid then .ok { c with pc := .returned }
    else
      match newUsproc c.table (some (c.table.tcb c.current).process) input.supply with
      | (none, table) => .ok { c with table, pc := .returned }
      | (some (new, _), table) =>
        .ok { c with table, cred := Function.update c.cred new ⟨0, 0, none⟩, pc := .enterDir new }
  | .enterDir new =>
    .ok { c with
      cred := Function.update c.cred new { c.cred new with cwd := input.dir }
      pc := .openStdin new }
  | .openStdin new => .ok { c with pc := if input.image.stdin then .enable new else .returned }
  | .enable new => .ok { c with interrupts := true, pc := .release new }
  | .release new =>
    match c.table.threads.first new with
    | none => .fault
    | some main =>
      .ok { c with
        table := c.table.setTcb main { c.table.tcb main with state := .runnable }
        pc := .find (c.table.pcb new).pid }
  | .find pid =>
    match idLookup c.table pid with
    | some (.proc, new) => .ok { c with pc := .clearPid new }
    | _ => .ok { c with interrupts := true, pc := .returned }
  | .clearPid new => .ok { c with table := idTableClear c.table (c.table.pcb new).pid, pc := .setPid new }
  | .setPid new =>
    .ok { c with
      table := c.table.setPcb new { c.table.pcb new with pid := (c.table.pcb proc).pid }
      pc := .enterPid new }
  | .enterPid new =>
    .ok { c with table := idTableSetProc c.table (c.table.pcb proc).pid new, pc := .mainThread new }
  | .mainThread new =>
    match c.table.threads.first new with
    | none => .ok { c with interrupts := true, pc := .returned }
    | some main => .ok { c with pc := .moveFiles new main }
  | .moveFiles new main => .ok { c with pc := .copyCwd new main }
  | .copyCwd new main =>
    .ok { c with
      cred := Function.update c.cred new { c.cred new with cwd := (c.cred proc).cwd }
      pc := .dropCwd new main }
  | .dropCwd new main =>
    .ok { c with cred := Function.update c.cred proc { c.cred proc with cwd := none }, pc := .copyUid new main }
  | .copyUid new main =>
    .ok { c with
      cred := Function.update c.cred new { c.cred new with uid := (c.cred proc).uid }
      pc := .copyGid new main }
  | .copyGid new main =>
    .ok { c with
      cred := Function.update c.cred new { c.cred new with gid := (c.cred proc).gid }
      pc := .clearTid new main }
  | .clearTid new main => .ok { c with table := idTableClear c.table (c.table.tcb main).tid, pc := .setTid new main }
  | .setTid new main =>
    .ok { c with
      table := c.table.setTcb main { c.table.tcb main with tid := (c.table.tcb input.thread).tid }
      pc := .enterTid new main }
  | .enterTid new main =>
    .ok { c with table := idTableSetThread c.table (c.table.tcb main).tid main, pc := .joinSiblings new }
  | .joinSiblings new =>
    match (c.table.pcb proc).parent with
    | none => .fault
    | some parent =>
      .ok { c with
        table := { c.table with children := addHead c.table.children new parent }
        pc := .exitOld }
  | .exitOld => do
    let table ← usprocExit fuel c.current c.table proc (-1)
    pure { c with table, pc := .leaveSiblings }
  | .leaveSiblings => do
    let children ← unlink c.table.children proc
    pure { c with table := { c.table with children }, pc := .dropParent }
  | .dropParent =>
    .ok { c with table := c.table.setPcb proc { c.table.pcb proc with parent := none }, pc := .bury }
  | .bury =>
    .ok { c with table := c.table.setPcb proc { c.table.pcb proc with zombie := true }, pc := .enableAgain }
  | .enableAgain => .ok { c with interrupts := true, pc := .returned }
  | .returned => .ok c

/-- The calling thread goes on when it runs; the timer may let another thread run while
interrupts are enabled. -/
inductive ExecStep (input : ExecInput) : Execing → Execing → Prop where
  | exec {c c' : Execing} (fuel : Nat) (runs : c.current = input.thread)
      (done : execStep fuel input c = .ok c') : ExecStep input c c'
  | switch {c : Execing} {next : Ptr} (fuel : Nat) (enabled : c.interrupts = true)
      (chosen : schedNextProcessCore fuel c.table c.current = .ok next) :
      ExecStep input c { c with current := next }

/-- A thread of the new process may be picked by the scheduler while the process does
not have these credentials. -/
def Exposed (input : ExecInput) (cred : Cred) (c : Execing) : Prop :=
  ∃ new thread, input.supply.pcb = some new ∧ c.table.tcbUsed thread = true ∧
    (c.table.tcb thread).process = new.val ∧ (c.table.tcb thread).state = .runnable ∧ c.cred new ≠ cred

/-- A user thread about to call `exec_elf_from_vfs`. -/
structure ExecReady (input : ExecInput) (start : Execing) : Prop where
  enlisted : Enlisted start.table
  used : start.table.tcbUsed input.thread = true
  current : start.current = input.thread
  fresh : input.supply.Fresh start.table
  pc : start.pc = .lookup

/-- The program is found, and a process for it can be made and set up. -/
def Loads (input : ExecInput) (start : Execing) : Prop :=
  input.dir.isSome = true ∧ input.image.valid = true ∧ input.image.stdin = true ∧
    (newUsproc start.table (some (input.proc start)) input.supply).1.isSome = true

variable {input : ExecInput} {start c c' : Execing} {new : KernelPtr}

/-- The new process of a successful `new_usproc`: its one thread does not run yet. -/
structure Created (s : Table) (new : Ptr) (s' : Table) : Prop where
  first : ∃ main, s'.threads.first new = some main ∧ s'.tcbUsed main = true ∧ (s'.tcb main).process = new
  quiet : ∀ t, s'.tcbUsed t = true → (s'.tcb t).process = new → (s'.tcb t).state ≠ .runnable
  others : ∀ t, s.tcbUsed t = true → s'.tcb t = s.tcb t

variable {parent : Option Ptr} {supply : Supply} {s' s : Table}

theorem newUsproc_created (enlisted : Enlisted s) (fresh : supply.Fresh s) {result : Ptr × Ptr}
    (done : newUsproc s parent supply = (some result, s')) :
    ∃ new, supply.pcb = some new ∧ result.1 = new.val ∧ Created s new s' := by
  have fresh' : Supply.Fresh { supply with frame := true } s := ⟨fresh.pcb, fresh.tcb⟩
  rcases makeProcess_spec fresh' done with ⟨failed, -⟩ | ⟨new, thread, pid, tid, made, same, born⟩
  · cases failed
  · have main : s'.tcb thread = ⟨tid, .startingUp, 0, new⟩ := by rw [born.tcb, Function.update_self]
    refine ⟨new, made, congrArg Prod.fst (Option.some.inj same), ⟨thread, born.first, ?_, ?_⟩, ?_, ?_⟩
    · exact (born.used_thread _).mpr (.inl rfl)
    · rw [main]
    · intro t used mine
      rcases (born.used_thread t).mp used with rfl | old
      · rw [main]
        simp
      · rw [(born.old_thread old).2] at mine
        exact absurd mine (enlisted.no_threads born.newPcb t old)
    · exact fun t old => (born.old_thread old).2

theorem newUsproc_failed (enlisted : Enlisted s) (fresh : supply.Fresh s)
    (done : newUsproc s parent supply = (none, s')) : Enlisted s' ∧ (∀ p, supply.pcb = some p → s'.pcbUsed p = false) ∧
      ∀ t, s.tcbUsed t = true → s'.tcb t = s.tcb t := by
  have fresh' : Supply.Fresh { supply with frame := true } s := ⟨fresh.pcb, fresh.tcb⟩
  rcases makeProcess_spec fresh' done with ⟨-, aborted⟩ | ⟨_, _, _, _, _, made, _⟩
  · refine ⟨enlisted.aborted aborted, fun p offered => ?_, aborted.tcb⟩
    rw [aborted.pcbUsed]
    exact fresh.pcb p offered
  · cases made

/-- No thread of the new process can be picked. -/
def Quiet (new : Ptr) (c : Execing) : Prop :=
  ∀ t, c.table.tcbUsed t = true → (c.table.tcb t).process = new → (c.table.tcb t).state ≠ .runnable

/-- The new process has the credentials, and the caller still has those to be copied. -/
structure Settled (proc new : Ptr) (cred : Cred) (creds : Ptr → Cred) : Prop where
  new : creds new = cred
  uid : (creds proc).uid = cred.uid
  gid : (creds proc).gid = cred.gid

section Settled

variable {proc new p q : Ptr} {cred : Cred} {creds : Ptr → Cred} (settled : Settled proc new cred creds)

include settled

theorem Settled.update {value : Cred} (atNew : p = new → value = cred)
    (atProc : p = proc → value.uid = cred.uid ∧ value.gid = cred.gid) :
    Settled proc new cred (Function.update creds p value) := by
  refine ⟨?_, ?_, ?_⟩
  · rw [Function.update_apply]
    split
    · rename_i same
      exact atNew same.symm
    · exact settled.new
  · rw [Function.update_apply]
    split
    · rename_i same
      exact (atProc same.symm).1
    · exact settled.uid
  · rw [Function.update_apply]
    split
    · rename_i same
      exact (atProc same.symm).2
    · exact settled.gid

theorem Settled.dropCwd (same : q = proc) (apart : proc ≠ new) :
    Settled proc new cred (Function.update creds q { creds q with cwd := none }) := by
  rw [same]
  exact settled.update (fun clash => absurd clash apart) fun _ => ⟨settled.uid, settled.gid⟩

theorem Settled.copyCwd (same : q = proc) (cwd : (creds proc).cwd = cred.cwd) :
    Settled proc new cred (Function.update creds p { creds p with cwd := (creds q).cwd }) := by
  rw [same, cwd]
  apply settled.update
  · rintro rfl
    rw [settled.new]
  · rintro rfl
    exact ⟨settled.uid, settled.gid⟩

theorem Settled.copyUid (same : q = proc) :
    Settled proc new cred (Function.update creds p { creds p with uid := (creds q).uid }) := by
  rw [same, settled.uid]
  apply settled.update
  · rintro rfl
    rw [settled.new]
  · rintro rfl
    exact ⟨rfl, settled.gid⟩

theorem Settled.copyGid (same : q = proc) :
    Settled proc new cred (Function.update creds p { creds p with gid := (creds q).gid }) := by
  rw [same, settled.gid]
  apply settled.update
  · rintro rfl
    rw [settled.new]
  · rintro rfl
    exact ⟨settled.uid, rfl⟩

end Settled

/-- What is true at each statement when the call cannot expose the new process. -/
def ExecPhase (input : ExecInput) (start : Execing) (new : Ptr) (c : Execing) : Prop :=
  let proc := input.proc start
  match c.pc with
  | .lookup => c.table = start.table ∧ c.cred = start.cred
  | .disable | .create => input.dir.isSome = true ∧ c.table = start.table ∧ c.cred = start.cred
  | .enterDir p => p = new ∧ (input.image.stdin = true → Loads input start) ∧ Quiet new c ∧
      c.cred proc = start.cred proc ∧ c.cred new = ⟨0, 0, none⟩
  | .openStdin p => p = new ∧ (input.image.stdin = true → Loads input start) ∧ Quiet new c ∧
      c.cred proc = start.cred proc ∧ c.cred new = ⟨0, 0, input.dir⟩
  | .enable p | .release p => p = new ∧ Loads input start ∧ Quiet new c ∧
      c.cred proc = start.cred proc ∧ c.cred new = ⟨0, 0, input.dir⟩
  | .find _ | .clearPid _ | .setPid _ | .enterPid _ | .mainThread _ | .moveFiles .. | .copyCwd .. | .dropCwd .. =>
    Settled proc new (start.cred proc) c.cred ∧ (c.cred proc).cwd = (start.cred proc).cwd
  | .returned => Quiet new c ∨ c.cred new = start.cred proc
  | _ => Settled proc new (start.cred proc) c.cred

/-- The invariant of a call that cannot expose the new process. -/
structure Tame (input : ExecInput) (start : Execing) (new : Ptr) (c : Execing) : Prop where
  caller : input.proc c = input.proc start
  phase : ExecPhase input start new c

section Invariant

variable (ready : ExecReady input start) (made : input.supply.pcb = some new)
include ready made

theorem ExecReady.quiet (same : c.table = start.table) : Quiet new c := by
  intro t used mine
  rw [same] at used mine
  exact absurd mine (ready.enlisted.no_threads (ready.fresh.pcb new made) t used)

theorem ExecReady.apart : input.proc start ≠ new.val :=
  ready.enlisted.no_threads (ready.fresh.pcb new made) _ ready.used

theorem Tame.quiet_or_settled (tame : Tame input start new c) :
    Quiet new c ∨ c.cred new = start.cred (input.proc start) := by
  obtain ⟨table, cred, interrupts, current, pc⟩ := c
  have phase := tame.phase
  cases pc with
  | lookup => exact .inl (ready.quiet made phase.1)
  | disable | create => exact .inl (ready.quiet made phase.2.1)
  | enterDir | openStdin | enable | release => exact .inl phase.2.2.1
  | find | clearPid | setPid | enterPid | mainThread | moveFiles | copyCwd | dropCwd => exact .inr phase.1.new
  | copyUid | copyGid | clearTid | setTid | enterTid | joinSiblings | exitOld | leaveSiblings | dropParent
  | bury | enableAgain => exact .inr phase.new
  | returned => exact phase

theorem Tame.not_exposed (tame : Tame input start new c) : ¬ Exposed input (start.cred (input.proc start)) c := by
  rintro ⟨other, t, same, used, mine, running, differs⟩
  rw [made] at same
  cases same
  rcases tame.quiet_or_settled ready made with quiet | settled
  · exact quiet t used mine running
  · exact differs settled

variable {fuel : Nat}

theorem Tame.create (tame : Tame input start new c) (here : c.pc = .create) (runs : c.current = input.thread)
    (done : execStep fuel input c = .ok c') : Tame input start new c' := by
  obtain ⟨table, cred, interrupts, current, pc⟩ := c
  dsimp only at here runs
  subst here runs
  obtain ⟨found, rfl, rfl⟩ := tame.phase
  unfold execStep at done
  dsimp only at done
  split at done
  · cases done
    exact ⟨rfl, .inl (ready.quiet made rfl)⟩
  · rename_i valid
    split at done
    · rename_i table failed
      cases done
      obtain ⟨enlisted, unused, others⟩ := newUsproc_failed ready.enlisted ready.fresh failed
      refine ⟨congrArg Tcb.process (others _ ready.used), .inl fun t used mine => ?_⟩
      exact absurd mine (enlisted.no_threads (unused new made) t used)
    · rename_i p main table succeeded
      cases done
      obtain ⟨other, same, name, created⟩ := newUsproc_created ready.enlisted ready.fresh succeeded
      rw [made] at same
      cases same
      have object : p = new.val := name
      subst object
      refine ⟨congrArg Tcb.process (created.others _ ready.used), rfl,
        fun stdin => ⟨found, by simpa using valid, stdin, ?_⟩, created.quiet, ?_, ?_⟩
      · exact (congrArg (fun made => made.1.isSome) succeeded).trans rfl
      · exact Function.update_of_ne (ready.apart made) _ _
      · exact Function.update_self _ _ _

omit ready made in
/-- From `release` on the new process can be picked, so its credentials must be right. -/
theorem Tame.release (tame : Tame input start new c) {p : Ptr} (here : c.pc = .release p)
    (safe : Loads input start → start.cred (input.proc start) = ⟨0, 0, input.dir⟩)
    (done : execStep fuel input c = .ok c') : Tame input start new c' := by
  obtain ⟨table, cred, interrupts, current, pc⟩ := c
  dsimp only at here
  subst here
  obtain ⟨-, loads, -, caller, own⟩ := tame.phase
  unfold execStep at done
  dsimp only at done
  split at done
  · cases done
  · rename_i main first
    cases done
    have right := safe loads
    refine ⟨?_, ⟨own.trans right.symm, ?_, ?_⟩, ?_⟩
    · have before : (table.tcb input.thread).process = input.proc start := tame.caller
      show (Function.update table.tcb main { table.tcb main with state := .runnable } input.thread).process = _
      rw [← before, Function.update_apply]
      split
      · rename_i same
        rw [same]
      · rfl
    · exact congrArg Cred.uid caller
    · exact congrArg Cred.gid caller
    · exact congrArg Cred.cwd caller

theorem Tame.exec (tame : Tame input start new c)
    (safe : Loads input start → start.cred (input.proc start) = ⟨0, 0, input.dir⟩) (runs : c.current = input.thread)
    (done : execStep fuel input c = .ok c') : Tame input start new c' := by
  have apart := ready.apart made
  obtain ⟨table, cred, interrupts, current, pc⟩ := c
  have caller : (table.tcb input.thread).process = input.proc start := tame.caller
  have phase := tame.phase
  cases pc with
  | lookup =>
    cases done
    refine ⟨caller, ?_⟩
    cases found : input.dir with
    | none => exact .inl (ready.quiet made phase.1)
    | some dir => exact ⟨by rw [found]; rfl, phase⟩
  | disable | enable | moveFiles =>
    cases done
    exact ⟨caller, phase⟩
  | create => exact tame.create ready made rfl runs done
  | enterDir p =>
    cases done
    obtain ⟨rfl, loads, quiet, old, zeroed⟩ := phase
    refine ⟨caller, rfl, loads, quiet, (Function.update_of_ne apart _ _).trans old, ?_⟩
    replace zeroed : cred new = ⟨0, 0, none⟩ := zeroed
    show Function.update cred new.val { cred new with cwd := input.dir } new.val = _
    rw [Function.update_self, zeroed]
  | openStdin p =>
    cases done
    obtain ⟨rfl, loads, quiet, old, own⟩ := phase
    refine ⟨caller, ?_⟩
    cases opened : input.image.stdin with
    | false => exact .inl quiet
    | true => exact ⟨rfl, loads opened, quiet, old, own⟩
  | release p => exact tame.release rfl safe done
  | find pid =>
    unfold execStep at done
    dsimp only at done
    split at done
    · cases done
      exact ⟨caller, phase⟩
    · cases done
      exact ⟨caller, .inr phase.1.new⟩
  | clearPid p | setPid p | enterPid p | clearTid p main | enterTid p main | dropParent | bury =>
    cases done
    exact ⟨caller, phase⟩
  | mainThread p =>
    unfold execStep at done
    dsimp only at done
    split at done
    · cases done
      exact ⟨caller, .inr phase.1.new⟩
    · cases done
      exact ⟨caller, phase⟩
  | copyCwd p main =>
    obtain ⟨settled, cwd⟩ := phase
    cases done
    refine ⟨caller, settled.copyCwd caller cwd, ?_⟩
    show (Function.update cred p { cred p with cwd := (cred (table.tcb input.thread).process).cwd } _).cwd = _
    rw [caller, Function.update_apply]
    split
    · exact cwd
    · exact cwd
  | dropCwd p main =>
    cases done
    exact ⟨caller, phase.1.dropCwd caller apart⟩
  | copyUid p main =>
    cases done
    exact ⟨caller, Settled.copyUid phase caller⟩
  | copyGid p main =>
    cases done
    exact ⟨caller, Settled.copyGid phase caller⟩
  | setTid p main =>
    cases done
    refine ⟨?_, phase⟩
    show (Function.update table.tcb main { table.tcb main with tid := _ } input.thread).process = _
    rw [← caller, Function.update_apply]
    split
    · rename_i same
      rw [same]
    · rfl
  | joinSiblings p =>
    unfold execStep at done
    dsimp only at done
    split at done
    · cases done
    · cases done
      exact ⟨caller, phase⟩
  | exitOld =>
    obtain ⟨after, ended, same⟩ := Outcome.bind_eq_ok.mp done
    cases same
    refine ⟨?_, phase⟩
    rcases usprocExit_spec ended with ⟨-, rfl⟩ | ⟨-, -, exited⟩
    · exact caller
    · exact (exited.tcb _).2.trans caller
  | leaveSiblings =>
    obtain ⟨children, -, same⟩ := Outcome.bind_eq_ok.mp done
    cases same
    exact ⟨caller, phase⟩
  | enableAgain =>
    cases done
    exact ⟨caller, .inr phase.new⟩
  | returned =>
    cases done
    exact tame

theorem Tame.reached (safe : Loads input start → start.cred (input.proc start) = ⟨0, 0, input.dir⟩)
    (reach : ReflTransGen (ExecStep input) start c) : Tame input start new c := by
  induction reach with
  | refl =>
    obtain ⟨table, cred, interrupts, current, pc⟩ := start
    have first : pc = .lookup := ready.pc
    subst first
    exact ⟨rfl, rfl, rfl⟩
  | tail _ step ih =>
    cases step with
    | exec fuel runs done => exact ih.exec ready made safe runs done
    | switch fuel enabled chosen => exact ⟨ih.caller, ih.phase⟩

end Invariant

/-- If loading goes well, the new thread gets ready to run with uid and gid 0 in the
directory of the program. -/
theorem ExecReady.reaches_release (ready : ExecReady input start) (loads : Loads input start) :
    ∃ c new main, ReflTransGen (ExecStep input) start c ∧ input.supply.pcb = some new ∧
      c.table.tcbUsed main = true ∧ (c.table.tcb main).process = new.val ∧
      (c.table.tcb main).state = .runnable ∧ c.cred new = ⟨0, 0, input.dir⟩ := by
  obtain ⟨found, valid, stdin, success⟩ := loads
  cases made : newUsproc start.table (some (input.proc start)) input.supply with
  | mk result table =>
  rw [made] at success
  obtain ⟨⟨p, t⟩, rfl⟩ := Option.isSome_iff_exists.mp success
  obtain ⟨new, offered, name, created⟩ := newUsproc_created ready.enlisted ready.fresh made
  have object : p = new.val := name
  subst object
  obtain ⟨main, first, used, mine⟩ := created.first
  have runs := ready.current
  have found' : execStep 0 input start = .ok { start with pc := .disable } := by
    unfold execStep
    rw [ready.pc]
    simp only [found, if_true]
  have made' : execStep 0 input { start with interrupts := false, pc := .create } =
      .ok { start with
        table
        cred := Function.update start.cred new ⟨0, 0, none⟩
        interrupts := false
        pc := .enterDir new } := by
    unfold execStep
    dsimp only
    rw [if_neg (by simpa using valid), runs, show (start.table.tcb input.thread).process = input.proc start from rfl,
      made]
  let entered : Execing :=
    { start with
      table
      cred := Function.update (Function.update start.cred new ⟨0, 0, none⟩) new
        { Function.update start.cred new ⟨0, 0, none⟩ new with cwd := input.dir }
      interrupts := false
      pc := .openStdin new }
  have opened : execStep 0 input entered = .ok { entered with pc := .enable new } := by
    unfold execStep
    simp only [entered, stdin, if_true]
  have released : execStep 0 input { entered with interrupts := true, pc := .release new } =
      .ok { entered with
        table := table.setTcb main { table.tcb main with state := .runnable }
        interrupts := true
        pc := .find (table.pcb new).pid } := by
    unfold execStep
    simp only [entered, first]
  have reach : ReflTransGen (ExecStep input) start
      { entered with
        table := table.setTcb main { table.tcb main with state := .runnable }
        interrupts := true
        pc := .find (table.pcb new).pid } := by
    apply ReflTransGen.head (.exec 0 runs found')
    apply ReflTransGen.head (.exec 0 runs rfl)
    apply ReflTransGen.head (.exec 0 runs made')
    apply ReflTransGen.head (.exec 0 runs rfl)
    apply ReflTransGen.head (.exec 0 runs opened)
    apply ReflTransGen.head (.exec 0 runs rfl)
    exact .single (.exec 0 runs released)
  refine ⟨_, new, main, reach, offered, used, ?_, ?_, ?_⟩
  · show (Function.update table.tcb main { table.tcb main with state := .runnable } main).process = _
    rw [Function.update_self]
    exact mine
  · show (Function.update table.tcb main { table.tcb main with state := .runnable } main).state = _
    rw [Function.update_self]
  · show Function.update (Function.update start.cred new.val ⟨0, 0, none⟩) new.val
      { Function.update start.cred new.val ⟨0, 0, none⟩ new.val with cwd := input.dir } new.val = _
    rw [Function.update_self, Function.update_self]

/-- A call never exposes its new process exactly if loading fails, or if the caller's
credentials are those that every new process starts with. -/
theorem exec_never_exposes_iff (input : ExecInput) (start : Execing) (ready : ExecReady input start) :
    (∀ c, ReflTransGen (ExecStep input) start c → ¬ Exposed input (start.cred (input.proc start)) c) ↔
      (Loads input start → start.cred (input.proc start) = ⟨0, 0, input.dir⟩) := by
  constructor
  · intro hidden loads
    by_contra differs
    obtain ⟨c, new, main, reach, offered, used, mine, running, own⟩ := ready.reaches_release loads
    exact hidden c reach ⟨new, main, offered, used, mine, running, by rw [own]; exact Ne.symm differs⟩
  · intro safe c reach exposed
    obtain ⟨new, _, made, _⟩ := id exposed
    exact (Tame.reached ready made safe reach).not_exposed ready made exposed

/-- The calls of a schedule: `true` for the next statement of the call, `false` for a
timer interrupt. -/
def performExec (fuel : Nat) (input : ExecInput) : List Bool → Execing → Option Execing
  | [], c => some c
  | true :: rest, c =>
    if c.current = input.thread then
      match execStep fuel input c with
      | .ok c' => performExec fuel input rest c'
      | _ => none
    else none
  | false :: rest, c =>
    if c.interrupts = true then
      match schedNextProcessCore fuel c.table c.current with
      | .ok next => performExec fuel input rest { c with current := next }
      | _ => none
    else none

theorem reach_of_performExec {fuel : Nat} {schedule : List Bool}
    (done : performExec fuel input schedule c = some c') : ReflTransGen (ExecStep input) c c' := by
  induction schedule generalizing c with
  | nil =>
    cases done
    exact .refl
  | cons first rest ih =>
    cases first with
    | true =>
      obtain ⟨runs, done⟩ := Option.ite_none_right_eq_some.mp done
      split at done
      · rename_i middle taken
        exact .head (.exec fuel runs taken) (ih done)
      · cases done
    | false =>
      obtain ⟨enabled, done⟩ := Option.ite_none_right_eq_some.mp done
      split at done
      · rename_i next taken
        exact .head (.switch fuel enabled taken) (ih done)
      · cases done

/-- The first program has forked a child. -/
def forkedChild : List Call :=
  [.load ⟨true, true⟩ (plentiful 3 4), .fork (kernelObject 4) (plentiful 5 6)]

/-- The child, with uid 1000 and its own working directory, calls exec for a program in
another directory. -/
def childExec (image : Image) : ExecInput :=
  ⟨kernelObject 6, some (kernelObject 11), image, plentiful 7 8⟩

def childCred : Cred := ⟨1000, 1000, some (kernelObject 10)⟩

theorem forkedChild_ready (image : Image) : ∃ table, (performAll 8 smallBoot forkedChild).map Prod.snd = some table ∧
      (table.tcb (kernelObject 6)).process = (kernelObject 5).val ∧
      ExecReady (childExec image) ⟨table, fun _ => childCred, true, kernelObject 6, .lookup⟩ := by
  have seen : (performAll 8 smallBoot forkedChild).map (fun r =>
      ((r.2.tcb (kernelObject 6)).process, r.2.tcbUsed (kernelObject 6), r.2.pcbUsed (kernelObject 7),
        r.2.tcbUsed (kernelObject 8))) = some ((kernelObject 5).val, true, false, false) := by decide +kernel
  have quiet : (performAll 8 smallBoot forkedChild).map (fun r => r.1.any Event.reaps) =
      some false := by decide +kernel
  obtain ⟨⟨events, table⟩, done, same⟩ := Option.map_eq_some_iff.mp seen
  rw [done] at quiet
  simp only [Prod.mk.injEq] at same
  obtain ⟨process, used, newPcb, newTcb⟩ := same
  have sound : Sound table := by
    have calm : ∀ event ∈ events, ∀ s, Careful s event := by
      intro event member s
      apply careful_of_not_reaping
      have none := Option.some.inj quiet
      exact Bool.eq_false_iff.mpr fun reaps => by simpa [reaps] using List.any_eq_false.mp none event member
    have start : Sound smallBoot :=
      (booted_bootTable (kernelObject 0).val (by decide)).sound
    exact ((run_of_performAll done).restrict calm).invariant Sound
      (fun _ _ _ sound taken => sound.step taken.2 taken.1) start
  refine ⟨table, by rw [done]; rfl, process, sound.rostered.enlisted, used, rfl, ⟨?_, ?_⟩, rfl⟩
  · intro p offered
    cases offered
    exact newPcb
  · intro t offered
    cases offered
    exact newTcb

/-- A program that cannot be loaded leaves nothing that could run. -/
theorem exec_never_exposes_invalid : ∃ table,
    ExecReady (childExec ⟨false, true⟩) ⟨table, fun _ => childCred, true, kernelObject 6, .lookup⟩ ∧
    ∀ c, ReflTransGen (ExecStep (childExec ⟨false, true⟩))
      ⟨table, fun _ => childCred, true, kernelObject 6, .lookup⟩ c →
      ¬ Exposed (childExec ⟨false, true⟩) childCred c := by
  obtain ⟨table, -, -, ready⟩ := forkedChild_ready ⟨false, true⟩
  refine ⟨table, ready, (exec_never_exposes_iff _ _ ready).mpr fun loads => ?_⟩
  cases loads.2.1

/-- The timer interrupts the call after the new thread has been made ready: a thread of
the new process runs with uid 0, though the caller has uid 1000. -/
theorem exec_exposes_root : ∃ table c,
    ExecReady (childExec ⟨true, true⟩) ⟨table, fun _ => childCred, true, kernelObject 6, .lookup⟩ ∧
    ReflTransGen (ExecStep (childExec ⟨true, true⟩))
      ⟨table, fun _ => childCred, true, kernelObject 6, .lookup⟩ c ∧
    c.current = (kernelObject 8).val ∧ (c.table.tcb c.current).process = (kernelObject 7).val ∧
    (c.cred (kernelObject 7)).uid = 0 ∧ childCred.uid = 1000 ∧
    Exposed (childExec ⟨true, true⟩) childCred c := by
  obtain ⟨table, booted, -, ready⟩ := forkedChild_ready ⟨true, true⟩
  have seen : (((performAll 8 smallBoot forkedChild).map Prod.snd).bind fun table =>
      performExec 8 (childExec ⟨true, true⟩) [true, true, true, true, true, true, true, false, false, false, false]
        ⟨table, fun _ => childCred, true, kernelObject 6, .lookup⟩).map (fun c =>
      (c.current, c.table.tcbUsed (kernelObject 8), (c.table.tcb (kernelObject 8)).process,
        (c.table.tcb (kernelObject 8)).state, (c.cred (kernelObject 7)).uid)) =
      some ((kernelObject 8).val, true, (kernelObject 7).val, .runnable, 0) := by decide +kernel
  rw [booted] at seen
  obtain ⟨c, done, same⟩ := Option.map_eq_some_iff.mp seen
  simp only [Prod.mk.injEq] at same
  obtain ⟨current, used, process, running, uid⟩ := same
  refine ⟨table, c, ready, reach_of_performExec done, current, ?_, uid, rfl,
    kernelObject 7, kernelObject 8, rfl, used, process, running, fun copied => ?_⟩
  · rw [current]
    exact process
  · rw [copied] at uid
    cases uid

end CreeperKernel.Sched
