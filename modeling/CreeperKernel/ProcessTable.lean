import CreeperKernel.IntrusiveLists
import CreeperKernel.Outcome
import CreeperKernel.TidBitmap
import Mathlib.Data.BitVec

namespace CreeperKernel.Sched

open IntrusiveLists

/-- A kernel address. -/
abbrev Ptr := BitVec 64

/-- Where `kmalloc` places objects: the upper half of the address space. -/
abbrev KernelPtr := { a : Ptr // 0xFFFF800000000000#64 ≤ a }

inductive ThreadState where
  | startingUp
  | runnable
  | zombie
  deriving DecidableEq

/-- The fields of `pcb_t` that decide about identity and waiting. `zombie` is the bit
`PCB_STATE_ZOMBIE` of `state`. -/
structure Pcb where
  pid : Nat
  zombie : Bool
  exitCode : Int
  parent : Option Ptr
  deriving DecidableEq

structure Tcb where
  tid : Nat
  state : ThreadState
  exitCode : Int
  process : Ptr
  deriving DecidableEq

/-- A caller inside the loop of `sys_wait4`. -/
structure Wait where
  pid : Int
  nohang : Bool
  deriving DecidableEq

/-- The process table. `pcbUsed` and `tcbUsed` tell which objects are allocated; a
freed object keeps its contents until its memory is handed out again. -/
structure Table where
  pcb : Ptr → Pcb
  tcb : Ptr → Tcb
  pcbUsed : Ptr → Bool
  tcbUsed : Ptr → Bool
  /-- `_scheduler_processes_list_head` and `proclist_node` -/
  processes : Links Unit Ptr
  /-- `threads` and `proc_list_node` -/
  threads : Links Ptr Ptr
  /-- `scheduler_threads` and `shed_list_node` -/
  runQueue : Links Unit Ptr
  /-- `childs` and `siblings_list_node` -/
  children : Links Ptr Ptr
  processListDepth : BitVec 16
  idTable : Nat → Ptr
  tidBitmap : TidBitmap
  tid0Used : Bool
  kernelProc : Ptr
  bootThread : Ptr
  waiting : Ptr → Option Wait

def idTagMask : Ptr := 1 <<< 63

inductive IdKind where
  | proc
  | thread
  deriving DecidableEq

def idTableSetProc (s : Table) (pid : Nat) (proc : Ptr) : Table :=
  { s with idTable := Function.update s.idTable pid (proc &&& ~~~idTagMask) }

def idTableSetThread (s : Table) (tid : Nat) (thread : Ptr) : Table :=
  { s with idTable := Function.update s.idTable tid thread }

def idTableClear (s : Table) (id : Nat) : Table :=
  { s with idTable := Function.update s.idTable id 0 }

/-- `id_lookup`; `none` is `ID_NONE`. -/
def idLookup (s : Table) (id : Nat) : Option (IdKind × Ptr) :=
  if maxTid ≤ id then none
  else
    let raw := s.idTable id
    if raw = 0 then none
    else some (if raw &&& idTagMask ≠ 0 then .thread else .proc, raw ||| idTagMask)

def Table.setPcb (s : Table) (p : Ptr) (pcb : Pcb) : Table :=
  { s with pcb := Function.update s.pcb p pcb }

def Table.setTcb (s : Table) (t : Ptr) (tcb : Tcb) : Table :=
  { s with tcb := Function.update s.tcb t tcb }

/-- `struct_kmalloc_align(pcb_t)` followed by `memset` -/
def Table.allocPcb (s : Table) (p : Ptr) : Table :=
  { s with
    pcb := Function.update s.pcb p ⟨0, false, 0, none⟩
    pcbUsed := Function.update s.pcbUsed p true
    processes := clearNode s.processes p
    threads := clearHead s.threads p
    children := clearHead (clearNode s.children p) p }

def Table.freePcb (s : Table) (p : Ptr) : Table :=
  { s with pcbUsed := Function.update s.pcbUsed p false }

/-- `struct_kmalloc_align(tcb_t)`, `memset`, and the assignment of `process` -/
def Table.allocTcb (s : Table) (t process : Ptr) : Table :=
  { s with
    tcb := Function.update s.tcb t ⟨0, .startingUp, 0, process⟩
    tcbUsed := Function.update s.tcbUsed t true
    threads := clearNode s.threads t
    runQueue := clearNode s.runQueue t
    waiting := Function.update s.waiting t none }

def Table.freeTcb (s : Table) (t : Ptr) : Table :=
  { s with tcbUsed := Function.update s.tcbUsed t false }

def Table.freeTid (s : Table) (tid : Nat) : Table :=
  { s with tidBitmap := Sched.freeTid s.tidBitmap tid }

def Table.getUnusedTid (s : Table) : Option (Nat × Table) :=
  (Sched.getUnusedTid s.tidBitmap s.tid0Used).map fun (id, bitmap) =>
    (id, { s with tidBitmap := bitmap })

/-- What the allocators answer while a process is made: the two objects, and whether
its address space, its stacks, and the checks between the second id and the linking
(`fork_process` only) go well. -/
structure Supply where
  pcb : Option KernelPtr
  space : Bool
  tcb : Option KernelPtr
  stackPages : Bool
  frame : Bool

/-- The end of `new_usproc` and of `fork_process`, under the scheduler lock. -/
def linkProcess (s : Table) (proc thread : Ptr) : Table :=
  let s := { s with threads := addHead s.threads thread proc }
  let s := { s with runQueue := addHead s.runQueue thread () }
  let s := { s with processes := addHead s.processes proc () }
  let s := match (s.pcb proc).parent with
    | none => s
    | some parent => { s with children := addHead s.children proc parent }
  let s := idTableSetProc s (s.pcb proc).pid proc
  let s := idTableSetThread s (s.tcb thread).tid thread
  { s with processListDepth := s.processListDepth + 1 }

/-- The second half of `new_usproc` and `fork_process`, for a process that has its pid
and its address space. -/
def makeMainThread (s : Table) (proc : Ptr) (state : ThreadState) (supply : Supply) :
    Option (Ptr × Ptr) × Table :=
  let pid := (s.pcb proc).pid
  match supply.tcb with
  | none => (none, (s.freeTid pid).freePcb proc)
  | some thread =>
    let s := s.allocTcb thread proc
    if ¬ supply.stackPages then (none, ((s.freeTcb thread).freeTid pid).freePcb proc)
    else
      match s.getUnusedTid with
      | none => (none, ((s.freeTcb thread).freeTid pid).freePcb proc)
      | some (tid, s) =>
        if ¬ supply.frame then (none, (((s.freeTid tid).freeTcb thread).freeTid pid).freePcb proc)
        else
          let s := s.setTcb thread { s.tcb thread with tid, state }
          (some (proc, thread), linkProcess s proc thread)

/-- The common course of `new_usproc` and `fork_process`: the new process and its
main thread, or `none`. -/
def makeProcess (s : Table) (parent : Option Ptr) (state : ThreadState) (supply : Supply) :
    Option (Ptr × Ptr) × Table :=
  match supply.pcb with
  | none => (none, s)
  | some proc =>
    let s := s.allocPcb proc
    match s.getUnusedTid with
    | none => (none, s.freePcb proc)
    | some (pid, s) =>
      let s := s.setPcb proc { s.pcb proc with pid, parent }
      if ¬ supply.space then (none, (s.freeTid pid).freePcb proc)
      else makeMainThread s proc state supply

/-- `new_usproc`. It has no check between the second id and the linking. -/
def newUsproc (s : Table) (parent : Option Ptr) (supply : Supply) : Option (Ptr × Ptr) × Table :=
  makeProcess s parent .startingUp { supply with frame := true }

/-- `fork_process`, called by a thread of `parent`: the new pid, or `none` for an
error code. -/
def forkProcess (s : Table) (parent : Ptr) (supply : Supply) : Option Nat × Table :=
  if parent = s.kernelProc then (none, s)
  else
    match makeProcess s (some parent) .runnable supply with
    | (none, s) => (none, s)
    | (some (child, _), s) => (some (s.pcb child).pid, s)

/-- `hlist_del` through a null `pprev` writes to address 0. -/
def unlink {η : Type} [DecidableEq η] (l : Links η Ptr) (n : Ptr) : Outcome (Links η Ptr) :=
  match del l n with
  | none => .fault
  | some l => .ok l

/-- Walking a list that runs in a circle never ends. `fuel` bounds the walk. -/
def nodes {η : Type} (l : Links η Ptr) (fuel : Nat) (h : η) : Outcome (List Ptr) :=
  match walk l fuel (l.first h) with
  | none => .hang
  | some ns => .ok ns

def usthreadExitLocked (s : Table) (thread : Ptr) (exitCode : Int) : Outcome Table := do
  let s := s.setTcb thread { s.tcb thread with exitCode }
  let runQueue ← unlink s.runQueue thread
  let s := { s with runQueue }
  pure (s.setTcb thread { s.tcb thread with state := .zombie })

/-- `usproc_exit`, with `current` as the running thread. The fields it clears besides
are not part of the table. -/
def usprocExit (fuel : Nat) (current : Ptr) (s : Table) (proc : Ptr) (exitCode : Int) :
    Outcome Table :=
  if proc = s.kernelProc then pure s
  else if (s.pcb proc).zombie then pure s
  else do
    let threads ← nodes s.threads fuel proc
    let s ← threads.foldlM (fun s t =>
      if (s.tcb t).state = .zombie then pure s
      else usthreadExitLocked s t (if t = current then exitCode else -1)) s
    pure (s.setPcb proc { s.pcb proc with exitCode, zombie := true })

/-- `if (proc->parent) hlist_del(&proc->siblings_list_node);` -/
def unlinkSibling (s : Table) (proc : Ptr) : Outcome Table :=
  if (s.pcb proc).parent.isSome then do
    let children ← unlink s.children proc
    pure { s with children }
  else pure s

def reapUsProc (s : Table) (proc : Ptr) : Outcome Table :=
  if proc = s.kernelProc then pure s
  else if ¬ (s.pcb proc).zombie then pure s
  else if (s.threads.first proc).isSome then pure s
  else do
    let processes ← unlink s.processes proc
    let s := { s with processes }
    let s ← unlinkSibling s proc
    let s := { s with processListDepth := s.processListDepth - 1 }
    let s := idTableClear s (s.pcb proc).pid
    pure ((s.freeTid (s.pcb proc).pid).freePcb proc)

def reapUsThread (s : Table) (thread : Ptr) : Outcome Table :=
  let proc := (s.tcb thread).process
  if proc = s.kernelProc then pure s
  else if (s.tcb thread).state ≠ .zombie then pure s
  else do
    let threads ← unlink s.threads thread
    let s := { s with threads }
    let s := idTableClear s (s.tcb thread).tid
    let procEmpty := (s.threads.first proc).isNone
    let s := (s.freeTid (s.tcb thread).tid).freeTcb thread
    if procEmpty ∧ (s.pcb proc).zombie then reapUsProc s proc else pure s

/-- `reap_us_proc_threads`. The loop condition is read once more after the process
itself was freed. -/
def reapUsProcThreads (s : Table) (proc : Ptr) : Nat → Outcome Table
  | 0 => .hang
  | fuel + 1 =>
    match s.threads.first proc with
    | none => pure s
    | some thread => do
      let s ← reapUsThread s thread
      reapUsProcThreads s proc fuel

def reaperTarget (fuel : Nat) (s : Table) : Outcome (Option Ptr) := do
  let processes ← nodes s.processes fuel ()
  pure (processes.find? fun p => (s.pcb p).zombie && (s.pcb p).parent.isNone)

/-- A round of `reaper_ktask`. Kernel threads do not end here, so the search for dead
ones finds nothing. -/
def reaper (fuel : Nat) (s : Table) : Outcome Table := do
  match ← reaperTarget fuel s with
  | none => pure s
  | some orphan => reapUsProcThreads s orphan fuel

inductive WaitResult where
  /-- the pid of the child and the exit code written to `wstatus` -/
  | child (pid : Nat) (exitCode : Int)
  /-- `-E_CHILD` -/
  | noChild
  /-- `-E_INVAL` -/
  | invalid
  /-- 0, with `WNOHANG` -/
  | notYet
  /-- still in the loop, after `_yield` -/
  | blocked
  deriving DecidableEq

def isWanted (s : Table) (pid : Int) (c : Ptr) : Bool := pid = -1 ∨ ((s.pcb c).pid : Int) = pid

/-- The zombie that a round of the loop in `sys_wait4` picks. -/
def waitTarget (s : Table) (pid : Int) (children : List Ptr) : Option Ptr :=
  children.find? fun c => isWanted s pid c && (s.pcb c).zombie

/-- A round of the loop in `sys_wait4`, called by `thread`. -/
def waitRound (fuel : Nat) (s : Table) (thread : Ptr) (pid : Int) (nohang : Bool) :
    Outcome (WaitResult × Table) := do
  let parent := (s.tcb thread).process
  let children ← nodes s.children fuel parent
  match waitTarget s pid children with
  | some zombie => do
    let result := WaitResult.child (s.pcb zombie).pid (s.pcb zombie).exitCode
    let s := { s with waiting := Function.update s.waiting thread none }
    let s ← reapUsProcThreads s zombie fuel
    pure (result, s)
  | none =>
    if ¬ children.any (isWanted s pid) then
      pure (.noChild, { s with waiting := Function.update s.waiting thread none })
    else if nohang then
      pure (.notYet, { s with waiting := Function.update s.waiting thread none })
    else pure (.blocked, { s with waiting := Function.update s.waiting thread (some ⟨pid, nohang⟩) })

def isChild (s : Table) (parent : Ptr) (pid : Nat) : Bool :=
  match idLookup s pid with
  | some (.proc, obj) => decide ((s.pcb obj).parent = some parent)
  | _ => false

/-- `sys_wait4` up to its first `_yield` -/
def sysWait4 (fuel : Nat) (s : Table) (thread : Ptr) (pid : Int) (nohang : Bool) :
    Outcome (WaitResult × Table) :=
  let parent := (s.tcb thread).process
  if (s.pcb parent).pid = 0 then pure (.noChild, s)
  else if pid = 0 ∨ pid < -1 then pure (.invalid, s)
  else if 0 < pid ∧ ¬ isChild s parent pid.toNat then pure (.noChild, s)
  else waitRound fuel s thread pid nohang

/-- How far `load_elf_from_vfs` gets: whether the image is there and valid, and
whether standard input can be opened once the process exists. -/
structure Image where
  valid : Bool
  stdin : Bool

inductive LoadResult where
  /-- a negative result before there is a process -/
  | failed
  /-- a negative result that leaves the new process behind -/
  | leftBehind
  | loaded (pid : Nat)
  deriving DecidableEq

/-- `load_elf_from_vfs` called by a thread of `current` -/
def loadElf (s : Table) (current : Ptr) (image : Image) (supply : Supply) : LoadResult × Table :=
  if ¬ image.valid then (.failed, s)
  else
    match newUsproc s (some current) supply with
    | (none, s) => (.failed, s)
    | (some (proc, _), s) =>
      if ¬ image.stdin then (.leftBehind, s)
      else
        match s.threads.first proc with
        | none => (.leftBehind, s)
        | some mainThread =>
          (.loaded (s.pcb proc).pid, s.setTcb mainThread { s.tcb mainThread with state := .runnable })

inductive ExecResult where
  | failed
  | leftBehind
  | replaced
  deriving DecidableEq

/-- The rest of `exec_elf_from_vfs`, once the new process was found by its pid. -/
def replaceProcess (fuel : Nat) (s : Table) (thread newproc : Ptr) : Outcome (ExecResult × Table) :=
  let proc := (s.tcb thread).process
  let s := idTableClear s (s.pcb newproc).pid
  let s := s.setPcb newproc { s.pcb newproc with pid := (s.pcb proc).pid }
  let s := idTableSetProc s (s.pcb proc).pid newproc
  match s.threads.first newproc with
  | none => pure (.leftBehind, s)
  | some mainthread =>
    let s := idTableClear s (s.tcb mainthread).tid
    let s := s.setTcb mainthread { s.tcb mainthread with tid := (s.tcb thread).tid }
    let s := idTableSetThread s (s.tcb mainthread).tid mainthread
    match (s.pcb proc).parent with
    | none => .fault
    | some parent => do
      let s := { s with children := addHead s.children newproc parent }
      let s ← usprocExit fuel thread s proc (-1)
      let children ← unlink s.children proc
      let s := { s with children }
      pure (.replaced, s.setPcb proc { s.pcb proc with parent := none, zombie := true })

/-- `exec_elf_from_vfs` called by `thread` -/
def execElf (fuel : Nat) (s : Table) (thread : Ptr) (image : Image) (supply : Supply) :
    Outcome (ExecResult × Table) :=
  match loadElf s (s.tcb thread).process image supply with
  | (.failed, s) => pure (.failed, s)
  | (.leftBehind, s) => pure (.leftBehind, s)
  | (.loaded newpid, s) =>
    match idLookup s newpid with
    | some (.proc, newproc) => replaceProcess fuel s thread newproc
    | _ => pure (.leftBehind, s)

/-- What the rest of the system can see of a step. A new process is named by its
object and its pid. -/
inductive Event where
  | newUsproc (parent : Option Ptr) (child : Option (Ptr × Nat))
  | load (child : Option Ptr)
  | fork (parent : Ptr) (child : Option (Ptr × Nat))
  | exec (proc : Ptr) (result : ExecResult)
  | exit (proc : Ptr) (pid : Nat) (exitCode : Int)
  | wait4 (parent : Ptr) (pid : Int) (result : WaitResult)
  | reaper
  deriving DecidableEq

/-- `kmalloc` hands out memory that is not in use. -/
structure Supply.Fresh (supply : Supply) (s : Table) : Prop where
  pcb : ∀ p, supply.pcb = some p → s.pcbUsed p = false
  tcb : ∀ t, supply.tcb = some t → s.tcbUsed t = false

/-- A user thread that may enter the kernel. -/
structure Active (s : Table) (thread : Ptr) : Prop where
  used : s.tcbUsed thread = true
  running : (s.tcb thread).state = .runnable
  user : (s.tcb thread).process ≠ s.kernelProc
  notWaiting : s.waiting thread = none

/-- The calls and background steps that change the table. The kernel itself calls
`load_elf_from_vfs` for the first program. Each runs to its end, or to
the `_yield` in `sys_wait4`, before the next one. -/
inductive Step : Table → Event → Table → Prop where
  | newUsproc {s s' : Table} {parent : Option Ptr} {supply : Supply} {result : Option (Ptr × Ptr)}
      (known : ∀ p, parent = some p → s.pcbUsed p = true) (fresh : supply.Fresh s)
      (done : Sched.newUsproc s parent supply = (result, s')) :
      Step s (.newUsproc parent (result.map fun (proc, _) => (proc, (s'.pcb proc).pid))) s'
  | load {s s' : Table} {image : Image} {supply : Supply} {result : LoadResult} (fresh : supply.Fresh s)
      (done : loadElf s s.kernelProc image supply = (result, s')) :
      Step s (.load (if result = .failed then none else supply.pcb.map Subtype.val)) s'
  | fork {s s' : Table} {thread : Ptr} {supply : Supply} {result : Option Nat}
      (caller : Active s thread) (fresh : supply.Fresh s)
      (done : forkProcess s (s.tcb thread).process supply = (result, s')) :
      Step s (.fork (s.tcb thread).process
        (result.bind fun pid => supply.pcb.map fun child => (child.val, pid))) s'
  | exec {s s' : Table} {thread : Ptr} {image : Image} {supply : Supply} {result : ExecResult}
      (fuel : Nat) (caller : Active s thread) (fresh : supply.Fresh s)
      (done : execElf fuel s thread image supply = .ok (result, s')) :
      Step s (.exec (s.tcb thread).process result) s'
  | exit {s s' : Table} {current proc : Ptr} {exitCode : Int} (fuel : Nat)
      (used : s.pcbUsed proc = true) (done : usprocExit fuel current s proc exitCode = .ok s') :
      Step s (.exit proc (s.pcb proc).pid exitCode) s'
  | wait4 {s s' : Table} {thread : Ptr} {pid : Int} {nohang : Bool} {result : WaitResult} (fuel : Nat)
      (caller : Active s thread) (done : sysWait4 fuel s thread pid nohang = .ok (result, s')) :
      Step s (.wait4 (s.tcb thread).process pid result) s'
  | resume {s s' : Table} {thread : Ptr} {wait : Wait} {result : WaitResult} (fuel : Nat)
      (used : s.tcbUsed thread = true) (running : (s.tcb thread).state = .runnable)
      (waiting : s.waiting thread = some wait)
      (done : waitRound fuel s thread wait.pid wait.nohang = .ok (result, s')) :
      Step s (.wait4 (s.tcb thread).process wait.pid result) s'
  | reaper {s s' : Table} (fuel : Nat) (done : Sched.reaper fuel s = .ok s') : Step s .reaper s'

def emptyTable (kernelProc bootThread : Ptr) : Table :=
  { pcb := fun _ => ⟨0, false, 0, none⟩
    tcb := fun _ => ⟨0, .startingUp, 0, 0⟩
    pcbUsed := fun _ => false
    tcbUsed := fun _ => false
    processes := ⟨fun _ => none, fun _ => none, fun _ => none⟩
    threads := ⟨fun _ => none, fun _ => none, fun _ => none⟩
    runQueue := ⟨fun _ => none, fun _ => none, fun _ => none⟩
    children := ⟨fun _ => none, fun _ => none, fun _ => none⟩
    processListDepth := 0
    idTable := fun _ => 0
    tidBitmap := initialTidBitmap
    tid0Used := false
    kernelProc
    bootThread
    waiting := fun _ => none }

/-- `scheduler_init` up to `enable_scheduler` -/
def schedulerInit (kernelProc bootThread : Ptr) : Table :=
  let s := (emptyTable kernelProc bootThread).allocPcb kernelProc
  let s := s.allocTcb bootThread kernelProc
  let s := s.setTcb bootThread { s.tcb bootThread with tid := 0, state := .runnable }
  let s := { s with tid0Used := true }
  let s := { s with threads := addHead s.threads bootThread kernelProc }
  let s := { s with runQueue := addHead s.runQueue bootThread () }
  let s := { s with processes := addHead s.processes kernelProc () }
  let s := idTableSetProc s 0 kernelProc
  { s with processListDepth := 1 }

/-- `ktask_start` by way of `new_thread(NULL, ..)`, when memory and ids suffice -/
def ktaskStart (s : Table) (thread : Ptr) : Table :=
  let s := s.allocTcb thread s.kernelProc
  match s.getUnusedTid with
  | none => s.freeTcb thread
  | some (tid, s) =>
    let s := s.setTcb thread { s.tcb thread with tid, state := .runnable }
    let s := { s with threads := addHead s.threads thread s.kernelProc }
    let s := { s with runQueue := addHead s.runQueue thread () }
    idTableSetThread s tid thread

/-- The table at the end of `scheduler_init`, with the reaper started. -/
def bootTable (kernelProc bootThread reaperThread : Ptr) : Table :=
  ktaskStart (schedulerInit kernelProc bootThread) reaperThread

end CreeperKernel.Sched
