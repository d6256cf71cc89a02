import CreeperKernel.FileEffects

namespace CreeperKernel.Vfs

open Initrd (cstr)

def pathMax : Nat := 512

/-- The memory of a process as the kernel reads it: no byte where a read faults. -/
abbrev Readable := BitVec 64 → Option Byte

/-- `copy_from_user`: `n` bytes, whatever they are. It returns 0, or does not return. -/
def copyFromUser (mem : Readable) : Nat → BitVec 64 → Option (List Byte)
  | 0, _ => some []
  | n + 1, src => do
    let c ← mem src
    let rest ← copyFromUser mem n (src + 1)
    some (c :: rest)

/-- `strncpy_from_user`, from its `i`-th byte on: what it copies and what it returns. -/
def strncpyFromUser (mem : Readable) : Nat → Nat → BitVec 64 → Option (List Byte × Int)
  | 0, _, _ => some ([], -1)
  | n + 1, i, src => do
    let c ← mem src
    if c = 0 then some ([c], i) else do
    let (rest, ret) ← strncpyFromUser mem n (i + 1) (src + 1)
    some (c :: rest, ret)

/-- The kernel stack from the first byte of `kpath` on, before the path is copied there. -/
structure KernelStack where
  bytes : List Byte
  room : pathMax ≤ bytes.length

inductive CopyRoutine where
  | copyFromUser
  | strncpyFromUser
  deriving DecidableEq, Repr

/-- The stack from `kpath` on after the copy, if this does not fault. None of the calls looks at
what the routine returns. -/
def fetch (mem : Readable) (stack : KernelStack) (routine : CopyRoutine) (src : BitVec 64) : Option (List Byte) := do
  let copied ← match routine with
    | .copyFromUser => copyFromUser mem pathMax src
    | .strncpyFromUser => (strncpyFromUser mem pathMax 0 src).map Prod.fst
  some (copied ++ stack.bytes.drop copied.length)

/-- The calls that are given a path. -/
inductive NamedCall where
  | open_ (flags mode : BitVec 32)
  | create (mode : BitVec 32)
  | mkdir (mode : BitVec 32)
  | rmdir
  | unlink
  | chdir
  | access (mode : BitVec 32)
  | openat (dfd : Int) (flags mode : BitVec 32)
  | mkdirat (dfd : Int) (mode : BitVec 32)
  | unlinkat (dfd : Int) (flag : BitVec 32)
  deriving DecidableEq, Repr

/-- What a call has come to once its path is copied and its start resolved: the copy faulted and
the process is killed, the call has returned, or it walks a path. -/
inductive Approach where
  | killed
  | returned (ret : Int) (w : World)
  | walks (path : Name) (outcome : Except Stop (Int × World))

/-- What becomes of the call. -/
def Approach.outcome : Approach → Except Stop (Int × World)
  | .killed => .error .dangling
  | .returned ret w => .ok (ret, w)
  | .walks _ outcome => outcome

section Calls

variable (w : World) (pid : Nat) (heap : List Bool) (mem : Readable) (stack : KernelStack)

def sysUnlinkat (dfd : Int) (pathname : Option Name) (flag : BitVec 32) : Except Stop (Int × World) :=
  onPath w pid heap (fun fs proc path => resolveAt fs proc dfd path) pathname
    (onSplit (if flag &&& atRemovedir ≠ 0 then kpathRmdir else pathUnlink))

namespace NamedCall

def run (path : Option Name) : NamedCall → Except Stop (Int × World)
  | .open_ flags mode => sysOpen w pid heap path flags mode
  | .create mode => sysCreate w pid heap path mode
  | .mkdir mode => sysMkdir w pid heap path mode
  | .rmdir => sysRmdir w pid heap path
  | .unlink => sysUnlink w pid heap path
  | .chdir => sysChdir w pid heap path
  | .access mode => sysAccess w pid heap path mode
  | .openat dfd flags mode => sysOpenat w pid heap dfd path flags mode
  | .mkdirat dfd mode => sysMkdirat w pid heap dfd path mode
  | .unlinkat dfd flag => sysUnlinkat w pid heap dfd path flag

def routine : NamedCall → CopyRoutine
  | .open_ _ _ | .create _ | .mkdir _ => .strncpyFromUser
  | _ => .copyFromUser

/-- The calls that fill an entry of the file table. -/
def opens : NamedCall → Bool
  | .open_ _ _ | .openat _ _ _ => true
  | _ => false

def resolve (fs : Fs) (proc : Proc) (path : Name) : NamedCall → Except Stop (Option Ptr)
  | .openat dfd _ _ | .mkdirat dfd _ | .unlinkat dfd _ => resolveAt fs proc dfd path
  | _ => pathResolveStart fs proc path

end NamedCall

/-- The walk of the string at `kpath`. Without a terminator the string functions run on over the
stack and off its end. -/
def arrive (seen : List Byte) (outcome : Name → Except Stop (Int × World)) : Except Stop Approach :=
  match cstr seen 0 with
  | .error _ => .ok .killed
  | .ok path => .ok (.walks path (outcome path))

/-- `split_path`, and the walk of what it has split. -/
def arriveSplit (fs : Fs) (seen : List Byte) (operation : Fs → Name → Name → Except Stop (Int × Fs)) :
    Except Stop Approach :=
  match cstr seen 0 with
  | .error _ => .ok .killed
  | .ok path =>
    match fs.kmalloc with
    | (none, fs) => .ok (.returned (-eNomem) { w with fs })
    | (some _, fs) =>
      match fs.kmalloc with
      | (none, fs) => .ok (.returned (-eNomem) { w with fs })
      | (some _, fs) =>
        if (splitLast path).2 = [] then .ok (.returned (-eInval) { w with fs }) else
        match fs.kmalloc with
        | (none, fs) => .ok (.returned (-eNomem) { w with fs })
        | (some _, fs) => .ok (.walks path do
            let (ret, fs) ← operation fs (splitLast path).1 (splitLast path).2
            .ok (ret, { w with fs }))

/-- `sys_open` and `sys_openat` from their start on. -/
def arriveOpen (fs : Fs) (proc : Proc) (start : Ptr) (seen : List Byte) (flags mode : BitVec 32) :
    Except Stop Approach :=
  match proc.openedFileTable with
  | none => .ok (.returned (-eInval) w)
  | some table =>
    if (freeSlot table 3).isNone then .ok (.returned (-eInval) { w with fs }) else
    arrive seen fun path => openFrom w pid fs proc table (some start) path flags mode

/-- The walk of one operation on paths. -/
def operate (operation : Name → Except Stop (Int × Fs)) (path : Name) : Except Stop (Int × World) := do
  let (ret, fs) ← operation path
  .ok (ret, { w with fs })

def NamedCall.arrive (fs : Fs) (proc : Proc) (start : Ptr) (seen : List Byte) : NamedCall → Except Stop Approach
  | .open_ flags mode => arriveOpen w pid fs proc start seen flags mode
  | .create mode => Vfs.arrive seen (operate w fun path => kpathCreate fs start path (mode.setWidth 16) false)
  | .mkdir mode => Vfs.arrive seen (operate w fun path => kpathMkdir fs start path (mode.setWidth 16))
  | .rmdir => arriveSplit w fs seen fun fs => kpathRmdir fs start
  | .unlink => arriveSplit w fs seen fun fs => pathUnlink fs start
  | .chdir => Vfs.arrive seen (chdirTo w pid fs proc start)
  | .access mode => Vfs.arrive seen fun path => accessAt w fs proc start path mode
  | .openat _ flags mode => arriveOpen w pid fs proc start seen flags mode
  | .mkdirat _ mode => Vfs.arrive seen (operate w fun path => kpathMkdir fs start path (mode.setWidth 16))
  | .unlinkat _ flag => arriveSplit w fs seen fun fs =>
    (if flag &&& atRemovedir ≠ 0 then kpathRmdir else pathUnlink) fs start

/-- A call with the address of its path. -/
def approach (call : NamedCall) (filename : BitVec 64) : Except Stop Approach := do
  let proc ← w.current pid
  if filename = 0 then .ok (.returned (-eInval) w)
  else if call.opens && proc.openedFileTable.isNone then .ok (.returned (-eInval) w)
  else
    match fetch mem stack call.routine filename with
    | none => .ok .killed
    | some seen => do
      let fs := w.fs.seenBy proc heap
      match ← call.resolve fs proc (seen.takeWhile (· ≠ 0)) with
      | none => .ok (.returned (-eInval) (if call.opens then { w with fs } else w))
      | some start => call.arrive w pid fs proc start seen

end Calls

/-- A string with its terminator in the memory of a process. -/
def UserString (mem : Readable) : BitVec 64 → Name → Prop
  | src, [] => mem src = some 0
  | src, c :: s => c ≠ 0 ∧ mem src = some c ∧ UserString mem (src + 1) s

/-- The call walks some path. -/
def Walks (result : Except Stop Approach) : Prop := ∃ path outcome, result = .ok (.walks path outcome)

/-- A call fails without walking a path, or walks one that meets `sees`. -/
def Honours (sees : Name → Prop) : Except Stop Approach → Prop
  | .ok (.walks path _) => sees path
  | .ok (.returned ret _) => ret < 0
  | .ok .killed => True
  | .error _ => True

section Copies

variable {mem : Readable} {stack : KernelStack} {s : Name} {src : BitVec 64} {seen : List Byte} {n i : Nat}

theorem UserString.clean (string : UserString mem src s) : 0 ∉ s := by
  induction s generalizing src with
  | nil => exact List.not_mem_nil
  | cons c s ih =>
    intro member
    rcases List.mem_cons.mp member with here | later
    · exact string.1 here.symm
    · exact ih string.2.2 later

end Copies

section Approaches

variable {w : World} {pid : Nat} {heap : List Bool} {mem : Readable} {stack : KernelStack} {call : NamedCall}
    {length : Nat}
  {filename : BitVec 64} {s : Name}

section Parts

variable {sees : Name → Prop}

theorem Honours.mono {more : Name → Prop} {result : Except Stop Approach} (honours : Honours sees result)
    (imp : ∀ path, Walks result → sees path → more path) : Honours more result := by
  rcases result with stop | ⟨_ | ⟨ret, w'⟩ | ⟨path, outcome⟩⟩
  · trivial
  · trivial
  · exact honours
  · exact imp path ⟨path, outcome, rfl⟩ honours

variable {seen : List Byte} (string : ∀ path, cstr seen 0 = .ok path → sees path)
include string

theorem arrive_honours (outcome : Name → Except Stop (Int × World)) : Honours sees (arrive seen outcome) := by
  unfold arrive
  split
  · trivial
  · rename_i path here
    exact string path here

theorem arriveSplit_honours (fs : Fs) (operation : Fs → Name → Name → Except Stop (Int × Fs)) :
    Honours sees (arriveSplit w fs seen operation) := by
  unfold arriveSplit
  split
  · trivial
  · rename_i path here
    repeat' split
    all_goals first | exact string path here | exact (by decide : (-eNomem : Int) < 0) | exact (by decide : (-eInval : Int) < 0)

theorem arriveOpen_honours (fs : Fs) (proc : Proc) (start : Ptr) (flags mode : BitVec 32) :
    Honours sees (arriveOpen w pid fs proc start seen flags mode) := by
  unfold arriveOpen
  split
  · show -eInval < 0
    decide
  · split
    · show -eInval < 0
      decide
    · exact arrive_honours string _

theorem NamedCall.arrive_honours (fs : Fs) (proc : Proc) (start : Ptr) (call : NamedCall) :
    Honours sees (call.arrive w pid fs proc start seen) := by
  cases call with
  | open_ | openat => exact arriveOpen_honours string ..
  | create | mkdir | mkdirat | chdir | access => exact Vfs.arrive_honours string ..
  | rmdir | unlink | unlinkat => exact arriveSplit_honours string ..

end Parts

theorem takeWhile_of_cstr {seen : List Byte} {path : Name} (here : cstr seen 0 = .ok path) :
    seen.takeWhile (· ≠ 0) = path := by
  unfold cstr at here
  split at here
  · cases here
    rfl
  · cases here

section Outcomes

variable {seen : List Byte} {path : Name} (here : cstr seen 0 = .ok path) {fs : Fs} {proc : Proc} {start : Ptr}
include here

theorem arrive_outcome (outcome : Name → Except Stop (Int × World)) :
    arrive seen outcome >>= Approach.outcome = outcome path := by
  unfold arrive
  rw [here]
  rfl

theorem arriveSplit_outcome (operation : Fs → Ptr → Name → Name → Except Stop (Int × Fs)) :
    arriveSplit w fs seen (fun fs => operation fs start) >>= Approach.outcome =
      operate w (fun path => onSplit operation fs start path) path := by
  unfold arriveSplit operate onSplit
  rw [here]
  rcases first : fs.kmalloc with ⟨copy, fs₁⟩
  cases copy with
  | none => rfl
  | some copy =>
    rcases second : fs₁.kmalloc with ⟨parent, fs₂⟩
    cases parent with
    | none => simp only [second]; rfl
    | some parent =>
      by_cases empty : (splitLast path).2 = []
      · simp only [second, if_pos empty]
        rfl
      · rcases third : fs₂.kmalloc with ⟨name, fs₃⟩
        cases name with
        | none => simp only [second, if_neg empty, third]; rfl
        | some name => simp only [second, if_neg empty, third]; rfl

theorem arriveOpen_outcome {table : Table} (has : proc.openedFileTable = some table) (flags mode : BitVec 32) :
    arriveOpen w pid fs proc start seen flags mode >>= Approach.outcome =
      openFrom w pid fs proc table (some start) path flags mode := by
  unfold arriveOpen
  rw [has]
  dsimp only
  cases free : freeSlot table 3 with
  | none =>
    unfold openFrom
    rw [free]
    rfl
  | some fd => exact arrive_outcome here _

end Outcomes

/-- A call that has its path and its table goes on from its start. -/
theorem approach_resolves {seen : List Byte} {proc : Proc} (pointer : filename ≠ 0)
    (fetched : fetch mem stack call.routine filename = some seen) (caller : w.current pid = .ok proc)
    (table : (call.opens && proc.openedFileTable.isNone) = false) :
    approach w pid heap mem stack call filename =
      call.resolve (w.fs.seenBy proc heap) proc (seen.takeWhile (· ≠ 0)) >>= fun start =>
        match start with
        | none => .ok (.returned (-eInval) (if call.opens then { w with fs := w.fs.seenBy proc heap } else w))
        | some start => call.arrive w pid (w.fs.seenBy proc heap) proc start seen := by
  unfold approach
  rw [caller]
  simp only [bind, Except.bind, if_neg pointer, table, Bool.false_eq_true, if_false, fetched]

theorem approach_eq {seen : List Byte} {path : Name} {proc : Proc} (pointer : filename ≠ 0)
    (fetched : fetch mem stack call.routine filename = some seen) (here : cstr seen 0 = .ok path)
    (caller : w.current pid = .ok proc) (table : (call.opens && proc.openedFileTable.isNone) = false) :
    approach w pid heap mem stack call filename >>= Approach.outcome =
      call.resolve (w.fs.seenBy proc heap) proc path >>= fun start =>
        match start with
        | none => .ok (-eInval, if call.opens then { w with fs := w.fs.seenBy proc heap } else w)
        | some start => call.arrive w pid (w.fs.seenBy proc heap) proc start seen >>= Approach.outcome := by
  rw [approach_resolves pointer fetched caller table, takeWhile_of_cstr here]
  cases call.resolve (w.fs.seenBy proc heap) proc path with
  | error stop => rfl
  | ok start => cases start <;> rfl

theorem onPath_eq {path : Name} {proc : Proc} (caller : w.current pid = .ok proc)
    (resolve : Fs → Proc → Name → Except Stop (Option Ptr)) (operation : Fs → Ptr → Name → Except Stop (Int × Fs)) :
    onPath w pid heap resolve (some path) operation =
      resolve (w.fs.seenBy proc heap) proc path >>= fun start =>
        match start with
        | none => .ok (-eInval, w)
        | some start => operate w (operation (w.fs.seenBy proc heap) start) path := by
  unfold onPath withPath
  rw [caller]
  rfl

/-- With a path the kernel sees as `path`, a call is the call of the file model on `path`. -/
theorem approach_eq_run {seen : List Byte} {path : Name} (pointer : filename ≠ 0)
    (fetched : fetch mem stack call.routine filename = some seen) (here : cstr seen 0 = .ok path) :
    approach w pid heap mem stack call filename >>= Approach.outcome = call.run w pid heap (some path) := by
  cases caller : w.current pid with
  | error stop =>
    unfold approach
    rw [caller]
    cases call <;>
      simp only [NamedCall.run, sysOpen, sysCreate, sysMkdir, sysRmdir, sysUnlink, sysChdir, sysAccess, sysOpenat,
        sysMkdirat, sysUnlinkat, onPath, openPath, withPath, caller] <;> rfl
  | ok proc =>
    by_cases table : (call.opens && proc.openedFileTable.isNone) = false
    · rw [approach_eq pointer fetched here caller table]
      cases call with
      | create | mkdir | mkdirat =>
        simp only [NamedCall.run, sysCreate, sysMkdir, sysMkdirat, onPath_eq caller, NamedCall.resolve, NamedCall.opens,
          NamedCall.arrive, arrive_outcome here]
        rfl
      | rmdir | unlink | unlinkat =>
        simp only [NamedCall.run, sysRmdir, sysUnlink, sysUnlinkat, onPath_eq caller, NamedCall.resolve,
          NamedCall.opens, NamedCall.arrive, arriveSplit_outcome here]
        rfl
      | chdir | access =>
        simp only [NamedCall.run, sysChdir, sysAccess, withPath, caller, NamedCall.resolve, NamedCall.opens,
          NamedCall.arrive, arrive_outcome here]
        rfl
      | open_ | openat =>
        obtain ⟨entries, has⟩ := Option.isSome_iff_exists.mp (by simpa [NamedCall.opens] using table)
        simp only [NamedCall.run, sysOpen, sysOpenat, openPath, withPath, caller, NamedCall.resolve, NamedCall.opens,
          NamedCall.arrive, arriveOpen_outcome here has]
        show _ = (match proc.openedFileTable with
          | none => _
          | some _ => _)
        rw [has]
        apply congrArg (Bind.bind _)
        funext start
        cases start <;> rfl
    · rw [Bool.not_eq_false, Bool.and_eq_true, Option.isNone_iff_eq_none] at table
      unfold approach
      rw [caller]
      cases call with
      | open_ | openat =>
        simp only [bind, Except.bind, if_neg pointer, table, NamedCall.run, sysOpen, sysOpenat, openPath, withPath, caller]
        rfl
      | _ => exact absurd table.1 Bool.false_ne_true

/-- The string at `kpath` if the path does not fit: its first bytes, and the stack behind them. -/
def cutPath (stack : KernelStack) (s : Name) : Name := s.take pathMax ++ (stack.bytes.drop pathMax).takeWhile (· ≠ 0)

/-- The calls that take their path apart before they walk it. -/
def NamedCall.splits : NamedCall → Bool
  | .rmdir | .unlink | .unlinkat _ _ => true
  | _ => false

/-- What keeps a call with a path that does not fit from walking one. -/
inductive Refused (w : World) (pid : Nat) (heap : List Bool) (stack : KernelStack) (call : NamedCall)
    (filename : BitVec 64) (s : Name) : Prop where
  | noPath (null : filename = 0)
  | noCaller (gone : ∀ proc, w.current pid ≠ .ok proc)
  | noEntry {proc : Proc} (caller : w.current pid = .ok proc) (opens : call.opens = true)
      (full : ∀ table, proc.openedFileTable = some table → freeSlot table 3 = none)
  | noStart {proc : Proc} (caller : w.current pid = .ok proc)
      (nowhere : ∀ start, call.resolve (w.fs.seenBy proc heap) proc s ≠ .ok (some start))
  | noEnd (unterminated : 0 ∉ stack.bytes.drop pathMax)
  | noMemory (splits : call.splits = true) (fails : false ∈ heap.take 3)
  | noName (splits : call.splits = true) (empty : (splitLast (cutPath stack s)).2 = [])

/-- The path that is walked. -/
def Approach.walked : Approach → Option Name
  | .walks path _ => some path
  | _ => none

end Approaches

end CreeperKernel.Vfs
