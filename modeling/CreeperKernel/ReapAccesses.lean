import CreeperKernel.ProcessTable

namespace CreeperKernel.Sched

open IntrusiveLists

/-- An object that `aligned_free` gives back. -/
inductive Obj where
  | pcb (p : Ptr)
  | tcb (t : Ptr)
  deriving DecidableEq

/-- What the reapers do to objects: read or write a field, free one, and calls of `reap_us_thread`. -/
inductive Access where
  | touch (o : Obj)
  | free (o : Obj)
  | call (t : Ptr)

/-- The objects that `hlist_del` reads or writes. -/
def delObjects {η : Type} (l : Links η Ptr) (head : η → List Obj) (node : Ptr → Obj) (n : Ptr) : List Obj :=
  node n :: ((match l.pprev n with
    | none => []
    | some (.inl h) => head h
    | some (.inr m) => [node m]) ++ (l.next n).toList.map node)

/-- The accesses of `reap_us_proc`. The head of the list of processes is no object. -/
def reapUsProcAccesses (s : Table) (proc : Ptr) : List Access :=
  if proc = s.kernelProc then []
  else if ¬ (s.pcb proc).zombie ∨ (s.threads.first proc).isSome then [.touch (.pcb proc)]
  else (Obj.pcb proc :: (delObjects s.processes (fun _ => []) .pcb proc ++
    (if (s.pcb proc).parent.isSome then delObjects s.children (fun p => [.pcb p]) .pcb proc else [])) ++
      [Obj.pcb proc]).map .touch ++ [.free (.pcb proc)]

def reapUsThreadAccesses (s : Table) (thread : Ptr) : List Access :=
  let proc := (s.tcb thread).process
  if proc = s.kernelProc ∨ (s.tcb thread).state ≠ .zombie then [.call thread, .touch (.tcb thread)]
  else
    .call thread :: (Obj.tcb thread :: .pcb proc :: (delObjects s.threads (fun p => [.pcb p]) .tcb thread ++
      [.tcb thread, .pcb proc])).map .touch ++ [.free (.tcb thread)] ++
    match unlink s.threads thread with
    | .ok threads =>
      if (threads.first proc).isSome then []
      else .touch (.pcb proc) ::
        if (s.pcb proc).zombie then
          reapUsProcAccesses { s with threads } proc else []
    | _ => []

/-- `reap_us_proc_threads` with its accesses; the loop condition reads the process. -/
def reapAll (s : Table) (proc : Ptr) : Nat → Outcome (List Access × Table)
  | 0 => .hang
  | fuel + 1 =>
    match s.threads.first proc with
    | none => pure ([.touch (.pcb proc)], s)
    | some thread => do
      let s' ← reapUsThread s thread
      let (later, s'') ← reapAll s' proc fuel
      pure (.touch (.pcb proc) :: (reapUsThreadAccesses s thread ++ later), s'')

/-- No object is used after it was freed, and none is freed twice; those in `gone` are freed already. -/
def CleanFrom : List Obj → List Access → Prop
  | _, [] => True
  | gone, .touch o :: rest => o ∉ gone ∧ CleanFrom gone rest
  | gone, .free o :: rest => o ∉ gone ∧ CleanFrom (o :: gone) rest
  | gone, .call _ :: rest => CleanFrom gone rest

def freed : List Access → List Obj
  | [] => []
  | .free o :: rest => o :: freed rest
  | _ :: rest => freed rest

def called : List Access → List Ptr
  | [] => []
  | .call t :: rest => t :: called rest
  | _ :: rest => called rest

/-- A process that can be reaped, with its zombie threads `ts`. -/
structure Reapable (s : Table) (proc : Ptr) (ts : List Ptr) : Prop where
  user : proc ≠ s.kernelProc
  threads : Chain s.threads (.inl proc) ts
  zombies : ∀ t ∈ ts, (s.tcb t).process = proc ∧ (s.tcb t).state = .zombie
  listed : ∃ ps, Chain s.processes (.inl ()) ps ∧ proc ∈ ps
  child : (s.pcb proc).parent ≠ none → ∃ parent cs, Chain s.children (.inl parent) cs ∧ proc ∈ cs

section Traces

variable {gone : List Obj} {front back : List Access} {objects : List Obj} {o : Obj}

theorem cleanFrom_append : CleanFrom gone (front ++ back) ↔ CleanFrom gone front ∧ CleanFrom ((freed front).reverse ++ gone) back := by
  induction front generalizing gone with
  | nil => exact (and_iff_right trivial).symm
  | cons a rest ih =>
    cases a with
    | touch o => simp only [List.cons_append, CleanFrom, freed, ih, and_assoc]
    | call t => simp only [List.cons_append, CleanFrom, freed, ih]
    | free o => simp only [List.cons_append, CleanFrom, freed, ih, and_assoc, List.reverse_cons, List.append_assoc, List.nil_append]

theorem freed_append : freed (front ++ back) = freed front ++ freed back := by
  induction front with
  | nil => rfl
  | cons a rest ih => cases a <;> simp only [List.cons_append, freed, ih]

theorem called_append : called (front ++ back) = called front ++ called back := by
  induction front with
  | nil => rfl
  | cons a rest ih => cases a <;> simp only [List.cons_append, called, ih]

@[simp] theorem freed_touches : freed (objects.map .touch) = [] := by
  induction objects with
  | nil => rfl
  | cons o rest ih => exact ih

@[simp] theorem called_touches : called (objects.map .touch) = [] := by
  induction objects with
  | nil => rfl
  | cons o rest ih => exact ih

theorem freed_first {t : Ptr} : freed (.call t :: objects.map .touch ++ [.free (.tcb t)]) = [.tcb t] := by
  simp only [List.cons_append, freed, freed_append, freed_touches, List.nil_append]

theorem cleanFrom_touches : CleanFrom gone (objects.map .touch) ↔ ∀ o ∈ objects, o ∉ gone := by
  induction objects with
  | nil => exact iff_of_true trivial fun o none_ => nomatch none_
  | cons o rest ih => simp only [List.map_cons, CleanFrom, ih, List.forall_mem_cons]

end Traces

section Reaping

variable {s : Table} {proc t : Ptr} {ts : List Ptr} {fuel : Nat}

theorem Reapable.delObjects_threads (reapable : Reapable s proc (t :: ts)) :
    ∀ o ∈ delObjects s.threads (fun p => [.pcb p]) .tcb t, o = .pcb proc ∨ ∃ u ∈ t :: ts, o = .tcb u := by
  have ⟨_, back, later⟩ := reapable.threads
  have next : ∀ u, s.threads.next t = some u → u ∈ ts := by
    intro u next
    cases ts with
    | nil => cases next.symm.trans later
    | cons v vs =>
      cases next.symm.trans later.1
      exact List.mem_cons_self
  intro o member
  unfold delObjects at member
  rw [back] at member
  rcases List.mem_cons.mp member with same | member
  · exact .inr ⟨t, List.mem_cons_self, same⟩
  rcases List.mem_append.mp member with head | member
  · exact .inl (List.mem_singleton.mp head)
  · have ⟨u, listed, same⟩ := List.mem_map.mp member
    exact .inr ⟨u, List.mem_cons_of_mem t (next u (Option.mem_toList.mp listed)), same.symm⟩

theorem delObjects_pcb {η : Type} {l : Links η Ptr} {head : η → List Obj} (heads : ∀ h, ∀ o ∈ head h, ∃ p, o = .pcb p)
    (n : Ptr) : ∀ o ∈ delObjects l head .pcb n, ∃ p, o = .pcb p := by
  intro o member
  unfold delObjects at member
  rcases List.mem_cons.mp member with same | member
  · exact ⟨n, same⟩
  rcases List.mem_append.mp member with place | member
  · split at place
    · cases place
    · exact heads _ o place
    · exact ⟨_, List.mem_singleton.mp place⟩
  · have ⟨u, _, same⟩ := List.mem_map.mp member
    exact ⟨u, same.symm⟩

theorem Reapable.first_thread (reapable : Reapable s proc (t :: ts)) : ∃ threads, ∃ objects : List Obj,
    unlink s.threads t = .ok threads ∧ Chain threads (.inl proc) ts ∧
    (∀ o ∈ objects, o = .pcb proc ∨ ∃ u ∈ t :: ts, o = .tcb u) ∧
    reapUsThreadAccesses s t = .call t :: objects.map .touch ++ [.free (.tcb t)] ++
      if ts ≠ [] then [] else .touch (.pcb proc) ::
        if (s.pcb proc).zombie then reapUsProcAccesses { s with threads } proc else [] := by
  have ⟨threads, removed, chain⟩ := reapable.threads.del_mem List.mem_cons_self
  rw [List.erase_cons_head] at chain
  have ⟨mine, zombie⟩ := reapable.zombies t List.mem_cons_self
  have done : unlink s.threads t = .ok threads := by rw [unlink, removed]
  have last : (threads.first proc).isSome = true ↔ ts ≠ [] := by
    cases ts with
    | nil =>
      rw [show threads.first proc = none from chain]
      exact iff_of_false Bool.false_ne_true fun some_ => some_ rfl
    | cons u us =>
      rw [show threads.first proc = some u from chain.1]
      exact iff_of_true rfl (List.cons_ne_nil u us)
  refine ⟨threads, Obj.tcb t :: .pcb proc :: (delObjects s.threads (fun p => [.pcb p]) .tcb t ++ [.tcb t, .pcb proc]), done,
    chain, fun o member => ?_, ?_⟩
  · have touched := reapable.delObjects_threads
    simp only [List.mem_cons, List.mem_append, List.not_mem_nil, or_false] at member
    rcases member with same | same | listed | same | same
    · exact .inr ⟨t, List.mem_cons_self, same⟩
    · exact .inl same
    · exact touched o listed
    · exact .inr ⟨t, List.mem_cons_self, same⟩
    · exact .inl same
  · simp only [reapUsThreadAccesses, mine, zombie, done, if_congr last rfl rfl, reapable.user, false_or, ne_eq,
      not_true_eq_false, if_false]

theorem Reapable.reap_inner {u : Ptr} (reapable : Reapable s proc (t :: u :: ts)) :
    ∃ s', reapUsThread s t = .ok s' ∧ Reapable s' proc (u :: ts) ∧ s'.pcb = s.pcb := by
  have ⟨threads, _, done, chain, _⟩ := reapable.first_thread
  have ⟨mine, zombie⟩ := reapable.zombies t List.mem_cons_self
  have more : threads.first proc = some u := chain.1
  refine ⟨((idTableClear { s with threads } (s.tcb t).tid).freeTid (s.tcb t).tid).freeTcb t, ?_, ?_, rfl⟩
  · simp only [reapUsThread, mine, zombie, done, reapable.user, ne_eq, not_true_eq_false, if_false, bind, Outcome.bind]
    rw [if_neg]
    · rfl
    · intro ⟨none_, _⟩
      rw [show (idTableClear { s with threads } (s.tcb t).tid).threads.first proc = some u from more] at none_
      cases none_
  · exact ⟨reapable.user, chain, fun v member => reapable.zombies v (List.mem_cons_of_mem t member), reapable.listed,
      reapable.child⟩

theorem unlink_of_mem {η : Type} [DecidableEq η] {l : Links η Ptr} {h : η} {ns : List Ptr} {n : Ptr}
    (order : Chain l (.inl h) ns) (member : n ∈ ns) : ∃ l', unlink l n = .ok l' := by
  have ⟨l', removed, _⟩ := order.del_mem member
  exact ⟨l', by rw [unlink, removed]⟩

/-- `reap_us_proc` finds a listed process in its lists and leaves the lists of threads alone. -/
theorem reapUsProc_total (listed : ∃ ps, Chain s.processes (.inl ()) ps ∧ proc ∈ ps)
    (child : (s.pcb proc).parent ≠ none → ∃ parent cs, Chain s.children (.inl parent) cs ∧ proc ∈ cs) :
    ∃ s', reapUsProc s proc = .ok s' ∧ s'.threads = s.threads := by
  have ⟨ps, order, member⟩ := listed
  have ⟨processes, taken⟩ := unlink_of_mem order member
  have ⟨children, linked⟩ : ∃ children, unlinkSibling { s with processes } proc = .ok { s with processes, children } := by
    unfold unlinkSibling
    split
    · rename_i some_
      have ⟨parent, cs, order, member⟩ := child (Option.isSome_iff_ne_none.mp some_)
      have ⟨children, removed⟩ := unlink_of_mem order member
      exact ⟨children, by simp only [removed, bind, Outcome.bind, pure]⟩
    · exact ⟨s.children, rfl⟩
  unfold reapUsProc
  split
  · exact ⟨s, rfl, rfl⟩
  split
  · exact ⟨s, rfl, rfl⟩
  split
  · exact ⟨s, rfl, rfl⟩
  · simp only [taken, linked, bind, Outcome.bind]
    exact ⟨_, rfl, rfl⟩

/-- With its last thread a zombie process goes, and its list of threads reads as empty from then on. -/
theorem Reapable.reap_last (reapable : Reapable s proc [t]) :
    ∃ s', reapUsThread s t = .ok s' ∧ s'.threads.first proc = none := by
  have ⟨threads, _, done, chain, _⟩ := reapable.first_thread
  have ⟨mine, zombie⟩ := reapable.zombies t List.mem_cons_self
  have empty : threads.first proc = none := chain
  simp only [reapUsThread, mine, zombie, done, reapable.user, ne_eq, not_true_eq_false, if_false, bind, Outcome.bind]
  split
  · have ⟨s', reaped, same⟩ : ∃ s', reapUsProc (((idTableClear { s with threads } (s.tcb t).tid).freeTid
        (s.tcb t).tid).freeTcb t) proc = .ok s' ∧ s'.threads = threads :=
      reapUsProc_total reapable.listed reapable.child
    refine ⟨s', reaped, ?_⟩
    rw [same]
    exact empty
  · exact ⟨_, rfl, empty⟩

theorem reapUsProcAccesses_shape (user : proc ≠ s.kernelProc) (dead : (s.pcb proc).zombie = true)
    (empty : s.threads.first proc = none) : ∃ objects : List Obj, (∀ o ∈ objects, ∃ p, o = .pcb p) ∧
      reapUsProcAccesses s proc = objects.map .touch ++ [.free (.pcb proc)] := by
  refine ⟨_, ?_, by rw [reapUsProcAccesses, if_neg user, if_neg (by simp [dead, empty])]⟩
  intro o member
  simp only [List.cons_append, List.mem_cons, List.mem_append, List.not_mem_nil, or_false] at member
  rcases member with same | (listed | listed) | same
  · exact ⟨proc, same⟩
  · exact delObjects_pcb (fun _ o none_ => absurd none_ List.not_mem_nil) proc o listed
  · split at listed
    · exact delObjects_pcb (fun p o same => ⟨p, List.mem_singleton.mp same⟩) proc o listed
    · cases listed
  · exact ⟨proc, same⟩

/-- What is freed already when the threads `ts` are still to come: threads of the process, none of `ts`. -/
structure GoneBefore (gone : List Obj) (ts : List Ptr) : Prop where
  pcb : ∀ p, .pcb p ∉ gone
  tcb : ∀ t ∈ ts, .tcb t ∉ gone

variable {gone : List Obj}

/-- Reaping a thread uses nothing that was freed before, and frees that thread. -/
theorem GoneBefore.first_thread (before : GoneBefore gone (t :: ts)) {objects : List Obj}
    (within : ∀ o ∈ objects, o = .pcb proc ∨ ∃ u ∈ t :: ts, o = .tcb u) :
    CleanFrom gone (.call t :: objects.map .touch ++ [.free (.tcb t)]) := by
  apply cleanFrom_append.mpr
  have touches : CleanFrom gone (objects.map .touch) := by
    apply cleanFrom_touches.mpr
    intro o member
    rcases within o member with rfl | ⟨u, listed, rfl⟩
    · exact before.pcb proc
    · exact before.tcb u listed
  refine ⟨touches, ?_, trivial⟩
  show .tcb t ∉ (freed (objects.map .touch)).reverse ++ gone
  rw [freed_touches]
  exact before.tcb t List.mem_cons_self

theorem GoneBefore.cons (before : GoneBefore gone (t :: ts)) (apart : t ∉ ts) : GoneBefore (.tcb t :: gone) ts where
  pcb p member := by
    rcases List.mem_cons.mp member with same | member
    · cases same
    · exact before.pcb p member
  tcb u listed member := by
    rcases List.mem_cons.mp member with same | member
    · cases same
      exact apart listed
    · exact before.tcb u (List.mem_cons_of_mem t listed) member

theorem Reapable.accesses_last (reapable : Reapable s proc [t]) (before : GoneBefore gone [t]) :
    called (reapUsThreadAccesses s t) = [t] ∧
      freed (reapUsThreadAccesses s t) = .tcb t :: (if (s.pcb proc).zombie then [.pcb proc] else []) ∧
      CleanFrom gone (reapUsThreadAccesses s t) := by
  have ⟨threads, objects, _, chain, within, shape⟩ := reapable.first_thread
  have clean := before.first_thread within
  have later : GoneBefore (.tcb t :: gone) [] := before.cons List.not_mem_nil
  rw [shape, if_neg (not_not_intro rfl)]
  cases alive : (s.pcb proc).zombie with
  | false =>
    refine ⟨?_, ?_, cleanFrom_append.mpr ⟨clean, ?_⟩⟩
    · simp only [called, called_append, called_touches, List.cons_append, List.nil_append]
      rfl
    · simp only [freed, freed_append, freed_touches, List.cons_append, List.nil_append]
      rfl
    · rw [freed_first]
      exact ⟨later.pcb proc, trivial⟩
  | true =>
    have ⟨others, pcbs, gives⟩ := reapUsProcAccesses_shape (s := { s with threads }) reapable.user alive chain
    rw [if_pos rfl, if_pos rfl, gives]
    refine ⟨?_, ?_, cleanFrom_append.mpr ⟨clean, ?_⟩⟩
    · simp only [called, called_append, called_touches, List.cons_append, List.nil_append]
    · simp only [freed, freed_append, freed_touches, List.cons_append, List.nil_append]
    · rw [freed_first]
      refine ⟨later.pcb proc, cleanFrom_append.mpr ⟨cleanFrom_touches.mpr fun o member => ?_, ?_, trivial⟩⟩
      · have ⟨p, same⟩ := pcbs o member
        rw [same]
        exact later.pcb p
      · rw [freed_touches]
        exact later.pcb proc

/-- `reap_us_proc_threads` over a process with its threads: it ends and reaps every thread once, and before the loop
condition is read for the last time nothing is used after it was freed. -/
theorem Reapable.reapAll (reapable : Reapable s proc (t :: ts)) (before : GoneBefore gone (t :: ts))
    (enough : ts.length + 2 ≤ fuel) : ∃ front s', Sched.reapAll s proc fuel = .ok (front ++ [.touch (.pcb proc)], s') ∧
      called front = t :: ts ∧ freed front = (t :: ts).map .tcb ++ (if (s.pcb proc).zombie then [.pcb proc] else []) ∧
      CleanFrom gone front := by
  have start : s.threads.first proc = some t := reapable.threads.1
  induction ts generalizing s t gone fuel with
  | nil =>
    have ⟨s', reaped, empty⟩ := reapable.reap_last
    have ⟨rounds, same⟩ : ∃ rounds, fuel = rounds + 2 := ⟨fuel - 2, by simp only [List.length_nil] at enough; omega⟩
    have ⟨calls, frees, clean⟩ := reapable.accesses_last before
    refine ⟨.touch (.pcb proc) :: reapUsThreadAccesses s t, s', ?_, calls, frees, before.pcb proc, clean⟩
    simp only [same, Sched.reapAll, start, reaped, empty, bind, Outcome.bind, pure, List.cons_append]
  | cons u us ih =>
    have ⟨s₁, reaped, rest, same⟩ := reapable.reap_inner
    have ⟨_, objects, _, _, within, shape⟩ := reapable.first_thread
    have apart : t ∉ u :: us := (List.nodup_cons.mp reapable.threads.nodup).1
    have ⟨rounds, count⟩ : ∃ rounds, fuel = rounds + 1 := ⟨fuel - 1, by omega⟩
    have left : us.length + 2 ≤ rounds := by
      simp only [List.length_cons] at enough
      omega
    have ⟨later, s', loop, calls, frees, clean⟩ := ih rest (before.cons apart) left rest.threads.1
    rw [if_pos (List.cons_ne_nil u us), List.append_nil] at shape
    refine ⟨.touch (.pcb proc) :: (reapUsThreadAccesses s t ++ later), s', ?_, ?_, ?_, before.pcb proc, ?_⟩
    · simp only [count, Sched.reapAll, start, reaped, loop, bind, Outcome.bind, pure, List.cons_append, List.append_assoc]
    · simp only [shape, called, called_append, called_touches, calls, List.cons_append, List.nil_append]
    · simp only [shape, freed, freed_append, freed_touches, frees, same, List.map_cons, List.cons_append, List.nil_append]
    · rw [shape, cleanFrom_append, freed_first]
      exact ⟨before.first_thread within, clean⟩

theorem reapAll_forget {trace : List Access} {s' : Table} (done : Sched.reapAll s proc fuel = .ok (trace, s')) :
    reapUsProcThreads s proc fuel = .ok s' := by
  induction fuel generalizing s trace with
  | zero => cases done
  | succ fuel ih =>
    rw [Sched.reapAll] at done
    rw [reapUsProcThreads]
    cases start : s.threads.first proc with
    | none =>
      rw [start] at done
      cases done
      rfl
    | some thread =>
      rw [start] at done
      have ⟨s₁, reaped, done⟩ := Outcome.bind_eq_ok.mp done
      have ⟨⟨later, s₂⟩, loop, done⟩ := Outcome.bind_eq_ok.mp done
      cases done
      simp only [reaped, bind, Outcome.bind]
      exact ih loop

/-- Reaping a process with one or more zombie threads ends after one call for each thread and frees each thread, and a
zombie process, exactly once. No freed object is used exactly when the process was not freed: the loop condition reads
the list of its threads once more. -/
theorem reap_touches_live_iff (reapable : Reapable s proc ts) (staffed : ts ≠ [])
    (enough : ts.length < fuel) : ∃ trace s', Sched.reapAll s proc fuel = .ok (trace, s') ∧
      reapUsProcThreads s proc fuel = .ok s' ∧ called trace = ts ∧
      freed trace = ts.map .tcb ++ (if (s.pcb proc).zombie then [.pcb proc] else []) ∧
      (CleanFrom [] trace ↔ (s.pcb proc).zombie = false) := by
  have ⟨t, us, same⟩ := List.exists_cons_of_ne_nil staffed
  subst same
  have nothing : GoneBefore [] (t :: us) := ⟨fun _ => List.not_mem_nil, fun _ _ => List.not_mem_nil⟩
  have ⟨front, s', loop, calls, frees, clean⟩ := reapable.reapAll nothing enough
  refine ⟨front ++ [.touch (.pcb proc)], s', loop, reapAll_forget loop, ?_, ?_, ?_⟩
  · rw [called_append, calls]
    exact List.append_nil _
  · rw [freed_append, frees]
    exact List.append_nil _
  · rw [cleanFrom_append, frees, List.append_nil]
    cases (s.pcb proc).zombie with
    | false =>
      refine iff_of_true ⟨clean, ?_, trivial⟩ rfl
      simp
    | true =>
      apply iff_of_false _ (by decide)
      intro ⟨_, apart, _⟩
      apply apart
      simp

end Reaping

/-- A table with the orphan 2 and its thread 3, both zombies, beside the kernel's process 1. -/
def oneZombie : Table where
  pcb p := ⟨0, p = 2, 0, none⟩
  tcb t := ⟨t.toNat, .zombie, 0, 2⟩
  pcbUsed p := p = 1 ∨ p = 2
  tcbUsed t := t = 3
  processes := ⟨fun _ => some 2, fun _ => none, fun p => if p = 2 then some (.inl ()) else none⟩
  threads := ⟨fun p => if p = 2 then some 3 else none, fun _ => none, fun t => if t = 3 then some (.inl 2) else none⟩
  runQueue := ⟨fun _ => none, fun _ => none, fun _ => none⟩
  children := ⟨fun _ => none, fun _ => none, fun _ => none⟩
  processListDepth := 2
  idTable _ := 0
  tidBitmap := initialTidBitmap
  tid0Used := true
  kernelProc := 1
  bootThread := 4
  waiting _ := none

theorem oneZombie_reapable : Reapable oneZombie 2 [3] where
  user := by decide
  threads := ⟨rfl, rfl, rfl⟩
  zombies t member := by
    rw [List.mem_singleton.mp member]
    exact ⟨rfl, rfl⟩
  listed := ⟨[2], ⟨rfl, rfl, rfl⟩, List.mem_singleton.mpr rfl⟩
  child parent := absurd rfl parent

/-- The process is freed with its only thread, and then `proc->threads.first` is read. -/
theorem reaped_process_read : ∃ trace s', reapAll oneZombie 2 2 = .ok (trace, s') ∧ freed trace = [.tcb 3, .pcb 2] ∧
    ¬ CleanFrom [] trace := by
  have nothing : GoneBefore [] [3] := ⟨fun _ => List.not_mem_nil, fun _ _ => List.not_mem_nil⟩
  have ⟨front, s', loop, _, frees, _⟩ := oneZombie_reapable.reapAll nothing (Nat.le_refl 2)
  refine ⟨front ++ [.touch (.pcb 2)], s', loop, ?_, ?_⟩
  · rw [freed_append, frees]
    rfl
  · intro clean
    have ⟨_, apart, _⟩ := cleanFrom_append.mp clean
    rw [frees] at apart
    exact apart (by decide)

theorem reap_touches_live_iff_one : ∃ trace s', reapAll oneZombie 2 2 = .ok (trace, s') ∧
    reapUsProcThreads oneZombie 2 2 = .ok s' ∧ called trace = [3] ∧ freed trace = [.tcb 3, .pcb 2] ∧
    (CleanFrom [] trace ↔ true = false) :=
  reap_touches_live_iff oneZombie_reapable (List.cons_ne_nil 3 []) (Nat.lt_succ_self 1)

end CreeperKernel.Sched
