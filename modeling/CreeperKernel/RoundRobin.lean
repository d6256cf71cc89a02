import CreeperKernel.CyclicOrder
import CreeperKernel.ExecCredentials

namespace CreeperKernel.Sched

open IntrusiveLists
open CyclicOrder (after after_of_not_mem after_append_cons after_perm after_step)

/-- `TCB_STATE_RUNNABLE` is set. -/
def runnable (s : Table) (t : Ptr) : Bool := (s.tcb t).state = .runnable

/-- The threads that `calls` calls of `sched_next_process_core` select one after the other,
each call made by the thread selected last. -/
def selections (fuel : Nat) (s : Table) : (calls : Nat) → (current : Ptr) → Outcome (List Ptr)
  | 0, _ => .ok []
  | calls + 1, current => do
    let next ← schedNextProcessCore fuel s current
    let later ← selections fuel s calls next
    return next :: later

variable {s : Table} {current t : Ptr} {ts front back : List Ptr} {slot : Unit ⊕ Ptr}

/-- `scheduler_threads` holds `ts`, and `current` is one of them or has been taken out by
`hlist_del`. -/
structure Scheduled (s : Table) (ts : List Ptr) (current : Ptr) : Prop where
  chain : Chain s.runQueue (.inl ()) ts
  place : current ∈ ts ∨ s.runQueue.next current = none

theorem chain_behind {l : Links Unit Ptr} (chain : Chain l slot (front ++ t :: back)) : Chain l (.inr t) back := by
  induction front generalizing slot with
  | nil => exact chain.2.2
  | cons n front ih => exact ih chain.2.2

/-- A search passes the nodes that are not runnable and stops at the first that is. -/
theorem schedNext_pass (chain : Chain s.runQueue slot (front ++ back)) (other : current ∉ front)
    (fuel : Nat) : schedNext s current (fuel + front.length) (s.runQueue.get slot) =
      match front.find? (runnable s) with
      | some t => .ok t
      | none => schedNext s current fuel back.head? := by
  induction front generalizing slot with
  | nil =>
    cases back with
    | nil => rw [show s.runQueue.get slot = none from chain]; rfl
    | cons b back => rw [show s.runQueue.get slot = some b from chain.1]; rfl
  | cons n front ih =>
    have ⟨here, _, rest⟩ := chain
    have ⟨notHere, later⟩ := not_or.mp (mt List.mem_cons.mpr other)
    rw [here, List.length_cons, ← Nat.add_assoc, schedNext, List.find?_cons]
    simp only [Option.some_or]
    by_cases ready : (s.tcb n).state = .runnable
    · rw [if_pos ready, show runnable s n = true from decide_eq_true ready]
    · rw [if_neg ready, if_neg (Ne.symm notHere), show runnable s n = false from decide_eq_false ready]
      exact ih rest later

theorem schedNext_none (s : Table) (current : Ptr) (fuel : Nat) :
    schedNext s current fuel none = schedNext s current fuel (s.runQueue.first ()) := by
  cases fuel with
  | zero => rfl
  | succ fuel =>
    rw [schedNext, schedNext, Option.none_or]
    cases s.runQueue.first () <;> rfl

/-- The search ends with the first runnable thread of the round behind `current`. -/
theorem schedNextProcessCore_eq (scheduled : Scheduled s ts current)
    (found : (after current ts).find? (runnable s) = some t) (fuel : Nat) :
    schedNextProcessCore (fuel + ts.length) s current = .ok t := by
  have once := scheduled.chain.nodup
  unfold schedNextProcessCore
  by_cases member : current ∈ ts
  · have ⟨front, back, cut⟩ := List.append_of_mem member
    subst cut
    have ⟨_, tail, apart⟩ := List.nodup_append.mp once
    have notBack : current ∉ back := (List.nodup_cons.mp tail).1
    have notFront : current ∉ front := fun again => apart current again current List.mem_cons_self rfl
    have behind : Chain s.runQueue (.inr current) (back ++ []) := by
      rw [List.append_nil]
      exact chain_behind scheduled.chain
    rw [after_append_cons once, List.find?_append, List.find?_append] at found
    have length : fuel + (front ++ current :: back).length = fuel + 1 + front.length + back.length := by
      rw [List.length_append, List.length_cons]
      omega
    have first := schedNext_pass behind notBack (fuel + 1 + front.length)
    have second := schedNext_pass scheduled.chain notFront (fuel + 1)
    rw [length, show s.runQueue.next current = s.runQueue.get (.inr current) from rfl, first]
    cases inBack : back.find? (runnable s) with
    | some t' =>
      rw [inBack] at found
      exact congrArg Outcome.ok (Option.some.inj found)
    | none =>
      rw [inBack, Option.none_or] at found
      show schedNext s current _ none = _
      rw [schedNext_none, show s.runQueue.first () = s.runQueue.get (.inl ()) from rfl, second]
      cases inFront : front.find? (runnable s) with
      | some t' =>
        rw [inFront] at found
        exact congrArg Outcome.ok (Option.some.inj found)
      | none =>
        -- only `current` itself is left
        rw [inFront, Option.none_or] at found
        have ready := List.find?_some found
        have same : current = t := (List.mem_singleton.mp (List.mem_of_find?_eq_some found)).symm
        subst same
        show schedNext s current (fuel + 1) (some current) = _
        rw [schedNext, Option.some_or]
        exact if_pos (of_decide_eq_true ready)
  · have out : s.runQueue.next current = none := scheduled.place.resolve_left member
    have whole : Chain s.runQueue (.inl ()) (ts ++ []) := by
      rw [List.append_nil]
      exact scheduled.chain
    rw [after_of_not_mem member] at found
    rw [out, schedNext_none, show s.runQueue.first () = s.runQueue.get (.inl ()) from rfl,
      schedNext_pass whole member fuel, found]

/-- The runnable threads in the order of the round behind `current`. -/
def order (s : Table) (ts : List Ptr) (current : Ptr) : List Ptr := (after current ts).filter (runnable s)

theorem order_step {later : List Ptr} (once : ts.Nodup) (shape : order s ts current = t :: later) :
    t ∈ ts ∧ (after current ts).find? (runnable s) = some t ∧ order s ts t = later ++ [t] := by
  have ⟨u, v, met, passed, ready, rest⟩ := List.filter_eq_cons_iff.mp shape
  have member : t ∈ ts := by
    apply (after_perm current once).mem_iff.mp
    rw [met]
    exact List.mem_append_right u List.mem_cons_self
  have skipped : u.filter (runnable s) = [] := List.filter_eq_nil_iff.mpr passed
  refine ⟨member, ?_, ?_⟩
  · rw [← List.head?_filter]
    exact congrArg List.head? shape
  · rw [order, after_step once met, List.filter_append, List.filter_append, skipped, rest, List.append_nil,
      List.filter_cons_of_pos ready, List.filter_nil]

/-- Up to one call for each runnable thread, the calls follow the round. -/
theorem selections_eq (scheduled : Scheduled s ts current) (fuel : Nat) {calls : Nat}
    (few : calls ≤ (order s ts current).length) :
    selections (fuel + ts.length) s calls current = .ok ((order s ts current).take calls) := by
  induction calls generalizing current with
  | zero => rfl
  | succ calls ih =>
    cases shape : order s ts current with
    | nil =>
      rw [shape] at few
      exact absurd few (Nat.not_succ_le_zero calls)
    | cons t later =>
      have ⟨member, found, turned⟩ := order_step scheduled.chain.nodup shape
      rw [shape, List.length_cons] at few
      have enough : calls ≤ later.length := Nat.le_of_succ_le_succ few
      have rest : selections (fuel + ts.length) s calls t = .ok (later.take calls) := by
        rw [ih ⟨scheduled.chain, .inl member⟩, turned, List.take_append_of_le_length enough]
        rw [turned, List.length_append]
        omega
      rw [selections, schedNextProcessCore_eq scheduled found fuel, Outcome.ok_bind, rest]
      rfl

/-- With a runnable thread on the list, the search ends, after at most one look at each thread,
with the first runnable thread of the round behind `current`. As many calls as there are
runnable threads select each of them once. -/
theorem round_robin_selection {s : Table} {ts : List Ptr} {current : Ptr} (scheduled : Scheduled s ts current)
    (some_ : ∃ t ∈ ts, runnable s t = true) :
    (∃ t, (after current ts).find? (runnable s) = some t ∧
      ∀ fuel, ts.length ≤ fuel → schedNextProcessCore fuel s current = .ok t) ∧
    ∃ selected, selected.Nodup ∧ (∀ t, t ∈ selected ↔ t ∈ ts ∧ runnable s t = true) ∧
      ∀ fuel, ts.length ≤ fuel → selections fuel s (ts.filter (runnable s)).length current = .ok selected := by
  have once := scheduled.chain.nodup
  have turned := after_perm current once
  have same : (order s ts current).Perm (ts.filter (runnable s)) := turned.filter _
  constructor
  · have ⟨t, member, ready⟩ := some_
    have ⟨first, found⟩ := Option.isSome_iff_exists.mp
      (List.find?_isSome.mpr ⟨t, turned.mem_iff.mpr member, ready⟩)
    refine ⟨first, found, fun fuel enough => ?_⟩
    rw [← Nat.sub_add_cancel enough]
    exact schedNextProcessCore_eq scheduled found _
  · refine ⟨order s ts current, same.nodup_iff.mpr (once.filter _), fun t => ?_, fun fuel enough => ?_⟩
    · rw [same.mem_iff, List.mem_filter]
    · rw [← Nat.sub_add_cancel enough, selections_eq scheduled _ (Nat.le_of_eq same.length_eq.symm), ← same.length_eq,
        List.take_length]

/-- Two threads have come before the boot thread; the first is not runnable yet. -/
def threeThreads : Table :=
  let s := schedulerInit (kernelObject 0) (kernelObject 1)
  let s := s.setTcb (kernelObject 2) { s.tcb (kernelObject 1) with tid := 1 }
  { s with runQueue := addHead (addHead s.runQueue (kernelObject 2) ()) (kernelObject 3) () }

def readyThreads : List Ptr := [(kernelObject 2).val, (kernelObject 1).val]

theorem round_robin_selection_three : ∃ selected, selections 3 threeThreads 2 (kernelObject 1) = .ok selected ∧
    selected.Nodup ∧ ∀ t ∈ readyThreads, t ∈ selected := by
  have scheduled : Scheduled threeThreads ((kernelObject 3).val :: readyThreads) (kernelObject 1).val :=
    ⟨by simp only [readyThreads, Chain]; decide +kernel, .inl (by decide)⟩
  have ready : ((kernelObject 3).val :: readyThreads).filter (runnable threeThreads) = readyThreads := by decide +kernel
  have member : ∀ t ∈ readyThreads, t ∈ (kernelObject 3).val :: readyThreads ∧ runnable threeThreads t = true :=
    fun t here => List.mem_filter.mp (ready ▸ here)
  obtain ⟨-, selected, once, members, selects⟩ := round_robin_selection scheduled ⟨_, member _ List.mem_cons_self⟩
  rw [ready] at selects
  exact ⟨selected, selects 3 (Nat.le_refl 3), once, fun t here => (members t).mpr (member t here)⟩

end CreeperKernel.Sched
