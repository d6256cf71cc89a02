import CreeperKernel.ThreadLists

namespace CreeperKernel.Sched

open IntrusiveLists
open Transitions (Run)

variable {s s' : Table} {proc thread : Ptr}

/-- The two records of descent agree: the child lists and the parent pointers. -/
structure Linked (s : Table) : Prop where
  kin : ∀ p, s.pcbUsed p = true → ∃ cs, Chain s.children (.inl p) cs ∧
    ∀ c, c ∈ cs ↔ s.pcbUsed c = true ∧ (s.pcb c).parent = some p
  parent : ∀ c p, s.pcbUsed c = true → (s.pcb c).parent = some p → s.pcbUsed p = true

variable {p : Ptr}

theorem Linked.once (linked : Linked s) {q : Ptr} {ps qs : List Ptr} (left : s.pcbUsed p = true)
    (right : s.pcbUsed q = true) (first : Chain s.children (.inl p) ps) (second : Chain s.children (.inl q) qs)
    {c : Ptr} (here : c ∈ ps) (there : c ∈ qs) : p = q := by
  obtain ⟨cs, chain, members⟩ := linked.kin p left
  obtain ⟨ds, other, mates⟩ := linked.kin q right
  rw [first.unique chain, members] at here
  rw [second.unique other, mates] at there
  exact Option.some.inj (here.2.symm.trans there.2)

theorem Linked.congr (linked : Linked s) (children : s'.children = s.children)
    (pcbUsed : s'.pcbUsed = s.pcbUsed) (parent : ∀ p, (s'.pcb p).parent = (s.pcb p).parent) : Linked s' := by
  constructor
  · intro p used
    rw [pcbUsed] at used
    obtain ⟨cs, chain, members⟩ := linked.kin p used
    refine ⟨cs, by rw [children]; exact chain, fun c => ?_⟩
    rw [members c, pcbUsed, parent]
  · intro c p used mine
    rw [pcbUsed] at used ⊢
    rw [parent] at mine
    exact linked.parent c p used mine

theorem Linked.aborted (linked : Linked s) (aborted : Aborted s s') : Linked s' := by
  constructor
  · intro p used
    rw [aborted.pcbUsed] at used
    obtain ⟨cs, chain, members⟩ := linked.kin p used
    refine ⟨cs, aborted.children p cs used chain fun c member => ((members c).mp member).1, fun c => ?_⟩
    rw [members c, aborted.pcbUsed]
    apply and_congr_right
    intro here
    rw [aborted.pcb c here]
  · intro c p used mine
    rw [aborted.pcbUsed] at used ⊢
    rw [aborted.pcb c used] at mine
    exact linked.parent c p used mine

variable {tid pid : Nat} {parent : Option Ptr} {state : ThreadState}

theorem Linked.born_chain (linked : Linked s) {proc thread : KernelPtr}
    (born : Born s parent state proc thread pid tid s') (known : ∀ p, parent = some p → s.pcbUsed p = true)
    (used : s.pcbUsed p = true) {cs : List Ptr} (chain : Chain s.children (.inl p) cs) (outside : proc.val ∉ cs) :
    Chain s'.children (.inl p) (if parent = some p then proc.val :: cs else cs) := by
  have cleared : Chain (clearHead (clearNode s.children proc) proc) (.inl p) cs :=
    (chain.clearNode outside).clearHead (born.old_process used).1
  rw [born.children]
  cases parent with
  | none => exact cleared
  | some q =>
    by_cases mine : q = p
    · subst mine
      rw [if_pos rfl]
      exact cleared.addHead outside
    · rw [if_neg fun same => mine (Option.some.inj same)]
      obtain ⟨others, list, mates⟩ := linked.kin q (known q rfl)
      have apart : proc.val ∉ others := fun member => (born.old_process ((mates _).mp member).1).1 rfl
      have list' : Chain (clearHead (clearNode s.children proc) proc) (.inl q) others :=
        (list.clearNode apart).clearHead (born.old_process (known q rfl)).1
      exact cleared.addHead_other (Ne.symm mine) outside (cleared.first_apart list' (Ne.symm mine))

theorem Linked.born (linked : Linked s) {proc thread : KernelPtr} (born : Born s parent state proc thread pid tid s')
    (known : ∀ p, parent = some p → s.pcbUsed p = true) : Linked s' := by
  have used : ∀ p, s'.pcbUsed p = true ↔ p = proc.val ∨ s.pcbUsed p = true := by
    intro p
    rw [born.pcbUsed, Function.update_apply]
    split
    · rename_i same
      simp [same]
    · rename_i other
      simp [other]
  have newPcb : (s'.pcb proc).parent = parent := by rw [born.pcb, Function.update_self]
  -- the parent of a process is never the new process: parents were there before
  have elder : ∀ c p, s'.pcbUsed c = true → (s'.pcb c).parent = some p → s.pcbUsed p = true := by
    intro c p here mine
    rcases (used c).mp here with rfl | old
    · rw [newPcb] at mine
      exact known p mine
    · rw [(born.old_process old).2.2] at mine
      exact linked.parent c p old mine
  constructor
  · intro p here
    rcases (used p).mp here with rfl | old
    · refine ⟨[], ?_, fun c => ?_⟩
      · rw [born.children]
        cases parent with
        | none => exact chain_clearHead _ _
        | some q =>
          apply (chain_clearHead _ _).addHead_other (born.old_process (known q rfl)).1.symm List.not_mem_nil
          exact fun x member => absurd member List.not_mem_nil
      · constructor
        · exact fun member => absurd member List.not_mem_nil
        · rintro ⟨there, mine⟩
          exact absurd rfl (born.old_process (elder c _ there mine)).1
    · obtain ⟨cs, chain, members⟩ := linked.kin p old
      have outside : proc.val ∉ cs := fun member => (born.old_process ((members _).mp member).1).1 rfl
      refine ⟨_, linked.born_chain born known old chain outside, fun c => ?_⟩
      rw [used c]
      by_cases new : c = proc.val
      · subst new
        rw [newPcb]
        split
        · rename_i mine
          simp [mine]
        · rename_i notMine
          simp [notMine, outside]
      · have before : s.pcbUsed c = true ∧ (s'.pcb c).parent = some p ↔ c ∈ cs := by
          rw [members c]
          apply and_congr_right
          intro there
          rw [(born.old_process there).2.2]
        split <;> simp [new, before]
  · intro c p here mine
    exact (born.old_process (elder c p here mine)).2.1

theorem Linked.procReaped (linked : Linked s) (used : s.pcbUsed proc = true)
    (childless : s.children.first proc = none) (reaped : ProcReaped s proc s') : Linked s' := by
  have ⟨_, pcb, _⟩ := reaped.kept
  have still := reaped.still
  have noChild : ∀ c, s.pcbUsed c = true → (s.pcb c).parent ≠ some proc := by
    intro c here mine
    obtain ⟨cs, chain, members⟩ := linked.kin proc used
    have empty : cs = [] := chain.unique (childless : Chain s.children (.inl proc) [])
    have member := (members c).mpr ⟨here, mine⟩
    rw [empty] at member
    exact absurd member List.not_mem_nil
  constructor
  · intro p here
    obtain ⟨other, before⟩ := (still p).mp here
    obtain ⟨cs, chain, members⟩ := linked.kin p before
    cases above : (s.pcb proc).parent with
    | none =>
      refine ⟨cs, by rw [reaped.orphan above]; exact chain, fun c => ?_⟩
      rw [members c, still, pcb]
      constructor
      · rintro ⟨there, mine⟩
        refine ⟨⟨?_, there⟩, mine⟩
        rintro rfl
        rw [above] at mine
        cases mine
      · rintro ⟨⟨-, there⟩, mine⟩
        exact ⟨there, mine⟩
    | some q =>
      have removed := reaped.child (by rw [above]; simp)
      by_cases mine : p = q
      · subst mine
        obtain ⟨l, gone, after⟩ := chain.del_mem ((members proc).mpr ⟨used, above⟩)
        cases gone.symm.trans removed
        refine ⟨cs.erase proc, after, fun c => ?_⟩
        rw [chain.nodup.mem_erase_iff, members c, still, pcb, and_assoc]
      · obtain ⟨others, list, mates⟩ := linked.kin q (linked.parent proc q used above)
        refine ⟨cs, chain.del_other list mine ((mates proc).mpr ⟨used, above⟩) removed, fun c => ?_⟩
        rw [members c, still, pcb]
        constructor
        · rintro ⟨there, his⟩
          refine ⟨⟨?_, there⟩, his⟩
          rintro rfl
          rw [above] at his
          exact mine (Option.some.inj his).symm
        · rintro ⟨⟨-, there⟩, his⟩
          exact ⟨there, his⟩
  · intro c p here mine
    obtain ⟨-, before⟩ := (still c).mp here
    rw [pcb] at mine
    refine (still p).mpr ⟨?_, linked.parent c p before mine⟩
    rintro rfl
    exact noChild c before mine

theorem Linked.effect (linked : Linked s) {alive childless : Prop} (alone : childless)
    (effect : Effect alive childless s s') : Linked s' := by
  cases effect with
  | aborted aborted => exact linked.aborted aborted
  | born known running born => exact linked.born born known
  | recruited known running recruited =>
    have rest := recruited.rest
    apply linked.congr _ _ (fun _ => by rw [rest]) <;> rw [rest]
  | threadExited used user exited =>
    have rest := exited.rest
    apply linked.congr _ _ (fun _ => by rw [rest]) <;> rw [rest]
  | procExited proc exitCode =>
    refine linked.congr rfl rfl fun p => ?_
    show (Function.update s.pcb proc _ p).parent = _
    rw [Function.update_apply]
    split
    · rename_i same
      rw [same]
    · rfl
  | threadReaped used reaped =>
    have rest := reaped.rest
    apply linked.congr _ _ (fun _ => by rw [rest]) <;> rw [rest]
  | procReaped used noChildren reaped => exact linked.procReaped used (noChildren alone) reaped
  | killed used killed =>
    have rest := killed.rest
    apply linked.congr _ _ (fun _ => by rw [rest]) <;> rw [rest]

theorem linked_schedulerInit (kernelProc bootThread : Ptr) : Linked (schedulerInit kernelProc bootThread) := by
  have orphan : ∀ p, ((schedulerInit kernelProc bootThread).pcb p).parent = none := by
    intro p
    simp [schedulerInit, Table.allocTcb, Table.allocPcb, Table.setTcb, idTableSetProc, emptyTable]
  constructor
  · intro p _
    refine ⟨[], ?_, fun c => ?_⟩
    · show Chain (clearHead (clearNode _ _) _) _ _
      by_cases same : p = kernelProc
      · subst same
        exact chain_clearHead _ _
      · exact Chain.clearHead (Chain.clearNode rfl List.not_mem_nil) same
    · rw [orphan]
      simp
  · intro c p _ mine
    rw [orphan] at mine
    cases mine

/-- As long as no process is taken away that still has children, a process is on the
child list of its parent and on no other, and every parent is still there. -/
theorem childless_reaping_keeps_links (kernelProc bootThread : KernelPtr) (calls : List LifeCall) (s : Table)
    (run : Run (fun s call s' => LifeStep s call s' ∧ Childless s call)
      (schedulerInit kernelProc bootThread) calls s) :
    Linked s ∧ ∀ p q ps qs c, s.pcbUsed p = true → s.pcbUsed q = true → Chain s.children (.inl p) ps →
      Chain s.children (.inl q) qs → c ∈ ps → c ∈ qs → p = q := by
  have both : Enlisted s ∧ Linked s := by
    apply run.invariant (fun s => Enlisted s ∧ Linked s)
    · intro s call s' inv taken
      apply taken.1.keeps (fun s => Enlisted s ∧ Linked s) inv.1 _ inv
      intro before after held effect
      exact ⟨held.1.effect effect, held.2.effect taken.2 effect⟩
    · exact ⟨(listed_schedulerInit kernelProc bootThread).enlisted, linked_schedulerInit kernelProc bootThread⟩
  exact ⟨both.2, fun p q ps qs c left right first second => both.2.once left right first second⟩

instance (s : Table) (call : LifeCall) : Decidable (Childless s call) :=
  decidable_of_iff ((call.reaped s).all fun p => (s.children.first p).isNone) <| by
    simp only [Option.all_eq_true, Option.isNone_iff_eq_none]
    rfl

/-- The first program forks a child, which ends and is reaped. -/
def forkAndReap : List LifeCall :=
  [.newUsproc (some (kernelObject 0)) (plentiful 2 3), .forkProcess (kernelObject 2) (plentiful 4 5),
    .usprocExit (kernelObject 5) (kernelObject 4) 0, .reapUsThread (kernelObject 5)]

theorem childless_reaping_keeps_links_fork : ∃ s,
    Run (fun s call s' => LifeStep s call s' ∧ Childless s call)
      (schedulerInit (kernelObject 0) (kernelObject 1)) forkAndReap s ∧
    s.pcbUsed (kernelObject 4) = false ∧ Linked s := by
  have seen : (performLife (fun s call => decide (Childless s call)) 8
      (schedulerInit (kernelObject 0) (kernelObject 1)) forkAndReap).map
      (fun s => s.pcbUsed (kernelObject 4)) = some false := by decide +kernel
  obtain ⟨s, done, gone⟩ := Option.map_eq_some_iff.mp seen
  have run : Run (fun s call s' => LifeStep s call s' ∧ Childless s call)
      (schedulerInit (kernelObject 0) (kernelObject 1)) forkAndReap s :=
    (run_of_performLife done).mono fun _ _ _ taken => ⟨taken.1, of_decide_eq_true taken.2⟩
  exact ⟨s, run, gone, (childless_reaping_keeps_links (kernelObject 0) (kernelObject 1) forkAndReap s run).1⟩

/-- The first program forks a child, which forks a child of its own and ends; the first
program reaps it. -/
def grandchild : List LifeCall :=
  [.newUsproc (some (kernelObject 0)) (plentiful 2 3), .forkProcess (kernelObject 2) (plentiful 4 5),
    .forkProcess (kernelObject 4) (plentiful 6 7), .usprocExit (kernelObject 5) (kernelObject 4) 0,
    .reapUsThread (kernelObject 5)]

/-- The grandchild keeps a pointer to the process that was reaped. -/
theorem reaped_parent_dangles : ∃ s, Run LifeStep (schedulerInit (kernelObject 0) (kernelObject 1)) grandchild s ∧
    s.pcbUsed (kernelObject 6) = true ∧ (s.pcb (kernelObject 6)).parent = some (kernelObject 4).val ∧
    s.pcbUsed (kernelObject 4) = false ∧ ¬ Linked s := by
  have seen : (performLife (fun _ _ => true) 8 (schedulerInit (kernelObject 0) (kernelObject 1)) grandchild).map
      (fun s => (s.pcbUsed (kernelObject 6), (s.pcb (kernelObject 6)).parent, s.pcbUsed (kernelObject 4))) =
      some (true, some (kernelObject 4).val, false) := by decide +kernel
  obtain ⟨s, done, same⟩ := Option.map_eq_some_iff.mp seen
  simp only [Prod.mk.injEq] at same
  obtain ⟨used, parent, gone⟩ := same
  refine ⟨s, (run_of_performLife done).mono fun _ _ _ taken => taken.1, used, parent, gone, fun linked => ?_⟩
  have there := linked.parent _ _ used parent
  rw [gone] at there
  cases there

end CreeperKernel.Sched
