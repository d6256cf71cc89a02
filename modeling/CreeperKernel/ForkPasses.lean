import CreeperKernel.ForkPages

namespace CreeperKernel.Fork

open Vmm RadixTree FallibleLoops
open Transitions (Run)

variable {old m m' : Kernel} {root parent : Frame}

def Place (old : Kernel) (parent root : Frame) (m : Kernel) (s : Slot) (m' : Kernel) : Prop :=
  s.User ∧ ∃ e, leaf old.mem parent s = some e ∧ Placed old root m s e m'

theorem forkCopyPage_placed (building : Building old root m) (occupied : Occupied old parent)
    {s : Slot} {e : Entry} (user : s.User) (here : leaf old.mem parent s = some e)
    (done : forkCopyPage root s.va e m = .ok (true, m')) : Placed old root m s e m' := by
  have present := leaf_present here
  have foreign := occupied.pages s user e here
  unfold forkCopyPage at done
  dsimp only at done
  split at done
  · rename_i owned
    obtain ⟨⟨pa, middle⟩, allocated, done⟩ := Outcome.bind_eq_ok.mp done
    dsimp only at done
    split at done
    · cases done
    · obtain ⟨after, mapped, done⟩ := Outcome.bind_eq_ok.mp done
      cases done
      exact place_owned building user present foreign owned allocated mapped
  · rename_i borrowed
    obtain ⟨after, mapped, done⟩ := Outcome.bind_eq_ok.mp done
    cases done
    exact place_shared building user present foreign (by simpa using borrowed) mapped

/-- The pages a pass has to visit below the table at `path`. -/
def Due (old : Kernel) (parent : Frame) (lo hi : Nat) (path : List Index) : Set Slot :=
  {s | s.User ∧ path <+: s.path ∧ leaf old.mem parent s ≠ none ∧ ¬ (lo ≤ s.va ∧ s.va < hi)}

/-- What a part of a pass does, given the pages it has to visit. -/
def Covers (old : Kernel) (parent root : Frame) (m : Kernel) (due : Set Slot) (m' : Kernel) : Prop :=
  Building old root m' ∧ ∃ slots, Run (Place old parent root) m slots m' ∧ ∀ s ∈ due, s ∈ slots

theorem Covers.nothing (building : Building old root m) {due : Set Slot} (none : ∀ s, s ∉ due) :
    Covers old parent root m due m :=
  ⟨building, [], .nil m, fun s member => absurd member (none s)⟩

theorem descend (occupied : Occupied old parent) (lo hi : Nat) {path : List Index} {table : Frame}
    (inside : path ∈ lowerScope.paths) (here : tableAt old.mem parent path = some table)
    {indices : List Index} {inner : Index → Frame → Kernel → Outcome (Bool × Kernel)}
    (each : ∀ i ∈ indices, ∀ next, tableAt old.mem parent (path ++ [i]) = some next →
      ∀ m m', Building old root m → inner i next m = .ok (true, m') →
        Covers old parent root m (Due old parent lo hi (path ++ [i])) m')
    (every : ∀ s ∈ Due old parent lo hi path, ∃ i ∈ indices, path ++ [i] <+: s.path)
    (building : Building old root m) (done : forEachPresent table indices inner m = .ok (true, m')) :
    Covers old parent root m (Due old parent lo hi path) m' := by
  have step : ∀ i ∈ indices, ∀ m m', Building old root m →
      (if ¬ isPresent (m.mem table i) then pure (true, m) else inner i (frameOf (m.mem table i)) m) =
        .ok (true, m') → Covers old parent root m (Due old parent lo hi (path ++ [i])) m' := by
    intro i member m m' building round
    have same : m.mem table = old.mem table :=
      building.kept table (occupied.tables table ⟨path, inside, here⟩)
    have child : nodeAt entryChild old.mem parent (path ++ [i]) = entryChild (old.mem table i) :=
      nodeAt_concat_of here
    rw [same] at round
    split at round
    · rename_i absent
      cases round
      apply Covers.nothing building
      rintro s ⟨-, ⟨rest, front⟩, mapped, -⟩
      apply mapped
      rw [entryChild_of_absent (by simpa using absent)] at child
      have broken : tableAt old.mem parent s.path = none := by
        rw [← front, tableAt, nodeAt_append, child]
        rfl
      rw [leaf, leafAt, broken]
      rfl
    · rename_i present
      rw [entryChild_of_present (by simpa using present)] at child
      exact each i member _ child m m' building round
  obtain ⟨after, slots, run, covers⟩ :=
    forEach_run (fun i => Due old parent lo hi (path ++ [i])) step building done
  refine ⟨after, slots, run, fun s due => ?_⟩
  obtain ⟨i, member, front⟩ := every s due
  exact covers i member s ⟨due.1, front, due.2.2⟩

variable {i4 : Index} {hi lo : Nat}

theorem visit (occupied : Occupied old parent) {i3 i2 : Index} {pt : Frame} (low : i4.val < 256)
    (here : tableAt old.mem parent [i4, i3, i2] = some pt) (building : Building old root m)
    (done : forEach (List.finRange 512) (fun i1 m => if ¬ isPresent (m.mem pt i1) then pure (true, m) else if lo ≤ vaOf i4 i3 i2 i1 ∧ vaOf i4 i3 i2 i1 < hi then pure (true, m) else forkCopyPage root (vaOf i4 i3 i2 i1) (m.mem pt i1) m) m = .ok (true, m'))
    : Covers old parent root m (Due old parent lo hi [i4, i3, i2]) m' := by
  have user : ∀ i1, (Slot.mk i4 i3 i2 i1).User := fun _ => low
  have table : ∀ i1, leaf old.mem parent ⟨i4, i3, i2, i1⟩ =
      if isPresent (old.mem pt i1) then some (old.mem pt i1) else none := by
    intro i1
    show (tableAt old.mem parent [i4, i3, i2]).bind _ = _
    rw [here]
    rfl
  have step : ∀ i1 ∈ List.finRange 512, ∀ m m', Building old root m →
      (if ¬ isPresent (m.mem pt i1) then pure (true, m) else
        if lo ≤ vaOf i4 i3 i2 i1 ∧ vaOf i4 i3 i2 i1 < hi then pure (true, m) else
        forkCopyPage root (vaOf i4 i3 i2 i1) (m.mem pt i1) m) = .ok (true, m') →
      Covers old parent root m ({s | s = ⟨i4, i3, i2, i1⟩} ∩ Due old parent lo hi [i4, i3, i2]) m' := by
    intro i1 _ m m' building round
    have same : m.mem pt = old.mem pt :=
      building.kept pt (occupied.tables pt ⟨_, (user i1).path_mem, here⟩)
    rw [same] at round
    split at round
    · rename_i absent
      cases round
      apply Covers.nothing building
      rintro s ⟨rfl, -, -, mapped, -⟩
      rw [table, if_neg absent] at mapped
      exact mapped rfl
    · rename_i present
      split at round
      · rename_i skipped
        cases round
        apply Covers.nothing building
        rintro s ⟨rfl, -, -, -, wanted⟩
        exact wanted skipped
      · have entry : leaf old.mem parent ⟨i4, i3, i2, i1⟩ = some (old.mem pt i1) := by
          rw [table, if_pos (by simpa using present)]
        have placed := forkCopyPage_placed building occupied (user i1) entry round
        refine ⟨placed.building, _, .single ⟨user i1, _, entry, placed⟩, ?_⟩
        rintro s ⟨rfl, -⟩
        exact List.mem_singleton.mpr rfl
  obtain ⟨after, slots, run, covers⟩ := forEach_run
    (fun i1 => {s | s = ⟨i4, i3, i2, i1⟩} ∩ Due old parent lo hi [i4, i3, i2]) step building done
  refine ⟨after, slots, run, fun s due => covers s.i1 (List.mem_finRange _) s ⟨?_, due⟩⟩
  obtain ⟨-, front, -⟩ := due
  have whole : [i4, i3, i2] = s.path := front.eq_of_length rfl
  obtain ⟨j4, j3, j2, j1⟩ := s
  cases whole
  rfl

theorem prefix_scope (low : i4.val < 256) (i3 : Index) : [i4] ∈ lowerScope.paths ∧ [i4, i3] ∈ lowerScope.paths := by
  have user : (Slot.mk i4 i3 i3 i3).User := low
  have two : [i4] ++ [i3] ∈ lowerScope.paths := lowerScope.closed (i := i3) user.path_mem
  exact ⟨lowerScope.closed two, two⟩

theorem mem_lowerHalf (i : Index) : i ∈ lowerHalf ↔ i.val < 256 := by
  constructor
  · intro member
    obtain ⟨j, -, rfl⟩ := List.mem_map.mp member
    exact j.isLt
  · intro small
    exact List.mem_map.mpr ⟨⟨i, small⟩, List.mem_finRange _, rfl⟩

/-- A pass that succeeds visits every page of the parent outside the skipped range. -/
theorem forkCopyUserPages_covers (occupied : Occupied old parent) (building : Building old root m)
    (done : forkCopyUserPages parent root lo hi m = .ok (true, m')) :
    Covers old parent root m (Due old parent lo hi []) m' := by
  have top : [] ∈ lowerScope.paths := ⟨Nat.zero_le 3, fun i first => by cases first⟩
  refine descend occupied lo hi top rfl ?_ ?_ building done
  · intro i4 lower pdpt atPdpt m m' building round
    have low := (mem_lowerHalf i4).mp lower
    refine descend occupied lo hi (prefix_scope low 0).1 atPdpt ?_ ?_ building round
    · intro i3 _ pd atPd m m' building round
      refine descend occupied lo hi (prefix_scope low i3).2 atPd ?_ ?_ building round
      · intro i2 _ pt atPt m m' building round
        exact visit occupied low atPt building round
      · rintro s ⟨-, ⟨rest, front⟩, -⟩
        refine ⟨s.i2, List.mem_finRange _, [], ?_⟩
        cases front
        rfl
    · rintro s ⟨-, ⟨rest, front⟩, -⟩
      refine ⟨s.i3, List.mem_finRange _, [s.i2], ?_⟩
      cases front
      rfl
  · intro s due
    exact ⟨s.i4, (mem_lowerHalf s.i4).mpr due.1, [s.i3, s.i2], rfl⟩

end CreeperKernel.Fork
