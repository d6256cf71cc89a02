import CreeperKernel.ForkInvariant
import CreeperKernel.PageRightsRuns
import CreeperKernel.UserMemory

namespace CreeperKernel.UserMemory

open Vmm RadixTree
open Fork (Kernel)
open Pmm (pageSize)
open Rights (walkEntries indices tableChild tablesAt isUser)

/-- The words that the CPU reads on its walk along these indices. -/
def reads (mem : Memory) : Frame → List Index → List Word
  | _, [] => []
  | n, i :: path =>
    (n, i) :: if ¬ isPresent (mem n i) then []
      else if isHuge (mem n i) ∧ (path.length = 1 ∨ path.length = 2) then []
      else reads mem (frameOf (mem n i)) path

variable {n : Frame} {path : List Index} {mem : Memory}

theorem walkWords_of_reads {after : Memory} (same : ∀ w ∈ reads mem n path, after w.1 w.2 = mem w.1 w.2) :
    walkWords after n path = walkWords mem n path := by
  induction path generalizing n with
  | nil => rfl
  | cons i path ih =>
    have here : after n i = mem n i := same (n, i) List.mem_cons_self
    simp only [walkWords, here]
    split
    · rfl
    · rename_i present
      split
      · rfl
      · rename_i table
        congr 1
        apply ih
        intro w member
        apply same w
        rw [reads, if_neg present, if_neg table]
        exact List.mem_cons_of_mem _ member

theorem subset_reads {words : List Word} (found : walkWords mem n path = some words) : words ⊆ reads mem n path := by
  induction path generalizing n words with
  | nil =>
    cases found
    exact List.nil_subset _
  | cons i path ih =>
    simp only [walkWords] at found
    rw [reads]
    split at found
    · cases found
    · rename_i present
      rw [if_neg present]
      split at found
      · rename_i huge
        rw [if_pos huge]
        cases found
        exact List.Subset.refl _
      · rename_i table
        rw [if_neg table]
        obtain ⟨rest, below, rfl⟩ := Option.map_eq_some_iff.mp found
        exact List.cons_subset_cons _ (ih below)

section Mapping

variable {scope : TableScope} {root : Frame} {m m' : Kernel}

variable {flags : Entry} {j : Index}

theorem tableGetOrCreate_elsewhere {table next : Frame} {i : Index} {f : Frame} (reserve : Reserve m.frames)
    (inUse : ¬ Free m.frames f) (done : tableGetOrCreate m table i flags = .ok (next, m'))
    (other : (f, j) ≠ (table, i)) : m'.mem f j = m.mem f j := by
  have apart : ¬ (f = table ∧ j = i) := fun same => other (Prod.ext same.1 same.2)
  rcases tableGetOrCreate_cases done with
    ⟨-, phys, frames, allocated, -, rfl⟩ | ⟨-, -, e, -, -, -, rfl⟩
  · have free := (alloc_handed reserve allocated).free phys (List.mem_singleton.mpr rfl)
    have new : f ≠ phys := fun same => inUse (same ▸ free)
    dsimp only
    rw [write_apply, if_neg apart, if_neg (free.ne_zero reserve), zeroPage, Function.update_of_ne new]
  · dsimp only
    rw [write_apply, if_neg apart]

variable {pa : Frame}

theorem map4k_row {va : Nat} (ready : Ready scope root m) (paging : Paging scope m.mem root)
    (covered : pathOf va ∈ scope.paths) (done : map4k m root va pa flags = .ok m') (other : j ≠ pml4Index va) :
    m'.mem root j = m.mem root j := by
  have ⟨one, two, three⟩ := scope_above covered
  have empty : [] ∈ scope.paths := scope.closed one
  have supply := ready_supply scope root
  have below : ∀ (mem : Memory) (p : List Index) (f : Frame), Paging scope mem root → p ∈ scope.paths → p ≠ [] →
      tableAt mem root p = some f → root ≠ f := by
    intro mem p f paging inside deep reached same
    subst same
    exact deep (paging.distinct p inside [] empty root reached rfl)
  have rootUsed : ∀ k : Kernel, Ready scope root k → ¬ Free k.frames root :=
    fun k ready => ready.tables root ⟨[], empty, rfl⟩
  have ⟨pdpt, m₁, pd, m₂, pt, m₃, first, second, third, after, ⟨_, grown₁, ready₁, at₁⟩, ⟨_, grown₂, ready₂, at₂⟩,
    _, grown₃, _, at₃⟩ := map4k_stages supply ready paging covered done
  subst after
  have last : root ≠ pt := below _ _ _ grown₃.paging covered (by simp [pathOf]) at₃
  have pdOther : root ≠ pd := below _ _ _ grown₂.paging two (by simp) at₂
  have pdptOther : root ≠ pdpt := below _ _ _ grown₁.paging one (by simp) at₁
  calc (m₃.store pt (ptIndex va) (leafEntry pa flags)).mem root j = m₃.mem root j :=
        congrFun (write_of_ne_node m₃.mem (ptIndex va) _ last) j
    _ = m₂.mem root j :=
        tableGetOrCreate_elsewhere ready₂.reserve (rootUsed _ ready₂) third
          fun same => pdOther (congrArg Prod.fst same)
    _ = m₁.mem root j :=
        tableGetOrCreate_elsewhere ready₁.reserve (rootUsed _ ready₁) second
          fun same => pdptOther (congrArg Prod.fst same)
    _ = m.mem root j :=
        tableGetOrCreate_elsewhere ready.reserve (rootUsed _ ready) first
          fun same => other (congrArg Prod.snd same)

/-- The effect of `map_4k_pages` on the tables of a scope. -/
structure PagesMapped (scope : TableScope) (root : Frame) (m : Kernel) (va : BitVec 64) (count : Nat)
    (m' : Kernel) : Prop where
  paging : Paging scope m'.mem root
  ready : Ready scope root m'
  mapped : ∀ i < count, lookup m'.mem root (pageOf va i) ≠ none
  used : ∀ f, Free m'.frames f → Free m.frames f
  tables : ∀ f, IsTable scope m'.mem root f → IsTable scope m.mem root f ∨ Free m.frames f
  kept : ∀ f, ¬ IsTable scope m.mem root f → ¬ Free m.frames f → m'.mem f = m.mem f
  row : ∀ j, [j] ∉ scope.paths → m'.mem root j = m.mem root j

theorem map4kPages_spec {va : BitVec 64} {count : Nat} (ready : Ready scope root m) (paging : Paging scope m.mem root)
    (covered : ∀ i < count, pathOf (pageOf va i) ∈ scope.paths)
    (done : Rights.map4kPages m root va.toNat pa count flags = .ok m') : PagesMapped scope root m va count m' := by
  induction count generalizing m' with
  | zero =>
    cases done
    exact ⟨paging, ready, fun i below => absurd below (Nat.not_lt_zero i), fun _ free => free,
      fun _ table => .inl table, fun _ _ _ => rfl, fun _ _ => rfl⟩
  | succ count ih =>
    rw [Rights.map4kPages, List.range_succ] at done
    obtain ⟨middle, front, last⟩ := FallibleLoops.foldlM_concat done
    have before := ih (fun i below => covered i (Nat.lt_succ_of_lt below)) front
    have here := covered count (Nat.lt_succ_self count)
    have fixed : ∀ j, [j] ∉ scope.paths → m'.mem root j = middle.mem root j := by
      intro j outside
      apply map4k_row before.ready before.paging here last
      intro same
      have two : [pml4Index (pageOf va count), pdptIndex (pageOf va count)] ∈ scope.paths := scope.closed here
      exact outside (same ▸ scope.closed two)
    obtain ⟨taken, step⟩ := map4k_spec (ready_supply scope root) before.ready before.paging here last
    have handed := step.allocs.handed before.ready.reserve
    have used : ∀ f, Free m'.frames f → Free middle.frames f := fun f free => ((handed.rest f).mp free).1
    have tables : ∀ f, IsTable scope m'.mem root f → IsTable scope m.mem root f ∨ Free m.frames f := by
      intro f table
      rcases (step.nodes f).mp table with old | new
      · exact before.tables f old
      · exact .inr (before.used f (handed.free f new))
    refine ⟨step.paging, ⟨handed.reserve, ?_⟩, ?_, fun f free => before.used f (used f free), tables, ?_,
      fun j outside => (fixed j outside).trans (before.row j outside)⟩
    · intro f table free
      rcases (step.nodes f).mp table with old | new
      · exact before.ready.tables f old (used f free)
      · exact ((handed.rest f).mp free).2 new
    · intro i below
      rw [lookup, step.leaves _ (covered i below) rfl]
      split
      · exact Option.some_ne_none _
      · rename_i other
        rcases Nat.lt_succ_iff_lt_or_eq.mp below with earlier | rfl
        · exact before.mapped i earlier
        · exact absurd ⟨rfl, rfl⟩ other
    · intro f outside inUse
      have stays : ¬ IsTable scope m'.mem root f := by
        intro table
        rcases tables f table with old | free
        · exact outside old
        · exact inUse free
      exact (step.kept f stays).trans (before.kept f outside inUse)

end Mapping

theorem walkEntries_of_reads {mem after : Memory} {space : Frame} {va : Nat}
    (same : ∀ w ∈ reads mem space (indices va), after w.1 w.2 = mem w.1 w.2) :
    walkEntries after space va = walkEntries mem space va := by
  rw [walkEntries_eq, walkEntries_eq, walkWords_of_reads same]
  cases found : walkWords mem space (indices va) with
  | none => rfl
  | some words =>
    rw [Option.map_some, Option.map_some]
    congr 1
    exact List.map_congr_left fun w member => same w (subset_reads found member)

end CreeperKernel.UserMemory
