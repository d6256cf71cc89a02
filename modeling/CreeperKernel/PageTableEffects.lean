import CreeperKernel.PageTableTree

namespace CreeperKernel.Vmm

open RadixTree

def pathOf (va : Nat) : List Index := [pml4Index va, pdptIndex va, pdIndex va]

/-- The present leaf entry that translates `va`. -/
def lookup (mem : Memory) (root : Frame) (va : Nat) : Option Entry :=
  leafAt mem root (pathOf va) (ptIndex va)

variable {σ : Type} [FrameAllocator σ]
variable {scope : TableScope} {root pt : Frame} {mem : Memory} {path : List Index} {i : Index}
  {e : Entry}

/-- Writing entry `i` of the leaf table at `path`. -/
structure LeafWritten (scope : TableScope) (root : Frame) (mem : Memory) (path : List Index)
    (i : Index) (e : Entry) (after : Memory) : Prop where
  paging : Paging scope after root
  tables : ∀ p ∈ scope.paths, tableAt after root p = tableAt mem root p
  leaves : ∀ p ∈ scope.paths, p.length = 3 → ∀ j, leafAt after root p j =
    if p = path ∧ j = i then (if isPresent e then some e else none) else leafAt mem root p j
  kept : ∀ f, ¬ IsTable scope mem root f → after f = mem f

theorem not_extended (leaf : path.length = 3) : path ++ [i] ∉ scope.paths := by
  intro inside
  have bound := scope.depth _ inside
  simp [leaf] at bound

theorem leafWritten (paging : Paging scope mem root) (inside : path ∈ scope.paths)
    (leaf : path.length = 3) (here : tableAt mem root path = some pt) :
    LeafWritten scope root mem path i e (write mem pt i e) := by
  have same : ∀ p ∈ scope.paths, tableAt (write mem pt i e) root p = tableAt mem root p :=
    nodeAt_write_same paging.distinct inside here
      fun extended => absurd extended (not_extended leaf)
  refine ⟨⟨paging.distinct.congr same, ?_⟩, same, ?_, ?_⟩
  · intro p j f extended reached present
    rw [same p (scope.closed extended)] at reached
    have other : f ≠ pt := by
      rintro rfl
      exact paging.inner extended reached inside leaf here
    rw [write_of_ne_node mem i e other] at present ⊢
    exact paging.small p j f extended reached present
  · intro p member _ j
    by_cases on : p = path ∧ j = i
    · obtain ⟨rfl, rfl⟩ := on
      have after : tableAt (write mem pt j e) root p = some pt := (same p member).trans here
      simp [leafAt, after]
    · rw [if_neg on]
      apply leafAt_eq (same p member)
      intro f reached
      rw [write_apply, if_neg]
      rintro ⟨rfl, rfl⟩
      exact on ⟨paging.distinct p member path inside f reached here, rfl⟩
  · intro f outside
    apply write_of_ne_node
    rintro rfl
    exact outside ⟨path, inside, here⟩

/-- The effect of `map_4k` on the tables under `root`. -/
structure Mapped (scope : TableScope) (root : Frame) (m : Machine σ) (va : Nat) (e : Entry)
    (taken : List Frame) (m' : Machine σ) : Prop where
  paging : Paging scope m'.mem root
  allocs : Allocs m.frames taken m'.frames
  nodes : ∀ f, IsTable scope m'.mem root f ↔ IsTable scope m.mem root f ∨ f ∈ taken
  leaves : ∀ p ∈ scope.paths, p.length = 3 → ∀ j, leafAt m'.mem root p j =
    if p = pathOf va ∧ j = ptIndex va then some e else leafAt m.mem root p j
  kept : ∀ f, ¬ IsTable scope m'.mem root f → m'.mem f = m.mem f

variable {after : Memory}

theorem IsTable.congr (tables : ∀ p ∈ scope.paths, tableAt after root p = tableAt mem root p) (f : Frame) :
    IsTable scope after root f ↔ IsTable scope mem root f := by
  constructor
  · rintro ⟨p, member, reached⟩
    exact ⟨p, member, (tables p member).symm.trans reached⟩
  · rintro ⟨p, member, reached⟩
    exact ⟨p, member, (tables p member).trans reached⟩

variable {m : Machine σ} {va : Nat}

theorem scope_above (covered : pathOf va ∈ scope.paths) :
    [] ++ [pml4Index va] ∈ scope.paths ∧ [pml4Index va] ++ [pdptIndex va] ∈ scope.paths ∧
      [pml4Index va, pdptIndex va] ++ [pdIndex va] ∈ scope.paths := by
  have three : [pml4Index va, pdptIndex va] ++ [pdIndex va] ∈ scope.paths := covered
  have two : [pml4Index va] ++ [pdptIndex va] ∈ scope.paths := scope.closed three
  exact ⟨scope.closed two, two, three⟩

section Stages

variable {m' : Machine σ} {pa : Frame} {flags : Entry} {ready : Machine σ → Prop} (supply : Supply scope root ready)
  (start : ready m) (paging : Paging scope m.mem root) (covered : pathOf va ∈ scope.paths)
  (done : map4k m root va pa flags = .ok m')

include supply start paging covered done

/-- The three tables that `map_4k` finds or makes, and its last store. -/
theorem map4k_stages : ∃ pdpt m₁ pd m₂ leaf m₃, tableGetOrCreate m root (pml4Index va) flags = .ok (pdpt, m₁) ∧
    tableGetOrCreate m₁ pdpt (pdptIndex va) flags = .ok (pd, m₂) ∧
    tableGetOrCreate m₂ pd (pdIndex va) flags = .ok (leaf, m₃) ∧ m' = m₃.store leaf (ptIndex va) (leafEntry pa flags) ∧
    (∃ taken, Grown scope root m taken m₁ ∧ ready m₁ ∧ tableAt m₁.mem root ([] ++ [pml4Index va]) = some pdpt) ∧
    (∃ taken, Grown scope root m₁ taken m₂ ∧ ready m₂ ∧ tableAt m₂.mem root ([pml4Index va] ++ [pdptIndex va]) = some pd) ∧
    ∃ taken, Grown scope root m₂ taken m₃ ∧ ready m₃ ∧ tableAt m₃.mem root (pathOf va) = some leaf := by
  have ⟨one, two, three⟩ := scope_above covered
  have ⟨⟨pdpt, m₁⟩, first, done⟩ := Outcome.bind_eq_ok.mp done
  have ⟨⟨pd, m₂⟩, second, done⟩ := Outcome.bind_eq_ok.mp done
  have ⟨⟨leaf, m₃⟩, third, done⟩ := Outcome.bind_eq_ok.mp done
  cases done
  have ⟨taken₁, grown₁, ready₁, at₁⟩ := tableGetOrCreate_spec supply start paging one rfl first
  have ⟨taken₂, grown₂, ready₂, at₂⟩ := tableGetOrCreate_spec supply ready₁ grown₁.paging two at₁ second
  have stage₃ := tableGetOrCreate_spec supply ready₂ grown₂.paging three at₂ third
  exact ⟨pdpt, m₁, pd, m₂, leaf, m₃, first, second, third, rfl, ⟨taken₁, grown₁, ready₁, at₁⟩,
    ⟨taken₂, grown₂, ready₂, at₂⟩, stage₃⟩

theorem map4k_spec : ∃ taken, Mapped scope root m va (leafEntry pa flags) taken m' := by
  have ⟨_, _, _, _, leaf, m₃, _, _, _, after, ⟨taken₁, grown₁, _⟩, ⟨taken₂, grown₂, _⟩, taken₃, grown₃, _, at₃⟩ :=
    map4k_stages supply start paging covered done
  subst after
  have grown := (grown₁.trans grown₂).trans grown₃
  have written : LeafWritten scope root m₃.mem (pathOf va) (ptIndex va) (leafEntry pa flags) _ :=
    leafWritten grown.paging covered rfl at₃
  refine ⟨taken₁ ++ taken₂ ++ taken₃, written.paging, grown.allocs, ?_, ?_, ?_⟩
  · intro f
    rw [← grown.nodes f]
    exact IsTable.congr written.tables f
  · intro p member depth j
    refine (written.leaves p member depth j).trans ?_
    rw [grown.leaves p member depth j, isPresent_leafEntry, if_pos rfl]
  · intro f outside
    have earlier : ¬ IsTable scope m₃.mem root f := fun inner =>
      outside ((IsTable.congr written.tables f).mpr inner)
    exact (written.kept f earlier).trans (grown.kept f earlier)

end Stages

/-- The tables that translate `va` exist down to the leaf table. -/
structure Walked (mem : Memory) (root : Frame) (va : Nat) (pdpt pd pt : Frame) : Prop where
  atPdpt : entryChild (mem root (pml4Index va)) = some pdpt
  atPd : entryChild (mem pdpt (pdptIndex va)) = some pd
  atPt : entryChild (mem pd (pdIndex va)) = some pt

section Walk

variable {va : Nat} {pdpt pd : Frame}

theorem Walked.tablePdpt (walked : Walked mem root va pdpt pd pt) : tableAt mem root [pml4Index va] = some pdpt := by
  simp [tableAt, nodeAt, walked.atPdpt]

theorem Walked.tablePd (walked : Walked mem root va pdpt pd pt) :
    tableAt mem root [pml4Index va, pdptIndex va] = some pd := by
  simp [tableAt, nodeAt, walked.atPdpt, walked.atPd]

theorem Walked.tablePt (walked : Walked mem root va pdpt pd pt) : tableAt mem root (pathOf va) = some pt := by
  simp [tableAt, pathOf, nodeAt, walked.atPdpt, walked.atPd, walked.atPt]

theorem walk_cases (mem : Memory) (root : Frame) (va : Nat) :
    tableAt mem root (pathOf va) = none ∨ ∃ pdpt pd pt, Walked mem root va pdpt pd pt := by
  cases first : entryChild (mem root (pml4Index va)) with
  | none => simp [tableAt, pathOf, nodeAt, first]
  | some pdpt =>
    cases second : entryChild (mem pdpt (pdptIndex va)) with
    | none => simp [tableAt, pathOf, nodeAt, first, second]
    | some pd =>
      cases third : entryChild (mem pd (pdIndex va)) with
      | none => simp [tableAt, pathOf, nodeAt, first, second, third]
      | some pt => exact Or.inr ⟨pdpt, pd, pt, first, second, third⟩

theorem broken_walk (broken : tableAt mem root (pathOf va) = none) : isPresent (mem root (pml4Index va)) = false ∨
    isPresent (mem (frameOf (mem root (pml4Index va))) (pdptIndex va)) = false ∨
    isPresent (mem (frameOf (mem (frameOf (mem root (pml4Index va))) (pdptIndex va))) (pdIndex va)) = false := by
  by_contra whole
  simp only [not_or, Bool.not_eq_false] at whole
  obtain ⟨first, second, third⟩ := whole
  have walked : Walked mem root va _ _ _ :=
    ⟨entryChild_of_present first, entryChild_of_present second, entryChild_of_present third⟩
  rw [walked.tablePt] at broken
  cases broken

theorem lookup_of_broken (broken : tableAt mem root (pathOf va) = none) : lookup mem root va = none := by
  simp [lookup, leafAt, broken]

theorem Walked.lookup_eq (walked : Walked mem root va pdpt pd pt) : lookup mem root va =
    if isPresent (mem pt (ptIndex va)) then some (mem pt (ptIndex va)) else none := by
  simp [lookup, leafAt, walked.tablePt]

/-- The huge-page tests of the walks never fire on these tables. -/
theorem Walked.small (walked : Walked mem root va pdpt pd pt) (paging : Paging scope mem root)
    (covered : pathOf va ∈ scope.paths) :
    isHuge (mem pdpt (pdptIndex va)) = false ∧ isHuge (mem pd (pdIndex va)) = false := by
  have ⟨_, two, three⟩ := scope_above covered
  constructor
  · exact paging.small _ _ _ two walked.tablePdpt (isPresent_of_entryChild walked.atPd).1
  · exact paging.small _ _ _ three walked.tablePd (isPresent_of_entryChild walked.atPt).1

theorem pageDirVirtToPhys_eq (paging : Paging scope mem root) (covered : pathOf va ∈ scope.paths) :
    pageDirVirtToPhys mem root va =
      match lookup mem root va with
      | none => notMapped
      | some e => frameOf e ||| BitVec.ofNat 64 (va % 2 ^ 12) := by
  rcases walk_cases mem root va with broken | ⟨pdpt, pd, pt, walked⟩
  · rw [lookup_of_broken broken]
    unfold pageDirVirtToPhys
    by_cases first : isPresent (mem root (pml4Index va)) = true
    · by_cases second : isPresent (mem (frameOf (mem root (pml4Index va))) (pdptIndex va)) = true
      · have three : [pml4Index va, pdptIndex va] ++ [pdIndex va] ∈ scope.paths := covered
        have small := paging.small [pml4Index va] (pdptIndex va) _ (scope.closed three)
          (by simp [tableAt, nodeAt, entryChild_of_present first]) second
        have third := broken_walk broken
        simp only [first, second, Bool.true_eq_false, false_or] at third
        simp [first, second, small, third]
      · simp [first, second]
    · simp [first]
  · obtain ⟨present₁, rfl⟩ := isPresent_of_entryChild walked.atPdpt
    obtain ⟨present₂, rfl⟩ := isPresent_of_entryChild walked.atPd
    obtain ⟨present₃, rfl⟩ := isPresent_of_entryChild walked.atPt
    obtain ⟨small₁, small₂⟩ := walked.small paging covered
    rw [walked.lookup_eq]
    unfold pageDirVirtToPhys
    simp only [present₁, present₂, present₃, small₁, small₂, not_true_eq_false, ↓reduceIte,
      Bool.false_eq_true]
    split <;> simp_all

variable {m : Machine σ}

theorem unmap4k_of_broken (broken : tableAt m.mem root (pathOf va) = none) : unmap4k m root va = m := by
  unfold unmap4k
  rcases broken_walk broken with first | second | third
  · simp [first]
  · simp [second]
  · simp [third]

theorem vmmUnmapPage_of_broken (broken : tableAt m.mem root (pathOf va) = none) : vmmUnmapPage m root va = m := by
  unfold vmmUnmapPage
  rcases broken_walk broken with first | second | third
  · simp [first]
  · simp [second]
  · simp [third]

theorem Walked.unmap4k_eq (walked : Walked m.mem root va pdpt pd pt) (paging : Paging scope m.mem root)
    (covered : pathOf va ∈ scope.paths) : unmap4k m root va = if isPresent (m.mem pt (ptIndex va)) then
        if isOwned (m.mem pt (ptIndex va)) then
          (m.store pt (ptIndex va) 0).release (frameOf (m.mem pt (ptIndex va))) else m.store pt (ptIndex va) 0 else m := by
  obtain ⟨present₁, rfl⟩ := isPresent_of_entryChild walked.atPdpt
  obtain ⟨present₂, rfl⟩ := isPresent_of_entryChild walked.atPd
  obtain ⟨present₃, rfl⟩ := isPresent_of_entryChild walked.atPt
  obtain ⟨-, small⟩ := walked.small paging covered
  unfold unmap4k
  simp only [present₁, present₂, present₃, small, not_true_eq_false, ↓reduceIte, Bool.false_eq_true,
    Bool.not_eq_true]
  cases isPresent _ <;> simp

theorem Walked.vmmUnmapPage_eq (walked : Walked m.mem root va pdpt pd pt) (paging : Paging scope m.mem root)
    (covered : pathOf va ∈ scope.paths) : vmmUnmapPage m root va =
      pruneTables (m.store pt (ptIndex va) 0) root pdpt pd pt va := by
  obtain ⟨present₁, rfl⟩ := isPresent_of_entryChild walked.atPdpt
  obtain ⟨present₂, rfl⟩ := isPresent_of_entryChild walked.atPd
  obtain ⟨present₃, rfl⟩ := isPresent_of_entryChild walked.atPt
  obtain ⟨small₁, small₂⟩ := walked.small paging covered
  unfold vmmUnmapPage
  simp [present₁, present₂, present₃, small₁, small₂]

end Walk

/-- The page at `va` is gone, all other mappings stay, tables may have been
removed. -/
structure Unmapped (scope : TableScope) (root : Frame) (mem : Memory) (va : Nat) (after : Memory) :
    Prop where
  paging : Paging scope after root
  nodes : ∀ f, IsTable scope after root f → IsTable scope mem root f
  leaves : ∀ p ∈ scope.paths, p.length = 3 → ∀ j, leafAt after root p j =
    if p = pathOf va ∧ j = ptIndex va then none else leafAt mem root p j
  kept : ∀ f, ¬ IsTable scope mem root f → after f = mem f

theorem unmapped_of_absent (paging : Paging scope mem root) (absent : lookup mem root va = none) :
    Unmapped scope root mem va mem := by
  refine ⟨paging, fun _ inner => inner, ?_, fun _ _ => rfl⟩
  intro p _ _ j
  split
  · rename_i on
    obtain ⟨rfl, rfl⟩ := on
    exact absent
  · rfl

theorem LeafWritten.unmapped (written : LeafWritten scope root mem (pathOf va) (ptIndex va) 0 after) :
    Unmapped scope root mem va after :=
  ⟨written.paging, fun f => (IsTable.congr written.tables f).mp,
    fun p member depth j => (written.leaves p member depth j).trans (by simp), written.kept⟩

theorem unmap4k_spec (paging : Paging scope m.mem root) (covered : pathOf va ∈ scope.paths) :
    Unmapped scope root m.mem va (unmap4k m root va).mem := by
  rcases walk_cases m.mem root va with broken | ⟨pdpt, pd, pt, walked⟩
  · rw [unmap4k_of_broken broken]
    exact unmapped_of_absent paging (lookup_of_broken broken)
  · rw [walked.unmap4k_eq paging covered]
    split
    · have written := (leafWritten (e := 0) (i := ptIndex va) paging covered rfl walked.tablePt).unmapped
      split
      · exact written
      · exact written
    · rename_i absent
      apply unmapped_of_absent paging
      rw [walked.lookup_eq, if_neg absent]

/-- The empty table behind entry `i` of the table at `q` is unlinked. -/
structure Pruned (scope : TableScope) (root : Frame) (mem : Memory) (q : List Index) (i : Index)
    (after : Memory) : Prop where
  paging : Paging scope after root
  tables : ∀ p ∈ scope.paths, tableAt after root p =
    if p = q ++ [i] then none else tableAt mem root p
  leaves : ∀ p ∈ scope.paths, p.length = 3 → ∀ j, leafAt after root p j = leafAt mem root p j
  kept : ∀ f, ¬ IsTable scope mem root f → after f = mem f

variable {q : List Index}

theorem pruned {table empty : Frame} (paging : Paging scope mem root) (inside : q ++ [i] ∈ scope.paths)
    (here : tableAt mem root q = some table) (below : tableAt mem root (q ++ [i]) = some empty)
    (zero : ∀ j, mem empty j = 0) : Pruned scope root mem q i (write mem table i 0) := by
  have child : entryChild (mem table i) = some empty := by
    rw [← nodeAt_concat_of here]
    exact below
  have moved : ∀ p ∈ scope.paths, tableAt (write mem table i 0) root p =
      if p = q ++ [i] then none else tableAt mem root p := by
    apply nodeAt_relink paging.distinct inside here
    · intro n reference j
      rw [child] at reference
      cases reference
      rw [zero j]
      rfl
    · intro n reference
      cases reference
  refine ⟨⟨paging.distinct.detach moved, ?_⟩, moved, ?_, ?_⟩
  · intro p j f extended reached present
    replace reached := (moved p (scope.closed extended)).symm.trans reached
    split at reached
    · cases reached
    · rw [write_apply] at present ⊢
      split
      · rfl
      · rename_i off
        rw [if_neg off] at present
        exact paging.small p j f extended reached present
  · intro p member leaf j
    by_cases gone : p = q ++ [i]
    · have after : tableAt (write mem table i 0) root p = none := by
        rw [moved p member, if_pos gone]
      have before : tableAt mem root p = some empty := by
        rw [gone]
        exact below
      unfold leafAt
      rw [after, before, Option.bind_none, Option.bind_some, zero j]
      rfl
    · apply leafAt_eq
      · rw [moved p member, if_neg gone]
      · intro pt reached
        have other : pt ≠ table := by
          rintro rfl
          exact paging.inner inside here member leaf reached
        rw [write_of_ne_node mem i 0 other]
  · intro f outside
    apply write_of_ne_node
    rintro rfl
    exact outside ⟨q, scope.closed inside, here⟩

theorem Pruned.nodes (pruned : Pruned scope root mem q i after) (f : Frame) (inner : IsTable scope after root f) :
    IsTable scope mem root f := by
  obtain ⟨p, member, reached⟩ := inner
  replace reached := (pruned.tables p member).symm.trans reached
  split at reached
  · cases reached
  · exact ⟨p, member, reached⟩

theorem Pruned.above {p : List Index} (pruned : Pruned scope root mem q i after) (member : p ∈ scope.paths)
    (shorter : p.length ≤ q.length) : tableAt after root p = tableAt mem root p := by
  rw [pruned.tables p member, if_neg]
  rintro rfl
  simp only [List.length_append, List.length_singleton] at shorter
  omega

theorem Unmapped.prune {middle : Memory} (unmapped : Unmapped scope root mem va middle)
    (pruned : Pruned scope root middle q i after) :
    Unmapped scope root mem va after where
  paging := pruned.paging
  nodes := fun f inner => unmapped.nodes f (pruned.nodes f inner)
  leaves := fun p member leaf j =>
    (pruned.leaves p member leaf j).trans (unmapped.leaves p member leaf j)
  kept := fun f outside => by
    have earlier : ¬ IsTable scope middle root f := fun inner => outside (unmapped.nodes f inner)
    rw [pruned.kept f earlier, unmapped.kept f outside]

theorem tableIsEmpty_iff (mem : Memory) (table : Frame) : tableIsEmpty mem table = true ↔ ∀ j, mem table j = 0 := by
  simp [tableIsEmpty]

theorem pruneTables_spec {pdpt pd : Frame} (covered : pathOf va ∈ scope.paths)
    (unmapped : Unmapped scope root mem va m.mem) (atPdpt : tableAt m.mem root [pml4Index va] = some pdpt)
    (atPd : tableAt m.mem root [pml4Index va, pdptIndex va] = some pd) (atPt : tableAt m.mem root (pathOf va) = some pt) :
    Unmapped scope root mem va (pruneTables m root pdpt pd pt va).mem := by
  have ⟨one, two, three⟩ := scope_above covered
  unfold pruneTables
  split
  · exact unmapped
  · rename_i emptyPt
    rw [not_not, tableIsEmpty_iff] at emptyPt
    have cut₁ := pruned unmapped.paging three atPd atPt emptyPt
    have atPdpt₁ := (cut₁.above one (by simp)).trans atPdpt
    have atPd₁ := (cut₁.above two (by simp)).trans atPd
    dsimp only
    split
    · exact unmapped.prune cut₁
    · rename_i emptyPd
      rw [not_not, tableIsEmpty_iff] at emptyPd
      have cut₂ := pruned cut₁.paging two atPdpt₁ atPd₁ emptyPd
      have atPdpt₂ := (cut₂.above one (by simp)).trans atPdpt₁
      split
      · exact (unmapped.prune cut₁).prune cut₂
      · rename_i emptyPdpt
        rw [not_not, tableIsEmpty_iff] at emptyPdpt
        exact ((unmapped.prune cut₁).prune cut₂).prune (pruned cut₂.paging one rfl atPdpt₂ emptyPdpt)

theorem vmmUnmapPage_spec (paging : Paging scope m.mem root) (covered : pathOf va ∈ scope.paths) :
    Unmapped scope root m.mem va (vmmUnmapPage m root va).mem := by
  rcases walk_cases m.mem root va with broken | ⟨pdpt, pd, pt, walked⟩
  · rw [vmmUnmapPage_of_broken broken]
    exact unmapped_of_absent paging (lookup_of_broken broken)
  · rw [walked.vmmUnmapPage_eq paging covered]
    have ⟨one, two, three⟩ := scope_above covered
    have written : LeafWritten scope root m.mem (pathOf va) (ptIndex va) 0
        (write m.mem pt (ptIndex va) 0) := leafWritten paging covered rfl walked.tablePt
    apply pruneTables_spec covered written.unmapped
    · exact (written.tables _ one).trans walked.tablePdpt
    · exact (written.tables _ two).trans walked.tablePd
    · exact (written.tables _ covered).trans walked.tablePt

end CreeperKernel.Vmm
