import CreeperKernel.FrameSupply
import CreeperKernel.PageTableReads

namespace CreeperKernel.Vmm

open RadixTree
open Pmm (pageSize freeFrames Block Gave)

/-- The whole walk to the page of `va`. -/
def walkOf (va : Nat) : List Index := pathOf va ++ [ptIndex va]

/-- One entry has been rewritten, and tables of zeros may have come or gone behind it. -/
def Edited (scope : TableScope) (root : Frame) (mem : Memory) (q : List Index) (i : Index) (e : Entry)
    (after : Memory) : Prop :=
  ∀ p ∈ scope.paths, ∀ j, readEntry after root p j = if p = q ∧ j = i then e else readEntry mem root p j

/-- `mem` shows what `old` shows, and more only along `ways`. Tables that are not in
`old` hold no stray bits. -/
structure ExtendsAlong (scope : TableScope) (root : Frame) (old : Memory) (ways : Set (List Index))
    (mem : Memory) : Prop where
  kept : ∀ p ∈ scope.paths, ∀ j, isPresent (readEntry old root p j) = true →
    view (readEntry mem root p j) = view (readEntry old root p j)
  only : ∀ p ∈ scope.paths, ∀ j, isPresent (readEntry mem root p j) = true →
    isPresent (readEntry old root p j) = true ∨ ∃ w ∈ ways, p ++ [j] <+: w
  clean : ∀ p ∈ scope.paths, tableAt old root p = none → ∀ j,
    isPresent (readEntry mem root p j) = false → readEntry mem root p j = 0

section Memory

variable {scope : TableScope} {root : Frame} {old mem after : Memory} {ways : Set (List Index)} {q : List Index}
  {i : Index} {e : Entry}

theorem ExtendsAlong.refl (scope : TableScope) (root : Frame) (old : Memory) :
    ExtendsAlong scope root old ∅ old where
  kept := fun _ _ _ _ => rfl
  only := fun _ _ _ present => .inl present
  clean := fun _ _ nothing j _ => readAt_of_none nothing j

theorem ExtendsAlong.mono {wider : Set (List Index)} (along : ExtendsAlong scope root old ways mem)
    (within : ∀ w ∈ ways, ∃ w' ∈ wider, w <+: w') : ExtendsAlong scope root old wider mem where
  kept := along.kept
  only := by
    intro p member j present
    rcases along.only p member j present with before | ⟨w, way, front⟩
    · exact .inl before
    · obtain ⟨w', wide, longer⟩ := within w way
      exact .inr ⟨w', wide, front.trans longer⟩
  clean := along.clean

theorem ExtendsAlong.fill (along : ExtendsAlong scope root old ways mem)
    (edited : Edited scope root mem q i e after) (present : isPresent e = true)
    (same : isPresent (readEntry old root q i) = true → view e = view (readEntry old root q i)) :
    ExtendsAlong scope root old (insert (q ++ [i]) ways) after where
  kept := by
    intro p member j before
    rw [edited p member j]
    split
    · rename_i on
      rw [on.1, on.2] at before ⊢
      exact same before
    · exact along.kept p member j before
  only := by
    intro p member j now
    rw [edited p member j] at now
    split at now
    · rename_i on
      rw [on.1, on.2]
      exact .inr ⟨q ++ [i], Set.mem_insert _ _, List.prefix_refl _⟩
    · rcases along.only p member j now with before | ⟨w, way, front⟩
      · exact .inl before
      · exact .inr ⟨w, Set.mem_insert_of_mem _ way, front⟩
  clean := by
    intro p member nothing j absent
    rw [edited p member j] at absent ⊢
    split
    · rename_i on
      rw [if_pos on, present] at absent
      cases absent
    · rename_i off
      rw [if_neg off] at absent
      exact along.clean p member nothing j absent

theorem ExtendsAlong.translation {va : Nat} (formed : PageTree old root)
    (along : ExtendsAlong (smallScope old root) root old ways mem) (mapped : pageDirVirtToPhys old root va ≠ notMapped) :
    pageDirVirtToPhys mem root va = pageDirVirtToPhys old root va := by
  rw [pageDirVirtToPhys_views] at mapped ⊢
  rw [pageDirVirtToPhys_views old]
  apply formed.follows.translate_kept _ mapped
  intro p member i there
  apply along.kept p member i
  rw [isPresent_eq_view]
  exact Option.isSome_iff_ne_none.mpr there

end Memory

section Edits

variable {σ : Type} [FrameAllocator σ] {scope : TableScope} {root table next : Frame} {mem : Memory}
  {m m' : Machine σ} {q : List Index} {i : Index} {e flags : Entry} {ready : Machine σ → Prop}

theorem leaf_edited (paging : Paging scope mem root) (inside : q ∈ scope.paths) (leaf : q.length = 3)
    (here : tableAt mem root q = some table) : Edited scope root mem q i e (write mem table i e) :=
  readAt_write_same paging.distinct inside here fun extended => absurd extended (not_extended leaf)

theorem prune_edited {empty : Frame} (paging : Paging scope mem root) (inside : q ++ [i] ∈ scope.paths)
    (here : tableAt mem root q = some table) (below : tableAt mem root (q ++ [i]) = some empty)
    (zero : ∀ j, mem empty j = 0) : Edited scope root mem q i 0 (write mem table i 0) :=
  readAt_prune paging.distinct inside here below zero entryChild_zero

/-- `table_get_or_create` fills in the entry it goes through, and keeps its view if it was
there. -/
theorem tableGetOrCreate_edited (supply : Supply scope root ready) (start : ready m)
    (paging : Paging scope m.mem root) (inside : q ++ [i] ∈ scope.paths) (here : tableAt m.mem root q = some table)
    (done : tableGetOrCreate m table i flags = .ok (next, m')) :
    ∃ e, Edited scope root m.mem q i e m'.mem ∧ isPresent e = true ∧
      (isPresent (readEntry m.mem root q i) = true → view e = view (readEntry m.mem root q i)) := by
  have read : readEntry m.mem root q i = m.mem table i := readAt_of here i
  rw [read]
  rcases tableGetOrCreate_cases done with
    ⟨absent, phys, frames, allocated, rfl, rfl⟩ | ⟨present, rfl, e, keeps, size, address, rfl⟩
  · have usable := supply.usable m phys frames start allocated
    have child := usable.child flags
    refine ⟨tableEntry phys flags, ?_, isPresent_tableEntry phys flags, fun present => ?_⟩
    · exact readAt_attach paging.distinct inside here (entryChild_of_absent absent) usable.unused
        usable.cleared.zero entryChild_zero usable.cleared.others child
    · rw [absent] at present
      cases present
  · have child : entryChild e = entryChild (m.mem table i) := by
      rw [entryChild_of_present keeps, entryChild_of_present present, address]
    refine ⟨e, ?_, keeps, fun _ => ?_⟩
    · exact readAt_write_same paging.distinct (scope.closed inside) here fun _ => child
    · rw [view_of_present keeps, view_of_present present, address, size]

variable {old : Memory} {ways : Set (List Index)}

theorem ExtendsAlong.get_or_create (along : ExtendsAlong scope root old ways m.mem) (supply : Supply scope root ready)
    (start : ready m) (paging : Paging scope m.mem root) (inside : q ++ [i] ∈ scope.paths)
    (here : tableAt m.mem root q = some table) (done : tableGetOrCreate m table i flags = .ok (next, m')) :
    ExtendsAlong scope root old (insert (q ++ [i]) ways) m'.mem := by
  obtain ⟨e, edited, present, same⟩ := tableGetOrCreate_edited supply start paging inside here done
  apply along.fill edited present
  intro before
  have kept := along.kept q (scope.closed inside) i before
  rw [← kept]
  apply same
  rw [isPresent_congr kept]
  exact before

theorem map4k_along {va : Nat} {pa : Frame} (supply : Supply scope root ready) (start : ready m)
    (paging : Paging scope m.mem root) (along : ExtendsAlong scope root old ways m.mem)
    (covered : pathOf va ∈ scope.paths) (unmapped : isPresent (readEntry old root (pathOf va) (ptIndex va)) = false)
    (done : map4k m root va pa flags = .ok m') : ExtendsAlong scope root old (insert (walkOf va) ways) m'.mem := by
  have ⟨one, two, three⟩ := scope_above covered
  have ⟨_, m₁, _, m₂, leaf, m₃, first, second, third, after, ⟨_, grown₁, ready₁, at₁⟩, ⟨_, grown₂, ready₂, at₂⟩,
    _, grown₃, _, at₃⟩ := map4k_stages supply start paging covered done
  subst after
  -- each step fills in one entry on the way
  have along₁ := along.get_or_create supply start paging one rfl first
  have along₂ := along₁.get_or_create supply ready₁ grown₁.paging two at₁ second
  have along₃ := along₂.get_or_create supply ready₂ grown₂.paging covered at₂ third
  have filled := along₃.fill (leaf_edited (i := ptIndex va) (e := leafEntry pa flags) grown₃.paging covered rfl at₃)
    (isPresent_leafEntry pa flags) (fun present => by rw [unmapped] at present; cases present)
  apply filled.mono
  intro w way
  rcases Set.mem_insert_iff.mp way with rfl | way
  · exact ⟨_, Set.mem_insert _ _, List.prefix_refl _⟩
  rcases Set.mem_insert_iff.mp way with rfl | way
  · exact ⟨_, Set.mem_insert _ _, by simp [walkOf, pathOf]⟩
  rcases Set.mem_insert_iff.mp way with rfl | way
  · exact ⟨_, Set.mem_insert _ _, by simp [walkOf, pathOf]⟩
  rcases Set.mem_insert_iff.mp way with rfl | way
  · exact ⟨_, Set.mem_insert _ _, by simp [walkOf, pathOf]⟩
  · exact ⟨w, Set.mem_insert_of_mem _ way, List.prefix_refl _⟩

end Edits

end CreeperKernel.Vmm
