import CreeperKernel.PageTableWalk

namespace CreeperKernel.Vmm

open RadixTree

/-- The table an entry refers to. -/
def entryChild (e : Entry) : Option Frame := if isPresent e then some (frameOf e) else none

theorem entryChild_of_present {e : Entry} (present : isPresent e = true) : entryChild e = some (frameOf e) := by
  simp [entryChild, present]

theorem entryChild_of_absent {e : Entry} (absent : isPresent e = false) : entryChild e = none := by
  simp [entryChild, absent]

@[simp] theorem entryChild_zero : entryChild 0#64 = none := rfl

theorem isPresent_of_entryChild {e : Entry} {f : Frame} (reference : entryChild e = some f) :
    isPresent e = true ∧ frameOf e = f := by
  unfold entryChild at reference
  split at reference
  · rename_i present
    exact ⟨present, Option.some.inj reference⟩
  · cases reference

/-- Tables sit at paths of at most three indices; a fourth one selects a page. -/
structure TableScope extends Scope Index where
  depth : ∀ p ∈ paths, p.length ≤ 3

abbrev tableAt (mem : Memory) (root : Frame) (path : List Index) : Option Frame :=
  nodeAt entryChild mem root path

abbrev IsTable (scope : TableScope) (mem : Memory) (root f : Frame) : Prop :=
  IsNode entryChild scope.toScope mem root f

/-- The tables of the scope form a tree, and none of its inner entries is a huge
page. -/
structure Paging (scope : TableScope) (mem : Memory) (root : Frame) : Prop where
  distinct : Distinct entryChild scope.toScope mem root
  small : ∀ p i f, p ++ [i] ∈ scope.paths → tableAt mem root p = some f →
    isPresent (mem f i) = true → isHuge (mem f i) = false

/-- The present leaf entry with index `i` of the table at `path`. -/
def leafAt (mem : Memory) (root : Frame) (path : List Index) (i : Index) : Option Entry :=
  (tableAt mem root path).bind fun pt => if isPresent (mem pt i) then some (mem pt i) else none

/-- Allocations one after the other. -/
inductive Allocs {σ : Type} [FrameAllocator σ] : σ → List Frame → σ → Prop where
  | nil (s : σ) : Allocs s [] s
  | cons {s middle finish : σ} {f : Frame} {rest : List Frame}
      (first : FrameAllocator.pmmAlloc s = .ok (f, middle)) (others : Allocs middle rest finish) :
      Allocs s (f :: rest) finish

variable {σ : Type} [FrameAllocator σ] {first second : List Frame} {m m' : Machine σ} {flags : Entry}

theorem Allocs.append {s middle finish : σ} (front : Allocs s first middle) (back : Allocs middle second finish) :
    Allocs s (first ++ second) finish := by
  induction front with
  | nil => exact back
  | cons taken _ ih => exact .cons taken (ih back)

/-- Tables `taken` were added; every mapping and every other page stays. -/
structure Grown (scope : TableScope) (root : Frame) (m : Machine σ) (taken : List Frame)
    (m' : Machine σ) : Prop where
  paging : Paging scope m'.mem root
  allocs : Allocs m.frames taken m'.frames
  mono : ∀ p ∈ scope.paths, ∀ f, tableAt m.mem root p = some f → tableAt m'.mem root p = some f
  nodes : ∀ f, IsTable scope m'.mem root f ↔ IsTable scope m.mem root f ∨ f ∈ taken
  leaves : ∀ p ∈ scope.paths, p.length = 3 → ∀ i, leafAt m'.mem root p i = leafAt m.mem root p i
  kept : ∀ f, ¬ IsTable scope m'.mem root f → m'.mem f = m.mem f

theorem Grown.trans {scope : TableScope} {root : Frame} {m m₁ m₂ : Machine σ}
    (front : Grown scope root m first m₁)
    (back : Grown scope root m₁ second m₂) : Grown scope root m (first ++ second) m₂ where
  paging := back.paging
  allocs := front.allocs.append back.allocs
  mono := fun p inside f reached => back.mono p inside f (front.mono p inside f reached)
  nodes := fun f => by rw [back.nodes, front.nodes, List.mem_append, or_assoc]
  leaves := fun p inside depth i =>
    (back.leaves p inside depth i).trans (front.leaves p inside depth i)
  kept := fun f outside => by
    have earlier : ¬ IsTable scope m₁.mem root f := fun inner =>
      outside ((back.nodes f).mpr (Or.inl inner))
    rw [back.kept f outside, front.kept f earlier]

/-- What the tree needs of a frame that becomes a table. Frame 0 is not zeroed by
`pmm_alloc_zeroed`. -/
structure Usable (scope : TableScope) (root : Frame) (mem : Memory) (phys : Frame) : Prop where
  aligned : frameOf phys = phys
  unused : ¬ IsTable scope mem root phys
  blank : phys = 0 → ∀ i, mem phys i = 0

/-- A condition on the machine under which every frame it hands out is usable, and
which lasts while tables are added. -/
structure Supply (scope : TableScope) (root : Frame) (ready : Machine σ → Prop) : Prop where
  usable : ∀ m phys frames, ready m → FrameAllocator.pmmAlloc m.frames = .ok (phys, frames) →
    Usable scope root m.mem phys
  lasts : ∀ m taken m', ready m → Grown scope root m taken m' → ready m'

theorem tableGetOrCreate_cases {table next : Frame} {i : Index}
    (done : tableGetOrCreate m table i flags = .ok (next, m')) : (isPresent (m.mem table i) = false ∧ ∃ phys frames,
      FrameAllocator.pmmAlloc m.frames = .ok (phys, frames) ∧ next = frameOf phys ∧
      m' = ⟨write (if phys = 0 then m.mem else zeroPage m.mem phys) table i (tableEntry phys flags), frames⟩) ∨
    (isPresent (m.mem table i) = true ∧ next = frameOf (m.mem table i) ∧
      ∃ e, isPresent e = true ∧ isHuge e = isHuge (m.mem table i) ∧
        frameOf e = frameOf (m.mem table i) ∧ m' = ⟨write m.mem table i e, m.frames⟩) := by
  unfold tableGetOrCreate at done
  by_cases present : isPresent (m.mem table i) = true
  · right
    refine ⟨present, ?_⟩
    simp only [present, not_true_eq_false, ↓reduceIte] at done
    split at done
    · cases done
      refine ⟨?_, _, ?_, ?_, ?_, rfl⟩
      · simp only [Machine.store, write_self]
        change frameOf _ = _
        simp [frameOf_or]
      · simp [isPresent_or, present]
      · simp [isHuge_or]
      · simp [frameOf_or]
    · cases done
      refine ⟨rfl, m.mem table i, present, rfl, rfl, ?_⟩
      have same : write m.mem table i (m.mem table i) = m.mem := by simp [write]
      rw [same]
  · left
    have absent : isPresent (m.mem table i) = false := by simpa using present
    refine ⟨absent, ?_⟩
    simp only [absent, Bool.false_eq_true, not_false_eq_true, ↓reduceIte] at done
    obtain ⟨⟨phys, middle⟩, allocated, done⟩ := Outcome.bind_eq_ok.mp done
    obtain ⟨⟨phys', frames⟩, taken, zeroed⟩ := Outcome.bind_eq_ok.mp allocated
    refine ⟨phys', frames, taken, ?_⟩
    cases done
    dsimp only at zeroed
    split at zeroed
    · rename_i zero
      cases zeroed
      subst zero
      refine ⟨?_, ?_⟩
      · simp only [Machine.store, write_self]
        exact frameOf_tableEntry 0 flags
      · rw [if_pos rfl]
        rfl
    · rename_i nonzero
      cases zeroed
      refine ⟨?_, ?_⟩
      · simp only [Machine.store, write_self]
        exact frameOf_tableEntry phys flags
      · rw [if_neg nonzero]
        rfl

variable {scope : TableScope} {root table : Frame} {mem : Memory} {q : List Index} {i : Index}

theorem Paging.inner (paging : Paging scope mem root) (inside : q ++ [i] ∈ scope.paths)
    (here : tableAt mem root q = some table) {p : List Index} (member : p ∈ scope.paths)
    (leaf : p.length = 3) : tableAt mem root p ≠ some table := by
  intro there
  have same : p = q := paging.distinct p member q (scope.closed inside) table there here
  have bound := scope.depth _ inside
  rw [same] at leaf
  simp [leaf] at bound

theorem leafAt_eq {after : Memory} {p : List Index} {j : Index} (tables : tableAt after root p = tableAt mem root p)
    (same : ∀ pt, tableAt mem root p = some pt → after pt j = mem pt j) : leafAt after root p j = leafAt mem root p j := by
  unfold leafAt
  rw [tables]
  cases reached : tableAt mem root p with
  | none => rfl
  | some pt => simp only [Option.bind_some, same pt reached]

theorem rewrite_grown {m : Machine σ} {e : Entry} (paging : Paging scope m.mem root)
    (inside : q ++ [i] ∈ scope.paths) (here : tableAt m.mem root q = some table)
    (child : entryChild e = entryChild (m.mem table i)) (size : isPresent e = true → isHuge e = isHuge (m.mem table i)) :
    Grown scope root m [] ⟨write m.mem table i e, m.frames⟩ := by
  have same := nodeAt_write_same paging.distinct (scope.closed inside) here fun _ => child
  refine ⟨⟨paging.distinct.congr same, ?_⟩, .nil _, ?_, ?_, ?_, ?_⟩
  · intro p j f extended reached present
    rw [tableAt, same p (scope.closed extended)] at reached
    dsimp only at present ⊢
    rw [write_apply] at present ⊢
    split
    · rename_i on
      rw [if_pos on] at present
      obtain ⟨rfl, rfl⟩ := on
      rw [size present]
      apply paging.small p j f extended reached
      obtain ⟨old, _⟩ := isPresent_of_entryChild (child.symm.trans (entryChild_of_present present))
      exact old
    · rename_i off
      rw [if_neg off] at present
      exact paging.small p j f extended reached present
  · intro p member f reached
    rw [tableAt, same p member]
    exact reached
  · intro f
    simp only [List.not_mem_nil, or_false]
    constructor
    · rintro ⟨p, member, reached⟩
      exact ⟨p, member, (same p member).symm.trans reached⟩
    · rintro ⟨p, member, reached⟩
      exact ⟨p, member, (same p member).trans reached⟩
  · intro p member leaf j
    apply leafAt_eq (same p member)
    intro pt reached
    have other : pt ≠ table := by
      rintro rfl
      exact paging.inner inside here member leaf reached
    simp only [write_of_ne_node m.mem i e other]
  · intro f outside
    apply write_of_ne_node
    rintro rfl
    exact outside ⟨q, scope.closed inside, (same q (scope.closed inside)).trans here⟩

/-- A page cleared before it becomes a table. -/
structure Cleared (mem cleared : Memory) (phys : Frame) : Prop where
  zero : ∀ j, cleared phys j = 0
  others : ∀ f, f ≠ phys → cleared f = mem f

theorem Usable.cleared {phys : Frame} (usable : Usable scope root mem phys) :
    Cleared mem (if phys = 0 then mem else zeroPage mem phys) phys := by
  split
  · rename_i zero
    exact ⟨usable.blank zero, fun _ _ => rfl⟩
  · refine ⟨fun j => ?_, fun f other => ?_⟩
    · simp [zeroPage]
    · exact Function.update_of_ne other _ _

theorem Usable.child {phys : Frame} (usable : Usable scope root mem phys) (flags : Entry) :
    entryChild (tableEntry phys flags) = some phys := by
  rw [entryChild_of_present (isPresent_tableEntry phys flags), frameOf_tableEntry, usable.aligned]

theorem Cleared.tables {cleared : Memory} {phys : Frame} (clear : Cleared mem cleared phys)
    (unused : ¬ IsTable scope mem root phys) : ∀ p ∈ scope.paths, tableAt cleared root p = tableAt mem root p := by
  apply nodeAt_congr
  intro p j f extended reached
  have other : f ≠ phys := by
    rintro rfl
    exact unused ⟨p, scope.closed extended, reached⟩
  rw [clear.others f other]

/-- A cleared page is hung into an absent inner entry. -/
structure Creation (scope : TableScope) (root : Frame) (mem cleared : Memory) (q : List Index)
    (i : Index) (table phys : Frame) (e : Entry) : Prop where
  paging : Paging scope mem root
  inside : q ++ [i] ∈ scope.paths
  here : tableAt mem root q = some table
  absent : isPresent (mem table i) = false
  unused : ¬ IsTable scope mem root phys
  clear : Cleared mem cleared phys
  child : entryChild e = some phys
  small : isHuge e = false

section Create

variable {cleared : Memory} {phys : Frame} {e : Entry} {p : List Index} {f : Frame}
    (new : Creation scope root mem cleared q i table phys e)
include new

theorem Creation.other : table ≠ phys := by
  rintro rfl
  exact new.unused ⟨q, scope.closed new.inside, new.here⟩

theorem Creation.moved : ∀ p ∈ scope.paths, tableAt (write cleared table i e) root p =
      if p = q ++ [i] then some phys else tableAt mem root p := by
  have sameTables := new.clear.tables new.unused
  have here : tableAt cleared root q = some table :=
    (sameTables q (scope.closed new.inside)).trans new.here
  intro p member
  rw [← sameTables p member, ← new.child]
  apply nodeAt_relink (new.paging.distinct.congr sameTables) new.inside here _ _ p member
  · intro n reference
    rw [new.clear.others table new.other, entryChild_of_absent new.absent] at reference
    cases reference
  · intro n reference
    rw [new.child] at reference
    cases reference
    exact ⟨new.other.symm, fun j => by rw [new.clear.zero j]; rfl⟩

theorem Creation.nothing_before : tableAt mem root (q ++ [i]) = none := by
  rw [tableAt, nodeAt_concat_of new.here]
  exact entryChild_of_absent new.absent

theorem Creation.mono (member : p ∈ scope.paths) (reached : tableAt mem root p = some f) :
    tableAt (write cleared table i e) root p = some f := by
  rw [new.moved p member, if_neg]
  · exact reached
  · rintro rfl
    rw [new.nothing_before] at reached
    cases reached

theorem Creation.nodes (f : Frame) :
    IsTable scope (write cleared table i e) root f ↔ IsTable scope mem root f ∨ f = phys := by
  constructor
  · rintro ⟨p, member, reached⟩
    replace reached := (new.moved p member).symm.trans reached
    by_cases fresh : p = q ++ [i]
    · rw [if_pos fresh] at reached
      exact Or.inr (Option.some.inj reached).symm
    · rw [if_neg fresh] at reached
      exact Or.inl ⟨p, member, reached⟩
  · rintro (⟨p, member, reached⟩ | rfl)
    · exact ⟨p, member, new.mono member reached⟩
    · exact ⟨q ++ [i], new.inside, (new.moved _ new.inside).trans (if_pos rfl)⟩

theorem Creation.paging_after : Paging scope (write cleared table i e) root := by
  refine ⟨new.paging.distinct.attach new.moved new.unused, ?_⟩
  intro p j f extended reached present
  replace reached := (new.moved p (scope.closed extended)).symm.trans reached
  rw [write_apply] at present ⊢
  split
  · exact new.small
  · rename_i off
    rw [if_neg off] at present
    by_cases fresh : p = q ++ [i]
    · rw [if_pos fresh] at reached
      cases reached
      rw [new.clear.zero j] at present
      cases present
    · rw [if_neg fresh] at reached
      have old : f ≠ phys := by
        rintro rfl
        exact new.unused ⟨p, scope.closed extended, reached⟩
      rw [new.clear.others f old] at present ⊢
      exact new.paging.small p j f extended reached present

theorem Creation.leaves (member : p ∈ scope.paths) (leaf : p.length = 3) (j : Index) :
    leafAt (write cleared table i e) root p j = leafAt mem root p j := by
  by_cases fresh : p = q ++ [i]
  · have bare : write cleared table i e phys j = 0 := by
      rw [write_of_ne_node cleared i e new.other.symm, new.clear.zero j]
    have after : tableAt (write cleared table i e) root p = some phys := by
      rw [new.moved p member, if_pos fresh]
    have before : tableAt mem root p = none := by
      rw [fresh]
      exact new.nothing_before
    simp [leafAt, after, before, bare]
  · apply leafAt_eq
    · rw [new.moved p member, if_neg fresh]
    · intro pt reached
      have notTable : pt ≠ table := by
        rintro rfl
        exact new.paging.inner new.inside new.here member leaf reached
      have notNew : pt ≠ phys := by
        rintro rfl
        exact new.unused ⟨p, member, reached⟩
      rw [write_of_ne_node cleared i e notTable, new.clear.others pt notNew]

theorem Creation.kept (outside : ¬ IsTable scope (write cleared table i e) root f) : write cleared table i e f = mem f := by
  rw [new.nodes, not_or] at outside
  have notTable : f ≠ table := by
    rintro rfl
    exact outside.1 ⟨q, scope.closed new.inside, new.here⟩
  rw [write_of_ne_node cleared i e notTable, new.clear.others f outside.2]

omit new in
theorem Creation.grown {m : Machine σ} {frames : σ}
    (new : Creation scope root m.mem cleared q i table phys e)
    (allocated : FrameAllocator.pmmAlloc m.frames = .ok (phys, frames)) :
    Grown scope root m [phys] ⟨write cleared table i e, frames⟩ where
  paging := new.paging_after
  allocs := .cons allocated (.nil frames)
  mono := fun _ member _ reached => new.mono member reached
  nodes := fun f => by rw [List.mem_singleton]; exact new.nodes f
  leaves := fun _ member leaf j => new.leaves member leaf j
  kept := fun _ outside => new.kept outside

end Create

theorem tableGetOrCreate_spec {next : Frame} {ready : Machine σ → Prop} (supply : Supply scope root ready) (start : ready m)
    (paging : Paging scope m.mem root) (inside : q ++ [i] ∈ scope.paths)
    (here : tableAt m.mem root q = some table) (done : tableGetOrCreate m table i flags = .ok (next, m')) :
    ∃ taken, Grown scope root m taken m' ∧ ready m' ∧ tableAt m'.mem root (q ++ [i]) = some next := by
  rcases tableGetOrCreate_cases done with
    ⟨absent, phys, frames, allocated, rfl, rfl⟩ | ⟨present, rfl, e, keeps, size, address, rfl⟩
  · have usable := supply.usable m phys frames start allocated
    have child := usable.child flags
    have new : Creation scope root m.mem _ q i table phys (tableEntry phys flags) :=
      ⟨paging, inside, here, absent, usable.unused, usable.cleared, child, isHuge_tableEntry phys flags⟩
    have grown := new.grown allocated
    refine ⟨[phys], grown, supply.lasts m _ _ start grown, ?_⟩
    rw [usable.aligned]
    exact (new.moved _ inside).trans (if_pos rfl)
  · have child : entryChild e = entryChild (m.mem table i) := by
      rw [entryChild_of_present keeps, entryChild_of_present present, address]
    have grown := rewrite_grown paging inside here child fun _ => size
    refine ⟨[], grown, supply.lasts m _ _ start grown, ?_⟩
    apply grown.mono _ inside
    rw [tableAt, nodeAt_concat_of here]
    exact entryChild_of_present present

end CreeperKernel.Vmm
