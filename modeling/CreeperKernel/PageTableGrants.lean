import CreeperKernel.PageRightsRuns

namespace CreeperKernel.Rights

open Vmm RadixTree

def isNx (e : Entry) : Bool := e &&& pteNx != 0

theorem isNx_eq (e : Entry) : isNx e = e.getLsbD 63 := and_twoPow_ne_zero e (i := 63) (by decide)

theorem isNx_or (a b : Entry) : isNx (a ||| b) = (isNx a || isNx b) := by simp [isNx_eq]

theorem isNx_perms (flags : Entry) : isNx (flags &&& permMask) = false := by
  have mask : permMask.getLsbD 63 = false := by decide
  rw [isNx_eq, BitVec.getLsbD_and, mask, Bool.and_false]

theorem isNx_frameOf (e : Entry) : isNx (frameOf e) = false := by
  have mask : pteAddrMask.getLsbD 63 = false := by decide
  rw [isNx_eq, frameOf, BitVec.getLsbD_and, mask, Bool.and_false]

theorem isNx_tableEntry (phys : Frame) (flags : Entry) : isNx (tableEntry phys flags) = false := by
  have present : isNx ptePresent = false := by decide
  rw [tableEntry, isNx_or, isNx_or, isNx_perms, present]
  exact congrArg (fun b => b || false || false) (isNx_frameOf phys)

theorem isNx_leafEntry (pa : Frame) (flags : Entry) : isNx (leafEntry pa flags) = isNx flags := by
  have present : isNx ptePresent = false := by decide
  have address : isNx (pa &&& pteAddrMask) = false := isNx_frameOf pa
  rw [leafEntry, isNx_or, isNx_or, present, address, Bool.false_or, Bool.or_false]

/-- The entry `x` grants what was asked for and what was granted `before`, and forbids
execution only if that was forbidden before. -/
structure Raises (flags : Entry) (before : Option Entry) (x : Entry) : Prop where
  asked : Within flags x
  granted : ∀ e, before = some e → Within e x
  executable : isNx x = true → ∃ e, before = some e ∧ isNx e = true

section Steps

variable {σ : Type} [FrameAllocator σ] {scope : TableScope} {root table next : Frame} {m m' : Machine σ}
  {q : List Index} {i : Index} {flags : Entry} {ready : Machine σ → Prop}

theorem leafAt_eq_entryAt (mem : Memory) (root : Frame) (p : List Index) (j : Index) :
    leafAt mem root p j = (entryAt entryChild mem root p j).bind fun e => if isPresent e then some e else none := by
  simp only [leafAt, tableAt, entryAt]
  cases nodeAt entryChild mem root p <;> rfl

theorem mem_of_front {p path : List Index} (member : path ∈ scope.paths) (front : p <+: path) : p ∈ scope.paths := by
  obtain ⟨rest, rfl⟩ := front
  induction rest using List.reverseRecOn with
  | nil =>
    rw [List.append_nil] at member
    exact member
  | append_singleton rest k ih =>
    rw [← List.append_assoc] at member
    exact ih (scope.closed member)

/-- `table_get_or_create` raises the entry it goes through, and changes no other. -/
theorem tableGetOrCreate_raises (supply : Supply scope root ready) (start : ready m)
    (paging : Paging scope m.mem root) (inside : q ++ [i] ∈ scope.paths) (here : tableAt m.mem root q = some table)
    (done : tableGetOrCreate m table i flags = .ok (next, m')) :
    ∃ x, Raises flags (leafAt m.mem root q i) x ∧ ∀ p ∈ scope.paths, ∀ j, leafAt m'.mem root p j =
      if p = q ∧ j = i then some x else leafAt m.mem root p j := by
  rcases tableGetOrCreate_cases done with ⟨absent, phys, frames, allocated, rfl, rfl⟩ | ⟨present, -⟩
  · have usable := supply.usable m phys frames start allocated
    have child := usable.child flags
    have entries := entryAt_attach paging.distinct inside here (entryChild_of_absent absent) usable.unused
      usable.cleared.zero entryChild_zero usable.cleared.others child
    have nothing : nodeAt entryChild m.mem root (q ++ [i]) = none :=
      (nodeAt_concat_of here).trans (entryChild_of_absent absent)
    refine ⟨tableEntry phys flags, ⟨within_tableEntry phys flags, ?_, ?_⟩, fun p member j => ?_⟩
    · intro e before
      rw [leafAt, here, Option.bind_some, if_neg (by rw [absent]; decide)] at before
      cases before
    · intro forbids
      rw [isNx_tableEntry] at forbids
      cases forbids
    · rw [leafAt_eq_entryAt, leafAt_eq_entryAt, entries p member j]
      by_cases on : p = q ∧ j = i
      · rw [if_pos on, if_pos on, Option.bind_some, if_pos (isPresent_tableEntry phys flags)]
      · rw [if_neg on, if_neg on]
        by_cases new : p = q ++ [i]
        · rw [if_pos new, new, entryAt, nothing]
          rfl
        · rw [if_neg new]
  · obtain ⟨-, rfl⟩ := tableGetOrCreate_present present done
    have before : leafAt m.mem root q i = some (m.mem table i) := by
      rw [leafAt, here, Option.bind_some, if_pos present]
    have still : isPresent (m.mem table i ||| (flags &&& permMask)) = true := by
      rw [isPresent_or, present, Bool.true_or]
    have child : entryChild (m.mem table i ||| (flags &&& permMask)) = entryChild (m.mem table i) := by
      rw [entryChild_of_present still, entryChild_of_present present, frameOf_or, frameOf_perms]
      simp
    have entries := entryAt_write_same paging.distinct (scope.closed inside) here fun _ => child
    obtain ⟨kept, asked⟩ := within_or (m.mem table i) flags
    refine ⟨m.mem table i ||| (flags &&& permMask), ⟨asked, ?_, ?_⟩, fun p member j => ?_⟩
    · intro e same
      cases before.symm.trans same
      exact kept
    · intro forbids
      rw [isNx_or, isNx_perms, Bool.or_false] at forbids
      exact ⟨_, before, forbids⟩
    · rw [leafAt_eq_entryAt, leafAt_eq_entryAt, entries p member j]
      by_cases on : p = q ∧ j = i
      · rw [if_pos on, if_pos on, Option.bind_some, if_pos still]
      · rw [if_neg on, if_neg on]

/-- What `map_4k` does to every present entry: the page's own is new, those on the way to it
are raised, the others stay. -/
structure Traced (scope : TableScope) (root : Frame) (mem : Memory) (va : Nat) (flags e : Entry) (mem' : Memory) :
    Prop where
  page : leafAt mem' root (pathOf va) (ptIndex va) = some e
  above : ∀ p j, p ++ [j] <+: pathOf va → ∃ x, leafAt mem' root p j = some x ∧ Raises flags (leafAt mem root p j) x
  others : ∀ p ∈ scope.paths, ∀ j, ¬ (p = pathOf va ∧ j = ptIndex va) → ¬ p ++ [j] <+: pathOf va →
    leafAt mem' root p j = leafAt mem root p j

theorem concat_prefix_pathOf {p : List Index} {j : Index} {va : Nat} (front : p ++ [j] <+: pathOf va) :
    p = [] ∧ j = pml4Index va ∨ p = [pml4Index va] ∧ j = pdptIndex va ∨
      p = [pml4Index va, pdptIndex va] ∧ j = pdIndex va := by
  rcases concat_prefix_concat (q := [pml4Index va, pdptIndex va]) front with last | front
  · exact .inr (.inr last)
  rcases concat_prefix_concat (q := [pml4Index va]) front with last | front
  · exact .inr (.inl last)
  rcases concat_prefix_concat (q := []) front with last | front
  · exact .inl last
  · simp at front

theorem map4k_traced {va : Nat} {pa : Frame} (supply : Supply scope root ready) (start : ready m)
    (paging : Paging scope m.mem root) (covered : pathOf va ∈ scope.paths) (done : map4k m root va pa flags = .ok m') :
    Traced scope root m.mem va flags (leafEntry pa flags) m'.mem := by
  have ⟨one, two, three⟩ := scope_above covered
  have ⟨_, m₁, _, m₂, leaf, m₃, first, second, third, after, ⟨_, grown₁, ready₁, at₁⟩, ⟨_, grown₂, ready₂, at₂⟩,
    _, grown₃, _, at₃⟩ := map4k_stages supply start paging covered done
  subst after
  obtain ⟨x₁, raises₁, after₁⟩ := tableGetOrCreate_raises supply start paging one rfl first
  obtain ⟨x₂, raises₂, after₂⟩ := tableGetOrCreate_raises supply ready₁ grown₁.paging two at₁ second
  obtain ⟨x₃, raises₃, after₃⟩ := tableGetOrCreate_raises supply ready₂ grown₂.paging covered at₂ third
  have onePath : ([] : List Index) ∈ scope.paths := scope.closed one
  have twoPath : [pml4Index va] ∈ scope.paths := scope.closed two
  have threePath : [pml4Index va, pdptIndex va] ∈ scope.paths := two
  have written : LeafWritten scope root m₃.mem (pathOf va) (ptIndex va) (leafEntry pa flags) _ :=
    leafWritten grown₃.paging covered rfl at₃
  -- the last store is in a table at depth three
  have inner : ∀ p ∈ scope.paths, ∀ j, ¬ (p = pathOf va ∧ j = ptIndex va) →
      leafAt (m₃.store leaf (ptIndex va) (leafEntry pa flags)).mem root p j = leafAt m₃.mem root p j := by
    intro p member j other
    apply leafAt_eq (written.tables p member)
    intro pt reached
    show write m₃.mem leaf (ptIndex va) (leafEntry pa flags) pt j = _
    rw [write_apply, if_neg]
    rintro ⟨rfl, rfl⟩
    exact other ⟨grown₃.paging.distinct p member _ covered pt reached at₃, rfl⟩
  have notPage : ∀ (p : List Index) (j : Index), p.length < 3 → ¬ (p = pathOf va ∧ j = ptIndex va) := by
    intro p j short same
    rw [same.1] at short
    exact absurd short (by simp [pathOf])
  refine ⟨?_, ?_, ?_⟩
  · refine (written.leaves _ covered rfl _).trans ?_
    rw [if_pos ⟨rfl, rfl⟩, isPresent_leafEntry, if_pos rfl]
  · intro p j front
    rcases concat_prefix_pathOf front with ⟨rfl, rfl⟩ | ⟨rfl, rfl⟩ | ⟨rfl, rfl⟩
    · refine ⟨x₁, ?_, raises₁⟩
      rw [inner _ onePath _ (notPage _ _ (by simp)), after₃ _ onePath, if_neg (by simp), after₂ _ onePath,
        if_neg (by simp), after₁ _ onePath, if_pos ⟨rfl, rfl⟩]
    · refine ⟨x₂, ?_, ?_⟩
      · rw [inner _ twoPath _ (notPage _ _ (by simp)), after₃ _ twoPath, if_neg (by simp), after₂ _ twoPath,
          if_pos ⟨rfl, rfl⟩]
      · rw [after₁ _ twoPath, if_neg (by simp)] at raises₂
        exact raises₂
    · refine ⟨x₃, ?_, ?_⟩
      · rw [inner _ threePath _ (notPage _ _ (by simp)), after₃ _ threePath, if_pos ⟨rfl, rfl⟩]
      · have raised : Raises flags (leafAt m₂.mem root [pml4Index va, pdptIndex va] (pdIndex va)) x₃ := raises₃
        rw [after₂ _ threePath, if_neg (by simp), after₁ _ threePath, if_neg (by simp)] at raised
        exact raised
  · intro p member j other outside
    have off₁ : ¬ (p = [] ∧ j = pml4Index va) := by
      rintro ⟨rfl, rfl⟩
      exact outside (by simp [pathOf])
    have off₂ : ¬ (p = [pml4Index va] ∧ j = pdptIndex va) := by
      rintro ⟨rfl, rfl⟩
      exact outside (by simp [pathOf])
    have off₃ : ¬ (p = [pml4Index va] ++ [pdptIndex va] ∧ j = pdIndex va) := by
      rintro ⟨rfl, rfl⟩
      exact outside (by simp [pathOf])
    rw [inner p member j other, after₃ p member, if_neg off₃, after₂ p member, if_neg off₂, after₁ p member,
      if_neg off₁]

end Steps

/-- Every entry above a page grants what the page's own entry grants, and forbids nothing. -/
structure Granting (scope : TableScope) (root : Frame) (mem : Memory) : Prop where
  executable : ∀ p j e, p ++ [j] ∈ scope.paths → leafAt mem root p j = some e → isNx e = false
  covers : ∀ path ∈ scope.paths, path.length = 3 → ∀ i e, leafAt mem root path i = some e →
    ∀ p j, p ++ [j] <+: path → ∃ x, leafAt mem root p j = some x ∧ Within e x

section Grants

variable {scope : TableScope} {root : Frame} {mem mem' : Memory} {va : Nat} {flags e : Entry}

theorem Granting.congr (granting : Granting scope root mem)
    (same : ∀ p ∈ scope.paths, ∀ j, p ++ [j] ∈ scope.paths ∨ p.length = 3 →
      leafAt mem' root p j = leafAt mem root p j) : Granting scope root mem' where
  executable := by
    intro p j e inside here
    rw [same p (scope.closed inside) j (.inl inside)] at here
    exact granting.executable p j e inside here
  covers := by
    intro path member deep i e here p j front
    rw [same path member i (.inr deep)] at here
    have inside : p ++ [j] ∈ scope.paths := mem_of_front member front
    rw [same p (scope.closed inside) j (.inl inside)]
    exact granting.covers path member deep i e here p j front

theorem Granting.map (granting : Granting scope root mem) (rights : SameRights e flags)
    (traced : Traced scope root mem va flags e mem') : Granting scope root mem' where
  executable := by
    intro p j x inside here
    by_cases front : p ++ [j] <+: pathOf va
    · obtain ⟨y, raised, raises⟩ := traced.above p j front
      cases here.symm.trans raised
      cases forbids : isNx x with
      | false => rfl
      | true =>
        obtain ⟨b, before, forbade⟩ := raises.executable forbids
        rw [granting.executable p j b inside before] at forbade
        cases forbade
    · have other : ¬ (p = pathOf va ∧ j = ptIndex va) := by
        rintro ⟨rfl, -⟩
        exact not_extended rfl inside
      rw [traced.others p (scope.closed inside) j other front] at here
      exact granting.executable p j x inside here
  covers := by
    intro path member deep i x here p j front
    by_cases new : path = pathOf va ∧ i = ptIndex va
    · obtain ⟨rfl, rfl⟩ := new
      cases here.symm.trans traced.page
      obtain ⟨y, raised, raises⟩ := traced.above p j front
      exact ⟨y, raised, rights.within raises.asked⟩
    · have old : leafAt mem root path i = some x := by
        rw [← traced.others path member i new]
        · exact here
        · intro leads
          have lengths := leads.length_le
          rw [List.length_append, deep] at lengths
          exact absurd lengths (by simp [pathOf])
      obtain ⟨y, before, within⟩ := granting.covers path member deep i x old p j front
      by_cases shared : p ++ [j] <+: pathOf va
      · obtain ⟨z, raised, raises⟩ := traced.above p j shared
        exact ⟨z, raised, within.trans (raises.granted y before)⟩
      · refine ⟨y, ?_, within⟩
        rw [traced.others p _ j _ shared]
        · exact before
        · exact scope.closed (mem_of_front member front)
        · rintro ⟨rfl, -⟩
          have lengths := front.length_le
          rw [List.length_append, deep] at lengths
          exact absurd lengths (by simp [pathOf])

/-- The CPU reaches a page through the three present entries above it. -/
theorem walkEntries_of_lookup (paging : Paging scope mem root) (covered : pathOf va ∈ scope.paths)
    (here : lookup mem root va = some e) : ∃ a b c, walkEntries mem root va = some [a, b, c, e] ∧
      leafAt mem root [] (pml4Index va) = some a ∧ leafAt mem root [pml4Index va] (pdptIndex va) = some b ∧
      leafAt mem root [pml4Index va, pdptIndex va] (pdIndex va) = some c := by
  rcases walk_cases mem root va with broken | ⟨pdpt, pd, pt, walked⟩
  · rw [lookup_of_broken broken] at here
    cases here
  obtain ⟨present₁, to₁⟩ := isPresent_of_entryChild walked.atPdpt
  obtain ⟨present₂, to₂⟩ := isPresent_of_entryChild walked.atPd
  obtain ⟨present₃, to₃⟩ := isPresent_of_entryChild walked.atPt
  obtain ⟨small₂, small₃⟩ := walked.small paging covered
  rw [walked.lookup_eq] at here
  split at here
  · rename_i present₄
    cases here
    refine ⟨mem root (pml4Index va), mem pdpt (pdptIndex va), mem pd (pdIndex va), ?_, ?_, ?_, ?_⟩
    · simp only [walkEntries, present₁, to₁, present₂, small₂, to₂, present₃, small₃, to₃, present₄]
      rfl
    · rw [leafAt, tableAt, nodeAt, Option.bind_some, if_pos present₁]
    · rw [leafAt, walked.tablePdpt, Option.bind_some, if_pos present₂]
    · rw [leafAt, walked.tablePd, Option.bind_some, if_pos present₃]
  · cases here

theorem Granting.walk (granting : Granting scope root mem) (paging : Paging scope mem root)
    (covered : pathOf va ∈ scope.paths) (here : lookup mem root va = some e) :
    ∃ entries, walkEntries mem root va = some entries ∧ entries.all isWritable = isWritable e ∧
      entries.all isUser = isUser e ∧ entries.any isNx = isNx e := by
  obtain ⟨a, b, c, walked, top, second, third⟩ := walkEntries_of_lookup paging covered here
  have ⟨one, two, three⟩ := scope_above covered
  have within : ∀ p j x, p ++ [j] <+: pathOf va → leafAt mem root p j = some x → Within e x := by
    intro p j x front at_
    obtain ⟨y, found, inside⟩ := granting.covers _ covered rfl _ _ here p j front
    cases at_.symm.trans found
    exact inside
  have all : ∀ x ∈ [a, b, c], Within e x := by
    simpa using ⟨within _ _ _ (by simp [pathOf]) top, within _ _ _ (by simp [pathOf]) second,
      within _ _ _ (by simp [pathOf]) third⟩
  refine ⟨[a, b, c] ++ [e], walked, (all_eq_last all).1, (all_eq_last all).2, ?_⟩
  simp [granting.executable _ _ _ one top, granting.executable _ _ _ two second, granting.executable _ _ _ three third]

end Grants

end CreeperKernel.Rights
