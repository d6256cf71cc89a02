import CreeperKernel.PageTableExtensions

namespace CreeperKernel.Vmm

open RadixTree

section Views

variable {scope : TableScope} {views later : List Index → Index → Option (Frame × Bool)} {q : List Index} {i : Index}

/-- An entry that leads to a table without entries is as good as none. -/
theorem Follows.translate_prune (follows : Follows scope views) (inside : q ++ [i] ∈ scope.paths)
    (edited : ∀ p ∈ scope.paths, ∀ j, later p j = if p = q ∧ j = i then none else views p j)
    (small : ∀ f, views q i ≠ some (f, true)) (empty : ∀ k, views (q ++ [i]) k = none) (va : Nat) :
    translate later va = translate views va := by
  -- wherever the entry is on the way, it leads to a table without entries
  have below : ∀ {p j} k, p = q ∧ j = i → views (p ++ [j]) k = none := by
    rintro p j k ⟨rfl, rfl⟩
    exact empty k
  have notHuge : ∀ {p j} f, p = q ∧ j = i → views p j ≠ some (f, true) := by
    rintro p j f ⟨rfl, rfl⟩
    exact small f
  unfold translate
  rw [edited [] follows.nil]
  by_cases here : [] = q ∧ pml4Index va = i
  · have nothing : views [pml4Index va] (pdptIndex va) = none := below _ here
    rw [if_pos here, nothing]
    cases views [] (pml4Index va) with
    | none => rfl
    | some v => rfl
  rw [if_neg here]
  cases first : views [] (pml4Index va) with
  | none => rfl
  | some v =>
    have one := follows.one first
    dsimp only
    rw [edited _ one]
    by_cases here : [pml4Index va] = q ∧ pdptIndex va = i
    · have nothing : views [pml4Index va, pdptIndex va] (pdIndex va) = none := below _ here
      rw [if_pos here, nothing]
      cases second : views [pml4Index va] (pdptIndex va) with
      | none => rfl
      | some v =>
        obtain ⟨f, huge⟩ := v
        cases huge with
        | true => exact absurd second (notHuge f here)
        | false => rfl
    rw [if_neg here]
    cases second : views [pml4Index va] (pdptIndex va) with
    | none => rfl
    | some v =>
      obtain ⟨pd, huge⟩ := v
      cases huge with
      | true => rfl
      | false =>
        have two := follows.two one second
        dsimp only
        rw [edited _ two]
        by_cases here : [pml4Index va, pdptIndex va] = q ∧ pdIndex va = i
        · have nothing : views (pathOf va) (ptIndex va) = none := below _ here
          rw [if_pos here, nothing]
          cases third : views [pml4Index va, pdptIndex va] (pdIndex va) with
          | none => rfl
          | some v =>
            obtain ⟨f, huge⟩ := v
            cases huge with
            | true => exact absurd third (notHuge f here)
            | false => rfl
        rw [if_neg here]
        cases third : views [pml4Index va, pdptIndex va] (pdIndex va) with
        | none => rfl
        | some v =>
          obtain ⟨pt, huge⟩ := v
          cases huge with
          | true => rfl
          | false =>
            have other : ¬ (pathOf va = q ∧ ptIndex va = i) := by
              intro same
              rw [← same.1] at inside
              exact not_extended (by rfl) inside
            dsimp only
            rw [edited _ (follows.three two third), if_neg other]

theorem Follows.prune (follows : Follows scope views)
    (edited : ∀ p ∈ scope.paths, ∀ j, later p j = if p = q ∧ j = i then none else views p j) :
    Follows scope later where
  nil := follows.nil
  top := by
    intro j f huge
    rw [edited [] follows.nil] at huge
    split at huge
    · cases huge
    · exact follows.top j f huge
  next := by
    intro p inside short j f small
    rw [edited p inside] at small
    split at small
    · cases small
    · exact follows.next p inside short j f small

end Views

/-- The views of a memory. -/
abbrev viewsOf (mem : Memory) (root : Frame) : List Index → Index → Option (Frame × Bool) :=
  fun p i => view (readEntry mem root p i)

section Translations

variable {σ : Type} [FrameAllocator σ] {scope : TableScope} {root table pdpt pd pt : Frame} {mem : Memory}
  {m : Machine σ} {q : List Index} {i : Index} {va : Nat}

theorem prune_translation {empty : Frame} (follows : Follows scope (viewsOf mem root)) (paging : Paging scope mem root)
    (inside : q ++ [i] ∈ scope.paths) (here : tableAt mem root q = some table)
    (below : tableAt mem root (q ++ [i]) = some empty) (zero : ∀ j, mem empty j = 0) :
    Follows scope (viewsOf (write mem table i 0) root) ∧
      ∀ a, pageDirVirtToPhys (write mem table i 0) root a = pageDirVirtToPhys mem root a := by
  have edited : ∀ p ∈ scope.paths, ∀ j, viewsOf (write mem table i 0) root p j =
      if p = q ∧ j = i then none else viewsOf mem root p j := by
    intro p member j
    rw [viewsOf, prune_edited paging inside here below zero p member j]
    split
    · exact view_of_absent isPresent_zero
    · rfl
  have child : entryChild (mem table i) = some empty := by
    rw [← nodeAt_concat_of here]
    exact below
  have read : readEntry mem root q i = mem table i := readAt_of here i
  have small : ∀ f, viewsOf mem root q i ≠ some (f, true) := by
    intro f huge
    have present := (isPresent_of_entryChild child).1
    rw [viewsOf, read, view_of_present present, paging.small q i table inside here present] at huge
    cases huge
  have nothing : ∀ k, viewsOf mem root (q ++ [i]) k = none := by
    intro k
    have blank : readEntry mem root (q ++ [i]) k = 0 := (readAt_of below k).trans (zero k)
    rw [viewsOf, blank]
    exact view_of_absent isPresent_zero
  apply And.intro (follows.prune edited)
  intro a
  rw [pageDirVirtToPhys_views, pageDirVirtToPhys_views]
  exact follows.translate_prune inside edited small nothing a

theorem pruneTables_translation (follows : Follows scope (viewsOf m.mem root)) (paging : Paging scope m.mem root)
    (covered : pathOf va ∈ scope.paths) (atPdpt : tableAt m.mem root [pml4Index va] = some pdpt)
    (atPd : tableAt m.mem root [pml4Index va, pdptIndex va] = some pd)
    (atPt : tableAt m.mem root (pathOf va) = some pt) (a : Nat) :
    pageDirVirtToPhys (pruneTables m root pdpt pd pt va).mem root a = pageDirVirtToPhys m.mem root a := by
  have ⟨one, two, three⟩ := scope_above covered
  unfold pruneTables
  split
  · rfl
  · rename_i emptyPt
    rw [not_not, tableIsEmpty_iff] at emptyPt
    have cut₁ := pruned paging three atPd atPt emptyPt
    have ⟨follows₁, same₁⟩ := prune_translation follows paging three atPd atPt emptyPt
    have atPdpt₁ := (cut₁.above one (by simp)).trans atPdpt
    have atPd₁ := (cut₁.above two (by simp)).trans atPd
    dsimp only
    split
    · exact same₁ a
    · rename_i emptyPd
      rw [not_not, tableIsEmpty_iff] at emptyPd
      have cut₂ := pruned cut₁.paging two atPdpt₁ atPd₁ emptyPd
      have ⟨follows₂, same₂⟩ := prune_translation follows₁ cut₁.paging two atPdpt₁ atPd₁ emptyPd
      have atPdpt₂ := (cut₂.above one (by simp)).trans atPdpt₁
      split
      · exact (same₂ a).trans (same₁ a)
      · rename_i emptyPdpt
        rw [not_not, tableIsEmpty_iff] at emptyPdpt
        have ⟨_, same₃⟩ := prune_translation follows₂ cut₂.paging one rfl atPdpt₂ emptyPdpt
        exact ((same₃ a).trans (same₂ a)).trans (same₁ a)

/-- Where no huge page is in the way, both routines clear the same entry. -/
theorem unmaps_agree (formed : PageTree m.mem root) (covered : pathOf va ∈ (smallScope m.mem root).paths) (a : Nat) :
    pageDirVirtToPhys (unmap4k m root va).mem root a = pageDirVirtToPhys (vmmUnmapPage m root va).mem root a := by
  have paging := formed.paging
  rcases walk_cases m.mem root va with broken | ⟨pdpt, pd, pt, walked⟩
  · rw [unmap4k_of_broken broken, vmmUnmapPage_of_broken broken]
  have written : LeafWritten (smallScope m.mem root) root m.mem (pathOf va) (ptIndex va) 0
      (write m.mem pt (ptIndex va) 0) := leafWritten paging covered rfl walked.tablePt
  have edited := leaf_edited (i := ptIndex va) (e := 0) paging covered rfl walked.tablePt
  have cleared : ∀ p ∈ (smallScope m.mem root).paths, ∀ j, viewsOf (write m.mem pt (ptIndex va) 0) root p j =
      if p = pathOf va ∧ j = ptIndex va then none else viewsOf m.mem root p j := by
    intro p member j
    rw [viewsOf, edited p member j]
    split
    · exact view_of_absent isPresent_zero
    · rfl
  have two : [pml4Index va, pdptIndex va] ∈ (smallScope m.mem root).paths :=
    (smallScope m.mem root).closed (i := pdIndex va) covered
  have one : [pml4Index va] ∈ (smallScope m.mem root).paths :=
    (smallScope m.mem root).closed (i := pdptIndex va) two
  have pruning := pruneTables_translation (m := m.store pt (ptIndex va) 0) (formed.follows.prune cleared)
    written.paging covered ((written.tables _ one).trans walked.tablePdpt)
    ((written.tables _ two).trans walked.tablePd) ((written.tables _ covered).trans walked.tablePt) a
  rw [walked.vmmUnmapPage_eq paging covered, walked.unmap4k_eq paging covered, pruning]
  split
  · split
    · rfl
    · rfl
  · rename_i absent
    -- `unmap_4k` leaves the entry alone, which was not present
    have read : readEntry m.mem root (pathOf va) (ptIndex va) = m.mem pt (ptIndex va) := readAt_of walked.tablePt _
    symm
    apply formed.translation
    intro p member j
    show viewsOf (write m.mem pt (ptIndex va) 0) root p j = viewsOf m.mem root p j
    rw [cleared p member j]
    split
    · rename_i on
      rw [on.1, on.2, viewsOf, read]
      exact (view_of_absent (Bool.eq_false_of_not_eq_true absent)).symm
    · rfl

end Translations

/-- A 1 GiB page translates `va`. -/
def Covers1G (mem : Memory) (root : Frame) (va : Nat) : Prop :=
  let pml4e := mem root (pml4Index va)
  let pdpte := mem (frameOf pml4e) (pdptIndex va)
  isPresent pml4e = true ∧ isPresent pdpte = true ∧ isHuge pdpte = true

/-- A 2 MiB page translates `va`. -/
def Covers2M (mem : Memory) (root : Frame) (va : Nat) : Prop :=
  let pml4e := mem root (pml4Index va)
  let pdpte := mem (frameOf pml4e) (pdptIndex va)
  let pde := mem (frameOf pdpte) (pdIndex va)
  isPresent pml4e = true ∧ isPresent pdpte = true ∧ isHuge pdpte = false ∧ isPresent pde = true ∧ isHuge pde = true

/-- A 1 GiB page translates `va`, and its contents look like a page directory and a page
table with a present entry for `va`. -/
def StrayWalk (mem : Memory) (root : Frame) (va : Nat) : Prop :=
  let pdpte := mem (frameOf (mem root (pml4Index va))) (pdptIndex va)
  let pde := mem (frameOf pdpte) (pdIndex va)
  Covers1G mem root va ∧ isPresent pde = true ∧ isHuge pde = false ∧
    isPresent (mem (frameOf pde) (ptIndex va)) = true

section Huge

variable {σ : Type} [FrameAllocator σ] {m : Machine σ} {root : Frame} {va : Nat}

theorem unmap4k_of_1G (covers : Covers1G m.mem root va) (harmless : ¬ StrayWalk m.mem root va) : unmap4k m root va = m := by
  have ⟨first, second, _⟩ := covers
  unfold unmap4k
  dsimp only
  rw [if_neg (not_not.mpr first), if_neg (not_not.mpr second)]
  split
  · rfl
  split
  · rfl
  split
  · rfl
  · rename_i present small leaf
    exact absurd ⟨covers, not_not.mp present, Bool.eq_false_of_not_eq_true small, not_not.mp leaf⟩ harmless

/-- The contents of the page are taken for tables. -/
theorem unmap4k_of_stray (stray : StrayWalk m.mem root va) : ∃ f i, isPresent (m.mem f i) = true ∧
    (unmap4k m root va).mem f i = 0 := by
  have ⟨⟨first, second, _⟩, third, small, leaf⟩ := stray
  refine ⟨_, _, leaf, ?_⟩
  unfold unmap4k
  dsimp only
  rw [if_neg (not_not.mpr first), if_neg (not_not.mpr second), if_neg (not_not.mpr third), small,
    if_neg Bool.false_ne_true, if_neg (not_not.mpr leaf)]
  split
  · exact write_self ..
  · exact write_self ..

theorem vmmUnmapPage_of_1G (covers : Covers1G m.mem root va) : vmmUnmapPage m root va = m := by
  have ⟨first, second, huge⟩ := covers
  unfold vmmUnmapPage
  dsimp only
  rw [if_neg (not_not.mpr first), if_pos (.inr huge)]

theorem unmap4k_of_2M (covers : Covers2M m.mem root va) : unmap4k m root va = m := by
  have ⟨first, second, _, third, huge⟩ := covers
  unfold unmap4k
  dsimp only
  rw [if_neg (not_not.mpr first), if_neg (not_not.mpr second), if_neg (not_not.mpr third), if_pos huge]

theorem vmmUnmapPage_of_2M (covers : Covers2M m.mem root va) : vmmUnmapPage m root va = m := by
  have ⟨first, second, small, third, huge⟩ := covers
  unfold vmmUnmapPage
  dsimp only
  rw [if_neg (not_not.mpr first), if_neg, if_pos (.inr huge)]
  rw [small, second]
  decide

theorem PageTree.covered {mem : Memory} (formed : PageTree mem root) (no1G : ¬ Covers1G mem root va)
    (no2M : ¬ Covers2M mem root va) : pathOf va ∈ (smallScope mem root).paths := by
  have one := formed.first va
  have top : readEntry mem root [] (pml4Index va) = mem root (pml4Index va) := readAt_of (nodeAt_nil root) _
  have present_of : ∀ {e : Entry} {v : Frame × Bool}, view e = some v → isPresent e = true ∧ isHuge e = v.2 := by
    intro e v read
    have present : isPresent e = true := by
      rw [isPresent_eq_view, read, Option.isSome_some]
    rw [view_of_present present] at read
    exact ⟨present, congrArg Prod.snd (Option.some.inj read)⟩
  have two : [pml4Index va, pdptIndex va] ∈ (smallScope mem root).paths := by
    apply smallScope_two one
    intro f huge
    have ⟨second, size⟩ := present_of huge
    have first : isPresent (readEntry mem root [] (pml4Index va)) = true := present_of_below second
    have read : readEntry mem root [pml4Index va] (pdptIndex va) = _ := readEntry_step first _
    rw [read] at second size
    rw [top] at first second size
    exact no1G ⟨first, second, size⟩
  apply smallScope_pathOf two
  intro f huge
  have ⟨third, size⟩ := present_of huge
  have second : isPresent (readEntry mem root [pml4Index va] (pdptIndex va)) = true := present_of_below third
  have first : isPresent (readEntry mem root [] (pml4Index va)) = true := present_of_below second
  have small := two.2 [pml4Index va] (pdptIndex va) (List.prefix_refl _) second
  have read₂ : readEntry mem root [pml4Index va] (pdptIndex va) = _ := readEntry_step first _
  have read₃ : readEntry mem root [pml4Index va, pdptIndex va] (pdIndex va) = _ := readEntry_step second _
  rw [read₃] at third size
  rw [read₂] at second small third size
  rw [top] at first second small third size
  exact no2M ⟨first, second, small, third, size⟩

end Huge

/-- **The two unmap routines agree** exactly where `unmap_4k` does not take the contents of a
1 GiB page for page tables. -/
theorem unmaps_agree_iff {σ : Type} [FrameAllocator σ] (m : Machine σ) (root : Frame) (va : Nat)
    (formed : PageTree m.mem root) :
    ((∀ a, pageDirVirtToPhys (unmap4k m root va).mem root a =
        pageDirVirtToPhys (vmmUnmapPage m root va).mem root a) ∧
      (Covers1G m.mem root va ∨ Covers2M m.mem root va →
        (unmap4k m root va).mem = m.mem ∧ (vmmUnmapPage m root va).mem = m.mem)) ↔
      ¬ StrayWalk m.mem root va := by
  constructor
  · intro ⟨_, untouched⟩ stray
    obtain ⟨f, i, present, zero⟩ := unmap4k_of_stray stray
    rw [(untouched (.inl stray.1)).1] at zero
    rw [zero] at present
    cases present
  · intro harmless
    by_cases by1G : Covers1G m.mem root va
    · rw [unmap4k_of_1G by1G harmless, vmmUnmapPage_of_1G by1G]
      exact ⟨fun _ => rfl, fun _ => ⟨rfl, rfl⟩⟩
    by_cases by2M : Covers2M m.mem root va
    · rw [unmap4k_of_2M by2M, vmmUnmapPage_of_2M by2M]
      exact ⟨fun _ => rfl, fun _ => ⟨rfl, rfl⟩⟩
    · exact ⟨unmaps_agree formed (formed.covered by1G by2M), fun covers => (covers.elim by1G by2M).elim⟩

/-- The direct map of the first 512 GiB in pages of 1 GiB, with the PML4 in frame 1, over
data in which a word at 1 GiB and one in frame 3 are odd. -/
def directMap : Memory := fun f i =>
  if f = pageAt 1 then if i = 256 then tableEntry (pageAt 2) pteWritable else 0
  else if f = pageAt 2 then pageAt (i.val * 2 ^ 18) ||| (ptePresent ||| pteWritable ||| pteNx ||| pteHuge)
  else if f = pageAt (2 ^ 18) ∧ i = 5 then 0x3001
  else if f = pageAt 3 ∧ i = 7 then 1
  else 0

theorem directMap_huge (i : Index) : isPresent (directMap (pageAt 2) i) = true ∧ isHuge (directMap (pageAt 2) i) = true := by
  have entry : directMap (pageAt 2) i =
      pageAt (i.val * 2 ^ 18) ||| (ptePresent ||| pteWritable ||| pteNx ||| pteHuge) := by
    rw [directMap, if_neg (by decide), if_pos rfl]
  have flags : isPresent (ptePresent ||| pteWritable ||| pteNx ||| pteHuge) = true ∧
      isHuge (ptePresent ||| pteWritable ||| pteNx ||| pteHuge) = true := by decide
  rw [entry, isPresent_or, isHuge_or, flags.1, flags.2, Bool.or_true, Bool.or_true]
  exact ⟨rfl, rfl⟩

theorem directMap_tables {p : List Index} {f : Frame} (inside : p ∈ (smallScope directMap (pageAt 1)).paths)
    (reached : tableAt directMap (pageAt 1) p = some f) : p = [] ∧ f = pageAt 1 ∨ p = [256] ∧ f = pageAt 2 := by
  have top : ∀ i : Index, entryChild (directMap (pageAt 1) i) = if i = 256 then some (pageAt 2) else none := by
    intro i
    rw [directMap, if_pos rfl]
    split
    · decide
    · exact entryChild_zero
  cases p with
  | nil => exact .inl ⟨rfl, (Option.some.inj reached).symm⟩
  | cons i p =>
    rw [tableAt, nodeAt, top] at reached
    by_cases slot : i = 256
    · rw [if_pos slot, Option.bind_some] at reached
      cases p with
      | nil => exact .inr ⟨by rw [slot], (Option.some.inj reached).symm⟩
      | cons j p =>
        -- every entry of the second table is a huge page
        have here : tableAt directMap (pageAt 1) [256] = some (pageAt 2) := by
          rw [tableAt, nodeAt, top, if_pos rfl]
          rfl
        have read : readEntry directMap (pageAt 1) [256] j = directMap (pageAt 2) j := readAt_of here j
        have front : [256] ++ [j] <+: i :: j :: p := ⟨p, by rw [slot]; rfl⟩
        have small := inside.2 [256] j front
        rw [read, (directMap_huge j).1, (directMap_huge j).2] at small
        cases small rfl
    · rw [if_neg slot, Option.bind_none] at reached
      cases reached

theorem directMap_tree : PageTree directMap (pageAt 1) := by
  constructor
  · intro p first q second f left right
    have apart : pageAt 1 ≠ pageAt 2 := by decide
    rcases directMap_tables first left with ⟨rfl, rfl⟩ | ⟨rfl, rfl⟩
    · rcases directMap_tables second right with ⟨rfl, _⟩ | ⟨_, same⟩
      · rfl
      · exact absurd same apart
    · rcases directMap_tables second right with ⟨_, same⟩ | ⟨rfl, _⟩
      · exact absurd same.symm apart
      · rfl
  · intro i _
    rw [directMap, if_pos rfl]
    split
    · exact isHuge_tableEntry _ _
    · decide

/-- `unmap_4k` of an address of the direct map clears a word of physical memory that is
mapped, far from the page that was to be unmapped. -/
theorem unmap_clears_data : ∃ (m : Machine (List Frame)) (root : Frame) (va a : Nat),
    PageTree m.mem root ∧ Covers1G m.mem root va ∧
    pageDirVirtToPhys m.mem root a = pageAt 3 ||| 0x38 ∧ m.mem (pageAt 3) 7 = 1 ∧
    (unmap4k m root va).mem (pageAt 3) 7 = 0 ∧ (vmmUnmapPage m root va).mem (pageAt 3) 7 = 1 := by
  refine ⟨⟨directMap, []⟩, pageAt 1, hhdmVbase + 2 ^ 30 + 5 * 2 ^ 21 + 7 * 2 ^ 12, hhdmVbase + 0x3038, directMap_tree,
    ?_, ?_, ?_, ?_, ?_⟩
  · unfold Covers1G
    decide +kernel
  · decide +kernel
  · decide +kernel
  · decide +kernel
  · decide +kernel

/-- At the start of the direct map nothing looks like a table. -/
theorem unmaps_agree_iff_hhdm :
    (∀ a, pageDirVirtToPhys (unmap4k (Machine.mk directMap ([] : List Frame)) (pageAt 1) hhdmVbase).mem (pageAt 1) a =
      pageDirVirtToPhys (vmmUnmapPage (Machine.mk directMap ([] : List Frame)) (pageAt 1) hhdmVbase).mem (pageAt 1) a) ∧
    (Covers1G directMap (pageAt 1) hhdmVbase ∨ Covers2M directMap (pageAt 1) hhdmVbase →
      (unmap4k (Machine.mk directMap ([] : List Frame)) (pageAt 1) hhdmVbase).mem = directMap ∧
      (vmmUnmapPage (Machine.mk directMap ([] : List Frame)) (pageAt 1) hhdmVbase).mem = directMap) := by
  apply (unmaps_agree_iff ⟨directMap, ([] : List Frame)⟩ (pageAt 1) hhdmVbase directMap_tree).mpr
  intro ⟨_, present, _⟩
  exact absurd present (by decide +kernel)

end CreeperKernel.Vmm
