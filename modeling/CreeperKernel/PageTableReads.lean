import CreeperKernel.PageTableRuns

namespace CreeperKernel.Vmm

open RadixTree

/-- The entry with index `i` of the table at `path`. A table that is not there reads as
zeros. -/
abbrev readEntry (mem : Memory) (root : Frame) (path : List Index) (i : Index) : Entry :=
  readAt entryChild 0 mem root path i

/-- What a walk takes from an entry: where it leads, and the size bit. -/
def view (e : Entry) : Option (Frame × Bool) :=
  if isPresent e then some (frameOf e, isHuge e) else none

variable {e : Entry}

theorem view_of_present (present : isPresent e = true) : view e = some (frameOf e, isHuge e) :=
  if_pos present

theorem view_of_absent (absent : isPresent e = false) : view e = none := by
  rw [view, absent]
  exact if_neg (by decide)

theorem isPresent_eq_view (e : Entry) : isPresent e = (view e).isSome := by
  cases present : isPresent e with
  | true => rw [view_of_present present, Option.isSome_some]
  | false => rw [view_of_absent present, Option.isSome_none]

theorem isPresent_congr {a b : Entry} (same : view a = view b) : isPresent a = isPresent b := by
  rw [isPresent_eq_view, isPresent_eq_view, same]

theorem entryChild_eq_view (e : Entry) : entryChild e = (view e).map Prod.fst := by
  cases present : isPresent e with
  | true => rw [view_of_present present, entryChild_of_present present, Option.map_some]
  | false => rw [view_of_absent present, entryChild_of_absent present, Option.map_none]

section Pages

variable {σ : Type} [FrameAllocator σ] {scope : TableScope} {root : Frame} {m m' : Machine σ} {mem after : Memory}
  {va a : Nat} {e : Entry} {taken : List Frame}

theorem Mapped.lookup_self (mapped : Mapped scope root m va e taken m') (covered : pathOf va ∈ scope.paths) :
    lookup m'.mem root va = some e :=
  (mapped.leaves _ covered rfl _).trans (if_pos ⟨rfl, rfl⟩)

theorem Mapped.lookup_other (mapped : Mapped scope root m va e taken m') (covered : pathOf a ∈ scope.paths)
    (other : vpn a ≠ vpn va) : lookup m'.mem root a = lookup m.mem root a :=
  (mapped.leaves _ covered rfl _).trans (if_neg fun same => other ((same_page_iff a va).mp same))

end Pages

section Reads

variable {mem after : Memory} {root : Frame} {p q : List Index} {i j : Index}

theorem tableAt_concat (mem : Memory) (root : Frame) (p : List Index) (i : Index) :
    tableAt mem root (p ++ [i]) = entryChild (readEntry mem root p i) :=
  nodeAt_concat_readAt entryChild_zero p i

theorem readEntry_below_absent (absent : isPresent (readEntry mem root p i) = false) (j : Index) :
    readEntry mem root (p ++ [i]) j = 0 := by
  apply readAt_of_none
  rw [← tableAt, tableAt_concat, entryChild_of_absent absent]

theorem readEntry_step (present : isPresent (readEntry mem root p i) = true) (j : Index) :
    readEntry mem root (p ++ [i]) j = mem (frameOf (readEntry mem root p i)) j := by
  apply readAt_of
  rw [← tableAt, tableAt_concat, entryChild_of_present present]

theorem present_of_below (present : isPresent (readEntry mem root (p ++ [i]) j) = true) :
    isPresent (readEntry mem root p i) = true := by
  by_contra absent
  rw [readEntry_below_absent (Bool.eq_false_of_not_eq_true absent)] at present
  cases present

theorem present_above_table {f : Frame} (here : tableAt mem root q = some f) (above : p ++ [j] <+: q) :
    isPresent (readEntry mem root p j) = true := by
  obtain ⟨rest, rfl⟩ := above
  rw [tableAt, nodeAt_append] at here
  obtain ⟨next, reached, _⟩ := Option.bind_eq_some_iff.mp here
  rw [← tableAt, tableAt_concat] at reached
  exact (isPresent_of_entryChild reached).1

variable {scope : TableScope}

theorem tableAt_of_views (same : ∀ p ∈ scope.paths, ∀ i, view (readEntry after root p i) = view (readEntry mem root p i)) :
    ∀ p ∈ scope.paths, tableAt after root p = tableAt mem root p := by
  intro p
  induction p using List.reverseRecOn with
  | nil =>
    intro _
    rfl
  | append_singleton p i _ =>
    intro inside
    rw [tableAt_concat, tableAt_concat, entryChild_eq_view, entryChild_eq_view, same p (scope.closed inside)]

theorem readEntry_of_tables (same : ∀ f, IsTable scope mem root f → after f = mem f) :
    ∀ p ∈ scope.paths, ∀ i, readEntry after root p i = readEntry mem root p i := by
  have tables : ∀ p ∈ scope.paths, tableAt after root p = tableAt mem root p := by
    apply nodeAt_congr
    intro p i f extended reached
    rw [same f ⟨p, scope.closed extended, reached⟩]
  intro p member i
  cases reached : tableAt mem root p with
  | none => rw [readEntry, readEntry, readAt_of_none reached, readAt_of_none ((tables p member).trans reached)]
  | some f =>
    rw [readEntry, readEntry, readAt_of reached, readAt_of ((tables p member).trans reached),
      same f ⟨p, member, reached⟩]

theorem Paging.of_tables (paging : Paging scope mem root) (same : ∀ f, IsTable scope mem root f → after f = mem f) :
    Paging scope after root := by
  have tables : ∀ p ∈ scope.paths, tableAt after root p = tableAt mem root p := by
    apply tableAt_of_views
    intro p member i
    rw [readEntry_of_tables same p member i]
  apply Paging.mk (paging.distinct.congr tables)
  intro p i f extended reached present
  rw [tables p (scope.closed extended)] at reached
  rw [same f ⟨p, scope.closed extended, reached⟩] at present ⊢
  exact paging.small p i f extended reached present

end Reads

/-- `page_dir_virt_to_phys` as a function of what it reads. -/
def translate (views : List Index → Index → Option (Frame × Bool)) (va : Nat) : BitVec 64 :=
  match views [] (pml4Index va) with
  | none => notMapped
  | some _ =>
    match views [pml4Index va] (pdptIndex va) with
    | none => notMapped
    | some (f, true) => f ||| BitVec.ofNat 64 (va % 2 ^ 30)
    | some (_, false) =>
      match views [pml4Index va, pdptIndex va] (pdIndex va) with
      | none => notMapped
      | some (f, true) => f ||| BitVec.ofNat 64 (va % 2 ^ 21)
      | some (_, false) =>
        match views (pathOf va) (ptIndex va) with
        | none => notMapped
        | some (f, _) => f ||| BitVec.ofNat 64 (va % 2 ^ 12)

theorem pageDirVirtToPhys_views (mem : Memory) (root : Frame) (va : Nat) :
    pageDirVirtToPhys mem root va = translate (fun p i => view (readEntry mem root p i)) va := by
  have pml4e : readEntry mem root [] (pml4Index va) = mem root (pml4Index va) := readAt_of (nodeAt_nil root) _
  unfold pageDirVirtToPhys translate
  dsimp only
  rw [← pml4e]
  cases first : isPresent (readEntry mem root [] (pml4Index va)) with
  | false => simp [view_of_absent first]
  | true =>
    have pdpte : readEntry mem root [pml4Index va] (pdptIndex va) = _ := readEntry_step first _
    rw [← pdpte, view_of_present first]
    cases second : isPresent (readEntry mem root [pml4Index va] (pdptIndex va)) with
    | false => simp [view_of_absent second]
    | true =>
      have pde : readEntry mem root [pml4Index va, pdptIndex va] (pdIndex va) = _ := readEntry_step second _
      rw [← pde, view_of_present second]
      cases isHuge (readEntry mem root [pml4Index va] (pdptIndex va)) with
      | true => simp
      | false =>
        cases third : isPresent (readEntry mem root [pml4Index va, pdptIndex va] (pdIndex va)) with
        | false => simp [view_of_absent third]
        | true =>
          have pte : readEntry mem root (pathOf va) (ptIndex va) = _ := readEntry_step third _
          rw [← pte, view_of_present third]
          cases isHuge (readEntry mem root [pml4Index va, pdptIndex va] (pdIndex va)) with
          | true => simp
          | false =>
            cases fourth : isPresent (readEntry mem root (pathOf va) (ptIndex va)) with
            | false => simp [view_of_absent fourth]
            | true => simp [view_of_present fourth]

/-- The paths that no huge page of `mem` cuts off. -/
def smallScope (mem : Memory) (root : Frame) : TableScope where
  paths := {p | p.length ≤ 3 ∧ ∀ q i, q ++ [i] <+: p → isPresent (readEntry mem root q i) = true →
    isHuge (readEntry mem root q i) = false}
  closed := by
    intro p i inside
    have shorter : p <+: p ++ [i] := List.prefix_append p [i]
    exact ⟨shorter.length_le.trans inside.1, fun q j front => inside.2 q j (front.trans shorter)⟩
  depth := fun _ inside => inside.1

/-- A page table whose tables, as far as they are reached without a huge page, form a
tree. The size bit of a PML4 entry is reserved. -/
structure PageTree (mem : Memory) (root : Frame) : Prop where
  tree : Distinct entryChild (smallScope mem root).toScope mem root
  top : ∀ i, isPresent (mem root i) = true → isHuge (mem root i) = false

section Small

variable {mem after : Memory} {root : Frame} {p : List Index} {i : Index} {va : Nat}

theorem smallScope_nil (mem : Memory) (root : Frame) : [] ∈ (smallScope mem root).paths := by
  apply And.intro (Nat.zero_le 3)
  intro q i front
  simp at front

variable {e : Entry}

theorem small_of_view (small : ∀ f, view e ≠ some (f, true)) (present : isPresent e = true) : isHuge e = false := by
  by_contra huge
  apply small (frameOf e)
  rw [view_of_present present, Bool.eq_true_of_not_eq_false huge]

theorem smallScope_concat (inside : p ∈ (smallScope mem root).paths) (short : p.length < 3)
    (small : isPresent (readEntry mem root p i) = true → isHuge (readEntry mem root p i) = false) :
    p ++ [i] ∈ (smallScope mem root).paths := by
  constructor
  · rw [List.length_append, List.length_singleton]
    omega
  · intro q j front
    rcases concat_prefix_concat front with ⟨rfl, rfl⟩ | before
    · exact small
    · exact inside.2 q j before

theorem PageTree.paging (formed : PageTree mem root) : Paging (smallScope mem root) mem root := by
  apply Paging.mk formed.tree
  intro p i f extended reached present
  have read : readEntry mem root p i = mem f i := readAt_of reached i
  rw [← read] at present ⊢
  exact extended.2 p i (List.prefix_refl _) present

theorem PageTree.first (formed : PageTree mem root) (va : Nat) : [pml4Index va] ∈ (smallScope mem root).paths := by
  apply smallScope_concat (smallScope_nil mem root) (by decide)
  have read : readEntry mem root [] (pml4Index va) = mem root (pml4Index va) := readAt_of (nodeAt_nil root) _
  rw [read]
  exact formed.top _

theorem smallScope_two (first : [pml4Index va] ∈ (smallScope mem root).paths)
    (small : ∀ f, view (readEntry mem root [pml4Index va] (pdptIndex va)) ≠ some (f, true)) :
    [pml4Index va, pdptIndex va] ∈ (smallScope mem root).paths :=
  smallScope_concat first (Nat.succ_lt_succ Nat.zero_lt_two) (small_of_view small)

theorem smallScope_pathOf (second : [pml4Index va, pdptIndex va] ∈ (smallScope mem root).paths)
    (small : ∀ f, view (readEntry mem root [pml4Index va, pdptIndex va] (pdIndex va)) ≠ some (f, true)) :
    pathOf va ∈ (smallScope mem root).paths :=
  smallScope_concat second (Nat.lt_succ_self 2) (small_of_view small)

/-- Every walk stays inside the scope until it ends. -/
structure Follows (scope : TableScope) (views : List Index → Index → Option (Frame × Bool)) : Prop where
  nil : [] ∈ scope.paths
  top : ∀ i f, views [] i ≠ some (f, true)
  next : ∀ p ∈ scope.paths, p.length < 3 → ∀ i f, views p i = some (f, false) → p ++ [i] ∈ scope.paths

section Follows

variable {scope : TableScope} {views later : List Index → Index → Option (Frame × Bool)}

theorem Follows.one (follows : Follows scope views) {v : Frame × Bool} (first : views [] (pml4Index va) = some v) :
    [pml4Index va] ∈ scope.paths := by
  obtain ⟨f, huge⟩ := v
  cases huge with
  | true => exact absurd first (follows.top _ f)
  | false => exact follows.next [] follows.nil (Nat.zero_lt_succ 2) _ f first

variable {f : Frame}

theorem Follows.two (follows : Follows scope views) (one : [pml4Index va] ∈ scope.paths)
    (second : views [pml4Index va] (pdptIndex va) = some (f, false)) : [pml4Index va, pdptIndex va] ∈ scope.paths :=
  follows.next _ one (Nat.succ_lt_succ Nat.zero_lt_two) _ f second

theorem Follows.three (follows : Follows scope views) (two : [pml4Index va, pdptIndex va] ∈ scope.paths)
    (third : views [pml4Index va, pdptIndex va] (pdIndex va) = some (f, false)) : pathOf va ∈ scope.paths :=
  follows.next _ two (Nat.lt_succ_self 2) _ f third

/-- The translation of every address depends on the entries of the scope only. -/
theorem Follows.translate_congr (follows : Follows scope views) (same : ∀ p ∈ scope.paths, ∀ i, later p i = views p i)
    (va : Nat) : translate later va = translate views va := by
  unfold translate
  rw [same [] follows.nil]
  cases first : views [] (pml4Index va) with
  | none => rfl
  | some _ =>
    have one := follows.one first
    rw [same _ one]
    cases second : views [pml4Index va] (pdptIndex va) with
    | none => rfl
    | some v =>
      obtain ⟨pd, huge⟩ := v
      cases huge with
      | true => rfl
      | false =>
        have two := follows.two one second
        rw [same _ two]
        cases third : views [pml4Index va, pdptIndex va] (pdIndex va) with
        | none => rfl
        | some v =>
          obtain ⟨pt, huge⟩ := v
          cases huge with
          | true => rfl
          | false => rw [same _ (follows.three two third)]

/-- A translation lasts as long as the entries it goes through. -/
theorem Follows.translate_kept (follows : Follows scope views)
    (kept : ∀ p ∈ scope.paths, ∀ i, views p i ≠ none → later p i = views p i)
    (mapped : translate views va ≠ notMapped) : translate later va = translate views va := by
  have keep : ∀ {p : List Index} {i : Index} {v : Frame × Bool}, p ∈ scope.paths → views p i = some v →
      later p i = some v := by
    intro p i v inside found
    rw [kept p inside i (by rw [found]; exact Option.some_ne_none v), found]
  unfold translate at mapped ⊢
  cases first : views [] (pml4Index va) with
  | none =>
    rw [first] at mapped
    exact absurd rfl mapped
  | some v =>
    have one := follows.one first
    rw [keep follows.nil first]
    rw [first] at mapped
    dsimp only at mapped ⊢
    cases second : views [pml4Index va] (pdptIndex va) with
    | none =>
      rw [second] at mapped
      exact absurd rfl mapped
    | some v =>
      obtain ⟨pd, huge⟩ := v
      rw [keep one second]
      rw [second] at mapped
      cases huge with
      | true => rfl
      | false =>
        have two := follows.two one second
        dsimp only at mapped ⊢
        cases third : views [pml4Index va, pdptIndex va] (pdIndex va) with
        | none =>
          rw [third] at mapped
          exact absurd rfl mapped
        | some v =>
          obtain ⟨pt, huge⟩ := v
          rw [keep two third]
          rw [third] at mapped
          cases huge with
          | true => rfl
          | false =>
            dsimp only at mapped ⊢
            cases fourth : views (pathOf va) (ptIndex va) with
            | none =>
              rw [fourth] at mapped
              exact absurd rfl mapped
            | some v => rw [keep (follows.three two third) fourth]

end Follows

theorem PageTree.follows (formed : PageTree mem root) :
    Follows (smallScope mem root) fun p i => view (readEntry mem root p i) where
  nil := smallScope_nil mem root
  top := by
    intro i f huge
    have read : readEntry mem root [] i = mem root i := readAt_of (nodeAt_nil root) _
    rw [read, view] at huge
    split at huge
    · rename_i present
      have small := congrArg Prod.snd (Option.some.inj huge)
      rw [formed.top i present] at small
      cases small
    · cases huge
  next := by
    intro p inside short i f small
    apply smallScope_concat inside short
    apply small_of_view
    intro g huge
    rw [small] at huge
    cases huge

theorem PageTree.translation (formed : PageTree mem root) (same : ∀ p ∈ (smallScope mem root).paths, ∀ i,
      view (readEntry after root p i) = view (readEntry mem root p i)) (va : Nat) :
    pageDirVirtToPhys after root va = pageDirVirtToPhys mem root va := by
  rw [pageDirVirtToPhys_views, pageDirVirtToPhys_views]
  exact formed.follows.translate_congr same va

variable {offset : Nat}

theorem frameOf_or_ne_notMapped (e : Entry) (low : offset < 2 ^ 30) : frameOf e ||| BitVec.ofNat 64 offset ≠ notMapped := by
  intro same
  have bits := congrArg (fun x => BitVec.getLsbD x 63) same
  have mask : pteAddrMask.getLsbD 63 = false := by decide
  have small : offset.testBit 63 = false := Nat.testBit_lt_two_pow (Nat.lt_trans low (by decide))
  have ones : notMapped.getLsbD 63 = true := by decide
  simp only [frameOf, BitVec.getLsbD_or, BitVec.getLsbD_and, BitVec.getLsbD_ofNat, mask, small, ones,
    Bool.and_false, Bool.or_false, Bool.false_eq_true] at bits

theorem view_or_ne_notMapped {v : Frame × Bool} (read : view e = some v) (low : offset < 2 ^ 30) :
    v.1 ||| BitVec.ofNat 64 offset ≠ notMapped := by
  unfold view at read
  split at read
  · cases read
    exact frameOf_or_ne_notMapped e low
  · cases read

theorem view_of_small (inside : p ++ [i] ∈ (smallScope mem root).paths)
    (present : isPresent (readEntry mem root p i) = true) :
    view (readEntry mem root p i) = some (frameOf (readEntry mem root p i), false) := by
  rw [view_of_present present, inside.2 p i (List.prefix_refl _) present]

/-- A page that is not mapped: no huge page is in the way, and its entry is absent. -/
theorem PageTree.unmapped (formed : PageTree mem root) (nothing : pageDirVirtToPhys mem root va = notMapped) :
    pathOf va ∈ (smallScope mem root).paths ∧ isPresent (readEntry mem root (pathOf va) (ptIndex va)) = false := by
  have offset : ∀ n, n ≤ 30 → va % 2 ^ n < 2 ^ 30 := fun n bound =>
    Nat.lt_of_lt_of_le (Nat.mod_lt _ (Nat.two_pow_pos n)) (Nat.pow_le_pow_right (by decide) bound)
  have one := formed.first va
  rw [pageDirVirtToPhys_views] at nothing
  unfold translate at nothing
  dsimp only at nothing
  have two : [pml4Index va, pdptIndex va] ∈ (smallScope mem root).paths := by
    apply smallScope_two one
    intro f huge
    have present : isPresent (readEntry mem root [pml4Index va] (pdptIndex va)) = true := by
      rw [isPresent_eq_view, huge, Option.isSome_some]
    have above : isPresent (readEntry mem root [] (pml4Index va)) = true := present_of_below present
    rw [view_of_present above, huge] at nothing
    exact view_or_ne_notMapped huge (offset 30 (by decide)) nothing
  have three : pathOf va ∈ (smallScope mem root).paths := by
    apply smallScope_pathOf two
    intro f huge
    have present : isPresent (readEntry mem root [pml4Index va, pdptIndex va] (pdIndex va)) = true := by
      rw [isPresent_eq_view, huge, Option.isSome_some]
    have above : isPresent (readEntry mem root [pml4Index va] (pdptIndex va)) = true := present_of_below present
    have top : isPresent (readEntry mem root [] (pml4Index va)) = true := present_of_below above
    rw [view_of_present top, view_of_small two above, huge] at nothing
    exact view_or_ne_notMapped huge (offset 21 (by decide)) nothing
  apply And.intro three
  by_contra found
  have present := Bool.eq_true_of_not_eq_false found
  have third : isPresent (readEntry mem root [pml4Index va, pdptIndex va] (pdIndex va)) = true := present_of_below present
  have second : isPresent (readEntry mem root [pml4Index va] (pdptIndex va)) = true := present_of_below third
  have first : isPresent (readEntry mem root [] (pml4Index va)) = true := present_of_below second
  rw [view_of_present first, view_of_small two second, view_of_small three third, view_of_present present] at nothing
  exact frameOf_or_ne_notMapped _ (offset 12 (by decide)) nothing

end Small

end CreeperKernel.Vmm
