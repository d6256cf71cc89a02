import CreeperKernel.PageTableEffects
import CreeperKernel.PmmBitmap

namespace CreeperKernel.Rights

open Vmm RadixTree
open Pmm (pageSize)

def isWritable (e : Entry) : Bool := e &&& pteWritable != 0
def isUser (e : Entry) : Bool := e &&& pteUser != 0

section Operations

variable {σ : Type} [FrameAllocator σ]

/-- `map_4k_pages`, with the virtual addresses of all its pages below 2^64 -/
def map4kPages (m : Machine σ) (pml4 : Frame) (va : Nat) (pa : Frame) (count : Nat) (flags : Entry) :
    Outcome (Machine σ) :=
  (List.range count).foldlM (fun m i =>
    map4k m pml4 ((va + i * pageSize) % 2 ^ 64) (pa + BitVec.ofNat 64 (i * pageSize)) flags) m

/-- `map_2m_nolock` -/
def map2m (m : Machine σ) (pml4 : Frame) (va : Nat) (pa : Frame) (flags : Entry) :
    Outcome (Machine σ) := do
  let (pdpt, m) ← tableGetOrCreate m pml4 (pml4Index va) flags
  let (pd, m) ← tableGetOrCreate m pdpt (pdptIndex va) flags
  pure (m.store pd (pdIndex va) ((pa &&& pteAddrMask) ||| flags ||| pteHuge ||| ptePresent))

/-- `map_1g_nolock` -/
def map1g (m : Machine σ) (pml4 : Frame) (va : Nat) (pa : Frame) (flags : Entry) :
    Outcome (Machine σ) := do
  let (pdpt, m) ← tableGetOrCreate m pml4 (pml4Index va) flags
  pure (m.store pdpt (pdptIndex va) ((pa &&& pteAddrMask) ||| flags ||| pteHuge ||| ptePresent))

end Operations

/-- The entries the CPU reads to translate `va`, from the PML4 down to the page, if it
is mapped. -/
def walkEntries (mem : Memory) (root : Frame) (va : Nat) : Option (List Entry) :=
  let pml4e := mem root (pml4Index va)
  if ¬ isPresent pml4e then none else
  let pdpte := mem (frameOf pml4e) (pdptIndex va)
  if ¬ isPresent pdpte then none else
  if isHuge pdpte then some [pml4e, pdpte] else
  let pde := mem (frameOf pdpte) (pdIndex va)
  if ¬ isPresent pde then none else
  if isHuge pde then some [pml4e, pdpte, pde] else
  let pte := mem (frameOf pde) (ptIndex va)
  if ¬ isPresent pte then none else
  some [pml4e, pdpte, pde, pte]

/-- The present entries that a walk along these indices passes through, huge or not. -/
def passed (mem : Memory) : Frame → List Index → List Entry
  | _, [] => []
  | n, i :: path =>
    if isPresent (mem n i) then mem n i :: passed mem (frameOf (mem n i)) path else []

/-- No step of the walk goes through a huge page. -/
def NoHuge (mem : Memory) (root : Frame) (path : List Index) : Prop :=
  ∀ e ∈ passed mem root path, isHuge e = false

instance (mem : Memory) (root : Frame) (path : List Index) : Decidable (NoHuge mem root path) :=
  List.decidableBAll (fun e => isHuge e = false) (passed mem root path)

/-- The table an entry refers to, if it is not a huge page. -/
def tableChild (e : Entry) : Option Frame :=
  if isPresent e = true ∧ isHuge e = false then some (frameOf e) else none

def indices (va : Nat) : List Index := [pml4Index va, pdptIndex va, pdIndex va, ptIndex va]

/-- Entries by the path of their table and their index. -/
abbrev View := List Index → Index → Option Entry

/-- The flags of the most recent mapping of each address. -/
abbrev Record := Nat → Option Entry

/-- All addresses below a path are mapped with these flags. -/
def Record.set (record : Record) (path : List Index) (flags : Entry) : Record :=
  fun va => if path <+: indices va then some flags else record va

/-- The rights in `a` are among those in `b`. -/
def Within (a b : Entry) : Prop :=
  (isWritable a = true → isWritable b = true) ∧ (isUser a = true → isUser b = true)

def SameRights (a b : Entry) : Prop := isWritable a = isWritable b ∧ isUser a = isUser b

/-- The entry maps a page: of a table at depth 3, or a huge one further up. -/
def IsLeaf (path : List Index) (e : Entry) : Prop :=
  isPresent e = true ∧ (path.length = 3 ∨ isHuge e = true)

/-- Entries on the way down grant at least what the entries below them grant, and leaf
entries grant exactly what was asked for. -/
structure Lawful (view : View) (record : Record) : Prop where
  small : ∀ i e, view [] i = some e → isHuge e = false
  covers : ∀ p i j e below, p.length ≤ 2 → view p i = some e → view (p ++ [i]) j = some below →
    isPresent below = true → Within below e
  recorded : ∀ p i e, p.length ≤ 3 → view p i = some e → IsLeaf p e →
    ∀ va, p ++ [i] <+: indices va → ∃ flags, record va = some flags ∧ SameRights e flags

/-- Every entry on the way to the table at `path` grants the rights in `flags`. -/
def Granted (view : View) (path : List Index) (flags : Entry) : Prop :=
  ∀ p i e, p ++ [i] <+: path → view p i = some e → Within flags e

variable {c b a flags x : Entry}

theorem Within.trans (first : Within a b) (second : Within b c) : Within a c :=
  ⟨fun h => second.1 (first.1 h), fun h => second.2 (first.2 h)⟩

theorem SameRights.within (same : SameRights a b) (inside : Within b c) : Within a c :=
  ⟨fun h => inside.1 (same.1 ▸ h), fun h => inside.2 (same.2 ▸ h)⟩

theorem isWritable_eq (e : Entry) : isWritable e = e.getLsbD 1 :=
  and_twoPow_ne_zero e (i := 1) (by decide)

theorem isUser_eq (e : Entry) : isUser e = e.getLsbD 2 :=
  and_twoPow_ne_zero e (i := 2) (by decide)

theorem within_or (e flags : Entry) : Within e (e ||| (flags &&& permMask)) ∧ Within flags (e ||| (flags &&& permMask)) := by
  have writable : permMask.getLsbD 1 = true := by decide
  have user : permMask.getLsbD 2 = true := by decide
  simp only [Within, isWritable_eq, isUser_eq, BitVec.getLsbD_or, BitVec.getLsbD_and, writable, user,
    Bool.and_true, Bool.or_eq_true]
  exact ⟨⟨Or.inl, Or.inl⟩, ⟨Or.inr, Or.inr⟩⟩

theorem or_within {e : Entry} (first : Within e x) (second : Within flags x) : Within (e ||| (flags &&& permMask)) x := by
  simp only [Within, isWritable_eq, isUser_eq, BitVec.getLsbD_or, BitVec.getLsbD_and, Bool.or_eq_true,
    Bool.and_eq_true] at first second ⊢
  exact ⟨fun h => h.elim first.1 fun h => second.1 h.1, fun h => h.elim first.2 fun h => second.2 h.1⟩

theorem within_tableEntry (phys : Frame) (flags : Entry) : Within flags (tableEntry phys flags) :=
  (within_or _ flags).2

theorem sameRights_leaf (pa : Frame) (flags extra : Entry) (writable : extra.getLsbD 1 = false)
    (user : extra.getLsbD 2 = false) : SameRights ((pa &&& pteAddrMask) ||| flags ||| extra) flags := by
  have address : pteAddrMask.getLsbD 1 = false ∧ pteAddrMask.getLsbD 2 = false := by decide
  simp only [SameRights, isWritable_eq, isUser_eq, BitVec.getLsbD_or, BitVec.getLsbD_and, writable, user,
    address.1, address.2, Bool.and_false, Bool.false_or, Bool.or_false, and_self]

theorem tableEntry_within (phys : Frame) (inside : Within flags x) : Within (tableEntry phys flags) x := by
  have address : ((phys &&& pteAddrMask) ||| ptePresent).getLsbD 1 = false ∧
      ((phys &&& pteAddrMask) ||| ptePresent).getLsbD 2 = false := by
    have mask : pteAddrMask.getLsbD 1 = false ∧ pteAddrMask.getLsbD 2 = false := by decide
    have bit : ptePresent.getLsbD 1 = false ∧ ptePresent.getLsbD 2 = false := by decide
    simp only [BitVec.getLsbD_or, BitVec.getLsbD_and, mask.1, mask.2, bit.1, bit.2, Bool.and_false,
      Bool.or_self, and_self]
  apply or_within _ inside
  simp only [Within, isWritable_eq, isUser_eq, address.1, address.2, Bool.false_eq_true, false_implies,
    and_self]

section Laws

variable {view view' : View} {record : Record} {q : List Index} {i : Index} {e flags : Entry}

theorem Granted.parent (granted : Granted view q flags) {p : List Index} {j : Index} {x : Entry}
    (here : p ++ [j] = q) (at_ : view p j = some x) : Within flags x :=
  granted p j x (here ▸ List.prefix_refl _) at_

theorem ne_concat {α : Type} (p : List α) (j : α) : p ≠ p ++ [j] := by
  intro same
  have lengths := congrArg List.length same
  simp at lengths

theorem Lawful.touch (lawful : Lawful view record) (here : view q i = some e)
    (present : isPresent e = true) (inner : q.length ≤ 2) (table : isHuge e = false)
    (granted : Granted view q flags) (after : ∀ p, p.length ≤ 3 → ∀ j, view' p j =
      if p = q ∧ j = i then some (e ||| (flags &&& permMask)) else view p j) :
    Lawful view' record ∧ Granted view' (q ++ [i]) flags := by
  have stillTable : isHuge (e ||| (flags &&& permMask)) = false := by simp [isHuge_or, table]
  refine ⟨⟨?_, ?_, ?_⟩, ?_⟩
  · intro j x at_
    rw [after [] (by simp)] at at_
    split at at_
    · cases at_
      exact stillTable
    · exact lawful.small j x at_
  · intro p k j x below short at_ atBelow presentBelow
    rw [after p (by omega)] at at_
    rw [after (p ++ [k]) (by simp; omega)] at atBelow
    have upper : ∃ old, view p k = some old ∧ Within old x := by
      split at at_
      · rename_i on
        cases at_
        exact ⟨e, by rw [on.1, on.2]; exact here, (within_or e flags).1⟩
      · exact ⟨x, at_, fun h => h, fun h => h⟩
    obtain ⟨old, atOld, more⟩ := upper
    split at atBelow
    · -- the changed entry below its parent
      rename_i on
      cases atBelow
      have before := lawful.covers p k j old e short atOld (by rw [on.1, on.2]; exact here) present
      exact or_within (before.trans more) ((granted.parent on.1 atOld).trans more)
    · exact (lawful.covers p k j old below short atOld atBelow presentBelow).trans more
  · intro p j x short at_ leaf va below
    rw [after p short] at at_
    split at at_
    · rename_i on
      cases at_
      rcases leaf.2 with deep | huge
      · rw [on.1] at deep
        omega
      · rw [stillTable] at huge
        cases huge
    · exact lawful.recorded p j x short at_ leaf va below
  · intro p j x inside at_
    have short := inside.length_le
    simp only [List.length_append, List.length_singleton] at short
    rw [after p (by omega)] at at_
    split at at_
    · cases at_
      exact (within_or e flags).2
    · rename_i off
      exact granted p j x ((concat_prefix_concat inside).resolve_left off) at_

theorem Lawful.create (lawful : Lawful view record) (phys : Frame) (inner : q.length ≤ 2)
    (bare : ∀ p j, q ++ [i] <+: p → p.length ≤ 3 → view p j = none) (granted : Granted view q flags)
    (after : ∀ p, p.length ≤ 3 → ∀ j, view' p j = if p = q ∧ j = i then some (tableEntry phys flags)
      else if p = q ++ [i] then some 0 else view p j) : Lawful view' record ∧ Granted view' (q ++ [i]) flags := by
  refine ⟨⟨?_, ?_, ?_⟩, ?_⟩
  · intro j x at_
    rw [after [] (by simp), if_neg (by simp : ¬ ([] : List Index) = q ++ [i])] at at_
    split at at_
    · cases at_
      exact isHuge_tableEntry phys flags
    · exact lawful.small j x at_
  · intro p k j x below short at_ atBelow presentBelow
    rw [after p (by omega)] at at_
    rw [after (p ++ [k]) (by simp; omega)] at atBelow
    split at atBelow
    · -- the new entry below its parent
      rename_i on
      cases atBelow
      rw [if_neg, if_neg] at at_
      · exact tableEntry_within phys (granted.parent on.1 at_)
      · intro same
        have lengths := congrArg List.length (same.symm.trans rfl : q ++ [i] = p)
        rw [← on.1] at lengths
        simp at lengths
      · rintro ⟨same, -⟩
        rw [← on.1] at same
        exact ne_concat p k same
    · split at atBelow
      · cases atBelow
        cases presentBelow
      · rename_i notNew
        split at at_
        · rename_i on
          rw [on.1, on.2] at notNew
          exact absurd rfl notNew
        · split at at_
          · rename_i inNew
            rw [bare _ j (by rw [inNew]; exact List.prefix_append _ _) (by simp; omega)] at atBelow
            cases atBelow
          · exact lawful.covers p k j x below short at_ atBelow presentBelow
  · intro p j x short at_ leaf va below
    rw [after p short] at at_
    split at at_
    · rename_i on
      cases at_
      rcases leaf.2 with deep | huge
      · rw [on.1] at deep
        omega
      · rw [isHuge_tableEntry] at huge
        cases huge
    · split at at_
      · cases at_
        cases leaf.1
      · exact lawful.recorded p j x short at_ leaf va below
  · intro p j x inside at_
    have short := inside.length_le
    simp only [List.length_append, List.length_singleton] at short
    rw [after p (by omega)] at at_
    split at at_
    · cases at_
      exact within_tableEntry phys flags
    · rename_i off
      have above := (concat_prefix_concat inside).resolve_left off
      rw [if_neg] at at_
      · exact granted p j x above at_
      · rintro rfl
        have lengths := above.length_le
        simp only [List.length_append, List.length_singleton] at lengths
        omega

/-- An entry without rights of its own to pass on takes the place of another, and of
everything below it. -/
theorem Lawful.replace (lawful : Lawful view record) {record' : Record} (inside : q ≠ [])
    (upper : ∀ p j x, p ++ [j] = q → view p j = some x → Within e x)
    (leaf : IsLeaf q e → ∀ va, q ++ [i] <+: indices va → ∃ flags, record' va = some flags ∧ SameRights e flags)
    (others : ∀ va, (∀ p j x, p ++ [j] <+: indices va → view p j = some x → IsLeaf p x →
      ¬ (p = q ∧ j = i) → ¬ q ++ [i] <+: p → p.length ≤ 3 → record' va = record va))
    (after : ∀ p, p.length ≤ 3 → ∀ j, view' p j =
      if p = q ∧ j = i then some e else if q ++ [i] <+: p then none else view p j) : Lawful view' record' := by
  refine ⟨?_, ?_, ?_⟩
  · intro j x at_
    rw [after [] (by simp), if_neg (fun on => inside on.1.symm), if_neg (by simp)] at at_
    exact lawful.small j x at_
  · intro p k j x below short at_ atBelow presentBelow
    rw [after p (by omega)] at at_
    rw [after (p ++ [k]) (by simp; omega)] at atBelow
    split at atBelow
    · rename_i on
      cases atBelow
      have shorter : ¬ q ++ [i] <+: p := by
        intro longer
        have lengths := longer.length_le
        rw [← on.1] at lengths
        simp only [List.length_append, List.length_cons, List.length_nil] at lengths
        omega
      rw [if_neg, if_neg shorter] at at_
      · exact upper p k x on.1 at_
      · rintro ⟨same, -⟩
        rw [← on.1] at same
        exact ne_concat p k same
    · split at atBelow
      · cases atBelow
      · rename_i notBelow
        rw [if_neg, if_neg] at at_
        · exact lawful.covers p k j x below short at_ atBelow presentBelow
        · exact fun deeper => notBelow (deeper.trans (List.prefix_append _ _))
        · rintro ⟨rfl, rfl⟩
          exact notBelow (List.prefix_refl _)
  · intro p j x short at_ isLeaf va below
    rw [after p short] at at_
    split at at_
    · rename_i on
      obtain ⟨rfl, rfl⟩ := on
      cases at_
      exact leaf isLeaf va below
    · rename_i off
      split at at_
      · cases at_
      · rename_i notBelow
        rw [others va p j x below at_ isLeaf off notBelow short]
        exact lawful.recorded p j x short at_ isLeaf va below

theorem Lawful.map (lawful : Lawful view record) (inside : q ≠ []) (granted : Granted view q flags)
    (rights : SameRights e flags) (passes : ∀ p j x, p ++ [j] <+: q → view p j = some x → ¬ IsLeaf p x)
    (after : ∀ p, p.length ≤ 3 → ∀ j, view' p j =
      if p = q ∧ j = i then some e else if q ++ [i] <+: p then none else view p j) :
    Lawful view' (record.set (q ++ [i]) flags) := by
  apply lawful.replace inside _ _ _ after
  · exact fun p j x here at_ => rights.within (granted.parent here at_)
  · intro _ va below
    exact ⟨flags, if_pos below, rights⟩
  · intro va p j x below at_ leaf off notBelow _
    apply if_neg
    intro hit
    -- both entries lead to `va`, so one is above the other
    rcases List.prefix_or_prefix_of_prefix below hit with above | same
    · exact passes p j x ((concat_prefix_concat above).resolve_left off) at_ leaf
    · exact notBelow ((concat_prefix_concat same).resolve_left fun on => off ⟨on.1.symm, on.2.symm⟩)

theorem Lawful.clear (lawful : Lawful view record) (inside : q ≠ []) (after : ∀ p, p.length ≤ 3 → ∀ j, view' p j =
      if p = q ∧ j = i then some 0 else if q ++ [i] <+: p then none else view p j) : Lawful view' record := by
  apply lawful.replace inside _ _ _ after
  · intro p j x _ _
    constructor
    · intro bit
      cases bit
    · intro bit
      cases bit
  · intro leaf
    cases leaf.1
  · intros
    rfl

end Laws

end CreeperKernel.Rights
