import CreeperKernel.FallibleLoops
import CreeperKernel.PageRights
import CreeperKernel.PageTableRuns

namespace CreeperKernel.Rights

open Vmm RadixTree
open Transitions (Run)
open Pmm (pageSize)

abbrev tablesAt (mem : Memory) (root : Frame) (path : List Index) : Option Frame :=
  nodeAt tableChild mem root path

/-- The entries of the tables under `root`. -/
abbrev viewOf (mem : Memory) (root : Frame) : View := entryAt tableChild mem root

/-- The frames that `pmm_alloc` is going to return are page frames not used as tables of
this address space; frame 0, which is not zeroed, is blank. -/
structure FreshTables (root : Frame) (mem : Memory) (frames : List Frame) : Prop where
  nodup : frames.Nodup
  aligned : ∀ f ∈ frames, frameOf f = f
  unused : ∀ f ∈ frames, ¬ IsNode tableChild fullScope.toScope mem root f
  blank : 0 ∈ frames → ∀ i, mem 0 i = 0

structure Sound (root : Frame) (m : Machine (List Frame)) (record : Record) : Prop where
  distinct : Distinct tableChild fullScope.toScope m.mem root
  lawful : Lawful (viewOf m.mem root) record
  fresh : FreshTables root m.mem m.frames

/-- No present entry on the way along `path` is a huge page. -/
def Clear (view : View) (path : List Index) : Prop :=
  ∀ p j e, p ++ [j] <+: path → view p j = some e → isPresent e = true → isHuge e = false

variable {root : Frame} {mem : Memory}

theorem Clear.of_noHuge {path : List Index} (noHuge : NoHuge mem root path) : Clear (viewOf mem root) path := by
  intro p
  induction p generalizing root path with
  | nil =>
    intro j e inside at_ present
    cases path with
    | nil => simp at inside
    | cons i path =>
      obtain ⟨rfl, -⟩ := List.cons_prefix_cons.mp inside
      obtain rfl : mem root j = e := Option.some.inj at_
      apply noHuge
      simp [passed, present]
  | cons k p ih =>
    intro j e inside at_ present
    cases path with
    | nil => simp at inside
    | cons i path =>
      obtain ⟨rfl, rest⟩ := List.cons_prefix_cons.mp inside
      rw [viewOf, entryAt, nodeAt] at at_
      cases child : tableChild (mem root k) with
      | none =>
        rw [child] at at_
        cases at_
      | some next =>
        rw [child] at at_
        unfold tableChild at child
        split at child
        · rename_i through
          cases child
          apply ih _ j e rest at_ present
          intro x member
          apply noHuge
          simp [passed, through.1, member]
        · cases child

variable {e : Entry}

theorem tableChild_of_table (present : isPresent e = true) (table : isHuge e = false) : tableChild e = some (frameOf e) := by
  simp [tableChild, present, table]

theorem tableChild_of_absent (absent : isPresent e = false) : tableChild e = none := by
  simp [tableChild, absent]

theorem tableChild_of_huge (huge : isHuge e = true) : tableChild e = none := by
  simp [tableChild, huge]

theorem tableGetOrCreate_present {σ : Type} [FrameAllocator σ] {m m' : Machine σ} {table next : Frame}
    {i : Index} {flags : Entry} (present : isPresent (m.mem table i) = true)
    (done : tableGetOrCreate m table i flags = .ok (next, m')) : next = frameOf (m.mem table i) ∧
      m' = ⟨write m.mem table i (m.mem table i ||| (flags &&& permMask)), m.frames⟩ := by
  unfold tableGetOrCreate at done
  simp only [present, not_true_eq_false, ↓reduceIte] at done
  split at done
  · cases done
    refine ⟨?_, rfl⟩
    simp only [Machine.store, write_self]
    change frameOf _ = _
    simp [frameOf_or]
  · rename_i complete
    cases done
    have same : m.mem table i ||| (flags &&& permMask) = m.mem table i := by
      rw [not_not] at complete
      rw [← complete]
      apply BitVec.eq_of_getLsbD_eq
      intro k _
      simp only [BitVec.getLsbD_or, BitVec.getLsbD_and]
      cases (m.mem table i).getLsbD k <;> simp
    rw [same]
    refine ⟨rfl, ?_⟩
    simp [write]

section Descend

variable {root table next : Frame} {m m' : Machine (List Frame)} {record : Record} {q path : List Index}
  {i : Index} {flags : Entry}

variable {p : List Index}

theorem mem_fullScope : p ∈ fullScope.toScope.paths ↔ p.length ≤ 3 := Iff.rfl

theorem concat_mem_fullScope_of (short : p.length ≤ 2) (j : Index) : p ++ [j] ∈ fullScope.toScope.paths :=
  (concat_mem_fullScope p j).mpr short

theorem prefix_mem_fullScope {j : Index} (bounded : path.length ≤ 3) (below : p ++ [j] <+: path) :
    p ∈ fullScope.toScope.paths := by
  have lengths := below.length_le
  rw [List.length_append, List.length_singleton] at lengths
  exact mem_fullScope.mpr (by omega)

theorem Sound.touch (sound : Sound root m record) (inner : q.length ≤ 2)
    (here : tablesAt m.mem root q = some table) (granted : Granted (viewOf m.mem root) q flags)
    (clear : Clear (viewOf m.mem root) path) (bounded : path.length ≤ 3) (inside : q ++ [i] <+: path)
    (present : isPresent (m.mem table i) = true) (done : tableGetOrCreate m table i flags = .ok (next, m')) :
    Sound root m' record ∧ tablesAt m'.mem root (q ++ [i]) = some next ∧
      Granted (viewOf m'.mem root) (q ++ [i]) flags ∧ Clear (viewOf m'.mem root) path := by
  obtain ⟨rfl, rfl⟩ := tableGetOrCreate_present present done
  have at_ : viewOf m.mem root q i = some (m.mem table i) := entryAt_of here i
  have small := clear q i _ inside at_ present
  have present' : isPresent (m.mem table i ||| (flags &&& permMask)) = true := by simp [isPresent_or, present]
  have small' : isHuge (m.mem table i ||| (flags &&& permMask)) = false := by simp [isHuge_or, small]
  have child : tableChild (m.mem table i ||| (flags &&& permMask)) = tableChild (m.mem table i) := by
    rw [tableChild_of_table present small, tableChild_of_table present' small', frameOf_or, frameOf_perms]
    simp
  have within : q ∈ fullScope.toScope.paths := mem_fullScope.mpr (by omega)
  have same := nodeAt_write_same sound.distinct within here fun _ => child
  have after := entryAt_write_same sound.distinct within here fun _ => child
  obtain ⟨lawful, granted'⟩ := sound.lawful.touch at_ present inner small granted
    fun p short j => after p (mem_fullScope.mpr short) j
  have nodes : ∀ f, IsNode tableChild fullScope.toScope
      (write m.mem table i (m.mem table i ||| (flags &&& permMask))) root f →
      IsNode tableChild fullScope.toScope m.mem root f := by
    rintro f ⟨p, member, reached⟩
    exact ⟨p, member, (same p member).symm.trans reached⟩
  refine ⟨⟨sound.distinct.congr same, lawful, ?_⟩, ?_, granted', ?_⟩
  · refine ⟨sound.fresh.nodup, sound.fresh.aligned, fun f member node => ?_, fun zero j => ?_⟩
    · exact sound.fresh.unused f member (nodes f node)
    · have other : (0 : Frame) ≠ table := by
        rintro rfl
        exact sound.fresh.unused 0 zero ⟨q, within, here⟩
      show write _ table i _ 0 j = 0
      rw [write_of_ne_node _ _ _ other]
      exact sound.fresh.blank zero j
  · rw [tablesAt, same _ (concat_mem_fullScope_of inner i), nodeAt_concat_of here]
    exact tableChild_of_table present small
  · intro p j e below atE presentE
    rw [viewOf, after p (prefix_mem_fullScope bounded below) j] at atE
    split at atE
    · cases atE
      exact small'
    · exact clear p j e below atE presentE

theorem Sound.create (sound : Sound root m record) (inner : q.length ≤ 2)
    (here : tablesAt m.mem root q = some table) (granted : Granted (viewOf m.mem root) q flags)
    (clear : Clear (viewOf m.mem root) path) (bounded : path.length ≤ 3)
    {phys : Frame} {frames : List Frame} (absent : isPresent (m.mem table i) = false) (allocated : m.frames = phys :: frames)
    (same : m' = ⟨write (if phys = 0 then m.mem else zeroPage m.mem phys) table i (tableEntry phys flags),
      frames⟩) : Sound root m' record ∧ tablesAt m'.mem root (q ++ [i]) = some phys ∧
      Granted (viewOf m'.mem root) (q ++ [i]) flags ∧ Clear (viewOf m'.mem root) path := by
  subst same
  have first : phys ∈ m.frames := by rw [allocated]; exact List.mem_cons_self
  have later : ∀ f ∈ frames, f ∈ m.frames := fun f member => by
    rw [allocated]
    exact List.mem_cons_of_mem phys member
  have unused := sound.fresh.unused phys first
  have aligned := sound.fresh.aligned phys first
  have within : q ∈ fullScope.toScope.paths := mem_fullScope.mpr (by omega)
  have inside := concat_mem_fullScope_of inner i
  have blank : ∀ j, (if phys = 0 then m.mem else zeroPage m.mem phys) phys j = 0 := by
    intro j
    split
    · rename_i zero
      rw [zero] at first ⊢
      exact sound.fresh.blank first j
    · simp [zeroPage]
  have others : ∀ f, f ≠ phys → (if phys = 0 then m.mem else zeroPage m.mem phys) f = m.mem f := by
    intro f other
    split
    · rfl
    · exact Function.update_of_ne other _ _
  have link : tableChild (tableEntry phys flags) = some phys := by
    rw [tableChild_of_table (isPresent_tableEntry phys flags) (isHuge_tableEntry phys flags),
      frameOf_tableEntry, aligned]
  have moved := nodeAt_attach sound.distinct inside here (tableChild_of_absent absent) unused blank
    (tableChild_of_absent isPresent_zero) others link
  have after := entryAt_attach sound.distinct inside here (tableChild_of_absent absent) unused blank
    (tableChild_of_absent isPresent_zero) others link
  have bare : ∀ p j, q ++ [i] <+: p → p.length ≤ 3 → viewOf m.mem root p j = none := by
    rintro p j ⟨rest, rfl⟩ _
    rw [viewOf, entryAt, nodeAt_append, nodeAt_concat_of here, tableChild_of_absent absent]
    rfl
  obtain ⟨lawful, granted'⟩ := sound.lawful.create phys inner bare granted
    fun p short j => after p (mem_fullScope.mpr short) j
  have nodes : ∀ f, IsNode tableChild fullScope.toScope
      (write (if phys = 0 then m.mem else zeroPage m.mem phys) table i (tableEntry phys flags)) root f →
      f = phys ∨ IsNode tableChild fullScope.toScope m.mem root f := by
    rintro f ⟨p, member, reached⟩
    rw [moved p member] at reached
    split at reached
    · exact .inl (Option.some.inj reached).symm
    · exact .inr ⟨p, member, reached⟩
  have nodup := sound.fresh.nodup
  rw [allocated, List.nodup_cons] at nodup
  refine ⟨⟨sound.distinct.attach moved unused, lawful, nodup.2, fun f member => ?_, fun f member node => ?_,
    fun zero j => ?_⟩, ?_, granted', ?_⟩
  · exact sound.fresh.aligned f (later f member)
  · rcases nodes f node with rfl | old
    · exact nodup.1 member
    · exact sound.fresh.unused f (later f member) old
  · have notNew : (0 : Frame) ≠ phys := fun same => nodup.1 (same ▸ zero)
    have other : (0 : Frame) ≠ table := by
      rintro rfl
      exact sound.fresh.unused 0 (later 0 zero) ⟨q, within, here⟩
    show write _ table i _ 0 j = 0
    rw [write_of_ne_node _ _ _ other, others 0 notNew]
    exact sound.fresh.blank (later 0 zero) j
  · exact (moved _ inside).trans (if_pos rfl)
  · intro p j e below atE presentE
    rw [viewOf, after p (prefix_mem_fullScope bounded below) j] at atE
    split at atE
    · cases atE
      exact isHuge_tableEntry phys flags
    · split at atE
      · cases atE
        cases presentE
      · exact clear p j e below atE presentE

theorem Sound.descend (sound : Sound root m record) (inner : q.length ≤ 2)
    (here : tablesAt m.mem root q = some table) (granted : Granted (viewOf m.mem root) q flags)
    (clear : Clear (viewOf m.mem root) path) (bounded : path.length ≤ 3) (inside : q ++ [i] <+: path)
    (done : tableGetOrCreate m table i flags = .ok (next, m')) :
    Sound root m' record ∧ tablesAt m'.mem root (q ++ [i]) = some next ∧
      Granted (viewOf m'.mem root) (q ++ [i]) flags ∧ Clear (viewOf m'.mem root) path := by
  rcases tableGetOrCreate_cases done with ⟨absent, phys, frames, allocated, rfl, same⟩ | ⟨present, -⟩
  · have taken : m.frames = phys :: frames := by
      cases list : m.frames with
      | nil =>
        rw [list] at allocated
        cases allocated
      | cons f rest =>
        rw [list] at allocated
        cases allocated
        rfl
    have aligned := sound.fresh.aligned phys (by rw [taken]; exact List.mem_cons_self)
    rw [aligned]
    exact sound.create inner here granted clear bounded absent taken same
  · exact sound.touch inner here granted clear bounded inside present done

variable {e : Entry}

theorem Sound.written {record' : Record} (sound : Sound root m record) (short : q.length ≤ 3)
    (here : tablesAt m.mem root q = some table) (last : q.length = 3 ∨ tableChild e = none)
    (lawful : (∀ p, p.length ≤ 3 → ∀ j, viewOf (write m.mem table i e) root p j = if p = q ∧ j = i then some e else if q ++ [i] <+: p then none else viewOf m.mem root p j) → Lawful (viewOf (write m.mem table i e) root) record')
    : Sound root (m.store table i e) record' := by
  have within : q ∈ fullScope.toScope.paths := mem_fullScope.mpr short
  have gone : q ++ [i] ∈ fullScope.toScope.paths → tableChild e = none := by
    intro inside
    rcases last with deep | nothing
    · have lengths := mem_fullScope.mp inside
      rw [List.length_append, List.length_singleton] at lengths
      omega
    · exact nothing
  have moved := nodeAt_cut sound.distinct within here gone
  have fewer : ∀ p ∈ fullScope.toScope.paths, ∀ f, tablesAt (write m.mem table i e) root p = some f →
      tablesAt m.mem root p = some f := by
    intro p member f reached
    rw [tablesAt, moved p member] at reached
    split at reached
    · cases reached
    · exact reached
  refine ⟨sound.distinct.of_le fewer, lawful ?_, sound.fresh.nodup, sound.fresh.aligned, ?_, ?_⟩
  · intro p bounded j
    exact entryAt_cut sound.distinct within here gone p (mem_fullScope.mpr bounded) j
  · rintro f member ⟨p, inside, reached⟩
    exact sound.fresh.unused f member ⟨p, inside, fewer p inside f reached⟩
  · intro zero j
    have other : (0 : Frame) ≠ table := by
      rintro rfl
      exact sound.fresh.unused 0 zero ⟨q, within, here⟩
    show write m.mem table i e 0 j = 0
    rw [write_of_ne_node _ _ _ other]
    exact sound.fresh.blank zero j

theorem Sound.mapLeaf (sound : Sound root m record) (inside : q ≠ []) (short : q.length ≤ 3)
    (here : tablesAt m.mem root q = some table) (granted : Granted (viewOf m.mem root) q flags)
    (clear : Clear (viewOf m.mem root) q) (rights : SameRights e flags) (last : q.length = 3 ∨ isHuge e = true) :
    Sound root (m.store table i e) (record.set (q ++ [i]) flags) := by
  apply sound.written short here (last.imp_right tableChild_of_huge)
  intro after
  apply sound.lawful.map inside granted rights _ after
  intro p j x above at_ leaf
  have lengths := above.length_le
  rw [List.length_append, List.length_singleton] at lengths
  rcases leaf.2 with deep | huge
  · omega
  · rw [clear p j x above at_ leaf.1] at huge
    cases huge

theorem Sound.clearLeaf (sound : Sound root m record) (inside : q ≠ []) (short : q.length ≤ 3)
    (here : tablesAt m.mem root q = some table) : Sound root (m.store table i 0) record := by
  apply sound.written short here (.inr (tableChild_of_absent isPresent_zero))
  exact fun after => sound.lawful.clear inside after

theorem granted_root (view : View) (flags : Entry) : Granted view [] flags := by
  intro p j e inside
  simp at inside

variable {pa : Frame} {va : Nat}

theorem Sound.map4k (sound : Sound root m record) (clear : Clear (viewOf m.mem root) (pathOf va))
    (done : map4k m root va pa flags = .ok m') : Sound root m' (record.set (indices va) flags) := by
  obtain ⟨⟨pdpt, m₁⟩, first, done⟩ := Outcome.bind_eq_ok.mp done
  obtain ⟨⟨pd, m₂⟩, second, done⟩ := Outcome.bind_eq_ok.mp done
  obtain ⟨⟨pt, m₃⟩, third, done⟩ := Outcome.bind_eq_ok.mp done
  cases done
  have bounded : (pathOf va).length ≤ 3 := by simp [pathOf]
  obtain ⟨sound₁, at₁, granted₁, clear₁⟩ := sound.descend (by simp) rfl (granted_root _ _) clear bounded
    (by simp [pathOf]) first
  obtain ⟨sound₂, at₂, granted₂, clear₂⟩ := sound₁.descend (by simp) at₁ granted₁ clear₁ bounded
    (by simp [pathOf]) second
  obtain ⟨sound₃, at₃, granted₃, clear₃⟩ := sound₂.descend (by simp) at₂ granted₂ clear₂ bounded
    (by simp [pathOf]) third
  exact sound₃.mapLeaf (by simp) (by simp) at₃ granted₃ clear₃
    (sameRights_leaf pa flags ptePresent (by decide) (by decide)) (.inl rfl)

theorem sameRights_huge (pa : Frame) (flags : Entry) :
    SameRights ((pa &&& pteAddrMask) ||| flags ||| pteHuge ||| ptePresent) flags ∧
      isHuge ((pa &&& pteAddrMask) ||| flags ||| pteHuge ||| ptePresent) = true := by
  have huge : isHuge pteHuge = true := by decide
  constructor
  · rw [BitVec.or_assoc]
    exact sameRights_leaf pa flags _ (by decide) (by decide)
  · simp [isHuge_or, huge]

theorem Sound.map2m (sound : Sound root m record) (clear : Clear (viewOf m.mem root) [pml4Index va, pdptIndex va])
    (done : map2m m root va pa flags = .ok m') :
    Sound root m' (record.set [pml4Index va, pdptIndex va, pdIndex va] flags) := by
  obtain ⟨⟨pdpt, m₁⟩, first, done⟩ := Outcome.bind_eq_ok.mp done
  obtain ⟨⟨pd, m₂⟩, second, done⟩ := Outcome.bind_eq_ok.mp done
  cases done
  obtain ⟨sound₁, at₁, granted₁, clear₁⟩ := sound.descend (by simp) rfl (granted_root _ _) clear (by simp)
    (by simp) first
  obtain ⟨sound₂, at₂, granted₂, clear₂⟩ := sound₁.descend (by simp) at₁ granted₁ clear₁ (by simp)
    (by simp) second
  obtain ⟨rights, huge⟩ := sameRights_huge pa flags
  exact sound₂.mapLeaf (by simp) (by simp) at₂ granted₂ clear₂ rights (.inr huge)

theorem Sound.map1g (sound : Sound root m record) (clear : Clear (viewOf m.mem root) [pml4Index va])
    (done : map1g m root va pa flags = .ok m') : Sound root m' (record.set [pml4Index va, pdptIndex va] flags) := by
  obtain ⟨⟨pdpt, m₁⟩, first, done⟩ := Outcome.bind_eq_ok.mp done
  cases done
  obtain ⟨sound₁, at₁, granted₁, clear₁⟩ := sound.descend (by simp) rfl (granted_root _ _) clear (by simp)
    (by simp) first
  obtain ⟨rights, huge⟩ := sameRights_huge pa flags
  exact sound₁.mapLeaf (by simp) (by simp) at₁ granted₁ clear₁ rights (.inr huge)

theorem Sound.map4kPages {count : Nat} (sound : Sound root m record)
    (clear : ∀ i < count, ∀ middle, map4kPages m root va pa i flags = .ok middle → NoHuge middle.mem root (pathOf ((va + i * pageSize) % 2 ^ 64)))
    (done : map4kPages m root va pa count flags = .ok m') : Sound root m' ((List.range count).foldl
      (fun record i => record.set (indices ((va + i * pageSize) % 2 ^ 64)) flags) record) := by
  induction count generalizing m' with
  | zero =>
    cases done
    exact sound
  | succ n ih =>
    unfold Rights.map4kPages at done
    rw [List.range_succ] at done ⊢
    obtain ⟨middle, front, last⟩ := FallibleLoops.foldlM_concat done
    rw [List.foldl_append]
    have before := ih (fun i small => clear i (by omega)) front
    exact before.map4k (.of_noHuge (clear n (by omega) middle front)) last

theorem Sound.unmap4k (sound : Sound root m record) (clear : Clear (viewOf m.mem root) [pml4Index va, pdptIndex va]) :
    Sound root ⟨(unmap4k m root va).mem, m.frames⟩ record := by
  unfold Vmm.unmap4k
  dsimp only
  split
  · exact sound
  · rename_i pml4e
    rw [not_not] at pml4e
    split
    · exact sound
    · rename_i pdpte
      rw [not_not] at pdpte
      split
      · exact sound
      · rename_i pde
        rw [not_not] at pde
        split
        · exact sound
        · rename_i table
          have small := sound.lawful.small (pml4Index va) _ rfl
          have at₁ : tablesAt m.mem root [pml4Index va] = some (frameOf (m.mem root (pml4Index va))) := by
            simp [tablesAt, nodeAt, tableChild_of_table pml4e small]
          have small₁ := clear [pml4Index va] _ _ (List.prefix_refl _) (entryAt_of at₁ _) pdpte
          have at₂ : tablesAt m.mem root ([pml4Index va] ++ [pdptIndex va]) = some _ :=
            (nodeAt_concat_of at₁).trans (tableChild_of_table pdpte small₁)
          have at₃ : tablesAt m.mem root ([pml4Index va] ++ [pdptIndex va] ++ [pdIndex va]) = some _ :=
            (nodeAt_concat_of at₂).trans (tableChild_of_table pde (by simpa using table))
          split
          · exact sound
          · have cleared := sound.clearLeaf (i := ptIndex va) (by simp) (by simp) at₃
            split
            · exact cleared
            · exact cleared

end Descend

inductive Call where
  | map4k (va : Nat) (pa : Frame) (flags : Entry)
  | map4kPages (va : Nat) (pa : Frame) (count : Nat) (flags : Entry)
  | map2m (va : Nat) (pa : Frame) (flags : Entry)
  | map1g (va : Nat) (pa : Frame) (flags : Entry)
  | unmap4k (va : Nat)
  deriving DecidableEq, Repr

/-- One call on the address space under `root` that goes through no huge page.
`frames` are the frames the physical allocator returns meanwhile. -/
inductive Step (root : Frame) : Memory → Call → Memory → Prop where
  | map4k {mem mem' : Memory} {va : Nat} {pa : Frame} {flags : Entry} {frames : List Frame}
      (clear : NoHuge mem root (pathOf va)) (fresh : FreshTables root mem frames)
      (done : Vmm.map4k ⟨mem, frames⟩ root va pa flags = .ok ⟨mem', []⟩) :
      Step root mem (.map4k va pa flags) mem'
  | map4kPages {mem mem' : Memory} {va : Nat} {pa : Frame} {count : Nat} {flags : Entry}
      {frames : List Frame}
      (clear : ∀ i < count, ∀ middle,
        Rights.map4kPages ⟨mem, frames⟩ root va pa i flags = .ok middle →
        NoHuge middle.mem root (pathOf ((va + i * pageSize) % 2 ^ 64)))
      (fresh : FreshTables root mem frames)
      (done : Rights.map4kPages ⟨mem, frames⟩ root va pa count flags = .ok ⟨mem', []⟩) :
      Step root mem (.map4kPages va pa count flags) mem'
  | map2m {mem mem' : Memory} {va : Nat} {pa : Frame} {flags : Entry} {frames : List Frame}
      (clear : NoHuge mem root [pml4Index va, pdptIndex va]) (fresh : FreshTables root mem frames)
      (done : Rights.map2m ⟨mem, frames⟩ root va pa flags = .ok ⟨mem', []⟩) :
      Step root mem (.map2m va pa flags) mem'
  | map1g {mem mem' : Memory} {va : Nat} {pa : Frame} {flags : Entry} {frames : List Frame}
      (clear : NoHuge mem root [pml4Index va]) (fresh : FreshTables root mem frames)
      (done : Rights.map1g ⟨mem, frames⟩ root va pa flags = .ok ⟨mem', []⟩) :
      Step root mem (.map1g va pa flags) mem'
  | unmap4k {mem : Memory} {va : Nat} (clear : NoHuge mem root [pml4Index va, pdptIndex va]) :
      Step root mem (.unmap4k va) (Vmm.unmap4k (Machine.mk mem ([] : List Frame)) root va).mem

/-- The flags that a call asks for replace those asked for earlier. -/
def Record.step (record : Record) : Call → Record
  | .map4k va _ flags => record.set (indices va) flags
  | .map4kPages va _ count flags => (List.range count).foldl
      (fun record i => record.set (indices ((va + i * pageSize) % 2 ^ 64)) flags) record
  | .map2m va _ flags => record.set [pml4Index va, pdptIndex va, pdIndex va] flags
  | .map1g va _ flags => record.set [pml4Index va, pdptIndex va] flags
  | .unmap4k _ => record

variable {record : Record}

theorem Sound.supply {frames : List Frame} (sound : Sound root ⟨mem, []⟩ record) (fresh : FreshTables root mem frames)
    : Sound root ⟨mem, frames⟩ record :=
  ⟨sound.distinct, sound.lawful, fresh⟩

theorem step_sound {mem' : Memory} {call : Call} (sound : Sound root ⟨mem, []⟩ record)
    (step : Step root mem call mem') : Sound root ⟨mem', []⟩ (record.step call) := by
  cases step with
  | map4k clear fresh done => exact (sound.supply fresh).map4k (.of_noHuge clear) done
  | map4kPages clear fresh done => exact (sound.supply fresh).map4kPages clear done
  | map2m clear fresh done => exact (sound.supply fresh).map2m (.of_noHuge clear) done
  | map1g clear fresh done => exact (sound.supply fresh).map1g (.of_noHuge clear) done
  | unmap4k clear => exact sound.unmap4k (.of_noHuge clear)

theorem tablesAt_zeroed {f : Frame} {p : List Index} (zeroed : ∀ i, mem root i = 0)
    (reached : tablesAt mem root p = some f) : p = [] ∧ f = root := by
  cases p with
  | nil => exact ⟨rfl, (Option.some.inj reached).symm⟩
  | cons i p =>
    rw [tablesAt, nodeAt, zeroed i] at reached
    cases reached

theorem zeroed_sound (zeroed : ∀ i, mem root i = 0) : Sound root ⟨mem, []⟩ fun _ => none := by
  have blank : ∀ p j e, viewOf mem root p j = some e → e = 0 := by
    intro p j e at_
    obtain ⟨f, reached, rfl⟩ := Option.map_eq_some_iff.mp at_
    obtain ⟨-, rfl⟩ := tablesAt_zeroed zeroed reached
    exact zeroed j
  refine ⟨?_, ⟨?_, ?_, ?_⟩, List.nodup_nil, ?_, ?_, ?_⟩
  · intro p _ q _ f left right
    rw [(tablesAt_zeroed zeroed left).1, (tablesAt_zeroed zeroed right).1]
  · intro i e at_
    rw [blank [] i e at_]
    rfl
  · intro p i j e below _ _ atBelow present
    rw [blank _ j below atBelow] at present
    cases present
  · intro p i e _ at_ leaf
    have present := leaf.1
    rw [blank p i e at_] at present
    cases present
  · exact fun f member => absurd member List.not_mem_nil
  · exact fun f member => absurd member List.not_mem_nil
  · exact fun member => absurd member List.not_mem_nil

theorem all_eq_last {above : List Entry} (within : ∀ x ∈ above, Within e x) :
    (above ++ [e]).all isWritable = isWritable e ∧ (above ++ [e]).all isUser = isUser e := by
  have last : ∀ f : Entry → Bool, (∀ x ∈ above, f e = true → f x = true) → (above ++ [e]).all f = f e := by
    intro f grant
    rw [List.all_append, List.all_cons, List.all_nil, Bool.and_true]
    cases bit : f e with
    | false => exact Bool.and_false _
    | true =>
      rw [Bool.and_true, List.all_eq_true]
      exact fun x member => grant x member bit
  exact ⟨last isWritable fun x member => (within x member).1, last isUser fun x member => (within x member).2⟩

theorem Sound.rights {m : Machine (List Frame)} {va : Nat} {entries : List Entry} (sound : Sound root m record)
    (mapped : walkEntries m.mem root va = some entries) :
    ∃ flags, record va = some flags ∧ entries.all isWritable = isWritable flags ∧ entries.all isUser = isUser flags := by
  have finish : ∀ p i e above, p.length ≤ 3 → viewOf m.mem root p i = some e → IsLeaf p e →
      p ++ [i] <+: indices va → (∀ x ∈ above, Within e x) → ∃ flags, record va = some flags ∧
        (above ++ [e]).all isWritable = isWritable flags ∧ (above ++ [e]).all isUser = isUser flags := by
    intro p i e above short at_ leaf below within
    obtain ⟨flags, found, writable, user⟩ := sound.lawful.recorded p i e short at_ leaf va below
    obtain ⟨allWritable, allUser⟩ := all_eq_last within
    exact ⟨flags, found, allWritable.trans writable, allUser.trans user⟩
  unfold walkEntries at mapped
  dsimp only at mapped
  split at mapped
  · cases mapped
  · rename_i pml4e
    rw [not_not] at pml4e
    have atTop : viewOf m.mem root [] (pml4Index va) = some (m.mem root (pml4Index va)) := rfl
    have at₁ : tablesAt m.mem root [pml4Index va] = some (frameOf (m.mem root (pml4Index va))) := by
      simp [tablesAt, nodeAt, tableChild_of_table pml4e (sound.lawful.small _ _ atTop)]
    split at mapped
    · cases mapped
    · rename_i pdpte
      rw [not_not] at pdpte
      have view₁ := entryAt_of at₁ (pdptIndex va)
      have up₁ := sound.lawful.covers [] _ _ _ _ (by simp) atTop view₁ pdpte
      split at mapped
      · rename_i huge
        cases mapped
        exact finish _ _ _ [_] (by simp) view₁ ⟨pdpte, .inr huge⟩ (by simp [indices]) (by simpa using up₁)
      · rename_i table₁
        have at₂ : tablesAt m.mem root ([pml4Index va] ++ [pdptIndex va]) = some _ :=
          (nodeAt_concat_of at₁).trans (tableChild_of_table pdpte (by simpa using table₁))
        split at mapped
        · cases mapped
        · rename_i pde
          rw [not_not] at pde
          have view₂ := entryAt_of at₂ (pdIndex va)
          have up₂ := sound.lawful.covers [pml4Index va] _ _ _ _ (by simp) view₁ view₂ pde
          split at mapped
          · rename_i huge
            cases mapped
            apply finish _ _ _ [_, _] (by simp) view₂ ⟨pde, .inr huge⟩ (by simp [indices])
            simpa using ⟨up₂.trans up₁, up₂⟩
          · rename_i table₂
            have at₃ : tablesAt m.mem root ([pml4Index va] ++ [pdptIndex va] ++ [pdIndex va]) = some _ :=
              (nodeAt_concat_of at₂).trans (tableChild_of_table pde (by simpa using table₂))
            split at mapped
            · cases mapped
            · rename_i pte
              rw [not_not] at pte
              have view₃ := entryAt_of at₃ (ptIndex va)
              have up₃ := sound.lawful.covers ([pml4Index va] ++ [pdptIndex va]) _ _ _ _ (by simp) view₂
                view₃ pte
              cases mapped
              apply finish _ _ _ [_, _, _] (by simp) view₃ ⟨pte, .inl rfl⟩ (by simp [indices])
              simpa using ⟨(up₃.trans up₂).trans up₁, up₃.trans up₂, up₃⟩

/-- The rights that the CPU enforces for a mapped address are those asked for by its
most recent mapping. -/
theorem enforced_rights_eq_flags (root : Frame) (mem : Memory) (zeroed : ∀ i, mem root i = 0)
    (calls : List Call) (mem' : Memory) (run : Run (Step root) mem calls mem') (va : Nat)
    (entries : List Entry) (mapped : walkEntries mem' root va = some entries) :
    ∃ flags, (calls.foldl Record.step fun _ => none : Record) va = some flags ∧
      entries.all isWritable = isWritable flags ∧ entries.all isUser = isUser flags := by
  have sound := run.simulation (fun mem record => Sound root ⟨mem, []⟩ record) Record.step
    (fun _ _ _ _ sound step => step_sound sound step) (zeroed_sound zeroed)
  exact sound.rights mapped

/-- The tables after a read-only user page and a writable kernel page next to it have been
mapped. -/
def sharedTables : Memory :=
  let first := memoryOf (Vmm.map4k ⟨fun _ _ => 0, [0x2000, 0x3000, 0x4000]⟩ 0x1000 0x400000 0x5000 4)
  memoryOf (Vmm.map4k ⟨first, []⟩ 0x1000 0x401000 0x6000 2)

theorem sharedTables_run : Run (Step 0x1000) (fun _ _ => 0)
    [.map4k 0x400000 0x5000 4, .map4k 0x401000 0x6000 2] sharedTables := by
  have aligned : ∀ f ∈ [0x2000, 0x3000, 0x4000], frameOf f = f := by
    intro f member
    simp only [List.mem_cons, List.not_mem_nil, or_false] at member
    rcases member with rfl | rfl | rfl <;> decide
  have fresh : FreshTables 0x1000 (fun _ _ => 0) [0x2000, 0x3000, 0x4000] := by
    refine ⟨by decide, aligned, ?_, by decide⟩
    intro f member table
    obtain ⟨p, -, reached⟩ := table
    obtain ⟨-, rfl⟩ := tablesAt_zeroed (fun _ => rfl) reached
    simp at member
  have spent : ∀ mem : Memory, FreshTables 0x1000 mem [] := fun mem =>
    ⟨List.nodup_nil, by simp, by simp, by simp⟩
  exact .cons (.map4k (by decide +kernel) fresh (eq_ok_of_framesLeft (by decide +kernel)))
    (.single (.map4k (by decide +kernel) (spent _) (eq_ok_of_framesLeft (by decide +kernel))))

/-- The tables above the two pages grant both rights; the user page stays read-only. -/
theorem enforced_rights_eq_flags_shared : ∃ entries,
    walkEntries sharedTables 0x1000 0x400000 = some entries ∧
    entries.all isWritable = false ∧ entries.all isUser = true := by
  obtain ⟨entries, mapped⟩ : ∃ entries, walkEntries sharedTables 0x1000 0x400000 = some entries :=
    Option.isSome_iff_exists.mp (by decide +kernel)
  obtain ⟨flags, asked, writable, user⟩ :=
    enforced_rights_eq_flags 0x1000 _ (fun _ => rfl) _ _ sharedTables_run _ entries mapped
  have known : flags = 4 := Option.some.inj (asked.symm.trans (by decide +kernel))
  subst known
  exact ⟨entries, mapped, writable, user⟩

end CreeperKernel.Rights
