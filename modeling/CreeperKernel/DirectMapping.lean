import CreeperKernel.PageRights
import CreeperKernel.UserMappings

namespace CreeperKernel.Vmm

open RadixTree
open Rights (map1g map2m)

def shallowScope (d : Nat) : TableScope where
  paths := {p | p.length ≤ d ∧ p.length ≤ 3}
  closed := by
    intro p i inside
    have shorter : p.length ≤ (p ++ [i]).length := by
      rw [List.length_append]
      omega
    exact ⟨shorter.trans inside.1, shorter.trans inside.2⟩
  depth := fun _ inside => inside.2

/-- The entry `map_2m` and `map_1g` install for a page. -/
def hugeEntry (pa : Frame) (flags : Entry) : Entry := (pa &&& pteAddrMask) ||| flags ||| pteHuge ||| ptePresent

theorem isPresent_hugeEntry (pa : Frame) (flags : Entry) : isPresent (hugeEntry pa flags) = true := by
  rw [hugeEntry, isPresent_or, isPresent_ptePresent, Bool.or_true]

theorem view_hugeEntry {pa : Frame} {flags : Entry} (clean : flags &&& pteAddrMask = 0) :
    view (hugeEntry pa flags) = some (frameOf pa, true) := by
  have huge : isHuge (hugeEntry pa flags) = true := by
    have bit : isHuge pteHuge = true := by decide
    rw [hugeEntry, isHuge_or, isHuge_or, bit, Bool.or_true, Bool.true_or]
  have frame : frameOf (hugeEntry pa flags) = frameOf pa := by
    have address : frameOf (pa &&& pteAddrMask) = frameOf pa := frameOf_frameOf pa
    have bare : frameOf flags = 0 := clean
    have bit : frameOf pteHuge = 0 := by decide
    simp only [hugeEntry, frameOf_or, address, bare, bit, frameOf_ptePresent]
    simp
  rw [view_of_present (isPresent_hugeEntry pa flags), huge, frame]

/-- The table at `q` is reached. New entries are only on the way to it. -/
structure Descended (scope : TableScope) (root : Frame) (m : Machine (List Frame)) (q : List Index) (table : Frame)
    (m' : Machine (List Frame)) : Prop where
  paging : Paging scope m'.mem root
  fresh : FreshIn scope root m'.mem m'.frames
  here : tableAt m'.mem root q = some table
  along : ∀ {old : Memory} {ways : Set (List Index)}, ExtendsAlong scope root old ways m.mem →
    ExtendsAlong scope root old (insert q ways) m'.mem
  reads : ∀ p ∈ scope.paths, q.length ≤ p.length → ∀ j, readEntry m'.mem root p j = readEntry m.mem root p j

/-- An entry of a table at the bottom of the scope has been written. -/
structure Placed (scope : TableScope) (root : Frame) (m : Machine (List Frame)) (q : List Index) (i : Index) (e : Entry)
    (m' : Machine (List Frame)) : Prop where
  paging : Paging scope m'.mem root
  fresh : FreshIn scope root m'.mem m'.frames
  along : ∀ {old : Memory} {ways : Set (List Index)}, ExtendsAlong scope root old ways m.mem →
    isPresent (readEntry old root q i) = false → ExtendsAlong scope root old (insert (q ++ [i]) ways) m'.mem
  reads : ∀ p ∈ scope.paths, q.length ≤ p.length → ∀ j, readEntry m'.mem root p j =
    if p = q ∧ j = i then e else readEntry m.mem root p j

section Descent

variable {scope : TableScope} {root table next : Frame} {m m₁ m₂ : Machine (List Frame)} {q : List Index} {i : Index}
  {e flags : Entry}

theorem Descended.refl (paging : Paging scope m.mem root) (fresh : FreshIn scope root m.mem m.frames) :
    Descended scope root m [] root m where
  paging := paging
  fresh := fresh
  here := rfl
  along := fun along => along.mono fun w way => ⟨w, Set.mem_insert_of_mem _ way, List.prefix_refl w⟩
  reads := fun _ _ _ _ => rfl

theorem ExtendsAlong.longer {old mem : Memory} {ways : Set (List Index)}
    (along : ExtendsAlong scope root old (insert (q ++ [i]) (insert q ways)) mem) :
    ExtendsAlong scope root old (insert (q ++ [i]) ways) mem := by
  apply along.mono
  intro w way
  rcases Set.mem_insert_iff.mp way with rfl | way
  · exact ⟨q ++ [i], Set.mem_insert _ _, List.prefix_refl _⟩
  rcases Set.mem_insert_iff.mp way with rfl | way
  · exact ⟨w ++ [i], Set.mem_insert _ _, List.prefix_append w [i]⟩
  · exact ⟨w, Set.mem_insert_of_mem _ way, List.prefix_refl w⟩

theorem Descended.step (descended : Descended scope root m q table m₁) (inside : q ++ [i] ∈ scope.paths)
    (done : tableGetOrCreate m₁ table i flags = .ok (next, m₂)) : Descended scope root m (q ++ [i]) next m₂ := by
  have supply := freshIn_supply scope root
  obtain ⟨_, grown, fresh, here⟩ := tableGetOrCreate_spec supply descended.fresh descended.paging inside descended.here done
  refine ⟨grown.paging, fresh, here, fun along => ?_, fun p member deeper j => ?_⟩
  · exact ((descended.along along).get_or_create supply descended.fresh descended.paging inside descended.here done).longer
  · obtain ⟨e, edited, _, _⟩ := tableGetOrCreate_edited supply descended.fresh descended.paging inside descended.here done
    rw [List.length_append, List.length_singleton] at deeper
    rw [edited p member j, if_neg]
    · exact descended.reads p member (by omega) j
    · intro on
      rw [on.1] at deeper
      omega

theorem Descended.place (descended : Descended scope root m q table m₁) (inside : q ∈ scope.paths)
    (bottom : q ++ [i] ∉ scope.paths) (present : isPresent e = true) : Placed scope root m q i e (m₁.store table i e) := by
  have distinct := descended.paging.distinct
  have tables : ∀ p ∈ scope.paths, tableAt (write m₁.mem table i e) root p = tableAt m₁.mem root p :=
    nodeAt_write_same distinct inside descended.here fun extended => absurd extended bottom
  have edited : Edited scope root m₁.mem q i e (write m₁.mem table i e) :=
    readAt_write_same distinct inside descended.here fun extended => absurd extended bottom
  refine ⟨⟨distinct.congr tables, ?_⟩, ?_, fun along absent => ?_, fun p member deeper j => ?_⟩
  · intro p j f extended reached present
    replace reached := (tables p (scope.closed extended)).symm.trans reached
    have off : ¬ (f = table ∧ j = i) := by
      rintro ⟨rfl, rfl⟩
      rw [distinct p (scope.closed extended) q inside f reached descended.here] at extended
      exact bottom extended
    have same : (m₁.store table i e).mem f j = m₁.mem f j := by
      show write m₁.mem table i e f j = _
      rw [write_apply, if_neg off]
    rw [same] at present ⊢
    exact descended.paging.small p j f extended reached present
  · apply descended.fresh.taken (.nil _)
    · intro f
      rw [or_iff_left List.not_mem_nil]
      exact IsTable.congr tables f
    · intro f outside
      apply write_of_ne_node
      rintro rfl
      exact outside ⟨q, inside, (tables q inside).trans descended.here⟩
  · exact ((descended.along along).fill edited present fun before => by rw [absent] at before; cases before).longer
  · show readEntry (write m₁.mem table i e) root p j = _
    rw [edited p member j, descended.reads p member deeper j]

variable {va : Nat} {pa : Frame}

theorem map1g_placed (paging : Paging (shallowScope 1) m.mem root)
    (fresh : FreshIn (shallowScope 1) root m.mem m.frames) (done : map1g m root va pa flags = .ok m₁) :
    Placed (shallowScope 1) root m [pml4Index va] (pdptIndex va) (hugeEntry pa flags) m₁ := by
  obtain ⟨⟨pdpt, middle⟩, first, done⟩ := Outcome.bind_eq_ok.mp done
  cases done
  have one : [] ++ [pml4Index va] ∈ (shallowScope 1).paths := ⟨Nat.le_refl 1, by simp⟩
  have descended := (Descended.refl paging fresh).step one first
  exact descended.place one (fun deeper => absurd deeper.1 (by simp)) (isPresent_hugeEntry pa flags)

theorem map2m_placed (paging : Paging (shallowScope 2) m.mem root)
    (fresh : FreshIn (shallowScope 2) root m.mem m.frames) (done : map2m m root va pa flags = .ok m₁) :
    Placed (shallowScope 2) root m [pml4Index va, pdptIndex va] (pdIndex va) (hugeEntry pa flags) m₁ := by
  obtain ⟨⟨pdpt, m₂⟩, first, done⟩ := Outcome.bind_eq_ok.mp done
  obtain ⟨⟨pd, m₃⟩, second, done⟩ := Outcome.bind_eq_ok.mp done
  cases done
  have one : [] ++ [pml4Index va] ∈ (shallowScope 2).paths := ⟨Nat.le_succ 1, by simp⟩
  have two : [pml4Index va] ++ [pdptIndex va] ∈ (shallowScope 2).paths := ⟨Nat.le_refl 2, by simp⟩
  have descended := ((Descended.refl paging fresh).step one first).step two second
  exact descended.place two (fun deeper => absurd deeper.1 (by simp)) (isPresent_hugeEntry pa flags)

end Descent

/-- Slot by slot, the first `k` entries have been written into tables that were not there in
`old`, and nothing else. -/
structure Filled (old : Memory) (root : Frame) (d : Nat) (slot : Nat → List Index × Index) (entry : Nat → Entry)
    (k : Nat) (m : Machine (List Frame)) : Prop where
  paging : Paging (shallowScope d) m.mem root
  fresh : FreshIn (shallowScope d) root m.mem m.frames
  along : ExtendsAlong (shallowScope d) root old {w | ∃ n < k, w = (slot n).1 ++ [(slot n).2]} m.mem
  entries : ∀ n < k, readEntry m.mem root (slot n).1 (slot n).2 = entry n

section Fill

variable {old : Memory} {root : Frame} {d k : Nat} {slot : Nat → List Index × Index} {entry : Nat → Entry}
  {m m' : Machine (List Frame)}

theorem readEntry_zeroed (zeroed : ∀ i, old root i = 0) (p : List Index) (j : Index) : readEntry old root p j = 0 := by
  cases reached : tableAt old root p with
  | none => exact readAt_of_none reached j
  | some f =>
    rw [readEntry, readAt_of reached, (tableAt_zeroed zeroed reached).2]
    exact zeroed j

theorem filled_zero (zeroed : ∀ i, m.mem root i = 0) (fresh : FreshFrames root m.mem m.frames) (d : Nat)
    (slot : Nat → List Index × Index) (entry : Nat → Entry) : Filled m.mem root d slot entry 0 m := by
  refine ⟨zeroed_paging _ zeroed, ⟨fresh.nodup, fun f member => ?_⟩, ?_, fun n below => absurd below (Nat.not_lt_zero n)⟩
  · have usable := fresh.usable f member
    exact ⟨usable.aligned, fun ⟨p, inside, reached⟩ => usable.unused ⟨p, inside.2, reached⟩, usable.blank⟩
  · exact (ExtendsAlong.refl _ _ _).mono fun w way => absurd way (Set.notMem_empty w)

theorem Filled.step (zeroed : ∀ i, old root i = 0) (depth : (slot k).1.length = d) (few : d ≤ 3)
    (distinct : ∀ n < k, slot n ≠ slot k) (level : ∀ n < k, (slot n).1.length = d)
    (filled : Filled old root d slot entry k m)
    (placed : Placed (shallowScope d) root m (slot k).1 (slot k).2 (entry k) m') :
    Filled old root d slot entry (k + 1) m' := by
  have absent : isPresent (readEntry old root (slot k).1 (slot k).2) = false := by
    rw [readEntry_zeroed zeroed]
    exact isPresent_zero
  have inside : ∀ {n : Nat}, (slot n).1.length = d → (slot n).1 ∈ (shallowScope d).paths := fun same =>
    ⟨Nat.le_of_eq same, same ▸ few⟩
  refine ⟨placed.paging, placed.fresh, (placed.along filled.along absent).mono fun w way => ?_, fun n below => ?_⟩
  · rcases Set.mem_insert_iff.mp way with rfl | ⟨n, below, rfl⟩
    · exact ⟨_, ⟨k, Nat.lt_succ_self k, rfl⟩, List.prefix_refl _⟩
    · exact ⟨_, ⟨n, Nat.lt_succ_of_lt below, rfl⟩, List.prefix_refl _⟩
  · by_cases last : n = k
    · rw [last, placed.reads _ (inside depth) (Nat.le_refl _), if_pos ⟨rfl, rfl⟩]
    · have earlier : n < k := by omega
      rw [placed.reads _ (inside (level n earlier)) (by rw [depth, level n earlier]), if_neg]
      · exact filled.entries n earlier
      · intro on
        exact distinct n earlier (Prod.ext on.1 on.2)

theorem Filled.only (zeroed : ∀ i, old root i = 0) (few : d ≤ 3) (level : ∀ n < k, (slot n).1.length = d)
    (filled : Filled old root d slot entry k m) {p : List Index} (depth : p.length = d) {j : Index}
    (present : isPresent (readEntry m.mem root p j) = true) : ∃ n < k, slot n = (p, j) := by
  rcases filled.along.only p ⟨Nat.le_of_eq depth, depth ▸ few⟩ j present with before | ⟨w, ⟨n, below, rfl⟩, front⟩
  · rw [readEntry_zeroed zeroed] at before
    cases before
  · have same : p ++ [j] = (slot n).1 ++ [(slot n).2] := by
      apply front.eq_of_length
      rw [List.length_append, List.length_append, depth, level n below]
      rfl
    have parts := List.append_inj' same rfl
    exact ⟨n, below, (Prod.ext parts.1 (List.singleton_inj.mp parts.2)).symm⟩

end Fill

def pageSize2M : Nat := 0x200000
def pageSize1G : Nat := 0x40000000

def hhdmFlags : Entry := ptePresent ||| pteWritable ||| pteNx

/-- `hhdm_map_physical_memory` of a kernel built with `HHDM_SIZE_GB = sizeGb`. `huge1g` is the answer of
`cpu_has_1gb_pages`. -/
def hhdmMapPhysicalMemory {σ : Type} [FrameAllocator σ] (sizeGb : Nat) (huge1g : Bool) (m : Machine σ) (pml4 : Frame) :
    Outcome (Machine σ) :=
  (List.range sizeGb).foldlM (fun m gb =>
    let pa := gb * pageSize1G
    let va := hhdmVbase + pa
    if huge1g then map1g m pml4 va (BitVec.ofNat 64 pa) hhdmFlags
    else (List.range (pageSize1G / pageSize2M)).foldlM (fun m k =>
      let off := k * pageSize2M
      map2m m pml4 (va + off) (BitVec.ofNat 64 (pa + off)) hhdmFlags) m) m

/-- The static assertions on `HHDM_SIZE_GB`. -/
structure HhdmSize (sizeGb : Nat) : Prop where
  positive : 0 < sizeGb
  below : sizeGb ≤ 255 * 512

-- the default of `vmm.h`
example : HhdmSize 4096 := ⟨by decide, by decide⟩

/-- What the direct map is for. -/
def directTranslation (sizeGb va : Nat) : BitVec 64 :=
  if hhdmVbase ≤ va ∧ va < hhdmVbase + sizeGb * pageSize1G then BitVec.ofNat 64 (va - hhdmVbase) else notMapped

/-- Bit 47 of the address is repeated above. -/
def CanonicalAddress (va : Nat) : Prop := va < 2 ^ 47 ∨ 2 ^ 64 - 2 ^ 47 ≤ va ∧ va < 2 ^ 64

def slot1G (n : Nat) : List Index × Index :=
  ([pml4Index (hhdmVbase + n * pageSize1G)], pdptIndex (hhdmVbase + n * pageSize1G))

def slot2M (n : Nat) : List Index × Index :=
  ([pml4Index (hhdmVbase + n * pageSize2M), pdptIndex (hhdmVbase + n * pageSize2M)],
    pdIndex (hhdmVbase + n * pageSize2M))

def entry1G (n : Nat) : Entry := hugeEntry (BitVec.ofNat 64 (n * pageSize1G)) hhdmFlags
def entry2M (n : Nat) : Entry := hugeEntry (BitVec.ofNat 64 (n * pageSize2M)) hhdmFlags

section Slots

variable {sizeGb va n k : Nat}

theorem slot1G_injective (left : n < 255 * 512) (right : k < 255 * 512) (same : slot1G n = slot1G k) : n = k := by
  simp only [slot1G, Prod.mk.injEq, List.cons.injEq, and_true, pml4Index, pdptIndex, Fin.mk.injEq, hhdmVbase,
    pageSize1G] at same
  omega

theorem slot2M_injective (left : n < 255 * 512 * 512) (right : k < 255 * 512 * 512) (same : slot2M n = slot2M k) :
    n = k := by
  simp only [slot2M, Prod.mk.injEq, List.cons.injEq, and_true, pml4Index, pdptIndex, pdIndex, Fin.mk.injEq, hhdmVbase,
    pageSize2M] at same
  omega

theorem slot1G_iff (canonical : CanonicalAddress va) (small : n < 255 * 512) :
    slot1G n = ([pml4Index va], pdptIndex va) ↔ hhdmVbase ≤ va ∧ (va - hhdmVbase) / pageSize1G = n := by
  unfold CanonicalAddress at canonical
  simp only [slot1G, Prod.mk.injEq, List.cons.injEq, and_true, pml4Index, pdptIndex, Fin.mk.injEq, hhdmVbase,
    pageSize1G]
  omega

theorem slot2M_iff (canonical : CanonicalAddress va) (small : n < 255 * 512 * 512) :
    slot2M n = ([pml4Index va, pdptIndex va], pdIndex va) ↔ hhdmVbase ≤ va ∧ (va - hhdmVbase) / pageSize2M = n := by
  unfold CanonicalAddress at canonical
  simp only [slot2M, Prod.mk.injEq, List.cons.injEq, and_true, pml4Index, pdptIndex, pdIndex, Fin.mk.injEq, hhdmVbase,
    pageSize2M]
  omega

theorem huge_or_offset {w : Nat} (low : 12 ≤ w) (bound : n * 2 ^ w < 2 ^ 52) {offset : Nat} (inside : offset < 2 ^ w) :
    frameOf (BitVec.ofNat 64 (n * 2 ^ w)) ||| BitVec.ofNat 64 offset = BitVec.ofNat 64 (n * 2 ^ w + offset) := by
  have page : BitVec.ofNat 64 (n * 2 ^ w) = pageAt (n * 2 ^ (w - 12)) := by
    have split : 2 ^ w = 2 ^ (w - 12) * Pmm.pageSize := by
      show 2 ^ w = 2 ^ (w - 12) * 2 ^ 12
      rw [← Nat.pow_add, Nat.sub_add_cancel low]
    rw [pageAt, Nat.mul_assoc, ← split]
  have small : n * 2 ^ (w - 12) < 2 ^ 40 := by
    have split : n * 2 ^ w = n * 2 ^ (w - 12) * 2 ^ 12 := by
      rw [Nat.mul_assoc, ← Nat.pow_add, Nat.sub_add_cancel low]
    omega
  rw [page, frameOf_pageAt small, ← page, ← BitVec.ofNat_or]
  congr 1
  rw [Nat.mul_comm, Nat.two_pow_add_eq_or_of_lt inside]

end Slots

section Translation

variable {old : Memory} {root : Frame} {sizeGb va : Nat} {m : Machine (List Frame)}

theorem hhdmFlags_clean : hhdmFlags &&& pteAddrMask = 0 := by decide

theorem directTranslation_of_inside {n offset w : Nat} (below : va = hhdmVbase + (n * 2 ^ w + offset))
    (inside : n * 2 ^ w + offset < sizeGb * pageSize1G) :
    directTranslation sizeGb va = BitVec.ofNat 64 (n * 2 ^ w + offset) := by
  rw [directTranslation, if_pos (by omega), below, Nat.add_sub_cancel_left]

theorem Filled.translation1G (size : HhdmSize sizeGb) (zeroed : ∀ i, old root i = 0)
    (filled : Filled old root 1 slot1G entry1G sizeGb m) (canonical : CanonicalAddress va) :
    pageDirVirtToPhys m.mem root va = directTranslation sizeGb va := by
  have bound := size.below
  have unit : pageSize1G = 2 ^ 30 := rfl
  have level : ∀ n < sizeGb, (slot1G n).1.length = 1 := fun _ _ => rfl
  rw [pageDirVirtToPhys_views, translate]
  by_cases inside : hhdmVbase ≤ va ∧ va < hhdmVbase + sizeGb * pageSize1G
  · have small : (va - hhdmVbase) / pageSize1G < sizeGb := by
      rw [unit] at inside ⊢
      omega
    have slot := (slot1G_iff canonical (Nat.lt_of_lt_of_le small bound)).mpr ⟨inside.1, rfl⟩
    have entry := filled.entries _ small
    rw [slot] at entry
    dsimp only at entry
    have second : isPresent (readEntry m.mem root [pml4Index va] (pdptIndex va)) = true := by
      rw [entry]
      exact isPresent_hugeEntry _ _
    have first : isPresent (readEntry m.mem root [] (pml4Index va)) = true := present_of_below second
    rw [view_of_present first, entry, entry1G, view_hugeEntry hhdmFlags_clean]
    dsimp only
    rw [unit] at inside small ⊢
    have offset : va % 2 ^ 30 = (va - hhdmVbase) % 2 ^ 30 := by
      have base : hhdmVbase = 2 ^ 30 * 0x3FFFE0000 := rfl
      omega
    rw [huge_or_offset (by decide) (by omega) (Nat.mod_lt _ (Nat.two_pow_pos 30)), offset]
    exact (directTranslation_of_inside (by omega) (by rw [unit]; omega)).symm
  · rw [directTranslation, if_neg inside]
    have absent : isPresent (readEntry m.mem root [pml4Index va] (pdptIndex va)) = false := by
      by_contra found
      obtain ⟨n, below, slot⟩ := filled.only zeroed (by decide) level rfl (Bool.eq_true_of_not_eq_false found)
      have page := (slot1G_iff canonical (Nat.lt_of_lt_of_le below bound)).mp slot
      rw [unit] at page inside
      omega
    rw [view_of_absent absent]
    cases view (readEntry m.mem root [] (pml4Index va)) with
    | none => rfl
    | some _ => rfl

theorem Filled.translation2M (size : HhdmSize sizeGb) (zeroed : ∀ i, old root i = 0)
    (filled : Filled old root 2 slot2M entry2M (sizeGb * 512) m) (canonical : CanonicalAddress va) :
    pageDirVirtToPhys m.mem root va = directTranslation sizeGb va := by
  have bound := size.below
  have unit : pageSize2M = 2 ^ 21 := rfl
  have gib : pageSize1G = 2 ^ 30 := rfl
  have level : ∀ n < sizeGb * 512, (slot2M n).1.length = 2 := fun _ _ => rfl
  -- the tables of the second level hold no huge pages
  have second : isPresent (readEntry m.mem root [pml4Index va] (pdptIndex va)) = true →
      view (readEntry m.mem root [pml4Index va] (pdptIndex va)) =
        some (frameOf (readEntry m.mem root [pml4Index va] (pdptIndex va)), false) := by
    intro present
    cases reached : tableAt m.mem root [pml4Index va] with
    | none =>
      rw [readEntry, readAt_of_none reached] at present
      cases present
    | some f =>
      have read : readEntry m.mem root [pml4Index va] (pdptIndex va) = m.mem f (pdptIndex va) := readAt_of reached _
      have small := filled.paging.small [pml4Index va] (pdptIndex va) f ⟨Nat.le_refl 2, by simp⟩ reached
        (by rw [← read]; exact present)
      rw [view_of_present present, read, small]
  rw [pageDirVirtToPhys_views, translate]
  by_cases inside : hhdmVbase ≤ va ∧ va < hhdmVbase + sizeGb * pageSize1G
  · have small : (va - hhdmVbase) / pageSize2M < sizeGb * 512 := by
      rw [gib] at inside
      rw [unit]
      omega
    have few : (va - hhdmVbase) / pageSize2M < 255 * 512 * 512 :=
      Nat.lt_of_lt_of_le small (Nat.mul_le_mul_right 512 bound)
    have slot := (slot2M_iff canonical few).mpr ⟨inside.1, rfl⟩
    have entry := filled.entries _ small
    rw [slot] at entry
    dsimp only at entry
    have third : isPresent (readEntry m.mem root [pml4Index va, pdptIndex va] (pdIndex va)) = true := by
      rw [entry]
      exact isPresent_hugeEntry _ _
    have above : isPresent (readEntry m.mem root [pml4Index va] (pdptIndex va)) = true := present_of_below third
    have first : isPresent (readEntry m.mem root [] (pml4Index va)) = true := present_of_below above
    rw [view_of_present first, second above, entry, entry2M, view_hugeEntry hhdmFlags_clean]
    dsimp only
    rw [gib] at inside
    rw [unit] at small ⊢
    have offset : va % 2 ^ 21 = (va - hhdmVbase) % 2 ^ 21 := by
      have base : hhdmVbase = 2 ^ 21 * 0x7FFFC000000 := rfl
      omega
    rw [huge_or_offset (by decide) (by omega) (Nat.mod_lt _ (Nat.two_pow_pos 21)), offset]
    exact (directTranslation_of_inside (by omega) (by rw [gib]; omega)).symm
  · rw [directTranslation, if_neg inside]
    have absent : isPresent (readEntry m.mem root [pml4Index va, pdptIndex va] (pdIndex va)) = false := by
      by_contra found
      obtain ⟨n, below, slot⟩ := filled.only zeroed (by decide) level rfl (Bool.eq_true_of_not_eq_false found)
      have few : n < 255 * 512 * 512 := Nat.lt_of_lt_of_le below (Nat.mul_le_mul_right 512 bound)
      have page := (slot2M_iff canonical few).mp slot
      rw [gib] at inside
      rw [unit] at page
      omega
    rw [view_of_absent absent]
    cases view (readEntry m.mem root [] (pml4Index va)) with
    | none => rfl
    | some _ =>
      dsimp only
      cases above : isPresent (readEntry m.mem root [pml4Index va] (pdptIndex va)) with
      | false => rw [view_of_absent above]
      | true => rw [second above]

end Translation

section Loops

variable {old : Memory} {root : Frame} {sizeGb va k left : Nat} {pa : Frame} {flags : Entry} {m : Machine (List Frame)}

theorem map1g_returns (root : Frame) (va : Nat) (pa : Frame) (flags : Entry)
    (enough : tablesNeeded (readEntry m.mem root [] (pml4Index va)) ≤ m.frames.length) :
    ∃ m', map1g m root va pa flags = .ok m' ∧
      m.frames.length = m'.frames.length + tablesNeeded (readEntry m.mem root [] (pml4Index va)) := by
  have read : readEntry m.mem root [] (pml4Index va) = m.mem root (pml4Index va) := readAt_of (nodeAt_nil root) _
  rw [read] at enough ⊢
  obtain ⟨pdpt, m₁, first, cost⟩ := tableGetOrCreate_returns root (pml4Index va) flags enough
  refine ⟨m₁.store pdpt (pdptIndex va) (hugeEntry pa flags), ?_, cost⟩
  rw [map1g, first, Outcome.ok_bind]
  rfl

theorem map2m_returns (va : Nat) (pa : Frame) (flags : Entry) (paging : Paging (shallowScope 2) m.mem root)
    (fresh : FreshIn (shallowScope 2) root m.mem m.frames) (enough : tablesNeeded (readEntry m.mem root [] (pml4Index va)) +
      tablesNeeded (readEntry m.mem root [pml4Index va] (pdptIndex va)) ≤ m.frames.length) :
    ∃ m', map2m m root va pa flags = .ok m' ∧
      m.frames.length = m'.frames.length + (tablesNeeded (readEntry m.mem root [] (pml4Index va)) +
        tablesNeeded (readEntry m.mem root [pml4Index va] (pdptIndex va))) := by
  have read : readEntry m.mem root [] (pml4Index va) = m.mem root (pml4Index va) := readAt_of (nodeAt_nil root) _
  rw [read] at enough ⊢
  obtain ⟨pdpt, m₁, first, cost₁⟩ := tableGetOrCreate_returns root (pml4Index va) flags (m := m) (by omega)
  have one : [] ++ [pml4Index va] ∈ (shallowScope 2).paths := ⟨Nat.le_succ 1, by simp⟩
  have descended := (Descended.refl paging fresh).step one first
  -- the first step leaves the second level alone
  have second : m₁.mem pdpt (pdptIndex va) = readEntry m.mem root [pml4Index va] (pdptIndex va) := by
    have kept := descended.reads [pml4Index va] one (Nat.le_refl 1) (pdptIndex va)
    rw [← kept]
    exact (readAt_of descended.here _).symm
  obtain ⟨pd, m₂, next, cost₂⟩ := tableGetOrCreate_returns pdpt (pdptIndex va) flags (m := m₁) (by rw [second]; omega)
  rw [second] at cost₂
  refine ⟨m₂.store pd (pdIndex va) (hugeEntry pa flags), ?_, ?_⟩
  · rw [map2m, first, Outcome.ok_bind]
    dsimp only
    rw [next, Outcome.ok_bind]
    rfl
  · show m.frames.length = m₂.frames.length + _
    omega

theorem tablesNeeded_of_present {e : Entry} (present : isPresent e = true) : tablesNeeded e = 0 := if_pos present

def tables1G (k : Nat) : Nat := (k + 511) / 512

def tables2M (k : Nat) : Nat := (k + 511) / 512 + (k + 262143) / 262144

theorem Filled.needed1G (filled : Filled old root 1 slot1G entry1G k m) (small : k < 255 * 512) :
    tablesNeeded (readEntry m.mem root [] (pml4Index (hhdmVbase + k * pageSize1G))) + tables1G k ≤ tables1G (k + 1) := by
  have most := tablesNeeded_le (readEntry m.mem root [] (pml4Index (hhdmVbase + k * pageSize1G)))
  unfold tables1G
  by_cases first : k % 512 = 0
  · omega
  · have same : pml4Index (hhdmVbase + (k - 1) * pageSize1G) = pml4Index (hhdmVbase + k * pageSize1G) := by
      rw [pml4Index, pml4Index, Fin.mk.injEq, hhdmVbase, pageSize1G]
      omega
    have entry := filled.entries (k - 1) (by omega)
    have below : isPresent (readEntry m.mem root (slot1G (k - 1)).1 (slot1G (k - 1)).2) = true := by
      rw [entry]
      exact isPresent_hugeEntry _ _
    have above : isPresent (readEntry m.mem root [] (pml4Index (hhdmVbase + (k - 1) * pageSize1G))) = true :=
      present_of_below below
    rw [same] at above
    rw [tablesNeeded_of_present above]
    omega

theorem Filled.needed2M (filled : Filled old root 2 slot2M entry2M k m) (small : k < 255 * 512 * 512) :
    tablesNeeded (readEntry m.mem root [] (pml4Index (hhdmVbase + k * pageSize2M))) +
      tablesNeeded (readEntry m.mem root [pml4Index (hhdmVbase + k * pageSize2M)]
        (pdptIndex (hhdmVbase + k * pageSize2M))) + tables2M k ≤ tables2M (k + 1) := by
  have most := tablesNeeded_le (readEntry m.mem root [] (pml4Index (hhdmVbase + k * pageSize2M)))
  have most' := tablesNeeded_le (readEntry m.mem root [pml4Index (hhdmVbase + k * pageSize2M)]
    (pdptIndex (hhdmVbase + k * pageSize2M)))
  unfold tables2M
  by_cases first : k % 262144 = 0
  · omega
  · have same : pml4Index (hhdmVbase + (k - 1) * pageSize2M) = pml4Index (hhdmVbase + k * pageSize2M) := by
      rw [pml4Index, pml4Index, Fin.mk.injEq, hhdmVbase, pageSize2M]
      omega
    have entry := filled.entries (k - 1) (by omega)
    have below : isPresent (readEntry m.mem root (slot2M (k - 1)).1 (slot2M (k - 1)).2) = true := by
      rw [entry]
      exact isPresent_hugeEntry _ _
    have middle : isPresent (readEntry m.mem root [pml4Index (hhdmVbase + (k - 1) * pageSize2M)]
        (pdptIndex (hhdmVbase + (k - 1) * pageSize2M))) = true := present_of_below below
    have above : isPresent (readEntry m.mem root [] (pml4Index (hhdmVbase + (k - 1) * pageSize2M))) = true :=
      present_of_below middle
    rw [same] at above middle
    rw [tablesNeeded_of_present above]
    by_cases second : k % 512 = 0
    · omega
    · have next : pdptIndex (hhdmVbase + (k - 1) * pageSize2M) = pdptIndex (hhdmVbase + k * pageSize2M) := by
        rw [pdptIndex, pdptIndex, Fin.mk.injEq, hhdmVbase, pageSize2M]
        omega
      rw [next] at middle
      rw [tablesNeeded_of_present middle]
      omega

theorem Filled.next1G (zeroed : ∀ i, old root i = 0) (small : k < 255 * 512)
    (filled : Filled old root 1 slot1G entry1G k m) (enough : tables1G (k + 1) ≤ m.frames.length + tables1G k) :
    ∃ m', map1g m root (hhdmVbase + k * pageSize1G) (BitVec.ofNat 64 (k * pageSize1G)) hhdmFlags = .ok m' ∧
      m.frames.length + tables1G k ≤ m'.frames.length + tables1G (k + 1) ∧ Filled old root 1 slot1G entry1G (k + 1) m' := by
  have needed := filled.needed1G small
  obtain ⟨m', done, cost⟩ := map1g_returns root (hhdmVbase + k * pageSize1G) (BitVec.ofNat 64 (k * pageSize1G)) hhdmFlags
    (m := m) (by omega)
  refine ⟨m', done, by omega, ?_⟩
  have depth : ∀ n, (slot1G n).1.length = 1 := fun _ => rfl
  apply filled.step zeroed (depth k) (by decide) _ (fun n _ => depth n) (map1g_placed filled.paging filled.fresh done)
  intro n below same
  have equal := slot1G_injective (Nat.lt_trans below small) small same
  omega

theorem Filled.next2M (zeroed : ∀ i, old root i = 0) (small : k < 255 * 512 * 512)
    (filled : Filled old root 2 slot2M entry2M k m) (enough : tables2M (k + 1) ≤ m.frames.length + tables2M k) :
    ∃ m', map2m m root (hhdmVbase + k * pageSize2M) (BitVec.ofNat 64 (k * pageSize2M)) hhdmFlags = .ok m' ∧
      m.frames.length + tables2M k ≤ m'.frames.length + tables2M (k + 1) ∧ Filled old root 2 slot2M entry2M (k + 1) m' := by
  have needed := filled.needed2M small
  obtain ⟨m', done, cost⟩ := map2m_returns (hhdmVbase + k * pageSize2M) (BitVec.ofNat 64 (k * pageSize2M)) hhdmFlags
    filled.paging filled.fresh (by omega)
  refine ⟨m', done, by omega, ?_⟩
  have depth : ∀ n, (slot2M n).1.length = 2 := fun _ => rfl
  apply filled.step zeroed (depth k) (by decide) _ (fun n _ => depth n) (map2m_placed filled.paging filled.fresh done)
  intro n below same
  have equal := slot2M_injective (Nat.lt_trans below small) small same
  omega

theorem hhdmMapPhysicalMemory_1G (size : HhdmSize sizeGb) (zeroed : ∀ i, m.mem root i = 0)
    (fresh : FreshFrames root m.mem m.frames) (enough : tables1G sizeGb ≤ m.frames.length) :
    ∃ m', hhdmMapPhysicalMemory sizeGb true m root = .ok m' ∧ Filled m.mem root 1 slot1G entry1G sizeGb m' := by
  have bound := size.below
  have each : ∀ k < sizeGb, ∀ middle : Machine (List Frame),
      tables1G sizeGb ≤ middle.frames.length + tables1G k ∧ Filled m.mem root 1 slot1G entry1G k middle →
      ∃ after, map1g middle root (hhdmVbase + k * pageSize1G) (BitVec.ofNat 64 (k * pageSize1G)) hhdmFlags = .ok after ∧
        tables1G sizeGb ≤ after.frames.length + tables1G (k + 1) ∧ Filled m.mem root 1 slot1G entry1G (k + 1) after := by
    intro k inside middle ⟨left, filled⟩
    have room : tables1G (k + 1) ≤ tables1G sizeGb := by
      unfold tables1G
      omega
    obtain ⟨after, done, fewer, next⟩ := filled.next1G zeroed (by omega) (by omega)
    exact ⟨after, done, by omega, next⟩
  obtain ⟨m', done, _, filled⟩ := FallibleLoops.foldlM_range_succeeds _ each
    ⟨Nat.le_trans enough (Nat.le_add_right _ _), filled_zero zeroed fresh 1 slot1G entry1G⟩
  exact ⟨m', done, filled⟩

/-- `k` pages of 2 MiB are mapped, and there are frames for the tables of the others. -/
structure Reached2M (old : Memory) (root : Frame) (sizeGb k : Nat) (m : Machine (List Frame)) : Prop where
  frames : tables2M (sizeGb * 512) ≤ m.frames.length + tables2M k
  filled : Filled old root 2 slot2M entry2M k m

theorem Reached2M.next (zeroed : ∀ i, old root i = 0) (bound : sizeGb ≤ 255 * 512) (inside : k < sizeGb * 512)
    (reached : Reached2M old root sizeGb k m) :
    ∃ m', map2m m root (hhdmVbase + k * pageSize2M) (BitVec.ofNat 64 (k * pageSize2M)) hhdmFlags = .ok m' ∧
      Reached2M old root sizeGb (k + 1) m' := by
  have small : k < 255 * 512 * 512 := Nat.lt_of_lt_of_le inside (Nat.mul_le_mul_right 512 bound)
  have room : tables2M (k + 1) ≤ tables2M (sizeGb * 512) := by
    unfold tables2M
    omega
  have left := reached.frames
  obtain ⟨m', done, fewer, next⟩ := reached.filled.next2M zeroed small (Nat.le_trans room left)
  exact ⟨m', done, Nat.le_trans left fewer, next⟩

theorem hhdmMapPhysicalMemory_2M (size : HhdmSize sizeGb) (zeroed : ∀ i, m.mem root i = 0)
    (fresh : FreshFrames root m.mem m.frames) (enough : tables2M (sizeGb * 512) ≤ m.frames.length) :
    ∃ m', hhdmMapPhysicalMemory sizeGb false m root = .ok m' ∧ Filled m.mem root 2 slot2M entry2M (sizeGb * 512) m' := by
  have ratio : pageSize1G = 512 * pageSize2M := rfl
  -- the pages are numbered through both loops
  have page : ∀ gb < sizeGb, ∀ k < 512, ∀ middle, Reached2M m.mem root sizeGb (gb * 512 + k) middle →
      ∃ after, map2m middle root (hhdmVbase + gb * pageSize1G + k * pageSize2M)
          (BitVec.ofNat 64 (gb * pageSize1G + k * pageSize2M)) hhdmFlags = .ok after ∧
        Reached2M m.mem root sizeGb (gb * 512 + (k + 1)) after := by
    intro gb inside k low middle reached
    have number : gb * pageSize1G + k * pageSize2M = (gb * 512 + k) * pageSize2M := by
      rw [ratio, Nat.add_mul, Nat.mul_assoc]
    rw [Nat.add_assoc hhdmVbase, number, ← Nat.add_assoc]
    exact reached.next zeroed size.below (by omega)
  have each : ∀ gb < sizeGb, ∀ middle, Reached2M m.mem root sizeGb (gb * 512) middle →
      ∃ after, (List.range (pageSize1G / pageSize2M)).foldlM (fun m k =>
          map2m m root (hhdmVbase + gb * pageSize1G + k * pageSize2M)
            (BitVec.ofNat 64 (gb * pageSize1G + k * pageSize2M)) hhdmFlags) middle = .ok after ∧
        Reached2M m.mem root sizeGb ((gb + 1) * 512) after := by
    intro gb inside middle start
    have rounds : pageSize1G / pageSize2M = 512 := by decide
    rw [rounds, Nat.add_mul, Nat.one_mul]
    apply FallibleLoops.foldlM_range_succeeds (fun k middle => Reached2M m.mem root sizeGb (gb * 512 + k) middle)
    · exact page gb inside
    · rw [Nat.add_zero]
      exact start
  have start : Reached2M m.mem root sizeGb (0 * 512) m := by
    rw [Nat.zero_mul]
    exact ⟨Nat.le_trans enough (Nat.le_add_right _ _), filled_zero zeroed fresh 2 slot2M entry2M⟩
  obtain ⟨m', done, reached⟩ := FallibleLoops.foldlM_range_succeeds
    (fun gb middle => Reached2M m.mem root sizeGb (gb * 512) middle) each start
  exact ⟨m', done, reached.filled⟩

end Loops

/-- With pages of 1 GiB and with pages of 2 MiB, `hhdm_map_physical_memory` builds the same map: physical
memory at `HHDM_VBASE` and nothing else. -/
theorem direct_maps_agree {m : Machine (List Frame)} {pml4 : Frame} {sizeGb : Nat} (size : HhdmSize sizeGb)
    (zeroed : ∀ i, m.mem pml4 i = 0) (fresh : FreshFrames pml4 m.mem m.frames)
    (enough : tables2M (sizeGb * 512) ≤ m.frames.length) :
    ∃ large small, hhdmMapPhysicalMemory sizeGb true m pml4 = .ok large ∧
      hhdmMapPhysicalMemory sizeGb false m pml4 = .ok small ∧
      ∀ va, CanonicalAddress va →
        pageDirVirtToPhys large.mem pml4 va = pageDirVirtToPhys small.mem pml4 va ∧
        pageDirVirtToPhys large.mem pml4 va = directTranslation sizeGb va := by
  have fewer : tables1G sizeGb ≤ m.frames.length := by
    unfold tables1G
    unfold tables2M at enough
    omega
  obtain ⟨large, done, filled⟩ := hhdmMapPhysicalMemory_1G size zeroed fresh fewer
  obtain ⟨small, done', filled'⟩ := hhdmMapPhysicalMemory_2M size zeroed fresh enough
  refine ⟨large, small, done, done', fun va canonical => ?_⟩
  have direct := filled.translation1G size zeroed canonical
  exact ⟨direct.trans (filled'.translation2M size zeroed canonical).symm, direct⟩

theorem direct_maps_agree_one : ∃ large small : Machine (List Frame),
    hhdmMapPhysicalMemory 1 true ⟨fun _ _ => 0, [pageAt 2, pageAt 3]⟩ (pageAt 1) = .ok large ∧
    hhdmMapPhysicalMemory 1 false ⟨fun _ _ => 0, [pageAt 2, pageAt 3]⟩ (pageAt 1) = .ok small ∧
    ∀ va, CanonicalAddress va →
      pageDirVirtToPhys large.mem (pageAt 1) va = pageDirVirtToPhys small.mem (pageAt 1) va ∧
      pageDirVirtToPhys large.mem (pageAt 1) va = directTranslation 1 va := by
  apply direct_maps_agree ⟨by decide, by decide⟩ (fun _ => rfl) _ (by decide)
  refine ⟨by decide, fun f member => ⟨?_, ?_, fun _ _ => rfl⟩⟩
  · rcases List.mem_cons.mp member with rfl | member
    · exact frameOf_pageAt (by decide)
    · rw [List.mem_singleton.mp member]
      exact frameOf_pageAt (by decide)
  · intro ⟨p, _, reached⟩
    rw [(tableAt_zeroed (fun _ => rfl) reached).2] at member
    exact absurd member (by decide)

end CreeperKernel.Vmm
