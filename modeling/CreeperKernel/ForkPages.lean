import CreeperKernel.ForkInvariant

namespace CreeperKernel.Fork

open Vmm RadixTree FallibleLoops
open Transitions (Run)
open Pmm (pageSize)

variable {old m m' : Kernel} {root parent : Frame}

theorem Building.take (building : Building old root m) {taken : List Frame} {frames : Pmm.State}
    (handed : Handed m.frames taken frames) : Building old root ⟨m.mem, frames⟩ ∧
      (∀ f ∈ taken, Spare old root ⟨m.mem, frames⟩ f) ∧ ∀ f, Spare old root m f → Spare old root ⟨m.mem, frames⟩ f := by
  have stays : ∀ f, ¬ Free m.frames f → ¬ Free frames f := fun f used free =>
    used ((handed.rest f).mp free).1
  refine ⟨⟨handed.reserve, handed.total.trans building.total, ?_, building.kept, building.paging, ?_, ?_,
    building.unshared⟩, ?_, ?_⟩
  · intro f free
    exact building.fewer f ((handed.rest f).mp free).1
  · intro f table
    obtain ⟨free, used⟩ := building.tables f table
    exact ⟨free, stays f used⟩
  · intro s user e here own
    obtain ⟨used, noTable⟩ := building.leaves s user e here own
    exact ⟨stays _ used, noTable⟩
  · intro f member
    have free := handed.free f member
    refine ⟨building.fewer f free, fun still => ((handed.rest f).mp still).2 member, ?_, ?_⟩
    · intro table
      exact (building.tables f table).2 free
    · intro s user e here same
      rw [← same] at free
      exact (building.leaves s user e here (building.fewer _ free)).1 free
  · intro f spare
    exact ⟨spare.taken, stays f spare.used, spare.noTable, spare.noPage⟩

variable {first count : Nat}

theorem Building.gave (building : Building old root m) (small : first + count ≤ old.frames.totalPages)
    (spare : ∀ f ∈ blockPages (pageAt first) count, Spare old root m f) :
    Pmm.Gave m.frames (Pmm.pmmFreePages m.frames (first * pageSize) count) ⟨first, count⟩ := by
  rw [← building.total] at small
  apply Pmm.pmmFreePages_spec building.reserve.bounded (b := ⟨first, count⟩) small
  intro n member
  by_contra clear
  apply (spare _ (mem_blockPages.mpr ⟨n, member, rfl⟩)).used
  have below := (Pmm.Block.mem_frames _ n).mp member
  dsimp only at below
  refine ⟨n, (Pmm.mem_freeFrames _ n).mpr ⟨by omega, ?_⟩, rfl⟩
  simpa using clear

theorem Building.giveBack (building : Building old root m) (reserve : Reserve old.frames)
    (small : first + count ≤ old.frames.totalPages) (spare : ∀ f ∈ blockPages (pageAt first) count, Spare old root m f) :
    Building old root ⟨m.mem, Pmm.pmmFreePages m.frames (first * pageSize) count⟩ := by
  have total : m.frames.totalPages ≤ 2 ^ 40 := building.reserve.small
  have gave := building.gave small spare
  have free : ∀ f, Free (Pmm.pmmFreePages m.frames (first * pageSize) count) f →
      Free m.frames f ∨ Spare old root m f := by
    rintro f ⟨n, member, rfl⟩
    rw [Pmm.mem_freeFrames, gave.total, gave.cleared] at member
    obtain ⟨below, clear⟩ := member
    by_cases inside : n ∈ (Pmm.Block.mk first count).frames
    · exact .inr (spare _ (mem_blockPages.mpr ⟨n, inside, rfl⟩))
    · refine .inl ⟨n, (Pmm.mem_freeFrames _ n).mpr ⟨below, ?_⟩, rfl⟩
      simpa [inside] using clear
  refine ⟨⟨gave.bounded, by rw [gave.total]; exact total, fun zero => ?_⟩,
    gave.total.trans building.total, ?_, building.kept, building.paging, ?_, ?_, building.unshared⟩
  · rcases free _ ⟨0, zero, rfl⟩ with still | unused
    · exact still.ne_zero building.reserve rfl
    · exact unused.taken.ne_zero reserve rfl
  · intro f now
    rcases free f now with still | unused
    · exact building.fewer f still
    · exact unused.taken
  · intro f table
    obtain ⟨own, apart⟩ := building.tables f table
    refine ⟨own, fun now => ?_⟩
    rcases free f now with still | unused
    · exact apart still
    · exact unused.noTable table
  · intro s user e here own
    obtain ⟨apart, noTable⟩ := building.leaves s user e here own
    refine ⟨fun now => ?_, noTable⟩
    rcases free _ now with still | unused
    · exact apart still
    · exact unused.noPage s user e here rfl

/-- Memory that agrees outside pages the tables do not refer to has the same tables. -/
structure SameTables (root : Frame) (m : Kernel) (mem : Memory) : Prop where
  tables : ∀ p ∈ lowerScope.paths, tableAt mem root p = tableAt m.mem root p
  leaf : ∀ s, s.User → leaf mem root s = leaf m.mem root s

/-- The user entries of the tables are as before. -/
def SameEntries (root : Frame) (m : Kernel) (mem : Memory) : Prop :=
  ∀ p ∈ lowerScope.paths, ∀ f, tableAt m.mem root p = some f →
    ∀ i : Index, (p = [] → i.val < 256) → mem f i = m.mem f i

variable {f : Frame} {mem : Memory}

theorem SameEntries.inner (same : SameEntries root m mem) {p : List Index} {i : Index}
    (extended : p ++ [i] ∈ lowerScope.paths) (reached : tableAt m.mem root p = some f) : mem f i = m.mem f i := by
  apply same p (lowerScope.closed extended) f reached
  intro empty
  subst empty
  exact extended.2 i rfl

theorem SameEntries.tables (same : SameEntries root m mem) : SameTables root m mem := by
  have tables : ∀ p ∈ lowerScope.paths, tableAt mem root p = tableAt m.mem root p := by
    apply nodeAt_congr
    intro p i f extended reached
    rw [same.inner extended reached]
  refine ⟨tables, fun s user => ?_⟩
  apply leafAt_eq (tables _ user.path_mem)
  intro pt reached
  exact same s.path user.path_mem pt reached s.i1 fun empty => nomatch empty

variable {block : List Frame}

theorem sameEntries_of_fill (noTable : ∀ f ∈ block, ¬ IsTable lowerScope m.mem root f)
    (same : ∀ f, f ∉ block → mem f = m.mem f) : SameEntries root m mem := by
  intro p inside f reached i _
  rw [same f fun member => noTable f member ⟨p, inside, reached⟩]

theorem Building.rewrite (building : Building old root m) (kept : ∀ f, ¬ Free old.frames f → mem f = m.mem f)
    (same : SameEntries root m mem) : Building old root ⟨mem, m.frames⟩ := by
  have tables := same.tables
  have isTable : ∀ f, IsTable lowerScope mem root f ↔ IsTable lowerScope m.mem root f :=
    IsTable.congr tables.tables
  refine ⟨building.reserve, building.total, building.fewer, ?_,
    ⟨building.paging.distinct.congr tables.tables, ?_⟩, ?_, ?_, ?_⟩
  · intro f foreign
    exact (kept f foreign).trans (building.kept f foreign)
  · intro p i f extended reached present
    have before := (tables.tables p (lowerScope.closed extended)).symm.trans reached
    have unchanged := same.inner extended before
    dsimp only at present ⊢
    rw [unchanged] at present ⊢
    exact building.paging.small p i f extended before present
  · intro f table
    exact building.tables f ((isTable f).mp table)
  · intro s user e here own
    obtain ⟨used, apart⟩ := building.leaves s user e ((tables.leaf s user).symm.trans here) own
    exact ⟨used, fun table => apart ((isTable _).mp table)⟩
  · intro s t left right d e atS atT
    exact building.unshared s t left right d e ((tables.leaf s left).symm.trans atS)
      ((tables.leaf t right).symm.trans atT)

theorem Building.fill (building : Building old root m) (own : ∀ f ∈ block, Free old.frames f)
    (noTable : ∀ f ∈ block, ¬ IsTable lowerScope m.mem root f) (same : ∀ f, f ∉ block → mem f = m.mem f) :
    Building old root ⟨mem, m.frames⟩ :=
  building.rewrite (fun f foreign => same f fun member => foreign (own f member))
    (sameEntries_of_fill noTable same)

theorem Spare.fill (spare : Spare old root m f) (tables : SameTables root m mem) : Spare old root ⟨mem, m.frames⟩ f :=
  ⟨spare.taken, spare.used, fun table => spare.noTable ((IsTable.congr tables.tables f).mp table),
    fun s user e here => spare.noPage s user e ((tables.leaf s user).symm.trans here)⟩

theorem copyPages_of_not_mem (mem : Memory) (dst src : Frame) (count : Nat) (outside : f ∉ blockPages dst count) :
    copyPages mem dst src count f = mem f := by
  induction count with
  | zero => rfl
  | succ count ih =>
    rw [blockPages, List.range_succ, List.map_append, List.mem_append, not_or] at outside
    rw [copyPages, List.range_succ, List.foldl_append]
    simp only [List.foldl_cons, List.foldl_nil, copyPage]
    rw [Function.update_of_ne]
    · exact ih outside.1
    · simpa using outside.2

theorem blockPages_one (f : Frame) : blockPages f 1 = [f] := by
  simp [blockPages]

theorem copyPages_one (mem : Memory) (dst src : Frame) : copyPages mem dst src 1 dst = mem src := by
  simp [copyPages, copyPage]

/-- The parent's tables and pages are marked used. -/
structure Occupied (old : Kernel) (parent : Frame) : Prop where
  tables : ∀ f, IsTable lowerScope old.mem parent f → ¬ Free old.frames f
  pages : ∀ s, s.User → ∀ e, leaf old.mem parent s = some e → ¬ Free old.frames (frameOf e)

theorem occupied_of_present (root : ¬ Free old.frames parent)
    (used : ∀ f i, isPresent (old.mem f i) = true → ¬ Free old.frames (frameOf (old.mem f i))) : Occupied old parent := by
  refine ⟨fun f table => ?_, fun s _ e here => ?_⟩
  · obtain ⟨p, -, reached⟩ := table
    rcases List.eq_nil_or_concat' p with rfl | ⟨q, i, rfl⟩
    · cases reached
      exact root
    · rw [nodeAt_concat] at reached
      obtain ⟨t, -, child⟩ := Option.bind_eq_some_iff.mp reached
      obtain ⟨present, rfl⟩ := isPresent_of_entryChild child
      exact used t i present
  · obtain ⟨pt, -, found⟩ := Option.bind_eq_some_iff.mp here
    split at found
    · rename_i present
      cases found
      exact used pt s.i1 present
    · cases found

/-- The child's entry `e'` stands for the parent's entry `e`. -/
structure Duplicate (old m : Kernel) (e e' : Entry) : Prop where
  flags : flagsOf e' = flagsOf e
  owned : isOwned e = true → Free old.frames (frameOf e') ∧ m.mem (frameOf e') = old.mem (frameOf e)
  shared : isOwned e = false → frameOf e' = frameOf e

/-- One page of the child set from the parent's entry `e`. -/
structure Placed (old : Kernel) (root : Frame) (m : Kernel) (s : Slot) (e : Entry) (m' : Kernel) :
    Prop where
  building : Building old root m'
  entry : ∃ e', Duplicate old m' e e' ∧
    ∀ t, t.User → leaf m'.mem root t = if t = s then some e' else leaf m.mem root t
  content : ∀ f, ¬ Free m.frames f → ¬ IsTable lowerScope m.mem root f → m'.mem f = m.mem f
  spare : ∀ f, Spare old root m f → Spare old root m' f
  replaced : ∀ d, leaf m.mem root s = some d → Free old.frames (frameOf d) →
    Spare old root m' (frameOf d)

variable {e : Entry} {s : Slot}

theorem place_shared (building : Building old root m) (user : s.User) (present : isPresent e = true)
    (foreign : ¬ Free old.frames (frameOf e)) (borrowed : isOwned e = false)
    (done : map4k m root s.va (frameOf e) (flagsOf e) = .ok m') : Placed old root m s e m' := by
  have address : frameOf (leafEntry (frameOf e) (flagsOf e)) = frameOf e := by
    rw [frameOf_leafEntry _ (flagsOf_clean e), frameOf_frameOf]
  have here : (slotOf s.va).User := by rw [slotOf_va]; exact user
  obtain ⟨after, remapped⟩ := building.map here address (.inl foreign) done
  rw [slotOf_va] at remapped
  have other : ∀ f, Free old.frames f → frameOf (leafEntry (frameOf e) (flagsOf e)) ≠ f := by
    intro f free same
    rw [address] at same
    rw [same] at foreign
    exact foreign free
  refine ⟨after, ⟨_, ⟨?_, ?_, ?_⟩, remapped.leaf⟩, remapped.content, ?_, ?_⟩
  · exact flagsOf_leafEntry _ present
  · intro owned
    rw [borrowed] at owned
    cases owned
  · intro _
    exact address
  · intro f spare
    exact spare.remapped remapped (other f spare.taken)
  · intro d there own
    exact building.overwritten user there own remapped (other _ own)

theorem place_owned (building : Building old root m) (user : s.User) (present : isPresent e = true)
    (foreign : ¬ Free old.frames (frameOf e)) (owned : isOwned e = true) {pa : Frame} {middle : Kernel}
    (allocated : pmmAllocPages m 1 = .ok (pa, middle))
    (done : map4k { middle with mem := copyPages middle.mem pa (frameOf e) 1 } root s.va pa (flagsOf e) = .ok m') :
    Placed old root m s e m' := by
  obtain ⟨handed, same⟩ := allocPages_handed building.reserve (Nat.le_refl 1) allocated
  rw [blockPages_one] at handed
  rw [same] at done
  have free := handed.free pa (List.mem_singleton.mpr rfl)
  obtain ⟨took, fresh, stays⟩ := building.take handed
  have written : ∀ f, f ∉ [pa] → copyPages m.mem pa (frameOf e) 1 f = m.mem f := by
    intro f outside
    apply copyPages_of_not_mem
    rw [blockPages_one]
    exact outside
  have noTable : ∀ f ∈ [pa], ¬ IsTable lowerScope m.mem root f :=
    fun f member => (fresh f member).noTable
  have tables := (sameEntries_of_fill (m := ⟨m.mem, middle.frames⟩) noTable written).tables
  have filled := took.fill (m := ⟨m.mem, middle.frames⟩) (fun f member => (fresh f member).taken)
    noTable written
  have spare := (fresh pa (List.mem_singleton.mpr rfl)).fill tables
  have address : frameOf (leafEntry pa (flagsOf e)) = pa := by
    rw [frameOf_leafEntry _ (flagsOf_clean e), free.aligned building.reserve]
  have here : (slotOf s.va).User := by rw [slotOf_va]; exact user
  obtain ⟨after, remapped⟩ := filled.map here address (.inr spare) done
  rw [slotOf_va] at remapped
  have other : ∀ f, ¬ Free m.frames f → frameOf (leafEntry pa (flagsOf e)) ≠ f := by
    intro f used same
    rw [address] at same
    rw [← same] at used
    exact used free
  have used : ∀ f, ¬ Free m.frames f → ¬ Free middle.frames f := fun f used still =>
    used ((handed.rest f).mp still).1
  refine ⟨after, ⟨leafEntry pa (flagsOf e), ⟨?_, ?_, ?_⟩, ?_⟩, ?_, ?_, ?_⟩
  · exact flagsOf_leafEntry _ present
  · intro _
    rw [address, remapped.content pa spare.used spare.noTable]
    refine ⟨building.fewer pa free, ?_⟩
    show copyPages m.mem pa (frameOf e) 1 pa = old.mem (frameOf e)
    rw [copyPages_one, building.kept _ foreign]
  · intro borrowed
    rw [owned] at borrowed
    cases borrowed
  · intro t inside
    rw [remapped.leaf t inside]
    congr 1
    exact tables.leaf t inside
  · intro f inUse noTable
    have apart : f ∉ [pa] := by
      intro member
      rw [List.mem_singleton.mp member] at inUse
      exact inUse free
    rw [remapped.content f (used f inUse) fun table =>
      noTable ((IsTable.congr tables.tables f).mp table)]
    exact written f apart
  · intro f unused
    exact ((stays f unused).fill tables).remapped remapped (other f unused.used)
  · intro d there own
    have before := (building.leaves s user d there own).1
    exact filled.overwritten user ((tables.leaf s user).trans there) own remapped (other _ before)

end CreeperKernel.Fork
