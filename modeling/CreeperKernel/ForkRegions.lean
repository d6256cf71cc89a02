import CreeperKernel.ForkPages

namespace CreeperKernel.Fork

open Vmm
open Pmm (pageSize)

variable {old m m' : Kernel} {root parent : Frame}

/-- The page `f` was taken for slot `s`: it is mapped there or nowhere. -/
structure Pending (old : Kernel) (root : Frame) (m : Kernel) (s : Slot) (f : Frame) : Prop where
  taken : Free old.frames f
  place : Spare old root m f ∨ ∃ e, leaf m.mem root s = some e ∧ frameOf e = f

variable {f : Frame} {t s : Slot}

theorem Pending.remapped {e : Entry} (pending : Pending old root m s f) (building : Building old root m)
    (user : s.User) (remapped : Remapped root m t e m') (other : frameOf e ≠ f) : Pending old root m' s f := by
  refine ⟨pending.taken, ?_⟩
  rcases pending.place with spare | ⟨d, here, rfl⟩
  · exact .inl (spare.remapped remapped other)
  · by_cases same : s = t
    · subst same
      exact .inl (building.overwritten user here pending.taken remapped other)
    · right
      exact ⟨d, by rw [remapped.leaf s user, if_neg same]; exact here, rfl⟩

/-- What mapping the fresh pages `page i` at the slots `slot i` does to the child. -/
structure BlockMapped (old : Kernel) (root : Frame) (m : Kernel) (indices : List Nat)
    (slot : Nat → Slot) (page : Nat → Frame) (flags : Entry) (m' : Kernel) : Prop where
  building : Building old root m'
  others : ∀ t, t.User → t ∉ indices.map slot → leaf m'.mem root t = leaf m.mem root t
  mapped : (indices.map slot).Nodup → ∀ i ∈ indices,
    leaf m'.mem root (slot i) = some (leafEntry (page i) flags)
  placed : ∀ i ∈ indices, Pending old root m' (slot i) (page i)
  pending : ∀ s f, s.User → f ∉ indices.map page → Pending old root m s f → Pending old root m' s f
  spare : ∀ f, f ∉ indices.map page → Spare old root m f → Spare old root m' f
  content : ∀ f, ¬ Free m.frames f → ¬ IsTable lowerScope m.mem root f →
    ¬ Free m'.frames f ∧ ¬ IsTable lowerScope m'.mem root f ∧ m'.mem f = m.mem f

variable {flags : Entry} {va pages : Nat}

theorem mapBlock (reserve : Reserve old.frames) {pa : Frame} (clean : flags &&& pteAddrMask = 0) (indices : List Nat)
    (nodup : (indices.map fun i => pa + BitVec.ofNat 64 (i * pageSize)).Nodup)
    (user : ∀ i ∈ indices, (slotOf (va + i * pageSize)).User) (building : Building old root m)
    (spare : ∀ i ∈ indices, Spare old root m (pa + BitVec.ofNat 64 (i * pageSize)))
    (done : indices.foldlM (fun m i => map4k m root (va + i * pageSize) (pa + BitVec.ofNat 64 (i * pageSize)) flags) m = .ok m')
    : BlockMapped old root m indices (fun i => slotOf (va + i * pageSize))
      (fun i => pa + BitVec.ofNat 64 (i * pageSize)) flags m' := by
  induction indices generalizing m with
  | nil =>
    cases done
    exact ⟨building, fun _ _ _ => rfl, by simp, by simp, fun _ _ _ _ pending => pending,
      fun _ _ spare => spare, fun _ used noTable => ⟨used, noTable, rfl⟩⟩
  | cons i rest ih =>
    rw [List.foldlM_cons] at done
    obtain ⟨middle, first, others⟩ := Outcome.bind_eq_ok.mp done
    rw [List.map_cons, List.nodup_cons] at nodup
    have fresh := spare i List.mem_cons_self
    have here : (slotOf (va + i * pageSize)).User := user i List.mem_cons_self
    have address : frameOf (leafEntry (pa + BitVec.ofNat 64 (i * pageSize)) flags) =
        pa + BitVec.ofNat 64 (i * pageSize) := by
      rw [frameOf_leafEntry _ clean, fresh.taken.aligned reserve]
    obtain ⟨after, remapped⟩ := building.map here address (.inr fresh) first
    have later : ∀ j ∈ rest, Spare old root middle (pa + BitVec.ofNat 64 (j * pageSize)) := by
      intro j member
      apply (spare j (List.mem_cons_of_mem i member)).remapped remapped
      rw [address]
      intro same
      rw [same] at nodup
      exact nodup.1 (List.mem_map_of_mem member)
    have back := ih nodup.2 (fun j member => user j (List.mem_cons_of_mem i member)) after later others
    refine ⟨back.building, ?_, ?_, ?_, ?_, ?_, ?_⟩
    · intro t inside outside
      rw [List.map_cons, List.mem_cons, not_or] at outside
      rw [back.others t inside outside.2, remapped.leaf t inside, if_neg outside.1]
    · intro slots j member
      rw [List.map_cons, List.nodup_cons] at slots
      rcases List.mem_cons.mp member with rfl | member
      · rw [back.others _ here slots.1, remapped.leaf _ here, if_pos rfl]
      · exact back.mapped slots.2 j member
    · intro j member
      rcases List.mem_cons.mp member with rfl | member
      · apply back.pending _ _ here nodup.1
        refine ⟨fresh.taken, .inr ⟨_, ?_, address⟩⟩
        rw [remapped.leaf _ here, if_pos rfl]
      · exact back.placed j member
    · intro s f inside outside pending
      rw [List.map_cons, List.mem_cons, not_or] at outside
      apply back.pending s f inside outside.2
      apply pending.remapped building inside remapped
      rw [address]
      exact fun same => outside.1 same.symm
    · intro f outside unused
      rw [List.map_cons, List.mem_cons, not_or] at outside
      apply back.spare f outside.2
      apply unused.remapped remapped
      rw [address]
      exact fun same => outside.1 same.symm
    · intro f used noTable
      obtain ⟨still, apart, same⟩ :=
        back.content f (remapped.used f used) (remapped.noTable f used noTable)
      exact ⟨still, apart, same.trans (remapped.content f used noTable)⟩

def slotsFrom (va pages : Nat) : List Slot :=
  (List.range pages).map fun i => slotOf (va + i * pageSize)

/-- A block was taken from the allocator, filled with `mem`, and mapped from `va` on. -/
structure BlockAdded (old : Kernel) (root : Frame) (m : Kernel) (va pages : Nat) (f : Frame)
    (flags : Entry) (mem : Memory) (m' : Kernel) : Prop where
  building : Building old root m'
  others : ∀ t, t.User → t ∉ slotsFrom va pages → leaf m'.mem root t = leaf m.mem root t
  mapped : (slotsFrom va pages).Nodup → ∀ i < pages,
    leaf m'.mem root (slotOf (va + i * pageSize)) =
      some (leafEntry (f + BitVec.ofNat 64 (i * pageSize)) flags)
  placed : ∀ i < pages,
    Pending old root m' (slotOf (va + i * pageSize)) (f + BitVec.ofNat 64 (i * pageSize))
  block : ∀ g ∈ blockPages f pages, Free old.frames g ∧ ¬ Free m'.frames g ∧
    ¬ IsTable lowerScope m'.mem root g ∧ m'.mem g = mem g
  spare : ∀ g, Spare old root m g → Spare old root m' g
  content : ∀ g, ¬ Free m.frames g → ¬ IsTable lowerScope m.mem root g →
    ¬ Free m'.frames g ∧ ¬ IsTable lowerScope m'.mem root g ∧ m'.mem g = m.mem g

variable {mem : Memory}

theorem BlockAdded.domain (added : BlockAdded old root m va pages f flags mem m') (user : t.User)
    (here : leaf m'.mem root t ≠ none) : leaf m.mem root t ≠ none ∨ t ∈ slotsFrom va pages := by
  by_cases member : t ∈ slotsFrom va pages
  · exact .inr member
  · rw [added.others t user member] at here
    exact .inl here

theorem blockAdded (reserve : Reserve old.frames) (building : Building old root m) (clean : flags &&& pteAddrMask = 0)
    (positive : 1 ≤ pages) (user : ∀ s ∈ slotsFrom va pages, s.User) {middle : Kernel}
    (allocated : pmmAllocPages m pages = .ok (f, middle)) (written : ∀ g, g ∉ blockPages f pages → mem g = m.mem g)
    (mapped : map4kPages { middle with mem } root va f pages flags = .ok m') :
    BlockAdded old root m va pages f flags mem m' := by
  obtain ⟨handed, -⟩ := allocPages_handed building.reserve positive allocated
  obtain ⟨took, fresh, stays⟩ := building.take handed
  have noTable : ∀ g ∈ blockPages f pages, ¬ IsTable lowerScope m.mem root g :=
    fun g member => (fresh g member).noTable
  have tables := (sameEntries_of_fill (m := ⟨m.mem, middle.frames⟩) noTable written).tables
  have filled := took.fill (m := ⟨m.mem, middle.frames⟩) (fun g member => (fresh g member).taken)
    noTable written
  have spare : ∀ g ∈ blockPages f pages, Spare old root ⟨mem, middle.frames⟩ g :=
    fun g member => (fresh g member).fill tables
  have block := mapBlock reserve clean (List.range pages) handed.nodup
    (fun i member => user _ (List.mem_map_of_mem member)) filled
    (fun i member => spare _ (List.mem_map_of_mem member)) mapped
  refine ⟨block.building, ?_, ?_, ?_, ?_, ?_, ?_⟩
  · intro t inside outside
    exact (block.others t inside outside).trans (tables.leaf t inside)
  · intro nodup i below
    exact block.mapped nodup i (List.mem_range.mpr below)
  · intro i below
    exact block.placed i (List.mem_range.mpr below)
  · intro g member
    have before := spare g member
    exact ⟨before.taken, block.content g before.used before.noTable⟩
  · intro g unused
    exact block.spare g (fun member => unused.used (handed.free g member))
      ((stays g unused).fill tables)
  · intro g used noTable
    have outside : g ∉ blockPages f pages := fun member => used (handed.free g member)
    obtain ⟨still, apart, same⟩ := block.content g (fun free => used ((handed.rest g).mp free).1)
      fun table => noTable ((IsTable.congr tables.tables g).mp table)
    exact ⟨still, apart, same.trans (written g outside)⟩

/-- What copying one of the fixed regions does to the child. -/
structure RegionCopied (old : Kernel) (root : Frame) (m : Kernel) (va pages : Nat) (m' : Kernel) :
    Prop where
  building : Building old root m'
  domain : ∀ t, t.User → leaf m'.mem root t ≠ none →
    leaf m.mem root t ≠ none ∨ t ∈ slotsFrom va pages
  base : ∃ f, Pending old root m' (slotOf va) f

theorem allocPages_positive (nonzero : f ≠ 0) (allocated : pmmAllocPages m pages = .ok (f, m')) : 1 ≤ pages := by
  by_contra empty
  have zero : pages = 0 := by omega
  subst zero
  cases allocated
  exact nonzero rfl

theorem forkCopyContigBlock_spec (reserve : Reserve old.frames) (building : Building old root m) {src : Frame}
    (clean : flags &&& pteAddrMask = 0) (user : ∀ s ∈ slotsFrom va pages, s.User) (nonzero : f ≠ 0)
    (done : forkCopyContigBlock root va src pages flags m = .ok (f, m')) : RegionCopied old root m va pages m' := by
  obtain ⟨⟨pa, middle⟩, allocated, done⟩ := Outcome.bind_eq_ok.mp done
  dsimp only at done
  split at done
  · cases done
    exact absurd rfl nonzero
  · obtain ⟨last, mapped, done⟩ := Outcome.bind_eq_ok.mp done
    cases done
    have positive := allocPages_positive nonzero allocated
    obtain ⟨-, same⟩ := allocPages_handed building.reserve positive allocated
    rw [same] at mapped
    have added := blockAdded reserve building clean positive user allocated
      (fun g outside => copyPages_of_not_mem m.mem f src pages outside) mapped
    refine ⟨added.building, fun t inside here => added.domain inside here, ?_⟩
    have first := added.placed 0 positive
    rw [Nat.zero_mul] at first
    exact ⟨_, first⟩

theorem forkRegion_spec (reserve : Reserve old.frames) (building : Building old root m)
    (clean : flags &&& pteAddrMask = 0) (user : ∀ s ∈ slotsFrom va pages, s.User)
    (done : forkRegion parent root va pages flags m = .ok (true, m')) :
    walkLeafPhys m.mem parent va ≠ 0 ∧ RegionCopied old root m va pages m' := by
  unfold forkRegion at done
  dsimp only at done
  split at done
  · cases done
  · rename_i found
    obtain ⟨⟨f, middle⟩, copied, done⟩ := Outcome.bind_eq_ok.mp done
    dsimp only at done
    obtain ⟨nonzero, rfl⟩ : f ≠ 0 ∧ middle = m' := by simpa using done
    exact ⟨found, forkCopyContigBlock_spec reserve building clean user nonzero copied⟩

theorem walkLeafPhys_eq (mem : Memory) (parent : Frame) (va : Nat) : walkLeafPhys mem parent va =
    match leaf mem parent (slotOf va) with
    | none => 0
    | some e => frameOf e := by
  show _ = match lookup mem parent va with
    | none => 0
    | some e => frameOf e
  unfold walkLeafPhys
  rcases walk_cases mem parent va with broken | ⟨pdpt, pd, pt, walked⟩
  · rw [lookup_of_broken broken]
    rcases broken_walk broken with first | second | third
    · simp [first]
    · simp [second]
    · simp [third]
  · obtain ⟨present₁, rfl⟩ := isPresent_of_entryChild walked.atPdpt
    obtain ⟨present₂, rfl⟩ := isPresent_of_entryChild walked.atPd
    obtain ⟨present₃, rfl⟩ := isPresent_of_entryChild walked.atPt
    rw [walked.lookup_eq]
    simp only [present₁, present₂, present₃, not_true_eq_false, ↓reduceIte]
    split <;> simp_all

theorem leaf_of_walkLeafPhys (found : walkLeafPhys mem parent va ≠ 0) : leaf mem parent (slotOf va) ≠ none := by
  intro missing
  rw [walkLeafPhys_eq, missing] at found
  exact found rfl

theorem Building.parent_leaf (building : Building old root m) (occupied : Occupied old parent) (user : s.User) :
    leaf m.mem parent s = leaf old.mem parent s := by
  have same : ∀ p ∈ lowerScope.paths, ∀ f, tableAt old.mem parent p = some f → m.mem f = old.mem f :=
    fun p inside f reached => building.kept f (occupied.tables f ⟨p, inside, reached⟩)
  have tables : ∀ p ∈ lowerScope.paths, tableAt m.mem parent p = tableAt old.mem parent p := by
    apply RadixTree.nodeAt_congr
    intro p i f extended reached
    rw [same p (lowerScope.closed extended) f reached]
  apply leafAt_eq (tables _ user.path_mem)
  intro pt reached
  rw [same _ user.path_mem pt reached]

end CreeperKernel.Fork
