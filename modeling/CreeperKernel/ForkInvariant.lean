import CreeperKernel.ForkCopy

namespace CreeperKernel.Fork

open Vmm RadixTree

theorem lower_closed {p : List Index} {i : Index} (inside : (p ++ [i]).length ≤ 3 ∧ ∀ j ∈ (p ++ [i]).head?, j.val < 256) :
    p.length ≤ 3 ∧ ∀ j ∈ p.head?, j.val < 256 := by
  obtain ⟨short, low⟩ := inside
  rw [List.length_append, List.length_singleton] at short
  refine ⟨by omega, fun j first => low j ?_⟩
  rw [List.head?_append, Option.mem_def.mp first]
  rfl

/-- The tables below the user half of a PML4. -/
def lowerScope : TableScope where
  paths := {p | p.length ≤ 3 ∧ ∀ i ∈ p.head?, i.val < 256}
  closed := lower_closed
  depth := fun _ inside => inside.1

/-- A page, by the four indices that select its leaf entry. -/
structure Slot where
  i4 : Index
  i3 : Index
  i2 : Index
  i1 : Index
  deriving DecidableEq

def Slot.path (s : Slot) : List Index := [s.i4, s.i3, s.i2]

def Slot.va (s : Slot) : Nat := vaOf s.i4 s.i3 s.i2 s.i1

def slotOf (va : Nat) : Slot := ⟨pml4Index va, pdptIndex va, pdIndex va, ptIndex va⟩

def Slot.User (s : Slot) : Prop := s.i4.val < 256

variable {s : Slot} {e : Entry}

theorem Slot.User.path_mem (user : s.User) : s.path ∈ lowerScope.paths := by
  refine ⟨Nat.le_refl 3, fun i first => ?_⟩
  cases first
  exact user

theorem vaOf_eq (i4 i3 i2 i1 : Index) : vaOf i4 i3 i2 i1 = i4 * 2 ^ 39 + i3 * 2 ^ 30 + i2 * 2 ^ 21 + i1 * 2 ^ 12 := by
  have b3 := i3.isLt
  have b2 := i2.isLt
  have b1 := i1.isLt
  have low : i1.val <<< 12 < 2 ^ 21 := by
    rw [Nat.shiftLeft_eq]
    omega
  have middle : i2.val <<< 21 ||| i1.val <<< 12 = i2 * 2 ^ 21 + i1 * 2 ^ 12 := by
    rw [← Nat.shiftLeft_add_eq_or_of_lt low, Nat.shiftLeft_eq, Nat.shiftLeft_eq]
  have upper : i3.val <<< 30 ||| (i2.val <<< 21 ||| i1.val <<< 12) =
      i3 * 2 ^ 30 + i2 * 2 ^ 21 + i1 * 2 ^ 12 := by
    rw [middle, ← Nat.shiftLeft_add_eq_or_of_lt (by omega), Nat.shiftLeft_eq]
    omega
  have whole : i4.val <<< 39 ||| (i3.val <<< 30 ||| (i2.val <<< 21 ||| i1.val <<< 12)) =
      i4 * 2 ^ 39 + i3 * 2 ^ 30 + i2 * 2 ^ 21 + i1 * 2 ^ 12 := by
    rw [upper, ← Nat.shiftLeft_add_eq_or_of_lt (by omega), Nat.shiftLeft_eq]
    omega
  rw [vaOf, Nat.or_assoc, Nat.or_assoc, whole]

theorem slotOf_va (s : Slot) : slotOf s.va = s := by
  obtain ⟨i4, i3, i2, i1⟩ := s
  have b4 := i4.isLt
  have b3 := i3.isLt
  have b2 := i2.isLt
  have b1 := i1.isLt
  simp only [slotOf, Slot.va, vaOf_eq, pml4Index, pdptIndex, pdIndex, ptIndex, Slot.mk.injEq,
    Fin.ext_iff]
  omega

def leaf (mem : Memory) (root : Frame) (s : Slot) : Option Entry := leafAt mem root s.path s.i1

theorem lookup_eq_leaf (mem : Memory) (pml4 : Frame) (va : Nat) :
    lookup mem pml4 va = leaf mem pml4 (slotOf va) := rfl

theorem leaf_present {mem : Memory} {root : Frame} (here : leaf mem root s = some e) : isPresent e = true := by
  obtain ⟨pt, -, found⟩ := Option.bind_eq_some_iff.mp here
  split at found
  · cases found
    assumption
  · cases found

/-- The bits of an entry that are not its address. -/
def flagsOf (e : Entry) : Entry := e &&& ~~~pteAddrMask

theorem getLsbD_flagsOf (e : Entry) {i : Nat} (inside : i < 64) :
    (flagsOf e).getLsbD i = (e.getLsbD i && !decide (12 ≤ i ∧ i < 52)) := by
  rw [flagsOf, BitVec.getLsbD_and, BitVec.getLsbD_not, getLsbD_pteAddrMask inside]
  simp [inside]

theorem isOwned_flagsOf (e : Entry) : isOwned (flagsOf e) = isOwned e := by
  rw [isOwned_eq, isOwned_eq, getLsbD_flagsOf e (by decide)]
  simp

theorem flagsOf_clean (e : Entry) : flagsOf e &&& pteAddrMask = 0 := by
  rw [flagsOf, BitVec.and_assoc, BitVec.not_and_self]
  exact BitVec.and_zero

theorem flagsOf_leafEntry (pa : Frame) (present : isPresent e = true) : flagsOf (leafEntry pa (flagsOf e)) = flagsOf e := by
  apply BitVec.eq_of_getLsbD_eq
  intro i inside
  rw [getLsbD_flagsOf _ inside, leafEntry, BitVec.getLsbD_or, BitVec.getLsbD_or, BitVec.getLsbD_and,
    getLsbD_pteAddrMask inside, getLsbD_flagsOf e inside]
  by_cases first : i = 0
  · subst first
    rw [isPresent_eq] at present
    simp [present]
  · have other : ptePresent.getLsbD i = false := by
      have one : ptePresent = 1#64 := by decide
      rw [one, BitVec.getLsbD_one]
      simp [first]
    rw [other]
    cases decide (12 ≤ i ∧ i < 52) <;> simp

/-- The child under construction. Everything it is built from was free when the fork
began, apart from the pages it shares with the parent. -/
structure Building (old : Kernel) (root : Frame) (m : Kernel) : Prop where
  reserve : Reserve m.frames
  total : m.frames.totalPages = old.frames.totalPages
  fewer : ∀ f, Free m.frames f → Free old.frames f
  kept : ∀ f, ¬ Free old.frames f → m.mem f = old.mem f
  paging : Paging lowerScope m.mem root
  tables : ∀ f, IsTable lowerScope m.mem root f → Free old.frames f ∧ ¬ Free m.frames f
  leaves : ∀ s, s.User → ∀ e, leaf m.mem root s = some e → Free old.frames (frameOf e) →
    ¬ Free m.frames (frameOf e) ∧ ¬ IsTable lowerScope m.mem root (frameOf e)
  unshared : ∀ s t, s.User → t.User → ∀ d e, leaf m.mem root s = some d →
    leaf m.mem root t = some e → frameOf d = frameOf e → Free old.frames (frameOf d) → s = t

/-- A page taken since the fork began that the child's tables do not refer to. -/
structure Spare (old : Kernel) (root : Frame) (m : Kernel) (f : Frame) : Prop where
  taken : Free old.frames f
  used : ¬ Free m.frames f
  noTable : ¬ IsTable lowerScope m.mem root f
  noPage : ∀ s, s.User → ∀ e, leaf m.mem root s = some e → frameOf e ≠ f

variable {old m m' : Kernel} {root : Frame} {flags : Entry}

theorem Building.ready (building : Building old root m) : Ready lowerScope root m :=
  ⟨building.reserve, fun f table => (building.tables f table).2⟩

/-- The effect of one `map_4k` on a child under construction. -/
structure Remapped (root : Frame) (m : Kernel) (s : Slot) (e : Entry) (m' : Kernel) : Prop where
  leaf : ∀ t, t.User → leaf m'.mem root t = if t = s then some e else leaf m.mem root t
  used : ∀ f, ¬ Free m.frames f → ¬ Free m'.frames f
  noTable : ∀ f, ¬ Free m.frames f → ¬ IsTable lowerScope m.mem root f →
    ¬ IsTable lowerScope m'.mem root f
  content : ∀ f, ¬ Free m.frames f → ¬ IsTable lowerScope m.mem root f → m'.mem f = m.mem f

theorem Building.remapped (building : Building old root m) {va : Nat} {pa : Frame}
    (user : (slotOf va).User) (done : map4k m root va pa flags = .ok m') :
    ∃ taken, Mapped lowerScope root m va (leafEntry pa flags) taken m' ∧ Handed m.frames taken m'.frames ∧
      Remapped root m (slotOf va) (leafEntry pa flags) m' := by
  obtain ⟨taken, mapped⟩ := map4k_spec (ready_supply lowerScope root) building.ready building.paging
    user.path_mem done
  have handed := mapped.allocs.handed building.reserve
  have noTable : ∀ f, ¬ Free m.frames f → ¬ IsTable lowerScope m.mem root f →
      ¬ IsTable lowerScope m'.mem root f := by
    intro f used noTable table
    rcases (mapped.nodes f).mp table with before | new
    · exact noTable before
    · exact used (handed.free f new)
  refine ⟨taken, mapped, handed, ?_, ?_, noTable, ?_⟩
  · intro t inside
    refine (mapped.leaves t.path inside.path_mem rfl t.i1).trans ?_
    have same : (t.path = pathOf va ∧ t.i1 = ptIndex va) ↔ t = slotOf va := by
      obtain ⟨i4, i3, i2, i1⟩ := t
      simp [Slot.path, pathOf, slotOf, and_assoc]
    simp only [same]
    rfl
  · intro f used free
    exact used ((handed.rest f).mp free).1
  · intro f used outside
    exact mapped.kept f (noTable f used outside)

/-- A page may be mapped that is not the child's own, or that is not mapped yet. -/
def Mappable (old : Kernel) (root : Frame) (m : Kernel) (pa : Frame) : Prop :=
  ¬ Free old.frames pa ∨ Spare old root m pa

theorem Building.map (building : Building old root m) {va : Nat} {pa : Frame}
    (user : (slotOf va).User) (address : frameOf (leafEntry pa flags) = pa)
    (mappable : Mappable old root m pa) (done : map4k m root va pa flags = .ok m') :
    Building old root m' ∧ Remapped root m (slotOf va) (leafEntry pa flags) m' := by
  obtain ⟨taken, mapped, handed, remapped⟩ := building.remapped user done
  have tables : ∀ f, IsTable lowerScope m'.mem root f → Free old.frames f ∧ ¬ Free m'.frames f := by
    intro f table
    rcases (mapped.nodes f).mp table with before | new
    · obtain ⟨free, used⟩ := building.tables f before
      exact ⟨free, remapped.used f used⟩
    · exact ⟨building.fewer f (handed.free f new), fun free => ((handed.rest f).mp free).2 new⟩
  have spare : Free old.frames pa → Spare old root m pa := fun free => mappable.resolve_left
    fun other => other free
  refine ⟨⟨handed.reserve, handed.total.trans building.total, ?_, ?_, mapped.paging, tables, ?_, ?_⟩,
    remapped⟩
  · intro f free
    exact building.fewer f ((handed.rest f).mp free).1
  · intro f foreign
    rw [mapped.kept f fun table => foreign (tables f table).1, building.kept f foreign]
  · intro s inside e here free
    rw [remapped.leaf s inside] at here
    split at here
    · cases here
      rw [address] at free ⊢
      exact ⟨remapped.used pa (spare free).used,
        remapped.noTable pa (spare free).used (spare free).noTable⟩
    · obtain ⟨used, noTable⟩ := building.leaves s inside e here free
      exact ⟨remapped.used _ used, remapped.noTable _ used noTable⟩
  · intro s t left right d e atS atT same free
    rw [remapped.leaf s left] at atS
    rw [remapped.leaf t right] at atT
    split at atS
    · rename_i isS
      cases atS
      rw [address] at same free
      split at atT
      · rename_i isT
        exact isS.trans isT.symm
      · exact absurd same.symm ((spare free).noPage t right e atT)
    · split at atT
      · cases atT
        rw [address] at same
        rw [same] at free
        exact absurd same ((spare free).noPage s left d atS)
      · exact building.unshared s t left right d e atS atT same free

theorem Spare.remapped {f : Frame} (spare : Spare old root m f)
    (remapped : Remapped root m s e m') (other : frameOf e ≠ f) : Spare old root m' f := by
  refine ⟨spare.taken, remapped.used f spare.used, remapped.noTable f spare.used spare.noTable, ?_⟩
  intro t inside d here
  rw [remapped.leaf t inside] at here
  split at here
  · cases here
    exact other
  · exact spare.noPage t inside d here

theorem Building.overwritten (building : Building old root m) {d e : Entry}
    (user : s.User) (here : leaf m.mem root s = some d) (own : Free old.frames (frameOf d))
    (remapped : Remapped root m s e m') (other : frameOf e ≠ frameOf d) : Spare old root m' (frameOf d) := by
  obtain ⟨used, noTable⟩ := building.leaves s user d here own
  refine ⟨own, remapped.used _ used, remapped.noTable _ used noTable, ?_⟩
  intro t inside c there same
  rw [remapped.leaf t inside] at there
  split at there
  · cases there
    exact other same
  · rename_i elsewhere
    exact elsewhere (building.unshared t s inside user c d there here same (by rw [same]; exact own))

end CreeperKernel.Fork
